import EmbeddedCode.ChunkQueue.Streams
import Mathlib.Algebra.BigOperators.Group.Finset.Basic
import Mathlib.Algebra.BigOperators.Group.Finset.Piecewise
import Mathlib.Data.Fintype.BigOperators

/-!
# The limits for a second

`network_write_chunkqueue` keeps a counter of the bytes of a connection and one that all
connections share. A new second sets them back, the first one also a new request.
-/
namespace EmbeddedCode.ChunkQueue

open Transition

variable {P F : Type} {files : F → List UInt8} {conf : Conf P}

/-- A new second, in which the counter that is shared starts again. -/
def Action.IsSecond (a : Action P F) : Prop :=
  match a with
  | .second _ => True
  | _ => False

/-- The counter of the connection `p` starts again. -/
def Action.Restarts (a : Action P F) (p : P) : Prop :=
  match a with
  | .second q => q = p
  | .reset q => q = p
  | _ => False

variable [Fintype P]

/-- The bytes that have been sent to all connections. -/
def sentBytes (s : Server P F) : ℕ := ∑ p, (s.conns p).sent.length

theorem sentBytes_update [DecidableEq P] (s : Server P F) {p : P} {con : Connection F}
    {bytes : List UInt8} (h : con.sent = (s.conns p).sent ++ bytes) (cnt : ℕ) :
    sentBytes {s.setConn p con with globalCnt := cnt} = sentBytes s + bytes.length := by
  have hlength (q : P) : (Function.update s.conns p con q).sent.length =
      (s.conns q).sent.length + if q = p then bytes.length else 0 := by
    by_cases hq : q = p
    · subst hq
      rw [Function.update_self, h, List.length_append, if_pos rfl]
    · rw [Function.update_of_ne hq, if_neg hq, Nat.add_zero]
  simp only [sentBytes, Server.setConn, hlength, Finset.sum_add_distrib, Finset.sum_ite_eq',
    Finset.mem_univ, if_true]

/-- What the counters say of the bytes that go out between two states. -/
structure Counted (conf : Conf P) (s s' : Server P F) (second : Prop) (restarts : P → Prop) :
    Prop where
  global : ¬ second → s'.globalCnt + sentBytes s = s.globalCnt + sentBytes s'
  own : ∀ p, ¬ restarts p → (s'.conns p).bytesWrittenCurSecond + (s.conns p).sent.length =
    (s.conns p).bytesWrittenCurSecond + (s'.conns p).sent.length
  globalLimit : conf.globalKbytesPerSecond ≠ 0 →
    s.globalCnt ≤ conf.globalKbytesPerSecond * 1024 →
    s'.globalCnt ≤ conf.globalKbytesPerSecond * 1024
  limit : ∀ p, conf.kbytesPerSecond p ≠ 0 →
    (s.conns p).bytesWrittenCurSecond ≤ conf.kbytesPerSecond p * 1024 →
    (s'.conns p).bytesWrittenCurSecond ≤ conf.kbytesPerSecond p * 1024

theorem counted_refl (s : Server P F) (second : Prop) (restarts : P → Prop) :
    Counted conf s s second restarts :=
  ⟨fun _ => rfl, fun _ _ => rfl, fun _ h => h, fun _ _ h => h⟩

theorem counted_trans {s₁ s₂ s₃ : Server P F} {second second' : Prop}
    {restarts restarts' : P → Prop} (h : Counted conf s₁ s₂ second restarts)
    (h' : Counted conf s₂ s₃ second' restarts') :
    Counted conf s₁ s₃ (second ∨ second') fun p => restarts p ∨ restarts' p := by
  refine ⟨fun hs => ?_, fun p hp => ?_, fun hne hle => h'.globalLimit hne (h.globalLimit hne hle),
    fun p hne hle => h'.limit p hne (h.limit p hne hle)⟩
  · rw [not_or] at hs
    have := h.global hs.1
    have := h'.global hs.2
    omega
  · rw [not_or] at hp
    have := h.own p hp.1
    have := h'.own p hp.2
    omega

/-- A connection changes, but nothing goes out. -/
theorem counted_setConn [DecidableEq P] (s : Server P F) (p : P) (con : Connection F)
    (hsent : con.sent = (s.conns p).sent) (second : Prop) (restarts : P → Prop)
    (hcount : con.bytesWrittenCurSecond = (s.conns p).bytesWrittenCurSecond ∨
      con.bytesWrittenCurSecond = 0 ∧ restarts p) :
    Counted conf s (s.setConn p con) second restarts := by
  have hbytes := sentBytes_update s (hsent.trans (List.append_nil _).symm) s.globalCnt
  have hconn (q : P) : q = p ∨ (s.setConn p con).conns q = s.conns q := by
    by_cases hq : q = p
    · exact .inl hq
    · exact .inr (Function.update_of_ne hq _ _)
  have hself : (s.setConn p con).conns p = con := Function.update_self _ _ _
  refine ⟨fun _ => congrArg (s.globalCnt + ·) hbytes.symm, fun q hq => ?_, fun _ h => h,
    fun q _ hle => ?_⟩
  · rcases hconn q with rfl | hsame
    · rcases hcount with hcount | ⟨-, hrestarts⟩
      · rw [hself, hsent, hcount]
      · exact absurd hrestarts hq
    · rw [hsame]
  · rcases hconn q with rfl | hsame
    · rw [hself]
      rcases hcount with hcount | ⟨hzero, -⟩ <;> omega
    · rwa [hsame]

variable [DecidableEq P] {s s' : Server P F} {t : P → Stream}

/-- A call to write goes on counting where the last one has stopped. -/
theorem counted_write (hmax : 0 < conf.maxChunks) (h : ∀ p, Stands files (s.conns p) (t p)) {p : P}
    {replies : ℕ → Reply} (hs : Server.step conf files s (.write p replies) = some s')
    (second : Prop) (restarts : P → Prop) : Counted conf s s' second restarts := by
  simp only [Server.step] at hs
  split_ifs at hs with hret
  obtain ⟨con', cnt', bytes, hrun, hsends⟩ :=
    networkWriteChunkqueue_sends hmax replies p ((h p).ok (by omega)) s.globalCnt
  rw [hrun] at hs
  obtain rfl := Option.some.inj hs
  have hbytes := sentBytes_update s hsends.sent cnt'
  have hglobal := hsends.global
  refine ⟨fun _ => ?_, fun q _ => ?_, hsends.globalLimit, fun q hne hle => ?_⟩
  · show cnt' + sentBytes s = s.globalCnt + sentBytes {s.setConn p con' with globalCnt := cnt'}
    rw [hbytes, hglobal]
    omega
  · by_cases hq : q = p
    · subst hq
      simp only [Server.setConn, Function.update_self, hsends.second, hsends.sent,
        List.length_append]
      omega
    · simp only [Server.setConn, Function.update_of_ne hq]
  · by_cases hq : q = p
    · subst hq
      simp only [Server.setConn, Function.update_self]
      exact hsends.limit hne hle
    · simpa only [Server.setConn, Function.update_of_ne hq]

theorem counted_step (hmax : 0 < conf.maxChunks) (h : ∀ p, Stands files (s.conns p) (t p))
    {a : Action P F} (hs : Server.step conf files s a = some s') :
    Counted conf s s' a.IsSecond a.Restarts := by
  have happend (p : P) (kind : Kind F) (second : Prop) (restarts : P → Prop) :
      Counted conf s (s.append p kind) second restarts :=
    counted_setConn s p _ (by rfl) second restarts (.inl rfl)
  cases a with
  | appendMem p mem =>
      obtain rfl := Option.some.inj hs
      split_ifs
      · exact counted_refl _ _ _
      · exact happend _ _ _ _
  | appendBuffer p mem =>
      obtain rfl := Option.some.inj hs
      split_ifs
      · exact counted_refl _ _ _
      · exact happend _ _ _ _
  | appendFile p name offset len =>
      obtain rfl := Option.some.inj hs
      split_ifs
      · exact counted_refl _ _ _
      · exact happend _ _ _ _
  | getAppendBuffer p mem =>
      obtain rfl := Option.some.inj hs
      exact happend _ _ _ _
  | getPrependBuffer p mem =>
      obtain rfl := Option.some.inj hs
      exact counted_setConn s p _ (by rfl) _ _ (.inl rfl)
  | write p replies => exact counted_write hmax h hs _ _
  | second p =>
      obtain rfl := Option.some.inj hs
      have hconn : Counted conf s (s.setConn p {s.conns p with bytesWrittenCurSecond := 0}) True
          (p = ·) := counted_setConn s p _ (by rfl) True (p = ·) (.inr ⟨rfl, rfl⟩)
      exact ⟨fun hno => absurd trivial hno, hconn.own, fun _ _ => Nat.zero_le _, hconn.limit⟩
  | reset p =>
      simp only [Server.step] at hs
      split_ifs at hs
      obtain rfl := Option.some.inj hs
      exact counted_setConn s p _ (by rfl) _ _ (.inr ⟨rfl, rfl⟩)

theorem counted_run (hmax : 0 < conf.maxChunks) (h : ∀ p, Stands files (s.conns p) (t p))
    {as : List (Action P F)} (hs : (server conf files).run s as = some s') :
    Counted conf s s' (∃ a ∈ as, a.IsSecond) fun p => ∃ a ∈ as, a.Restarts p := by
  induction as generalizing s t with
  | nil =>
      obtain rfl := Option.some.inj hs
      exact counted_refl _ _ _
  | cons a as ih =>
      rw [Machine.run_cons] at hs
      obtain ⟨s₁, hstep, hs⟩ := Option.bind_eq_some_iff.mp hs
      obtain ⟨-, t₁, -, h₁⟩ := stands_step hmax h hstep
      have hcounted := counted_trans (counted_step hmax h hstep) (ih h₁ hs)
      simpa only [List.exists_mem_cons_iff] using hcounted

/-- In any part of a run without a new second all connections together get no more bytes than the
limit that they share, and a connection without a new request no more than its own. -/
theorem limits_kept (hmax : 0 < conf.maxChunks) {as bs : List (Action P F)}
    (hs : (server conf files).run (server conf files).init as = some s)
    (hs' : (server conf files).run s bs = some s') :
    ((∀ a ∈ bs, ¬ a.IsSecond) → conf.globalKbytesPerSecond ≠ 0 →
      ∑ p, (s'.conns p).sent.length ≤
        ∑ p, (s.conns p).sent.length + conf.globalKbytesPerSecond * 1024) ∧
    ∀ p, (∀ a ∈ bs, ¬ a.Restarts p) → conf.kbytesPerSecond p ≠ 0 →
      (s'.conns p).sent.length ≤ (s.conns p).sent.length + conf.kbytesPerSecond p * 1024 := by
  obtain ⟨ns, t, -, -, h⟩ := stands_run hmax stands_init hs
  have hbefore := counted_run hmax stands_init hs
  have hwithin := counted_run hmax h hs'
  refine ⟨fun hno hne => ?_, fun p hno hne => ?_⟩
  · have hcount := hwithin.global fun ⟨a, ha, hsecond⟩ => hno a ha hsecond
    have hlimit := hwithin.globalLimit hne (hbefore.globalLimit hne (Nat.zero_le _))
    unfold sentBytes at hcount
    omega
  · have hcount := hwithin.own p fun ⟨a, ha, hrestarts⟩ => hno a ha hrestarts
    have hlimit := hwithin.limit p hne (hbefore.limit p hne (Nat.zero_le _))
    omega

/-- Of 1500 bytes under limits of 1024 no more than these go out in two calls. -/
theorem limits_kept_twice :
    let conf : Conf Unit := ⟨fun _ => 1, 1, 2⟩
    let replies (_ : ℕ) : Reply := ⟨true, true, .wrote 1000⟩
    ∃ s s', (server conf (fun _ : Unit => [])).run (server conf (fun _ : Unit => [])).init
        [.getAppendBuffer () (List.replicate 1501 7)] = some s ∧
      (server conf (fun _ : Unit => [])).run s [.write () replies, .write () replies] = some s' ∧
      (s'.conns ()).sent.length = 1024 ∧
      ∑ p, (s'.conns p).sent.length ≤ ∑ p, (s.conns p).sent.length + 1 * 1024 := by
  intro conf replies
  have hbuffer : ((server conf (fun _ : Unit => [])).run (server conf (fun _ : Unit => [])).init
      [.getAppendBuffer () (List.replicate 1501 7)]).isSome := by decide +kernel
  have hrun : (((server conf (fun _ : Unit => [])).run (server conf (fun _ : Unit => [])).init
      [.getAppendBuffer () (List.replicate 1501 7)]).bind fun s =>
        (server conf (fun _ : Unit => [])).run s [.write () replies, .write () replies]).map
      (fun s => (s.conns ()).sent.length) = some 1024 := by decide +kernel
  obtain ⟨s, hs⟩ := Option.isSome_iff_exists.mp hbuffer
  rw [hs, Option.bind_some] at hrun
  obtain ⟨s', hs', hlength⟩ := Option.map_eq_some_iff.mp hrun
  have hkept := limits_kept (show 0 < conf.maxChunks by decide) hs hs'
  have hsum := hkept.1 (by simp [Action.IsSecond]) (by decide)
  exact ⟨s, s', hs, hs', hlength, hsum⟩

end EmbeddedCode.ChunkQueue
