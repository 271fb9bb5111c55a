import EmbeddedCode.ChunkQueue.Writev

/-!
# What goes out on the connections

The chunk queues stand for streams of bytes: what is appended, in memory or in files, goes out in
order and once, in parts of any size. A part is never larger than the limits for a second leave it.
-/
namespace EmbeddedCode.ChunkQueue

open Transition

/-- All bytes of a connection in their order, and how many of them are sent. -/
structure Stream where
  total : List UInt8
  done : ℕ
  deriving DecidableEq, Repr

inductive StreamAction (P : Type) where
  | append (p : P) (bytes : List UInt8)
  /-- Put in front of what is not sent. -/
  | prepend (p : P) (bytes : List UInt8)
  | send (p : P) (n : ℕ)
  | idle

namespace Stream

def append (t : Stream) (bytes : List UInt8) : Stream := {t with total := t.total ++ bytes}

def prepend (t : Stream) (bytes : List UInt8) : Stream :=
  {t with total := t.total.take t.done ++ bytes ++ t.total.drop t.done}

def send (t : Stream) (n : ℕ) : Stream := {t with done := t.done + n}

def step {P : Type} [DecidableEq P] (t : P → Stream) : StreamAction P → Option (P → Stream)
  | .append p bytes => some (Function.update t p ((t p).append bytes))
  | .prepend p bytes => some (Function.update t p ((t p).prepend bytes))
  | .send p n =>
      if (t p).done + n ≤ (t p).total.length then some (Function.update t p ((t p).send n))
      else none
  | .idle => some t

end Stream

def streams (P : Type) [DecidableEq P] : Machine (P → Stream) (StreamAction P) where
  init := fun _ => ⟨[], 0⟩
  step := Stream.step

variable {P F : Type} [DecidableEq P] {files : F → List UInt8} {conf : Conf P}

/-- What an action is for the streams, `n` bytes are sent in it if it writes. -/
def Action.onStreams (files : F → List UInt8) (a : Action P F) (n : ℕ) : StreamAction P :=
  match a with
  | .appendMem p mem => .append p mem.dropLast
  | .appendBuffer p mem => .append p mem.dropLast
  | .appendFile p name offset len => .append p (((paged (files name)).drop offset).take len)
  | .getAppendBuffer p mem => .append p mem.dropLast
  | .getPrependBuffer p mem => .prepend p mem.dropLast
  | .write p _ => .send p n
  | .second _ => .idle
  | .reset _ => .idle

/-- The bytes that a queue is still to send. -/
def pending (files : F → List UInt8) (cq : List (Chunk F)) : List UInt8 :=
  cq.flatMap (Chunk.pend files)

/-- The connection `con` of `p` has become `con'` and the shared counter `cnt'` while `bytes` went
out. -/
structure Sends (conf : Conf P) (files : F → List UInt8) (p : P) (con con' : Connection F)
    (cnt cnt' : ℕ) (bytes : List UInt8) : Prop where
  sent : con'.sent = con.sent ++ bytes
  pending : pending files con.writeQueue = bytes ++ pending files con'.writeQueue
  global : cnt' = cnt + bytes.length
  second : con'.bytesWrittenCurSecond = con.bytesWrittenCurSecond + bytes.length
  ok : 0 ≤ con'.ret → ∀ c ∈ con'.writeQueue, c.Ok
  complete : con'.ret = 0 → con'.writeQueue = []
  globalLimit : conf.globalKbytesPerSecond ≠ 0 → cnt ≤ conf.globalKbytesPerSecond * 1024 →
    cnt' ≤ conf.globalKbytesPerSecond * 1024
  limit : conf.kbytesPerSecond p ≠ 0 →
    con.bytesWrittenCurSecond ≤ conf.kbytesPerSecond p * 1024 →
    con'.bytesWrittenCurSecond ≤ conf.kbytesPerSecond p * 1024

theorem underLimit_le {kbytes count maxBytes n : ℕ}
    (h : underLimit kbytes count maxBytes = some n) :
    n ≤ maxBytes ∧ (kbytes ≠ 0 → count + n ≤ kbytes * 1024) := by
  unfold underLimit at h
  split_ifs at h with hzero hlimit
  · obtain rfl := Option.some.inj h
    exact ⟨Nat.le_refl _, fun hne => absurd hzero hne⟩
  · obtain rfl := Option.some.inj h
    omega

theorem pending_dropWhile (cq : List (Chunk F)) :
    pending files (cq.dropWhile Chunk.IsFinished) = pending files cq := by
  induction cq with
  | nil => rfl
  | cons c cq ih =>
      by_cases hc : c.IsFinished
      · rw [List.dropWhile_cons_of_pos hc, ih]
        simp [pending, Chunk.pend_of_isFinished hc]
      · rw [List.dropWhile_cons_of_neg hc]

omit [DecidableEq P] in
theorem networkWriteChunkqueue_sends (hmax : 0 < conf.maxChunks) (replies : ℕ → Reply) (p : P)
    {con : Connection F} (hok : ∀ c ∈ con.writeQueue, c.Ok) (cnt : ℕ) :
    ∃ con' cnt' bytes, networkWriteChunkqueue conf files replies p con cnt = some (con', cnt') ∧
      Sends conf files p con con' cnt cnt' bytes := by
  unfold networkWriteChunkqueue
  simp only
  split
  · refine ⟨_, _, [], rfl, ?_⟩
    exact ⟨by simp, by simp, rfl, rfl, fun _ => hok, by simp, fun _ h => h, fun _ h => h⟩
  · rename_i maxBytes hlimited
    obtain ⟨room, hroom, hmaxBytes⟩ := Option.bind_eq_some_iff.mp hlimited
    obtain ⟨hle, hglobal⟩ := underLimit_le hroom
    obtain ⟨hle', hown⟩ := underLimit_le hmaxBytes
    obtain ⟨⟨s, ret⟩, hrun, hout⟩ := writev_outcome files hmax replies hok maxBytes con.sent
    obtain ⟨bytes, hbytes⟩ := hout.grown
    have hconserved := hout.conserved
    have hlength := hout.limited
    simp only at hbytes hconserved hlength
    rw [← hbytes, List.append_assoc, List.append_cancel_left_eq] at hconserved
    rw [← hbytes, List.length_append] at hlength
    have hwritten : s.sent.length - con.sent.length = bytes.length := by
      rw [← hbytes, List.length_append, Nat.add_sub_cancel_left]
    rw [hrun]
    refine ⟨_, _, bytes, rfl, ⟨hbytes.symm, ?_, by rw [hwritten], by rw [hwritten], ?_, ?_, ?_, ?_⟩⟩
    · simp only
      split_ifs
      · rw [pending_dropWhile]
        exact hconserved.symm
      · exact hconserved.symm
    · simp only
      intro hret
      have hge : 0 ≤ ret := by
        split_ifs at hret <;> omega
      obtain ⟨done, cs, hqueue, hdone, hcs⟩ := hout.left hge
      simp only at hqueue
      rw [if_pos hge, hqueue, List.dropWhile_append_of_pos hdone]
      exact fun c hc => hcs c (List.dropWhile_subset _ hc)
    · simp only
      intro hret
      split_ifs at hret ⊢ with hge hempty
      · exact hempty
      · cases hret
      · omega
    · intro hne _
      have := hglobal hne
      simp only [hwritten]
      omega
    · intro hne _
      have := hown hne
      simp only [hwritten]
      omega

/-- The connection stands for the stream `t`. -/
structure Stands (files : F → List UInt8) (con : Connection F) (t : Stream) : Prop where
  done_le : t.done ≤ t.total.length
  sent : con.sent = t.total.take t.done
  pending : pending files con.writeQueue = t.total.drop t.done
  ok : 0 ≤ con.ret → ∀ c ∈ con.writeQueue, c.Ok

namespace Stands

variable {con con' : Connection F} {t : Stream}

theorem append (h : Stands files con t) {kind : Kind F} (hok : Chunk.Ok ⟨kind, 0⟩)
    {bytes : List UInt8} (hpend : Chunk.pend files ⟨kind, 0⟩ = bytes) :
    Stands files {con with writeQueue := con.writeQueue ++ [⟨kind, 0⟩]} (t.append bytes) := by
  have hle := h.done_le
  refine ⟨?_, ?_, ?_, fun hret => ?_⟩
  · simp only [Stream.append, List.length_append]
    omega
  · simp only [Stream.append]
    rw [h.sent, List.take_append_of_le_length hle]
  · have hpending := h.pending
    simp only [ChunkQueue.pending, Stream.append] at hpending ⊢
    rw [List.flatMap_append, hpending, List.flatMap_singleton, hpend,
      List.drop_append_of_le_length hle]
  · exact List.forall_mem_append.mpr ⟨h.ok hret, by simpa using hok⟩

theorem prepend (h : Stands files con t) {kind : Kind F} (hok : Chunk.Ok ⟨kind, 0⟩)
    {bytes : List UInt8} (hpend : Chunk.pend files ⟨kind, 0⟩ = bytes) :
    Stands files {con with writeQueue := ⟨kind, 0⟩ :: con.writeQueue} (t.prepend bytes) := by
  have hle := h.done_le
  have hlen : (t.total.take t.done).length = t.done := by
    rw [List.length_take]
    omega
  refine ⟨?_, ?_, ?_, fun hret => ?_⟩
  · simp only [Stream.prepend, List.length_append, hlen]
    omega
  · simp only [Stream.prepend]
    rw [h.sent, List.append_assoc, List.take_append_of_le_length (Nat.le_of_eq hlen.symm),
      List.take_take, Nat.min_self]
  · have hpending := h.pending
    simp only [ChunkQueue.pending, Stream.prepend] at hpending ⊢
    rw [List.flatMap_cons, hpending, hpend, List.append_assoc]
    exact (List.drop_left' hlen).symm
  · exact List.forall_mem_cons.mpr ⟨hok, h.ok hret⟩

omit [DecidableEq P] in
/-- What goes out is the next part of the stream. -/
theorem send (h : Stands files con t) {p : P} {cnt cnt' : ℕ} {bytes : List UInt8}
    (hs : Sends conf files p con con' cnt cnt' bytes) :
    t.done + bytes.length ≤ t.total.length ∧ Stands files con' (t.send bytes.length) := by
  have hpending := h.pending
  rw [hs.pending] at hpending
  have hlength := congrArg List.length hpending
  have hle := h.done_le
  rw [List.length_append, List.length_drop] at hlength
  have hsum : t.done + bytes.length ≤ t.total.length := by omega
  refine ⟨hsum, hsum, ?_, ?_, hs.ok⟩
  · simp only [Stream.send]
    rw [hs.sent, h.sent, List.take_add, ← hpending, List.take_left]
  · simp only [Stream.send]
    rw [← List.drop_drop, ← hpending, List.drop_left]

end Stands

variable {s s' : Server P F} {t : P → Stream}

theorem stands_update (h : ∀ p, Stands files (s.conns p) (t p)) {p : P} {con : Connection F}
    {stream : Stream} (hp : Stands files con stream) (q : P) :
    Stands files (Function.update s.conns p con q) (Function.update t p stream q) := by
  by_cases hq : q = p
  · subst hq
    rwa [Function.update_self, Function.update_self]
  · rw [Function.update_of_ne hq, Function.update_of_ne hq]
    exact h q

theorem stands_same (h : ∀ p, Stands files (s.conns p) (t p)) {p : P} {con : Connection F}
    (hp : Stands files con (t p)) (q : P) :
    Stands files (Function.update s.conns p con q) (t q) := by
  have hupdate : Stands files (Function.update s.conns p con q) (Function.update t p (t p) q) :=
    stands_update h hp q
  rwa [Function.update_eq_self] at hupdate

/-- Nothing is appended for an empty buffer, and otherwise what is in it before its NUL. -/
theorem stands_appendMem (h : ∀ p, Stands files (s.conns p) (t p)) (p : P) (mem : List UInt8)
    (q : P) :
    Stands files ((if mem = [] then s else s.append p (.mem (mem.dropLast ++ [0]))).conns q)
      (Function.update t p ((t p).append mem.dropLast) q) := by
  split_ifs with hmem
  · have hsame : (t p).append mem.dropLast = t p := by simp [Stream.append, hmem]
    rw [hsame, Function.update_eq_self]
    exact h q
  · exact stands_update h ((h p).append (Nat.zero_le _) (by simp [Chunk.pend, Chunk.toSend])) q

theorem stands_step (hmax : 0 < conf.maxChunks) (h : ∀ p, Stands files (s.conns p) (t p))
    {a : Action P F} (hs : Server.step conf files s a = some s') :
    ∃ n t', Stream.step t (a.onStreams files n) = some t' ∧
      ∀ p, Stands files (s'.conns p) (t' p) := by
  cases a with
  | appendMem p mem =>
      obtain rfl := Option.some.inj hs
      exact ⟨0, _, rfl, stands_appendMem h p mem⟩
  | appendBuffer p mem =>
      obtain rfl := Option.some.inj hs
      exact ⟨0, _, rfl, stands_appendMem h p mem⟩
  | appendFile p name offset len =>
      obtain rfl := Option.some.inj hs
      refine ⟨0, _, rfl, fun q => ?_⟩
      by_cases hlen : len = 0
      · have hsame : (t p).append (((paged (files name)).drop offset).take len) = t p := by
          simp [Stream.append, hlen]
        rw [if_pos hlen, hsame, Function.update_eq_self]
        exact h q
      · rw [if_neg hlen]
        have hok : Chunk.Ok ⟨.file name offset len none, 0⟩ := ⟨Nat.pos_of_ne_zero hlen, rfl⟩
        exact stands_update h ((h p).append hok (by simp [Chunk.pend])) q
  | getAppendBuffer p mem =>
      obtain rfl := Option.some.inj hs
      exact ⟨0, _, rfl, stands_update h ((h p).append (Nat.zero_le _) rfl)⟩
  | getPrependBuffer p mem =>
      obtain rfl := Option.some.inj hs
      exact ⟨0, _, rfl, stands_update h ((h p).prepend (Nat.zero_le _) rfl)⟩
  | write p replies =>
      simp only [Server.step] at hs
      split_ifs at hs with hret
      obtain ⟨con', cnt', bytes, hrun, hsends⟩ :=
        networkWriteChunkqueue_sends hmax replies p ((h p).ok (by omega)) s.globalCnt
      rw [hrun] at hs
      obtain rfl := Option.some.inj hs
      obtain ⟨hle, hstands⟩ := (h p).send hsends
      exact ⟨bytes.length, _, if_pos hle, stands_update h hstands⟩
  | second p =>
      obtain rfl := Option.some.inj hs
      have hp := h p
      exact ⟨0, t, rfl, stands_same h ⟨hp.done_le, hp.sent, hp.pending, hp.ok⟩⟩
  | reset p =>
      simp only [Server.step] at hs
      split_ifs at hs
      obtain rfl := Option.some.inj hs
      have hp := h p
      exact ⟨0, t, rfl, stands_same h ⟨hp.done_le, hp.sent, hp.pending, hp.ok⟩⟩

theorem stands_init (p : P) : Stands files ((server conf files).init.conns p)
    ((streams P).init p) :=
  ⟨Nat.le_refl _, rfl, rfl, by simp [server]⟩

/-- A run of the server from connections that stand for streams is one of the streams. -/
theorem stands_run (hmax : 0 < conf.maxChunks) (h : ∀ p, Stands files (s.conns p) (t p))
    {as : List (Action P F)} (hs : (server conf files).run s as = some s') :
    ∃ ns t', ns.length = as.length ∧
      (streams P).run t (List.zipWith (Action.onStreams files) as ns) = some t' ∧
      ∀ p, Stands files (s'.conns p) (t' p) := by
  induction as generalizing s t with
  | nil =>
      obtain rfl := Option.some.inj hs
      exact ⟨[], t, rfl, rfl, h⟩
  | cons a as ih =>
      rw [Machine.run_cons] at hs
      obtain ⟨s₁, hstep, hs⟩ := Option.bind_eq_some_iff.mp hs
      obtain ⟨n, t₁, ht₁, h₁⟩ := stands_step hmax h hstep
      obtain ⟨ns, t', hlength, ht', h'⟩ := ih h₁ hs
      refine ⟨n :: ns, t', congrArg Nat.succ hlength, ?_, h'⟩
      rw [List.zipWith_cons_cons, Machine.run_cons]
      exact Option.bind_eq_some_iff.mpr ⟨t₁, ht₁, ht'⟩

/-- A range of a file that does not go past its end. -/
theorem paged_range {content : List UInt8} {offset len : ℕ} (h : offset + len ≤ content.length) :
    ((paged content).drop offset).take len = (content.drop offset).take len := by
  have hlen : len ≤ (content.drop offset).length := by
    rw [List.length_drop]
    omega
  rw [paged, List.drop_append_of_le_length (by omega), List.take_append_of_le_length hlen]

/-- Whatever is appended to the queues, in memory or in files, and whatever parts of it the system
takes: the bytes of each connection go out in their order and once, where a range that goes past the
end of its file goes on with the zeros of the last page. A call to write returns unless the
connection has failed, and returns 0 only when all bytes are sent. -/
theorem queues_are_streams (hmax : 0 < conf.maxChunks) {as : List (Action P F)}
    (hs : (server conf files).run (server conf files).init as = some s) :
    ∃ ns t, ns.length = as.length ∧
      (streams P).run (streams P).init (List.zipWith (Action.onStreams files) as ns) = some t ∧
      ∀ p, (s.conns p).sent = (t p).total.take (t p).done ∧
        pending files (s.conns p).writeQueue = (t p).total.drop (t p).done ∧
        (0 ≤ (s.conns p).ret → ∀ replies, ∃ s',
          Server.step conf files s (.write p replies) = some s' ∧
          ((s'.conns p).ret = 0 → (s'.conns p).sent = (t p).total)) := by
  obtain ⟨ns, t, hlength, ht, h⟩ := stands_run hmax stands_init hs
  refine ⟨ns, t, hlength, ht, fun p => ⟨(h p).sent, (h p).pending, fun hret replies => ?_⟩⟩
  obtain ⟨con', cnt', bytes, hrun, hsends⟩ :=
    networkWriteChunkqueue_sends hmax replies p ((h p).ok hret) s.globalCnt
  refine ⟨{s.setConn p con' with globalCnt := cnt'}, ?_, fun hzero => ?_⟩
  · simp only [Server.step]
    rw [if_neg (by omega), hrun]
    rfl
  · simp only [Server.setConn, Function.update_self] at hzero ⊢
    have hpending := (h p).pending
    rw [hsends.pending, hsends.complete hzero] at hpending
    rw [hsends.sent, (h p).sent]
    have hnil : pending files ([] : List (Chunk F)) = [] := rfl
    rw [hnil, List.append_nil] at hpending
    rw [hpending, List.take_append_drop]

/-- Two bytes and three of a file, which go out as one, three and one. -/
theorem queues_are_streams_parts :
    let conf : Conf Unit := ⟨fun _ => 0, 0, 2⟩
    let files : Unit → List UInt8 := fun _ => [10, 20, 30, 40, 50]
    let replies (n k : ℕ) : Reply := ⟨true, true, .wrote (if k = 0 then n else 2)⟩
    let as : List (Action Unit Unit) := [.appendMem () [1, 2, 0], .appendFile () () 1 3,
      .write () (replies 1), .write () (replies 1)]
    ∃ s, (server conf files).run (server conf files).init as = some s ∧
      (s.conns ()).sent = [1, 2, 20, 30] ∧
      ∃ t : Stream, t.total.take t.done = [1, 2, 20, 30] ∧ t.total.drop t.done = [40] := by
  intro conf files replies as
  have hrun : ((server conf files).run (server conf files).init as).map
      (fun s => ((s.conns ()).sent, (s.conns ()).writeQueue)) =
      some ([1, 2, 20, 30], [⟨.file () 1 3 (some ⟨4, 0⟩), 2⟩]) := by decide +kernel
  obtain ⟨s, hs, heq⟩ := Option.map_eq_some_iff.mp hrun
  obtain ⟨hsent, hqueue⟩ := Prod.mk.inj heq
  obtain ⟨ns, t, -, -, h⟩ := queues_are_streams (show 0 < conf.maxChunks by decide) hs
  obtain ⟨htake, hdrop, -⟩ := h ()
  refine ⟨s, hs, hsent, t (), htake.symm.trans hsent, hdrop.symm.trans ?_⟩
  rw [hqueue]
  rfl

end EmbeddedCode.ChunkQueue
