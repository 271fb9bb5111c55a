import EmbeddedCode.ChunkQueue.Model
import Mathlib.Data.List.Basic
import Mathlib.Data.List.TakeWhile

/-!
# What a call of `writev` and `write` leaves of the queue

Whatever the system takes of the chunks that it is offered goes to the socket from the front of
what is pending, and nothing else is taken out of the queue.
-/
namespace EmbeddedCode.ChunkQueue

open Loop

variable {F : Type} {files : F → List UInt8}

namespace Chunk

/-- The bytes of a chunk that are still to be sent. -/
def pend (files : F → List UInt8) (c : Chunk F) : List UInt8 :=
  match c.kind with
  | .mem _ => c.toSend
  | .file name start length _ =>
      ((paged (files name)).drop (start + c.offset)).take (length - c.offset)

theorem pend_of_isMem {c : Chunk F} (h : c.IsMem) : c.pend files = c.toSend := by
  unfold IsMem at h
  unfold pend
  cases hkind : c.kind with
  | mem bytes => rfl
  | file name start length mmap => simp [hkind] at h

theorem pend_of_isFinished {c : Chunk F} (h : c.IsFinished) : c.pend files = [] := by
  unfold IsFinished at h
  unfold pend toSend
  cases hkind : c.kind with
  | mem bytes =>
      simp only [hkind, decide_eq_true_eq] at h ⊢
      rw [List.drop_eq_nil_iff, List.length_dropLast]
      omega
  | file name start length mmap =>
      simp only [hkind, decide_eq_true_eq] at h ⊢
      simp [h]

/-- The byte that is written next lies in the area or at its end. -/
structure Serves (start length offset : ℕ) (area : Mmap) : Prop where
  offset_le : area.offset ≤ start + offset
  le_end : start + offset ≤ area.offset + area.length
  end_le : area.offset + area.length ≤ start + length
  whole : area.length = weWantToMmap ∨ area.offset + area.length = start + length

/-- A chunk of which nothing is written but what its offset says, and not all of a file. -/
def Ok (c : Chunk F) : Prop :=
  match c.kind with
  | .mem bytes => c.offset ≤ bytes.length - 1
  | .file _ start length mmap => c.offset < length ∧
      match mmap with
      | none => c.offset = 0
      | some area => Serves start length c.offset area

@[simp] theorem advance_isMem (c : Chunk F) (n : ℕ) : (c.advance n).IsMem = c.IsMem := rfl

theorem toSend_advance (c : Chunk F) (n : ℕ) : (c.advance n).toSend = c.toSend.drop n := by
  cases hkind : c.kind with
  | mem bytes => simp [toSend, advance, hkind]
  | file name start length mmap => simp [toSend, advance, hkind]

theorem length_toSend {c : Chunk F} {bytes : List UInt8} (h : c.kind = .mem bytes) :
    c.toSend.length = bytes.length - 1 - c.offset := by
  simp [toSend, h]

theorem Ok.advance {c : Chunk F} (h : c.Ok) (hmem : c.IsMem) {n : ℕ} (hn : n ≤ c.toSend.length) :
    (c.advance n).Ok := by
  cases hkind : c.kind with
  | mem bytes =>
      rw [length_toSend hkind] at hn
      simp only [Ok, hkind, Chunk.advance] at h ⊢
      omega
  | file name start length mmap => simp [IsMem, hkind] at hmem

theorem Ok.isFinished {c : Chunk F} (h : c.Ok) (hmem : c.IsMem) :
    (c.advance c.toSend.length).IsFinished := by
  cases hkind : c.kind with
  | mem bytes =>
      rw [length_toSend hkind]
      simp only [Ok, hkind] at h
      simp only [IsFinished, Chunk.advance, hkind, decide_eq_true_eq]
      omega
  | file name start length mmap => simp [IsMem, hkind] at hmem

theorem toSend_of_used {c : Chunk F} (hmem : c.IsMem) (h : c.used = 0) : c.toSend = [] := by
  cases hkind : c.kind with
  | mem bytes =>
      simp only [used, hkind, List.length_eq_zero_iff] at h
      simp [toSend, hkind, h]
  | file name start length mmap => simp [IsMem, hkind] at hmem

end Chunk

/-- What `iov` offers. -/
def offered (maxBytes numBytes : ℕ) (tcs : List (Chunk F)) : List UInt8 :=
  (tcs.zip (iovLens maxBytes numBytes tcs)).flatMap fun tc => tc.1.toSend.take tc.2

/-- The chunks are offered from the front, as far as the limit allows it. -/
theorem offered_eq {maxBytes numBytes : ℕ} (hle : numBytes ≤ maxBytes) {tcs : List (Chunk F)}
    (hmem : ∀ c ∈ tcs, c.IsMem) :
    offered maxBytes numBytes tcs = (tcs.flatMap Chunk.toSend).take (maxBytes - numBytes) := by
  induction tcs generalizing numBytes with
  | nil => simp [offered, iovLens]
  | cons tc tcs ih =>
      rw [List.forall_mem_cons] at hmem
      unfold offered iovLens
      split_ifs with hused hcut
      · have hnil := Chunk.toSend_of_used hmem.1 hused
        rw [List.zip_cons_cons, List.flatMap_cons, List.flatMap_cons, hnil]
        exact ih hle hmem.2
      · simp only [List.zip_cons_cons, List.zip_nil_right, List.flatMap_cons, List.flatMap_nil,
          List.append_nil]
        exact (List.take_append_of_le_length (by omega)).symm
      · rw [List.zip_cons_cons, List.flatMap_cons, List.flatMap_cons, List.take_length]
        have hrest := ih (show numBytes + tc.toSend.length ≤ maxBytes by omega) hmem.2
        unfold offered at hrest
        have htake : tc.toSend.take (maxBytes - numBytes) = tc.toSend :=
          List.take_of_length_le (by omega)
        rw [hrest, List.take_append, htake, Nat.sub_add_eq]

theorem map_fst_zip_append {α β : Type} (xs : List α) (ys : List β) :
    (xs.zip ys).map Prod.fst ++ xs.drop ((xs.zip ys).map Prod.fst).length = xs := by
  induction xs generalizing ys with
  | nil => rfl
  | cons x xs ih =>
      cases ys with
      | nil => rfl
      | cons y ys => simpa using ih ys

theorem markWritten_of_le {r len : ℕ} (h : len ≤ r) (tc : Chunk F) (chunks : List (Chunk F × ℕ)) :
    markWritten r ((tc, len) :: chunks) =
      (tc.advance len :: (markWritten (r - len) chunks).1, (markWritten (r - len) chunks).2) := by
  rw [markWritten, if_pos h]

theorem markWritten_of_lt {r len : ℕ} (h : r < len) (tc : Chunk F) (chunks : List (Chunk F × ℕ)) :
    markWritten r ((tc, len) :: chunks) = (tc.advance r :: chunks.map Prod.fst, false) := by
  rw [markWritten, if_neg (Nat.not_le_of_gt h)]

/-- What holds of the chunks `cs` that the chunks `tcs` are after `r` bytes of at most `room`. -/
structure Marked (room r : ℕ) (tcs cs : List (Chunk F)) (finished : Bool) : Prop where
  toSend : (cs ++ tcs.drop cs.length).flatMap Chunk.toSend = (tcs.flatMap Chunk.toSend).drop r
  mem : ∀ c ∈ cs, c.IsMem ∧ c.Ok
  ne_nil : tcs ≠ [] → cs ≠ []
  done : finished → (∀ c ∈ cs, c.IsFinished) ∨ r = room ∧
    ∃ done last, cs = done ++ [last] ∧ ∀ c ∈ done, c.IsFinished

theorem Marked.cons {room r : ℕ} {tc : Chunk F} {tcs cs : List (Chunk F)} {finished : Bool}
    (hmem : tc.IsMem) (hok : tc.Ok) (hr : tc.toSend.length ≤ r) (hroom : r ≤ room)
    (h : Marked (room - tc.toSend.length) (r - tc.toSend.length) tcs cs finished) :
    Marked room r (tc :: tcs) (tc.advance tc.toSend.length :: cs) finished := by
  have hfinished := hok.isFinished hmem
  refine ⟨?_, ?_, fun _ => by simp, fun hf => ?_⟩
  · have hnil : (tc.advance tc.toSend.length).toSend = [] := by simp [Chunk.toSend_advance]
    rw [List.cons_append, List.length_cons, List.drop_succ_cons, List.flatMap_cons, hnil,
      List.nil_append, h.toSend, List.flatMap_cons, List.drop_append,
      List.drop_eq_nil_of_le hr, List.nil_append]
  · exact List.forall_mem_cons.mpr ⟨⟨hmem, hok.advance hmem (Nat.le_refl _)⟩, h.mem⟩
  · rcases h.done hf with hall | ⟨heq, done, last, hcs, hdone⟩
    · exact .inl (List.forall_mem_cons.mpr ⟨hfinished, hall⟩)
    · refine .inr ⟨by omega, tc.advance tc.toSend.length :: done, last, by rw [hcs]; rfl, ?_⟩
      exact List.forall_mem_cons.mpr ⟨hfinished, hdone⟩

theorem marked {maxBytes numBytes : ℕ} (hle : numBytes ≤ maxBytes)
    {tcs : List (Chunk F)} (hmem : ∀ c ∈ tcs, c.IsMem) (hok : ∀ c ∈ tcs, c.Ok) {r : ℕ}
    (hr : r ≤ (offered maxBytes numBytes tcs).length) :
    Marked (maxBytes - numBytes) r tcs (markWritten r (tcs.zip (iovLens maxBytes numBytes tcs))).1
      (markWritten r (tcs.zip (iovLens maxBytes numBytes tcs))).2 := by
  induction tcs generalizing numBytes r with
  | nil =>
      exact ⟨by simp [markWritten, iovLens], by simp [markWritten, iovLens], fun h => absurd rfl h,
        fun _ => .inl (by simp [markWritten, iovLens])⟩
  | cons tc tcs ih =>
      have heq := offered_eq hle hmem
      rw [heq, List.flatMap_cons, List.length_take, List.length_append] at hr
      rw [List.forall_mem_cons] at hmem hok
      unfold iovLens
      split_ifs with hused hcut
      · -- nothing is offered of a buffer that is not used
        have hlen : tc.toSend.length = 0 := by rw [Chunk.toSend_of_used hmem.1 hused]; rfl
        have hrest := ih hle hmem.2 hok.2 (r := r) (by
          rw [offered_eq hle hmem.2, List.length_take]
          omega)
        rw [List.zip_cons_cons, markWritten_of_le (Nat.zero_le r)]
        have hcons := Marked.cons hmem.1 hok.1 (by omega) (by omega)
          (show Marked (maxBytes - numBytes - tc.toSend.length) (r - tc.toSend.length) tcs _ _ by
            rw [hlen]
            exact hrest)
        rwa [hlen] at hcons
      · rw [List.zip_cons_cons, List.zip_nil_right]
        have hfits : r ≤ maxBytes - numBytes := by omega
        have hpart : r ≤ tc.toSend.length := by omega
        have hdrop : (tc.toSend ++ tcs.flatMap Chunk.toSend).drop r =
            tc.toSend.drop r ++ tcs.flatMap Chunk.toSend := List.drop_append_of_le_length hpart
        rcases Nat.lt_or_eq_of_le hfits with hlt | heq
        · rw [markWritten_of_lt hlt]
          refine ⟨?_, ?_, by simp, by simp⟩
          · simp [Chunk.toSend_advance, hdrop]
          · simpa using ⟨hmem.1, hok.1.advance hmem.1 hpart⟩
        · rw [markWritten_of_le (Nat.le_of_eq heq.symm), ← heq]
          refine ⟨?_, ?_, by simp, fun _ => .inr ⟨rfl, [], tc.advance r, rfl, by simp⟩⟩
          · simp [markWritten, Chunk.toSend_advance, hdrop]
          · simpa [markWritten] using ⟨hmem.1, hok.1.advance hmem.1 hpart⟩
      · rw [List.zip_cons_cons]
        rcases Nat.lt_or_ge r tc.toSend.length with hlt | hge
        · have hdrop : (tc.toSend ++ tcs.flatMap Chunk.toSend).drop r =
              tc.toSend.drop r ++ tcs.flatMap Chunk.toSend :=
            List.drop_append_of_le_length (Nat.le_of_lt hlt)
          have hall := map_fst_zip_append tcs (iovLens maxBytes (numBytes + tc.toSend.length) tcs)
          rw [markWritten_of_lt hlt]
          refine ⟨?_, ?_, by simp, by simp⟩
          · rw [List.cons_append, List.length_cons, List.drop_succ_cons, hall, List.flatMap_cons,
              List.flatMap_cons, Chunk.toSend_advance, hdrop]
          · refine List.forall_mem_cons.mpr
              ⟨⟨hmem.1, hok.1.advance hmem.1 (Nat.le_of_lt hlt)⟩, fun c hc => ?_⟩
            have htcs : c ∈ tcs := hall ▸ List.mem_append_left _ hc
            exact ⟨hmem.2 c htcs, hok.2 c htcs⟩
        · rw [markWritten_of_le hge]
          have hnum : numBytes + tc.toSend.length ≤ maxBytes := by omega
          refine Marked.cons hmem.1 hok.1 hge (by omega) ?_
          rw [Nat.sub_sub]
          refine ih hnum hmem.2 hok.2 ?_
          rw [offered_eq hnum hmem.2, List.length_take]
          omega

theorem length_markWritten (r : ℕ) (iov : List (Chunk F × ℕ)) :
    (markWritten r iov).1.length = iov.length := by
  induction iov generalizing r with
  | nil => rfl
  | cons tc iov ih =>
      rcases Nat.lt_or_ge r tc.2 with hlt | hge
      · rw [markWritten_of_lt hlt]
        simp
      · rw [markWritten_of_le hge]
        simp [ih]

/-- The first area that is mapped holds the start of the chunk, or ends there. -/
theorem skipAreas_spec {start n offset : ℕ} (hle : offset ≤ start) (hn : start ≤ n + offset) :
    skipAreas start n offset ≤ start ∧ start ≤ skipAreas start n offset + weWantToMmap := by
  have hpos : 0 < weWantToMmap := by decide
  induction n generalizing offset with
  | zero =>
      unfold skipAreas
      omega
  | succ n ih =>
      unfold skipAreas
      split_ifs with h
      · exact ih (by omega) (by omega)
      · omega

theorem newArea_serves {name : F} {start length offset : ℕ} {mmap : Option Mmap}
    (hok : Chunk.Ok ⟨.file name start length mmap, offset⟩)
    (hend : ∀ m ∈ mmap, start + offset = m.offset + m.length) :
    Chunk.Serves start length offset (newArea start length offset mmap) := by
  obtain ⟨hlt, hok⟩ := hok
  have hpos : 0 < weWantToMmap := by decide
  cases mmap with
  | none =>
      obtain ⟨hle, hge⟩ := skipAreas_spec (Nat.zero_le start) (Nat.le_refl start)
      simp only at hlt hok
      unfold newArea
      simp only
      split_ifs
      · exact ⟨by simp only; omega, by simp only; omega, by simp only; omega, .inl rfl⟩
      · exact ⟨by simp only; omega, by simp only; omega, by simp only; omega,
          .inr (by simp only; omega)⟩
  | some m =>
      have hwhole := hok.whole
      have hm := hend m rfl
      simp only at hlt hwhole
      unfold newArea
      simp only
      split_ifs
      · exact ⟨by simp only; omega, by simp only; omega, by simp only; omega, .inl rfl⟩
      · exact ⟨by simp only; omega, by simp only; omega, by simp only; omega,
          .inr (by simp only; omega)⟩

namespace Writing

/-- The loop started with the bytes `sent` at the socket, and may send up to `room` bytes in all, of
`total`. Everything before `c` is written, but for a chunk that the limit has cut. -/
structure Inv (files : F → List UInt8) (total sent : List UInt8) (room : ℕ) (s : Writing F) :
    Prop where
  conserved : s.sent ++ s.queue.flatMap (Chunk.pend files) = total
  grown : sent <+: s.sent
  limited : s.sent.length + s.maxBytes = room
  before : ∃ done cut, s.before = done ++ cut ∧ (∀ c ∈ done, c.IsFinished) ∧ (∀ c ∈ cut, c.Ok) ∧
    (cut = [] ∨ s.maxBytes = 0)
  ok : ∀ c ∈ s.chunks, c.Ok

/-- What the loop leaves with the value `ret`. -/
structure Outcome (files : F → List UInt8) (total sent : List UInt8) (room : ℕ)
    (r : Writing F × ℤ) : Prop where
  conserved : r.1.sent ++ r.1.queue.flatMap (Chunk.pend files) = total
  grown : sent <+: r.1.sent
  limited : r.1.sent.length ≤ room
  left : 0 ≤ r.2 → ∃ done cs, r.1.queue = done ++ cs ∧ (∀ c ∈ done, c.IsFinished) ∧
    ∀ c ∈ cs, c.Ok

variable {total sent : List UInt8} {room : ℕ} {s : Writing F}

theorem Inv.outcome (h : Inv files total sent room s) (ret : ℤ) :
    Outcome files total sent room (s, ret) := by
  obtain ⟨done, cut, hbefore, hdone, hcut, -⟩ := h.before
  refine ⟨h.conserved, h.grown, h.limited ▸ Nat.le_add_right _ _, fun _ => ?_⟩
  refine ⟨done, cut ++ s.chunks, ?_, hdone, List.forall_mem_append.mpr ⟨hcut, h.ok⟩⟩
  rw [queue, hbefore, List.append_assoc]

/-- A turn of the loop: it goes on behind a chunk or leaves. -/
def Turns (files : F → List UInt8) (total sent : List UInt8) (room : ℕ) (s : Writing F)
    (turn : Option (Turn (Writing F) (Writing F × ℤ))) : Prop :=
  (∃ t, turn = some (.again t) ∧ Inv files total sent room t ∧
    t.chunks.length < s.chunks.length) ∨
  ∃ r, turn = some (.leave r) ∧ Outcome files total sent room r

theorem flatMap_pend {cs : List (Chunk F)} (h : ∀ c ∈ cs, c.IsMem) :
    cs.flatMap (Chunk.pend files) = cs.flatMap Chunk.toSend :=
  List.flatMap_congr fun c hc => Chunk.pend_of_isMem (h c hc)

theorem flatMap_pend_finished {cs : List (Chunk F)} (h : ∀ c ∈ cs, c.IsFinished) :
    cs.flatMap (Chunk.pend files) = [] := by
  rw [List.flatMap_eq_nil_iff]
  exact fun c hc => Chunk.pend_of_isFinished (h c hc)

theorem taken_le {offered r : ℕ} {written : Written} (h : taken offered written = .ok r) :
    r ≤ offered := by
  cases written with
  | wrote n =>
      cases h
      exact Nat.min_le_right n offered
  | again =>
      cases h
      exact Nat.zero_le _
  | closed => cases h
  | failed => cases h

theorem taken_neg {offered : ℕ} {e : ℤ} {written : Written} (h : taken offered written = .error e) :
    e < 0 := by
  cases written with
  | wrote n => cases h
  | again => cases h
  | closed =>
      cases h
      decide
  | failed =>
      cases h
      decide

/-- Nothing is cut while the limit is not reached. -/
theorem Inv.before_finished (h : Inv files total sent room s) (hroom : s.maxBytes ≠ 0) :
    ∀ c ∈ s.before, c.IsFinished := by
  obtain ⟨done, cut, hbefore, hdone, -, hcut | hzero⟩ := h.before
  · rw [hbefore, hcut, List.append_nil]
    exact hdone
  · exact absurd hzero hroom

theorem Inv.memTurn (h : Inv files total sent room s) (hroom : s.maxBytes ≠ 0) {c : Chunk F}
    {cs : List (Chunk F)} (hchunks : s.chunks = c :: cs) (hc : c.IsMem) {maxChunks : ℕ}
    (hmax : 0 < maxChunks) (reply : Reply) :
    Turns files total sent room s (some (memTurn maxChunks reply s)) := by
  have hprefix : (s.chunks.takeWhile Chunk.IsMem).take maxChunks <+: s.chunks :=
    (List.take_prefix _ _).trans (List.takeWhile_prefix _)
  have hmem : ∀ c ∈ (s.chunks.takeWhile Chunk.IsMem).take maxChunks, c.IsMem :=
    fun c hc => List.mem_takeWhile_imp (List.mem_of_mem_take hc)
  have hne : (s.chunks.takeWhile Chunk.IsMem).take maxChunks ≠ [] := by
    obtain ⟨n, rfl⟩ : ∃ n, maxChunks = n + 1 := ⟨maxChunks - 1, by omega⟩
    rw [hchunks, List.takeWhile_cons_of_pos hc, List.take_succ_cons]
    exact List.cons_ne_nil _ _
  unfold Writing.memTurn
  generalize (s.chunks.takeWhile Chunk.IsMem).take maxChunks = batch at *
  obtain ⟨behind, hbehind⟩ := hprefix
  have hok : ∀ c ∈ batch, c.Ok := fun c hc => h.ok c (hbehind ▸ List.mem_append_left _ hc)
  have hoffered := offered_eq (Nat.zero_le s.maxBytes) hmem
  have hbefore := h.before_finished hroom
  have hconserved := h.conserved
  rw [queue, ← hbehind, List.flatMap_append, List.flatMap_append, flatMap_pend_finished hbefore,
    List.nil_append, flatMap_pend hmem] at hconserved
  simp only
  cases htaken : taken (offered s.maxBytes 0 batch).length reply.written with
  | error e =>
      exact .inr ⟨(s, e), by simp only [offered] at htaken; simp only [htaken], h.outcome e⟩
  | ok r =>
      have hr := taken_le htaken
      have hmarked := marked (Nat.zero_le s.maxBytes) hmem hok hr
      have hlength := length_markWritten r (batch.zip (iovLens s.maxBytes 0 batch))
      have hroomr : r ≤ s.maxBytes := by
        rw [hoffered, List.length_take] at hr
        omega
      have hsent : (offered s.maxBytes 0 batch).take r = (batch.flatMap Chunk.toSend).take r := by
        rw [hoffered, List.take_take, Nat.min_eq_left (by omega)]
      simp only [offered] at htaken hsent
      simp only [htaken, hsent]
      generalize markWritten r (batch.zip (iovLens s.maxBytes 0 batch)) = m at *
      obtain ⟨tcs, finished⟩ := m
      simp only at hmarked hlength ⊢
      rw [List.length_zip] at hlength
      have hdrop : s.chunks.drop tcs.length = batch.drop tcs.length ++ behind := by
        rw [← hbehind, List.drop_append_of_le_length (by omega)]
      have hpend : (s.before ++ (tcs ++ s.chunks.drop tcs.length)).flatMap (Chunk.pend files) =
          (batch.flatMap Chunk.toSend).drop r ++ behind.flatMap (Chunk.pend files) := by
        have hall : ∀ c ∈ tcs ++ batch.drop tcs.length, c.IsMem := by
          intro c hc
          rcases List.mem_append.mp hc with hc | hc
          · exact (hmarked.mem c hc).1
          · exact hmem c (List.mem_of_mem_drop hc)
        rw [hdrop, List.flatMap_append, flatMap_pend_finished hbefore, List.nil_append,
          ← List.append_assoc, List.flatMap_append, flatMap_pend hall, hmarked.toSend]
      have hnew : s.sent ++ (batch.flatMap Chunk.toSend).take r ++
          (s.before ++ (tcs ++ s.chunks.drop tcs.length)).flatMap (Chunk.pend files) = total := by
        rw [hpend, List.append_assoc, ← List.append_assoc (List.take r _), List.take_append_drop,
          hconserved]
      have hgrown := h.grown.trans (List.prefix_append s.sent ((batch.flatMap Chunk.toSend).take r))
      have hlen : ((batch.flatMap Chunk.toSend).take r).length = r := by
        rw [hoffered, List.length_take] at hr
        rw [List.length_take]
        omega
      have hlimited := h.limited
      have hokDrop : ∀ c ∈ s.chunks.drop tcs.length, c.Ok :=
        fun c hc => h.ok c (List.mem_of_mem_drop hc)
      cases finished with
      | true =>
          refine .inl ⟨_, rfl, ⟨?_, hgrown, ?_, ?_, hokDrop⟩, ?_⟩
          · rw [queue]
            simp only
            rw [List.append_assoc s.before]
            exact hnew
          · simp only [List.length_append, hlen]
            omega
          · rcases hmarked.done rfl with hall | ⟨heq, done, last, hlast, hdone⟩
            · exact ⟨s.before ++ tcs, [], (List.append_nil _).symm,
                List.forall_mem_append.mpr ⟨hbefore, hall⟩, by simp, .inl rfl⟩
            · refine ⟨s.before ++ done, [last], by simp only [hlast, List.append_assoc],
                List.forall_mem_append.mpr ⟨hbefore, hdone⟩, ?_, .inr ?_⟩
              · rw [List.forall_mem_singleton]
                exact (hmarked.mem last (by simp [hlast])).2
              · simp only
                omega
          · have hpos := List.length_pos_iff.mpr (hmarked.ne_nil hne)
            have hchunk := congrArg List.length hchunks
            simp only [List.length_cons, List.length_drop] at hchunk ⊢
            omega
      | false =>
          refine .inr ⟨_, rfl, ⟨hnew, hgrown, ?_, fun _ => ⟨s.before, _, rfl, hbefore, ?_⟩⟩⟩
          · simp only [List.length_append, hlen]
            omega
          · exact List.forall_mem_append.mpr ⟨fun c hc => (hmarked.mem c hc).2, hokDrop⟩

/-- The queue after `before`, with another record of what is mapped of the file. -/
theorem Inv.remapped (h : Inv files total sent room s) {name : F} {start length offset : ℕ}
    {mmap : Option Mmap} {cs : List (Chunk F)}
    (hchunks : s.chunks = ⟨.file name start length mmap, offset⟩ :: cs) (mmap' : Option Mmap)
    {ret : ℤ} (hret : ret < 0) : Outcome files total sent room
      ({s with chunks := ⟨.file name start length mmap', offset⟩ :: cs}, ret) := by
  refine ⟨?_, h.grown, h.limited ▸ Nat.le_add_right _ _, fun hge => absurd hret (by omega)⟩
  have hconserved := h.conserved
  rw [queue, hchunks, List.flatMap_append, List.flatMap_cons] at hconserved
  rw [queue, List.flatMap_append, List.flatMap_cons]
  exact hconserved

theorem Inv.fileWrite (h : Inv files total sent room s) (hroom : s.maxBytes ≠ 0) {name : F}
    {start length offset : ℕ} {mmap : Option Mmap} {cs : List (Chunk F)}
    (hchunks : s.chunks = ⟨.file name start length mmap, offset⟩ :: cs) (hlt : offset < length)
    {area : Mmap} (harea : Chunk.Serves start length offset area) (written : Written) :
    Turns files total sent room s
      (fileWrite (files name) name start length area offset cs written s) := by
  have hserves := harea
  obtain ⟨hle, hge, hend, hwhole⟩ := harea
  have hbefore := h.before_finished hroom
  have hconserved := h.conserved
  have hokall := h.ok
  have hlimited := h.limited
  rw [queue, hchunks, List.flatMap_append, flatMap_pend_finished hbefore, List.nil_append,
    List.flatMap_cons] at hconserved
  rw [hchunks, List.forall_mem_cons] at hokall
  unfold Writing.fileWrite
  simp only
  rw [if_neg (by omega)]
  generalize htoSend : min (area.offset + area.length - (start + offset)) s.maxBytes = toSend
  cases htaken :
      taken (((paged (files name)).drop (start + offset)).take toSend).length written with
  | error e => exact .inr ⟨_, rfl, h.remapped hchunks (some area) (taken_neg htaken)⟩
  | ok r =>
      have hr := taken_le htaken
      rw [List.length_take, List.length_drop] at hr
      have htake : (((paged (files name)).drop (start + offset)).take toSend).take r =
          ((paged (files name)).drop (start + offset)).take r := by
        rw [List.take_take, Nat.min_eq_left (by omega)]
      have hlen : (((paged (files name)).drop (start + offset)).take r).length = r := by
        rw [List.length_take, List.length_drop]
        omega
      have hpend (mmap' : Option Mmap) :
          ((paged (files name)).drop (start + offset)).take r ++
            Chunk.pend files ⟨.file name start length mmap', offset + r⟩ =
          Chunk.pend files ⟨.file name start length mmap, offset⟩ := by
        have hsum : length - offset = r + (length - (offset + r)) := by omega
        simp only [Chunk.pend]
        rw [hsum, List.take_add, List.drop_drop, Nat.add_assoc]
      have hnew (mmap' : Option Mmap) :
          s.sent ++ ((paged (files name)).drop (start + offset)).take r ++
            (s.before ++ ⟨.file name start length mmap', offset + r⟩ :: cs).flatMap
              (Chunk.pend files) = total := by
        rw [List.flatMap_append, flatMap_pend_finished hbefore, List.nil_append, List.flatMap_cons,
          List.append_assoc, ← List.append_assoc (List.take r _), hpend, hconserved]
      have hgrown := h.grown.trans
        (List.prefix_append s.sent (((paged (files name)).drop (start + offset)).take r))
      simp only [htake]
      split_ifs with hfinished
      · refine .inl ⟨_, rfl, ⟨?_, hgrown, ?_, ?_, hokall.2⟩, ?_⟩
        · have hnone := hnew none
          rw [List.append_cons] at hnone
          exact hnone
        · simp only [List.length_append, hlen]
          omega
        · refine ⟨s.before ++ [⟨.file name start length none, offset + r⟩], [],
            (List.append_nil _).symm, List.forall_mem_append.mpr ⟨hbefore, ?_⟩, by simp, .inl rfl⟩
          rw [List.forall_mem_singleton]
          simpa [Chunk.IsFinished] using hfinished
        · rw [hchunks]
          exact Nat.lt_succ_self _
      · refine .inr ⟨_, rfl,
          ⟨hnew (some area), hgrown, ?_, fun _ => ⟨s.before, _, rfl, hbefore, ?_⟩⟩⟩
        · simp only [List.length_append, hlen]
          omega
        · refine List.forall_mem_cons.mpr ⟨⟨by simp only; omega, ?_⟩, hokall.2⟩
          exact ⟨by simp only; omega, by simp only; omega, hend, hwhole⟩

theorem Inv.fileTurn (h : Inv files total sent room s) (hroom : s.maxBytes ≠ 0) {name : F}
    {start length offset : ℕ} {mmap : Option Mmap} {cs : List (Chunk F)}
    (hchunks : s.chunks = ⟨.file name start length mmap, offset⟩ :: cs) (reply : Reply) :
    Turns files total sent room s
      (fileTurn (files name) name start length mmap offset cs reply s) := by
  have hok : Chunk.Ok ⟨.file name start length mmap, offset⟩ := h.ok _ (by simp [hchunks])
  obtain ⟨hlt, harea⟩ := id hok
  unfold Writing.fileTurn
  simp only
  by_cases hfound : (!reply.found) = true ∨ start + offset > (files name).length
  · rw [if_pos hfound]
    exact .inr ⟨_, rfl, h.outcome (-1)⟩
  · rw [if_neg hfound]
    split
    · rename_i area hfilter
      obtain ⟨hmmap, -⟩ := Option.filter_eq_some_iff.mp hfilter
      subst hmmap
      exact h.fileWrite hroom hchunks hlt harea reply.written
    · rename_i hfilter
      split_ifs with hmapped
      · refine h.fileWrite hroom hchunks hlt (newArea_serves hok fun m hm => ?_) reply.written
        have := Option.filter_eq_none_iff.mp hfilter m hm
        simpa using this
      · exact .inr ⟨_, rfl, h.remapped hchunks none (by decide)⟩

theorem Inv.turn (h : Inv files total sent room s) {maxChunks : ℕ} (hmax : 0 < maxChunks)
    (replies : ℕ → Reply) :
    Turns files total sent room s (turn files maxChunks replies s) := by
  unfold Writing.turn
  split
  · exact .inr ⟨_, rfl, h.outcome 0⟩
  · rename_i c cs hchunks
    split_ifs with hroom
    · exact .inr ⟨_, rfl, h.outcome 0⟩
    · split
      · rename_i bytes hkind
        exact h.memTurn hroom hchunks (by simp [Chunk.IsMem, hkind]) hmax _
      · rename_i name start length mmap hkind
        obtain ⟨kind, offset⟩ := c
        obtain rfl : kind = .file name start length mmap := hkind
        exact h.fileTurn hroom hchunks _

end Writing

/-- Whatever the system answers, the call returns. What the socket has taken of the queue comes from
its front, no more than it may be, and the chunks that are left are as they were or in step. -/
theorem writev_outcome (files : F → List UInt8) {maxChunks : ℕ} (hmax : 0 < maxChunks)
    (replies : ℕ → Reply) {cq : List (Chunk F)} (hok : ∀ c ∈ cq, c.Ok) (maxBytes : ℕ)
    (sent : List UInt8) :
    ∃ r, writev files maxChunks replies cq maxBytes sent = some r ∧
      Writing.Outcome files (sent ++ cq.flatMap (Chunk.pend files)) sent (sent.length + maxBytes)
        r :=
  run_within_measure (I := Writing.Inv files _ sent _) (fun s => s.chunks.length)
    (fun _ hs => hs.turn hmax replies)
    ⟨rfl, List.prefix_rfl, rfl, ⟨[], [], rfl, by simp, by simp, .inl rfl⟩, hok⟩
    (Nat.lt_succ_self _)

end EmbeddedCode.ChunkQueue
