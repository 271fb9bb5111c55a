import EmbeddedCode.Library.Transition
import Mathlib.Data.List.Basic

/-!
# A pipe in shared memory

`05shm/writer.c` and `read.c`. The writer fills the buffer in the shared memory from its
standard input, the reader copies the buffer to its standard output, and two semaphores
pass the buffer from one to the other. Each access to a semaphore and each access to the
shared memory is one step.
-/
namespace EmbeddedCode.SharedMemory

open Transition

def bufSize : ℕ := 4096

/-- Where the writer stands in `main`, after `write_init`. -/
inductive WriterPc where
  | waiting
  | reading
  /-- `read` has returned `n`, which is to be stored in `count`. -/
  | storing (n : ℕ)
  | posting
  | testing
  /-- In the `sem_wait` after the loop. -/
  | finalWait
  | done
  deriving DecidableEq, Repr

/-- Where the reader stands in `main`, after its `write_init`. -/
inductive ReaderPc where
  | waiting
  /-- `count` is to be read, as the argument of `write`. -/
  | loading
  | writing (count : ℕ)
  | posting (n : ℕ)
  | testing (n : ℕ)
  | done
  deriving DecidableEq, Repr

structure State (β : Type) where
  semWrite : ℕ
  semRead : ℕ
  buf : List β
  count : ℕ
  writer : WriterPc
  reader : ReaderPc
  /-- The input that the writer has not read yet. -/
  rest : List β
  /-- The input that the writer has read. -/
  taken : List β
  output : List β
  deriving DecidableEq, Repr

inductive Action where
  | writerWait
  /-- `read` returns `n` bytes, or 0 at the end of the input. -/
  | read (n : ℕ)
  | store
  | writerPost
  | writerTest
  | readerWait
  | load
  | write
  | readerPost
  | readerTest
  deriving DecidableEq, Repr

variable {β : Type}

namespace State

def stepWriter (s : State β) : Action → WriterPc → Option (State β)
  | .writerWait, .waiting =>
      if 0 < s.semWrite then some {s with semWrite := s.semWrite - 1, writer := .reading} else none
  | .read n, .reading =>
      if n ≤ bufSize ∧ n ≤ s.rest.length ∧ (n = 0 → s.rest = []) then
        some {s with
          buf := s.rest.take n ++ s.buf.drop n
          rest := s.rest.drop n
          taken := s.taken ++ s.rest.take n
          writer := .storing n}
      else none
  | .store, .storing n => some {s with count := n, writer := .posting}
  | .writerPost, .posting => some {s with semRead := s.semRead + 1, writer := .testing}
  | .writerTest, .testing =>
      some {s with writer := if s.count = 0 then .finalWait else .waiting}
  | .writerWait, .finalWait =>
      if 0 < s.semWrite then some {s with semWrite := s.semWrite - 1, writer := .done} else none
  | _, _ => none

def stepReader (s : State β) : Action → ReaderPc → Option (State β)
  | .readerWait, .waiting =>
      if 0 < s.semRead then some {s with semRead := s.semRead - 1, reader := .loading} else none
  | .load, .loading => some {s with reader := .writing s.count}
  | .write, .writing count =>
      some {s with output := s.output ++ s.buf.take count, reader := .posting count}
  | .readerPost, .posting n =>
      some {s with semWrite := s.semWrite + 1, reader := .testing n}
  | .readerTest, .testing n => some {s with reader := if n = 0 then .done else .waiting}
  | _, _ => none

def step (s : State β) (a : Action) : Option (State β) :=
  match a with
  | .writerWait | .read _ | .store | .writerPost | .writerTest => s.stepWriter a s.writer
  | .readerWait | .load | .write | .readerPost | .readerTest => s.stepReader a s.reader

end State

/-- The processes with the semaphores freshly created, over a memory that holds `buf` and
`count`. -/
def machine (buf : List β) (count : ℕ) (input : List β) : Machine (State β) Action where
  init := ⟨1, 0, buf, count, .waiting, .waiting, input, [], []⟩
  step := State.step

/-- The step writes to the shared memory. -/
def Action.Writes : Action → Prop
  | .read _ | .store => True
  | _ => False

/-- The reader is between its `sem_wait` and its `sem_post`. -/
def ReaderPc.Inside : ReaderPc → Prop
  | .loading | .writing _ | .posting _ => True
  | _ => False

/-- Both processes are blocked on a semaphore. -/
def Blocked (s : State β) : Prop :=
  (s.writer = .waiting ∨ s.writer = .finalWait) ∧ s.semWrite = 0 ∧
    s.reader = .waiting ∧ s.semRead = 0

/-- Both processes have left their loops. -/
def Left (s : State β) : Prop :=
  (s.writer = .finalWait ∨ s.writer = .done) ∧ s.reader = .done

/-- What a step does: one case for each step of each process. -/
inductive State.Step (s : State β) : Action → State β → Prop
  | writerWait : s.writer = .waiting → 0 < s.semWrite →
      Step s .writerWait {s with semWrite := s.semWrite - 1, writer := .reading}
  | read {n : ℕ} : s.writer = .reading → n ≤ s.rest.length → (n = 0 → s.rest = []) →
      Step s (.read n) {s with
        buf := s.rest.take n ++ s.buf.drop n
        rest := s.rest.drop n
        taken := s.taken ++ s.rest.take n
        writer := .storing n}
  | store {n : ℕ} : s.writer = .storing n → Step s .store {s with count := n, writer := .posting}
  | writerPost : s.writer = .posting →
      Step s .writerPost {s with semRead := s.semRead + 1, writer := .testing}
  | again : s.writer = .testing → Step s .writerTest {s with writer := .waiting}
  | leave : s.writer = .testing → s.count = 0 → Step s .writerTest {s with writer := .finalWait}
  | finalWait : s.writer = .finalWait → 0 < s.semWrite →
      Step s .writerWait {s with semWrite := s.semWrite - 1, writer := .done}
  | readerWait : s.reader = .waiting → 0 < s.semRead →
      Step s .readerWait {s with semRead := s.semRead - 1, reader := .loading}
  | load : s.reader = .loading → Step s .load {s with reader := .writing s.count}
  | write {n : ℕ} : s.reader = .writing n →
      Step s .write {s with output := s.output ++ s.buf.take n, reader := .posting n}
  | readerPost {n : ℕ} : s.reader = .posting n →
      Step s .readerPost {s with semWrite := s.semWrite + 1, reader := .testing n}
  | readerTest {n : ℕ} : s.reader = .testing n →
      Step s .readerTest {s with reader := if n = 0 then .done else .waiting}

theorem State.step_cases {s s' : State β} {a : Action} (h : s.step a = some s') :
    s.Step a s' := by
  cases a with
  | writerWait =>
      cases hw : s.writer <;> simp only [State.step, State.stepWriter, hw, reduceCtorEq] at h
      case waiting =>
        split_ifs at h with hpos
        cases h
        exact .writerWait hw hpos
      case finalWait =>
        split_ifs at h with hpos
        cases h
        exact .finalWait hw hpos
  | read n =>
      cases hw : s.writer <;> simp only [State.step, State.stepWriter, hw, reduceCtorEq] at h
      split_ifs at h with hn
      cases h
      exact .read hw hn.2.1 hn.2.2
  | store =>
      cases hw : s.writer <;> simp only [State.step, State.stepWriter, hw, reduceCtorEq] at h
      cases h
      exact .store hw
  | writerPost =>
      cases hw : s.writer <;> simp only [State.step, State.stepWriter, hw, reduceCtorEq] at h
      cases h
      exact .writerPost hw
  | writerTest =>
      cases hw : s.writer <;> simp only [State.step, State.stepWriter, hw, reduceCtorEq] at h
      cases h
      rcases eq_or_ne s.count 0 with hc | hc
      · rw [if_pos hc]
        exact .leave hw hc
      · rw [if_neg hc]
        exact .again hw
  | readerWait =>
      cases hr : s.reader <;> simp only [State.step, State.stepReader, hr, reduceCtorEq] at h
      split_ifs at h with hpos
      cases h
      exact .readerWait hr hpos
  | load =>
      cases hr : s.reader <;> simp only [State.step, State.stepReader, hr, reduceCtorEq] at h
      cases h
      exact .load hr
  | write =>
      cases hr : s.reader <;> simp only [State.step, State.stepReader, hr, reduceCtorEq] at h
      cases h
      exact .write hr
  | readerPost =>
      cases hr : s.reader <;> simp only [State.step, State.stepReader, hr, reduceCtorEq] at h
      cases h
      exact .readerPost hr
  | readerTest =>
      cases hr : s.reader with
      | testing n =>
          simp only [State.step, State.stepReader, hr] at h
          cases h
          exact .readerTest hr
      | _ => simp [State.step, State.stepReader, hr] at h

def WriterPc.holds : WriterPc → ℕ
  | .reading | .storing _ | .posting | .done => 1
  | _ => 0

def ReaderPc.holds : ReaderPc → ℕ
  | .loading | .writing _ | .posting _ => 1
  | _ => 0

/-- How much of the buffer a process still has to pass on. -/
def WriterPc.pending (count : ℕ) : WriterPc → ℕ
  | .storing n => n
  | .posting => count
  | _ => 0

def ReaderPc.pending (count : ℕ) : ReaderPc → ℕ
  | .loading => count
  | .writing n => n
  | _ => 0

/-- How much of the buffer is to be written to the output. At most one of the terms is not 0. -/
def State.pending (s : State β) : ℕ :=
  s.writer.pending s.count + s.semRead * s.count + s.reader.pending s.count

theorem WriterPc.pending_eq_zero {w : WriterPc} (h : w.holds = 0) (count : ℕ) :
    w.pending count = 0 := by
  cases w <;> first | rfl | cases h

theorem ReaderPc.pending_eq_zero {r : ReaderPc} (h : r.holds = 0) (count : ℕ) :
    r.pending count = 0 := by
  cases r <;> first | rfl | cases h

variable {input : List β} {s s' : State β} {a : Action}

/-- One of the semaphores or one of the processes has the buffer. -/
def Token (s : State β) : Prop :=
  s.semWrite + s.semRead + s.writer.holds + s.reader.holds = 1

theorem Token.step (h : Token s) (hs : s.Step a s') : Token s' := by
  unfold Token at h ⊢
  cases hs with
  | writerWait hw hpos | finalWait hw hpos =>
      simp only [hw, WriterPc.holds] at h ⊢
      omega
  | read hw | store hw | writerPost hw | again hw | leave hw =>
      simp only [hw, WriterPc.holds] at h ⊢
      omega
  | readerWait hr hpos =>
      simp only [hr, ReaderPc.holds] at h ⊢
      omega
  | load hr | write hr | readerPost hr =>
      simp only [hr, ReaderPc.holds] at h ⊢
      omega
  | readerTest hr =>
      simp only [hr] at h ⊢
      split_ifs <;> exact h

/-- While the writer has the buffer, the reader has nothing to write. -/
theorem Token.of_writer (h : Token s) (hw : s.writer.holds = 1) :
    s.semRead = 0 ∧ s.reader.holds = 0 := by
  unfold Token at h
  omega

theorem Token.of_reader (h : Token s) (hr : s.reader.holds = 1) :
    s.semRead = 0 ∧ s.writer.holds = 0 := by
  unfold Token at h
  omega

/-- What the writer has read is in the output or pending in the buffer. -/
structure Flow (input : List β) (s : State β) : Prop where
  taken : s.taken ++ s.rest = input
  output : s.output ++ s.buf.take s.pending = s.taken

theorem Flow.step (h : Flow input s) (ht : Token s) (hs : s.Step a s') : Flow input s' := by
  obtain ⟨htaken, houtput⟩ := h
  unfold State.pending at houtput
  cases hs with
  | @read n hw hn _ =>
      obtain ⟨hsem, hr⟩ := ht.of_writer (by rw [hw]; rfl)
      have hreader := ReaderPc.pending_eq_zero hr s.count
      refine ⟨by simpa using htaken, ?_⟩
      simp only [hw, hsem, hreader, WriterPc.pending] at houtput
      simpa [State.pending, WriterPc.pending, hsem, hreader, hn] using houtput
  | @store n hw =>
      obtain ⟨hsem, hr⟩ := ht.of_writer (by rw [hw]; rfl)
      refine ⟨htaken, ?_⟩
      simp only [hw, hsem, ReaderPc.pending_eq_zero hr, WriterPc.pending] at houtput
      simpa [State.pending, WriterPc.pending, hsem, ReaderPc.pending_eq_zero hr] using houtput
  | @write n hr =>
      obtain ⟨hsem, hw⟩ := ht.of_reader (by rw [hr]; rfl)
      refine ⟨htaken, ?_⟩
      simp only [hr, hsem, WriterPc.pending_eq_zero hw, ReaderPc.pending] at houtput
      simpa [State.pending, ReaderPc.pending, hsem, WriterPc.pending_eq_zero hw] using houtput
  | writerPost hw =>
      have hcount : s.count + s.semRead * s.count = (s.semRead + 1) * s.count := by
        rw [Nat.add_mul, Nat.one_mul, Nat.add_comm]
      refine ⟨htaken, ?_⟩
      simp only [hw, WriterPc.pending, hcount] at houtput
      simpa [State.pending, WriterPc.pending] using houtput
  | readerWait hr hpos =>
      have hcount : s.semRead * s.count = (s.semRead - 1) * s.count + s.count := by
        rw [← Nat.succ_mul, Nat.succ_eq_add_one, Nat.sub_add_cancel hpos]
      refine ⟨htaken, ?_⟩
      simp only [hr, ReaderPc.pending, hcount] at houtput
      simpa [State.pending, ReaderPc.pending, Nat.add_assoc] using houtput
  | writerWait hw _ | again hw | leave hw _ | finalWait hw _ =>
      refine ⟨htaken, ?_⟩
      simp only [hw, WriterPc.pending] at houtput
      simpa only [State.pending, WriterPc.pending] using houtput
  | load hr | readerPost hr =>
      refine ⟨htaken, ?_⟩
      simp only [hr, ReaderPc.pending] at houtput
      simpa only [State.pending, ReaderPc.pending] using houtput
  | readerTest hr =>
      refine ⟨htaken, ?_⟩
      simp only [hr, ReaderPc.pending] at houtput
      unfold State.pending
      split_ifs <;> exact houtput

/-- How the writer comes to the end of the input. -/
structure Ending (s : State β) : Prop where
  storing : s.writer = .storing 0 → s.rest = []
  posting : s.writer = .posting ∨ s.writer = .testing → s.count = 0 → s.rest = []
  final : s.writer = .finalWait ∨ s.writer = .done → s.count = 0 ∧ s.rest = []

theorem Ending.step (h : Ending s) (hs : s.Step a s') : Ending s' := by
  cases hs with
  | @read n hw hn h0 =>
      refine ⟨?_, by simp, by simp⟩
      simp only [WriterPc.storing.injEq]
      intro hz
      rw [h0 hz, List.drop_nil]
  | store hw =>
      refine ⟨by simp, ?_, by simp⟩
      rintro - rfl
      exact h.storing hw
  | writerPost hw => exact ⟨by simp, fun _ => h.posting (.inl hw), by simp⟩
  | leave hw hc => exact ⟨by simp, by simp, fun _ => ⟨hc, h.posting (.inr hw) hc⟩⟩
  | finalWait hw _ => exact ⟨by simp, by simp, fun _ => h.final (.inl hw)⟩
  | writerWait | again => exact ⟨by simp, by simp, by simp⟩
  | readerWait | load | write | readerPost | readerTest => exact ⟨h.storing, h.posting, h.final⟩

variable {buf : List β} {count : ℕ}

theorem reachable_inv (h : (machine buf count input).Reachable s) :
    Token s ∧ Flow input s ∧ Ending s := by
  have hinit : Flow input (machine buf count input).init := by
    refine ⟨rfl, ?_⟩
    simp [machine, State.pending, WriterPc.pending, ReaderPc.pending]
  have hstart : Ending (machine buf count input).init :=
    ⟨by simp [machine], by simp [machine], by simp [machine]⟩
  apply Machine.Reachable.invariant (I := fun s => Token s ∧ Flow input s ∧ Ending s) _ _ h
  · exact ⟨rfl, hinit, hstart⟩
  · rintro s a s' ⟨htoken, hflow, hending⟩ hs
    have hstep := State.step_cases hs
    exact ⟨htoken.step hstep, hflow.step htoken hstep, hending.step hstep⟩

/-- In every interleaving the reader copies the input to its output. -/
theorem pipe_correct (h : (machine buf count input).Reachable s) :
    s.output <+: s.taken ∧
      (∀ a s', a.Writes → s.step a = some s' → ¬ s.reader.Inside) ∧
      ¬ Blocked s ∧ (Left s → s.output = input) := by
  obtain ⟨htoken, hflow, hending⟩ := reachable_inv h
  refine ⟨⟨_, hflow.output⟩, ?_, ?_, ?_⟩
  · intro a s' hwrites hs hinside
    have hr : s.reader.holds = 1 := by
      cases hpc : s.reader <;> simp_all [ReaderPc.Inside, ReaderPc.holds]
    have hw := (htoken.of_reader hr).2
    cases State.step_cases hs with
    | read hpc | store hpc => simp [hpc, WriterPc.holds] at hw
    | _ => exact hwrites
  · rintro ⟨hw, hsemWrite, hr, hsemRead⟩
    unfold Token at htoken
    rcases hw with hw | hw <;> simp [hw, hr, hsemWrite, hsemRead, WriterPc.holds,
      ReaderPc.holds] at htoken
  · rintro ⟨hw, hr⟩
    obtain ⟨hcount, hrest⟩ := hending.final hw
    have hpending : s.pending = 0 := by
      rcases hw with hw | hw <;> simp [State.pending, hw, hr, hcount, WriterPc.pending,
        ReaderPc.pending]
    have houtput := hflow.output
    have htaken := hflow.taken
    rw [hpending, List.take_zero, List.append_nil] at houtput
    rwa [hrest, List.append_nil, ← houtput] at htaken

/-- One byte of input, with the end of the input behind it. -/
theorem pipe_correct_one : ∃ s, (machine [0] 7 [5]).Reachable s ∧ Left s ∧ s.output = [5] := by
  let actions : List Action := [.writerWait, .read 1, .store, .writerPost, .readerWait, .load,
    .writerTest, .write, .readerPost, .writerWait, .read 0, .store, .readerTest, .writerPost,
    .writerTest, .readerWait, .load, .write, .readerPost, .writerWait, .readerTest]
  have hrun : (machine [0] 7 [5]).run (machine [0] 7 [5]).init actions =
      some ⟨0, 0, [5], 0, .done, .done, [], [5], [5]⟩ := by decide
  have hreachable := Machine.Reachable.start.run hrun
  have hleft : Left (⟨0, 0, [5], 0, .done, .done, [], [5], [5]⟩ : State ℕ) := ⟨.inr rfl, rfl⟩
  exact ⟨_, hreachable, hleft, (pipe_correct hreachable).2.2.2 hleft⟩

end EmbeddedCode.SharedMemory
