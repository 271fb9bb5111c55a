import EmbeddedCode.Library.Transition
import Mathlib.Algebra.BigOperators.Group.Finset.Basic
import Mathlib.Algebra.Order.BigOperators.Group.Finset
import Mathlib.Data.Fintype.BigOperators

/-!
# Two programs that take turns

`04Semaphore/semaphore.c` and `semaphore2.c` print in turn: each waits for its own of two named
semaphores and posts the other. Any number of processes may run either program, each started at
any time; whoever comes first creates a semaphore, the others open the one that is there.
-/
namespace EmbeddedCode.Semaphore.PingPong

open Transition

/-- `semaphore.c`, which waits for `sem1`, and `semaphore2.c`, which waits for `sem2`. -/
inductive Program where
  | semaphore
  | semaphore2
  deriving DecidableEq, Repr

instance : Fintype Program := ⟨{.semaphore, .semaphore2}, fun q => by cases q <;> simp⟩

def Program.other : Program → Program
  | .semaphore => .semaphore2
  | .semaphore2 => .semaphore

/-- The value that `sem_open` creates a semaphore with. -/
def Program.initial : Program → ℕ
  | .semaphore => 1
  | .semaphore2 => 0

inductive Pc where
  /-- In `sem_open` with `O_CREAT | O_EXCL` for `sem1` or `sem2`. -/
  | creating (which : Program)
  /-- In the second `sem_open`, after `EEXIST`. -/
  | opening (which : Program)
  | waiting
  | printing
  | posting
  deriving DecidableEq, Repr

structure State (P : Type) where
  /-- The named semaphores `sem1` and `sem2`, none where the name does not exist. -/
  sem : Program → Option ℕ
  pc : P → Pc
  /-- Who has printed, in this order. -/
  output : List P

/-- What a process does after it has the semaphore `which`. -/
def opened : Program → Pc
  | .semaphore => .creating .semaphore2
  | .semaphore2 => .waiting

namespace State

variable {P : Type} [DecidableEq P] (prog : P → Program)

def goto (s : State P) (p : P) (pc : Pc) : State P := {s with pc := Function.update s.pc p pc}

def setSem (s : State P) (which : Program) (n : ℕ) : State P :=
  {s with sem := Function.update s.sem which (some n)}

/-- The next step of the process `p`, none while it is blocked. -/
def step (s : State P) (p : P) : Option (State P) :=
  match s.pc p with
  | .creating which =>
      match s.sem which with
      | none => some ((s.setSem which which.initial).goto p (opened which))
      | some _ => some (s.goto p (.opening which))
  | .opening which =>
      match s.sem which with
      | none => none
      | some _ => some (s.goto p (opened which))
  | .waiting =>
      match s.sem (prog p) with
      | some (n + 1) => some ((s.setSem (prog p) n).goto p .printing)
      | _ => none
  | .printing => some ({s with output := s.output ++ [p]}.goto p .posting)
  | .posting =>
      match s.sem (prog p).other with
      | some n => some ((s.setSem (prog p).other (n + 1)).goto p .waiting)
      | none => none

end State

variable {P : Type} [DecidableEq P] (prog : P → Program)

/-- No semaphore exists and every process is still to start. -/
def machine : Machine (State P) P where
  init := ⟨fun _ => none, fun _ => .creating .semaphore, []⟩
  step := State.step prog

/-- Whose turn it is for the line `i`. -/
def turn (i : ℕ) : Program := if i % 2 = 0 then .semaphore else .semaphore2

theorem turn_succ (i : ℕ) : turn (i + 1) = (turn i).other := by
  unfold turn
  rcases Nat.mod_two_eq_zero_or_one i with h | h <;> simp [Nat.add_mod, h, Program.other]

@[simp] theorem Program.other_other (q : Program) : q.other.other = q := by cases q <;> rfl

/-- Where the one permit is: in a semaphore or with a process. -/
inductive Token (P : Type) where
  | free (next : Program)
  | printing (p : P)
  | posting (p : P)

/-- The steps that a process makes at most until it waits for the first time. -/
def Pc.rank : Pc → ℕ
  | .creating .semaphore => 4
  | .opening .semaphore => 3
  | .creating .semaphore2 => 2
  | .opening .semaphore2 => 1
  | _ => 0

/-- The process has `sem1` open, or at least knows that it exists. -/
def Pc.Knows : Pc → Program → Prop
  | .creating .semaphore, _ => False
  | .opening .semaphore, which => which = .semaphore
  | .creating .semaphore2, which => which = .semaphore
  | _, _ => True

namespace Token

/-- The value that a semaphore has, created or to be created. -/
def value (token : Token P) (which : Program) : ℕ :=
  match token with
  | .free next => if next = which then 1 else 0
  | _ => 0

/-- The program that prints next. -/
def next : Token P → Program
  | .free next => next
  | .printing p => prog p
  | .posting p => (prog p).other

/-- The steps that `lines` lines have taken, and one. -/
def work (lines : ℕ) : Token P → ℕ
  | .free _ => 3 * lines + 1
  | .printing _ => 3 * lines + 2
  | .posting _ => 3 * lines

end Token

/-- The state has its one permit at `token`. -/
structure Holds (s : State P) (token : Token P) : Prop where
  value : ∀ which, (s.sem which).getD which.initial = token.value which
  printing : ∀ p, s.pc p = .printing ↔ token = .printing p
  posting : ∀ p, s.pc p = .posting ↔ token = .posting p
  knows : ∀ p which, (s.pc p).Knows which → (s.sem which).isSome
  next : token.next prog = turn s.output.length
  output : s.output.map prog = (List.range s.output.length).map turn

namespace Holds

variable {prog} {s : State P} {token : Token P}

omit [DecidableEq P] in
theorem value_none (h : Holds prog s token) {which : Program} (hs : s.sem which = none) :
    token.value which = which.initial := by
  simpa [hs] using (h.value which).symm

omit [DecidableEq P] in
theorem value_some (h : Holds prog s token) {which : Program} {n : ℕ}
    (hs : s.sem which = some n) : token.value which = n := by
  simpa [hs] using (h.value which).symm

omit [DecidableEq P] in
theorem create (h : Holds prog s token) {which : Program} (hs : s.sem which = none) :
    Holds prog (s.setSem which which.initial) token where
  value q := by
    by_cases hq : q = which
    · subst hq
      simp [State.setSem, h.value_none hs]
    · simpa [State.setSem, hq] using h.value q
  printing := h.printing
  posting := h.posting
  knows p q hk := by
    by_cases hq : q = which
    · simp [State.setSem, hq]
    · simpa [State.setSem, hq] using h.knows p q hk
  next := h.next
  output := h.output

/-- A step of the opening phase leaves the permit where it is. -/
theorem goto (h : Holds prog s token) {p : P} {pc : Pc}
    (hp : s.pc p ≠ .printing ∧ s.pc p ≠ .posting) (hpc : pc ≠ .printing ∧ pc ≠ .posting)
    (hk : ∀ which, pc.Knows which → (s.sem which).isSome) : Holds prog (s.goto p pc) token where
  value := h.value
  printing q := by
    by_cases hq : q = p
    · subst hq
      simpa [State.goto, hpc.1, hp.1] using h.printing q
    · simpa [State.goto, hq] using h.printing q
  posting q := by
    by_cases hq : q = p
    · subst hq
      simpa [State.goto, hpc.2, hp.2] using h.posting q
    · simpa [State.goto, hq] using h.posting q
  knows q which hq := by
    by_cases hqp : q = p
    · subst hqp
      exact hk which (by simpa [State.goto] using hq)
    · exact h.knows q which (by simpa [State.goto, hqp] using hq)
  next := h.next
  output := h.output

omit [DecidableEq P] in
/-- What a process knows once it has the semaphore that it asked for. -/
theorem opened_knows {p : P} {which : Program} (h : Holds prog s token)
    (hp : s.pc p = .creating which ∨ s.pc p = .opening which) (hs : (s.sem which).isSome)
    (q : Program) (hq : (opened which).Knows q) : (s.sem q).isSome := by
  have hk := h.knows p
  cases which with
  | semaphore =>
      cases (show q = .semaphore by simpa [opened, Pc.Knows] using hq)
      exact hs
  | semaphore2 =>
      cases q with
      | semaphore => exact hk _ (by rcases hp with hp | hp <;> simp [hp, Pc.Knows])
      | semaphore2 => exact hs

theorem wait (h : Holds prog s token) {p : P} {n : ℕ} (hp : s.pc p = .waiting)
    (hs : s.sem (prog p) = some (n + 1)) :
    Holds prog ((s.setSem (prog p) n).goto p .printing) (.printing p) ∧
      token = .free (prog p) := by
  have hv := h.value_some hs
  obtain ⟨next⟩ | q | q := token
  · have hnext : next = prog p := by
      by_contra hne
      simp [Token.value, hne] at hv
    have hn : n = 0 := by simpa [Token.value, hnext] using hv.symm
    subst hnext hn
    refine ⟨⟨?_, ?_, ?_, ?_, h.next, h.output⟩, rfl⟩
    · intro q
      by_cases hq : q = prog p
      · simp [State.goto, State.setSem, hq, Token.value]
      · have := h.value q
        simpa [State.goto, State.setSem, hq, Token.value, Ne.symm hq] using this
    · intro q
      by_cases hq : q = p
      · simp [State.goto, hq]
      · have := h.printing q
        simpa [State.goto, hq, State.setSem, Ne.symm hq] using this
    · intro q
      by_cases hq : q = p
      · simp [State.goto, hq]
      · have := h.posting q
        simpa [State.goto, hq, State.setSem] using this
    · intro q which hq
      by_cases hw : which = prog p
      · simp [State.goto, State.setSem, hw]
      · by_cases hqp : q = p
        · have := h.knows p which (by simp [hp, Pc.Knows])
          simpa [State.goto, State.setSem, hw] using this
        · have := h.knows q which (by simpa [State.goto, hqp, State.setSem] using hq)
          simpa [State.goto, State.setSem, hw] using this
  · simp [Token.value] at hv
  · simp [Token.value] at hv

theorem print {p : P} (h : Holds prog s (.printing p)) :
    Holds prog ({s with output := s.output ++ [p]}.goto p .posting) (.posting p) := by
  have hnext : prog p = turn s.output.length := h.next
  refine ⟨h.value, ?_, ?_, ?_, ?_, ?_⟩
  · intro q
    by_cases hq : q = p
    · simp [State.goto, hq]
    · have := h.printing q
      simpa [State.goto, hq, Ne.symm hq] using this
  · intro q
    by_cases hq : q = p
    · simp [State.goto, hq]
    · have := h.posting q
      simpa [State.goto, hq, Ne.symm hq] using this
  · intro q which hq
    by_cases hqp : q = p
    · exact h.knows p which (by simp [(h.printing p).mpr rfl, Pc.Knows])
    · exact h.knows q which (by simpa [State.goto, hqp] using hq)
  · simp [State.goto, Token.next, turn_succ, hnext]
  · simp [State.goto, List.range_succ, h.output, hnext]

theorem post {p : P} (h : Holds prog s (.posting p)) {n : ℕ}
    (hs : s.sem (prog p).other = some n) :
    Holds prog ((s.setSem (prog p).other (n + 1)).goto p .waiting) (.free (prog p).other) := by
  have hn : n = 0 := by simpa [Token.value] using (h.value_some hs).symm
  subst hn
  refine ⟨?_, ?_, ?_, ?_, h.next, h.output⟩
  · intro q
    by_cases hq : q = (prog p).other
    · simp [State.goto, State.setSem, hq, Token.value]
    · have := h.value q
      simpa [State.goto, State.setSem, hq, Token.value, Ne.symm hq] using this
  · intro q
    by_cases hq : q = p
    · simp [State.goto, hq]
    · have := h.printing q
      simpa [State.goto, hq, State.setSem] using this
  · intro q
    by_cases hq : q = p
    · simp [State.goto, hq]
    · have := h.posting q
      simpa [State.goto, hq, State.setSem, Ne.symm hq] using this
  · intro q which hq
    by_cases hw : which = (prog p).other
    · simp [State.goto, State.setSem, hw]
    · by_cases hqp : q = p
      · have := h.knows p which (by simp [(h.posting p).mpr rfl, Pc.Knows])
        simpa [State.goto, State.setSem, hw] using this
      · have := h.knows q which (by simpa [State.goto, hqp, State.setSem] using hq)
        simpa [State.goto, State.setSem, hw] using this

theorem step (h : Holds prog s token) {p : P} {t : State P} (hs : s.step prog p = some t) :
    ∃ token', Holds prog t token' ∧
      (t.pc p).rank + token.work s.output.length + 1 ≤
        (s.pc p).rank + token'.work t.output.length ∧
      ∀ q, q ≠ p → t.pc q = s.pc q := by
  cases hp : s.pc p with
  | creating which =>
      simp only [State.step, hp] at hs
      cases hsem : s.sem which with
      | none =>
          simp only [hsem, Option.some.injEq] at hs
          subst hs
          refine ⟨token, (h.create hsem).goto (by simp [State.setSem, hp]) ?_ ?_, ?_, ?_⟩
          · cases which <;> simp [opened]
          · exact (h.create hsem).opened_knows (p := p) (.inl hp) (by simp [State.setSem])
          · cases which <;>
              simp only [State.goto, opened, Pc.rank, State.setSem, Function.update_self] <;> omega
          · intro q hq
            simp [State.goto, State.setSem, hq]
      | some n =>
          simp only [hsem, Option.some.injEq] at hs
          subst hs
          refine ⟨token, h.goto (by simp [hp]) (by simp) ?_, ?_, ?_⟩
          · intro q hq
            cases which with
            | semaphore =>
                cases (show q = .semaphore by simpa [Pc.Knows] using hq)
                simp [hsem]
            | semaphore2 =>
                cases q with
                | semaphore => exact h.knows p _ (by simp [hp, Pc.Knows])
                | semaphore2 => simp [hsem]
          · cases which <;> simp only [State.goto, Pc.rank, Function.update_self] <;> omega
          · intro q hq
            simp [State.goto, hq]
  | opening which =>
      simp only [State.step, hp] at hs
      cases hsem : s.sem which with
      | none => simp [hsem] at hs
      | some n =>
          simp only [hsem, Option.some.injEq] at hs
          subst hs
          refine ⟨token, h.goto (by simp [hp]) ?_ ?_, ?_, ?_⟩
          · cases which <;> simp [opened]
          · exact h.opened_knows (p := p) (.inr hp) (by simp [hsem])
          · cases which <;> simp only [State.goto, opened, Pc.rank, Function.update_self] <;> omega
          · intro q hq
            simp [State.goto, hq]
  | waiting =>
      simp only [State.step, hp] at hs
      split at hs
      · rename_i n hsem
        cases hs
        obtain ⟨hnew, rfl⟩ := h.wait hp hsem
        refine ⟨_, hnew, ?_, ?_⟩
        · simp [State.goto, State.setSem, Pc.rank, Token.work]
        · intro q hq
          simp [State.goto, State.setSem, hq]
      · cases hs
  | printing =>
      simp only [State.step, hp, Option.some.injEq] at hs
      subst hs
      obtain rfl := (h.printing p).mp hp
      refine ⟨_, h.print, ?_, ?_⟩
      · simp [State.goto, Pc.rank, Token.work]
        omega
      · intro q hq
        simp [State.goto, hq]
  | posting =>
      simp only [State.step, hp] at hs
      obtain rfl := (h.posting p).mp hp
      split at hs
      · rename_i n hsem
        cases hs
        refine ⟨_, h.post hsem, ?_, ?_⟩
        · simp [State.goto, State.setSem, Pc.rank, Token.work]
        · intro q hq
          simp [State.goto, State.setSem, hq]
      · cases hs

/-- With a process of each program there is always one that can move. -/
theorem progress (h : Holds prog s token) (hprog : ∀ q, ∃ p, prog p = q) :
    ∃ p, (s.step prog p).isSome := by
  obtain ⟨next⟩ | p | p := token
  · obtain ⟨p, rfl⟩ := hprog next
    refine ⟨p, ?_⟩
    cases hp : s.pc p with
    | creating which => cases hsem : s.sem which <;> simp [State.step, hp, hsem]
    | opening which =>
        obtain ⟨n, hn⟩ := Option.isSome_iff_exists.mp
          (h.knows p which (by cases which <;> simp [hp, Pc.Knows]))
        simp [State.step, hp, hn]
    | waiting =>
        obtain ⟨n, hn⟩ := Option.isSome_iff_exists.mp
          (h.knows p (prog p) (by simp [hp, Pc.Knows]))
        have hone : 1 = n := by simpa [Token.value] using h.value_some hn
        simp [State.step, hp, hn, ← hone]
    | printing => simp [State.step, hp]
    | posting => simpa using (h.posting p).mp hp
  · exact ⟨p, by simp [State.step, (h.printing p).mpr rfl]⟩
  · have hp := (h.posting p).mpr rfl
    obtain ⟨n, hn⟩ := Option.isSome_iff_exists.mp
      (h.knows p (prog p).other (by simp [hp, Pc.Knows]))
    exact ⟨p, by simp [State.step, hp, hn]⟩

end Holds

theorem holds_init : Holds prog (machine prog).init (.free .semaphore) where
  value which := by cases which <;> simp [machine, Program.initial, Token.value]
  printing := by simp [machine]
  posting := by simp [machine]
  knows p which h := by simp [machine, Pc.Knows] at h
  next := rfl
  output := rfl

variable [Fintype P]

theorem run_work {s t : State P} {token : Token P} {schedule : List P}
    (h : Holds prog s token) (hr : (machine prog).run s schedule = some t) :
    ∃ token', Holds prog t token' ∧
      schedule.length + token.work s.output.length + ∑ p, (t.pc p).rank ≤
        ∑ p, (s.pc p).rank + token'.work t.output.length := by
  induction schedule generalizing s token with
  | nil =>
      cases hr
      exact ⟨token, h, by simp [Nat.add_comm]⟩
  | cons p schedule ih =>
      rw [Machine.run_cons] at hr
      obtain ⟨u, hu, hr⟩ := Option.bind_eq_some_iff.mp hr
      obtain ⟨token', hnew, hwork, hframe⟩ := h.step hu
      obtain ⟨token'', hend, hsum⟩ := ih hnew hr
      refine ⟨token'', hend, ?_⟩
      have hs := Finset.add_sum_erase Finset.univ (fun q => (s.pc q).rank) (Finset.mem_univ p)
      have ht := Finset.add_sum_erase Finset.univ (fun q => (u.pc q).rank) (Finset.mem_univ p)
      have hrest : ∑ q ∈ Finset.univ.erase p, (u.pc q).rank =
          ∑ q ∈ Finset.univ.erase p, (s.pc q).rank :=
        Finset.sum_congr rfl fun q hq => by rw [hframe q (Finset.ne_of_mem_erase hq)]
      simp only [List.length_cons] at *
      omega

/-- The lines come from the two programs in turn, starting with `semaphore.c`, somebody can
always move, and whoever moves, every three steps after the start-up add a line. -/
theorem lines_alternate (hprog : ∀ q, ∃ p, prog p = q) {s : State P} {schedule : List P}
    (h : (machine prog).run (machine prog).init schedule = some s) :
    s.output.map prog = (List.range s.output.length).map turn ∧
      (∃ p, (s.step prog p).isSome) ∧
      schedule.length ≤ 3 * s.output.length + 4 * Fintype.card P + 1 := by
  obtain ⟨token, hs, hwork⟩ := run_work prog (holds_init prog) h
  refine ⟨hs.output, hs.progress hprog, ?_⟩
  have hrank : ∑ p : P, ((machine prog).init.pc p).rank = 4 * Fintype.card P := by
    simp [machine, Pc.rank, Nat.mul_comm]
  have hle : token.work s.output.length ≤ 3 * s.output.length + 2 := by
    cases token <;> simp [Token.work]
  have hinit : (Token.free Program.semaphore : Token P).work
      (machine prog).init.output.length = 1 := rfl
  omega

/-- One process of each program, the second one started first. -/
theorem lines_alternate_two :
    ((machine id).run (machine id).init
      [.semaphore2, .semaphore, .semaphore2, .semaphore, .semaphore, .semaphore, .semaphore,
        .semaphore, .semaphore, .semaphore2, .semaphore2, .semaphore2]).map
        (fun s => s.output.map id) = some [.semaphore, .semaphore2] := by
  have h : (machine id).run (machine id).init
      [.semaphore2, .semaphore, .semaphore2, .semaphore, .semaphore, .semaphore, .semaphore,
        .semaphore, .semaphore, .semaphore2, .semaphore2, .semaphore2] = some _ := rfl
  rw [h, Option.map_some, (lines_alternate id (fun q => ⟨q, rfl⟩) h).1]
  rfl

end EmbeddedCode.Semaphore.PingPong
