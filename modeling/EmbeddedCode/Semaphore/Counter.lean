import EmbeddedCode.Library.Transition
import Mathlib.Data.BitVec
import Mathlib.Tactic.Cases

/-!
# Two processes that count in one file

`04Semaphore/mmap.c`. A parent and its child map the file `1.txt` shared and each add one to
the number in it `max` times (`MAX_NUM`, 500000 in the source), under a semaphore that is
created with the value 1, or that is there already. The load, the addition and the store of
`n = *p; n += 1; *p = n;` are three steps, so that nothing but the semaphore keeps the processes
apart.
-/
namespace EmbeddedCode.Semaphore

open Transition

inductive Party where
  | parent
  | child
  deriving DecidableEq, Repr

def Party.other : Party → Party
  | .parent => .child
  | .child => .parent

theorem Party.eq_other {p who : Party} (h : p ≠ who) : p = who.other := by
  cases p <;> cases who <;> simp_all [Party.other]

theorem Party.both (f : Party → ℕ) (who : Party) :
    f .parent + f .child = f who + f who.other := by
  cases who
  · rfl
  · exact Nat.add_comm _ _

inductive Pc where
  /-- At the test `i < MAX_NUM`. -/
  | head
  | waiting
  | loading
  | adding
  | storing
  | posting
  /-- The parent, in `wait(NULL)`. -/
  | reaping
  | printing
  | done
  /-- The child of a `fork` that has failed. -/
  | unborn
  deriving DecidableEq, Repr

/-- A process with its own copies of `i` and `n`. -/
structure Process where
  pc : Pc
  i : ℕ
  n : BitVec 32
  deriving DecidableEq, Repr

structure State where
  sem : ℕ
  /-- `*p`, in the shared pages of the file. -/
  cell : BitVec 32
  process : Party → Process
  printed : Option (BitVec 32)

namespace State

def set (s : State) (who : Party) (q : Process) : State :=
  {s with process := Function.update s.process who q}

/-- Where a process goes from the loop: the child to `exit(0)`, the parent to `wait(NULL)`. -/
def leave : Party → Pc
  | .parent => .reaping
  | .child => .done

/-- The next step of one process, none when it is blocked or has ended. -/
def step (max : ℕ) (s : State) (who : Party) : Option State :=
  let q := s.process who
  match q.pc with
  | .head => some (s.set who {q with pc := if q.i < max then .waiting else leave who})
  | .waiting =>
      if 0 < s.sem then some ({s with sem := s.sem - 1}.set who {q with pc := .loading}) else none
  | .loading => some (s.set who {q with pc := .adding, n := s.cell})
  | .adding => some (s.set who {q with pc := .storing, n := q.n + 1})
  | .storing => some ({s with cell := q.n}.set who {q with pc := .posting})
  | .posting => some ({s with sem := s.sem + 1}.set who {q with pc := .head, i := q.i + 1})
  | .reaping =>
      if (s.process .child).pc = .done ∨ (s.process .child).pc = .unborn then
        some (s.set who {q with pc := .printing})
      else none
  | .printing => some ({s with printed := some s.cell}.set who {q with pc := .done})
  | .done | .unborn => none

end State

structure Surroundings where
  /-- The value of the semaphore, if a semaphore of the name exists. -/
  existing : Option ℕ
  /-- Whether `fork` succeeds. Otherwise `pid` is -1, and the parent goes on alone. -/
  forks : Bool
  /-- The number in the file. -/
  initial : BitVec 32

/-- The value of the semaphore behind both calls of `sem_open`. -/
def Surroundings.permits (env : Surroundings) : ℕ := env.existing.getD 1

/-- Where a process is behind `fork`. -/
def Surroundings.start (env : Surroundings) : Party → Pc
  | .parent => .head
  | .child => if env.forks then .head else .unborn

/-- The processes after `fork`. -/
def machine (max : ℕ) (env : Surroundings) : Machine State Party where
  init := ⟨env.permits, env.initial, fun who => ⟨env.start who, 0, 0⟩, none⟩
  step := State.step max

/-- Between `sem_wait` and the return of `sem_post`. -/
def Pc.Inside : Pc → Prop
  | .loading | .adding | .storing | .posting => True
  | _ => False

instance : DecidablePred Pc.Inside := fun pc => by
  cases pc <;> unfold Pc.Inside <;> infer_instance

namespace Process

/-- How often the process has stored. -/
def stores (q : Process) : ℕ := if q.pc = .posting then q.i + 1 else q.i

/-- The permits that the process holds. -/
def held (q : Process) : ℕ := if q.pc.Inside then 1 else 0

structure Ok (max : ℕ) (forks : Bool) (cell : BitVec 32) (who : Party) (q : Process) : Prop where
  le : q.i ≤ max
  lt : q.pc.Inside ∨ q.pc = .waiting → q.i < max
  left : q.pc = .reaping ∨ q.pc = .printing ∨ q.pc = .done → q.i = max
  loaded : q.pc = .adding → q.n = cell
  added : q.pc = .storing → q.n = cell + 1
  reaps : q.pc = .reaping ∨ q.pc = .printing → who = .parent
  unborn : q.pc = .unborn ↔ who = .child ∧ forks = false
  idle : q.pc = .unborn → q.i = 0

def left (max : ℕ) (q : Process) : ℕ :=
  match q.pc with
  | .head => 6 * (max - q.i) + 3
  | .waiting => 6 * (max - q.i) + 2
  | .loading => 6 * (max - q.i) + 1
  | .adding => 6 * (max - q.i)
  | .storing => 6 * (max - q.i) - 1
  | .posting => 6 * (max - q.i) - 2
  | .reaping => 2
  | .printing => 1
  | .done | .unborn => 0

end Process

namespace State

@[simp] theorem set_process_self (s : State) (who : Party) (q : Process) :
    (s.set who q).process who = q := by simp [set]

@[simp] theorem set_process_other (s : State) (who : Party) (q : Process) :
    (s.set who q).process who.other = s.process who.other := by
  cases who <;> rfl

@[simp] theorem set_sem (s : State) (who : Party) (q : Process) : (s.set who q).sem = s.sem := rfl

@[simp] theorem set_cell (s : State) (who : Party) (q : Process) :
    (s.set who q).cell = s.cell := rfl

@[simp] theorem set_printed (s : State) (who : Party) (q : Process) :
    (s.set who q).printed = s.printed := rfl

/-- What a step does: one case for each place of the program. -/
inductive Step (max : ℕ) (s : State) (who : Party) : State → Prop
  | enter : (s.process who).pc = .head → (s.process who).i < max →
      Step max s who (s.set who {s.process who with pc := .waiting})
  | leave : (s.process who).pc = .head → ¬ (s.process who).i < max →
      Step max s who (s.set who {s.process who with pc := leave who})
  | wait : (s.process who).pc = .waiting → 0 < s.sem →
      Step max s who ({s with sem := s.sem - 1}.set who {s.process who with pc := .loading})
  | load : (s.process who).pc = .loading →
      Step max s who (s.set who {s.process who with pc := .adding, n := s.cell})
  | add : (s.process who).pc = .adding →
      Step max s who
        (s.set who {s.process who with pc := .storing, n := (s.process who).n + 1})
  | store : (s.process who).pc = .storing →
      Step max s who
        ({s with cell := (s.process who).n}.set who {s.process who with pc := .posting})
  | post : (s.process who).pc = .posting →
      Step max s who ({s with sem := s.sem + 1}.set who
        {s.process who with pc := .head, i := (s.process who).i + 1})
  | reap : (s.process who).pc = .reaping →
      (s.process .child).pc = .done ∨ (s.process .child).pc = .unborn →
      Step max s who (s.set who {s.process who with pc := .printing})
  | print : (s.process who).pc = .printing →
      Step max s who
        ({s with printed := some s.cell}.set who {s.process who with pc := .done})

theorem step_cases {max : ℕ} {s t : State} {who : Party} (h : s.step max who = some t) :
    Step max s who t := by
  cases hpc : (s.process who).pc with
  | head =>
      simp only [step, hpc, Option.some.injEq] at h
      subst h
      split
      · exact .enter hpc ‹_›
      · exact .leave hpc ‹_›
  | waiting =>
      simp only [step, hpc] at h
      split at h
      · cases h
        exact .wait hpc ‹_›
      · cases h
  | loading =>
      simp only [step, hpc, Option.some.injEq] at h
      exact h ▸ .load hpc
  | adding =>
      simp only [step, hpc, Option.some.injEq] at h
      exact h ▸ .add hpc
  | storing =>
      simp only [step, hpc, Option.some.injEq] at h
      exact h ▸ .store hpc
  | posting =>
      simp only [step, hpc, Option.some.injEq] at h
      exact h ▸ .post hpc
  | reaping =>
      simp only [step, hpc] at h
      split at h
      · cases h
        exact .reap hpc ‹_›
      · cases h
  | printing =>
      simp only [step, hpc, Option.some.injEq] at h
      exact h ▸ .print hpc
  | done => simp [step, hpc] at h
  | unborn => simp [step, hpc] at h

/-- A permit is in the semaphore or with one of the processes, and the number in the file is
what the stores add up to. -/
structure Counts (max : ℕ) (env : Surroundings) (s : State) : Prop where
  permits : s.sem + (s.process .parent).held + (s.process .child).held = env.permits
  cell : s.cell =
    env.initial + BitVec.ofNat 32 ((s.process .parent).stores + (s.process .child).stores)
  stuck : env.permits = 0 → ∀ who, (s.process who).stores = 0
  ok : ∀ who, (s.process who).Ok max env.forks s.cell who

variable {max : ℕ} {env : Surroundings} {s t : State} {who : Party}

theorem Counts.permits_of (h : s.Counts max env) (who : Party) :
    s.sem + (s.process who).held + (s.process who.other).held = env.permits := by
  have := h.permits
  have := Party.both (fun p => (s.process p).held) who
  omega

/-- A store by one process finds the other outside, where it does not rely on the cell. -/
theorem ok_of_held {forks : Bool} {c d : BitVec 32} {q : Process} (h : q.Ok max forks c who)
    (hq : q.held = 0) : q.Ok max forks d who where
  le := h.le
  lt := h.lt
  left := h.left
  loaded hpc := by simp [Process.held, hpc, Pc.Inside] at hq
  added hpc := by simp [Process.held, hpc, Pc.Inside] at hq
  reaps := h.reaps
  unborn := h.unborn
  idle := h.idle

theorem Counts.of_mover (h : s.Counts max env) (hle : env.permits ≤ 1) (who : Party)
    (hother : t.process who.other = s.process who.other)
    (hpermits : t.sem + (t.process who).held = s.sem + (s.process who).held)
    (hcell : t.cell = s.cell ∧ (t.process who).stores = (s.process who).stores ∨
      t.cell = s.cell + 1 ∧ (t.process who).stores = (s.process who).stores + 1 ∧
        (s.process who).held = 1)
    (hok : (t.process who).Ok max env.forks t.cell who) : t.Counts max env := by
  have hp := h.permits_of who
  have hheld := Party.both (fun p => (t.process p).held) who
  have hsum := Party.both (fun p => (s.process p).stores) who
  have hsum' := Party.both (fun p => (t.process p).stores) who
  have hc := h.cell
  simp only [hother] at hheld hsum'
  constructor
  · omega
  · rw [hsum'] at *
    rw [hsum] at hc
    obtain ⟨he, hs⟩ | ⟨he, hs, -⟩ := hcell
    · rw [he, hs, hc]
    · rw [he, hs, hc, Nat.add_right_comm, BitVec.ofNat_add (_ + _) 1, BitVec.add_assoc]
      rfl
  · intro hzero p
    have hstores := h.stuck hzero
    by_cases hp' : p = who
    · subst hp'
      obtain ⟨-, hs⟩ | ⟨-, -, hin⟩ := hcell
      · rw [hs, hstores]
      · omega
    · rw [Party.eq_other hp', hother, hstores]
  · intro p
    by_cases hp' : p = who
    · exact hp' ▸ hok
    · rw [Party.eq_other hp', hother]
      obtain ⟨he, -⟩ | ⟨-, -, hin⟩ := hcell
      · exact he ▸ h.ok _
      · exact ok_of_held (h.ok _) (by omega)

/-- Only a child that was born makes steps. -/
theorem Counts.forks (h : s.Counts max env) (hs : s.step max who = some t) (hwho : who = .child) :
    env.forks = true := by
  by_contra hforks
  have hpc := (h.ok who).unborn.mpr ⟨hwho, by simpa using hforks⟩
  simp [State.step, hpc] at hs

theorem Counts.step (h : s.Counts max env) (hle : env.permits ≤ 1)
    (hs : s.step max who = some t) : t.Counts max env := by
  have hok := h.ok who
  have hborn := h.forks hs
  cases step_cases hs with
  | enter hpc hlt =>
      refine h.of_mover hle who (by simp) ?_ (.inl ?_) ?_
      · simp [Process.held, hpc, Pc.Inside]
      · simp [Process.stores, hpc]
      · constructor <;> simp [Pc.Inside, hok.le, hlt]
        exact hborn
  | leave hpc hlt =>
      have : (s.process who).i = max := by have := hok.le; omega
      refine h.of_mover hle who (by simp) ?_ (.inl ?_) ?_
      · cases who <;> simp [Process.held, hpc, Pc.Inside, State.leave]
      · cases who <;> simp [Process.stores, hpc, State.leave]
      · constructor <;> cases who <;> simp_all [Pc.Inside, State.leave]
  | wait hpc hpos =>
      have := hok.lt (.inr hpc)
      refine h.of_mover hle who (by simp) ?_ (.inl ?_) ?_
      · simp [Process.held, hpc, Pc.Inside]
        omega
      · simp [Process.stores, hpc]
      · constructor <;> simp [Pc.Inside, hok.le, this]
        exact hborn
  | load hpc =>
      have := hok.lt (.inl (by simp [hpc, Pc.Inside]))
      refine h.of_mover hle who (by simp) ?_ (.inl ?_) ?_
      · simp [Process.held, hpc, Pc.Inside]
      · simp [Process.stores, hpc]
      · constructor <;> simp [Pc.Inside, hok.le, this]
        exact hborn
  | add hpc =>
      have := hok.lt (.inl (by simp [hpc, Pc.Inside]))
      refine h.of_mover hle who (by simp) ?_ (.inl ?_) ?_
      · simp [Process.held, hpc, Pc.Inside]
      · simp [Process.stores, hpc]
      · constructor <;> simp [Pc.Inside, hok.le, this, hok.loaded hpc]
        exact hborn
  | store hpc =>
      have := hok.lt (.inl (by simp [hpc, Pc.Inside]))
      refine h.of_mover hle who (by simp) ?_ (.inr ?_) ?_
      · simp [Process.held, hpc, Pc.Inside]
      · simp [Process.stores, Process.held, hpc, Pc.Inside, hok.added hpc]
      · constructor <;> simp [Pc.Inside, hok.le, this]
        exact hborn
  | post hpc =>
      have := hok.lt (.inl (by simp [hpc, Pc.Inside]))
      refine h.of_mover hle who (by simp) ?_ (.inl ?_) ?_
      · simp [Process.held, hpc, Pc.Inside]
      · simp [Process.stores, hpc]
      · constructor <;> simp [Pc.Inside]
        · omega
        · exact hborn
  | reap hpc hchild =>
      refine h.of_mover hle who (by simp) ?_ (.inl ?_) ?_
      · simp [Process.held, hpc, Pc.Inside]
      · simp [Process.stores, hpc]
      · have := hok.left (.inl hpc)
        constructor <;> simp [Pc.Inside, this]
        · exact hok.reaps (.inl hpc)
        · exact hborn
  | print hpc =>
      refine h.of_mover hle who (by simp) ?_ (.inl ?_) ?_
      · simp [Process.held, hpc, Pc.Inside]
      · simp [Process.stores, hpc]
      · constructor <;> simp [Pc.Inside, hok.left, hpc]
        exact hborn

/-- What the parent prints, and that it prints after the child has ended. -/
structure Reports (s : State) : Prop where
  printed : s.printed = if (s.process .parent).pc = .done then some s.cell else none
  child : (s.process .parent).pc = .printing ∨ (s.process .parent).pc = .done →
    (s.process .child).pc = .done ∨ (s.process .child).pc = .unborn

theorem Reports.step (hc : s.Counts max env) (h : s.Reports) (hs : s.step max who = some t) :
    t.Reports := by
  have hprinted := h.printed
  have hchild := h.child
  have hreaps := (hc.ok who).reaps
  -- only the parent prints, and a child that has ended takes no step
  cases step_cases hs <;> cases who <;> constructor <;>
    simp_all [set, Function.update, State.leave]

theorem left_step (h : s.Counts max env) (hs : s.step max who = some t) :
    (t.process who).left max < (s.process who).left max ∧
      t.process who.other = s.process who.other := by
  have hlt := (h.ok who).lt
  cases step_cases hs with
  | enter hpc _ => simp [Process.left, hpc]
  | leave hpc _ => cases who <;> simp [Process.left, hpc, State.leave]
  | wait hpc _ => simp [Process.left, hpc]
  | load hpc => simp [Process.left, hpc]
  | add hpc =>
      have := hlt (.inl (by simp [hpc, Pc.Inside]))
      simp [Process.left, hpc]
      omega
  | store hpc =>
      have := hlt (.inl (by simp [hpc, Pc.Inside]))
      simp [Process.left, hpc]
      omega
  | post hpc =>
      have := hlt (.inl (by simp [hpc, Pc.Inside]))
      simp [Process.left, hpc]
      omega
  | reap hpc _ => simp [Process.left, hpc]
  | print hpc => simp [Process.left, hpc]

/-- A process that cannot move holds no permit. -/
theorem held_of_blocked (h : s.step max who = none) : (s.process who).held = 0 := by
  cases hpc : (s.process who).pc <;> simp_all [State.step, Process.held, Pc.Inside]

/-- With nobody able to move, a permit is free if one is needed, and nobody waits for it. -/
theorem Counts.not_waiting (h : s.Counts max env) (hone : 0 < max → env.permits = 1)
    (hblocked : ∀ who, s.step max who = none) (who : Party) : (s.process who).pc ≠ .waiting := by
  intro hpc
  have hlt := (h.ok who).lt (.inr hpc)
  have hpermits := h.permits
  have hparent := held_of_blocked (hblocked .parent)
  have hchild := held_of_blocked (hblocked .child)
  have hsem : 0 < s.sem := by
    have := hone (by omega)
    omega
  have hstep := hblocked who
  simp [State.step, hpc, hsem] at hstep

/-- With nobody able to move, what was born has ended. -/
theorem Counts.ended (h : s.Counts max env) (hone : 0 < max → env.permits = 1)
    (hblocked : ∀ who, s.step max who = none) :
    (s.process .parent).pc = .done ∧
      ((s.process .child).pc = .done ∨ (s.process .child).pc = .unborn) := by
  have hwaiting := h.not_waiting hone hblocked
  have hchild : (s.process .child).pc = .done ∨ (s.process .child).pc = .unborn := by
    have hstep := hblocked .child
    have hreaps := (h.ok .child).reaps
    cases hpc : (s.process .child).pc <;> simp_all [State.step]
  refine ⟨?_, hchild⟩
  have hstep := hblocked .parent
  have hborn := (h.ok .parent).unborn
  cases hpc : (s.process .parent).pc <;> simp_all [State.step]

/-- Without a permit nobody gets to the end of the loop. -/
theorem Counts.printed_none (h : s.Counts max env) (hr : s.Reports) (hzero : env.permits = 0)
    (hmax : 0 < max) : s.printed = none := by
  rw [hr.printed, if_neg]
  intro hdone
  have hstores := h.stuck hzero .parent
  have hi := (h.ok .parent).left (.inr (.inr hdone))
  simp only [Process.stores, hdone, reduceCtorEq, if_false] at hstores
  omega

end State

variable {max : ℕ} {env : Surroundings} {s t : State} {schedule : List Party}

theorem counts_of_reachable (hle : env.permits ≤ 1) (h : (machine max env).Reachable s) :
    s.Counts max env ∧ s.Reports := by
  apply Machine.Reachable.invariant (I := fun s => s.Counts max env ∧ s.Reports) _ _ h
  · refine ⟨⟨?_, ?_, ?_, ?_⟩, ?_, ?_⟩
    · cases hforks : env.forks <;>
        simp [machine, Surroundings.start, hforks, Process.held, Pc.Inside]
    · cases hforks : env.forks <;> simp [machine, Surroundings.start, hforks, Process.stores]
    · intro _ who
      cases hforks : env.forks <;> cases who <;>
        simp [machine, Surroundings.start, hforks, Process.stores]
    · intro who
      cases hforks : env.forks <;> cases who <;> constructor <;>
        simp [machine, Surroundings.start, hforks, Pc.Inside]
    · simp [machine, Surroundings.start]
    · simp [machine, Surroundings.start]
  · intro s who t hi hs
    exact ⟨hi.1.step hle hs, hi.2.step hi.1 hs⟩

def State.remaining (max : ℕ) (s : State) : ℕ :=
  (s.process .parent).left max + (s.process .child).left max

theorem run_length (hle : env.permits ≤ 1) (h : (machine max env).Reachable s)
    (hr : (machine max env).run s schedule = some t) :
    schedule.length + t.remaining max ≤ s.remaining max := by
  induction schedule generalizing s with
  | nil =>
      cases hr
      simp
  | cons who schedule ih =>
      rw [Machine.run_cons] at hr
      obtain ⟨u, hu, hr⟩ := Option.bind_eq_some_iff.mp hr
      have hlen := ih (h.next hu) hr
      obtain ⟨hlt, hother⟩ := State.left_step (counts_of_reachable hle h).1 hu
      have hs := Party.both (fun p => (s.process p).left max) who
      have ht := Party.both (fun p => (u.process p).left max) who
      simp only [hother] at ht
      simp only [State.remaining, List.length_cons] at *
      omega

/-- The increments of all processes that there are. -/
def Surroundings.total (env : Surroundings) (max : ℕ) : ℕ := if env.forks then 2 * max else max

theorem State.Counts.cell_of_done (h : s.Counts max env) (hp : (s.process .parent).pc = .done)
    (hc : (s.process .child).pc = .done ∨ (s.process .child).pc = .unborn) :
    s.cell = env.initial + BitVec.ofNat 32 (env.total max) := by
  have hparent := (h.ok .parent).left (.inr (.inr hp))
  have hchild := h.ok .child
  rw [h.cell]
  rcases hc with hc | hc
  · have hi := hchild.left (.inr (.inr hc))
    have hforks : env.forks = true := by
      by_contra hforks
      have hpc := hchild.unborn.mpr ⟨rfl, by simpa using hforks⟩
      rw [hc] at hpc
      cases hpc
    simp only [Process.stores, hp, hc, hparent, hi, reduceCtorEq, if_false, Surroundings.total,
      hforks, if_true, Nat.two_mul]
  · have hi := hchild.idle hc
    have hforks := (hchild.unborn.mp hc).2
    simp [Process.stores, hp, hc, hparent, hi, Surroundings.total, hforks]

/-- The counter under every schedule, if the semaphore is new or has no more than one permit: no
increment is lost, no schedule goes on for more than `12 * max + 6` steps, and one that cannot go on
has printed the sum of all increments, or has found no permit at all. -/
theorem counter_total (hle : env.permits ≤ 1)
    (h : (machine max env).run (machine max env).init schedule = some s) :
    s.cell = env.initial +
        BitVec.ofNat 32 ((s.process .parent).stores + (s.process .child).stores) ∧
      schedule.length ≤ 12 * max + 6 ∧
      (∀ v, s.printed = some v → v = env.initial + BitVec.ofNat 32 (env.total max)) ∧
      ((∀ who, s.step max who = none) →
        s.printed = if env.permits = 0 ∧ 0 < max then none
          else some (env.initial + BitVec.ofNat 32 (env.total max))) := by
  have hreach := Machine.Reachable.start.run h
  obtain ⟨hcounts, hreports⟩ := counts_of_reachable hle hreach
  refine ⟨hcounts.cell, ?_, ?_, ?_⟩
  · have := run_length hle .start h
    have hstart : State.remaining max (machine max env).init ≤ 12 * max + 6 := by
      cases hforks : env.forks <;>
        simp [State.remaining, Process.left, machine, Surroundings.start, hforks] <;> omega
    omega
  · intro v hv
    rw [hreports.printed] at hv
    split at hv
    · rename_i hp
      cases hv
      exact hcounts.cell_of_done hp (hreports.child (.inr hp))
    · cases hv
  · intro hblocked
    split_ifs with hzero
    · exact hcounts.printed_none hreports hzero.1 hzero.2
    · have hone : 0 < max → env.permits = 1 := fun hmax => by
        have := fun hnone => hzero ⟨hnone, hmax⟩
        omega
      obtain ⟨hparent, hchild⟩ := hcounts.ended hone hblocked
      rw [hreports.printed, if_pos hparent, hcounts.cell_of_done hparent hchild]

/-- One round each, begun together and finished by the child last. -/
theorem counter_total_once :
    ((machine 1 ⟨none, true, 7⟩).run (machine 1 ⟨none, true, 7⟩).init
      [.child, .child, .parent, .child, .child, .child, .child, .parent, .parent, .parent,
        .parent, .parent, .parent, .child, .parent, .parent]).map State.printed =
      some (some 9) := by
  have h : (machine 1 ⟨none, true, 7⟩).run (machine 1 ⟨none, true, 7⟩).init
      [.child, .child, .parent, .child, .child, .child, .child, .parent, .parent, .parent,
        .parent, .parent, .parent, .child, .parent, .parent] = some _ := rfl
  rw [h, Option.map_some, (counter_total (by decide) h).2.2.2]
  · rfl
  · intro who
    cases who <;> rfl

/-- Two permits of an earlier run let both processes load the same number. -/
example :
    ((machine 1 ⟨some 2, true, 7⟩).run (machine 1 ⟨some 2, true, 7⟩).init
      [.child, .child, .child, .parent, .parent, .parent, .child, .child, .child, .child,
        .parent, .parent, .parent, .parent, .parent, .parent]).map State.printed =
      some (some 8) := rfl

end EmbeddedCode.Semaphore
