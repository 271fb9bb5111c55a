import EmbeddedCode.Library.Transition
import EmbeddedCode.ThreadPool.Model

/-!
# The threads of the pool

`n` worker threads and any number of adding threads share the pool. A critical
section, a wait, a signal and the execution of a task are one step each. The
states also record the tasks added and the tasks taken so far.
-/
namespace EmbeddedCode.ThreadPool

open Transition

/-- Where a thread in `thread_routine` stands. -/
inductive WorkerPc (α : Type) where
  | start
  | asleep
  | woken
  | running (worker : α)
  | exited
  deriving DecidableEq, Repr

/-- Where a thread that calls `pool_add_worker` stands. `window` lies between its unlock
of `queue_lock` and its signal. -/
inductive AdderPc (α : Type) where
  | idle
  | ready (newworker : α)
  | window
  deriving DecidableEq, Repr

structure State (n : ℕ) (T α τ : Type) where
  pool : Pool α τ
  worker : Fin n → WorkerPc α
  adder : T → AdderPc α
  added : List τ
  taken : List τ
  failed : Bool

inductive Action (n : ℕ) (T α τ : Type) where
  | new (t : T) (task : τ) (newworker : α)
  | add (t : T) (fuel : ℕ)
  /-- The signal wakes the given worker, or nobody sleeps. -/
  | signal (t : T) (w : Option (Fin n))
  | test (w : Fin n)
  /-- A spurious wakeup. -/
  | wake (w : Fin n)
  | run (w : Fin n)

variable {n : ℕ} {T α τ : Type} [DecidableEq T] [DecidableEq α]

namespace State

def setWorker (s : State n T α τ) (w : Fin n) (pc : WorkerPc α) : State n T α τ :=
  {s with worker := Function.update s.worker w pc}

def setAdder (s : State n T α τ) (t : T) (pc : AdderPc α) : State n T α τ :=
  {s with adder := Function.update s.adder t pc}

/-- A worker holds `queue_lock` from the test of the queue on, until it sleeps, exits or
has taken a task. -/
def test (s : State n T α τ) (w : Fin n) : Option (State n T α τ) :=
  if waits s.pool then some (s.setWorker w .asleep)
  else if s.pool.shutdown then some (s.setWorker w .exited)
  else if takeAsserts s.pool then do
    let (worker, pool) ← takeWorker s.pool
    let s := {s with pool := pool, taken := s.taken ++ [pool.heap.task worker]}
    some (s.setWorker w (.running worker))
  else some {s with failed := true}

def signal (s : State n T α τ) (w : Option (Fin n)) : Option (State n T α τ) :=
  match w with
  | some w => if s.worker w = .asleep then some (s.setWorker w .woken) else none
  | none => if ∀ w, s.worker w ≠ .asleep then some s else none

def step (s : State n T α τ) (a : Action n T α τ) : Option (State n T α τ) :=
  if s.failed then none else
  match a with
  | .new t task newworker =>
      match s.adder t with
      | .idle => do
          let pool ← newWorker s.pool task newworker
          some ({s with pool := pool}.setAdder t (.ready newworker))
      | _ => none
  | .add t fuel =>
      match s.adder t with
      | .ready newworker => do
          let pool ← addWorker fuel s.pool newworker
          let added := s.added ++ [pool.heap.task newworker]
          let s := {s with pool := pool, added := added, failed := !addAsserts pool}
          some (s.setAdder t .window)
      | _ => none
  | .signal t w =>
      match s.adder t with
      | .window => (s.signal w).map fun s => s.setAdder t .idle
      | _ => none
  | .test w =>
      match s.worker w with
      | .start | .woken => s.test w
      | _ => none
  | .wake w => if s.worker w = .asleep then some (s.setWorker w .woken) else none
  | .run w =>
      match s.worker w with
      | .running worker => some ({s with pool := freeWorker s.pool worker}.setWorker w .start)
      | _ => none

end State

def machine (n : ℕ) (T : Type) {α τ : Type} [DecidableEq T] [DecidableEq α] (heap : Heap α τ) :
    Machine (State n T α τ) (Action n T α τ) where
  init := ⟨poolInit heap, fun _ => .start, fun _ => .idle, [], [], false⟩
  step := State.step

/-- What a step does: one case for each way in which a thread can move. -/
inductive Effect (s : State n T α τ) : Action n T α τ → State n T α τ → Prop
  | new {t : T} {task : τ} {a : α} {pool : Pool α τ} : s.adder t = .idle →
      newWorker s.pool task a = some pool →
      Effect s (.new t task a) ({s with pool := pool}.setAdder t (.ready a))
  | add {t : T} {a : α} {fuel : ℕ} {pool : Pool α τ} : s.adder t = .ready a →
      addWorker fuel s.pool a = some pool →
      Effect s (.add t fuel) ({s with
        pool := pool
        added := s.added ++ [pool.heap.task a]
        failed := !addAsserts pool}.setAdder t .window)
  | signal {t : T} {w : Fin n} : s.adder t = .window → s.worker w = .asleep →
      Effect s (.signal t (some w)) ((s.setWorker w .woken).setAdder t .idle)
  | lost {t : T} : s.adder t = .window → (∀ w, s.worker w ≠ .asleep) →
      Effect s (.signal t none) (s.setAdder t .idle)
  | sleep {w : Fin n} : s.worker w = .start ∨ s.worker w = .woken → waits s.pool = true →
      Effect s (.test w) (s.setWorker w .asleep)
  | exit {w : Fin n} : s.worker w = .start ∨ s.worker w = .woken → s.pool.shutdown = true →
      Effect s (.test w) (s.setWorker w .exited)
  | take {w : Fin n} {a : α} {pool : Pool α τ} : s.worker w = .start ∨ s.worker w = .woken →
      takeAsserts s.pool = true → takeWorker s.pool = some (a, pool) →
      Effect s (.test w) ({s with
        pool := pool
        taken := s.taken ++ [pool.heap.task a]}.setWorker w (.running a))
  | fail {w : Fin n} : s.worker w = .start ∨ s.worker w = .woken → waits s.pool ≠ true →
      s.pool.shutdown = false → takeAsserts s.pool ≠ true →
      Effect s (.test w) {s with failed := true}
  | wake {w : Fin n} : s.worker w = .asleep → Effect s (.wake w) (s.setWorker w .woken)
  | run {w : Fin n} {a : α} : s.worker w = .running a →
      Effect s (.run w) ({s with pool := freeWorker s.pool a}.setWorker w .start)

theorem test_effect {s s' : State n T α τ} {w : Fin n}
    (hw : s.worker w = .start ∨ s.worker w = .woken) (hs : s.test w = some s') :
    Effect s (.test w) s' := by
  unfold State.test at hs
  split_ifs at hs with hwait hshut hassert
  · cases hs
    exact .sleep hw hwait
  · cases hs
    exact .exit hw hshut
  · obtain ⟨⟨a, pool⟩, htake, hs⟩ := Option.bind_eq_some_iff.mp hs
    cases hs
    exact .take hw hassert htake
  · cases hs
    exact .fail hw hwait (by simpa using hshut) hassert

theorem step_effect {s s' : State n T α τ} {a : Action n T α τ} (hs : s.step a = some s') :
    Effect s a s' := by
  unfold State.step at hs
  split_ifs at hs
  cases a with
  | new t task a =>
      cases ht : s.adder t with
      | ready | window => simp [ht] at hs
      | idle =>
          simp only [ht] at hs
          obtain ⟨pool, hpool, hs⟩ := Option.bind_eq_some_iff.mp hs
          cases hs
          exact .new ht hpool
  | add t fuel =>
      cases ht : s.adder t with
      | idle | window => simp [ht] at hs
      | ready a =>
          simp only [ht] at hs
          obtain ⟨pool, hpool, hs⟩ := Option.bind_eq_some_iff.mp hs
          cases hs
          exact .add ht hpool
  | signal t w =>
      cases ht : s.adder t with
      | idle | ready => simp [ht] at hs
      | window =>
          simp only [ht, Option.map_eq_some_iff] at hs
          obtain ⟨s₁, h₁, rfl⟩ := hs
          cases w with
          | some w =>
              simp only [State.signal] at h₁
              split_ifs at h₁ with hw
              cases h₁
              exact .signal ht hw
          | none =>
              simp only [State.signal] at h₁
              split_ifs at h₁ with hnone
              cases h₁
              exact .lost ht hnone
  | test w =>
      cases hw : s.worker w with
      | asleep | running | exited => simp [hw] at hs
      | start | woken =>
          simp only [hw] at hs
          exact test_effect (by simp [hw]) hs
  | wake w =>
      simp only at hs
      split_ifs at hs with hw
      cases hs
      exact .wake hw
  | run w =>
      cases hw : s.worker w with
      | start | asleep | woken | exited => simp [hw] at hs
      | running a =>
          simp only [hw] at hs
          cases hs
          exact .run hw

end EmbeddedCode.ThreadPool
