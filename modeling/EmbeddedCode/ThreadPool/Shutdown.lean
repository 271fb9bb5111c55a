import EmbeddedCode.Library.Transition
import EmbeddedCode.ThreadPool.Model

/-!
# Destroying the pool

Here the lock is taken and released in steps of its own, so that `pool_destroy`,
which does not take it, can run between the test of a worker and its sleep. What
`pool_destroy` does is one unlocked store, one broadcast and then one join after
the other.
-/
namespace EmbeddedCode.ThreadPool.Shutdown

open Transition

/-- Where a thread in `thread_routine` stands. From `tests` to `leaves` it holds
`queue_lock`. -/
inductive WorkerPc (α : Type) where
  | start
  | tests
  /-- The condition was true, and `pthread_cond_wait` is next. -/
  | waits
  | asleep
  | woken
  /-- The condition was false, and the test of `shutdown` is next. -/
  | leaves
  | running (worker : α)
  | exited
  deriving DecidableEq, Repr

/-- Where a thread that calls `pool_add_worker` stands. At `inside` and `added` it holds
`queue_lock`. -/
inductive AdderPc (α : Type) where
  | idle
  | ready (newworker : α)
  | inside (newworker : α)
  | added
  | window
  deriving DecidableEq, Repr

/-- Where `pool_destroy` stands. -/
inductive DestroyerPc where
  | before
  | stored
  /-- The broadcast was sent, and the join with the given worker is next. -/
  | joining (i : ℕ)
  deriving DecidableEq, Repr

inductive Holder (n : ℕ) (T : Type) where
  | worker (w : Fin n)
  | adder (t : T)
  deriving DecidableEq

structure State (n : ℕ) (T α τ : Type) where
  pool : Pool α τ
  lock : Option (Holder n T)
  worker : Fin n → WorkerPc α
  adder : T → AdderPc α
  destroyer : DestroyerPc

inductive Action (n : ℕ) (T α τ : Type) where
  | new (t : T) (task : τ) (newworker : α)
  | lockAdder (t : T)
  | add (t : T) (fuel : ℕ)
  | unlockAdder (t : T)
  /-- The signal wakes the given worker, or nobody sleeps. -/
  | signal (t : T) (w : Option (Fin n))
  | lock (w : Fin n)
  | test (w : Fin n)
  | sleep (w : Fin n)
  /-- A spurious wakeup. -/
  | wake (w : Fin n)
  | leave (w : Fin n)
  | run (w : Fin n)
  | store
  | broadcast
  | join

variable {n : ℕ} {T α τ : Type} [DecidableEq T] [DecidableEq α]

namespace State

def setWorker (s : State n T α τ) (w : Fin n) (pc : WorkerPc α) : State n T α τ :=
  {s with worker := Function.update s.worker w pc}

def setAdder (s : State n T α τ) (t : T) (pc : AdderPc α) : State n T α τ :=
  {s with adder := Function.update s.adder t pc}

/-- The end of the critical section of `thread_routine`. A failed assertion stops the
program. -/
def leave (s : State n T α τ) (w : Fin n) : Option (State n T α τ) :=
  if s.pool.shutdown then some ({s with lock := none}.setWorker w .exited)
  else if takeAsserts s.pool then do
    let (worker, pool) ← takeWorker s.pool
    some ({s with pool := pool, lock := none}.setWorker w (.running worker))
  else none

def signal (s : State n T α τ) (w : Option (Fin n)) : Option (State n T α τ) :=
  match w with
  | some w => if s.worker w = .asleep then some (s.setWorker w .woken) else none
  | none => if ∀ w, s.worker w ≠ .asleep then some s else none

def wakeAll (worker : Fin n → WorkerPc α) (w : Fin n) : WorkerPc α :=
  if worker w = .asleep then .woken else worker w

def stepAdder (s : State n T α τ) (t : T) : Action n T α τ → AdderPc α → Option (State n T α τ)
  | .new _ task newworker, .idle => do
      let pool ← newWorker s.pool task newworker
      some ({s with pool := pool}.setAdder t (.ready newworker))
  | .lockAdder _, .ready newworker =>
      if s.lock = none then some ({s with lock := some (.adder t)}.setAdder t (.inside newworker))
      else none
  | .add _ fuel, .inside newworker => do
      let pool ← addWorker fuel s.pool newworker
      if addAsserts pool then some ({s with pool := pool}.setAdder t .added) else none
  | .unlockAdder _, .added => some ({s with lock := none}.setAdder t .window)
  | .signal _ w, .window => (s.signal w).map fun s => s.setAdder t .idle
  | _, _ => none

def stepWorker (s : State n T α τ) (w : Fin n) :
    Action n T α τ → WorkerPc α → Option (State n T α τ)
  | .lock _, .start | .lock _, .woken =>
      if s.lock = none then some ({s with lock := some (.worker w)}.setWorker w .tests) else none
  | .test _, .tests => some (s.setWorker w (if ThreadPool.waits s.pool then .waits else .leaves))
  | .sleep _, .waits => some ({s with lock := none}.setWorker w .asleep)
  | .wake _, .asleep => some (s.setWorker w .woken)
  | .leave _, .leaves => s.leave w
  | .run _, .running worker => some ({s with pool := freeWorker s.pool worker}.setWorker w .start)
  | _, _ => none

def stepDestroyer (s : State n T α τ) : Action n T α τ → DestroyerPc → Option (State n T α τ)
  | .store, .before =>
      some {s with pool := {s.pool with shutdown := true}, destroyer := .stored}
  | .broadcast, .stored => some {s with worker := wakeAll s.worker, destroyer := .joining 0}
  | .join, .joining i =>
      if h : i < n then
        if s.worker ⟨i, h⟩ = .exited then some {s with destroyer := .joining (i + 1)} else none
      else none
  | _, _ => none

def step (s : State n T α τ) (a : Action n T α τ) : Option (State n T α τ) :=
  match a with
  | .new t _ _ | .lockAdder t | .add t _ | .unlockAdder t | .signal t _ =>
      s.stepAdder t a (s.adder t)
  | .lock w | .test w | .sleep w | .wake w | .leave w | .run w => s.stepWorker w a (s.worker w)
  | .store | .broadcast | .join => s.stepDestroyer a s.destroyer

end State

def machine (n : ℕ) (T : Type) {α τ : Type} [DecidableEq T] [DecidableEq α] (heap : Heap α τ) :
    Machine (State n T α τ) (Action n T α τ) where
  init := ⟨poolInit heap, none, fun _ => .start, fun _ => .idle, .before⟩
  step := State.step

/-- `pool_destroy` waits for a worker to exit, while some worker sleeps and no adding
thread is about to send a signal. -/
def Hangs (s : State n T α τ) : Prop :=
  (∃ (i : ℕ) (h : i < n), s.destroyer = .joining i ∧ s.worker ⟨i, h⟩ ≠ .exited) ∧
    (∃ w, s.worker w = .asleep) ∧ ∀ t, s.adder t ≠ .window

/-- The broadcast is sent while no worker stands between its test and its sleep. -/
def broadcastSafe (s : State n T α τ) : Action n T α τ → Prop
  | .broadcast => ∀ w, s.worker w ≠ .waits
  | _ => True

/-- The invariant: after the broadcast no worker sleeps or is about to. -/
structure Alert (s : State n T α τ) : Prop where
  shutdown : s.destroyer ≠ .before → s.pool.shutdown = true
  awake : ∀ i, s.destroyer = .joining i → ∀ w, s.worker w ≠ .waits ∧ s.worker w ≠ .asleep

section
variable {s s' : State n T α τ} {a : Action n T α τ}

theorem newWorker_shutdown {pool pool' : Pool α τ} {task : τ} {b : α}
    (h : newWorker pool task b = some pool') : pool'.shutdown = pool.shutdown := by
  unfold newWorker at h
  split_ifs at h
  cases h
  rfl

theorem addWorker_shutdown {pool pool' : Pool α τ} {fuel : ℕ} {b : α}
    (h : addWorker fuel pool b = some pool') : pool'.shutdown = pool.shutdown := by
  unfold addWorker at h
  cases hq : pool.queueHead with
  | none =>
      simp only [hq, Option.bind_eq_bind, Option.bind_some, Option.some.injEq] at h
      rw [← h]
  | some m =>
      simp only [hq, Option.bind_eq_bind, Option.bind_eq_some_iff, Option.some.injEq] at h
      obtain ⟨_, _, _, rfl, rfl⟩ := h
      rfl

/-- An adding thread may wake a worker. Otherwise it leaves all that matters for the
shutdown as it is. -/
theorem stepAdder_effect {t : T} {pc : AdderPc α} (hs : s.stepAdder t a pc = some s') :
    s'.pool.shutdown = s.pool.shutdown ∧ s'.destroyer = s.destroyer ∧
      ∀ w, s'.worker w = s.worker w ∨ s.worker w = .asleep ∧ s'.worker w = .woken := by
  unfold State.stepAdder at hs
  split at hs
  · obtain ⟨pool, hpool, hs⟩ := Option.bind_eq_some_iff.mp hs
    cases hs
    exact ⟨newWorker_shutdown hpool, rfl, fun _ => .inl rfl⟩
  · split_ifs at hs
    cases hs
    exact ⟨rfl, rfl, fun _ => .inl rfl⟩
  · obtain ⟨pool, hpool, hs⟩ := Option.bind_eq_some_iff.mp hs
    split_ifs at hs
    cases hs
    exact ⟨addWorker_shutdown hpool, rfl, fun _ => .inl rfl⟩
  · cases hs
    exact ⟨rfl, rfl, fun _ => .inl rfl⟩
  · obtain ⟨s₁, h₁, rfl⟩ := Option.map_eq_some_iff.mp hs
    unfold State.signal at h₁
    split at h₁
    · split_ifs at h₁ with hasleep
      cases h₁
      refine ⟨rfl, rfl, fun w => ?_⟩
      simp only [State.setAdder, State.setWorker, Function.update_apply]
      split_ifs with hw
      · exact .inr ⟨hw ▸ hasleep, rfl⟩
      · exact .inl rfl
    · split_ifs at h₁
      cases h₁
      exact ⟨rfl, rfl, fun _ => .inl rfl⟩
  · cases hs

omit [DecidableEq T] in
/-- A worker moves alone. It is about to wait only if the pool is not shut down, and it
sleeps only if it was about to wait. It takes the lock from nobody. -/
theorem stepWorker_effect {w : Fin n} (hs : s.stepWorker w a (s.worker w) = some s') :
    s'.pool.shutdown = s.pool.shutdown ∧ s'.destroyer = s.destroyer ∧ s'.adder = s.adder ∧
      (∀ t, s'.lock = some (.adder t) → s.lock = some (.adder t)) ∧
      ∃ pc, s'.worker = Function.update s.worker w pc ∧
        (pc = .waits → s.pool.shutdown = false) ∧ (pc = .asleep → s.worker w = .waits) := by
  generalize hpc : s.worker w = pc at hs
  unfold State.stepWorker at hs
  split at hs
  · split_ifs at hs
    cases hs
    exact ⟨rfl, rfl, rfl, by simp [State.setWorker], .tests, rfl, by simp, by simp⟩
  · split_ifs at hs
    cases hs
    exact ⟨rfl, rfl, rfl, by simp [State.setWorker], .tests, rfl, by simp, by simp⟩
  · cases hs
    refine ⟨rfl, rfl, rfl, fun _ ht => ht, _, rfl, fun h => ?_, fun h => ?_⟩
    · split_ifs at h with hw
      simp only [ThreadPool.waits, Bool.and_eq_true, Bool.not_eq_true'] at hw
      exact hw.2
    · split_ifs at h
  · cases hs
    exact ⟨rfl, rfl, rfl, by simp [State.setWorker], .asleep, rfl, by simp, fun _ => rfl⟩
  · cases hs
    exact ⟨rfl, rfl, rfl, fun _ ht => ht, .woken, rfl, by simp, by simp⟩
  · unfold State.leave at hs
    split_ifs at hs
    · cases hs
      exact ⟨rfl, rfl, rfl, by simp [State.setWorker], .exited, rfl, by simp, by simp⟩
    · obtain ⟨⟨b, pool⟩, hpool, hs⟩ := Option.bind_eq_some_iff.mp hs
      obtain ⟨_, _, hpool⟩ := Option.bind_eq_some_iff.mp hpool
      cases hpool
      cases hs
      exact ⟨rfl, rfl, rfl, by simp [State.setWorker], .running b, rfl, by simp, by simp⟩
  · cases hs
    exact ⟨rfl, rfl, rfl, fun _ ht => ht, .start, rfl, by simp, by simp⟩
  · cases hs

omit [DecidableEq T] in
/-- `pool_destroy` leaves the lock and the adding threads alone, and a worker is joined when
it has exited. -/
theorem stepDestroyer_effect (hs : s.stepDestroyer a s.destroyer = some s') :
    s'.lock = s.lock ∧ s'.adder = s.adder ∧
      (∀ w, s'.worker w = s.worker w ∨ s.worker w = .asleep ∧ s'.worker w = .woken) ∧
      ∀ i, s'.destroyer = .joining (i + 1) → ∃ h : i < n, s.destroyer = .joining i ∧
        s.worker ⟨i, h⟩ = .exited := by
  generalize hpc : s.destroyer = pc at hs
  unfold State.stepDestroyer at hs
  split at hs
  · cases hs
    exact ⟨rfl, rfl, fun _ => .inl rfl, by simp⟩
  · cases hs
    refine ⟨rfl, rfl, fun w => ?_, by simp⟩
    simp only [State.wakeAll]
    split_ifs with hw
    · exact .inr ⟨hw, rfl⟩
    · exact .inl rfl
  · split_ifs at hs with hin hexited
    cases hs
    refine ⟨rfl, rfl, fun _ => .inl rfl, ?_⟩
    rintro j ⟨⟩
    exact ⟨hin, rfl, hexited⟩
  · cases hs

/-- A worker that has exited stays so. -/
theorem exited_step (hs : s.step a = some s') {w : Fin n} (hw : s.worker w = .exited) :
    s'.worker w = .exited := by
  have hwake : (s'.worker w = s.worker w ∨ s.worker w = .asleep ∧ s'.worker w = .woken) →
      s'.worker w = .exited := by
    rintro (he | ⟨he, _⟩)
    · exact he.trans hw
    · rw [hw] at he
      cases he
  have hmove : ∀ v, s.stepWorker v a (s.worker v) = some s' → s'.worker w = .exited := by
    intro v hs
    obtain ⟨_, _, _, _, pc, hworker, _⟩ := stepWorker_effect hs
    rcases eq_or_ne w v with rfl | hne
    · rw [hw] at hs
      cases a <;> cases hs
    · rw [hworker, Function.update_of_ne hne, hw]
  cases a with
  | new | lockAdder | add | unlockAdder | signal => exact hwake ((stepAdder_effect hs).2.2 w)
  | lock | test | sleep | wake | leave | run => exact hmove _ hs
  | store | broadcast | join => exact hwake ((stepDestroyer_effect hs).2.2.1 w)

def Joined (s : State n T α τ) : Prop :=
  ∀ i, s.destroyer = .joining i → ∀ w : Fin n, w < i → s.worker w = .exited

theorem Joined.step (h : Joined s) (hs : s.step a = some s') : Joined s' := by
  have hframe : s'.destroyer = s.destroyer → Joined s' := by
    intro hd i hi w hw
    exact exited_step hs (h i (hd ▸ hi) w hw)
  cases a with
  | new | lockAdder | add | unlockAdder | signal => exact hframe (stepAdder_effect hs).2.1
  | lock | test | sleep | wake | leave | run => exact hframe (stepWorker_effect hs).2.1
  | store | broadcast | join =>
      rintro (_ | i) hi w hw
      · exact absurd hw (Nat.not_lt_zero _)
      · obtain ⟨hin, hjoin, hexited⟩ := (stepDestroyer_effect hs).2.2.2 i hi
        apply exited_step hs
        rcases Nat.lt_succ_iff_lt_or_eq.mp hw with hlt | heq
        · exact h i hjoin w hlt
        · obtain rfl : w = ⟨i, hin⟩ := Fin.ext heq
          exact hexited

/-- An adding thread that holds the lock is in its critical section. -/
def LockHeld (s : State n T α τ) : Prop :=
  ∀ t, s.lock = some (.adder t) → (∃ b, s.adder t = .inside b) ∨ s.adder t = .added

omit [DecidableEq T] [DecidableEq α] in
theorem LockHeld.frame (h : LockHeld s)
    (hlock : ∀ t, s'.lock = some (.adder t) → s.lock = some (.adder t))
    (hadder : s'.adder = s.adder) : LockHeld s' := by
  intro t ht
  rw [hadder]
  exact h t (hlock t ht)

omit [DecidableEq α] in
/-- Outside of its critical section a thread moves without the lock. -/
theorem LockHeld.setAdder (h : LockHeld s) {t : T} {pc : AdderPc α}
    (hlock : s'.lock = s.lock) (hadder : s'.adder = Function.update s.adder t pc)
    (ht : s.lock ≠ some (.adder t)) : LockHeld s' := by
  intro u hu
  rw [hlock] at hu
  have hne : u ≠ t := fun he => ht (he ▸ hu)
  rw [hadder, Function.update_of_ne hne]
  exact h u hu

theorem LockHeld.adder (h : LockHeld s) {t : T} (hs : s.stepAdder t a (s.adder t) = some s') :
    LockHeld s' := by
  have hfree : ∀ pc, s.adder t = pc → (∀ b, pc ≠ .inside b) → pc ≠ .added →
      s.lock ≠ some (.adder t) := by
    intro pc hpc hin hadd hlock
    rcases h t hlock with ⟨b, hb⟩ | hb
    · exact hin b (hpc.symm.trans hb)
    · exact hadd (hpc.symm.trans hb)
  generalize hpc : s.adder t = pc at hs
  unfold State.stepAdder at hs
  split at hs
  · obtain ⟨pool, _, hs⟩ := Option.bind_eq_some_iff.mp hs
    cases hs
    exact h.setAdder rfl rfl (hfree _ hpc (by simp) (by simp))
  · split_ifs at hs
    cases hs
    intro u hu
    cases hu
    exact .inl ⟨_, Function.update_self ..⟩
  · obtain ⟨pool, _, hs⟩ := Option.bind_eq_some_iff.mp hs
    split_ifs at hs
    cases hs
    intro u hu
    rcases eq_or_ne u t with rfl | hne
    · exact .inr (Function.update_self ..)
    · simp only [State.setAdder, Function.update_of_ne hne]
      exact h u hu
  · cases hs
    intro u hu
    cases hu
  · obtain ⟨s₁, h₁, rfl⟩ := Option.map_eq_some_iff.mp hs
    have hfree' := hfree _ hpc (by simp) (by simp)
    unfold State.signal at h₁
    split at h₁
    · split_ifs at h₁
      cases h₁
      exact h.setAdder rfl rfl hfree'
    · split_ifs at h₁
      cases h₁
      exact h.setAdder rfl rfl hfree'
  · cases hs

theorem LockHeld.step (h : LockHeld s) (hs : s.step a = some s') : LockHeld s' := by
  cases a with
  | new | lockAdder | add | unlockAdder | signal => exact h.adder hs
  | lock | test | sleep | wake | leave | run =>
      obtain ⟨_, _, hadder, hlock, _⟩ := stepWorker_effect hs
      exact h.frame hlock hadder
  | store | broadcast | join =>
      obtain ⟨hlock, hadder, _⟩ := stepDestroyer_effect hs
      exact h.frame (fun t ht => hlock ▸ ht) hadder

theorem Alert.adder (h : Alert s) {t : T} {pc : AdderPc α}
    (hs : s.stepAdder t a pc = some s') : Alert s' := by
  obtain ⟨hshut, hdes, hworker⟩ := stepAdder_effect hs
  refine ⟨fun hd => ?_, fun i hd w => ?_⟩
  · rw [hshut]
    exact h.shutdown (hdes ▸ hd)
  · rw [hdes] at hd
    rcases hworker w with he | ⟨_, he⟩
    · rw [he]
      exact h.awake i hd w
    · simp [he]

omit [DecidableEq T] in
theorem Alert.worker (h : Alert s) {w : Fin n} (hs : s.stepWorker w a (s.worker w) = some s') :
    Alert s' := by
  obtain ⟨hshut, hdes, _, _, pc, hworker, hwaits, hasleep⟩ := stepWorker_effect hs
  refine ⟨fun hd => ?_, fun i hd v => ?_⟩
  · rw [hshut]
    exact h.shutdown (hdes ▸ hd)
  · rw [hdes] at hd
    have htrue := h.shutdown (by simp [hd])
    have hw := (h.awake i hd w).1
    rw [hworker, Function.update_apply]
    split_ifs
    · refine ⟨fun he => ?_, fun he => hw (hasleep he)⟩
      rw [hwaits he] at htrue
      cases htrue
    · exact h.awake i hd v

omit [DecidableEq T] in
theorem Alert.destroyer (h : Alert s) (hg : broadcastSafe s a)
    (hs : s.stepDestroyer a s.destroyer = some s') : Alert s' := by
  generalize hpc : s.destroyer = pc at hs
  unfold State.stepDestroyer at hs
  split at hs
  · cases hs
    exact ⟨fun _ => rfl, by simp⟩
  · cases hs
    refine ⟨fun _ => h.shutdown (by simp [hpc]), fun i _ w => ?_⟩
    have hw : s.worker w ≠ .waits := hg w
    simp only [State.wakeAll]
    split_ifs with ha
    · simp
    · exact ⟨hw, ha⟩
  · rename_i i
    split_ifs at hs
    cases hs
    exact ⟨fun _ => h.shutdown (by simp [hpc]), fun _ _ => h.awake i hpc⟩
  · cases hs

theorem Alert.step (h : Alert s) (hg : broadcastSafe s a) (hs : s.step a = some s') :
    Alert s' := by
  cases a with
  | new | lockAdder | add | unlockAdder | signal => exact h.adder hs
  | lock | test | sleep | wake | leave | run => exact h.worker hs
  | store | broadcast | join => exact h.destroyer hg hs

/-- If no worker stands between its test and its sleep when the broadcast is sent, no
worker sleeps while `pool_destroy` joins. -/
theorem not_hangs {heap : Heap α τ} (h : (machine n T heap).ReachableBy broadcastSafe s) :
    ¬ Hangs s := by
  have halert : Alert s := Machine.ReachableBy.invariant ⟨by simp [machine], by simp [machine]⟩
    (fun _ _ _ hi hg hs => hi.step hg hs) h
  rintro ⟨⟨i, _, hjoin, _⟩, ⟨w, hw⟩, _⟩
  exact (halert.awake i hjoin w).2 hw

/-- `pool_destroy` joins until it meets a worker that has not exited. -/
theorem run_join {heap : Heap α τ} {i d : ℕ} {w : Fin n} (hjoin : s.destroyer = .joining i)
    (hd : i + d = w) (hw : s.worker w ≠ .exited) :
    ∃ as j, (machine n T heap).run s as = some {s with destroyer := .joining j} ∧
      ∃ h : j < n, s.worker ⟨j, h⟩ ≠ .exited := by
  have hin : i < n := Nat.lt_of_le_of_lt (by omega) w.isLt
  by_cases he : s.worker ⟨i, hin⟩ = .exited
  · induction d generalizing s i with
    | zero =>
        obtain rfl : w = ⟨i, hin⟩ := Fin.ext hd.symm
        exact absurd he hw
    | succ d ih =>
        have hin' : i + 1 < n := Nat.lt_of_le_of_lt (by omega) w.isLt
        have hstep : (machine n T heap).step s .join =
            some {s with destroyer := .joining (i + 1)} := by
          simp [machine, State.step, State.stepDestroyer, hjoin, hin, he]
        by_cases he' : s.worker ⟨i + 1, hin'⟩ = .exited
        · obtain ⟨as, j, hrun, hj⟩ := ih (s := {s with destroyer := .joining (i + 1)}) rfl
            (by omega) hw hin' he'
          refine ⟨.join :: as, j, ?_, hj⟩
          rw [Machine.run_cons, hstep]
          exact hrun
        · refine ⟨[.join], i + 1, ?_, hin', he'⟩
          rw [Machine.run_cons, hstep]
          rfl
  · refine ⟨[], i, ?_, hin, he⟩
    rw [← hjoin]
    rfl

/-- A broadcast at any other time can be the reason for a hang: the worker goes to sleep
after it. -/
theorem hangs_of_broadcast {heap : Heap α τ} {w : Fin n} (hstored : s.destroyer = .stored)
    (hw : s.worker w = .waits) (hwindow : ∀ t, s.adder t ≠ .window) :
    ∃ as t, (machine n T heap).run s (.broadcast :: .sleep w :: as) = some t ∧ Hangs t := by
  let s₁ : State n T α τ := {s with worker := State.wakeAll s.worker, destroyer := .joining 0}
  let s₂ : State n T α τ := {s₁ with lock := none}.setWorker w .asleep
  have h₁ : (machine n T heap).step s .broadcast = some s₁ := by
    simp [machine, State.step, State.stepDestroyer, hstored, s₁]
  have h₂ : (machine n T heap).step s₁ (.sleep w) = some s₂ := by
    simp [machine, State.step, State.stepWorker, State.wakeAll, hw, s₁, s₂]
  have hself : s₂.worker w = .asleep := by simp [s₂, State.setWorker]
  obtain ⟨as, j, hrun, hj, hne⟩ :
      ∃ as j, (machine n T heap).run s₂ as = some {s₂ with destroyer := .joining j} ∧
        ∃ h : j < n, s₂.worker ⟨j, h⟩ ≠ .exited :=
    run_join (w := w) rfl (Nat.zero_add _) (by simp [hself])
  refine ⟨as, {s₂ with destroyer := .joining j}, ?_, ⟨j, hj, rfl, hne⟩, ⟨w, hself⟩, hwindow⟩
  rw [Machine.run_cons, h₁, Option.bind_some, Machine.run_cons, h₂, Option.bind_some, hrun]

end

/-- A worker sleeps before the store, so the broadcast wakes it. -/
theorem not_hangs_asleep : ∃ s : State 1 Unit ℕ Unit,
    s.destroyer = .joining 0 ∧ s.worker 0 = .woken ∧ ¬ Hangs s := by
  have h₁ : (machine 1 Unit emptyHeap).ReachableBy broadcastSafe _ :=
    .next (a := .lock 0) .start (by trivial) rfl
  have h₂ := h₁.next (a := .test 0) (by trivial) rfl
  have h₃ := h₂.next (a := .sleep 0) (by trivial) rfl
  have h₄ := h₃.next (a := .store) (by trivial) rfl
  have h₅ := h₄.next (a := .broadcast) (by simp [broadcastSafe, State.setWorker]) rfl
  exact ⟨_, rfl, rfl, not_hangs h₅⟩

/-- The store and the broadcast fall between the test of the only worker and its sleep. -/
theorem hangs_reachable : ¬ ∀ s, (machine 1 Unit emptyHeap).Reachable s → ¬ Hangs s := by
  intro hall
  have hrun : (machine 1 Unit emptyHeap).run (machine 1 Unit emptyHeap).init
      [.lock 0, .test 0, .store, .broadcast, .sleep 0] = some _ := rfl
  refine hall _ (Machine.Reachable.start.run hrun) ⟨⟨0, by decide, rfl, ?_⟩, ⟨0, rfl⟩, fun t => ?_⟩
  · simp [State.setWorker]
  · simp [State.setWorker, machine]

end EmbeddedCode.ThreadPool.Shutdown
