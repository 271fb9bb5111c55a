import EmbeddedCode.ThreadPool.Queue

/-!
# No task is left behind

A signal is lost when nobody sleeps, and it is sent after the lock is released. So
while there are tasks in the queue, either a signal is still to come or some worker
does not sleep. The counter has to tell an empty queue from one that is not, which
it does as long as the queue holds less than `2 ^ 32` tasks.
-/
namespace EmbeddedCode.ThreadPool

open CInt LinkedList Transition

variable {n : ℕ} {T α τ : Type} [DecidableEq T] [DecidableEq α]

/-- A task is added to less than `2 ^ 32 - 1` tasks in the queue only. -/
def underLimit (s : State n T α τ) : Action n T α τ → Prop
  | .add _ _ => s.added.length + 1 < s.taken.length + 4294967296
  | _ => True

/-- The worker executes a task, or it will test the queue again. -/
def Awake (pc : WorkerPc α) : Prop := pc = .start ∨ pc = .woken ∨ ∃ worker, pc = .running worker

/-- The invariant: tasks in the queue are under the care of a worker or of a signal that is
still to come. -/
structure Cared (s : State n T α τ) : Prop where
  holds : ∃ q own, Holds s q own
  limit : s.added.length < s.taken.length + 4294967296
  care : s.added.length = s.taken.length ∨ (∃ w, Awake (s.worker w)) ∨ ∃ t, s.adder t = .window
  exited : ∀ w, s.worker w ≠ .exited

section
variable {s s' : State n T α τ}

theorem Cared.init (heap : Heap α τ) : Cared (machine n T heap).init where
  holds := ⟨[], _, .init heap⟩
  limit := by simp [machine]
  care := .inl rfl
  exited := by simp [machine]

theorem wrap_eq_zero {k : ℕ} (h : wrap k = 0) (hk : k < 4294967296) : k = 0 := by
  have hdvd : (4294967296 : ℤ) ∣ k := Int.dvd_of_bmod_eq_zero h
  omega

omit [DecidableEq T] [DecidableEq α] in
/-- A worker sleeps only if the queue is empty. -/
theorem Cared.empty (h : Cared s) (hw : waits s.pool = true) :
    s.added.length = s.taken.length := by
  obtain ⟨q, own, hq⟩ := h.holds
  have hlen := hq.length
  have hlimit := h.limit
  have hzero : wrap q.length = 0 := by
    rw [← hq.size]
    simpa [waits, hq.shutdown] using hw
  have := wrap_eq_zero hzero (by omega)
  omega

omit [DecidableEq T] [DecidableEq α] in
theorem setWorker_ne {w : Fin n} {pc pc' : WorkerPc α} (h : ∀ v, s.worker v ≠ pc') (hpc : pc ≠ pc')
    (v : Fin n) : (s.setWorker w pc).worker v ≠ pc' := by
  simp only [State.setWorker, Function.update_apply]
  split_ifs
  · exact hpc
  · exact h v

theorem Cared.effect (hn : 0 < n) (h : Cared s) {a : Action n T α τ} (hg : underLimit s a)
    (hs : Effect s a s') : Cared s' := by
  obtain ⟨q, own, hq⟩ := h.holds
  have hholds := hq.effect hs
  have hlimit := h.limit
  have hself : ∀ w (pc : WorkerPc α), (s.setWorker w pc).worker w = pc := fun w pc => by
    simp [State.setWorker]
  cases hs with
  | @new t _ _ _ ht _ =>
      refine ⟨hholds, hlimit, ?_, h.exited⟩
      rcases h.care with he | hw | ⟨u, hu⟩
      · exact .inl he
      · exact .inr (.inl hw)
      · have hne : u ≠ t := by
          rintro rfl
          simp [ht] at hu
        exact .inr (.inr ⟨u, by simp [State.setAdder, hne, hu]⟩)
  | @add t _ _ _ _ _ =>
      refine ⟨hholds, ?_, .inr (.inr ⟨t, by simp [State.setAdder]⟩), h.exited⟩
      simpa [State.setAdder] using show s.added.length + 1 < s.taken.length + 4294967296 from hg
  | @signal _ w _ _ =>
      exact ⟨hholds, hlimit, .inr (.inl ⟨w, .inr (.inl (hself w _))⟩),
        setWorker_ne h.exited (by simp)⟩
  | lost _ hnone =>
      -- Nobody sleeps and nobody has exited, so the first worker is awake.
      refine ⟨hholds, hlimit, .inr (.inl ⟨⟨0, hn⟩, ?_⟩), h.exited⟩
      have hs := hnone ⟨0, hn⟩
      have he := h.exited ⟨0, hn⟩
      change Awake (s.worker ⟨0, hn⟩)
      cases hpc : s.worker ⟨0, hn⟩ with
      | start => exact .inl rfl
      | asleep => exact absurd hpc hs
      | woken => exact .inr (.inl rfl)
      | running a => exact .inr (.inr ⟨a, rfl⟩)
      | exited => exact absurd hpc he
  | sleep _ hwait =>
      exact ⟨hholds, hlimit, .inl (h.empty hwait), setWorker_ne h.exited (by simp)⟩
  | exit _ hshut => simp [hq.shutdown] at hshut
  | @take w a _ _ _ _ =>
      refine ⟨hholds, ?_, .inr (.inl ⟨w, .inr (.inr ⟨a, by simp [State.setWorker]⟩)⟩),
        setWorker_ne h.exited (by simp)⟩
      simp only [State.setWorker, List.length_append, List.length_singleton]
      omega
  | fail _ hwait _ hassert => exact absurd (hq.asserts hwait) hassert
  | @wake w _ =>
      exact ⟨hholds, hlimit, .inr (.inl ⟨w, .inr (.inl (hself w _))⟩),
        setWorker_ne h.exited (by simp)⟩
  | @run w _ _ =>
      exact ⟨hholds, hlimit, .inr (.inl ⟨w, .inl (by simp [State.setWorker])⟩),
        setWorker_ne h.exited (by simp)⟩

/-- As long as the queue never holds `2 ^ 32` tasks, some worker takes care of the tasks in
it whenever no signal is still to come. -/
theorem no_stranded_task (hn : 0 < n) {heap : Heap α τ}
    (h : (machine n T heap).ReachableBy underLimit s) (hqueue : s.pool.queueHead ≠ none)
    (hwindow : ∀ t, s.adder t ≠ .window) : ∃ w, Awake (s.worker w) := by
  have hcared : Cared s := Machine.ReachableBy.invariant (.init heap)
    (fun _ _ _ hi hg hs => hi.effect hn hg (step_effect hs)) h
  obtain ⟨q, own, hq⟩ := hcared.holds
  rcases hcared.care with he | hw | ⟨t, ht⟩
  · have hlen := hq.length
    have hnil : q = [] := List.eq_nil_of_length_eq_zero (by omega)
    subst hnil
    exact absurd hq.chain.head_eq hqueue
  · exact hw
  · exact absurd ht (hwindow t)

end

/-- One task added before the only worker has come to its first test. -/
theorem no_stranded_task_one : ∃ s : State 1 Unit ℕ Unit,
    s.pool.queueHead = some 0 ∧ ∃ w, Awake (s.worker w) := by
  have h₁ : (machine 1 Unit emptyHeap).ReachableBy underLimit _ :=
    .next (a := .new () () 0) .start trivial rfl
  have h₂ := h₁.next (a := .add () 1) (by simp [underLimit, machine, State.setAdder]) rfl
  have h₃ := h₂.next (a := .signal () none) (by simp [underLimit]) rfl
  exact ⟨_, rfl, no_stranded_task (by decide) h₃ (Option.some_ne_none 0)
    fun _ => by simp [State.setAdder]⟩

/-- With `2 ^ 32` tasks in the queue the counter is zero, and the only worker goes to sleep. -/
theorem stranded_at_limit : ¬ ∀ s, (machine 1 Unit emptyHeap).Reachable s →
    s.pool.queueHead ≠ none → (∀ t, s.adder t ≠ .window) → ∃ w, Awake (s.worker w) := by
  intro hall
  obtain ⟨s, hs, hadded, htaken, hidle, hworker, _⟩ := exists_queued 4294967296
  obtain ⟨q, own, hq⟩ := reachable_holds hs
  have hlen : q.length = 4294967296 := by
    have := hq.length
    rwa [htaken, hadded, List.length_nil, Nat.zero_add] at this
  have hwait : waits s.pool = true := by
    have hsize : s.pool.curQueueSize = 0 := by
      rw [hq.size, hlen]
      decide
    simp [waits, hsize, hq.shutdown]
  have hsleep : s.step (.test 0) = some (s.setWorker 0 .asleep) := by
    simp [State.step, hq.failed, hworker, State.test, hwait]
  have hhead : (s.setWorker 0 .asleep).pool.queueHead ≠ none := by
    intro hnone
    have hnil : q.head? = none := hq.chain.head_eq.symm.trans hnone
    rw [List.head?_eq_none_iff.mp hnil] at hlen
    cases hlen
  obtain ⟨w, hw⟩ := hall _ (reachable_step hs _ hsleep) hhead fun t => by
    simp [State.setWorker, hidle]
  obtain rfl : w = 0 := Subsingleton.elim _ _
  simp [Awake, State.setWorker] at hw

end EmbeddedCode.ThreadPool
