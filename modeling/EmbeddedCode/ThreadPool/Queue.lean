import EmbeddedCode.ThreadPool.Machine

/-!
# Tasks are taken in the order in which they are added

The list at `queue_head` is a queue: what was taken from it and what it still holds
is what was added to it. Every node that the pool has allocated has one owner, so no
thread writes to a node that another one links, executes or frees.
-/
namespace EmbeddedCode.ThreadPool

open CInt Loop LinkedList Transition

variable {n : ℕ} {T α τ : Type} [DecidableEq T] [DecidableEq α]

/-- Who may use a node that the pool has allocated. -/
inductive Owner (n : ℕ) (T : Type) where
  | queue
  | adder (t : T)
  | worker (w : Fin n)
  deriving DecidableEq

/-- The invariant: the list holds the nodes `q`, and every node that is in use has one
owner. -/
structure Holds (s : State n T α τ) (q : List α) (own : α → Option (Owner n T)) : Prop where
  chain : Chain s.pool.heap.next s.pool.queueHead q
  size : s.pool.curQueueSize = wrap q.length
  fifo : s.taken ++ q.map s.pool.heap.task = s.added
  queue : ∀ a, a ∈ q ↔ own a = some .queue
  adder : ∀ t a, s.adder t = .ready a ↔ own a = some (.adder t)
  worker : ∀ w a, s.worker w = .running a ↔ own a = some (.worker w)
  live : ∀ a, own a ≠ none → s.pool.heap.live a
  ready : ∀ t a, s.adder t = .ready a → s.pool.heap.next a = none
  failed : s.failed = false
  shutdown : s.pool.shutdown = false

section
variable {pool pool' : Pool α τ} {q : List α} {a : α} {fuel : ℕ}

/-- `pool_add_worker` walks to the end of the list and hangs the new node there. -/
theorem addWorker_returns (h : Chain pool.heap.next pool.queueHead q) (ha : a ∉ q)
    (hnull : pool.heap.next a = none) :
    ∃ next head, Returns (fun fuel => addWorker fuel pool a) {pool with
        heap := {pool.heap with next := next}
        queueHead := head
        curQueueSize := wrap (pool.curQueueSize + 1)} ∧
      Chain next head (q ++ [a]) ∧ ∀ b, b ∉ q → next b = pool.heap.next b := by
  rcases List.eq_nil_or_concat q with rfl | ⟨xs, z, rfl⟩
  · have hhead : pool.queueHead = none := h
    refine ⟨pool.heap.next, some a, ⟨0, fun fuel _ => ?_⟩, ⟨rfl, hnull⟩, fun _ _ => rfl⟩
    simp [addWorker, hhead]
  · rw [List.concat_eq_append] at *
    obtain ⟨m, hm⟩ : ∃ m, pool.queueHead = some m := by
      rw [h.head_eq]
      cases xs <;> exact ⟨_, rfl⟩
    refine ⟨Function.update pool.heap.next z (some a), pool.queueHead,
      ⟨xs.length + 1, fun fuel hf => ?_⟩, h.concat ha hnull, fun b hb => ?_⟩
    · rw [hm] at h
      simp [addWorker, hm, run_mono h.run_lastTurn hf]
    · exact Function.update_of_ne (fun he => hb (by simp [he])) _ _

theorem addWorker_some (hrun : addWorker fuel pool a = some pool')
    (h : Chain pool.heap.next pool.queueHead q) (ha : a ∉ q) (hnull : pool.heap.next a = none) :
    ∃ next head, pool' = {pool with
        heap := {pool.heap with next := next}
        queueHead := head
        curQueueSize := wrap (pool.curQueueSize + 1)} ∧
      Chain next head (q ++ [a]) ∧ ∀ b, b ∉ q → next b = pool.heap.next b := by
  obtain ⟨next, head, hret, hchain, hkeep⟩ := addWorker_returns h ha hnull
  refine ⟨next, head, ?_, hchain, hkeep⟩
  have hrun' : Returns (fun fuel => addWorker fuel pool a) pool' := by
    refine ⟨fuel, fun more hle => ?_⟩
    simp only [addWorker] at hrun ⊢
    cases hq : pool.queueHead with
    | none => simpa [hq] using hrun
    | some m =>
        simp only [hq, Option.bind_eq_bind, Option.bind_eq_some_iff] at hrun ⊢
        obtain ⟨z, hz, hrest⟩ := hrun
        exact ⟨z, run_mono hz hle, hrest⟩
  exact hrun'.unique hret

end

section
variable {s s' : State n T α τ} {q : List α} {own : α → Option (Owner n T)}

theorem Holds.init (heap : Heap α τ) :
    Holds (machine n T heap).init [] fun _ => none where
  chain := rfl
  size := show 0 = wrap 0 from (wrap_fits (by decide)).symm
  fifo := rfl
  queue := by simp
  adder := by simp [machine]
  worker := by simp [machine]
  live := by simp
  ready := by simp [machine]
  failed := rfl
  shutdown := rfl

omit [DecidableEq T] [DecidableEq α] in
theorem Holds.setWorker (h : Holds s q own) {w : Fin n} {pc : WorkerPc α}
    (hw : ∀ a, s.worker w ≠ .running a) (hpc : ∀ a, pc ≠ .running a) :
    Holds (s.setWorker w pc) q own := by
  refine ⟨h.chain, h.size, h.fifo, h.queue, h.adder, fun v b => ?_, h.live, h.ready, h.failed,
    h.shutdown⟩
  simp only [State.setWorker, Function.update_apply]
  split_ifs with hv
  · subst hv
    simp [← h.worker, hpc b, hw b]
  · exact h.worker v b

omit [DecidableEq α] in
theorem Holds.setAdder (h : Holds s q own) {t : T} {pc : AdderPc α}
    (ht : ∀ a, s.adder t ≠ .ready a) (hpc : ∀ a, pc ≠ .ready a) :
    Holds (s.setAdder t pc) q own := by
  refine ⟨h.chain, h.size, h.fifo, h.queue, fun u b => ?_, h.worker, h.live, fun u b hu => ?_,
    h.failed, h.shutdown⟩
  · simp only [State.setAdder, Function.update_apply]
    split_ifs with hu
    · subst hu
      simp [← h.adder, hpc b, ht b]
    · exact h.adder u b
  · simp only [State.setAdder, Function.update_apply] at hu
    split_ifs at hu with hut
    · exact absurd hu (hpc b)
    · exact h.ready u b hu

theorem Holds.new (h : Holds s q own) {t : T} {task : τ} {a : α} {pool : Pool α τ}
    (ht : s.adder t = .idle) (hpool : newWorker s.pool task a = some pool) :
    Holds ({s with pool := pool}.setAdder t (.ready a)) q
      (Function.update own a (some (.adder t))) := by
  unfold newWorker at hpool
  split_ifs at hpool with hlive
  cases hpool
  have hown : own a = none := by
    by_contra hne
    exact hlive (h.live a hne)
  have hq : a ∉ q := fun ha => by simp [(h.queue a).mp ha] at hown
  have hne : ∀ b ∈ q, b ≠ a := fun b hb => ne_of_mem_of_not_mem hb hq
  refine ⟨h.chain.congr fun b hb => Function.update_of_ne (hne b hb) _ _, h.size, ?_,
    fun b => ?_, fun u b => ?_, fun w b => ?_, fun b hb => ?_, fun u b hu => ?_, h.failed,
    h.shutdown⟩
  · rw [State.setAdder, ← h.fifo]
    exact congrArg _ (List.map_congr_left fun b hb => Function.update_of_ne (hne b hb) _ _)
  · have := h.queue b
    grind
  · have := h.adder u b
    have := h.adder t b
    simp only [State.setAdder]
    grind
  · have := h.worker w b
    simp only [State.setAdder]
    grind
  · have := h.live b
    simp only [State.setAdder]
    grind
  · have := h.ready u b
    simp only [State.setAdder] at hu ⊢
    grind

theorem Holds.add (h : Holds s q own) {t : T} {a : α} {fuel : ℕ} {pool : Pool α τ}
    (ht : s.adder t = .ready a) (hpool : addWorker fuel s.pool a = some pool) :
    Holds ({s with
      pool := pool
      added := s.added ++ [pool.heap.task a]
      failed := !addAsserts pool}.setAdder t .window) (q ++ [a])
      (Function.update own a (some .queue)) := by
  have hown : own a = some (.adder t) := (h.adder t a).mp ht
  have hq : a ∉ q := fun ha => by simp [(h.queue a).mp ha] at hown
  obtain ⟨next, head, rfl, hchain, hkeep⟩ := addWorker_some hpool h.chain hq (h.ready t a ht)
  have hsome : head.isSome = true := by
    rw [hchain.head_eq]
    cases q <;> rfl
  refine ⟨hchain, ?_, ?_, fun b => ?_, fun u b => ?_, fun w b => ?_, fun b hb => ?_,
    fun u b hu => ?_, ?_, h.shutdown⟩
  · simp [State.setAdder, h.size]
  · simp [State.setAdder, ← h.fifo]
  · have := h.queue b
    grind
  · have := h.adder u b
    have := h.adder t b
    simp only [State.setAdder]
    grind
  · have := h.worker w b
    simp only [State.setAdder]
    grind
  · have := h.live b
    simp only [State.setAdder]
    grind
  · have := h.ready u b
    have := h.adder u b
    have := h.queue b
    have := hkeep b
    simp only [State.setAdder] at hu ⊢
    grind
  · simp [State.setAdder, addAsserts, hsome]

omit [DecidableEq T] in
theorem Holds.take (h : Holds s q own) {w : Fin n} {a : α} {pool : Pool α τ}
    (hw : ∀ b, s.worker w ≠ .running b) (htake : takeWorker s.pool = some (a, pool)) :
    ∃ q', q = a :: q' ∧ Holds ({s with
      pool := pool
      taken := s.taken ++ [pool.heap.task a]}.setWorker w (.running a)) q'
      (Function.update own a (some (.worker w))) := by
  obtain ⟨a', hhead, hpool⟩ := Option.bind_eq_some_iff.mp htake
  cases hpool
  cases q with
  | nil =>
      rw [h.chain.head_eq] at hhead
      cases hhead
  | cons b q =>
      rw [h.chain.1] at hhead
      cases hhead
      have hnd := List.nodup_cons.mp h.chain.nodup
      have hown : own a = some .queue := (h.queue a).mp (by simp)
      refine ⟨q, rfl, h.chain.2, ?_, ?_, fun b => ?_, fun u b => ?_, fun v b => ?_,
        fun b hb => ?_, h.ready, h.failed, h.shutdown⟩
      · simp only [State.setWorker, h.size, wrap_sub_left, List.length_cons]
        congr 1
        omega
      · simp [State.setWorker, ← h.fifo]
      · have := h.queue b
        grind
      · have := h.adder u b
        simp only [State.setWorker]
        grind
      · have := h.worker v b
        have := hw b
        simp only [State.setWorker]
        grind
      · have := h.live b
        simp only [State.setWorker]
        grind

omit [DecidableEq T] in
theorem Holds.run (h : Holds s q own) {w : Fin n} {a : α} (hw : s.worker w = .running a) :
    Holds ({s with pool := freeWorker s.pool a}.setWorker w .start) q
      (Function.update own a none) := by
  have hown : own a = some (.worker w) := (h.worker w a).mp hw
  refine ⟨h.chain, h.size, h.fifo, fun b => ?_, fun u b => ?_, fun v b => ?_, fun b hb => ?_,
    h.ready, h.failed, h.shutdown⟩
  · have := h.queue b
    grind
  · have := h.adder u b
    simp only [State.setWorker]
    grind
  · have := h.worker v b
    have := h.worker w b
    simp only [State.setWorker]
    grind
  · have := h.live b
    simp only [State.setWorker, freeWorker]
    grind

omit [DecidableEq T] [DecidableEq α] in
/-- The counter is not zero and the queue is not empty where a worker goes on. -/
theorem Holds.asserts (h : Holds s q own) (hw : waits s.pool ≠ true) :
    takeAsserts s.pool = true := by
  have hsize : s.pool.curQueueSize ≠ 0 := by simpa [waits, h.shutdown] using hw
  cases q with
  | nil => exact absurd (h.size.trans (show wrap 0 = 0 from wrap_fits (by decide))) hsize
  | cons a q => simp [takeAsserts, hsize, h.chain.1]

omit [DecidableEq T] [DecidableEq α] in
theorem Holds.length (h : Holds s q own) : s.taken.length + q.length = s.added.length := by
  simpa using congrArg List.length h.fifo

theorem Holds.effect (h : Holds s q own) {a : Action n T α τ} (hs : Effect s a s') :
    ∃ q' own', Holds s' q' own' := by
  have hready : ∀ {w b}, s.worker w = .start ∨ s.worker w = .woken → s.worker w ≠ .running b := by
    rintro w b (hw | hw) <;> simp [hw]
  cases hs with
  | new ht hpool => exact ⟨q, _, h.new ht hpool⟩
  | add ht hpool => exact ⟨_, _, h.add ht hpool⟩
  | signal ht hw =>
      exact ⟨q, own, (h.setWorker (by simp [hw]) (by simp)).setAdder
        (by simp [State.setWorker, ht]) (by simp)⟩
  | lost ht _ => exact ⟨q, own, h.setAdder (by simp [ht]) (by simp)⟩
  | sleep hw _ => exact ⟨q, own, h.setWorker (fun _ => hready hw) (by simp)⟩
  | exit hw _ => exact ⟨q, own, h.setWorker (fun _ => hready hw) (by simp)⟩
  | take hw _ htake =>
      obtain ⟨q', _, h'⟩ := h.take (fun _ => hready hw) htake
      exact ⟨q', _, h'⟩
  | fail hw hwait _ hassert => exact absurd (h.asserts hwait) hassert
  | wake hw => exact ⟨q, own, h.setWorker (by simp [hw]) (by simp)⟩
  | run hw => exact ⟨q, _, h.run hw⟩

theorem reachable_step {heap : Heap α τ} (h : (machine n T heap).Reachable s) (a : Action n T α τ)
    (hs : s.step a = some s') : (machine n T heap).Reachable s' := h.next (a := a) hs

theorem reachable_holds {heap : Heap α τ} (h : (machine n T heap).Reachable s) :
    ∃ q own, Holds s q own :=
  Machine.Reachable.invariant (I := fun s => ∃ q own, Holds s q own) ⟨[], _, .init heap⟩
    (fun _ _ _ ⟨_, _, hi⟩ hs => hi.effect (step_effect hs)) h

/-- The tasks taken and then the tasks queued are the tasks added, no assertion fails, and
the counter is the length of the list as an `int`. -/
theorem reachable_fifo {heap : Heap α τ} (h : (machine n T heap).Reachable s) :
    s.failed = false ∧ ∃ q, Chain s.pool.heap.next s.pool.queueHead q ∧
      s.taken ++ q.map s.pool.heap.task = s.added ∧ s.pool.curQueueSize = wrap q.length ∧
      ((q.length : ℤ) ≤ intMax → s.pool.curQueueSize = q.length) := by
  obtain ⟨q, own, hq⟩ := reachable_holds h
  refine ⟨hq.failed, q, hq.chain, hq.fifo, hq.size, fun hle => ?_⟩
  rw [hq.size]
  refine wrap_fits ⟨?_, hle⟩
  simp only [intMin]
  omega

/-- The walk through the list ends, so a thread that has a new node can add it. -/
theorem Holds.add_returns (h : Holds s q own) {t : T} {a : α} (ht : s.adder t = .ready a) :
    ∃ next head, Returns (fun fuel => s.step (.add t fuel))
      ({s with
        pool := {s.pool with
          heap := {s.pool.heap with next := next}
          queueHead := some head
          curQueueSize := wrap (s.pool.curQueueSize + 1)}
        added := s.added ++ [s.pool.heap.task a]}.setAdder t .window) := by
  have hown : own a = some (.adder t) := (h.adder t a).mp ht
  have hq : a ∉ q := fun ha => by simp [(h.queue a).mp ha] at hown
  obtain ⟨next, head, hret, hchain, _⟩ := addWorker_returns h.chain hq (h.ready t a ht)
  obtain ⟨m, rfl⟩ : ∃ m, head = some m := by
    rw [hchain.head_eq]
    cases q <;> exact ⟨_, rfl⟩
  refine ⟨next, m, ?_⟩
  simp only [State.step, h.failed, ht, Bool.false_eq_true, if_false, Option.bind_eq_bind]
  exact hret.bind rfl

end

/-- One worker that has not come to its first test yet, and `k` tasks added by one
thread. -/
theorem exists_queued (k : ℕ) :
    ∃ s, (machine 1 Unit emptyHeap).Reachable s ∧ s.added.length = k ∧ s.taken = [] ∧
      s.adder () = .idle ∧ s.worker 0 = .start ∧ ∀ a, k ≤ a → s.pool.heap.live a = false := by
  induction k with
  | zero => exact ⟨_, .start, rfl, rfl, rfl, rfl, fun _ _ => rfl⟩
  | succ k ih =>
      obtain ⟨s, hs, hadded, htaken, hidle, hworker, hlive⟩ := ih
      obtain ⟨q, own, hq⟩ := reachable_holds hs
      obtain ⟨pool, hnew, hpool⟩ : ∃ pool, newWorker s.pool () k = some pool ∧
          ∀ a, k + 1 ≤ a → pool.heap.live a = false := by
        refine ⟨_, if_neg (by simp [hlive k (Nat.le_refl k)]), fun a ha => ?_⟩
        simp only [Function.update_of_ne (show a ≠ k by omega)]
        exact hlive a (by omega)
      have h₁ : s.step (.new () () k) = some ({s with pool := pool}.setAdder () (.ready k)) := by
        simp [State.step, hq.failed, hidle, hnew]
      obtain ⟨next, head, fuel, hadd⟩ := (hq.new hidle hnew).add_returns (t := ()) rfl
      have h₂ := reachable_step (reachable_step hs _ h₁) _ (hadd fuel (Nat.le_refl _))
      have hnone : ∀ w, s.worker w ≠ .asleep := fun w => by
        obtain rfl : w = 0 := Subsingleton.elim _ _
        simp [hworker]
      have h₃ := reachable_step h₂ (.signal () none) (by
        simp [State.step, State.setAdder, State.signal, hq.failed, hnone]
        rfl)
      exact ⟨_, h₃, by simp [hadded], htaken, rfl, hworker, hpool⟩

theorem reachable_fifo_two : ∃ s, (machine 1 Unit emptyHeap).Reachable s ∧ s.added.length = 2 ∧
    s.failed = false ∧ ∃ q, Chain s.pool.heap.next s.pool.queueHead q ∧
      s.taken ++ q.map s.pool.heap.task = s.added ∧ s.pool.curQueueSize = wrap q.length ∧
      ((q.length : ℤ) ≤ intMax → s.pool.curQueueSize = q.length) := by
  obtain ⟨s, hs, hadded, _⟩ := exists_queued 2
  exact ⟨s, hs, hadded, reachable_fifo hs⟩

/-- With `2 ^ 31` tasks in the queue the counter is negative. -/
theorem curQueueSize_overflows : ¬ ∀ s, (machine 1 Unit emptyHeap).Reachable s →
    ∀ q, Chain s.pool.heap.next s.pool.queueHead q → s.pool.curQueueSize = q.length := by
  intro hall
  obtain ⟨s, hs, hadded, htaken, _⟩ := exists_queued 2147483648
  obtain ⟨q, own, hq⟩ := reachable_holds hs
  have hlen : q.length = 2147483648 := by
    have hf := hq.length
    rwa [htaken, hadded, List.length_nil, Nat.zero_add] at hf
  have hsize := hall s hs q hq.chain
  rw [hq.size, hlen] at hsize
  exact absurd hsize (by decide)

end EmbeddedCode.ThreadPool
