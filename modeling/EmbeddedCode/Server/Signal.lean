import EmbeddedCode.ThreadPool.Shutdown

/-!
# SIGINT in the accept loop

`server_run2` and `sig_handler` of `3http_V04/src/uphttpd.c` over the thread pool.
The main thread is the only one that calls `pool_add_worker`. The handler interrupts
it wherever it stands, and the main thread goes on only when the handler, with the
`pool_destroy` it calls, has returned. The workers run all the time.
-/
namespace EmbeddedCode.Server

open Transition ThreadPool

/-- Where the main thread stands in `server_run2`. -/
inductive MainPc where
  /-- The test of `srv_shutdown` is next. -/
  | test
  | preSelect
  | inSelect
  /-- A signal came in `select`, which will fail. -/
  | interrupted
  /-- `select` has reported the socket, and `accept` is next. -/
  | ready
  /-- In the call of `pool_add_worker`. -/
  | adding
  /-- The loop is left. -/
  | after
  /-- In the `pool_destroy` that the main thread calls itself. -/
  | destroying
  | returned
  deriving DecidableEq, Repr

structure State (n : ℕ) (α τ : Type) where
  /-- The pool and the threads in its functions. -/
  threads : Shutdown.State n Unit α τ
  main : MainPc
  /-- `sig_handler` has interrupted the main thread. -/
  handling : Bool
  srvShutdown : Bool
  srvDestroy : Bool
  /-- `pool_destroy` has freed the pool and set it to NULL. -/
  freed : Bool
  /-- A thread has dereferenced the pool after that. -/
  crashed : Bool

inductive Action (n : ℕ) (α τ : Type) where
  | loop
  | call
  | select (i : ℤ)
  | accept (conn : Bool)
  | finish
  | sigint
  /-- A step in one of the functions of the pool. -/
  | thread (a : Shutdown.Action n Unit α τ)
  /-- The end of `pool_destroy`, after the last join. -/
  | free

variable {n : ℕ} {α τ : Type} [DecidableEq α]

namespace State

def runs (s : State n α τ) (pc : MainPc) : Bool := !s.handling && s.main == pc

/-- A step of `pool_add_worker`. It is over when the signal is sent. Apart from `malloc`
every step goes through `pool`. -/
def stepAdd (s : State n α τ) (a : Shutdown.Action n Unit α τ) : Option (State n α τ) :=
  if s.freed ∧ s.threads.adder () ≠ .idle then some {s with crashed := true}
  else (s.threads.step a).map fun threads =>
    {s with
      threads := threads
      main := if threads.adder () = .idle then .test else .adding}

def stepWorker (s : State n α τ) (a : Shutdown.Action n Unit α τ) : Option (State n α τ) :=
  (s.threads.step a).map fun threads =>
    if s.freed then {s with crashed := true} else {s with threads := threads}

def stepDestroy (s : State n α τ) (a : Shutdown.Action n Unit α τ) : Option (State n α τ) :=
  (s.threads.step a).map fun threads => {s with threads := threads}

/-- `pool_destroy` runs in the handler, or in the main thread after the loop. -/
def destroys (s : State n α τ) : Bool := s.handling || s.main == .destroying

def stepThread (s : State n α τ) (a : Shutdown.Action n Unit α τ) : Option (State n α τ) :=
  match a with
  | .new _ _ _ | .lockAdder _ | .add _ _ | .unlockAdder _ | .signal _ _ =>
      if s.runs .adding then s.stepAdd a else none
  | .lock _ | .test _ | .sleep _ | .wake _ | .leave _ | .run _ => s.stepWorker a
  | .store | .broadcast | .join => if s.destroys then s.stepDestroy a else none

/-- `sig_handler` up to the call of `pool_destroy`, or up to its end if `server_destroy`
was called before. -/
def sigint (s : State n α τ) : State n α τ :=
  {s with
    srvShutdown := true
    srvDestroy := true
    handling := !s.srvDestroy
    main := if s.main = .inSelect then .interrupted else s.main}

def finish (s : State n α τ) : State n α τ :=
  if s.srvShutdown then
    if s.srvDestroy then {s with main := .returned}
    else {s with srvDestroy := true, main := .destroying}
  else {s with main := .returned}

def free (s : State n α τ) : State n α τ :=
  {s with
    freed := true
    handling := false
    main := if s.main = .destroying then .returned else s.main}

/-- A step of the program as long as it has not crashed. -/
def stepLive (s : State n α τ) : Action n α τ → Option (State n α τ)
  | .loop =>
      if s.runs .test then
        some {s with main := if s.srvShutdown then .after else .preSelect}
      else none
  | .call => if s.runs .preSelect then some {s with main := .inSelect} else none
  | .select i =>
      if s.runs .inSelect then
        some {s with main := if i = -1 then .returned else if i = 0 then .test else .ready}
      else if s.runs .interrupted ∧ i = -1 then some {s with main := .returned}
      else none
  | .accept conn =>
      if s.runs .ready then some {s with main := if conn then .adding else .after} else none
  | .finish => if s.runs .after then some s.finish else none
  | .sigint => if s.handling then none else some s.sigint
  | .thread a => s.stepThread a
  | .free => if s.destroys ∧ s.threads.destroyer = .joining n then some s.free else none

def step (s : State n α τ) (a : Action n α τ) : Option (State n α τ) :=
  if s.crashed then none else s.stepLive a

end State

/-- `server_run2` after its call of `pool_init`, with a pool of `n` workers. -/
def machine (n : ℕ) {α τ : Type} [DecidableEq α] (heap : Heap α τ) :
    Machine (State n α τ) (Action n α τ) where
  init := ⟨(Shutdown.machine n Unit heap).init, .test, false, false, false, false, false⟩
  step := State.step

/-- The handler joins a worker that needs the lock, and the main thread holds it. -/
def Blocked (s : State n α τ) : Prop :=
  s.handling = true ∧ ∃ (i : ℕ) (h : i < n), s.threads.destroyer = .joining i ∧
    (s.threads.worker ⟨i, h⟩ = .start ∨ s.threads.worker ⟨i, h⟩ = .woken) ∧
    s.threads.lock = some (.adder ())

def Safe (s : State n α τ) : Prop := s.crashed = false ∧ ¬ Blocked s

/-- No signal comes between a successful `accept` and the end of the `pool_add_worker`
after it, and no `accept` succeeds after a signal. -/
def signalSafe (s : State n α τ) : Action n α τ → Prop
  | .sigint => s.main ≠ .adding
  | .accept conn => conn = true → s.srvShutdown = false
  | _ => True

section
variable {s s' : State n α τ} {a : Action n α τ}

/-- What each step does. Outside of `pool_add_worker` and of the handler the main thread only
moves on. -/
inductive State.Step (s : State n α τ) : Action n α τ → State n α τ → Prop
  | move {a : Action n α τ} {from_ to_ : MainPc} : s.runs from_ = true → from_ ≠ .adding →
      to_ ≠ .destroying → (to_ = .adding → a = .accept true) → Step s a {s with main := to_}
  | finish : s.runs .after = true → Step s .finish s.finish
  | sigint : s.handling = false → Step s .sigint s.sigint
  | add {a : Shutdown.Action n Unit α τ} {s' : State n α τ} : s.runs .adding = true →
      s.threads.step a = s.threads.stepAdder () a (s.threads.adder ()) →
      s.stepAdd a = some s' → Step s (.thread a) s'
  | worker {a : Shutdown.Action n Unit α τ} {w : Fin n} {s' : State n α τ} :
      s.threads.step a = s.threads.stepWorker w a (s.threads.worker w) →
      s.stepWorker a = some s' → Step s (.thread a) s'
  | destroy {a : Shutdown.Action n Unit α τ} {s' : State n α τ} : s.destroys = true →
      s.threads.step a = s.threads.stepDestroyer a s.threads.destroyer →
      s.stepDestroy a = some s' → Step s (.thread a) s'
  | free : s.destroys = true → s.threads.destroyer = .joining n → Step s .free s.free

theorem stepThread_cases {a : Shutdown.Action n Unit α τ} (h : s.stepThread a = some s') :
    s.Step (.thread a) s' := by
  cases a with
  | new | lockAdder | add | unlockAdder | signal =>
      simp only [State.stepThread] at h
      split_ifs at h with hr
      exact .add hr rfl h
  | lock | test | sleep | wake | leave | run => exact .worker rfl h
  | store | broadcast | join =>
      simp only [State.stepThread] at h
      split_ifs at h with hr
      exact .destroy hr rfl h

theorem step_cases (h : s.step a = some s') : s.crashed = false ∧ s.Step a s' := by
  unfold State.step at h
  split_ifs at h with hcrashed
  refine ⟨by simpa using hcrashed, ?_⟩
  cases a with
  | loop =>
      simp only [State.stepLive] at h
      split at h
      · cases h
        exact .move ‹_› (by simp) (by split_ifs <;> simp) (by split_ifs <;> simp)
      · cases h
  | call =>
      simp only [State.stepLive] at h
      split at h
      · cases h
        exact .move ‹_› (by simp) (by simp) (by simp)
      · cases h
  | select i =>
      simp only [State.stepLive] at h
      split at h
      · cases h
        exact .move ‹_› (by simp) (by split_ifs <;> simp) (by split_ifs <;> simp)
      · split at h
        · rename_i hr
          cases h
          exact .move hr.1 (by simp) (by simp) (by simp)
        · cases h
  | accept conn =>
      simp only [State.stepLive] at h
      split at h
      · cases h
        exact .move ‹_› (by simp) (by split_ifs <;> simp) (by cases conn <;> simp)
      · cases h
  | finish =>
      simp only [State.stepLive] at h
      split at h
      · cases h
        exact .finish ‹_›
      · cases h
  | sigint =>
      simp only [State.stepLive] at h
      split at h
      · cases h
      · rename_i hr
        cases h
        exact .sigint (by simpa using hr)
  | thread a => exact stepThread_cases h
  | free =>
      simp only [State.stepLive] at h
      split at h
      · rename_i hr
        cases h
        exact .free hr.1 hr.2
      · cases h

/-- What holds in every run: the pool is destroyed once, by the handler. -/
structure Ordered (s : State n α τ) : Prop where
  flags : s.srvDestroy = s.srvShutdown
  destroyed : s.srvDestroy = (s.handling || s.freed)
  main : s.main ≠ .destroying
  joined : Shutdown.Joined s.threads
  freed : s.freed = true → s.threads.destroyer = .joining n
  adder : s.threads.adder () ≠ .idle → s.main = .adding
  lock : Shutdown.LockHeld s.threads

omit [DecidableEq α] in
theorem runs_iff {pc : MainPc} : s.runs pc = true ↔ s.handling = false ∧ s.main = pc := by
  simp [State.runs]

omit [DecidableEq α] in
theorem Ordered.move (h : Ordered s) {from_ to_ : MainPc} (hs : s.runs from_ = true)
    (hfrom : from_ ≠ .adding) (hto : to_ ≠ .destroying) : Ordered {s with main := to_} := by
  refine ⟨h.flags, h.destroyed, hto, h.joined, h.freed, fun hadder => ?_, h.lock⟩
  exact absurd ((runs_iff.mp hs).2.symm.trans (h.adder hadder)) hfrom

omit [DecidableEq α] in
theorem Ordered.crash (h : Ordered s) : Ordered {s with crashed := true} :=
  ⟨h.flags, h.destroyed, h.main, h.joined, h.freed, h.adder, h.lock⟩

theorem Ordered.threads (h : Ordered s) {a : Shutdown.Action n Unit α τ}
    {threads : Shutdown.State n Unit α τ} {to_ : MainPc} (hs : s.threads.step a = some threads)
    (hdestroyer : s.freed = true → threads.destroyer = s.threads.destroyer)
    (hto : to_ ≠ .destroying) (hadder : threads.adder () ≠ .idle → to_ = .adding) :
    Ordered {s with threads := threads, main := to_} :=
  ⟨h.flags, h.destroyed, hto, h.joined.step hs, fun hf => (hdestroyer hf).trans (h.freed hf),
    hadder, h.lock.step hs⟩

theorem Ordered.stepAdd (h : Ordered s) {a : Shutdown.Action n Unit α τ}
    (hadd : s.threads.step a = s.threads.stepAdder () a (s.threads.adder ()))
    (hs : s.stepAdd a = some s') : Ordered s' := by
  unfold State.stepAdd at hs
  split_ifs at hs
  · cases hs
    exact h.crash
  · obtain ⟨threads, hthreads, rfl⟩ := Option.map_eq_some_iff.mp hs
    apply h.threads hthreads
    · intro _
      exact (Shutdown.stepAdder_effect (hadd ▸ hthreads)).2.1
    · split_ifs <;> simp
    · intro hidle
      exact if_neg hidle

theorem Ordered.stepWorker (h : Ordered s) {a : Shutdown.Action n Unit α τ} {w : Fin n}
    (hmove : s.threads.step a = s.threads.stepWorker w a (s.threads.worker w))
    (hs : s.stepWorker a = some s') : Ordered s' := by
  obtain ⟨threads, hthreads, rfl⟩ := Option.map_eq_some_iff.mp hs
  obtain ⟨_, hdestroyer, hadder, _⟩ := Shutdown.stepWorker_effect (hmove ▸ hthreads)
  split_ifs
  · exact h.crash
  · exact h.threads hthreads (fun _ => hdestroyer) h.main fun hne => h.adder (hadder ▸ hne)

/-- After the last join `pool_destroy` takes no step but the one that frees the pool. -/
theorem Ordered.stepDestroy (h : Ordered s) {a : Shutdown.Action n Unit α τ}
    (hdestroy : s.threads.step a = s.threads.stepDestroyer a s.threads.destroyer)
    (hs : s.stepDestroy a = some s') : Ordered s' := by
  obtain ⟨threads, hthreads, rfl⟩ := Option.map_eq_some_iff.mp hs
  have heff := hthreads
  rw [hdestroy] at heff
  apply h.threads hthreads ?_ h.main
  · intro hne
    exact h.adder ((Shutdown.stepDestroyer_effect heff).2.1 ▸ hne)
  · intro hfreed
    rw [h.freed hfreed] at heff
    unfold Shutdown.State.stepDestroyer at heff
    cases a <;> simp at heff

omit [DecidableEq α] in
theorem Ordered.sigint (h : Ordered s) (hs : s.handling = false) : Ordered s.sigint := by
  refine ⟨rfl, ?_, ?_, h.joined, h.freed, fun hne => ?_, h.lock⟩
  · have hd := h.destroyed
    cases hdes : s.srvDestroy <;> simp_all [State.sigint]
  · unfold State.sigint
    split_ifs
    · simp
    · exact h.main
  · have hm := h.adder hne
    simp [State.sigint, hm]

omit [DecidableEq α] in
theorem Ordered.finish (h : Ordered s) (hs : s.runs .after = true) : Ordered s.finish := by
  have hmove := h.move hs (by simp) (show MainPc.returned ≠ .destroying by simp)
  unfold State.finish
  split_ifs with hshut hdes
  · exact hmove
  · exact absurd (h.flags.trans hshut) hdes
  · exact hmove

omit [DecidableEq α] in
theorem Ordered.free (h : Ordered s) (hs : s.destroys = true)
    (hjoined : s.threads.destroyer = .joining n) : Ordered s.free := by
  have hhandling : s.handling = true := by simpa [State.destroys, h.main] using hs
  have hdestroy : s.srvDestroy = true := by rw [h.destroyed, hhandling, Bool.true_or]
  have hmain : s.free.main = s.main := if_neg h.main
  refine ⟨h.flags, hdestroy, ?_, h.joined, fun _ => hjoined, ?_, h.lock⟩
  · rw [hmain]
    exact h.main
  · rw [hmain]
    exact h.adder

theorem Ordered.step (h : Ordered s) (hs : s.Step a s') : Ordered s' := by
  cases hs with
  | move hr hfrom hto _ => exact h.move hr hfrom hto
  | finish hr => exact h.finish hr
  | sigint hr => exact h.sigint hr
  | add _ hadd hs => exact h.stepAdd hadd hs
  | worker hmove hs => exact h.stepWorker hmove hs
  | destroy _ hdestroy hs => exact h.stepDestroy hdestroy hs
  | free hr hjoined => exact h.free hr hjoined

theorem ordered_init {heap : Heap α τ} : Ordered (machine n heap).init where
  flags := rfl
  destroyed := rfl
  main := by simp [machine]
  joined := by simp [Shutdown.Joined, machine, Shutdown.machine]
  freed := by simp [machine]
  adder := by simp [machine, Shutdown.machine]
  lock := by simp [Shutdown.LockHeld, machine, Shutdown.machine]

theorem reachable_ordered {heap : Heap α τ} (h : (machine n heap).Reachable s) : Ordered s :=
  Machine.Reachable.invariant ordered_init (fun _ _ _ hi hs => hi.step (step_cases hs).2) h

/-- No worker uses the pool after it was freed: they have all exited. -/
theorem Ordered.stepWorker_eq (h : Ordered s) {a : Shutdown.Action n Unit α τ} {w : Fin n}
    (hmove : s.threads.step a = s.threads.stepWorker w a (s.threads.worker w))
    (hs : s.stepWorker a = some s') : ∃ threads, s' = {s with threads := threads} := by
  obtain ⟨threads, hthreads, rfl⟩ := Option.map_eq_some_iff.mp hs
  split_ifs with hfreed
  · rw [hmove, h.joined n (h.freed hfreed) w w.isLt] at hthreads
    cases a <;> cases hthreads
  · exact ⟨threads, rfl⟩

/-- The invariant of the runs whose signals come at safe times. -/
structure Calm (s : State n α τ) : Prop extends Ordered s where
  away : s.srvShutdown = true → s.main ≠ .adding
  alive : s.crashed = false

omit [DecidableEq α] in
theorem Calm.safe (h : Calm s) : Safe s := by
  refine ⟨h.alive, ?_⟩
  rintro ⟨hhandling, _, _, _, _, hlock⟩
  have hshut : s.srvShutdown = true := by
    rw [← h.flags, h.destroyed, hhandling, Bool.true_or]
  apply h.away hshut
  apply h.adder
  rcases h.lock () hlock with ⟨b, hb⟩ | hb
  · simp [hb]
  · simp [hb]

/-- While the main thread is in `pool_add_worker`, the pool is there. -/
theorem Calm.stepAdd (h : Calm s) {a : Shutdown.Action n Unit α τ} (hmain : s.main = .adding)
    (hs : s.stepAdd a = some s') : s'.srvShutdown = false ∧ s'.crashed = false := by
  have hshut : s.srvShutdown = false := by
    by_contra hne
    exact h.away (by simpa using hne) hmain
  have hfreed : s.freed = false := by
    have hd := h.destroyed
    rw [h.flags, hshut] at hd
    simpa using (Bool.or_eq_false_iff.mp hd.symm).2
  unfold State.stepAdd at hs
  rw [if_neg (by simp [hfreed])] at hs
  obtain ⟨threads, _, rfl⟩ := Option.map_eq_some_iff.mp hs
  exact ⟨hshut, h.alive⟩

omit [DecidableEq α] in
theorem Calm.move (h : Calm s) {to_ : MainPc} (hordered : Ordered {s with main := to_})
    (hto : to_ = .adding → s.srvShutdown = false) : Calm {s with main := to_} := by
  refine ⟨hordered, ?_, h.alive⟩
  rintro (hshut : s.srvShutdown = true) hadding
  rw [hto hadding] at hshut
  cases hshut

theorem Calm.step (h : Calm s) (hg : signalSafe s a) (hs : s.Step a s') : Calm s' := by
  have hordered := h.toOrdered.step hs
  cases hs with
  | move _ _ _ hadding =>
      apply h.move hordered
      intro hto
      rw [hadding hto] at hg
      exact hg rfl
  | finish hr =>
      have hreturned : s.finish = {s with main := .returned} := by
        unfold State.finish
        split_ifs with hshut hdes
        · rfl
        · exact absurd (h.flags.trans hshut) hdes
        · rfl
      rw [hreturned] at hordered ⊢
      exact h.move hordered (by simp)
  | sigint _ =>
      refine ⟨hordered, fun _ => ?_, h.alive⟩
      unfold State.sigint
      split_ifs
      · simp
      · exact hg
  | add hr _ hs =>
      obtain ⟨hshut, hcrashed⟩ := h.stepAdd (runs_iff.mp hr).2 hs
      exact ⟨hordered, by simp [hshut], hcrashed⟩
  | worker hmove hs =>
      obtain ⟨threads, rfl⟩ := h.stepWorker_eq hmove hs
      exact ⟨hordered, h.away, h.alive⟩
  | destroy _ _ hs =>
      obtain ⟨threads, _, rfl⟩ := Option.map_eq_some_iff.mp hs
      exact ⟨hordered, h.away, h.alive⟩
  | free _ _ =>
      refine ⟨hordered, fun hshut => ?_, h.alive⟩
      rw [State.free, if_neg h.main]
      exact h.away hshut

/-- If the signals come at safe times, the pool is not used after its end, and no worker that
is joined waits for the main thread. -/
theorem safe_of_signalSafe {heap : Heap α τ}
    (h : (machine n heap).ReachableBy signalSafe s) : Safe s := by
  have hcalm : Calm s := by
    apply Machine.ReachableBy.invariant ?_ (fun s a t hi hg hs => ?_) h
    · exact ⟨ordered_init, by simp [machine], rfl⟩
    · exact hi.step hg (step_cases hs).2
  exact hcalm.safe

/-- The other way round: once a signal was handled, the call of `pool_add_worker` that the main
thread is in, or has just begun, can crash. -/
theorem crashed_of_adding {heap : Heap α τ} (h : (machine n heap).Reachable s)
    (hshut : s.srvShutdown = true) (hmain : s.runs .adding = true) (hcrashed : s.crashed = false)
    {b : α} (hb : s.threads.pool.heap.live b = false) (task : τ) :
    ∃ as u, (machine n heap).run s as = some u ∧ u.crashed = true := by
  have hordered := reachable_ordered h
  have hfreed : s.freed = true := by
    have hd := hordered.destroyed
    rwa [hordered.flags, hshut, (runs_iff.mp hmain).1, Bool.false_or, eq_comm] at hd
  have hcrash : ∀ u : State n α τ, u.crashed = false → u.runs .adding = true → u.freed = true →
      u.threads.adder () ≠ .idle →
      (machine n heap).run u [.thread (.lockAdder ())] = some {u with crashed := true} := by
    intro u hcrashed hruns hfreed hadder
    simp [Machine.run, machine, State.step, State.stepLive, State.stepThread, State.stepAdd,
      hcrashed, hruns, hfreed, hadder]
  by_cases hadder : s.threads.adder () = .idle
  · let pool : Pool α τ := {s.threads.pool with heap :=
      {live := Function.update s.threads.pool.heap.live b true
       task := Function.update s.threads.pool.heap.task b task
       next := Function.update s.threads.pool.heap.next b none}}
    let u : State n α τ := {s with
      threads := {s.threads with pool := pool}.setAdder () (.ready b)
      main := .adding}
    have hu : u.threads.adder () = .ready b := by simp [u, Shutdown.State.setAdder]
    have hnew : (machine n heap).step s (.thread (.new () task b)) = some u := by
      simp [machine, State.step, State.stepLive, State.stepThread, State.stepAdd, hcrashed, hmain,
        hadder, Shutdown.State.step, Shutdown.State.stepAdder, newWorker, hb, u, pool,
        Shutdown.State.setAdder]
    refine ⟨[.thread (.new () task b), .thread (.lockAdder ())], {u with crashed := true}, ?_, rfl⟩
    rw [Machine.run_cons, hnew]
    exact hcrash u hcrashed (runs_iff.mpr ⟨(runs_iff.mp hmain).1, rfl⟩) hfreed (by simp [hu])
  · exact ⟨_, _, hcrash s hcrashed hmain hfreed hadder, rfl⟩

end

/-- A signal in `select`: the pool is destroyed in the handler, and `select` fails. -/
theorem safe_interrupted : ∃ s : State 1 ℕ Unit, s.main = .returned ∧ s.freed = true ∧ Safe s := by
  have h₁ : (machine 1 emptyHeap).ReachableBy signalSafe _ :=
    Machine.ReachableBy.start.run [.loop, .call] (by simp [signalSafe]) rfl
  have h₂ := h₁.next (a := .sigint) (by simp [signalSafe]) rfl
  have h₃ := h₂.run [.thread .store, .thread .broadcast, .thread (.lock 0), .thread (.test 0),
    .thread (.leave 0), .thread .join, .free, .select (-1)] (by simp [signalSafe]) rfl
  exact ⟨_, rfl, rfl, safe_of_signalSafe h₃⟩

/-- The connection is there, and the signal comes before `pool_add_worker` takes the lock. -/
theorem not_safe : (¬ ∀ s : State 3 ℕ Unit, (machine 3 emptyHeap).Reachable s → s.crashed = false) ∧
    ¬ ∀ s : State 3 ℕ Unit, (machine 3 emptyHeap).Reachable s → ¬ Blocked s := by
  constructor
  · intro hall
    have hrun : (machine 3 emptyHeap).run (machine 3 emptyHeap).init
        [.loop, .call, .select 1, .accept true, .sigint, .thread .store, .thread .broadcast,
          .thread (.lock 0), .thread (.test 0), .thread (.leave 0),
          .thread (.lock 1), .thread (.test 1), .thread (.leave 1),
          .thread (.lock 2), .thread (.test 2), .thread (.leave 2),
          .thread .join, .thread .join, .thread .join, .free,
          .thread (.new () () 0), .thread (.lockAdder ())] = some _ := rfl
    exact absurd (hall _ (Machine.Reachable.start.run hrun)) (by decide)
  · intro hall
    have hrun : (machine 3 emptyHeap).run (machine 3 emptyHeap).init
        [.loop, .call, .select 1, .accept true, .thread (.new () () 0), .thread (.lockAdder ()),
          .sigint, .thread .store, .thread .broadcast] = some _ := rfl
    exact hall _ (Machine.Reachable.start.run hrun) ⟨rfl, 0, by decide, rfl, .inl rfl, rfl⟩

end EmbeddedCode.Server
