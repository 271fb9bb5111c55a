import EmbeddedCode.Library.CInt
import EmbeddedCode.Library.LinkedList

/-!
# The thread pool of `3http_V04/src/thread_pool.c`

The functions here are the critical sections under `queue_lock` and the single
accesses outside of them, as functions on the pool and on the memory of its
`struct worker` nodes. A task is what `process` and `arg` stand for together.
Which thread takes which of these steps is the subject of the modules that follow.
-/
namespace EmbeddedCode.ThreadPool

open CInt Loop

variable {α τ : Type} [DecidableEq α]

/-- The memory of the `struct worker` nodes. -/
structure Heap (α τ : Type) where
  live : α → Bool
  task : α → τ
  next : α → Option α

/-- A memory in which nothing is allocated. -/
def emptyHeap : Heap ℕ Unit := ⟨fun _ => false, fun _ => (), fun _ => none⟩

/-- The fields of `CThread_pool` that the threads share. -/
structure Pool (α τ : Type) where
  heap : Heap α τ
  queueHead : Option α
  curQueueSize : ℤ
  shutdown : Bool

def poolInit (heap : Heap α τ) : Pool α τ := ⟨heap, none, 0, false⟩

/-- `malloc` returns the address `newworker`, which nothing occupies. -/
def newWorker (pool : Pool α τ) (task : τ) (newworker : α) : Option (Pool α τ) :=
  if pool.heap.live newworker then none
  else some {pool with heap :=
    {live := Function.update pool.heap.live newworker true
     task := Function.update pool.heap.task newworker task
     next := Function.update pool.heap.next newworker none}}

/-- The critical section of `pool_add_worker`. -/
def addWorker (fuel : ℕ) (pool : Pool α τ) (newworker : α) : Option (Pool α τ) := do
  let pool ← match pool.queueHead with
    | some member => do
        let member ← run (lastTurn pool.heap.next) fuel member
        let next := Function.update pool.heap.next member (some newworker)
        some {pool with heap := {pool.heap with next := next}}
    | none => some {pool with queueHead := some newworker}
  some {pool with curQueueSize := wrap (pool.curQueueSize + 1)}

/-- `assert (pool->queue_head != NULL)` of `pool_add_worker`. -/
def addAsserts (pool : Pool α τ) : Bool := pool.queueHead.isSome

def waits (pool : Pool α τ) : Bool := pool.curQueueSize == 0 && !pool.shutdown

/-- The two assertions of `thread_routine`. -/
def takeAsserts (pool : Pool α τ) : Bool := pool.curQueueSize != 0 && pool.queueHead.isSome

/-- The end of the critical section of `thread_routine`: the first node and the pool
without it. -/
def takeWorker (pool : Pool α τ) : Option (α × Pool α τ) := do
  let worker ← pool.queueHead
  some (worker, {pool with
    curQueueSize := wrap (pool.curQueueSize - 1), queueHead := pool.heap.next worker})

def freeWorker (pool : Pool α τ) (worker : α) : Pool α τ :=
  {pool with heap := {pool.heap with live := Function.update pool.heap.live worker false}}

end EmbeddedCode.ThreadPool
