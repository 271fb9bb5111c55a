import EmbeddedCode.Library.LinkedList

/-!
# Two singly linked lists

`1122/02list/list.c` has a pointer to the first node, and `1207/02slist/list.c` a header
node within the list object. `Heap` is the memory for the nodes of one list. Every access
goes through a test that the node is allocated, and a computation without a result stands
for an invalid access or for fuel that is spent.
-/
namespace EmbeddedCode.SinglyLinked

open Loop

/-- A pointer to a `struct node` that is not NULL: the header node within a list object, or an
allocated node. -/
inductive Ptr (α : Type) where
  | head
  | node (a : α)
  deriving DecidableEq, Repr

/-- The nodes have addresses of type `α`. -/
structure Heap (α D : Type) where
  live : α → Bool
  data : α → D
  next : α → Option α

section
variable {α D : Type} [DecidableEq α] [DecidableEq D]

namespace Heap

def readData (heap : Heap α D) (node : α) : Option D :=
  if heap.live node then some (heap.data node) else none

def readNext (heap : Heap α D) (node : α) : Option (Option α) :=
  if heap.live node then some (heap.next node) else none

def writeNext (heap : Heap α D) (node : α) (p : Option α) : Option (Heap α D) :=
  if heap.live node then some {heap with next := Function.update heap.next node p} else none

/-- `malloc` returns the address `node`, which nothing occupies, and both members are set. -/
def newNode (heap : Heap α D) (data : D) (node : α) : Option (Heap α D) :=
  if heap.live node then none
  else some {heap with
    live := Function.update heap.live node true
    data := Function.update heap.data node data
    next := Function.update heap.next node none}

def free (heap : Heap α D) (node : α) : Option (Heap α D) :=
  if heap.live node then some {heap with live := Function.update heap.live node false} else none

/-- The nodes that `list_for_each` meets from `cur` on. -/
def forEach (heap : Heap α D) : ℕ → Option α → Option (List α)
  | 0, _ => none
  | _ + 1, none => some []
  | fuel + 1, some cur => do
      let next ← heap.readNext cur
      let nodes ← heap.forEach fuel next
      some (cur :: nodes)

def searchTurn (heap : Heap α D) (data : D) :
    Option α → Option (Turn (Option α) (Option α))
  | none => some (.leave none)
  | some cur => do
      if (← heap.readData cur) = data then some (.leave (some cur))
      else do
        let next ← heap.readNext cur
        some (.again next)

end Heap

namespace Headless

structure SList (α D : Type) where
  heap : Heap α D
  head : Option α

namespace SList

def listInit (heap : Heap α D) : SList α D := ⟨heap, none⟩

def add (list : SList α D) (data : D) (node : α) : Option (SList α D) := do
  let heap ← list.heap.newNode data node
  match list.head with
  | none => some ⟨heap, some node⟩
  | some head => do
      let heap ← heap.writeNext node (some head)
      some ⟨heap, some node⟩

def lastTurn (heap : Heap α D) (cur : α) : Option (Turn α α) := do
  match ← heap.readNext cur with
  | none => some (.leave cur)
  | some next => some (.again next)

def addTail (fuel : ℕ) (list : SList α D) (data : D) (node : α) : Option (SList α D) := do
  let heap ← list.heap.newNode data node
  match list.head with
  | none => some ⟨heap, some node⟩
  | some head => do
      let cur ← run (lastTurn heap) fuel head
      let heap ← heap.writeNext cur (some node)
      some {list with heap}

def forEach (fuel : ℕ) (list : SList α D) : Option (List α) := list.heap.forEach fuel list.head

def search (fuel : ℕ) (list : SList α D) (data : D) : Option (Option α) :=
  match list.head with
  | none => some none
  | some head => run (list.heap.searchTurn data) fuel (some head)

/-- The loop of `del`: the list, `tmp` and `cur`. -/
def delTurn (data : D) :
    SList α D × Option α × Option α → Option (Turn (SList α D × Option α × Option α) (SList α D))
  | (list, _, none) => some (.leave list)
  | (list, tmp, some cur) => do
      if (← list.heap.readData cur) = data then
        if some cur = list.head then do
          let head ← list.heap.readNext cur
          let heap ← list.heap.writeNext cur none
          let heap ← heap.free cur
          some (.again (⟨heap, head⟩, tmp, head))
        else do
          let prev ← tmp
          let next ← list.heap.readNext cur
          let heap ← list.heap.writeNext prev next
          let heap ← heap.writeNext cur none
          let heap ← heap.free cur
          let next ← heap.readNext prev
          some (.again ({list with heap}, tmp, next))
      else do
        let next ← list.heap.readNext cur
        some (.again (list, some cur, next))

def del (fuel : ℕ) (list : SList α D) (data : D) : Option (SList α D) :=
  match list.head with
  | none => some list
  | some head => run (delTurn data) fuel (list, none, some head)

def destroyTurn (fuel : ℕ) (list : SList α D) : Option (Turn (SList α D) (SList α D)) :=
  match list.head with
  | none => some (.leave list)
  | some head => do
      let data ← list.heap.readData head
      let list ← list.del fuel data
      some (.again list)

def destroy (fuel : ℕ) (list : SList α D) : Option (SList α D) := run (destroyTurn fuel) fuel list

end SList

end Headless

namespace Headed

structure SList (α D : Type) where
  heap : Heap α D
  /-- The list object itself is allocated. -/
  live : Bool
  /-- `list->head.next` -/
  next : Option α

namespace SList

def readNext (list : SList α D) : Ptr α → Option (Option α)
  | .head => if list.live then some list.next else none
  | .node a => list.heap.readNext a

def writeNext (list : SList α D) (q : Ptr α) (p : Option α) : Option (SList α D) :=
  match q with
  | .head => if list.live then some {list with next := p} else none
  | .node a => do
      let heap ← list.heap.writeNext a p
      some {list with heap}

/-- `list_init`, for a list object that is allocated. -/
def listInit (heap : Heap α D) : SList α D := ⟨heap, true, none⟩

def listAdd (list : SList α D) (data : D) (node : α) : Option (SList α D) := do
  let heap ← list.heap.newNode data node
  let list := {list with heap}
  let next ← list.readNext .head
  let list ← list.writeNext (.node node) next
  list.writeNext .head (some node)

def lastTurn (list : SList α D) (cur : Ptr α) : Option (Turn (Ptr α) (Ptr α)) := do
  match ← list.readNext cur with
  | none => some (.leave cur)
  | some next => some (.again (.node next))

def listAddTail (fuel : ℕ) (list : SList α D) (data : D) (node : α) : Option (SList α D) := do
  let heap ← list.heap.newNode data node
  let list := {list with heap}
  let cur ← run list.lastTurn fuel .head
  list.writeNext cur (some node)

def forEach (fuel : ℕ) (list : SList α D) : Option (List α) := do
  let cur ← list.readNext .head
  list.heap.forEach fuel cur

def search (fuel : ℕ) (list : SList α D) (data : D) : Option (Option α) := do
  let cur ← list.readNext .head
  run (list.heap.searchTurn data) fuel cur

/-- From the label `loop` on: the list, `tmp`, `cur` and `flag`. A turn tests the condition of the
`for` loop once, and comes back to it by another turn of that loop or by the `goto`. -/
def delTurn (data : D) : SList α D × Ptr α × Option α × Bool →
    Option (Turn (SList α D × Ptr α × Option α × Bool) (SList α D × Bool))
  | (list, _, none, flag) => some (.leave (list, flag))
  | (list, tmp, some cur, flag) => do
      if (← list.heap.readData cur) = data then do
        let next ← list.heap.readNext cur
        let list ← list.writeNext tmp next
        let heap ← list.heap.free cur
        let list := {list with heap}
        let next ← list.readNext tmp
        some (.again (list, tmp, next, true))
      else do
        let next ← list.heap.readNext cur
        some (.again (list, .node cur, next, flag))

/-- The list and `flag`, without which `del` reports that there was nothing to delete. -/
def del (fuel : ℕ) (list : SList α D) (data : D) : Option (SList α D × Bool) := do
  let cur ← list.readNext .head
  run (delTurn data) fuel (list, .head, cur, false)

def listIsEmpty (list : SList α D) : Option Bool := do
  let next ← list.readNext .head
  some next.isNone

def destroyTurn (fuel : ℕ) (list : SList α D) : Option (Turn (SList α D) (SList α D)) := do
  if ← list.listIsEmpty then some (.leave list)
  else do
    let first ← ← list.readNext .head
    let data ← list.heap.readData first
    let (list, _) ← list.del fuel data
    some (.again list)

def free (list : SList α D) : Option (SList α D) :=
  if list.live then some {list with live := false} else none

def destroy (fuel : ℕ) (list : SList α D) : Option (SList α D) := do
  let list ← run (destroyTurn fuel) fuel list
  list.free

end SList

end Headed

/-- A call of a function of either list. -/
inductive Call (D : Type) where
  | add (data : D)
  | addTail (data : D)
  | del (data : D)
  | search (data : D)

def reference : List (Call D) → List D
  | [] => []
  | .add data :: calls => data :: reference calls
  | .addTail data :: calls => reference calls ++ [data]
  | .del data :: calls => (reference calls).filter (· ≠ data)
  | .search _ :: calls => reference calls

/-- The states that calls lead to, where the last call comes first. -/
inductive Headless.Reached : List (Call D) → Headless.SList α D → Prop
  | init (heap : Heap α D) : Reached [] (.listInit heap)
  | add {calls : List (Call D)} {list list' : Headless.SList α D} {data : D} (node : α) :
      Reached calls list → list.heap.live node = false → list.add data node = some list' →
      Reached (.add data :: calls) list'
  | addTail {calls : List (Call D)} {list list' : Headless.SList α D} {data : D} (node : α) :
      Reached calls list → list.heap.live node = false →
      Returns (fun fuel => list.addTail fuel data node) list' →
      Reached (.addTail data :: calls) list'
  | del {calls : List (Call D)} {list list' : Headless.SList α D} {data : D} :
      Reached calls list → Returns (fun fuel => list.del fuel data) list' →
      Reached (.del data :: calls) list'
  | search {calls : List (Call D)} {list : Headless.SList α D} {data : D} {found : Option α} :
      Reached calls list → Returns (fun fuel => list.search fuel data) found →
      Reached (.search data :: calls) list

/-- The states that calls lead to, where the last call comes first. -/
inductive Headed.Reached : List (Call D) → Headed.SList α D → Prop
  | init (heap : Heap α D) : Reached [] (.listInit heap)
  | add {calls : List (Call D)} {list list' : Headed.SList α D} {data : D} (node : α) :
      Reached calls list → list.heap.live node = false → list.listAdd data node = some list' →
      Reached (.add data :: calls) list'
  | addTail {calls : List (Call D)} {list list' : Headed.SList α D} {data : D} (node : α) :
      Reached calls list → list.heap.live node = false →
      Returns (fun fuel => list.listAddTail fuel data node) list' →
      Reached (.addTail data :: calls) list'
  | del {calls : List (Call D)} {list list' : Headed.SList α D} {data : D} {flag : Bool} :
      Reached calls list → Returns (fun fuel => list.del fuel data) (list', flag) →
      Reached (.del data :: calls) list'
  | search {calls : List (Call D)} {list : Headed.SList α D} {data : D} {found : Option α} :
      Reached calls list → Returns (fun fuel => list.search fuel data) found →
      Reached (.search data :: calls) list

/-- The call returns, whatever address `malloc` gives. -/
def Headless.Succeeds (list : Headless.SList α D) : Call D → Prop
  | .add data => ∀ node, list.heap.live node = false → ∃ list', list.add data node = some list'
  | .addTail data => ∀ node, list.heap.live node = false →
      ∃ list', Returns (fun fuel => list.addTail fuel data node) list'
  | .del data => ∃ list', Returns (fun fuel => list.del fuel data) list'
  | .search data => ∃ found, Returns (fun fuel => list.search fuel data) found

/-- The call returns, whatever address `malloc` gives. -/
def Headed.Succeeds (list : Headed.SList α D) : Call D → Prop
  | .add data => ∀ node, list.heap.live node = false → ∃ list', list.listAdd data node = some list'
  | .addTail data => ∀ node, list.heap.live node = false →
      ∃ list', Returns (fun fuel => list.listAddTail fuel data node) list'
  | .del data => ∃ r, Returns (fun fuel => list.del fuel data) r
  | .search data => ∃ found, Returns (fun fuel => list.search fuel data) found

end

end EmbeddedCode.SinglyLinked
