import EmbeddedCode.Library.TwoWayList

/-!
# The list with payload in its nodes

`c_zy/1207/list.c`. A node is allocated together with the copy of its payload. The
functions follow the source access by access: a node that is not allocated can be
neither read nor written, so a computation without a result stands for an invalid
access or for fuel that is spent.
-/
namespace EmbeddedCode.PayloadList

open LinkedList Loop

inductive Ptr (α : Type) where
  | head
  | node (a : α)
  deriving DecidableEq, Repr

structure PList (α D : Type) where
  live : α → Bool
  par : α → D
  prev : Ptr α → Ptr α
  next : Ptr α → Ptr α

section
variable {α D : Type} [DecidableEq α]

namespace PList

def valid (list : PList α D) : Ptr α → Bool
  | .head => true
  | .node a => list.live a

def readPrev (list : PList α D) (p : Ptr α) : Option (Ptr α) :=
  if list.valid p then some (list.prev p) else none

def readNext (list : PList α D) (p : Ptr α) : Option (Ptr α) :=
  if list.valid p then some (list.next p) else none

def writePrev (list : PList α D) (p q : Ptr α) : Option (PList α D) :=
  if list.valid p then some {list with prev := Function.update list.prev p q} else none

def writeNext (list : PList α D) (p q : Ptr α) : Option (PList α D) :=
  if list.valid p then some {list with next := Function.update list.next p q} else none

def listInit (par : α → D) (prev next : Ptr α → Ptr α) : PList α D :=
  ⟨fun _ => false, par, Function.update prev .head .head, Function.update next .head .head⟩

def linkAdd (list : PList α D) (node prev next : Ptr α) : Option (PList α D) := do
  let list ← list.writeNext node next
  let list ← list.writePrev node prev
  let list ← list.writePrev next node
  list.writeNext prev node

/-- `malloc` returns the address `pnode`, and the payload is copied. -/
def malloc (list : PList α D) (src : D) (pnode : α) : Option (PList α D) :=
  if list.live pnode then none
  else some {list with
    live := Function.update list.live pnode true
    par := Function.update list.par pnode src}

def add (list : PList α D) (src : D) (pnode : α) : Option (PList α D) := do
  let list ← list.malloc src pnode
  let next ← list.readNext .head
  list.linkAdd (.node pnode) .head next

def addTail (list : PList α D) (src : D) (pnode : α) : Option (PList α D) := do
  let list ← list.malloc src pnode
  let prev ← list.readPrev .head
  list.linkAdd (.node pnode) prev .head

def free (list : PList α D) (node : α) : PList α D :=
  {list with live := Function.update list.live node false}

/-- The body of the loop in `del` and the test behind it: the list and `cur`. -/
def delTurn (node : α) : PList α D × Ptr α → Option (Turn (PList α D × Ptr α) (PList α D))
  | (list, cur) => do
      let next ← list.readNext cur
      let (list, cur) ← if next = .node node then do
          let next ← list.readNext (.node node)
          let list ← list.writeNext cur next
          let list ← list.writeNext (.node node) (.node node)
          some (list.free node, cur)
        else some (list, next)
      if cur = .head then some (.leave list) else some (.again (list, cur))

def del (fuel : ℕ) (list : PList α D) (node : α) : Option (PList α D) :=
  run (delTurn node) fuel (list, .head)

def isEmpty (list : PList α D) : Option Bool := do
  let next ← list.readNext .head
  some (next == .head)

def destroyTurn (fuel : ℕ) (list : PList α D) : Option (Turn (PList α D) (PList α D)) := do
  if ← list.isEmpty then some (.leave list)
  else
    match ← list.readNext .head with
    | .head => none
    | .node a => do
        let list ← list.del fuel a
        some (.again list)

def listDestroy (fuel : ℕ) (list : PList α D) : Option (PList α D) :=
  run (destroyTurn fuel) fuel list

end PList

inductive Op (α D : Type) where
  | add (src : D) (pnode : α)
  | addTail (src : D) (pnode : α)
  | del (node : α)

def PList.exec (fuel : ℕ) (list : PList α D) : Op α D → Option (PList α D)
  | .add src pnode => list.add src pnode
  | .addTail src pnode => list.addTail src pnode
  | .del node => list.del fuel node

/-- The sequence that the list stands for, after some calls of which the last comes first. -/
def reference : List (Op α D) → List (α × D)
  | [] => []
  | .add src pnode :: ops => (pnode, src) :: reference ops
  | .addTail src pnode :: ops => reference ops ++ [(pnode, src)]
  | .del node :: ops => (reference ops).filter fun e => e.1 ≠ node

def nodes (ops : List (Op α D)) : List α := (reference ops).map Prod.fst

/-- `malloc` returns an address that is not in use, and only nodes in the list are deleted. -/
def Valid : List (Op α D) → Prop
  | [] => True
  | .add _ pnode :: ops | .addTail _ pnode :: ops => pnode ∉ nodes ops ∧ Valid ops
  | .del node :: ops => node ∈ nodes ops ∧ Valid ops

inductive Reached (start : PList α D) : List (Op α D) → PList α D → Prop
  | init : Reached start [] start
  | next {ops : List (Op α D)} {list list' : PList α D} {op : Op α D} : Reached start ops list →
      Returns (fun fuel => list.exec fuel op) list' → Reached start (op :: ops) list'

/-- The structures of the list, without the header. -/
def cells (es : List (α × D)) : List (Ptr α) := es.map fun e => .node e.1

/-- The links of the list are inverse to each other and lead to no node that is freed, and a
traversal finds the sequence. -/
structure WellFormed (list : PList α D) (es : List (α × D)) : Prop where
  links : ∀ p ∈ Ptr.head :: cells es,
    list.prev (list.next p) = p ∧ list.next (list.prev p) = p
  valid : ∀ p ∈ Ptr.head :: cells es,
    list.valid p = true ∧ list.valid (list.next p) = true ∧ list.valid (list.prev p) = true
  forward : Returns (fun fuel => walk list.next .head fuel (list.next .head)) (cells es)
  par : ∀ e ∈ es, list.par e.1 = e.2

end

end EmbeddedCode.PayloadList
