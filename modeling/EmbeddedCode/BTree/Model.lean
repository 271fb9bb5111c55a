import EmbeddedCode.Library.LinkedTree
import EmbeddedCode.Library.Loop
import Mathlib.Data.Int.Order.Basic

/-!
# The sorted binary tree of `03btree/btree.c`

A `struct bnode` is an address `α`; its three pointers are the fields of
`Links`. NULL is `none`, so a function that follows a NULL pointer returns
`none` itself. A comparator takes two nodes and returns an `int`, as in the C
code. The debugging output of `del_node` is left out.
-/
namespace EmbeddedCode.BTree

open LinkedTree Loop

variable {α : Type} [DecidableEq α]

/-- `struct btree`, together with the memory of all nodes. -/
structure Btree (α : Type) where
  root : Option α
  node : Links α

/-- `btree_init` leaves the nodes as they are. -/
def btreeInit (node : Links α) : Btree α := ⟨none, node⟩

def bnodeInit (node : Links α) (bnode : α) : Links α :=
  ((node.setParent bnode none).setLchild bnode none).setRchild bnode none

/-- One turn of the search for the place to insert. The state is `cur`, and
`parent` with `ret` once they are set. A turn leaves without a place when the
keys are equal. -/
def buildTurn (cmp : α → α → ℤ) (node : Links α) (bnode : α) :
    Option α × Option (α × ℤ) → Option (Turn (Option α × Option (α × ℤ)) (Option (Option (α × ℤ))))
  | (none, at') => some (.leave (some at'))
  | (some cur, _) =>
      let ret := cmp bnode cur
      if ret < 0 then some (.again (node.lchild cur, some (cur, ret)))
      else if 0 < ret then some (.again (node.rchild cur, some (cur, ret)))
      else some (.leave none)

def buildTree (fuel : ℕ) (cmp : α → α → ℤ) (t : Btree α) (bnode : α) : Option (Btree α) := do
  let t := if t.root.isNone then {t with root := some bnode} else t
  match ← run (buildTurn cmp t.node bnode) fuel (t.root, none) with
  | none => some t
  | some place =>
      let (parent, ret) ← place
      let node := if ret < 0 then t.node.setLchild parent (some bnode)
        else t.node.setRchild parent (some bnode)
      some {t with node := node.setParent bnode (some parent)}

/-- The nodes in the order in which `in_order` hands them to `todo`. -/
def inOrder (node : Links α) : ℕ → Option α → Option (List α)
  | _, none => some []
  | 0, some _ => none
  | fuel + 1, some bnode => do
      let l ← inOrder node fuel (node.lchild bnode)
      let r ← inOrder node fuel (node.rchild bnode)
      some (l ++ bnode :: r)

def searchTurn (cmp : α → α → ℤ) (node : Links α) (bnode : α) :
    Option α → Option (Turn (Option α) (Option α))
  | none => some (.leave none)
  | some cur =>
      let cmpValue := cmp bnode cur
      if cmpValue = 0 then some (.leave (some cur))
      else if cmpValue < 0 then some (.again (node.lchild cur))
      else some (.again (node.rchild cur))

def search (fuel : ℕ) (cmp : α → α → ℤ) (t : Btree α) (bnode : α) : Option (Option α) :=
  match t.root with
  | none => some none
  | some root => run (searchTurn cmp t.node bnode) fuel (some root)

def searchMin (fuel : ℕ) (t : Btree α) : Option (Option α) :=
  match t.root with
  | none => some none
  | some root => (run (lastTurn t.node.lchild) fuel root).map some

def searchMax (fuel : ℕ) (t : Btree α) : Option (Option α) :=
  match t.root with
  | none => some none
  | some root => (run (lastTurn t.node.rchild) fuel root).map some

/-- `enum e_id`: where the node to delete hangs. -/
inductive EId where
  | root | lchild | rchild
  deriving DecidableEq, Repr

/-- A node with a parent that does not know it leaves `id` unset; every later
`switch` would read it. -/
def identify (node : Links α) (bnode : α) : Option EId :=
  match node.parent bnode with
  | none => some .root
  | some parent =>
      if node.lchild parent = some bnode then some .lchild
      else if node.rchild parent = some bnode then some .rchild
      else none

/-- The `switch (id)` that lets the link to the deleted node point to `next`. -/
def relink (t : Btree α) (id : EId) (bnode : α) (next : Option α) : Option (Btree α) :=
  match id with
  | .root => some {t with root := next}
  | .lchild => do
      let parent ← t.node.parent bnode
      some {t with node := t.node.setLchild parent next}
  | .rchild => do
      let parent ← t.node.parent bnode
      some {t with node := t.node.setRchild parent next}

def delLeaf (t : Btree α) (id : EId) (bnode : α) : Option (Btree α) := do
  let t ← relink t id bnode none
  match id with
  | .root => some t
  | .lchild | .rchild => some {t with node := t.node.setParent bnode none}

/-- The node has the one child `child`, on either side. -/
def delSingle (t : Btree α) (id : EId) (bnode child : α) : Option (Btree α) :=
  match id with
  | .root => relink {t with node := t.node.setParent child none} id bnode (some child)
  | .lchild | .rchild => do
      let t := {t with node := t.node.setParent child (t.node.parent bnode)}
      let t ← relink t id bnode (some child)
      some {t with node := bnodeInit t.node bnode}

def setChildParent (node : Links α) (child : Option α) (parent : Option α) : Links α :=
  match child with
  | none => node
  | some child => node.setParent child parent

/-- Find the node `cur` that replaces one with two children, the last one of its
left subtree, and take it out of its place. -/
def takeLast (fuel : ℕ) (node : Links α) (lchild : α) : Option (α × Links α) := do
  let cur ← run (lastTurn node.rchild) fuel lchild
  let parent ← node.parent cur
  let node := if node.lchild parent = some cur then node.setLchild parent (node.lchild cur)
    else node.setRchild parent (node.lchild cur)
  some (cur, setChildParent node (node.lchild cur) (node.parent cur))

/-- `cur` takes over all relations of `bnode`. -/
def inherit (node : Links α) (cur bnode : α) : Links α :=
  let node := node.setParent cur (node.parent bnode)
  let node := node.setLchild cur (node.lchild bnode)
  let node := node.setRchild cur (node.rchild bnode)
  let node := setChildParent node (node.lchild cur) (some cur)
  setChildParent node (node.rchild cur) (some cur)

def delDouble (fuel : ℕ) (t : Btree α) (id : EId) (bnode lchild : α) : Option (Btree α) := do
  let (cur, node) ← takeLast fuel t.node lchild
  let t ← relink {t with node := node} id bnode (some cur)
  some {t with node := inherit t.node cur bnode}

def delNode (fuel : ℕ) (t : Btree α) (bnode : α) : Option (Btree α) := do
  let id ← identify t.node bnode
  let t ← match t.node.lchild bnode, t.node.rchild bnode with
    | none, none => delLeaf t id bnode
    | some child, none => delSingle t id bnode child
    | none, some child => delSingle t id bnode child
    | some lchild, some _ => delDouble fuel t id bnode lchild
  some {t with node := bnodeInit t.node bnode}

end EmbeddedCode.BTree
