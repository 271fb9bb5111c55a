import EmbeddedCode.Library.CInt
import EmbeddedCode.Library.Loop
import EmbeddedCode.Library.SidedTrees

/-!
# The splay tree of `lighttpd-1.4.32/src/splaytree.c`

A node is an address `α`, NULL is `none`, and `N` is the address of the node that
`splaytree_splay` has on its stack. What the code does for a smaller key it does for a larger
one with the sides exchanged, so the turn of its loop has the side of the key as a parameter:
`tail .left` is `r` and `tail .right` is `l`, with `r_size` and `l_size` in `acc`. All sizes are
of type `int`, and `setSize` stores one.
-/
namespace EmbeddedCode.SplayTree

open CInt Loop SidedTrees

variable {α D : Type} [DecidableEq α]

/-- The nodes with their keys and data. -/
structure Nodes (α D : Type) where
  cells : Cells α
  key : α → ℤ
  data : α → D

def compare (i j : ℤ) : ℤ := wrap (i - j)

/-- The side of a node on which a key is looked for, none for its own key. -/
def sideOf (comp : ℤ) : Option Side :=
  if comp < 0 then some .left else if 0 < comp then some .right else none

/-- The variables of the loop of `splaytree_splay`, with the memory. -/
structure Splaying (α : Type) where
  cells : Cells α
  t : α
  tail : Side → α
  acc : Side → ℤ

namespace Splaying

/-- `y = t->left; t->left = y->right; y->right = t; t->size = ...; t = y`, or with the sides
exchanged. -/
def rotate (s : Splaying α) (d : Side) (y : α) : Splaying α :=
  let cells := s.cells.setChild d s.t (s.cells.child d.other y)
  let cells := cells.setChild d.other y (some s.t)
  let cells := cells.setSize s.t
    (nodeSize cells (cells.child .left s.t) + nodeSize cells (cells.child .right s.t) + 1)
  {s with cells := cells, t := y}

/-- `r->left = t; r = t; t = t->left; r_size += 1+node_size(r->right)`, or with the sides
exchanged. -/
def link (s : Splaying α) (d : Side) (c : α) : Splaying α :=
  let cells := s.cells.setChild d (s.tail d) (some s.t)
  {cells := cells
   t := c
   tail := Function.update s.tail d s.t
   acc := Function.update s.acc d
     (wrap (s.acc d + (1 + nodeSize cells (cells.child d.other s.t))))}

end Splaying

def splayTurn (key : α → ℤ) (i : ℤ) (s : Splaying α) : Option (Turn (Splaying α) (Splaying α)) :=
  match sideOf (compare i (key s.t)) with
  | none => some (.leave s)
  | some d =>
      match s.cells.child d s.t with
      | none => some (.leave s)
      | some y =>
          if sideOf (compare i (key y)) = some d then
            let s := s.rotate d y
            match s.cells.child d s.t with
            | none => some (.leave s)
            | some c => some (.again (s.link d c))
          else some (.again (s.link d y))

/-- The loop that corrects the sizes on one side, with `y` and what is left of the size. -/
def resizeTurn (d : Side) :
    Cells α × Option α × ℤ → Option (Turn (Cells α × Option α × ℤ) (Cells α))
  | (cells, none, _) => some (.leave cells)
  | (cells, some y, acc) =>
      let cells := cells.setSize y acc
      some (.again (cells, cells.child d y,
        wrap (acc - (1 + nodeSize cells (cells.child d.other y)))))

/-- What `splaytree_splay` does behind its first loop. -/
def assemble (fuel : ℕ) (N : α) (s : Splaying α) : Option (Cells α) := do
  let lSize := wrap (s.acc .right + nodeSize s.cells (s.cells.child .left s.t))
  let rSize := wrap (s.acc .left + nodeSize s.cells (s.cells.child .right s.t))
  let cells := s.cells.setSize s.t (lSize + rSize + 1)
  let cells := (cells.setChild .left (s.tail .left) none).setChild .right (s.tail .right) none
  let cells ← run (resizeTurn .right) fuel (cells, cells.child .right N, lSize)
  let cells ← run (resizeTurn .left) fuel (cells, cells.child .left N, rSize)
  let cells := cells.setChild .right (s.tail .right) (cells.child .left s.t)
  let cells := cells.setChild .left (s.tail .left) (cells.child .right s.t)
  let cells := cells.setChild .left s.t (cells.child .right N)
  return cells.setChild .right s.t (cells.child .left N)

def splaytreeSplay (fuel : ℕ) (N : α) (key : α → ℤ) (cells : Cells α) (t : Option α) (i : ℤ) :
    Option (Cells α × Option α) :=
  match t with
  | none => some (cells, none)
  | some t => do
      let cells := (cells.setChild .right N none).setChild .left N none
      let s ← run (splayTurn key i) fuel ⟨cells, t, fun _ => N, fun _ => 0⟩
      let cells ← assemble fuel N s
      return (cells, some s.t)

/-- `new` is the node that `malloc` gives, if it is called. -/
def splaytreeInsert (fuel : ℕ) (N : α) (nodes : Nodes α D) (t : Option α) (i : ℤ) (data : D)
    (new : α) : Option (Nodes α D × Option α) := do
  let (cells, t) ← splaytreeSplay fuel N nodes.key nodes.cells t i
  let fill cells := (⟨cells, Function.update nodes.key new i, Function.update nodes.data new data⟩ :
    Nodes α D)
  let sized (cells : Cells α) := cells.setSize new
    (1 + nodeSize cells (cells.child .left new) + nodeSize cells (cells.child .right new))
  match t with
  | none =>
      let cells := (cells.setChild .right new none).setChild .left new none
      return (fill (sized cells), some new)
  | some t =>
      if compare i (nodes.key t) = 0 then return ({nodes with cells := cells}, some t)
      else if compare i (nodes.key t) < 0 then
        let cells := cells.setChild .left new (cells.child .left t)
        let cells := (cells.setChild .right new (some t)).setChild .left t none
        let cells := cells.setSize t (1 + nodeSize cells (cells.child .right t))
        return (fill (sized cells), some new)
      else
        let cells := cells.setChild .right new (cells.child .right t)
        let cells := (cells.setChild .left new (some t)).setChild .right t none
        let cells := cells.setSize t (1 + nodeSize cells (cells.child .left t))
        return (fill (sized cells), some new)

/-- What is left of the tree of `t` without `t`: `x` of `splaytree_delete`, before its size is
stored. -/
def unlinkRoot (fuel : ℕ) (N : α) (key : α → ℤ) (cells : Cells α) (t : α) (i : ℤ) :
    Option (Cells α × Option α) :=
  match cells.child .left t with
  | none => some (cells, cells.child .right t)
  | some left => do
      let (cells, x) ← splaytreeSplay fuel N key cells (some left) i
      let x ← x
      return (cells.setChild .right x (cells.child .right t), some x)

def splaytreeDelete (fuel : ℕ) (N : α) (nodes : Nodes α D) (t : Option α) (i : ℤ) :
    Option (Nodes α D × Option α) :=
  match t with
  | none => some (nodes, none)
  | some t => do
      let tsize := nodes.cells.size t
      let (cells, t) ← splaytreeSplay fuel N nodes.key nodes.cells (some t) i
      let t ← t
      if compare i (nodes.key t) = 0 then
        let (cells, x) ← unlinkRoot fuel N nodes.key cells t i
        match x with
        | none => return ({nodes with cells := cells}, none)
        | some x => return ({nodes with cells := cells.setSize x (tsize - 1)}, some x)
      else return ({nodes with cells := cells}, some t)

end EmbeddedCode.SplayTree
