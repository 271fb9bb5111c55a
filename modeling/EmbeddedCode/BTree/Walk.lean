import EmbeddedCode.BTree.Model
import EmbeddedCode.IntrusiveList.Containers
import Mathlib.Data.Set.Finite.Basic
import Mathlib.Tactic.Choose

/-!
# The walks of `03btree/btree.c`

`pre_order` and `post_order`, the three walks that keep nodes on a stack, and
`level_order` with its queue. `todo` reads the node that it is given, as `print_node`
does, and a walk returns the nodes in the order in which `todo` gets them. Addresses of
the nodes of a stack or queue have type `σ`.
-/
namespace EmbeddedCode.BTree

open LinkedTree Loop IntrusiveList

section
variable {α : Type}

def preOrder (node : Links α) : ℕ → Option α → Option (List α)
  | _, none => some []
  | 0, some _ => none
  | fuel + 1, some bnode => do
      let l ← preOrder node fuel (node.lchild bnode)
      let r ← preOrder node fuel (node.rchild bnode)
      some (bnode :: (l ++ r))

def postOrder (node : Links α) : ℕ → Option α → Option (List α)
  | _, none => some []
  | 0, some _ => none
  | fuel + 1, some bnode => do
      let l ← postOrder node fuel (node.lchild bnode)
      let r ← postOrder node fuel (node.rchild bnode)
      some (l ++ (r ++ [bnode]))

end

/-- `malloc`: as long as finitely many blocks are in use, it finds one that is not. -/
structure Malloc (σ : Type) where
  address : (σ → Bool) → σ
  fresh : ∀ live : σ → Bool, {a | live a = true}.Finite → live (address live) = false

theorem malloc_nonempty (σ : Type) [Infinite σ] : Nonempty (Malloc σ) := by
  have hfree : ∀ live : σ → Bool, ∃ a, {a | live a = true}.Finite → live a = false := by
    intro live
    by_cases hfinite : {a | live a = true}.Finite
    · obtain ⟨a, ha⟩ := hfinite.exists_notMem
      exact ⟨a, fun _ => by simpa using ha⟩
    · exact ⟨Classical.arbitrary σ, fun h => absurd h hfinite⟩
  choose address hfresh using hfree
  exact ⟨address, hfresh⟩

/-- The memory in which a walk is called. Finitely many blocks are in use. -/
structure Memory (σ D : Type) where
  container : Container σ D
  finite : {a | container.list.live (.node a) = true}.Finite

/-- How a walk can go wrong. -/
inductive Failure where
  /-- `pop` finds nothing and ends the process. -/
  | exit
  /-- `top` finds nothing and ends without a value, which is used. -/
  | noValue
  /-- A member of the node at NULL is accessed. -/
  | nullPointer
  deriving DecidableEq, Repr

section
variable {σ α D : Type} [DecidableEq σ] [DecidableEq α]

/-- The declaration of a local variable `stack` or `queue`. -/
def Memory.declare (memory : Memory σ D) : Container σ D :=
  {memory.container with
    list := {memory.container.list with
      live := Function.update memory.container.list.live .head true}}

def Malloc.node (malloc : Malloc σ) (this : Container σ D) : σ :=
  malloc.address fun a => this.list.live (.node a)

/-- A walk between the initialization and the destruction of its stack or queue. -/
def walk (fuel : ℕ) (memory : Memory σ D)
    (loop : Container σ D → Option (Except Failure (Container σ D × List α))) :
    Option (Except Failure (List α)) := do
  let this ← memory.declare.init
  match ← loop this with
  | .error e => some (.error e)
  | .ok (this, visited) =>
      match ← this.destroy fuel with
      | none => some (.error .exit)
      | some _ => some (.ok visited)

/-- The variables of a loop, and the nodes that `todo` has got so far. -/
structure WalkState (σ α : Type) where
  stack : Container σ (Option α)
  cur : Option α
  visited : List α

/-- What one turn of a loop comes to. -/
abbrev WalkTurn (σ α S : Type) := Turn S (Except Failure (Container σ (Option α) × List α))

def preOrderTurn (malloc : Malloc σ) (node : Links α) :
    WalkState σ α → Option (WalkTurn σ α (WalkState σ α))
  | ⟨stack, cur, visited⟩ => do
      if (← stack.isEmpty) && cur.isNone then some (.leave (.ok (stack, visited)))
      else
        match cur with
        | some cur => do
            let stack ← Stack.push stack (some cur) (malloc.node stack)
            some (.again ⟨stack, node.lchild cur, visited ++ [cur]⟩)
        | none =>
            match ← stack.pop with
            | none => some (.leave (.error .exit))
            | some (none, _) => some (.leave (.error .nullPointer))
            | some (some cur, stack) => some (.again ⟨stack, node.rchild cur, visited⟩)

def preOrderNorec (fuel : ℕ) (malloc : Malloc σ) (memory : Memory σ (Option α)) (t : Btree α) :
    Option (Except Failure (List α)) :=
  walk fuel memory fun stack => run (preOrderTurn malloc t.node) fuel ⟨stack, t.root, []⟩

def inOrderTurn (malloc : Malloc σ) (node : Links α) :
    WalkState σ α → Option (WalkTurn σ α (WalkState σ α))
  | ⟨stack, cur, visited⟩ => do
      if (← stack.isEmpty) && cur.isNone then some (.leave (.ok (stack, visited)))
      else
        match cur with
        | some cur => do
            let stack ← Stack.push stack (some cur) (malloc.node stack)
            some (.again ⟨stack, node.lchild cur, visited⟩)
        | none =>
            match ← stack.pop with
            | none => some (.leave (.error .exit))
            | some (none, _) => some (.leave (.error .nullPointer))
            | some (some cur, stack) => some (.again ⟨stack, node.rchild cur, visited ++ [cur]⟩)

def inOrderNorec (fuel : ℕ) (malloc : Malloc σ) (memory : Memory σ (Option α)) (t : Btree α) :
    Option (Except Failure (List α)) :=
  walk fuel memory fun stack => run (inOrderTurn malloc t.node) fuel ⟨stack, t.root, []⟩

/-- The second component is `tmp`. -/
def postOrderTurn (malloc : Malloc σ) (node : Links α) :
    WalkState σ α × Option α → Option (WalkTurn σ α (WalkState σ α × Option α))
  | (⟨stack, cur, visited⟩, tmp) => do
      if (← stack.isEmpty) && cur.isNone then some (.leave (.ok (stack, visited)))
      else
        match cur with
        | some cur => do
            let stack ← Stack.push stack (some cur) (malloc.node stack)
            some (.again (⟨stack, node.lchild cur, visited⟩, tmp))
        | none =>
            match ← stack.top with
            | none => some (.leave (.error .noValue))
            | some none => some (.leave (.error .nullPointer))
            | some (some cur) =>
                if node.rchild cur ≠ none ∧ node.rchild cur ≠ tmp then
                  some (.again (⟨stack, node.rchild cur, visited⟩, tmp))
                else
                  match ← stack.pop with
                  | none => some (.leave (.error .exit))
                  | some (none, _) => some (.leave (.error .nullPointer))
                  | some (some cur, stack) =>
                      some (.again (⟨stack, none, visited ++ [cur]⟩, some cur))

def postOrderNorec (fuel : ℕ) (malloc : Malloc σ) (memory : Memory σ (Option α)) (t : Btree α) :
    Option (Except Failure (List α)) :=
  walk fuel memory fun stack =>
    run (postOrderTurn malloc t.node) fuel (⟨stack, t.root, []⟩, none)

/-- The queue, with the child in it if there is one. -/
def pushChild (malloc : Malloc σ) (queue : Container σ (Option α)) :
    Option α → Option (Container σ (Option α))
  | none => some queue
  | some child => Queue.push queue (some child) (malloc.node queue)

def levelOrderTurn (malloc : Malloc σ) (node : Links α) :
    Container σ (Option α) × List α →
      Option (WalkTurn σ α (Container σ (Option α) × List α))
  | (queue, visited) => do
      if ← queue.isEmpty then some (.leave (.ok (queue, visited)))
      else
        match ← queue.pop with
        | none => some (.leave (.error .exit))
        | some (none, _) => some (.leave (.error .nullPointer))
        | some (some cur, queue) => do
            let queue ← pushChild malloc queue (node.lchild cur)
            let queue ← pushChild malloc queue (node.rchild cur)
            some (.again (queue, visited ++ [cur]))

/-- The root is pushed even if it is NULL. -/
def levelOrder (fuel : ℕ) (malloc : Malloc σ) (memory : Memory σ (Option α)) (t : Btree α) :
    Option (Except Failure (List α)) :=
  walk fuel memory fun queue => do
    let queue ← Queue.push queue t.root (malloc.node queue)
    run (levelOrderTurn malloc t.node) fuel (queue, [])

end

end EmbeddedCode.BTree
