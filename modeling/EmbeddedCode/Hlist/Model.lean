import EmbeddedCode.Library.TwoWayList

/-!
# Lists with `pprev`

`1213/02kernel_hlist/list.h`. A head has only the pointer to its first node, and a node
has a pointer to the cell that refers to it, the member `first` of a head or the member
`next` of another node. `H` and `α` are the types of the addresses of heads and of nodes,
and every access goes through a test that the structure is allocated.
-/
namespace EmbeddedCode.Hlist

/-- What a `struct hlist_node **` points to. -/
inductive Cell (H α : Type) where
  | first (head : H)
  | next (node : α)
  deriving DecidableEq, Repr

structure Memory (H α : Type) where
  liveHead : H → Bool
  liveNode : α → Bool
  /-- The pointers `first` of the heads and `next` of the nodes. -/
  cell : Cell H α → Option α
  pprev : α → Option (Cell H α)

section
variable {H α : Type} [DecidableEq H] [DecidableEq α]

namespace Memory

def valid (m : Memory H α) : Cell H α → Bool
  | .first head => m.liveHead head
  | .next node => m.liveNode node

def readCell (m : Memory H α) (c : Cell H α) : Option (Option α) :=
  if m.valid c then some (m.cell c) else none

def writeCell (m : Memory H α) (c : Cell H α) (p : Option α) : Option (Memory H α) :=
  if m.valid c then some {m with cell := Function.update m.cell c p} else none

def readPprev (m : Memory H α) (node : α) : Option (Option (Cell H α)) :=
  if m.liveNode node then some (m.pprev node) else none

def writePprev (m : Memory H α) (node : α) (c : Option (Cell H α)) : Option (Memory H α) :=
  if m.liveNode node then some {m with pprev := Function.update m.pprev node c} else none

/-- `INIT_HLIST_HEAD` -/
def initHlistHead (m : Memory H α) (head : H) : Option (Memory H α) :=
  m.writeCell (.first head) none

def initHlistNode (m : Memory H α) (node : α) : Option (Memory H α) := do
  let m ← m.writeCell (.next node) none
  m.writePprev node none

def listAdd (m : Memory H α) (head : H) (node : α) : Option (Memory H α) := do
  let first ← m.readCell (.first head)
  let m ← m.writeCell (.next node) first
  let m ← m.writeCell (.first head) (some node)
  let m ← m.writePprev node (some (.first head))
  match ← m.readCell (.next node) with
  | none => some m
  | some next => m.writePprev next (some (.next node))

/-- The pointer `pprev` of the base is read twice, and followed the first time. -/
def listAddBefore (m : Memory H α) (node base : α) : Option (Memory H α) := do
  let m ← m.writeCell (.next node) (some base)
  let pprev ← m.readPprev base
  let m ← m.writeCell (← pprev) (some node)
  let pprev ← m.readPprev base
  let m ← m.writePprev node pprev
  m.writePprev base (some (.next node))

def listDel (m : Memory H α) (node : α) : Option (Memory H α) := do
  let pprev ← m.readPprev node
  let next ← m.readCell (.next node)
  let m ← m.writeCell (← pprev) next
  let m ← match ← m.readCell (.next node) with
    | none => some m
    | some next => do
        let pprev ← m.readPprev node
        m.writePprev next pprev
  m.initHlistNode node

def listIsEmpty (m : Memory H α) (head : H) : Option Bool := do
  let first ← m.readCell (.first head)
  some first.isNone

/-- The nodes that `hlist_for_each` meets from `cur` on. -/
def hlistForEach (m : Memory H α) : ℕ → Option α → Option (List α)
  | 0, _ => none
  | _ + 1, none => some []
  | fuel + 1, some cur => do
      let next ← m.readCell (.next cur)
      let nodes ← m.hlistForEach fuel next
      some (cur :: nodes)

end Memory

/-- A call of one of the functions that build and change lists. -/
inductive Op (H α : Type) where
  | init (head : H)
  | listAdd (head : H) (node : α)
  | listAddBefore (node base : α)
  | listDel (node : α)

def Memory.exec (m : Memory H α) : Op H α → Option (Memory H α)
  | .init head => m.initHlistHead head
  | .listAdd head node => m.listAdd head node
  | .listAddBefore node base => m.listAddBefore node base
  | .listDel node => m.listDel node

/-- What the lists are meant to be: the sequence of the nodes of every head. -/
abbrev Lists (H α : Type) := H → Option (List α)

def insertBefore (node base : α) : List α → List α
  | [] => []
  | a :: xs => if a = base then node :: a :: xs else a :: insertBefore node base xs

namespace Lists

def apply (lists : Lists H α) : Op H α → Lists H α
  | .init head => Function.update lists head (some [])
  | .listAdd head node => Function.update lists head ((lists head).map (node :: ·))
  | .listAddBefore node base => fun head => (lists head).map (insertBefore node base)
  | .listDel node => fun head => (lists head).map (·.erase node)

def Linked (lists : Lists H α) (node : α) : Prop := ∃ head xs, lists head = some xs ∧ node ∈ xs

/-- A head is initialized once, only nodes that are in no list are added, and only next to
or instead of nodes that are in one. -/
def Allows (lists : Lists H α) (m : Memory H α) : Op H α → Prop
  | .init head => m.liveHead head = true ∧ lists head = none
  | .listAdd head node => lists head ≠ none ∧ m.liveNode node = true ∧ ¬ lists.Linked node
  | .listAddBefore node base =>
      m.liveNode node = true ∧ ¬ lists.Linked node ∧ lists.Linked base
  | .listDel node => lists.Linked node

end Lists

/-- The lists after some calls, of which the last comes first. -/
def reference : List (Op H α) → Lists H α
  | [] => fun _ => none
  | op :: ops => (reference ops).apply op

/-- The memory after some calls, of which the last comes first in the list. -/
inductive Reached : List (Op H α) → Memory H α → Prop
  | start (m : Memory H α) : Reached [] m
  | next {ops : List (Op H α)} {m m' : Memory H α} {op : Op H α} : Reached ops m →
      (reference ops).Allows m op → m.exec op = some m' → Reached (op :: ops) m'

end

end EmbeddedCode.Hlist
