import EmbeddedCode.Library.TwoWayList

/-!
# The intrusive list

`1220/03btree/list.h`. The nodes and the headers of the lists are structures
`list_head` that lie anywhere in memory, and `Λ` is the type of their addresses.
Every access goes through a test that the structure is allocated, so a computation
without a result stands for an invalid access or for fuel that is spent.
-/
namespace EmbeddedCode.IntrusiveList

open LinkedList Loop

structure Heads (Λ : Type) where
  live : Λ → Bool
  prev : Λ → Λ
  next : Λ → Λ

section
variable {Λ : Type} [DecidableEq Λ]

namespace Heads

def readPrev (m : Heads Λ) (list : Λ) : Option Λ := if m.live list then some (m.prev list) else none

def readNext (m : Heads Λ) (list : Λ) : Option Λ := if m.live list then some (m.next list) else none

def writePrev (m : Heads Λ) (list p : Λ) : Option (Heads Λ) :=
  if m.live list then some {m with prev := Function.update m.prev list p} else none

def writeNext (m : Heads Λ) (list p : Λ) : Option (Heads Λ) :=
  if m.live list then some {m with next := Function.update m.next list p} else none

def listInit (m : Heads Λ) (list : Λ) : Option (Heads Λ) := do
  let m ← m.writePrev list list
  m.writeNext list list

def add (m : Heads Λ) (list prev next : Λ) : Option (Heads Λ) := do
  let m ← m.writeNext prev list
  let m ← m.writePrev next list
  let m ← m.writeNext list next
  m.writePrev list prev

def listAdd (m : Heads Λ) (head list : Λ) : Option (Heads Λ) := do
  let next ← m.readNext head
  m.add list head next

def listAddTail (m : Heads Λ) (head list : Λ) : Option (Heads Λ) := do
  let prev ← m.readPrev head
  m.add list prev head

def del (m : Heads Λ) (list : Λ) : Option (Heads Λ) := do
  let prev ← m.readPrev list
  let next ← m.readNext list
  let m ← m.writeNext prev next
  let next ← m.readNext list
  let prev ← m.readPrev list
  let m ← m.writePrev next prev
  m.listInit list

def listIsEmpty (m : Heads Λ) (head : Λ) : Option Bool := do
  let next ← m.readNext head
  some (next == head)

def destroyTurn (head : Λ) (m : Heads Λ) : Option (Turn (Heads Λ) (Heads Λ)) := do
  if ← m.listIsEmpty head then some (.leave m)
  else do
    let next ← m.readNext head
    let m ← m.del next
    some (.again m)

def listDestroy (fuel : ℕ) (m : Heads Λ) (head : Λ) : Option (Heads Λ) :=
  run (destroyTurn head) fuel m

end Heads

/-- A call of one of the functions that build and change lists. -/
inductive Op (Λ : Type) where
  | init (head : Λ)
  | listAdd (head list : Λ)
  | listAddTail (head list : Λ)
  | del (list : Λ)

def Heads.exec (m : Heads Λ) : Op Λ → Option (Heads Λ)
  | .init head => m.listInit head
  | .listAdd head list => m.listAdd head list
  | .listAddTail head list => m.listAddTail head list
  | .del list => m.del list

/-- What the lists are meant to be: the sequence of the nodes of every header. -/
abbrev Lists (Λ : Type) := Λ → Option (List Λ)

namespace Lists

def apply (lists : Lists Λ) : Op Λ → Lists Λ
  | .init head => Function.update lists head (some [])
  | .listAdd head list => Function.update lists head ((lists head).map (list :: ·))
  | .listAddTail head list => Function.update lists head ((lists head).map (· ++ [list]))
  | .del list => fun head => (lists head).map (·.erase list)

/-- The structure is a header or a node of some list. -/
def Linked (lists : Lists Λ) (l : Λ) : Prop := ∃ head xs, lists head = some xs ∧ l ∈ head :: xs

/-- A header or a node is made part of the lists only if it is not yet, and only nodes are
deleted. -/
def Allows (lists : Lists Λ) (live : Λ → Bool) : Op Λ → Prop
  | .init head => live head = true ∧ ¬ lists.Linked head
  | .listAdd head list | .listAddTail head list =>
      lists head ≠ none ∧ live list = true ∧ ¬ lists.Linked list
  | .del list => ∃ head xs, lists head = some xs ∧ list ∈ xs

end Lists

/-- The lists after some calls, of which the last comes first. -/
def reference : List (Op Λ) → Lists Λ
  | [] => fun _ => none
  | op :: ops => (reference ops).apply op

/-- The memory after some calls, of which the last comes first in the list. -/
inductive Reached : List (Op Λ) → Heads Λ → Prop
  | start (m : Heads Λ) : Reached [] m
  | next {ops : List (Op Λ)} {m m' : Heads Λ} {op : Op Λ} : Reached ops m →
      (reference ops).Allows m.live op → m.exec op = some m' → Reached (op :: ops) m'

end

end EmbeddedCode.IntrusiveList
