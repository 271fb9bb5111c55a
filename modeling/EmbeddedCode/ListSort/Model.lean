import EmbeddedCode.IntrusiveList.Model
import Mathlib.Data.Int.Notation

/-!
# The list sorts

`1228/list_sort.c` sorts an intrusive list by changing its links. Its `list.h` has the text
of `1220/03btree/list.h`. The comparator reads what the structures around the nodes hold,
and nothing writes to that, so it is a function of the addresses. `swap` has a node of its
own on the stack, and `stack` is the address of that node. What `todo` is called with is
recorded, and the printed ends of lines are left out. Selection and insertion are given a
`todo` that they do not call.
-/
namespace EmbeddedCode.ListSort

open IntrusiveList Loop

variable {Λ : Type} [DecidableEq Λ]

/-- A node comes to the stack. Its pointers hold what has been there before. -/
def push (m : Heads Λ) (stack : Λ) : Option (Heads Λ) :=
  if m.live stack then none else some {m with live := Function.update m.live stack true}

def pop (m : Heads Λ) (stack : Λ) : Heads Λ :=
  {m with live := Function.update m.live stack false}

def swap (stack : Λ) (m : Heads Λ) (a b : Λ) : Option (Heads Λ) := do
  let m ← push m stack
  let m ← m.add stack a (← m.readNext a)
  let m ← m.del a
  let m ← m.add a b (← m.readNext b)
  let m ← m.del b
  let m ← m.add b stack (← m.readNext stack)
  let m ← m.del stack
  some (pop m stack)

section Bubble
variable (cmp : Λ → Λ → ℤ) (stack head : Λ)

def bubbleInner (cur : Λ) : Heads Λ × Λ → Option (Turn (Heads Λ × Λ) (Heads Λ))
  | (m, tmp) => do
      if tmp = cur then some (.leave m)
      else do
        let (m, tmp) ←
          if cmp (← m.readNext tmp) tmp < 0 then do
            let m ← swap stack m tmp (← m.readNext tmp)
            some (m, ← m.readPrev tmp)
          else some (m, tmp)
        some (.again (m, ← m.readPrev tmp))

/-- `list_for_each` with `todo` as its body. -/
def visitTurn (m : Heads Λ) : Λ × List Λ → Option (Turn (Λ × List Λ) (List Λ))
  | (k, visited) => do
      if k = head then some (.leave visited) else some (.again (← m.readNext k, visited ++ [k]))

def bubbleOuter (fuel : ℕ) :
    Heads Λ × Λ × List Λ → Option (Turn (Heads Λ × Λ × List Λ) (Heads Λ × List Λ))
  | (m, cur, visited) => do
      if cur = (← m.readPrev head) then some (.leave (m, visited))
      else do
        let tmp ← m.readPrev (← m.readPrev head)
        let m ← run (bubbleInner cmp stack cur) fuel (m, tmp)
        let visited ← run (visitTurn head m) fuel (← m.readNext head, visited)
        some (.again (m, ← m.readNext cur, visited))

def bubbleSort (fuel : ℕ) (m : Heads Λ) : Option (Heads Λ × List Λ) :=
  run (bubbleOuter cmp stack head fuel) fuel (m, head, [])

end Bubble

section Select
variable (cmp : Λ → Λ → ℤ) (stack head : Λ)

/-- The search for the least node. The state holds `save` and `tmp`. -/
def scanTurn (m : Heads Λ) : Λ × Λ → Option (Turn (Λ × Λ) Λ)
  | (save, tmp) => do
      if tmp = head then some (.leave save)
      else some (.again (if cmp tmp save < 0 then tmp else save, ← m.readNext tmp))

def selectOuter (fuel : ℕ) : Heads Λ × Λ → Option (Turn (Heads Λ × Λ) (Heads Λ))
  | (m, cur) => do
      if cur = (← m.readPrev head) then some (.leave m)
      else do
        let save ← run (scanTurn cmp head m) fuel (cur, ← m.readNext cur)
        let (m, cur) ←
          if save ≠ cur then do
            let m ← swap stack m save cur
            some (m, save)
          else some (m, cur)
        some (.again (m, ← m.readNext cur))

def selectSort (fuel : ℕ) (m : Heads Λ) : Option (Heads Λ) := do
  run (selectOuter cmp stack head fuel) fuel (m, ← m.readNext head)

end Select

section Insert
variable (cmp : Λ → Λ → ℤ) (head : Λ)

def insertInner (cur : Λ) : Heads Λ × Λ → Option (Turn (Heads Λ × Λ) (Heads Λ))
  | (m, tmp) => do
      if tmp = head then some (.leave m)
      else do
        let (m, tmp) ←
          if 0 < cmp tmp cur then do
            let m ← m.del tmp
            let m ← m.add tmp cur (← m.readNext cur)
            some (m, cur)
          else some (m, tmp)
        some (.again (m, ← m.readPrev tmp))

def insertOuter (fuel : ℕ) : Heads Λ × Λ → Option (Turn (Heads Λ × Λ) (Heads Λ))
  | (m, cur) => do
      if cur = head then some (.leave m)
      else do
        let m ← run (insertInner cmp head cur) fuel (m, ← m.readPrev cur)
        some (.again (m, ← m.readNext cur))

def insertSort (fuel : ℕ) (m : Heads Λ) : Option (Heads Λ) := do
  run (insertOuter cmp head fuel) fuel (m, ← m.readNext (← m.readNext head))

end Insert

end EmbeddedCode.ListSort
