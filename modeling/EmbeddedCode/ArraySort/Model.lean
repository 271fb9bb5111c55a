import EmbeddedCode.Library.CInt
import EmbeddedCode.Library.Loop
import Mathlib.Logic.Function.Basic

/-!
# The array sorts

`1227/sort.c`, the bubble sort of `1227/mysort/sort.c`, and `1109_3.c` and `1115_2.c`
of `c_zy`. Addresses count elements, and an array is `n` elements of memory from the
address `a` on. A function may access the array it is called with and nothing else, and
every access goes through a test of that. A computation without a result stands for an
access outside the array, for an index of type `int` that overflows, or for fuel that is
spent. As gcc has it, a conversion to `int` wraps, and so does a counter that indexes
nothing, and a local array may have no elements.
What is printed is left out, but the elements that are read for it are read.
-/
namespace EmbeddedCode.ArraySort

open CInt Loop

abbrev Mem := ℤ → ℤ

/-- The array that a function is called with: `n` elements from `a` on. -/
structure Arr where
  a : ℤ
  n : ℤ

def Arr.Has (w : Arr) (p : ℤ) : Prop := w.a ≤ p ∧ p < w.a + w.n

instance (w : Arr) (p : ℤ) : Decidable (w.Has p) := inferInstanceAs (Decidable (_ ∧ _))

namespace Arr

def load (w : Arr) (m : Mem) (p : ℤ) : Option ℤ := if w.Has p then some (m p) else none

def store (w : Arr) (m : Mem) (p v : ℤ) : Option Mem :=
  if w.Has p then some (Function.update m p v) else none

def swap (w : Arr) (m : Mem) (a b : ℤ) : Option Mem := do
  let tmp ← w.load m a
  let m ← w.store m a (← w.load m b)
  w.store m b tmp

end Arr

/-- The conditions of two nested loops, in the arithmetic of the type that `n` has. -/
structure Conditions where
  outer (n i : ℤ) : Option Bool
  inner (n i j : ℤ) : Option Bool

section Bubble

/-- A turn compares the elements at `j` and `j + 1`. `tick` is what it does to a counter. -/
def bubbleInner (c : Conditions) (tick : ℤ → Option ℤ) (w : Arr) (n i : ℤ) :
    Mem × ℤ × ℤ → Option (Turn (Mem × ℤ × ℤ) (Mem × ℤ))
  | (m, j, count) => do
      if ← c.inner n i j then do
        let count ← tick count
        let x ← w.load m (w.a + j)
        let y ← w.load m (w.a + j + 1)
        let m ← if y < x then w.swap m (w.a + j) (w.a + j + 1) else some m
        let j ← checked (j + 1)
        some (.again (m, j, count))
      else some (.leave (m, count))

def bubbleOuter (c : Conditions) (tick : ℤ → Option ℤ) (w : Arr) (n : ℤ) (fuel : ℕ) :
    Mem × ℤ × ℤ → Option (Turn (Mem × ℤ × ℤ) Mem)
  | (m, i, count) => do
      if ← c.outer n i then do
        let (m, count) ← run (bubbleInner c tick w n i) fuel (m, 0, count)
        let i ← checked (i + 1)
        some (.again (m, i, count))
      else some (.leave m)

/-- The bubble sort of `n` elements, when the elements of `w` may be accessed. -/
def bubbleIn (c : Conditions) (tick : ℤ → Option ℤ) (w : Arr) (n : ℤ) (fuel : ℕ) (m : Mem) :
    Option Mem :=
  run (bubbleOuter c tick w n fuel) fuel (m, 0, 0)

def bubble (c : Conditions) (tick : ℤ → Option ℤ) (fuel : ℕ) (m : Mem) (a n : ℤ) : Option Mem :=
  bubbleIn c tick ⟨a, n⟩ n fuel m

/-- The loop conditions of `bubble_sort` of `1227/sort.c`. -/
def bubbleConditions : Conditions where
  outer n i := some (sizeT i < sizeT (n - 1))
  inner n i j := some (sizeT j ≤ sizeT (n - 1 - i))

/-- `bubble_sort` of `1227/sort.c` -/
def bubbleSort : ℕ → Mem → ℤ → ℤ → Option Mem := bubble bubbleConditions some

def mysortConditions : Conditions where
  outer n i := some (sizeT i < sizeT (n - 1))
  inner n i j := some (sizeT j < sizeT (n - 1 - i))

/-- `bubble_sort` of `1227/mysort/sort.c`, which counts the comparisons. -/
def mysortBubbleSort : ℕ → Mem → ℤ → ℤ → Option Mem :=
  bubble mysortConditions fun count => some (wrap (count + 1))

def zyBubbleConditions : Conditions where
  outer n i := do
    let last ← checked (n - 1)
    some (i < last)
  inner n i j := do
    let last ← checked (n - 1)
    let last ← checked (last - i)
    some (j < last)

/-- `bubble_sort` of `1109_3.c` -/
def zyBubbleSort : ℕ → Mem → ℤ → ℤ → Option Mem := bubble zyBubbleConditions some

/-- The inner loop of `bubble_sort_small`, which goes down. -/
def smallInner (w : Arr) (i : ℤ) : Mem × ℤ → Option (Turn (Mem × ℤ) Mem)
  | (m, j) =>
      if i < j then do
        let x ← w.load m (w.a + j)
        let y ← w.load m (w.a + (← checked (j - 1)))
        let m ← if x < y then w.swap m (w.a + j) (w.a + j - 1) else some m
        let j ← checked (j - 1)
        some (.again (m, j))
      else some (.leave m)

def smallOuter (w : Arr) (fuel : ℕ) : Mem × ℤ → Option (Turn (Mem × ℤ) Mem)
  | (m, i) => do
      let last ← checked (w.n - 1)
      if i < last then do
        let m ← run (smallInner w i) fuel (m, last)
        let i ← checked (i + 1)
        some (.again (m, i))
      else some (.leave m)

/-- `bubble_sort_small` of `1109_3.c` -/
def bubbleSortSmall (fuel : ℕ) (m : Mem) (a n : ℤ) : Option Mem :=
  run (smallOuter ⟨a, n⟩ fuel) fuel (m, 0)

end Bubble

section Select

/-- The search for the least element. The state holds `min` and `j`. -/
def selectInner (c : Conditions) (w : Arr) (m : Mem) (i : ℤ) :
    ℤ × ℤ → Option (Turn (ℤ × ℤ) ℤ)
  | (min, j) => do
      if ← c.inner w.n i j then do
        let x ← w.load m (w.a + j)
        let y ← w.load m (w.a + min)
        let min := if x < y then j else min
        let j ← checked (j + 1)
        some (.again (min, j))
      else some (.leave min)

/-- `exchange` is the call of `swap` with `min` and `i`. -/
def selectOuter (c : Conditions) (exchange : Arr → Mem → ℤ → ℤ → Option Mem) (w : Arr)
    (fuel : ℕ) : Mem × ℤ → Option (Turn (Mem × ℤ) Mem)
  | (m, i) => do
      if ← c.outer w.n i then do
        let j ← checked (i + 1)
        let min ← run (selectInner c w m i) fuel (i, j)
        let m ← if min ≠ i then exchange w m min i else some m
        let i ← checked (i + 1)
        some (.again (m, i))
      else some (.leave m)

def select (c : Conditions) (exchange : Arr → Mem → ℤ → ℤ → Option Mem) (fuel : ℕ) (m : Mem)
    (a n : ℤ) : Option Mem :=
  run (selectOuter c exchange ⟨a, n⟩ fuel) fuel (m, 0)

def selectConditions : Conditions where
  outer n i := some (sizeT i < sizeT (n - 1))
  inner n _ j := some (sizeT j < n)

/-- `select_sort` of `1227/sort.c` -/
def selectSort : ℕ → Mem → ℤ → ℤ → Option Mem :=
  select selectConditions fun w m min i => w.swap m (w.a + min) (w.a + i)

def zySelectConditions : Conditions where
  outer n i := do
    let last ← checked (n - 1)
    some (i < last)
  inner n _ j := do
    let last ← checked (n - 1)
    some (j ≤ last)

/-- `select_sort` of `1109_3.c` -/
def zySelectSort : ℕ → Mem → ℤ → ℤ → Option Mem :=
  select zySelectConditions fun w m min i => w.swap m (w.a + i) (w.a + min)

end Select

section Insert

/-- Elements above `save` move up by `k`. -/
def gapInner (w : Arr) (k save : ℤ) : Mem × ℤ → Option (Turn (Mem × ℤ) (Mem × ℤ))
  | (m, j) =>
      if 0 ≤ j then do
        let x ← w.load m (w.a + j)
        if save < x then do
          let m ← w.store m (w.a + (← checked (j + k))) x
          let j ← checked (j - k)
          some (.again (m, j))
        else some (.leave (m, j))
      else some (.leave (m, j))

def gapOuter (w : Arr) (k : ℤ) (fuel : ℕ) : Mem × ℤ → Option (Turn (Mem × ℤ) Mem)
  | (m, i) =>
      if sizeT i < w.n then do
        let save ← w.load m (w.a + i)
        let j ← checked (i - k)
        let (m, j) ← run (gapInner w k save) fuel (m, j)
        let m ← w.store m (w.a + (← checked (j + k))) save
        let i ← checked (i + 1)
        some (.again (m, i))
      else some (.leave m)

/-- An insertion sort of the elements that are `k` apart. -/
def gapSort (w : Arr) (k : ℤ) (fuel : ℕ) (m : Mem) : Option Mem :=
  run (gapOuter w k fuel) fuel (m, k)

/-- `insert_sort` of `1227/sort.c` -/
def insertSort (fuel : ℕ) (m : Mem) (a n : ℤ) : Option Mem := gapSort ⟨a, n⟩ 1 fuel m

def shellTurn (w : Arr) (fuel : ℕ) : Mem × ℤ → Option (Turn (Mem × ℤ) Mem)
  | (m, k) =>
      if 1 ≤ k then do
        let m ← gapSort w k fuel m
        some (.again (m, k / 2))
      else some (.leave m)

/-- `shell_sort` of `1227/sort.c` -/
def shellSort (fuel : ℕ) (m : Mem) (a n : ℤ) : Option Mem :=
  run (shellTurn ⟨a, n⟩ fuel) fuel (m, wrap (n / 2))

end Insert

section Quick

/-- A pointer moves by `d` while `go` holds. -/
def moveTurn (go : ℤ → Option Bool) (d p : ℤ) : Option (Turn ℤ ℤ) := do
  if ← go p then some (.again (p + d)) else some (.leave p)

/-- `pl` moves up to an element that is not below the one at `p`. -/
def scanFirst (w : Arr) (m : Mem) (p : ℤ) : ℤ → Option (Turn ℤ ℤ) :=
  moveTurn (fun pl => if pl < p then do
    let x ← w.load m pl
    let y ← w.load m p
    some (x < y)
  else some false) 1

def scanRight (w : Arr) (m : Mem) (save pl : ℤ) : ℤ → Option (Turn ℤ ℤ) :=
  moveTurn (fun pr => if pl < pr then (w.load m pr).map fun x => save < x else some false) (-1)

def scanLeft (w : Arr) (m : Mem) (save pr : ℤ) : ℤ → Option (Turn ℤ ℤ) :=
  moveTurn (fun pl => if pl < pr then (w.load m pl).map fun x => x < save else some false) 1

/-- The loop `while (1)`. The state holds `pl` and `pr`. -/
def partitionTurn (w : Arr) (save : ℤ) (fuel : ℕ) :
    Mem × ℤ × ℤ → Option (Turn (Mem × ℤ × ℤ) (Mem × ℤ))
  | (m, pl, pr) => do
      let pr ← run (scanRight w m save pl) fuel pr
      if pl < pr then do
        let m ← w.store m pl (← w.load m pr)
        let pl := pl + 1
        let pl ← run (scanLeft w m save pr) fuel pl
        if pl < pr then do
          let m ← w.store m pr (← w.load m pl)
          some (.again (m, pl, pr - 1))
        else some (.leave (m, pl))
      else some (.leave (m, pl))

def quickSort : ℕ → Mem → ℤ → ℤ → Option Mem
  | 0, _, _, _ => none
  | fuel + 1, m, a, n =>
      if n ≤ 1 then some m
      else do
        let w : Arr := ⟨a, n⟩
        let p := a + n / 2
        let _ ← w.load m p
        let save ← w.load m p
        let pl ← run (scanFirst w m p) fuel a
        let m ← if pl < p then do w.store m p (← w.load m pl) else some m
        let (m, pl) ← run (partitionTurn w save fuel) fuel (m, pl, a + n - 1)
        let _ ← w.load m p
        let m ← w.store m pl save
        let m ← quickSort fuel m a (sizeT (pl - a))
        quickSort fuel m (pl + 1) (sizeT (n - 1 - (pl - a)))

end Quick

section Heap

/-- The state holds `i` and `j`. -/
def adjustTurn (w : Arr) : Mem × ℤ × ℤ → Option (Turn (Mem × ℤ × ℤ) Mem)
  | (m, i, j) =>
      if j < w.n then do
        let j ←
          if sizeT (j + 1) < w.n then do
            let x ← w.load m (w.a + sizeT (j + 1))
            let y ← w.load m (w.a + j)
            some (if y < x then sizeT (j + 1) else j)
          else some j
        let x ← w.load m (w.a + i)
        let y ← w.load m (w.a + j)
        if x < y then do
          let m ← w.swap m (w.a + i) (w.a + j)
          some (.again (m, j, sizeT (j * 2 + 1)))
        else some (.leave m)
      else some (.leave m)

def adjustTree (fuel : ℕ) (m : Mem) (a i n : ℤ) : Option Mem :=
  run (adjustTurn ⟨a, n⟩) fuel (m, i, sizeT (2 * i + 1))

/-- The first loop of `heap_sort`. -/
def buildTurn (w : Arr) (fuel : ℕ) : Mem × ℤ → Option (Turn (Mem × ℤ) Mem)
  | (m, i) =>
      if 0 ≤ i then do
        let m ← adjustTree fuel m w.a (sizeT i) w.n
        let i ← checked (i - 1)
        some (.again (m, i))
      else some (.leave m)

def printTurn (w : Arr) (m : Mem) (k : ℤ) : Option (Turn ℤ Unit) :=
  if sizeT k < w.n then do
    let _ ← w.load m (w.a + k)
    let k ← checked (k + 1)
    some (.again k)
  else some (.leave ())

def heapTurn (w : Arr) (fuel : ℕ) : Mem × ℤ → Option (Turn (Mem × ℤ) Mem)
  | (m, i) =>
      if 0 < i then do
        let m ← w.swap m (w.a + 0) (w.a + i)
        let () ← run (printTurn w m) fuel 0
        let m ← adjustTree fuel m w.a 0 (sizeT i)
        let i ← checked (i - 1)
        some (.again (m, i))
      else some (.leave m)

def heapSort (fuel : ℕ) (m : Mem) (a n : ℤ) : Option Mem := do
  let m ← run (buildTurn ⟨a, n⟩ fuel) fuel (m, wrap (sizeT (n / 2 - 1)))
  run (heapTurn ⟨a, n⟩ fuel) fuel (m, wrap (sizeT (n - 1)))

end Heap

section Merge

/-- A local array of `n` elements, which hold nothing at first. -/
abbrev Temp := ℤ → Option ℤ

def Temp.put (b : Temp) (n i v : ℤ) : Option Temp :=
  if 0 ≤ i ∧ i < n then some (Function.update b i (some v)) else none

def Temp.get (b : Temp) (n i : ℤ) : Option ℤ := if 0 ≤ i ∧ i < n then b i else none

/-- The state of the merge: `l`, `r`, `i` and the local array. -/
structure Merge where
  l : ℤ
  r : ℤ
  i : ℤ
  b : Temp

/-- `below` is the comparison of an `int` with `n`. -/
def mergeTurn (below : ℤ → ℤ → Bool) (w : Arr) (mem : Mem) (m : ℤ) (s : Merge) :
    Option (Turn Merge Merge) :=
  if s.l < m && below s.r w.n then do
    let x ← w.load mem (w.a + s.l)
    let y ← w.load mem (w.a + s.r)
    if x ≤ y then do
      let b ← s.b.put w.n s.i x
      some (.again {s with i := ← checked (s.i + 1), l := ← checked (s.l + 1), b := b})
    else do
      let b ← s.b.put w.n s.i y
      some (.again {s with i := ← checked (s.i + 1), r := ← checked (s.r + 1), b := b})
  else some (.leave s)

/-- One of the loops that copy what is left. The state holds `l` or `r`, `i` and the local
array. -/
def copyTurn (more : ℤ → Bool) (w : Arr) (mem : Mem) :
    ℤ × ℤ × Temp → Option (Turn (ℤ × ℤ × Temp) (ℤ × Temp))
  | (l, i, b) =>
      if more l then do
        let x ← w.load mem (w.a + l)
        let b ← b.put w.n i x
        some (.again (← checked (l + 1), ← checked (i + 1), b))
      else some (.leave (i, b))

/-- The last loop copies the local array to the array. -/
def copyBackTurn (below : ℤ → ℤ → Bool) (w : Arr) (b : Temp) :
    Mem × ℤ → Option (Turn (Mem × ℤ) Mem)
  | (mem, i) =>
      if below i w.n then do
        let mem ← w.store mem (w.a + i) (← b.get w.n i)
        some (.again (mem, ← checked (i + 1)))
      else some (.leave mem)

def mergeHalves (below : ℤ → ℤ → Bool) (fuel : ℕ) (mem : Mem) (w : Arr) (m : ℤ) : Option Mem := do
  let s ← run (mergeTurn below w mem m) fuel ⟨0, m, 0, fun _ => none⟩
  let (i, b) ← run (copyTurn (fun l => l < m) w mem) fuel (s.l, s.i, s.b)
  let (_, b) ← run (copyTurn (fun r => below r w.n) w mem) fuel (s.r, i, b)
  run (copyBackTurn below w b) fuel (mem, 0)

/-- `merge_sort` of `1227/sort.c` -/
def mergeSort : ℕ → Mem → ℤ → ℤ → Option Mem
  | 0, _, _, _ => none
  | fuel + 1, mem, a, n => do
      let m := wrap (n / 2)
      let mem ←
        if 1 < m then do
          let mem ← mergeSort fuel mem a (sizeT m)
          mergeSort fuel mem (a + m) (sizeT (n - m))
        else some mem
      mergeHalves (fun i n => sizeT i < n) fuel mem ⟨a, n⟩ m

/-- `merge_sort` of `1115_2.c` -/
def zyMergeSort : ℕ → Mem → ℤ → ℤ → Option Mem
  | 0, _, _, _ => none
  | fuel + 1, mem, a, n => do
      let m := n / 2
      let mem ←
        if 0 < m then do
          let mem ← zyMergeSort fuel mem a m
          zyMergeSort fuel mem (a + m) (← checked (n - m))
        else some mem
      mergeHalves (fun i n => i < n) fuel mem ⟨a, n⟩ m

end Merge

end EmbeddedCode.ArraySort
