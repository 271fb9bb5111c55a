import EmbeddedCode.ArraySort.Bubble
import EmbeddedCode.ArraySort.Insert
import EmbeddedCode.ArraySort.Select

/-!
# The elementary sorts leave the same array

Six sorts of three files. A sort has only one result, so they agree wherever they all
return. The bubble sort of `mysort` counts its comparisons in an `int`, which wraps from
65537 elements on and which nothing but a printed line depends on.
-/
namespace EmbeddedCode.ArraySort

open CInt Loop

/-- The six sorts return with the same sorted array. -/
structure AllLeave (m : Mem) (a : ℤ) (n : ℕ) (m' : Mem) : Prop where
  sorts : Sorts m a n m'
  selectSort : Returns (fun fuel => selectSort fuel m a n) m'
  insertSort : Returns (fun fuel => insertSort fuel m a n) m'
  mysortBubbleSort : Returns (fun fuel => mysortBubbleSort fuel m a n) m'
  zyBubbleSort : Returns (fun fuel => zyBubbleSort fuel m a n) m'
  bubbleSortSmall : Returns (fun fuel => bubbleSortSmall fuel m a n) m'
  zySelectSort : Returns (fun fuel => zySelectSort fuel m a n) m'

/-- The six sorts agree on every array that an `int` can index. -/
theorem elementary_agree {n : ℕ} (hpos : 1 ≤ n) (hfit : (n : ℤ) ≤ intMax) (m : Mem) (a : ℤ) :
    ∃ m', AllLeave m a n m' := by
  obtain ⟨m', hselect, hs⟩ := selectSort_returns hpos hfit m a
  obtain ⟨m₁, hinsert, h₁⟩ := insertSort_returns hpos hfit m a
  obtain ⟨m₂, hmysort, h₂⟩ := mysortBubbleSort_returns hpos hfit m a
  obtain ⟨m₃, hzyBubble, h₃⟩ := zyBubbleSort_returns hpos hfit m a
  obtain ⟨m₄, hsmall, h₄⟩ := bubbleSortSmall_returns hpos hfit m a
  obtain ⟨m₅, hzySelect, h₅⟩ := zySelectSort_returns hpos hfit m a
  obtain rfl := hs.unique h₁
  obtain rfl := hs.unique h₂
  obtain rfl := hs.unique h₃
  obtain rfl := hs.unique h₄
  obtain rfl := hs.unique h₅
  exact ⟨m', hs, hselect, hinsert, hmysort, hzyBubble, hsmall, hzySelect⟩

theorem elementary_agree_three : ∃ m', AllLeave (ofList [2, 0, 2]) 0 3 m' :=
  elementary_agree (n := 3) (by decide) (by decide) (ofList [2, 0, 2]) 0

end EmbeddedCode.ArraySort
