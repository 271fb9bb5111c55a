import EmbeddedCode.Library.Bisection
import EmbeddedCode.Library.CInt
import EmbeddedCode.Library.Loop
import Mathlib.Algebra.Group.Int.Defs

/-!
# Binary search

`c_zy/1109_7.c` has the search as a loop and as a recursion. An array is a partial function, and
to read an element that it does not have is a fault. Both functions are the bisection of the
interval, with the number in the place of the index that is looked for.
-/
namespace EmbeddedCode.Search

open CInt Loop

/-- The elements of an array from `lo` to `hi`, and no others. -/
def only (a : ℤ → ℤ) (lo hi i : ℤ) : Option ℤ := if lo ≤ i ∧ i ≤ hi then some (a i) else none

def half (l r : ℤ) : Option ℤ := (checked (l + r)).map (·.tdiv 2)

def searchTurn (a : ℤ → Option ℤ) (num : ℤ) : ℤ × ℤ → Option (Turn (ℤ × ℤ) ℤ)
  | (l, r) =>
      if l ≤ r then
        (half l r).bind fun mid =>
        (a mid).bind fun v =>
          if num < v then (checked (mid - 1)).map fun r => .again (l, r)
          else if num > v then (checked (mid + 1)).map fun l => .again (l, r)
          else some (.leave mid)
      else some (.leave (-1))

def binarySearch (fuel : ℕ) (a : ℤ → Option ℤ) (num l r : ℤ) : Option ℤ :=
  run (searchTurn a num) fuel (l, r)

def binarySearchRec : ℕ → (ℤ → Option ℤ) → ℤ → ℤ → ℤ → Option ℤ
  | 0, _, _, _, _ => none
  | fuel + 1, a, num, l, r =>
      if l > r then some (-1)
      else
        (half l r).bind fun mid =>
        (a mid).bind fun v =>
          if num = v then some mid
          else if num < v then (checked (mid - 1)).bind fun r => binarySearchRec fuel a num l r
          else (checked (mid + 1)).bind fun l => binarySearchRec fuel a num l r

theorem tdiv_between {l r : ℤ} (h : l ≤ r) : l ≤ (l + r).tdiv 2 ∧ (l + r).tdiv 2 ≤ r := by
  have hsign : Int.sign 2 = 1 := rfl
  rw [Int.tdiv_eq_ediv, hsign]
  split_ifs <;> omega

def middle : Bisection.Midpoint where
  mid l r := (l + r).tdiv 2
  le_mid h := (tdiv_between h).1
  mid_le h := (tdiv_between h).2

section Agree
variable {a : ℤ → ℤ} {num l r lo hi n k : ℤ}

/-- The comparison of the number with an element. -/
def side (a : ℤ → ℤ) (num i : ℤ) : Ordering := compare num (a i)

theorem side_ordered (hsorted : ∀ i j, l ≤ i → i ≤ j → j ≤ r → a i ≤ a j) :
    Bisection.Ordered (side a num) l r where
  before hi hij hj h := by
    rw [side, compare_gt_iff_gt] at h ⊢
    exact (hsorted _ _ hi hij hj).trans_lt h
  behind hi hij hj h := by
    rw [side, compare_lt_iff_lt] at h ⊢
    exact h.trans_le (hsorted _ _ hi hij hj)

/-- The bounds that a search passes through: no element outside of the array is read, and no
sum overflows. -/
structure Within (lo hi l r : ℤ) : Prop where
  lo_le : lo ≤ l
  le_hi : r ≤ hi
  nonneg : 0 ≤ l
  left : l ≤ 2 ^ 30
  right : r < 2 ^ 30

theorem Within.lower (h : Within lo hi l r) (hlr : l ≤ r) :
    Within lo hi l (middle.mid l r - 1) := by
  have hmid := middle.mid_le hlr
  exact ⟨h.lo_le, by have := h.le_hi; omega, h.nonneg, h.left, by have := h.right; omega⟩

theorem Within.upper (h : Within lo hi l r) (hlr : l ≤ r) :
    Within lo hi (middle.mid l r + 1) r := by
  have hle := middle.le_mid hlr
  have hmid := middle.mid_le hlr
  exact ⟨by have := h.lo_le; omega, h.le_hi, by have := h.nonneg; omega,
    by have := h.right; omega, h.right⟩

/-- One step of the search reads the element in the middle. -/
theorem Within.read (h : Within lo hi l r) (hlr : l ≤ r) :
    half l r = some (middle.mid l r) ∧
      only a lo hi (middle.mid l r) = some (a (middle.mid l r)) ∧
      checked (middle.mid l r - 1) = some (middle.mid l r - 1) ∧
      checked (middle.mid l r + 1) = some (middle.mid l r + 1) := by
  obtain ⟨hlo, hhi, hnonneg, hleft, hright⟩ := h
  have hle := middle.le_mid hlr
  have hmid := middle.mid_le hlr
  have hsum : checked (l + r) = some (l + r) := checked_of_le (n := intMax)
    (by unfold intMax; omega) (by unfold intMax; omega) le_rfl
  refine ⟨by rw [half, hsum]; rfl, if_pos ⟨by omega, by omega⟩, ?_, ?_⟩ <;>
  exact checked_of_le (n := intMax) (by unfold intMax; omega) (by unfold intMax; omega) le_rfl

/-- The result of a search that is coded as an `int`. -/
def code (found : Option ℤ) : ℤ := found.getD (-1)

theorem binarySearch_returns (h : Within lo hi l r) :
    Returns (fun fuel => binarySearch fuel (only a lo hi) num l r)
      (code (Bisection.search middle (side a num) l r)) := by
  induction l, r using Bisection.interval_induction middle (side a num) with
  | empty l r hlt =>
      rw [Bisection.search_empty hlt]
      refine returns_leave ?_
      rw [searchTurn, if_neg (by omega)]
      rfl
  | lt l r hlr hside ih =>
      obtain ⟨hhalf, hread, hlower, -⟩ := h.read (a := a) hlr
      rw [Bisection.search_lt hlr hside]
      rw [side, compare_lt_iff_lt] at hside
      refine (ih (h.lower hlr)).again ?_
      simp only [searchTurn, if_pos hlr, hhalf, hread, Option.bind_some, if_pos hside, hlower,
        Option.map_some]
  | gt l r hlr hside ih =>
      obtain ⟨hhalf, hread, -, hupper⟩ := h.read (a := a) hlr
      rw [Bisection.search_gt hlr hside]
      rw [side, compare_gt_iff_gt] at hside
      refine (ih (h.upper hlr)).again ?_
      simp only [searchTurn, if_pos hlr, hhalf, hread, Option.bind_some, if_neg hside.not_gt,
        if_pos hside, hupper, Option.map_some]
  | eq l r hlr hside =>
      obtain ⟨hhalf, hread, -, -⟩ := h.read (a := a) hlr
      rw [Bisection.search_eq hlr hside]
      rw [side, compare_eq_iff_eq] at hside
      refine returns_leave ?_
      simp only [searchTurn, if_pos hlr, hhalf, hread, Option.bind_some, hside, lt_irrefl,
        gt_iff_lt, if_false]
      rfl

theorem binarySearchRec_returns (h : Within lo hi l r) :
    Returns (fun fuel => binarySearchRec fuel (only a lo hi) num l r)
      (code (Bisection.search middle (side a num) l r)) := by
  induction l, r using Bisection.interval_induction middle (side a num) with
  | empty l r hlt =>
      rw [Bisection.search_empty hlt]
      refine Returns.of_succ ?_
      simp only [binarySearchRec, if_pos hlt]
      exact returns_const _
  | lt l r hlr hside ih =>
      obtain ⟨hhalf, hread, hlower, -⟩ := h.read (a := a) hlr
      rw [Bisection.search_lt hlr hside]
      rw [side, compare_lt_iff_lt] at hside
      refine Returns.of_succ ?_
      simp only [binarySearchRec, if_neg hlr.not_gt, hhalf, hread, Option.bind_some,
        if_neg hside.ne, if_pos hside, hlower]
      exact ih (h.lower hlr)
  | gt l r hlr hside ih =>
      obtain ⟨hhalf, hread, -, hupper⟩ := h.read (a := a) hlr
      rw [Bisection.search_gt hlr hside]
      rw [side, compare_gt_iff_gt] at hside
      refine Returns.of_succ ?_
      simp only [binarySearchRec, if_neg hlr.not_gt, hhalf, hread, Option.bind_some,
        if_neg hside.ne', if_neg hside.not_gt, hupper]
      exact ih (h.upper hlr)
  | eq l r hlr hside =>
      obtain ⟨hhalf, hread, -, -⟩ := h.read (a := a) hlr
      rw [Bisection.search_eq hlr hside]
      rw [side, compare_eq_iff_eq] at hside
      refine Returns.of_succ ?_
      simp only [binarySearchRec, if_neg hlr.not_gt, hhalf, hread, Option.bind_some,
        if_pos hside]
      exact returns_const _

/-- The loop and the recursion read elements between the bounds only, and have the same result:
an index of the number if there is one. -/
theorem searches_agree (hn : n ≤ 2 ^ 30) (hsorted : ∀ i j, 0 ≤ i → i ≤ j → j < n → a i ≤ a j)
    (hbounds : 0 ≤ l ∧ l ≤ n - 1 ∧ 0 ≤ r ∧ r ≤ n - 1 ∨ l = 0 ∧ r = -1) :
    ∃ k, Returns (fun fuel => binarySearch fuel (only a l r) num l r) k ∧
      Returns (fun fuel => binarySearchRec fuel (only a l r) num l r) k ∧
      (l ≤ k ∧ k ≤ r ∧ a k = num ∨ k = -1 ∧ ∀ i, l ≤ i → i ≤ r → a i ≠ num) := by
  have hwithin : Within l r l r := ⟨le_rfl, le_rfl, by omega, by omega, by omega⟩
  have hordered : Bisection.Ordered (side a num) l r :=
    side_ordered fun i j hi hij hj => hsorted i j (by omega) hij (by omega)
  refine ⟨_, binarySearch_returns hwithin, binarySearchRec_returns hwithin, ?_⟩
  cases hsearch : Bisection.search middle (side a num) l r with
  | some k =>
      obtain ⟨hl, hr, hside⟩ := Bisection.search_some hsearch
      exact .inl ⟨hl, hr, (compare_eq_iff_eq.mp hside).symm⟩
  | none =>
      refine .inr ⟨rfl, fun i hl hr heq => ?_⟩
      exact Bisection.search_none hordered hsearch hl hr (compare_eq_iff_eq.mpr heq.symm)

end Agree

/-- The array of `main`. -/
def sample (i : ℤ) : ℤ := if i < 6 then i else i + 10

theorem sample_sorted (i j : ℤ) (hij : i ≤ j) : sample i ≤ sample j := by
  unfold sample
  split_ifs <;> omega

theorem searches_agree_sample :
    ∃ k, Returns (fun fuel => binarySearch fuel (only sample 0 9) 8 0 9) k ∧
      Returns (fun fuel => binarySearchRec fuel (only sample 0 9) 8 0 9) k ∧
      (0 ≤ k ∧ k ≤ 9 ∧ sample k = 8 ∨ k = -1 ∧ ∀ i, 0 ≤ i → i ≤ 9 → sample i ≠ 8) :=
  searches_agree (n := 10) (by decide) (fun i j _ hij _ => sample_sorted i j hij)
    (.inl (by decide))

example : binarySearch 4 (only sample 0 9) 16 0 9 = some 6 := by decide

end EmbeddedCode.Search
