import Mathlib.Data.Int.Notation
import Mathlib.Data.Int.Order.Basic
import Mathlib.Order.Basic

/-!
# Bisection

An index is looked for between two bounds. At every index a comparison tells whether it is the
one that is looked for, or else on which side of it the search goes on. The rule that picks the
next index of an interval is a parameter.
-/
namespace EmbeddedCode.Bisection

/-- A rule that picks an index of every interval that is not empty. -/
structure Midpoint where
  mid : ℤ → ℤ → ℤ
  le_mid : ∀ {l r : ℤ}, l ≤ r → l ≤ mid l r
  mid_le : ∀ {l r : ℤ}, l ≤ r → mid l r ≤ r

/-- What comes before an index that is too small is too small, and what comes behind an index
that is too large is too large. -/
structure Ordered (cmp : ℤ → Ordering) (l r : ℤ) : Prop where
  before : ∀ {i j : ℤ}, l ≤ i → i ≤ j → j ≤ r → cmp j = .gt → cmp i = .gt
  behind : ∀ {i j : ℤ}, l ≤ i → i ≤ j → j ≤ r → cmp i = .lt → cmp j = .lt

variable {M : Midpoint} {cmp : ℤ → Ordering} {l r l' r' i : ℤ}

/-- `cmp i` is `lt` if the index that is looked for comes before `i`. -/
def search (M : Midpoint) (cmp : ℤ → Ordering) (l r : ℤ) : Option ℤ :=
  if _ : l ≤ r then
    match cmp (M.mid l r) with
    | .lt => search M cmp l (M.mid l r - 1)
    | .gt => search M cmp (M.mid l r + 1) r
    | .eq => some (M.mid l r)
  else none
termination_by (r + 1 - l).toNat
decreasing_by
  · have := M.le_mid (by assumption : l ≤ r)
    have := M.mid_le (by assumption : l ≤ r)
    omega
  · have := M.le_mid (by assumption : l ≤ r)
    omega

theorem search_empty (h : r < l) : search M cmp l r = none := by
  rw [search, dif_neg (by omega)]

theorem search_lt (h : l ≤ r) (hcmp : cmp (M.mid l r) = .lt) :
    search M cmp l r = search M cmp l (M.mid l r - 1) := by
  rw [search, dif_pos h, hcmp]

theorem search_gt (h : l ≤ r) (hcmp : cmp (M.mid l r) = .gt) :
    search M cmp l r = search M cmp (M.mid l r + 1) r := by
  rw [search, dif_pos h, hcmp]

theorem search_eq (h : l ≤ r) (hcmp : cmp (M.mid l r) = .eq) :
    search M cmp l r = some (M.mid l r) := by
  rw [search, dif_pos h, hcmp]

/-- The cases of an interval, with the property for the interval in which the search goes on. -/
theorem interval_induction (M : Midpoint) (cmp : ℤ → Ordering) {P : ℤ → ℤ → Prop}
    (empty : ∀ l r, r < l → P l r)
    (lt : ∀ l r, l ≤ r → cmp (M.mid l r) = .lt → P l (M.mid l r - 1) → P l r)
    (gt : ∀ l r, l ≤ r → cmp (M.mid l r) = .gt → P (M.mid l r + 1) r → P l r)
    (eq : ∀ l r, l ≤ r → cmp (M.mid l r) = .eq → P l r) (l r : ℤ) : P l r := by
  induction hk : (r + 1 - l).toNat using Nat.strongRecOn generalizing l r with
  | ind k ih =>
      by_cases h : l ≤ r
      · have hle := M.le_mid h
        have hmid := M.mid_le h
        cases hcmp : cmp (M.mid l r) with
        | lt => exact lt l r h hcmp (ih _ (by omega) _ _ rfl)
        | gt => exact gt l r h hcmp (ih _ (by omega) _ _ rfl)
        | eq => exact eq l r h hcmp
      · exact empty l r (by omega)

theorem Ordered.mono (h : Ordered cmp l r) (hl : l ≤ l') (hr : r' ≤ r) : Ordered cmp l' r' where
  before hi hij hj := h.before (hl.trans hi) hij (hj.trans hr)
  behind hi hij hj := h.behind (hl.trans hi) hij (hj.trans hr)

theorem search_some (hfound : search M cmp l r = some i) : l ≤ i ∧ i ≤ r ∧ cmp i = .eq := by
  induction l, r using interval_induction M cmp with
  | empty l r h =>
      rw [search_empty h] at hfound
      cases hfound
  | lt l r h hcmp ih =>
      rw [search_lt h hcmp] at hfound
      obtain ⟨hl, hr, hi⟩ := ih hfound
      have hmid := M.mid_le h
      exact ⟨hl, by omega, hi⟩
  | gt l r h hcmp ih =>
      rw [search_gt h hcmp] at hfound
      obtain ⟨hl, hr, hi⟩ := ih hfound
      have hle := M.le_mid h
      exact ⟨by omega, hr, hi⟩
  | eq l r h hcmp =>
      rw [search_eq h hcmp] at hfound
      cases hfound
      exact ⟨M.le_mid h, M.mid_le h, hcmp⟩

/-- The half that a turn gives up does not hold the index. -/
theorem search_none (hordered : Ordered cmp l r) (hnone : search M cmp l r = none) (hl : l ≤ i)
    (hr : i ≤ r) : cmp i ≠ .eq := by
  induction l, r using interval_induction M cmp with
  | empty l r h => omega
  | lt l r h hcmp ih =>
      have hle := M.le_mid h
      have hmid := M.mid_le h
      rw [search_lt h hcmp] at hnone
      rcases lt_or_ge i (M.mid l r) with hi | hi
      · exact ih (hordered.mono le_rfl (by omega)) hnone hl (by omega)
      · rw [hordered.behind hle hi hr hcmp]
        exact nofun
  | gt l r h hcmp ih =>
      have hle := M.le_mid h
      have hmid := M.mid_le h
      rw [search_gt h hcmp] at hnone
      rcases lt_or_ge (M.mid l r) i with hi | hi
      · exact ih (hordered.mono (by omega) le_rfl) hnone (by omega) hr
      · rw [hordered.before hl hi hmid hcmp]
        exact nofun
  | eq l r h hcmp =>
      rw [search_eq h hcmp] at hnone
      cases hnone

end EmbeddedCode.Bisection
