import EmbeddedCode.ArraySort.Model
import EmbeddedCode.Library.Rearrange

/-!
# What a sort leaves

The specification that the sorts share, and what their accesses do inside the array.
-/
namespace EmbeddedCode.ArraySort

open Rearrange

/-- The array is sorted, it is a permutation of what it was, and nothing else has changed. -/
structure Sorts (m : Mem) (a : ℤ) (n : ℕ) (m' : Mem) : Prop where
  sorted : (slice m' a n).Pairwise (· ≤ ·)
  perm : (slice m' a n).Perm (slice m a n)
  frame : ∀ p, ¬ (Arr.mk a n).Has p → m' p = m p

theorem Arr.has_index {a k n : ℤ} (hlow : 0 ≤ k) (hhigh : k < n) : (Arr.mk a n).Has (a + k) :=
  ⟨by simpa using hlow, by simpa using hhigh⟩

theorem Sorts.unique {m m₁ m₂ : Mem} {a : ℤ} {n : ℕ} (h₁ : Sorts m a n m₁)
    (h₂ : Sorts m a n m₂) : m₁ = m₂ := by
  have hslice : slice m₁ a n = slice m₂ a n := by
    apply (h₁.perm.trans h₂.perm.symm).eq_of_pairwise
    · exact fun x y _ _ => le_antisymm
    · exact h₁.sorted
    · exact h₂.sorted
  funext p
  by_cases hp : (Arr.mk a n).Has p
  · obtain ⟨hlow, hhigh⟩ := hp
    simp only at hlow hhigh
    obtain ⟨k, rfl⟩ : ∃ k : ℕ, p = a + k := ⟨(p - a).toNat, by omega⟩
    have hget : (slice m₁ a n)[k]? = (slice m₂ a n)[k]? := by rw [hslice]
    have hlt : k < n := by omega
    simpa [slice, hlt] using hget
  · rw [h₁.frame p hp, h₂.frame p hp]

def ofList (xs : List ℤ) : Mem := fun p => xs.getD p.toNat 0

/-- The loops run `i` up to `n - 1` and `j` up to `limit i`. -/
structure Conditions.RunTo (c : Conditions) (n : ℤ) (limit : ℤ → ℤ) : Prop where
  outer : ∀ i, 0 ≤ i → i ≤ n - 1 → c.outer n i = some (decide (i < n - 1))
  inner : ∀ i j, 0 ≤ i → i < n - 1 → 0 ≤ j → j ≤ limit i →
    c.inner n i j = some (decide (j < limit i))

abbrev Arr.cells (w : Arr) : Set ℤ := Set.Ico w.a (w.a + w.n)

theorem sorts_of_rearranged {m m' : Mem} {a : ℤ} {n : ℕ}
    (h : Rearranged (Arr.mk a n).cells m m')
    (ho : ∀ i j, a ≤ i → i < j → j < a + n → m' i ≤ m' j) : Sorts m a n m' :=
  ⟨pairwise_slice.mpr ho, h.perm, fun _ hp => h.outside hp⟩

section Places
variable {m m' : Mem} {a k b : ℤ}

/-- From `k` on the elements are in their places: none before them is greater. -/
def Final (m : Mem) (a k b : ℤ) : Prop := ∀ p q, a ≤ p → p < q → k ≤ q → q < b → m p ≤ m q

theorem Final.rearranged (h : Final m a k b)
    (hr : Rearranged (Set.Ico a k) m m') : Final m' a k b := by
  intro p q hp hpq hq hb
  rw [hr.outside (i := q) (by simp; omega)]
  rcases lt_or_ge p k with hpk | hpk
  · refine hr.all (P := (· ≤ m q)) (fun i hi => ?_) p ⟨hp, hpk⟩
    exact h i q hi.1 (by have := hi.2; omega) hq hb
  · rw [hr.outside (i := p) (by simp; omega)]
    exact h p q hp hpq hq hb

/-- The greatest of what is before the last places joins them. -/
theorem Final.extend (h : Final m a (k + 1) b)
    (hmax : ∀ p, a ≤ p → p ≤ k → m p ≤ m k) : Final m a k b := by
  intro p q hp hpq hq hb
  rcases eq_or_ne q k with rfl | hne
  · exact hmax p hp hpq.le
  · exact h p q hp hpq (by omega) hb

def First (m : Mem) (a k b : ℤ) : Prop := ∀ p q, a ≤ p → p < k → p < q → q < b → m p ≤ m q

theorem First.rearranged (h : First m a k b) (hr : Rearranged (Set.Ico k b) m m') :
    First m' a k b := by
  intro p q hp hk hpq hq
  rw [hr.outside (i := p) (by simp; omega)]
  rcases lt_or_ge q k with hqk | hqk
  · rw [hr.outside (i := q) (by simp; omega)]
    exact h p q hp hk hpq hq
  · refine hr.all (P := (m p ≤ ·)) (fun i hi => ?_) q ⟨hqk, hq⟩
    exact h p i hp hk (by have := hi.1; omega) hi.2

theorem First.extend (h : First m a k b) (hmin : ∀ q, k ≤ q → q < b → m k ≤ m q) :
    First m a (k + 1) b := by
  intro p q hp hk hpq hq
  rcases eq_or_ne p k with rfl | hne
  · exact hmin q hpq.le hq
  · exact h p q hp (by omega) hpq hq

end Places

section Order
variable {m : Mem} {p q r : ℤ}

/-- The smaller of two elements goes to `p`, the greater one to `q`. -/
def order (m : Mem) (p q : ℤ) : Mem :=
  if m q < m p then Function.update (Function.update m p (m q)) q (m p) else m

theorem order_right (m : Mem) (p q : ℤ) : order m p q q = max (m p) (m q) := by
  unfold order
  split
  · rename_i hlt
    rw [Function.update_self, max_eq_left hlt.le]
  · rename_i hge
    rw [max_eq_right (not_lt.mp hge)]

theorem order_left (hne : p ≠ q) : order m p q p = min (m p) (m q) := by
  unfold order
  split
  · rename_i hlt
    rw [Function.update_of_ne hne, Function.update_self, min_eq_right hlt.le]
  · rename_i hge
    rw [min_eq_left (not_lt.mp hge)]

theorem order_of_ne (hp : r ≠ p) (hq : r ≠ q) : order m p q r = m r := by
  unfold order
  split
  · rw [Function.update_of_ne hq, Function.update_of_ne hp]
  · rfl

theorem rearranged_order {W : Set ℤ} (m : Mem) (hp : p ∈ W) (hq : q ∈ W) :
    Rearranged W m (order m p q) := by
  unfold order
  split
  · exact .swap m hp hq
  · exact .refl W m

end Order

namespace Arr

variable {w : Arr} {m : Mem} {p q v : ℤ}

@[simp] theorem load_eq (h : w.Has p) : w.load m p = some (m p) := if_pos h

@[simp] theorem store_eq (h : w.Has p) : w.store m p v = some (Function.update m p v) := if_pos h

theorem load_eq_some {x : ℤ} : w.load m p = some x ↔ w.Has p ∧ m p = x := by
  unfold load
  split <;> simp_all

@[simp] theorem swap_eq (hp : w.Has p) (hq : w.Has q) :
    w.swap m p q = some (Function.update (Function.update m p (m q)) q (m p)) := by
  simp [swap, hp, hq]

theorem swap_comm (hp : w.Has p) (hq : w.Has q) : w.swap m p q = w.swap m q p := by
  rw [swap_eq hp hq, swap_eq hq hp]
  rcases eq_or_ne p q with rfl | hne
  · rfl
  · rw [Function.update_comm hne]

end Arr

end EmbeddedCode.ArraySort
