import Mathlib.Algebra.Order.Group.Int
import Mathlib.Data.Int.ConditionallyCompleteOrder
import Mathlib.Data.List.Nodup
import Mathlib.Data.List.Perm.Basic
import Mathlib.Data.List.Range
import Mathlib.Logic.Equiv.Basic
import Mathlib.Order.ConditionallyCompleteLattice.Basic
import Mathlib.Tactic.TypeStar

/-!
# Rearranging the cells of a memory

A memory is a function from cells to values. It is rearranged inside a set of cells when
its values change their places there, and nothing happens outside. A loop that shifts
values has one cell whose value it keeps aside: the memory with that cell filled again
is what is rearranged. The cells from an address on form a slice, a list, and a
rearranged slice is a permutation. The merge of two lists keeps the order of each.
-/
namespace EmbeddedCode.Rearrange

section
variable {ι α : Type*} {W W' : Set ι} {m m' m'' : ι → α} {i j : ι}

def Rearranged (W : Set ι) (m m' : ι → α) : Prop :=
  ∃ σ : Equiv.Perm ι, (∀ i, i ∉ W → σ i = i) ∧ m' = m ∘ σ

namespace Rearranged

theorem refl (W : Set ι) (m : ι → α) : Rearranged W m m := ⟨Equiv.refl ι, fun _ _ => rfl, rfl⟩

theorem trans (h : Rearranged W m m') (h' : Rearranged W m' m'') : Rearranged W m m'' := by
  obtain ⟨σ, hσ, rfl⟩ := h
  obtain ⟨τ, hτ, rfl⟩ := h'
  refine ⟨τ.trans σ, fun i hi => ?_, rfl⟩
  rw [Equiv.trans_apply, hτ i hi, hσ i hi]

theorem mono (h : Rearranged W m m') (hW : W ⊆ W') : Rearranged W' m m' := by
  obtain ⟨σ, hσ, rfl⟩ := h
  exact ⟨σ, fun i hi => hσ i fun hiW => hi (hW hiW), rfl⟩

theorem outside (h : Rearranged W m m') (hi : i ∉ W) : m' i = m i := by
  obtain ⟨σ, hσ, rfl⟩ := h
  exact congrArg m (hσ i hi)

/-- Every value inside has been somewhere inside. -/
theorem exists_eq (h : Rearranged W m m') (hi : i ∈ W) : ∃ j ∈ W, m' i = m j := by
  obtain ⟨σ, hσ, rfl⟩ := h
  refine ⟨σ i, ?_, rfl⟩
  by_contra hout
  have hfix : σ i = i := σ.injective (hσ (σ i) hout)
  rw [hfix] at hout
  exact hout hi

/-- What holds of all values inside holds of all values inside afterwards. -/
theorem all {P : α → Prop} (h : Rearranged W m m') (hP : ∀ i ∈ W, P (m i)) :
    ∀ i ∈ W, P (m' i) := by
  intro i hi
  obtain ⟨j, hj, heq⟩ := h.exists_eq hi
  rw [heq]
  exact hP j hj

section
variable [DecidableEq ι] {v : α}

theorem swap (m : ι → α) (hi : i ∈ W) (hj : j ∈ W) :
    Rearranged W m (Function.update (Function.update m i (m j)) j (m i)) := by
  refine ⟨Equiv.swap i j, fun k hk => ?_, ?_⟩
  · have hki : k ≠ i := fun heq => hk (heq ▸ hi)
    have hkj : k ≠ j := fun heq => hk (heq ▸ hj)
    exact Equiv.swap_apply_of_ne_of_ne hki hkj
  · funext k
    rw [Function.comp_apply, Equiv.swap_apply_def]
    rcases eq_or_ne k j with rfl | hkj
    · rcases eq_or_ne k i with rfl | hki
      · simp
      · simp [hki]
    · rcases eq_or_ne k i with rfl | hki
      · simp [hkj]
      · simp [hkj, hki]

/-- The value of a cell is taken aside. -/
theorem takeOut (W : Set ι) (m : ι → α) (i : ι) : Rearranged W m (Function.update m i (m i)) := by
  rw [Function.update_eq_self]
  exact refl W m

/-- The value `v` waits for a cell, first for `i`, and then for the cell whose value is
moved to `i`. -/
theorem shift (h : Rearranged W m (Function.update m' i v)) (hi : i ∈ W) (hj : j ∈ W) :
    Rearranged W m (Function.update (Function.update m' i (m' j)) j v) := by
  rcases eq_or_ne j i with rfl | hne
  · rwa [Function.update_idem]
  · have hswap := h.trans (swap (Function.update m' i v) hi hj)
    rwa [Function.update_of_ne hne, Function.update_self, Function.update_idem] at hswap

end

end Rearranged

end

section Slices
variable {α : Type*} {m m' : ℤ → α} {a : ℤ} {n : ℕ}

def slice (m : ℤ → α) (a : ℤ) (n : ℕ) : List α := (List.range n).map fun i : ℕ => m (a + i)

@[simp] theorem length_slice (m : ℤ → α) (a : ℤ) (n : ℕ) : (slice m a n).length = n := by
  simp [slice]

@[simp] theorem slice_zero (m : ℤ → α) (a : ℤ) : slice m a 0 = [] := rfl

theorem slice_succ (m : ℤ → α) (a : ℤ) (n : ℕ) :
    slice m a (n + 1) = slice m a n ++ [m (a + n)] := by
  simp [slice, List.range_succ]

theorem slice_cons (m : ℤ → α) (a : ℤ) (n : ℕ) : slice m a (n + 1) = m a :: slice m (a + 1) n := by
  simp [slice, List.range_succ_eq_map, Function.comp_def, add_assoc, add_comm (1 : ℤ)]

/-- A slice up to a fixed end loses its first element. -/
theorem slice_next (m : ℤ → α) (a : ℤ) {l k : ℕ} (h : l < k) :
    slice m (a + l) (k - l) = m (a + l) :: slice m (a + (l + 1 : ℕ)) (k - (l + 1)) := by
  obtain ⟨d, hd⟩ : ∃ d, k - l = d + 1 := ⟨k - l - 1, by omega⟩
  rw [hd, slice_cons, show k - (l + 1) = d by omega, show a + (l + 1 : ℕ) = a + l + 1 by omega]

theorem slice_add (m : ℤ → α) (a : ℤ) (n k : ℕ) :
    slice m a (n + k) = slice m a n ++ slice m (a + n) k := by
  simp [slice, List.range_add, add_assoc]

theorem slice_congr (h : ∀ i, a ≤ i → i < a + n → m' i = m i) : slice m' a n = slice m a n := by
  apply List.map_congr_left
  intro i hi
  rw [List.mem_range] at hi
  exact h (a + i) (by omega) (by omega)

theorem pairwise_slice {R : α → α → Prop} :
    (slice m a n).Pairwise R ↔ ∀ i j, a ≤ i → i < j → j < a + n → R (m i) (m j) := by
  rw [slice, List.pairwise_map]
  constructor
  · intro h i j hi hij hj
    rw [List.pairwise_iff_getElem] at h
    have hR := h (i - a).toNat (j - a).toNat (by simp; omega) (by simp; omega) (by omega)
    simp only [List.getElem_range] at hR
    rwa [show a + ((i - a).toNat : ℤ) = i by omega,
      show a + ((j - a).toNat : ℤ) = j by omega] at hR
  · intro h
    apply List.Pairwise.imp_of_mem _ List.pairwise_lt_range
    intro i j hi hj hij
    rw [List.mem_range] at hi hj
    exact h (a + i) (a + j) (by omega) (by omega) (by omega)

theorem Rearranged.perm (h : Rearranged (Set.Ico a (a + n)) m m') :
    (slice m' a n).Perm (slice m a n) := by
  obtain ⟨σ, hσ, rfl⟩ := h
  let cells : List ℤ := (List.range n).map fun i : ℕ => a + (i : ℤ)
  have hmem : ∀ i, i ∈ cells ↔ i ∈ Set.Ico a (a + n) := by
    intro i
    simp only [cells, List.mem_map, List.mem_range, Set.mem_Ico]
    constructor
    · rintro ⟨k, hk, rfl⟩
      exact ⟨by omega, by omega⟩
    · rintro ⟨hlow, hhigh⟩
      exact ⟨(i - a).toNat, by omega, by omega⟩
  have hnodup : cells.Nodup := List.nodup_range.map fun i j hij =>
    Int.ofNat_inj.mp (add_left_cancel hij)
  have hcells : (cells.map σ).Perm cells := by
    apply (List.perm_ext_iff_of_nodup (hnodup.map σ.injective) hnodup).mpr
    intro i
    rw [List.mem_map]
    constructor
    · rintro ⟨k, hk, rfl⟩
      by_contra hout
      have hfix : σ k = k := σ.injective (hσ (σ k) fun hin => hout ((hmem _).mpr hin))
      rw [hfix] at hout
      exact hout hk
    · intro hi
      refine ⟨σ.symm i, ?_, σ.apply_symm_apply i⟩
      by_contra hout
      have hfix := hσ (σ.symm i) fun hin => hout ((hmem _).mpr hin)
      rw [σ.apply_symm_apply] at hfix
      rw [← hfix] at hout
      exact hout hi
  have hslice : ∀ f : ℤ → α, slice f a n = cells.map f := fun f => by
    simp [slice, cells, List.map_map, Function.comp_def]
  rw [hslice, hslice, ← List.map_map]
  exact hcells.map m

end Slices

section Merge
variable {α : Type*} [LinearOrder α]

theorem sublist_merge_left (xs ys : List α) : xs.Sublist (xs.merge ys) := by
  induction xs generalizing ys with
  | nil => exact List.nil_sublist _
  | cons x xs ihx =>
      induction ys with
      | nil => simp
      | cons y ys ihy =>
          rw [List.cons_merge_cons]
          split
          · exact (ihx (y :: ys)).cons_cons x
          · exact ihy.cons y

theorem sublist_merge_right (xs ys : List α) : ys.Sublist (xs.merge ys) := by
  induction xs generalizing ys with
  | nil => simp
  | cons x xs ihx =>
      induction ys with
      | nil => exact List.nil_sublist _
      | cons y ys ihy =>
          rw [List.cons_merge_cons]
          split
          · exact (ihx (y :: ys)).cons x
          · exact ihy.cons_cons y

/-- A merge is sorted just when both lists are. -/
theorem pairwise_merge_iff {xs ys : List α} :
    (xs.merge ys).Pairwise (· ≤ ·) ↔ xs.Pairwise (· ≤ ·) ∧ ys.Pairwise (· ≤ ·) := by
  constructor
  · intro h
    exact ⟨h.sublist (sublist_merge_left xs ys), h.sublist (sublist_merge_right xs ys)⟩
  · rintro ⟨hx, hy⟩
    have htrans : ∀ x y z : α, decide (x ≤ y) = true → decide (y ≤ z) = true →
        decide (x ≤ z) = true := by
      intro x y z hxy hyz
      simpa using (of_decide_eq_true hxy).trans (of_decide_eq_true hyz)
    have htotal : ∀ x y : α, (decide (x ≤ y) || decide (y ≤ x)) = true := by
      intro x y
      simpa using le_total x y
    have hmerge := List.pairwise_merge htrans htotal xs ys (hx.imp (by simp)) (hy.imp (by simp))
    exact hmerge.imp (by simp)

end Merge

end EmbeddedCode.Rearrange
