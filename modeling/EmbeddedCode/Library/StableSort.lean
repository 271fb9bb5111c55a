import Mathlib.Data.Int.Order.Basic
import Mathlib.Data.List.Perm.Basic
import Mathlib.Tactic.TypeStar

/-!
# Stable sorting by a comparator

A comparator tells by the sign of its result how two elements are ordered. It is a total
preorder, and so different elements may be equal to it. Lists in the same order agree on
every class of equal elements. An exchange of neighbours of which the second one is less
keeps that order, and so does every rearrangement that is made of such exchanges.
-/
namespace EmbeddedCode.StableSort

variable {α : Type*} {cmp : α → α → ℤ} {a b c x y z : α} {us vs us' vs' xs ys zs : List α}

structure TotalPreorder (cmp : α → α → ℤ) : Prop where
  antisymm : ∀ a b, cmp a b < 0 ↔ 0 < cmp b a
  trans : ∀ a b c, cmp a b ≤ 0 → cmp b c ≤ 0 → cmp a c ≤ 0

namespace TotalPreorder

theorem le_of_not_le (hc : TotalPreorder cmp) (h : ¬ cmp a b ≤ 0) : cmp b a ≤ 0 := by
  have h' := hc.antisymm b a
  omega

theorem eq_self (hc : TotalPreorder cmp) (a : α) : cmp a a = 0 := by
  have h := hc.antisymm a a
  omega

theorem eq_symm (hc : TotalPreorder cmp) (h : cmp a b = 0) : cmp b a = 0 := by
  have h₁ := hc.antisymm a b
  have h₂ := hc.antisymm b a
  omega

theorem lt_of_le_of_lt (hc : TotalPreorder cmp) (hab : cmp a b ≤ 0) (hbc : cmp b c < 0) :
    cmp a c < 0 := by
  by_contra hac
  have hca : cmp c a ≤ 0 := by
    have h := hc.antisymm c a
    have h' := hc.antisymm a c
    omega
  have hcb := hc.trans c a b hca hab
  have h := (hc.antisymm b c).mp hbc
  omega

end TotalPreorder

/-- The difference of two keys. -/
theorem totalPreorder_sub (key : α → ℤ) : TotalPreorder fun a b => key a - key b where
  antisymm := fun a b => by omega
  trans := fun a b c hab hbc => by omega

/-- No element is less than one before it. -/
def Ordered (cmp : α → α → ℤ) (xs : List α) : Prop := xs.Pairwise fun a b => cmp a b ≤ 0

/-- Elements that are equal stand in the same order in both lists. -/
def SameOrder (cmp : α → α → ℤ) (xs ys : List α) : Prop :=
  ∀ a, ys.filter (cmp a · = 0) = xs.filter (cmp a · = 0)

namespace SameOrder

theorem refl (cmp : α → α → ℤ) (xs : List α) : SameOrder cmp xs xs := fun _ => rfl

theorem trans (h : SameOrder cmp xs ys) (h' : SameOrder cmp ys zs) : SameOrder cmp xs zs :=
  fun a => (h' a).trans (h a)

theorem append (h : SameOrder cmp us us') (h' : SameOrder cmp vs vs') :
    SameOrder cmp (us ++ vs) (us' ++ vs') := by
  intro a
  rw [List.filter_append, List.filter_append, h a, h' a]

theorem append_left (us : List α) (h : SameOrder cmp xs ys) :
    SameOrder cmp (us ++ xs) (us ++ ys) := (refl cmp us).append h

theorem cons (x : α) (h : SameOrder cmp xs ys) : SameOrder cmp (x :: xs) (x :: ys) :=
  h.append_left [x]

theorem exchange (hc : TotalPreorder cmp) (h : cmp y x < 0) (vs : List α) :
    SameOrder cmp (x :: y :: vs) (y :: x :: vs) := by
  intro a
  have hnot : ¬ (cmp a x = 0 ∧ cmp a y = 0) := by
    rintro ⟨hax, hay⟩
    have hxy := hc.trans x a y (le_of_eq (hc.eq_symm hax)) (le_of_eq hay)
    have hlt := (hc.antisymm y x).mp h
    omega
  by_cases hax : cmp a x = 0
  · have hay : ¬ cmp a y = 0 := fun hay => hnot ⟨hax, hay⟩
    simp [hax, hay]
  · simp [List.filter_cons, hax]

/-- An element moves behind some that are less. -/
theorem pass (hc : TotalPreorder cmp) (h : ∀ y ∈ us, cmp y x < 0) (vs : List α) :
    SameOrder cmp (x :: (us ++ vs)) (us ++ x :: vs) := by
  induction us with
  | nil => exact refl cmp _
  | cons y us ih =>
      rw [List.forall_mem_cons] at h
      exact (exchange hc h.1 (us ++ vs)).trans ((ih h.2).cons y)

theorem perm (hc : TotalPreorder cmp) (h : SameOrder cmp xs ys) : ys.Perm xs := by
  classical
  rw [List.perm_iff_count]
  intro a
  have hself : decide (cmp a a = 0) = true := decide_eq_true (hc.eq_self a)
  have hfilter : ∀ zs : List α, (zs.filter (cmp a · = 0)).count a = zs.count a := fun zs =>
    List.count_filter hself
  rw [← hfilter ys, h a, hfilter xs]

end SameOrder

/-- The elements are in order, and equal ones stand as they stood before. -/
structure StablySorted (cmp : α → α → ℤ) (xs ys : List α) : Prop where
  ordered : Ordered cmp ys
  sameOrder : SameOrder cmp xs ys

section Insertion

/-- Those elements of `us` that are greater than `c` move behind it. -/
def around (cmp : α → α → ℤ) (us : List α) (c : α) (vs : List α) : List α :=
  us.filter (cmp · c ≤ 0) ++ c :: (us.filter (0 < cmp · c) ++ vs)

theorem sameOrder_around (hc : TotalPreorder cmp) (us : List α) (c : α) (vs : List α) :
    SameOrder cmp (us ++ c :: vs) (around cmp us c vs) := by
  induction us with
  | nil => exact .refl cmp _
  | cons x us ih =>
      refine (ih.cons x).trans ?_
      rcases le_or_gt (cmp x c) 0 with hle | hgt
      · simp only [around, List.filter_cons, hle, not_lt.mpr hle, decide_true, decide_false,
          if_true]
        exact .refl cmp _
      · have hless : ∀ y ∈ us.filter (cmp · c ≤ 0) ++ [c], cmp y x < 0 := by
          intro y hy
          have hcx : cmp c x < 0 := (hc.antisymm c x).mpr hgt
          rcases List.mem_append.mp hy with hy | hy
          · have hyc := of_decide_eq_true (List.mem_filter.mp hy).2
            exact hc.lt_of_le_of_lt hyc hcx
          · rwa [List.mem_singleton.mp hy]
        have hpass := SameOrder.pass hc hless (us.filter (0 < cmp · c) ++ vs)
        simpa [around, List.filter_cons, hgt, not_le.mpr hgt] using hpass

/-- An element is inserted into what is in order. -/
theorem Ordered.around (hc : TotalPreorder cmp) (h : Ordered cmp us) (c : α) :
    Ordered cmp (around cmp us c []) := by
  have hleft : ∀ y ∈ us.filter (cmp · c ≤ 0), cmp y c ≤ 0 := fun y hy =>
    of_decide_eq_true (List.mem_filter.mp hy).2
  have hright : ∀ z ∈ us.filter (0 < cmp · c), cmp c z ≤ 0 := by
    intro z hz
    have hgt := of_decide_eq_true (List.mem_filter.mp hz).2
    exact hc.le_of_not_le (by omega)
  rw [StableSort.around, List.append_nil]
  refine List.pairwise_append.mpr ⟨h.filter _, List.pairwise_cons.mpr ⟨hright, h.filter _⟩, ?_⟩
  intro y hy z hz
  rcases List.mem_cons.mp hz with rfl | hz
  · exact hleft y hy
  · exact hc.trans y c z (hleft y hy) (hright z hz)

/-- What is in order has the greater elements at its end. -/
theorem Ordered.split (hc : TotalPreorder cmp) (h : Ordered cmp us) (c : α) :
    us.filter (cmp · c ≤ 0) ++ us.filter (0 < cmp · c) = us := by
  induction us with
  | nil => rfl
  | cons x us ih =>
      obtain ⟨hx, hus⟩ := List.pairwise_cons.mp h
      rcases le_or_gt (cmp x c) 0 with hle | hgt
      · simpa [List.filter_cons, hle, not_lt.mpr hle] using ih hus
      · have hall : ∀ y ∈ us, 0 < cmp y c := by
          intro y hy
          by_contra hyc
          have hxc := hc.trans x y c (hx y hy) (not_lt.mp hyc)
          omega
        have hleft : us.filter (cmp · c ≤ 0) = [] :=
          List.filter_eq_nil_iff.mpr fun y hy => by simpa using hall y hy
        have hright : us.filter (0 < cmp · c) = us :=
          List.filter_eq_self.mpr fun y hy => decide_eq_true (hall y hy)
        simp only [List.filter_cons, hgt, not_le.mpr hgt, decide_true, decide_false, if_true, hleft,
          hright]
        rfl

theorem filter_greater (h : ∀ y ∈ us, cmp y c ≤ 0) : us.filter (0 < cmp · c) = [] :=
  List.filter_eq_nil_iff.mpr fun y hy => by simpa using h y hy

/-- Nothing moves when the element is in its place. -/
theorem around_eq (h : ∀ y ∈ us, cmp y c ≤ 0) (vs : List α) :
    around cmp us c vs = us ++ c :: vs := by
  have hleft : us.filter (cmp · c ≤ 0) = us :=
    List.filter_eq_self.mpr fun y hy => decide_eq_true (h y hy)
  rw [around, hleft, filter_greater h, List.nil_append]

end Insertion

section Bubble

/-- The element exchanges its place with the first one of the list if that is less. -/
def exchange (cmp : α → α → ℤ) (x : α) : List α → List α
  | [] => [x]
  | y :: ys => if cmp y x < 0 then y :: x :: ys else x :: y :: ys

theorem sameOrder_exchange (hc : TotalPreorder cmp) (x : α) (ys : List α) :
    SameOrder cmp (x :: ys) (exchange cmp x ys) := by
  cases ys with
  | nil => exact .refl cmp _
  | cons y ys =>
      rw [exchange]
      split
      · rename_i hlt
        exact .exchange hc hlt ys
      · exact .refl cmp _

theorem sameOrder_exchanges (hc : TotalPreorder cmp) (us ys : List α) :
    SameOrder cmp (us ++ ys) (us.foldr (exchange cmp) ys) := by
  induction us with
  | nil => exact .refl cmp _
  | cons x us ih => exact (ih.cons x).trans (sameOrder_exchange hc x _)

/-- The first element is the least. -/
def Led (cmp : α → α → ℤ) (xs : List α) : Prop := ∃ y ys, xs = y :: ys ∧ ∀ z ∈ ys, cmp y z ≤ 0

theorem Led.exchange (hc : TotalPreorder cmp) (h : Led cmp ys) (x : α) :
    Led cmp (exchange cmp x ys) := by
  obtain ⟨y, ys, rfl, hy⟩ := h
  rw [StableSort.exchange]
  split
  · rename_i hlt
    exact ⟨y, x :: ys, rfl, List.forall_mem_cons.mpr ⟨Int.le_of_lt hlt, hy⟩⟩
  · rename_i hge
    have hxy : cmp x y ≤ 0 := by
      have h := hc.antisymm y x
      omega
    refine ⟨x, y :: ys, rfl, List.forall_mem_cons.mpr ⟨hxy, fun z hz => ?_⟩⟩
    exact hc.trans x y z hxy (hy z hz)

/-- Exchanges from the end to the beginning bring the least element there. -/
theorem Led.exchanges (hc : TotalPreorder cmp) (h : Led cmp ys) (us : List α) :
    Led cmp (us.foldr (StableSort.exchange cmp) ys) := by
  induction us with
  | nil => exact h
  | cons x us ih => exact ih.exchange hc x

end Bubble

section Settled

/-- The first elements are in order and in their places. -/
structure Settled (cmp : α → α → ℤ) (us vs : List α) : Prop where
  ordered : Ordered cmp us
  below : ∀ x ∈ us, ∀ y ∈ vs, cmp x y ≤ 0

theorem settled_nil (cmp : α → α → ℤ) (vs : List α) : Settled cmp [] vs :=
  ⟨List.Pairwise.nil, fun _ hx => absurd hx List.not_mem_nil⟩

/-- The least of the other elements joins them. -/
theorem Settled.next (h : Settled cmp us vs) (hperm : (y :: vs').Perm vs)
    (hy : ∀ z ∈ vs', cmp y z ≤ 0) : Settled cmp (us ++ [y]) vs' where
  ordered := by
    refine List.pairwise_append.mpr ⟨h.ordered, List.pairwise_singleton _ _, fun x hx z hz => ?_⟩
    rw [List.mem_singleton.mp hz]
    exact h.below x hx y (hperm.mem_iff.mp List.mem_cons_self)
  below := by
    intro x hx z hz
    rcases List.mem_append.mp hx with hx | hx
    · exact h.below x hx z (hperm.mem_iff.mp (List.mem_cons_of_mem y hz))
    · rw [List.mem_singleton.mp hx]
      exact hy z hz

theorem Settled.last (h : Settled cmp us [y]) : Ordered cmp (us ++ [y]) :=
  (h.next (.refl _) (fun _ hz => absurd hz List.not_mem_nil)).ordered

end Settled

end EmbeddedCode.StableSort
