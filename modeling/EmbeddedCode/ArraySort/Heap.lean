import EmbeddedCode.ArraySort.Sorted
import EmbeddedCode.Library.ImplicitHeap

/-!
# Heapsort

`adjust_tree` lets the element at `i` sink. It reads and writes the subtree at `i` only.
The first loop makes every subtree a heap, from the last parent up. The second one moves
the root behind the heap, and lets what came to the root sink.
-/
namespace EmbeddedCode.ArraySort

open CInt Loop Rearrange ImplicitHeap

/-- The elements of the array by their indices. -/
def elements (m : Mem) (a : ℤ) : ℤ → ℤ := fun i => m (a + i)

variable {a i j n : ℤ} {m m' : Mem}

@[simp] theorem elements_update (m : Mem) (a i v : ℤ) :
    elements (Function.update m (a + i) v) a = Function.update (elements m a) i v := by
  funext k
  simp only [elements, Function.update_apply, add_right_inj]

/-- The addresses of the elements in the subtree at `i`. -/
def subtree (a i n : ℤ) : Set ℤ := {p | Below i (p - a) ∧ p < a + n}

theorem mem_subtree {k : ℤ} : a + k ∈ subtree a i n ↔ Below i k ∧ k < n := by
  simp [subtree]

theorem subtree_subset (hi : 0 ≤ i) : subtree a i n ⊆ Set.Ico a (a + n) := by
  rintro p ⟨hbelow, hlt⟩
  have hle := hbelow.le hi
  exact ⟨by omega, hlt⟩

section Adjust

theorem adjustTurn_leaf (h : n ≤ j) : adjustTurn ⟨a, n⟩ (m, i, j) = some (.leave m) := by
  simp [adjustTurn, not_lt.mpr h]

/-- A turn with a child: the greater one is compared with the element. -/
theorem adjustTurn_eq (hi : 0 ≤ i) (hn : n ≤ intMax) (hj : 2 * i + 1 < n) {c : ℤ}
    (hc : c = greaterChild (elements m a) n i) :
    adjustTurn ⟨a, n⟩ (m, i, 2 * i + 1) =
      if m (a + i) < m (a + c) then
        some (.again (Function.update (Function.update m (a + i) (m (a + c))) (a + c) (m (a + i)),
          c, 2 * c + 1))
      else some (.leave m) := by
  simp only [intMax] at hn
  have hcn : c < n := hc ▸ greaterChild_lt hj
  have hic : i < c := (hc ▸ child_greaterChild (elements m a) n i : Child i c).lt hi
  have hsize : sizeT (2 * i + 1 + 1) = 2 * i + 2 := by
    rw [sizeT_of_lt] <;> omega
  have hnext : sizeT (c * 2 + 1) = 2 * c + 1 := by
    rw [sizeT_of_lt] <;> omega
  have hleft : (Arr.mk a n).Has (a + (2 * i + 1)) := Arr.has_index (by omega) hj
  have hp : (Arr.mk a n).Has (a + i) := Arr.has_index hi (by omega)
  have hq : (Arr.mk a n).Has (a + c) := Arr.has_index (by omega) hcn
  have hresult : ((Arr.mk a n).load m (a + i)).bind (fun x => ((Arr.mk a n).load m (a + c)).bind
      fun y => if x < y then ((Arr.mk a n).swap m (a + i) (a + c)).bind fun m =>
        some (Turn.again (m, c, sizeT (c * 2 + 1))) else some (.leave m)) =
      if m (a + i) < m (a + c) then
        some (.again (Function.update (Function.update m (a + i) (m (a + c))) (a + c) (m (a + i)),
          c, 2 * c + 1))
      else some (.leave m) := by
    simp only [Arr.load_eq hp, Arr.load_eq hq, Arr.swap_eq hp hq, Option.bind_some, hnext]
  rw [← hresult]
  by_cases hright : 2 * i + 2 < n
  · have hchosen : (if m (a + (2 * i + 1)) < m (a + (2 * i + 2)) then 2 * i + 2 else 2 * i + 1) =
        c := by
      simp [hc, greaterChild, elements, hright]
    simp only [adjustTurn, if_pos hj, hsize, if_pos hright, Option.bind_eq_bind,
      Arr.load_eq (Arr.has_index (by omega) hright), Arr.load_eq hleft, Option.bind_some,
      hchosen]
  · obtain rfl : 2 * i + 1 = c := by
      simp [hc, greaterChild, hright]
    simp only [adjustTurn, if_pos hj, hsize, if_neg hright, Option.bind_eq_bind, Option.bind_some]

theorem adjustTree_returns (hi : 0 ≤ i) (hfit : i < 2 ^ 63) (hn : n ≤ intMax)
    (hc : ∀ c, Child i c → ∀ k, Below c k → Heaped (elements m a) n k) :
    ∃ m', Returns (fun fuel => adjustTree fuel m a i n) m' ∧
      Rearranged (subtree a i n) m m' ∧ ∀ k, Below i k → Heaped (elements m' a) n k := by
  have hstart : sizeT (2 * i + 1) = 2 * i + 1 := sizeT_of_lt (by omega) (by omega)
  apply run_of_measure (I := fun s : Mem × ℤ × ℤ => s.2.2 = 2 * s.2.1 + 1 ∧
    Rearranged (subtree a i n) m s.1 ∧ Sinking (elements s.1 a) n i s.2.1)
    (fun s => (n - s.2.1).toNat)
  · rintro ⟨m', k, j⟩ ⟨hj, hr, hs⟩
    obtain rfl : j = 2 * k + 1 := hj
    simp only at hr hs
    have hk : 0 ≤ k := hi.trans (hs.below.le hi)
    rcases lt_or_ge (2 * k + 1) n with hchild | hleaf
    · have hturn := adjustTurn_eq (m := m') (a := a) hk hn hchild rfl
      generalize hgreat : greaterChild (elements m' a) n k = c at hturn
      have hbelow : Child k c := hgreat ▸ child_greaterChild _ _ _
      have hcn : c < n := hgreat ▸ greaterChild_lt hchild
      have hkc : k < c := hbelow.lt hk
      by_cases hless : m' (a + k) < m' (a + c)
      · rw [if_pos hless] at hturn
        refine .inl ⟨_, hturn, ⟨rfl, hr.trans (.swap m' ?_ ?_), ?_⟩, by simp only; omega⟩
        · exact mem_subtree.mpr ⟨hs.below, by omega⟩
        · exact mem_subtree.mpr ⟨hs.below.child hbelow, hcn⟩
        · rw [elements_update, elements_update]
          exact hs.next hi hgreat.symm hcn hless
      · rw [if_neg hless] at hturn
        refine .inr ⟨m', hturn, hr, hs.done fun d hd hdn => ?_⟩
        exact (le_greaterChild hd hdn).trans (hgreat ▸ not_lt.mp hless)
    · refine .inr ⟨m', adjustTurn_leaf hleaf, hr, hs.done fun d hd hdn => ?_⟩
      unfold Child at hd
      omega
  · exact ⟨hstart, .refl _ _, sinking_start hi hc⟩

/-- The loops run on memories that hold the same subtree. -/
structure SameSubtree (a i n : ℤ) (s t : Mem × ℤ × ℤ) : Prop where
  indices : t.2 = s.2
  left : s.2.2 = 2 * s.2.1 + 1
  below : Below i s.2.1
  same : ∀ p ∈ subtree a i n, t.1 p = s.1 p

theorem SameSubtree.greaterChild {k : ℤ} {m₁ : Mem} (hk : Below i k)
    (heq : ∀ p ∈ subtree a i n, m₁ p = m p) (hkn : 2 * k + 1 < n) :
    ImplicitHeap.greaterChild (elements m₁ a) n k =
      ImplicitHeap.greaterChild (elements m a) n k := by
  have hleft : m₁ (a + (2 * k + 1)) = m (a + (2 * k + 1)) :=
    heq _ (mem_subtree.mpr ⟨hk.child (.inl rfl), hkn⟩)
  unfold ImplicitHeap.greaterChild elements
  by_cases hright : 2 * k + 2 < n
  · rw [hleft, heq _ (mem_subtree.mpr ⟨hk.child (.inr rfl), hright⟩)]
  · simp [hright]

theorem SameSubtree.turn {s t : Mem × ℤ × ℤ} (h : SameSubtree a i n s t) (hi : 0 ≤ i)
    (hn : n ≤ intMax) :
    (∃ s' t', adjustTurn ⟨a, n⟩ s = some (.again s') ∧ adjustTurn ⟨a, n⟩ t = some (.again t') ∧
      SameSubtree a i n s' t') ∨
    adjustTurn ⟨a, n⟩ s = some (.leave s.1) ∧ adjustTurn ⟨a, n⟩ t = some (.leave t.1) := by
  obtain ⟨m, k, j⟩ := s
  obtain ⟨m₁, kj⟩ := t
  obtain ⟨rfl, hj, hk, heq⟩ := h
  obtain rfl : j = 2 * k + 1 := hj
  simp only at hk heq
  have hk₀ : 0 ≤ k := hi.trans (hk.le hi)
  rcases lt_or_ge (2 * k + 1) n with hchild | hleaf
  · have hturn := adjustTurn_eq (m := m) (a := a) hk₀ hn hchild rfl
    have hturn₁ := adjustTurn_eq (m := m₁) (a := a) hk₀ hn hchild rfl
    rw [SameSubtree.greaterChild hk heq hchild] at hturn₁
    generalize hgreat : ImplicitHeap.greaterChild (elements m a) n k = c at hturn hturn₁
    have hc : Child k c := hgreat ▸ child_greaterChild _ _ _
    have hcn : c < n := hgreat ▸ greaterChild_lt hchild
    have hkc : k < c := hc.lt hk₀
    have heqk : m₁ (a + k) = m (a + k) := heq _ (mem_subtree.mpr ⟨hk, hkc.trans hcn⟩)
    have heqc : m₁ (a + c) = m (a + c) := heq _ (mem_subtree.mpr ⟨hk.child hc, hcn⟩)
    rw [heqk, heqc] at hturn₁
    by_cases hless : m (a + k) < m (a + c)
    · rw [if_pos hless] at hturn hturn₁
      refine .inl ⟨_, _, hturn, hturn₁, rfl, rfl, hk.child hc, fun p hp => ?_⟩
      simp only [Function.update_apply, heq p hp]
    · rw [if_neg hless] at hturn hturn₁
      exact .inr ⟨hturn, hturn₁⟩
  · exact .inr ⟨adjustTurn_leaf hleaf, adjustTurn_leaf hleaf⟩

/-- What `adjust_tree` does to the subtree depends on nothing outside of it. -/
theorem adjustTree_local {m₁ : Mem} (hi : 0 ≤ i) (hfit : i < 2 ^ 63) (hn : n ≤ intMax)
    (heq : ∀ p ∈ subtree a i n, m₁ p = m p)
    (h : Returns (fun fuel => adjustTree fuel m a i n) m') :
    ∃ m₁', Returns (fun fuel => adjustTree fuel m₁ a i n) m₁' ∧
      ∀ p ∈ subtree a i n, m₁' p = m' p := by
  have hstart : sizeT (2 * i + 1) = 2 * i + 1 := sizeT_of_lt (by omega) (by omega)
  have hsame : SameSubtree a i n (m, i, sizeT (2 * i + 1)) (m₁, i, sizeT (2 * i + 1)) :=
    ⟨rfl, hstart, .self, heq⟩
  refine Returns.simulate (Q := fun (r r₁ : Mem) => ∀ p ∈ subtree a i n, r₁ p = r p) ?_ ?_ hsame h
  · intro s s' t hst hturn
    rcases hst.turn hi hn with ⟨s'', t', hs, ht, hst'⟩ | ⟨hs, -⟩
    · cases hs.symm.trans hturn
      exact ⟨t', ht, hst'⟩
    · cases hs.symm.trans hturn
  · intro s r t hst hturn
    rcases hst.turn hi hn with ⟨s'', t', hs, -, -⟩ | ⟨hs, ht⟩
    · cases hs.symm.trans hturn
    · cases hs.symm.trans hturn
      exact ⟨t.1, ht, hst.same⟩

end Adjust

section Heapsort

/-- Nothing changes outside of the subtree, so what is before it and beside it stays a heap. -/
theorem heaped_outside (hr : Rearranged (subtree a i n) m m') (hi : 0 ≤ i) {k : ℤ} (hik : i ≤ k)
    (hk : ¬ Below i k) (h : Heaped (elements m a) n k) : Heaped (elements m' a) n k := by
  have hout : ∀ c, ¬ Below i c → elements m' a c = elements m a c := fun c hc =>
    hr.outside fun hmem => hc (mem_subtree.mp hmem).1
  refine h.congr le_rfl (fun c hc _ => hout c ?_) (hi.trans hik)
  rcases hc with rfl | hc
  · exact hk
  · intro hbelow
    have hkc := hc.lt (hi.trans hik)
    exact hk (hbelow.parent (by omega) hc)

theorem build_returns {n : ℕ} (hn : (n : ℤ) ≤ intMax) (m : Mem) (a : ℤ) :
    ∃ m', Returns (fun fuel => run (buildTurn ⟨a, n⟩ fuel) fuel (m, (n : ℤ) / 2 - 1)) m' ∧
      Rearranged (Set.Ico a (a + n)) m m' ∧ ∀ k, 0 ≤ k → Heaped (elements m' a) n k := by
  apply returns_of_measure (I := fun s : Mem × ℤ => -1 ≤ s.2 ∧ s.2 ≤ n - 1 ∧
    Rearranged (Set.Ico a (a + n)) m s.1 ∧ ∀ k, s.2 < k → Heaped (elements s.1 a) n k)
    (fun s => (s.2 + 1).toNat)
  · rintro ⟨m', i⟩ ⟨hlow, hhigh, hr, hheaped⟩
    simp only at hlow hhigh hr hheaped
    rcases lt_or_ge i 0 with hneg | hi
    · refine .inr ⟨m', ⟨0, fun fuel _ => ?_⟩, hr, fun k hk => hheaped k (by omega)⟩
      simp only [buildTurn, if_neg (not_le.mpr hneg)]
    · have hchildren : ∀ c, Child i c → ∀ k, Below c k → Heaped (elements m' a) n k := by
        intro c hc k hk
        have hic := hc.lt hi
        have hck := hk.le (hi.trans hic.le)
        exact hheaped k (by omega)
      obtain ⟨m₁, ⟨t, hreturns⟩, hr₁, hheap⟩ :=
        adjustTree_returns hi (by simp only [intMax] at hn; omega) hn hchildren
      have hsize : sizeT i = i := by
        simp only [intMax] at hn
        exact sizeT_of_lt hi (by omega)
      have hnext : checked (i - 1) = some (i - 1) := checked_of_le (by omega) (by omega) hn
      refine .inl ⟨(m₁, i - 1), ⟨t, fun fuel hf => ?_⟩, ⟨by simp only; omega, by simp only; omega,
        hr.trans (hr₁.mono (subtree_subset hi)), fun k hk => ?_⟩, by simp only; omega⟩
      · simp [buildTurn, hi, hsize, hreturns fuel hf, hnext]
      · simp only at hk
        by_cases hbelow : Below i k
        · exact hheap k hbelow
        · have hne : k ≠ i := fun heq => hbelow (heq ▸ .self)
          exact heaped_outside hr₁ hi (by omega) hbelow (hheaped k (by omega))
  · refine ⟨by simp only; omega, by simp only; omega, .refl _ _, fun k hk c hc hcn => ?_⟩
    simp only at hk
    unfold Child at hc
    omega

theorem print_returns {n : ℕ} (hn : (n : ℤ) ≤ intMax) (m : Mem) (a : ℤ) :
    Returns (fun fuel => run (printTurn ⟨a, n⟩ m) fuel 0) () := by
  have hrun : ∃ r, Returns (fun fuel => run (printTurn ⟨a, n⟩ m) fuel 0) r ∧ True := by
    refine run_of_measure (I := fun k : ℤ => 0 ≤ k ∧ k ≤ n) (fun k => ((n : ℤ) - k).toNat)
      (fun k hk => ?_) ⟨le_rfl, by omega⟩
    obtain ⟨hlow, hhigh⟩ := hk
    have hsize : sizeT k = k := by
      simp only [intMax] at hn
      exact sizeT_of_lt hlow (by omega)
    rcases hhigh.lt_or_eq with hlt | rfl
    · have hp : (Arr.mk a n).Has (a + k) := Arr.has_index (by omega) (by omega)
      have hnext : checked (k + 1) = some (k + 1) := checked_of_le (by omega) (by omega) hn
      refine .inl ⟨k + 1, ?_, ⟨by omega, by omega⟩, by omega⟩
      simp [printTurn, hsize, hlt, hp, hnext]
    · exact .inr ⟨(), by simp [printTurn, hsize], trivial⟩
  exact hrun.choose_spec.1

/-- The heap has `i + 1` elements, and those behind it are in their places. -/
structure Heaping (m₀ : Mem) (a : ℤ) (n : ℕ) (s : Mem × ℤ) : Prop where
  low : -1 ≤ s.2
  high : s.2 ≤ n - 1
  rearranged : Rearranged (Set.Ico a (a + n)) m₀ s.1
  heaped : ∀ k, 0 ≤ k → Heaped (elements s.1 a) (s.2 + 1) k
  final : Final s.1 a (a + s.2 + 1) (a + n)

/-- After the exchange the subtrees below the root are heaps as before. -/
theorem Heaping.children {m₀ m₁ : Mem} {n : ℕ} (h : Heaping m₀ a n (m, i))
    (hm₁ : m₁ = Function.update (Function.update m (a + 0) (m (a + i))) (a + i) (m (a + 0)))
    (c : ℤ) (hc : Child 0 c) (k : ℤ) (hk : Below c k) : Heaped (elements m₁ a) i k := by
  have hpos : 0 < k := (hc.lt le_rfl).trans_le (hk.le (hc.lt le_rfl).le)
  refine (h.heaped k hpos.le).congr (by simp only; omega) (fun d hd hdi => ?_) hpos.le
  have hd₀ : 0 < d := by
    rcases hd with rfl | hd
    · exact hpos
    · exact hpos.trans (hd.lt hpos.le)
  rw [hm₁, elements_update, elements_update, Function.update_of_ne hdi.ne,
    Function.update_of_ne hd₀.ne']

/-- The root joins the elements in their places. What comes to the root may have to sink. -/
theorem Heaping.next {m₀ m₁ m₂ : Mem} {n : ℕ} (h : Heaping m₀ a n (m, i)) (hi : 0 < i)
    (hm₁ : m₁ = Function.update (Function.update m (a + 0) (m (a + i))) (a + i) (m (a + 0)))
    (hr : Rearranged (subtree a 0 i) m₁ m₂)
    (hheap : ∀ k, Below 0 k → Heaped (elements m₂ a) i k) : Heaping m₀ a n (m₂, i - 1) := by
  have hhigh : i ≤ n - 1 := h.high
  have hswap : ∀ b, i < b → Rearranged (Set.Ico a (a + b)) m m₁ := fun b hb =>
    hm₁ ▸ .swap m ⟨by omega, by omega⟩ ⟨by omega, by omega⟩
  have hadjust : ∀ b, i ≤ b → Rearranged (Set.Ico a (a + b)) m₁ m₂ := fun b hb =>
    hr.mono fun p hp => ⟨(subtree_subset le_rfl hp).1, by have := hp.2; omega⟩
  refine ⟨by simp only; omega, by simp only; omega, ?_, fun k hk => ?_, ?_⟩
  · exact h.rearranged.trans ((hswap n (by omega)).trans (hadjust n (by omega)))
  · obtain ⟨k, rfl⟩ := Int.eq_ofNat_of_zero_le hk
    simp only
    rw [sub_add_cancel]
    exact hheap k below_zero
  · simp only
    rw [show a + (i - 1) + 1 = a + i by omega]
    have hroot : ∀ p, a ≤ p → p ≤ a + i → m p ≤ m (a + 0) := by
      intro p hp hpi
      obtain ⟨k, rfl⟩ : ∃ k : ℕ, p = a + k := ⟨(p - a).toNat, by omega⟩
      exact le_root h.heaped (k := k) (by simp only; omega)
    refine Final.rearranged (Final.extend ?_ fun p hp hpi => ?_) (hadjust i le_rfl)
    · have hfinal := h.final.rearranged ((hswap (i + 1) (by omega)).mono fun p hp => ⟨hp.1, ?_⟩)
      · exact hfinal
      · have := hp.2
        simp only
        omega
    · have hlast : m₁ (a + i) = m (a + 0) := by rw [hm₁, Function.update_self]
      rw [hlast]
      refine (hswap (i + 1) (by omega)).all (P := (· ≤ m (a + 0))) (fun q hq => ?_) p
        ⟨hp, by omega⟩
      exact hroot q hq.1 (by have := hq.2; omega)

/-- A turn moves the root behind the heap, and the rest becomes a heap again. -/
theorem Heaping.turn {m : Mem} {a : ℤ} {n : ℕ} {m' : Mem} {i : ℤ} (h : Heaping m a n (m', i))
    (hn : (n : ℤ) ≤ intMax) (hi : 0 < i) :
    ∃ m₁, Returns (fun fuel => heapTurn ⟨a, n⟩ fuel (m', i)) (.again (m₁, i - 1)) ∧
      Heaping m a n (m₁, i - 1) := by
  have hhigh : i ≤ n - 1 := h.high
  have hp : (Arr.mk a n).Has (a + 0) := Arr.has_index (by omega) (by omega)
  have hq : (Arr.mk a n).Has (a + i) := Arr.has_index (by omega) (by omega)
  obtain ⟨m₂, hm₂⟩ : ∃ m₂, m₂ = Function.update (Function.update m' (a + 0) (m' (a + i)))
    (a + i) (m' (a + 0)) := ⟨_, rfl⟩
  have hswap : (Arr.mk a n).swap m' (a + 0) (a + i) = some m₂ := by
    rw [Arr.swap_eq hp hq, hm₂]
  obtain ⟨t, hprint⟩ := print_returns hn m₂ a
  obtain ⟨m₃, ⟨t', hadjust⟩, hr, hheap⟩ := adjustTree_returns (i := 0) (n := i) (m := m₂)
    (a := a) le_rfl (by decide) (by omega) (h.children hm₂)
  have hsize : sizeT i = i := by
    simp only [intMax] at hn
    exact sizeT_of_lt hi.le (by omega)
  have hnext : checked (i - 1) = some (i - 1) := checked_of_le (by omega) (by omega) hn
  refine ⟨m₃, ⟨t + t', fun fuel hf => ?_⟩, h.next hi hm₂ hr hheap⟩
  simp only [heapTurn, if_pos hi, hswap, hprint fuel (by omega), hsize,
    hadjust fuel (by omega), hnext, Option.bind_eq_bind, Option.bind_some]

theorem Heaping.returns {m : Mem} {a : ℤ} {n : ℕ} {s : Mem × ℤ} (h : Heaping m a n s)
    (hn : (n : ℤ) ≤ intMax) :
    ∃ m', Returns (fun fuel => run (heapTurn ⟨a, n⟩ fuel) fuel s) m' ∧ Sorts m a n m' := by
  refine returns_of_measure (fun s => s.2.toNat) (fun s hs => ?_) h
  obtain ⟨m', i⟩ := s
  have hlow : -1 ≤ i := hs.low
  rcases lt_or_ge 0 i with hi | hdone
  · obtain ⟨m₁, hturn, hs₁⟩ := hs.turn hn hi
    exact .inl ⟨(m₁, i - 1), hturn, hs₁, by simp only; omega⟩
  · refine .inr ⟨m', ⟨0, fun fuel _ => ?_⟩, sorts_of_rearranged hs.rearranged ?_⟩
    · simp only [heapTurn, if_neg (not_lt.mpr hdone)]
    · exact fun p q hp hpq hq => hs.final p q hp hpq (by simp only; omega) hq

theorem heapSort_returns {n : ℕ} (hn : (n : ℤ) ≤ intMax) (m : Mem) (a : ℤ) :
    ∃ m', Returns (fun fuel => heapSort fuel m a n) m' ∧ Sorts m a n m' := by
  have hstart : wrap (sizeT ((n : ℤ) / 2 - 1)) = (n : ℤ) / 2 - 1 := by
    apply wrap_sizeT
    simp only [Fits, intMin, intMax] at hn ⊢
    omega
  have hlast : wrap (sizeT ((n : ℤ) - 1)) = (n : ℤ) - 1 := by
    apply wrap_sizeT
    simp only [Fits, intMin, intMax] at hn ⊢
    omega
  obtain ⟨m₁, hbuild, hr₁, hheap₁⟩ := build_returns hn m a
  have hheaping : Heaping m a n (m₁, (n : ℤ) - 1) := by
    refine ⟨by simp only; omega, le_rfl, hr₁, fun k hk => ?_, fun p q hp hpq hq hqn => ?_⟩
    · simp only [sub_add_cancel]
      exact hheap₁ k hk
    · simp only at hq
      omega
  obtain ⟨m', hreturns, hsorts⟩ := hheaping.returns hn
  refine ⟨m', ?_, hsorts⟩
  have hboth := hbuild.andThen (g := fun fuel m => run (heapTurn ⟨a, n⟩ fuel) fuel (m, (n : ℤ) - 1))
    hreturns
  exact hboth.congr 0 fun fuel _ => by simp only [heapSort, hstart, hlast, Option.bind_eq_bind]

/-- `heap_sort` returns for every array and sorts it. `adjust_tree` makes the subtree at `i` a
heap when those of the children are, rearranges it, and depends on nothing outside of it. -/
theorem heapSort_sorts {n : ℕ} (hn : (n : ℤ) ≤ intMax) (a : ℤ) :
    (∀ m, ∃ m', Returns (fun fuel => heapSort fuel m a n) m' ∧ Sorts m a n m') ∧
    ∀ m i, 0 ≤ i → i < 2 ^ 63 →
      (∀ c, Child i c → ∀ k, Below c k → Heaped (elements m a) n k) →
      ∃ m', Returns (fun fuel => adjustTree fuel m a i n) m' ∧
        (∀ k, Below i k → Heaped (elements m' a) n k) ∧ Rearranged (subtree a i n) m m' ∧
        ∀ m₁, (∀ p ∈ subtree a i n, m₁ p = m p) →
          ∃ m₁', Returns (fun fuel => adjustTree fuel m₁ a i n) m₁' ∧
            ∀ p ∈ subtree a i n, m₁' p = m' p := by
  refine ⟨fun m => heapSort_returns hn m a, fun m i hi hfit hc => ?_⟩
  obtain ⟨m', hreturns, hr, hheap⟩ := adjustTree_returns hi hfit hn hc
  exact ⟨m', hreturns, hheap, hr, fun m₁ heq => adjustTree_local hi hfit hn heq hreturns⟩

theorem heapSort_sorts_four :
    (∃ m', Returns (fun fuel => heapSort fuel (ofList [1, 3, 2, 3]) 0 (4 : ℕ)) m' ∧
      Sorts (ofList [1, 3, 2, 3]) 0 4 m') ∧
    ∃ m', Returns (fun fuel => adjustTree fuel (ofList [1, 3, 2, 3]) 0 1 (4 : ℕ)) m' ∧
      ∀ k, Below 1 k → Heaped (elements m' 0) (4 : ℕ) k := by
  obtain ⟨hsort, hadjust⟩ := heapSort_sorts (n := 4) (by decide) 0
  have hleaves : ∀ c, Child 1 c → ∀ k, Below c k →
      Heaped (elements (ofList [1, 3, 2, 3]) 0) (4 : ℕ) k := by
    intro c hc k hk d hd hdn
    have hic : 1 < c := hc.lt (by decide)
    have hck : c ≤ k := hk.le (by omega)
    unfold Child at hc hd
    omega
  obtain ⟨m', hreturns, hheap, -⟩ :=
    hadjust (ofList [1, 3, 2, 3]) 1 (by decide) (by decide) hleaves
  exact ⟨hsort _, m', hreturns, hheap⟩

end Heapsort

end EmbeddedCode.ArraySort
