import EmbeddedCode.ArraySort.Sorted

/-!
# Insertion sort and Shell sort

An insertion takes an element aside and moves the greater ones that are `k`, `2k` and so on
before it up by `k`, so the array has a hole that moves down. A pass of insertions puts
elements that are `k` apart in order. `insert_sort` is the pass with `k = 1`, and the last
pass of `shell_sort`, which is the one that sorts.
-/
namespace EmbeddedCode.ArraySort

open CInt Loop Rearrange

/-- Elements that are `k` apart are in order. -/
def Gapped (m : Mem) (a k b : ℤ) : Prop := ∀ p, a ≤ p → p + k < b → m p ≤ m (p + k)

theorem Gapped.ordered {m : Mem} {a b : ℤ} (h : Gapped m a 1 b) (i j : ℤ) (hi : a ≤ i)
    (hij : i < j) (hj : j < b) : m i ≤ m j := by
  obtain ⟨d, rfl⟩ : ∃ d : ℕ, j = i + 1 + d := ⟨(j - (i + 1)).toNat, by omega⟩
  clear hij
  induction d with
  | zero =>
      rw [show i + 1 + ((0 : ℕ) : ℤ) = i + 1 by omega] at hj ⊢
      exact h i hi hj
  | succ d ih =>
      have hstep := h (i + 1 + d) (by omega) (by omega)
      rw [show i + 1 + ((d + 1 : ℕ) : ℤ) = i + 1 + d + 1 by omega]
      exact (ih (by omega)).trans hstep

variable {a k i j save : ℤ} {n : ℕ} {m m₀ : Mem}

/-- The hole is at `j + k`, and the elements above it up to `i` are greater than the one aside. -/
structure Hole (m₀ : Mem) (a k i save : ℤ) (s : Mem × ℤ) : Prop where
  low : -k ≤ s.2
  high : s.2 + k ≤ i
  filled : Rearranged (Set.Ico a (a + i + 1)) m₀ (Function.update s.1 (a + (s.2 + k)) save)
  apart : ∀ p, a ≤ p → p + k ≤ a + i → p ≠ a + s.2 → p ≠ a + (s.2 + k) → s.1 p ≤ s.1 (p + k)
  across : 0 ≤ s.2 → s.2 + k + k ≤ i → s.1 (a + s.2) ≤ s.1 (a + (s.2 + k) + k)
  above : s.2 + k + k ≤ i → save < s.1 (a + (s.2 + k) + k)

theorem hole_start (hk : 1 ≤ k) (hi : k ≤ i) (h : Gapped m a k (a + i)) :
    Hole m a k i (m (a + i)) (m, i - k) := by
  refine ⟨by simp only; omega, by simp only; omega, ?_, fun p hp hpi hne _ => ?_, ?_, ?_⟩
  · simp only
    rw [sub_add_cancel]
    exact .takeOut _ m _
  · simp only at hne
    exact h p hp (by omega)
  · simp only
    omega
  · simp only
    omega

theorem Hole.next (h : Hole m₀ a k i save (m, j)) (hk : 1 ≤ k) (hj : 0 ≤ j)
    (hless : save < m (a + j)) :
    Hole m₀ a k i save (Function.update m (a + (j + k)) (m (a + j)), j - k) := by
  have hhigh : j + k ≤ i := h.high
  refine ⟨by simp only; omega, by simp only; omega, ?_, fun p hp hpi hne hne' => ?_, ?_, ?_⟩
  · simp only
    rw [sub_add_cancel]
    exact h.filled.shift ⟨by simp only; omega, by simp only; omega⟩ ⟨by omega, by omega⟩
  · simp only [sub_add_cancel] at hne hne' ⊢
    rw [Function.update_of_ne (by omega) _ m (a := p + k)]
    rcases eq_or_ne p (a + (j + k)) with rfl | hneh
    · rw [Function.update_self]
      exact h.across hj (by omega)
    · rw [Function.update_of_ne hneh]
      exact h.apart p hp hpi hne' hneh
  · simp only [sub_add_cancel]
    intro hjk hle
    rw [Function.update_of_ne (by omega), show a + j + k = a + (j + k) by omega,
      Function.update_self]
    have hbefore := h.apart (a + (j - k)) (by omega) (by omega) (by simp only; omega)
      (by simp only; omega)
    rwa [show a + (j - k) + k = a + j by omega] at hbefore
  · simp only [sub_add_cancel]
    intro _
    rwa [show a + j + k = a + (j + k) by omega, Function.update_self]

/-- The element goes into the hole when the one before the hole is not greater. -/
theorem Hole.gapped (h : Hole m₀ a k i save (m, j)) (hk : 1 ≤ k)
    (hstop : 0 ≤ j → m (a + j) ≤ save) :
    Gapped (Function.update m (a + (j + k)) save) a k (a + (i + 1)) := by
  intro p hp hpi
  rcases eq_or_ne p (a + j) with rfl | hne
  · rw [Function.update_of_ne (by omega), add_assoc, Function.update_self]
    exact hstop (by omega)
  · rw [Function.update_of_ne (by omega) _ m (a := p + k)]
    rcases eq_or_ne p (a + (j + k)) with rfl | hneh
    · rw [Function.update_self]
      exact (h.above (by simp only; omega)).le
    · rw [Function.update_of_ne hneh]
      exact h.apart p hp (by omega) hne hneh

theorem gapInner_again (hj : 0 ≤ j) (hless : save < m (a + j)) (hp : (Arr.mk a n).Has (a + j))
    (hq : (Arr.mk a n).Has (a + (j + k))) (hjk : checked (j + k) = some (j + k))
    (hnext : checked (j - k) = some (j - k)) :
    gapInner ⟨a, n⟩ k save (m, j) =
      some (.again (Function.update m (a + (j + k)) (m (a + j)), j - k)) := by
  simp [gapInner, hj, hless, hp, hq, hjk, hnext]

theorem gapInner_leave (hp : 0 ≤ j → (Arr.mk a n).Has (a + j))
    (hstop : 0 ≤ j → m (a + j) ≤ save) :
    gapInner ⟨a, n⟩ k save (m, j) = some (.leave (m, j)) := by
  rcases lt_or_ge j 0 with hneg | hj
  · simp [gapInner, not_le.mpr hneg]
  · simp [gapInner, hj, hp hj, not_lt.mpr (hstop hj)]

theorem gapInner_returns (hk : 1 ≤ k) (hi : i < n) (hfit : (n : ℤ) ≤ intMax)
    (h : Hole m₀ a k i save (m, i - k)) :
    ∃ r, Returns (fun fuel => run (gapInner ⟨a, n⟩ k save) fuel (m, i - k)) r ∧
      Hole m₀ a k i save r ∧ (0 ≤ r.2 → r.1 (a + r.2) ≤ save) := by
  apply run_of_measure (fun s => (s.2 + k).toNat) (fun s hs => ?_) h
  obtain ⟨m', j⟩ := s
  have hlow : -k ≤ j := hs.low
  have hhigh : j + k ≤ i := hs.high
  have hp : 0 ≤ j → (Arr.mk a n).Has (a + j) := fun hj => Arr.has_index (by omega) (by omega)
  by_cases hmore : 0 ≤ j ∧ save < m' (a + j)
  · obtain ⟨hj, hless⟩ := hmore
    have hq : (Arr.mk a n).Has (a + (j + k)) := Arr.has_index (by omega) (by omega)
    refine .inl ⟨_, gapInner_again hj hless (hp hj) hq ?_ ?_, hs.next hk hj hless, ?_⟩
    · exact checked_of_le (by omega) (by omega) hfit
    · exact checked_of_le (by omega) (by omega) hfit
    · simp only
      omega
  · have hstop : 0 ≤ j → m' (a + j) ≤ save := fun hj => not_lt.mp fun hless => hmore ⟨hj, hless⟩
    exact .inr ⟨(m', j), gapInner_leave hp hstop, hs, hstop⟩

theorem gapSort_returns (hk : 1 ≤ k) (hkn : k ≤ n) (hfit : (n : ℤ) ≤ intMax) (m : Mem) (a : ℤ) :
    ∃ m', Returns (fun fuel => gapSort ⟨a, n⟩ k fuel m) m' ∧
      Rearranged (Set.Ico a (a + n)) m m' ∧ Gapped m' a k (a + n) := by
  apply returns_of_measure (I := fun s : Mem × ℤ => k ≤ s.2 ∧ s.2 ≤ n ∧
    Rearranged (Set.Ico a (a + n)) m s.1 ∧ Gapped s.1 a k (a + s.2))
    (fun s => ((n : ℤ) - s.2).toNat)
  · rintro ⟨m', i⟩ ⟨hlow, hhigh, hr, hgapped⟩
    simp only at hlow hhigh hr hgapped
    have hsize : sizeT i = i := by
      simp only [intMax] at hfit
      exact sizeT_of_lt (by omega) (by omega)
    rcases hhigh.lt_or_eq with hlt | rfl
    · obtain ⟨⟨m₁, j⟩, ⟨t, hreturns⟩, hhole, hstop⟩ :=
        gapInner_returns hk hlt hfit (hole_start hk hlow hgapped)
      have hjlow : -k ≤ j := hhole.low
      have hjhigh : j + k ≤ i := hhole.high
      have hp : (Arr.mk a n).Has (a + i) := Arr.has_index (by omega) (by omega)
      have hq : (Arr.mk a n).Has (a + (j + k)) := Arr.has_index (by omega) (by omega)
      have hstart : checked (i - k) = some (i - k) := checked_of_le (by omega) (by omega) hfit
      have hjk : checked (j + k) = some (j + k) := checked_of_le (by omega) (by omega) hfit
      have hnext : checked (i + 1) = some (i + 1) := checked_of_le (by omega) (by omega) hfit
      refine .inl ⟨(Function.update m₁ (a + (j + k)) (m' (a + i)), i + 1), ⟨t, fun fuel hf => ?_⟩,
        ⟨by simp only; omega, by simp only; omega, ?_, hhole.gapped hk hstop⟩, by simp only; omega⟩
      · simp [gapOuter, hsize, hlt, hp, hq, hstart, hreturns fuel hf, hjk, hnext]
      · exact hr.trans (hhole.filled.mono fun p hp => ⟨hp.1, by have := hp.2; omega⟩)
    · refine .inr ⟨m', ⟨0, fun fuel _ => by simp [gapOuter, hsize]⟩, hr, hgapped⟩
  · exact ⟨le_rfl, hkn, .refl _ _, fun p hp hpk => by simp only at hpk; omega⟩

theorem insertSort_returns (hpos : 1 ≤ n) (hfit : (n : ℤ) ≤ intMax) (m : Mem) (a : ℤ) :
    ∃ m', Returns (fun fuel => insertSort fuel m a n) m' ∧ Sorts m a n m' := by
  obtain ⟨m', hreturns, hr, hgapped⟩ := gapSort_returns le_rfl (by omega) hfit m a
  exact ⟨m', hreturns, sorts_of_rearranged hr hgapped.ordered⟩

/-- `shell_sort` returns for every array and sorts it. -/
theorem shellSort_sorts (hfit : (n : ℤ) ≤ intMax) (m : Mem) (a : ℤ) :
    ∃ m', Returns (fun fuel => shellSort fuel m a n) m' ∧ Sorts m a n m' := by
  have hstart : wrap (n / 2) = n / 2 := by
    apply wrap_fits
    simp only [Fits, intMin, intMax] at hfit ⊢
    omega
  apply returns_of_measure (I := fun s : Mem × ℤ => 0 ≤ s.2 ∧ s.2 ≤ n ∧
    Rearranged (Set.Ico a (a + n)) m s.1 ∧ (1 ≤ s.2 ∨ Gapped s.1 a 1 (a + n))) (fun s => s.2.toNat)
  · rintro ⟨m', k⟩ ⟨hlow, hhigh, hr, hgapped⟩
    simp only at hlow hhigh hr hgapped
    rcases lt_or_ge k 1 with hzero | hk
    · have hgapped : Gapped m' a 1 (a + n) := hgapped.resolve_left (not_le.mpr hzero)
      refine .inr ⟨m', ⟨0, fun fuel _ => ?_⟩, sorts_of_rearranged hr hgapped.ordered⟩
      simp only [shellTurn, if_neg (not_le.mpr hzero)]
    · obtain ⟨m₁, ⟨t, hreturns⟩, hr₁, hgapped₁⟩ := gapSort_returns hk hhigh hfit m' a
      refine .inl ⟨(m₁, k / 2), ⟨t, fun fuel hf => ?_⟩, ⟨by simp only; omega, by simp only; omega,
        hr.trans hr₁, ?_⟩, by simp only; omega⟩
      · simp [shellTurn, hk, hreturns fuel hf]
      · rcases hk.lt_or_eq with hmore | rfl
        · exact .inl (by simp only; omega)
        · exact .inr hgapped₁
  · refine ⟨by simp only [hstart]; omega, by simp only [hstart]; omega, .refl _ _, ?_⟩
    rcases Nat.lt_or_ge 1 n with hlarge | hsmall
    · exact .inl (by simp only [hstart]; omega)
    · exact .inr fun p hp hpn => by omega

theorem shellSort_sorts_five : ∃ m',
    Returns (fun fuel => shellSort fuel (ofList [3, 1, 3, -2, 0]) 0 (5 : ℕ)) m' ∧
      Sorts (ofList [3, 1, 3, -2, 0]) 0 5 m' :=
  shellSort_sorts (by decide) _ 0

end EmbeddedCode.ArraySort
