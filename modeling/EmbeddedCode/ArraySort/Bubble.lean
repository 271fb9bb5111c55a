import EmbeddedCode.ArraySort.Sorted
import Mathlib.Tactic.Linarith
import Mathlib.Tactic.LinearCombination
import Mathlib.Tactic.Ring

/-!
# Bubble sort

A round moves the greatest of the elements that are left to their end. Whatever the files
differ in, the loop conditions and the counter, enters as an assumption on them. In
`1227/sort.c` the last turn of the first round compares with the element behind the array.
-/
namespace EmbeddedCode.ArraySort

open CInt Loop Rearrange

section Round
variable {c : Conditions} {tick : ℤ → Option ℤ} {w : Arr} {n i j last count count' : ℤ}
  {m m' : Mem} {counts : ℕ → ℤ} {t : ℕ}

theorem bubbleInner_again (hc : c.inner n i j = some true) (htick : tick count = some count')
    (hp : w.Has (w.a + j)) (hq : w.Has (w.a + j + 1)) (hj : Fits (j + 1)) :
    bubbleInner c tick w n i (m, j, count) =
      some (.again (order m (w.a + j) (w.a + j + 1), j + 1, count')) := by
  have hj1 : checked (j + 1) = some (j + 1) := checked_eq_some.mpr ⟨hj, rfl⟩
  by_cases hlt : m (w.a + j + 1) < m (w.a + j) <;>
    simp [bubbleInner, hc, htick, hp, hq, hj1, order, hlt]

theorem bubbleInner_some {s : Turn (Mem × ℤ × ℤ) (Mem × ℤ)}
    (h : bubbleInner c tick w n i (m, j, count) = some s) :
    (c.inner n i j = some false ∧ s = .leave (m, count)) ∨
    ∃ count', c.inner n i j = some true ∧ tick count = some count' ∧ w.Has (w.a + j) ∧
      w.Has (w.a + j + 1) ∧ Fits (j + 1) ∧
      s = .again (order m (w.a + j) (w.a + j + 1), j + 1, count') := by
  simp only [bubbleInner, Option.bind_eq_bind, Option.bind_eq_some_iff] at h
  obtain ⟨more, hmore, h⟩ := h
  cases more with
  | false =>
      cases h
      exact .inl ⟨hmore, rfl⟩
  | true =>
      simp only [if_true, Option.bind_eq_some_iff, Arr.load_eq_some] at h
      obtain ⟨count', htick, x, ⟨hp, rfl⟩, y, ⟨hq, rfl⟩, h⟩ := h
      refine .inr ⟨count', hmore, htick, hp, hq, ?_⟩
      by_cases hlt : m (w.a + j + 1) < m (w.a + j)
      · simp only [if_pos hlt, Arr.swap_eq hp hq, Option.bind_some, Option.bind_eq_some_iff,
          checked_eq_some] at h
        obtain ⟨j', ⟨hj, rfl⟩, h⟩ := h
        cases h
        exact ⟨hj, by rw [order, if_pos hlt]⟩
      · simp only [if_neg hlt, Option.bind_some, Option.bind_eq_some_iff, checked_eq_some] at h
        obtain ⟨j', ⟨hj, rfl⟩, h⟩ := h
        cases h
        exact ⟨hj, by rw [order, if_neg hlt]⟩

theorem bubbleOuter_some {fuel : ℕ} {s : Turn (Mem × ℤ × ℤ) Mem}
    (h : bubbleOuter c tick w n fuel (m, i, count) = some s) :
    (c.outer n i = some false ∧ s = .leave m) ∨
    ∃ r, c.outer n i = some true ∧ run (bubbleInner c tick w n i) fuel (m, 0, count) = some r ∧
      s = .again (r.1, i + 1, r.2) := by
  simp only [bubbleOuter, Option.bind_eq_bind, Option.bind_eq_some_iff] at h
  obtain ⟨more, hmore, h⟩ := h
  cases more with
  | false =>
      cases h
      exact .inl ⟨hmore, rfl⟩
  | true =>
      simp only [if_true, Option.bind_eq_some_iff, checked_eq_some] at h
      obtain ⟨r, hr, i', ⟨_, rfl⟩, h⟩ := h
      cases h
      exact .inr ⟨r, hmore, hr, rfl⟩

/-- Within a round, the greatest element so far is at `j`. The counter passes the values
`counts`. -/
structure Round (w : Arr) (last : ℤ) (m₀ : Mem) (counts : ℕ → ℤ) (t : ℕ) (s : Mem × ℤ × ℤ) :
    Prop where
  low : 0 ≤ s.2.1
  high : s.2.1 ≤ last
  rearranged : Rearranged (Set.Ico w.a (w.a + last + 1)) m₀ s.1
  greatest : ∀ p, w.a ≤ p → p ≤ w.a + s.2.1 → s.1 p ≤ s.1 (w.a + s.2.1)
  count : s.2.2 = counts (t + s.2.1.toNat)

theorem Round.next {m₀ : Mem} (h : Round w last m₀ counts t (m, j, count)) (hlt : j < last) :
    Round w last m₀ counts t
      (order m (w.a + j) (w.a + j + 1), j + 1, counts (t + (j.toNat + 1))) := by
  have hj : 0 ≤ j := h.low
  refine ⟨by simp only; omega, by simp only; omega, ?_, ?_, ?_⟩
  · exact h.rearranged.trans (rearranged_order m ⟨by omega, by omega⟩ ⟨by omega, by omega⟩)
  · intro p hp hpj
    simp only at hpj ⊢
    rw [← add_assoc] at hpj ⊢
    rw [order_right]
    rcases lt_trichotomy p (w.a + j) with hlt | rfl | hgt
    · rw [order_of_ne (by omega) (by omega)]
      exact (h.greatest p hp hlt.le).trans (le_max_left _ _)
    · rw [order_left (by omega)]
      exact min_le_max
    · obtain rfl : p = w.a + j + 1 := by omega
      rw [order_right]
  · simp only
    congr 2
    omega

theorem bubbleInner_returns
    (hc : ∀ j, 0 ≤ j → j ≤ last → c.inner n i j = some (decide (j < last))) (hlast : 0 ≤ last)
    (hw : last < w.n) (hfit : last ≤ intMax)
    (htick : ∀ j : ℕ, j < last → tick (counts (t + j)) = some (counts (t + (j + 1)))) (m : Mem) :
    ∃ m', Returns (fun fuel => run (bubbleInner c tick w n i) fuel (m, 0, counts t))
        (m', counts (t + last.toNat)) ∧
      Rearranged (Set.Ico w.a (w.a + last + 1)) m m' ∧
      ∀ p, w.a ≤ p → p ≤ w.a + last → m' p ≤ m' (w.a + last) := by
  have hstart : Round w last m counts t (m, 0, counts t) := by
    refine ⟨le_rfl, hlast, .refl _ _, fun p hp hpa => ?_, rfl⟩
    obtain rfl : p = w.a + 0 := le_antisymm hpa (by simpa using hp)
    exact le_rfl
  have hrun : ∃ r, Returns (fun fuel => run (bubbleInner c tick w n i) fuel (m, 0, counts t)) r ∧
      Round w last m counts t (r.1, last, r.2) := by
    refine run_of_measure (fun s => (last - s.2.1).toNat) (fun s hs => ?_) hstart
    obtain ⟨m', j, count⟩ := s
    have hlow : 0 ≤ j := hs.low
    have hhigh : j ≤ last := hs.high
    have hcj := hc j hlow hhigh
    rcases hhigh.lt_or_eq with hlt | rfl
    · obtain rfl : count = counts (t + j.toNat) := hs.count
      have htick := htick j.toNat (by omega)
      have hfits : Fits (j + 1) := by
        simp only [Fits, intMin, intMax] at hfit ⊢
        omega
      refine .inl ⟨_, bubbleInner_again (by simp [hcj, hlt]) htick ⟨by omega, by omega⟩
        ⟨by omega, by omega⟩ hfits, hs.next hlt, by simp only; omega⟩
    · exact .inr ⟨(m', count), by simp [bubbleInner, hcj], hs⟩
  obtain ⟨⟨m', count⟩, hreturns, hround⟩ := hrun
  obtain rfl : count = counts (t + last.toNat) := hround.count
  exact ⟨m', hreturns, hround.rearranged, hround.greatest⟩

end Round

section Rounds
variable {c : Conditions} {tick : ℤ → Option ℤ} {counts : ℕ → ℤ} {m₀ m m' : Mem} {a i : ℤ}
  {n t : ℕ}

/-- Between the rounds. Twice the comparisons so far and those to come add up. -/
structure Rounds (m₀ : Mem) (a : ℤ) (n : ℕ) (counts : ℕ → ℤ) (s : Mem × ℤ × ℤ) : Prop where
  low : 0 ≤ s.2.1
  high : s.2.1 ≤ n - 1
  rearranged : Rearranged (Set.Ico a (a + n)) m₀ s.1
  final : Final s.1 a (a + n - s.2.1) (a + n)
  count : ∃ t : ℕ, s.2.2 = counts t ∧ 2 * (t : ℤ) + (n - 1 - s.2.1) * (n - s.2.1) = n * (n - 1)

theorem Rounds.next (h : Rounds m₀ a n counts (m, i, counts t)) (hi : i < n - 1)
    (ht : 2 * (t : ℤ) + (n - 1 - i) * (n - i) = n * (n - 1))
    (hr : Rearranged (Set.Ico a (a + (n - 1 - i) + 1)) m m')
    (hmax : ∀ p, a ≤ p → p ≤ a + (n - 1 - i) → m' p ≤ m' (a + (n - 1 - i))) :
    Rounds m₀ a n counts (m', i + 1, counts (t + (n - 1 - i).toNat)) := by
  have hlow : 0 ≤ i := h.low
  have hfinal : Final m a (a + (n - 1 - i) + 1) (a + n) := by
    rw [show a + (n - 1 - i) + 1 = a + n - i by omega]
    exact h.final
  refine ⟨by simp only; omega, by simp only; omega, h.rearranged.trans (hr.mono ?_), ?_, ?_⟩
  · exact fun p hp => ⟨hp.1, by have := hp.2; omega⟩
  · simp only
    rw [show a + n - (i + 1) = a + (n - 1 - i) by omega]
    exact (hfinal.rearranged hr).extend hmax
  · refine ⟨t + (n - 1 - i).toNat, rfl, ?_⟩
    simp only
    push_cast
    rw [Int.toNat_of_nonneg (by omega)]
    linear_combination ht

/-- `j` comparisons into a round, the counter has not reached the last one. -/
theorem two_mul_count_le {t j n : ℤ} (last : ℤ) (hlast : 1 ≤ last) (hj : j < last)
    (ht : 2 * t + last * (last + 1) = n * (n - 1)) : 2 * (t + j) + 2 ≤ n * (n - 1) := by
  nlinarith

theorem bubble_sorts (counts : ℕ → ℤ) (hc : c.RunTo n fun i => n - 1 - i) (hpos : 1 ≤ n)
    (hfit : (n : ℤ) ≤ intMax) (hzero : counts 0 = 0)
    (htick : ∀ t : ℕ, 2 * (t : ℤ) + 2 ≤ n * (n - 1) → tick (counts t) = some (counts (t + 1)))
    (m : Mem) (a : ℤ) :
    ∃ m', Returns (fun fuel => bubble c tick fuel m a n) m' ∧ Sorts m a n m' := by
  have hstart : Rounds m a n counts (m, 0, 0) := by
    refine ⟨le_rfl, by simp only; omega, .refl _ _, fun p q _ _ hq hb => ?_, 0, hzero.symm, ?_⟩
    · simp only at hq
      omega
    · simp only
      ring
  apply returns_of_measure (fun s => ((n : ℤ) - 1 - s.2.1).toNat) (fun s hs => ?_) hstart
  obtain ⟨m', i, count⟩ := s
  have hlow : 0 ≤ i := hs.low
  have hhigh : i ≤ n - 1 := hs.high
  have hci := hc.outer i hlow hhigh
  rcases hhigh.lt_or_eq with hlt | rfl
  · obtain ⟨t, rfl, ht⟩ := id hs.count
    have hticks : ∀ j : ℕ, j < n - 1 - i → tick (counts (t + j)) = some (counts (t + (j + 1))) := by
      intro j hj
      apply htick
      push_cast
      exact two_mul_count_le (n - 1 - i) (by omega) hj (by linear_combination ht)
    obtain ⟨m₁, ⟨k, hreturns⟩, hr, hmax⟩ := bubbleInner_returns (w := ⟨a, n⟩)
      (fun j hj hjl => hc.inner i j hlow hlt hj hjl) (by omega) (by simp only; omega) (by omega)
      hticks m'
    have hnext : checked (i + 1) = some (i + 1) := checked_of_le (by omega) (by omega) hfit
    refine .inl ⟨_, ⟨k, fun fuel hf => ?_⟩, hs.next hlt ht hr hmax, by simp only; omega⟩
    simp [bubbleOuter, hci, hlt, hreturns fuel hf, hnext]
  · refine .inr ⟨m', ⟨0, fun fuel _ => by simp [bubbleOuter, hci]⟩, ?_⟩
    refine sorts_of_rearranged hs.rearranged fun p q hp hpq hq => ?_
    exact hs.final p q hp hpq (by simp only; omega) hq

end Rounds

section Members
variable {n : ℕ}

theorem mysortConditions_runTo (hpos : 1 ≤ n) (hn : n < 2 ^ 63) :
    mysortConditions.RunTo n fun i => n - 1 - i := by
  refine ⟨fun i hi hin => ?_, fun i j hi hin hj hjn => ?_⟩
  · simp only [mysortConditions]
    rw [sizeT_of_lt (by omega) (by omega), sizeT_of_lt (by omega) (by omega)]
  · simp only [mysortConditions]
    rw [sizeT_of_lt (by omega) (by omega), sizeT_of_lt (by omega) (by omega)]

theorem zyBubbleConditions_runTo (hpos : 1 ≤ n) (hfit : (n : ℤ) ≤ intMax) :
    zyBubbleConditions.RunTo n fun i => n - 1 - i := by
  have hlast : checked ((n : ℤ) - 1) = some ((n : ℤ) - 1) :=
    checked_of_le (by omega) (by omega) hfit
  refine ⟨fun i hi hin => ?_, fun i j hi hin hj hjn => ?_⟩
  · simp [zyBubbleConditions, hlast]
  · have hbound : checked ((n : ℤ) - 1 - i) = some ((n : ℤ) - 1 - i) :=
      checked_of_le (by omega) (by omega) hfit
    simp [zyBubbleConditions, hlast, hbound]

theorem zyBubbleSort_returns (hpos : 1 ≤ n) (hfit : (n : ℤ) ≤ intMax) (m : Mem) (a : ℤ) :
    ∃ m', Returns (fun fuel => zyBubbleSort fuel m a n) m' ∧ Sorts m a n m' :=
  bubble_sorts (fun _ => 0) (zyBubbleConditions_runTo hpos hfit) hpos hfit rfl
    (fun _ _ => rfl) m a

/-- The counter of `mysort` wraps, and the array is sorted all the same. -/
theorem mysortBubbleSort_returns (hpos : 1 ≤ n) (hfit : (n : ℤ) ≤ intMax) (m : Mem) (a : ℤ) :
    ∃ m', Returns (fun fuel => mysortBubbleSort fuel m a n) m' ∧ Sorts m a n m' := by
  have hn : n < 2 ^ 63 := by
    simp only [intMax] at hfit
    omega
  refine bubble_sorts (fun t => wrap t) (mysortConditions_runTo hpos hn) hpos hfit rfl
    (fun t _ => ?_) m a
  simp only [wrap_add_left]
  push_cast
  rfl

end Members

section Overrun
variable {n : ℕ}

/-- A round that compares up to the element behind the array does not end. -/
theorem bubbleInner_overrun {m : Mem} {a : ℤ} (hlarge : 2 ≤ n) (hn : n < 2 ^ 64) {fuel : ℕ}
    {r : Mem × ℤ} :
    run (bubbleInner bubbleConditions some ⟨a, n⟩ n 0) fuel (m, 0, 0) ≠ some r := by
  intro h
  apply run_some (I := fun s : Mem × ℤ × ℤ => 0 ≤ s.2.1 ∧ s.2.1 ≤ n - 1) (Q := fun _ => False)
    _ _ _ h
  · rintro ⟨m, j, count⟩ s ⟨hlow, hhigh⟩ hturn
    rcases bubbleInner_some hturn with ⟨-, heq⟩ | ⟨count', -, -, -, hhas, -, heq⟩
    · cases heq
    · cases heq
      have hlt := hhas.2
      simp only at hlow hlt ⊢
      omega
  · rintro ⟨m, j, count⟩ s ⟨hlow, hhigh⟩ hturn
    rcases bubbleInner_some hturn with ⟨hmore, -⟩ | ⟨count', -, -, -, -, -, heq⟩
    · simp only at hlow hhigh
      simp only [bubbleConditions, sub_zero, Option.some.injEq, decide_eq_false_iff_not] at hmore
      rw [sizeT_of_lt (by omega) (by omega), sizeT_of_lt (by omega) (by omega)] at hmore
      exact hmore hhigh
    · cases heq
  · exact ⟨le_rfl, by simp only; omega⟩

theorem bubbleSort_overrun {a : ℤ} (hlarge : 2 ≤ n) (hn : n < 2 ^ 64) (fuel : ℕ) (m : Mem) :
    bubbleSort fuel m a n = none := by
  cases fuel with
  | zero => rfl
  | succ fuel =>
      cases hturn : bubbleOuter bubbleConditions some ⟨a, n⟩ n (fuel + 1) (m, 0, 0) with
      | none => simp only [bubbleSort, bubble, bubbleIn, run, hturn]
      | some s =>
          rcases bubbleOuter_some hturn with ⟨hmore, -⟩ | ⟨r, -, hr, -⟩
          · simp only [bubbleConditions, Option.some.injEq, decide_eq_false_iff_not] at hmore
            rw [sizeT_of_lt (by omega) (by omega), sizeT_of_lt (by omega) (by omega)] at hmore
            omega
          · exact absurd hr (bubbleInner_overrun hlarge hn)

/-- `bubble_sort` of `1227/sort.c` keeps to the array, and sorts it, exactly for one element. -/
theorem bubbleSort_iff (m : Mem) (a : ℤ) (hpos : 1 ≤ n) (hn : n < 2 ^ 64) :
    (∃ m', Returns (fun fuel => bubbleSort fuel m a n) m' ∧ Sorts m a n m') ↔ n = 1 := by
  constructor
  · rintro ⟨m', ⟨k, hk⟩, -⟩
    by_contra hne
    have hnone := bubbleSort_overrun (a := a) (by omega) hn k m
    cases hnone.symm.trans (hk k le_rfl)
  · rintro rfl
    refine ⟨m, ⟨1, fun fuel hf => ?_⟩, sorts_of_rearranged (.refl _ _) fun i j _ _ _ => by omega⟩
    obtain ⟨fuel, rfl⟩ : ∃ k, fuel = k + 1 := ⟨fuel - 1, by omega⟩
    rfl

theorem bubbleSort_iff_one : ∃ m', Returns (fun fuel => bubbleSort fuel (ofList [7]) 0 1) m' ∧
    Sorts (ofList [7]) 0 1 m' :=
  (bubbleSort_iff (n := 1) (ofList [7]) 0 le_rfl (by decide)).mpr rfl

/-- The element behind the array is compared with, and where it can be accessed and is the
least, it takes a place in the array. -/
theorem bubbleSort_pulls : (∀ fuel, bubbleSort fuel (ofList [1, 2]) 0 2 = none) ∧
    (bubbleIn bubbleConditions some ⟨0, 3⟩ 2 4 (ofList [1, 2, 0])).map (slice · 0 2) =
      some [1, 0] :=
  ⟨fun fuel => bubbleSort_overrun (n := 2) le_rfl (by decide) fuel _, by decide⟩

end Overrun

end EmbeddedCode.ArraySort
