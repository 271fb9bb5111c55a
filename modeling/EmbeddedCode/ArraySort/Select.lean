import EmbeddedCode.ArraySort.Sorted

/-!
# Sorts that put the least element first

A round of `select_sort` looks for the least of the elements that are left and exchanges
it with the first of them. A round of `bubble_sort_small` brings it there by exchanges of
neighbours.
-/
namespace EmbeddedCode.ArraySort

open CInt Loop Rearrange

theorem first_start (m : Mem) (a b : ℤ) : First m a (a + 0) b := by
  intro p q hp hk _ _
  omega

theorem First.sorts {m₀ m : Mem} {a i : ℤ} {n : ℕ} (h : First m a (a + i) (a + n))
    (hi : n - 1 ≤ i) (hr : Rearranged (Set.Ico a (a + n)) m₀ m) : Sorts m₀ a n m := by
  exact sorts_of_rearranged hr fun p q hp hpq hq => h p q hp (by omega) hpq hq

section Select
variable {c : Conditions} {w : Arr} {exchange : Arr → Mem → ℤ → ℤ → Option Mem} {i : ℤ}

theorem selectInner_returns {n : ℕ} {a : ℤ}
    (hc : ∀ j : ℤ, 0 ≤ j → j ≤ n → c.inner n i j = some (decide (j < (n : ℤ)))) (hlow : 0 ≤ i)
    (hi : i < n) (hfit : (n : ℤ) ≤ intMax) (m : Mem) :
    ∃ min, Returns (fun fuel => run (selectInner c ⟨a, n⟩ m i) fuel (i, i + 1)) min ∧
      i ≤ min ∧ min < n ∧ ∀ p, a + i ≤ p → p < a + n → m (a + min) ≤ m p := by
  apply run_of_measure (I := fun s : ℤ × ℤ => i ≤ s.1 ∧ s.1 < s.2 ∧ s.2 ≤ n ∧
    ∀ p, a + i ≤ p → p < a + s.2 → m (a + s.1) ≤ m p) (fun s => ((n : ℤ) - s.2).toNat)
  · rintro ⟨min, j⟩ ⟨hmin, hlt, hj, hleast⟩
    simp only at hmin hlt hj hleast
    have hcj := hc j (by omega) hj
    rcases hj.lt_or_eq with hmore | rfl
    · have hp : (Arr.mk a n).Has (a + j) := Arr.has_index (by omega) (by omega)
      have hq : (Arr.mk a n).Has (a + min) := Arr.has_index (by omega) (by omega)
      have hnext : checked (j + 1) = some (j + 1) := checked_of_le (by omega) (by omega) hfit
      refine .inl ⟨(if m (a + j) < m (a + min) then j else min, j + 1), ?_, ?_, by omega⟩
      · simp [selectInner, hcj, hmore, hp, hq, hnext]
      · by_cases hless : m (a + j) < m (a + min)
        · simp only [if_pos hless]
          refine ⟨by omega, by omega, by omega, fun p hp hpj => ?_⟩
          rcases eq_or_ne p (a + j) with rfl | hne
          · exact le_rfl
          · exact hless.le.trans (hleast p hp (by omega))
        · simp only [if_neg hless]
          refine ⟨hmin, by omega, by omega, fun p hp hpj => ?_⟩
          rcases eq_or_ne p (a + j) with rfl | hne
          · exact not_lt.mp hless
          · exact hleast p hp (by omega)
    · exact .inr ⟨min, by simp [selectInner, hcj], hmin, hlt, hleast⟩
  · refine ⟨le_rfl, by simp only; omega, by simp only; omega, fun p hp hpi => ?_⟩
    obtain rfl : p = a + i := by simp only at hpi; omega
    exact le_rfl

theorem First.select {m : Mem} {a b i min : ℤ} (h : First m a (a + i) b)
    (hmin : i ≤ min) (hb : a + min < b) (hleast : ∀ p, a + i ≤ p → p < b → m (a + min) ≤ m p) :
    First (Function.update (Function.update m (a + min) (m (a + i))) (a + i) (m (a + min)))
      a (a + (i + 1)) b := by
  have hr : Rearranged (Set.Ico (a + i) b) m (Function.update (Function.update m (a + min)
      (m (a + i))) (a + i) (m (a + min))) := .swap m ⟨by omega, hb⟩ ⟨le_rfl, by omega⟩
  rw [← add_assoc]
  refine (h.rearranged hr).extend fun q hq hqb => ?_
  rw [Function.update_self]
  exact hr.all (P := (m (a + min) ≤ ·)) (fun p hp => hleast p hp.1 hp.2) q ⟨hq, hqb⟩

theorem select_sorts {n : ℕ} (hc : c.RunTo n fun _ => n)
    (hexchange : ∀ (w : Arr) (m : Mem) (min i : ℤ), w.Has (w.a + min) → w.Has (w.a + i) →
      exchange w m min i = some (Function.update (Function.update m (w.a + min) (m (w.a + i)))
        (w.a + i) (m (w.a + min))))
    (hpos : 1 ≤ n) (hfit : (n : ℤ) ≤ intMax) (m : Mem) (a : ℤ) :
    ∃ m', Returns (fun fuel => select c exchange fuel m a n) m' ∧ Sorts m a n m' := by
  apply returns_of_measure (I := fun s : Mem × ℤ => 0 ≤ s.2 ∧ s.2 ≤ n - 1 ∧
    Rearranged (Set.Ico a (a + n)) m s.1 ∧ First s.1 a (a + s.2) (a + n))
    (fun s => ((n : ℤ) - 1 - s.2).toNat)
  · rintro ⟨m', i⟩ ⟨hlow, hhigh, hr, hfirst⟩
    simp only at hlow hhigh hr hfirst
    have hci := hc.outer i hlow hhigh
    rcases hhigh.lt_or_eq with hlt | rfl
    · obtain ⟨min, ⟨k, hreturns⟩, hmin, hminn, hleast⟩ := selectInner_returns (a := a)
        (fun j hj hjn => hc.inner i j hlow hlt hj hjn) hlow (by omega) hfit m'
      have hnext : checked (i + 1) = some (i + 1) := checked_of_le (by omega) (by omega) hfit
      have hp : (Arr.mk a n).Has (a + min) := Arr.has_index (by omega) (by omega)
      have hq : (Arr.mk a n).Has (a + i) := Arr.has_index (by omega) (by omega)
      have hswap := hexchange ⟨a, n⟩ m' min i hp hq
      simp only at hswap
      refine .inl ⟨(Function.update (Function.update m' (a + min) (m' (a + i))) (a + i)
        (m' (a + min)), i + 1), ⟨k, fun fuel hf => ?_⟩, ⟨by simp only; omega, by simp only; omega,
        hr.trans (.swap m' hp hq), hfirst.select hmin (by omega) hleast⟩, by simp only; omega⟩
      have hreturns := hreturns fuel hf
      rcases eq_or_ne min i with rfl | hne
      · simp [selectOuter, hci, hlt, hnext, hreturns]
      · simp [selectOuter, hci, hlt, hnext, hreturns, hne, hswap]
    · exact .inr ⟨m', ⟨0, fun fuel _ => by simp [selectOuter, hci]⟩, hfirst.sorts le_rfl hr⟩
  · exact ⟨le_rfl, by simp only; omega, .refl _ _, first_start _ _ _⟩

theorem selectConditions_runTo {n : ℕ} (hpos : 1 ≤ n) (hn : n < 2 ^ 63) :
    selectConditions.RunTo n fun _ => n := by
  refine ⟨fun i hi hin => ?_, fun i j hi hin hj hjn => ?_⟩
  · simp only [selectConditions]
    rw [sizeT_of_lt (by omega) (by omega), sizeT_of_lt (by omega) (by omega)]
  · simp only [selectConditions]
    rw [sizeT_of_lt (by omega) (by omega)]

theorem zySelectConditions_runTo {n : ℕ} (hpos : 1 ≤ n) (hfit : (n : ℤ) ≤ intMax) :
    zySelectConditions.RunTo n fun _ => n := by
  have hlast : checked ((n : ℤ) - 1) = some ((n : ℤ) - 1) :=
    checked_of_le (by omega) (by omega) hfit
  refine ⟨fun i hi hin => by simp [zySelectConditions, hlast], fun i j hi hin hj hjn => ?_⟩
  have hiff : j ≤ (n : ℤ) - 1 ↔ j < n := Int.le_sub_one_iff
  simp [zySelectConditions, hlast, hiff]

theorem selectSort_returns {n : ℕ} (hpos : 1 ≤ n) (hfit : (n : ℤ) ≤ intMax) (m : Mem) (a : ℤ) :
    ∃ m', Returns (fun fuel => selectSort fuel m a n) m' ∧ Sorts m a n m' := by
  have hn : n < 2 ^ 63 := by
    simp only [intMax] at hfit
    omega
  exact select_sorts (selectConditions_runTo hpos hn) (fun _ _ _ _ hp hq => Arr.swap_eq hp hq)
    hpos hfit m a

theorem zySelectSort_returns {n : ℕ} (hpos : 1 ≤ n) (hfit : (n : ℤ) ≤ intMax) (m : Mem)
    (a : ℤ) : ∃ m', Returns (fun fuel => zySelectSort fuel m a n) m' ∧ Sorts m a n m' :=
  select_sorts (zySelectConditions_runTo hpos hfit)
    (fun _ _ _ _ hp hq => (Arr.swap_comm hq hp).trans (Arr.swap_eq hp hq)) hpos hfit m a

end Select

section Small
variable {w : Arr} {i j : ℤ}

theorem smallInner_again {m : Mem} (hlt : i < j) (hp : w.Has (w.a + (j - 1)))
    (hq : w.Has (w.a + j)) (hj : checked (j - 1) = some (j - 1)) :
    smallInner w i (m, j) = some (.again (order m (w.a + (j - 1)) (w.a + j), j - 1)) := by
  have hne : w.a + j ≠ w.a + (j - 1) := by omega
  by_cases hless : m (w.a + j) < m (w.a + (j - 1))
  · simp [smallInner, hlt, hp, hq, hj, hless, order, add_sub_assoc, Function.update_comm hne]
  · simp [smallInner, hlt, hp, hq, hj, hless, order]

/-- A round brings the least element from `i` on to `i`. -/
theorem smallInner_returns {n : ℕ} {a : ℤ} (hlow : 0 ≤ i) (hi : i < n) (hfit : (n : ℤ) ≤ intMax)
    (m : Mem) :
    ∃ m', Returns (fun fuel => run (smallInner ⟨a, n⟩ i) fuel (m, (n : ℤ) - 1)) m' ∧
      Rearranged (Set.Ico (a + i) (a + n)) m m' ∧
      ∀ q, a + i ≤ q → q < a + n → m' (a + i) ≤ m' q := by
  apply run_of_measure (I := fun s : Mem × ℤ => i ≤ s.2 ∧ s.2 ≤ n - 1 ∧
    Rearranged (Set.Ico (a + i) (a + n)) m s.1 ∧
    ∀ q, a + s.2 ≤ q → q < a + n → s.1 (a + s.2) ≤ s.1 q) (fun s => (s.2 - i).toNat)
  · rintro ⟨m', j⟩ ⟨hij, hj, hr, hleast⟩
    simp only at hij hj hr hleast
    rcases hij.lt_or_eq with hlt | rfl
    · have hp : (Arr.mk a n).Has (a + (j - 1)) := Arr.has_index (by omega) (by omega)
      have hq : (Arr.mk a n).Has (a + j) := Arr.has_index (by omega) (by omega)
      have hnext : checked (j - 1) = some (j - 1) := checked_of_le (by omega) (by omega) hfit
      refine .inl ⟨(order m' (a + (j - 1)) (a + j), j - 1), smallInner_again hlt hp hq hnext,
        ⟨by simp only; omega, by simp only; omega,
        hr.trans (rearranged_order m' ⟨by omega, by omega⟩ ⟨by omega, by omega⟩), ?_⟩,
        by simp only; omega⟩
      intro q hq hqn
      simp only at hq ⊢
      rw [order_left (by omega)]
      rcases lt_trichotomy q (a + j) with hqj | rfl | hqj
      · obtain rfl : q = a + (j - 1) := by omega
        rw [order_left (by omega)]
      · rw [order_right]
        exact min_le_max
      · rw [order_of_ne (by omega) (by omega)]
        exact (min_le_right _ _).trans (hleast q hqj.le hqn)
    · exact .inr ⟨m', by simp [smallInner], hr, hleast⟩
  · refine ⟨by simp only; omega, le_rfl, .refl _ _, fun q hq hqn => ?_⟩
    obtain rfl : q = a + ((n : ℤ) - 1) := by simp only at hq; omega
    exact le_rfl

theorem bubbleSortSmall_returns {n : ℕ} (hpos : 1 ≤ n) (hfit : (n : ℤ) ≤ intMax) (m : Mem)
    (a : ℤ) : ∃ m', Returns (fun fuel => bubbleSortSmall fuel m a n) m' ∧ Sorts m a n m' := by
  have hlast : checked ((n : ℤ) - 1) = some ((n : ℤ) - 1) :=
    checked_of_le (by omega) (by omega) hfit
  apply returns_of_measure (I := fun s : Mem × ℤ => 0 ≤ s.2 ∧ s.2 ≤ n - 1 ∧
    Rearranged (Set.Ico a (a + n)) m s.1 ∧ First s.1 a (a + s.2) (a + n))
    (fun s => ((n : ℤ) - 1 - s.2).toNat)
  · rintro ⟨m', i⟩ ⟨hlow, hhigh, hr, hfirst⟩
    simp only at hlow hhigh hr hfirst
    rcases hhigh.lt_or_eq with hlt | rfl
    · obtain ⟨m₁, ⟨k, hreturns⟩, hr₁, hleast⟩ := smallInner_returns (a := a) hlow (by omega) hfit m'
      have hnext : checked (i + 1) = some (i + 1) := checked_of_le (by omega) (by omega) hfit
      refine .inl ⟨(m₁, i + 1), ⟨k, fun fuel hf => ?_⟩, ⟨by simp only; omega, by simp only; omega,
        hr.trans (hr₁.mono fun p hp => ⟨by have := hp.1; omega, hp.2⟩), ?_⟩, by simp only; omega⟩
      · simp [smallOuter, hlast, hlt, hreturns fuel hf, hnext]
      · simp only
        rw [← add_assoc]
        exact (hfirst.rearranged hr₁).extend hleast
    · exact .inr ⟨m', ⟨0, fun fuel _ => by simp [smallOuter, hlast]⟩, hfirst.sorts le_rfl hr⟩
  · exact ⟨le_rfl, by simp only; omega, .refl _ _, first_start _ _ _⟩

end Small

end EmbeddedCode.ArraySort
