import EmbeddedCode.ArraySort.Sorted

/-!
# Quicksort

The partition keeps the pivot aside in `save`, and one element of the array is a hole:
the array with the pivot in the hole is a rearrangement of what it was. Below `pl` no
element is above the pivot, and above `pr` none is below it, so the hole ends where the
pivot belongs. A call rearranges its own part of the array, and so the bounds that the
partition establishes survive the recursive calls.
-/
namespace EmbeddedCode.ArraySort

open CInt Loop Rearrange

section Scans
variable {go : ℤ → Option Bool} {P : ℤ → Prop} [DecidablePred P] {lo hi : ℤ}

/-- A pointer that moves up stops at the limit, or at the first place where `P` fails. -/
theorem move_up (hgo : ∀ p, lo ≤ p → p ≤ hi → go p = some (decide (p < hi ∧ P p)))
    (hle : lo ≤ hi) :
    ∃ r, Returns (fun fuel => run (moveTurn go 1) fuel lo) r ∧
      lo ≤ r ∧ r ≤ hi ∧ (∀ q, lo ≤ q → q < r → P q) ∧ (r < hi → ¬ P r) := by
  apply run_of_measure (I := fun p => lo ≤ p ∧ p ≤ hi ∧ ∀ q, lo ≤ q → q < p → P q)
    (fun p => (hi - p).toNat)
  · rintro p ⟨hlow, hhigh, hpassed⟩
    by_cases hmore : p < hi ∧ P p
    · refine .inl ⟨p + 1, by simp [moveTurn, hgo p hlow hhigh, hmore], ?_, by omega⟩
      refine ⟨by omega, by omega, fun q hq hqp => ?_⟩
      rcases eq_or_ne q p with rfl | hne
      · exact hmore.2
      · exact hpassed q hq (by omega)
    · refine .inr ⟨p, by simp [moveTurn, hgo p hlow hhigh, hmore], hlow, hhigh, hpassed, ?_⟩
      exact fun hlt hP => hmore ⟨hlt, hP⟩
  · exact ⟨le_rfl, hle, fun q hq hlt => absurd hlt (not_lt.mpr hq)⟩

theorem move_down (hgo : ∀ p, lo ≤ p → p ≤ hi → go p = some (decide (lo < p ∧ P p)))
    (hle : lo ≤ hi) :
    ∃ r, Returns (fun fuel => run (moveTurn go (-1)) fuel hi) r ∧
      lo ≤ r ∧ r ≤ hi ∧ (∀ q, r < q → q ≤ hi → P q) ∧ (lo < r → ¬ P r) := by
  apply run_of_measure (I := fun p => lo ≤ p ∧ p ≤ hi ∧ ∀ q, p < q → q ≤ hi → P q)
    (fun p => (p - lo).toNat)
  · rintro p ⟨hlow, hhigh, hpassed⟩
    by_cases hmore : lo < p ∧ P p
    · refine .inl ⟨p + -1, by simp [moveTurn, hgo p hlow hhigh, hmore], ?_, by omega⟩
      refine ⟨by omega, by omega, fun q hq hqp => ?_⟩
      rcases eq_or_ne q p with rfl | hne
      · exact hmore.2
      · exact hpassed q (by omega) hqp
    · refine .inr ⟨p, by simp [moveTurn, hgo p hlow hhigh, hmore], hlow, hhigh, hpassed, ?_⟩
      exact fun hlt hP => hmore ⟨hlt, hP⟩
  · exact ⟨hle, le_rfl, fun q hq hlt => absurd hlt (not_le.mpr hq)⟩

end Scans

variable {w : Arr} {m₀ m : Mem} {save h pl pr : ℤ}

/-- The hole is at `h`. What is below `pl` and above `pr` is on its side of the pivot. -/
structure Parted (w : Arr) (m₀ m : Mem) (save h pl pr : ℤ) : Prop where
  filled : Rearranged w.cells m₀ (Function.update m h save)
  low : w.a ≤ pl
  le : pl ≤ pr
  high : pr < w.a + w.n
  below : ∀ p, w.a ≤ p → p < pl → m p ≤ save
  above : ∀ p, pr < p → p < w.a + w.n → save ≤ m p

namespace Parted

theorem has_left (hp : Parted w m₀ m save h pl pr) : w.Has pl :=
  ⟨hp.low, lt_of_le_of_lt hp.le hp.high⟩

theorem has_right (hp : Parted w m₀ m save h pl pr) : w.Has pr := ⟨hp.low.trans hp.le, hp.high⟩

theorem raise {pl' : ℤ} (hp : Parted w m₀ m save h pl pr) (hlow : pl ≤ pl') (hle : pl' ≤ pr)
    (hscan : ∀ p, pl ≤ p → p < pl' → m p ≤ save) : Parted w m₀ m save h pl' pr where
  filled := hp.filled
  low := hp.low.trans hlow
  le := hle
  high := hp.high
  below p hlow hlt := by
    rcases lt_or_ge p pl with hp' | hp'
    · exact hp.below p hlow hp'
    · exact hscan p hp' hlt
  above := hp.above

theorem lower {pr' : ℤ} (hp : Parted w m₀ m save h pl pr) (hhigh : pr' ≤ pr) (hle : pl ≤ pr')
    (hscan : ∀ p, pr' < p → p ≤ pr → save ≤ m p) : Parted w m₀ m save h pl pr' where
  filled := hp.filled
  low := hp.low
  le := hle
  high := lt_of_le_of_lt hhigh hp.high
  below := hp.below
  above p hlt hhigh := by
    rcases lt_or_ge pr p with hp' | hp'
    · exact hp.above p hp' hhigh
    · exact hscan p hlt hp'

/-- An element from the right fills the hole on the left. -/
theorem fillLeft (hp : Parted w m₀ m save pl pl pr) (hlt : pl < pr) (hm : m pr ≤ save) :
    Parted w m₀ (Function.update m pl (m pr)) save pr (pl + 1) pr where
  filled := hp.filled.shift hp.has_left hp.has_right
  low := by
    have := hp.low
    omega
  le := hlt
  high := hp.high
  below p hlow hp' := by
    rcases eq_or_ne p pl with rfl | hne
    · rwa [Function.update_self]
    · rw [Function.update_of_ne hne]
      exact hp.below p hlow (by omega)
  above p hp' hhigh := by
    rw [Function.update_of_ne (by omega)]
    exact hp.above p hp' hhigh

theorem fillRight (hp : Parted w m₀ m save pr pl pr) (hlt : pl < pr) (hm : save ≤ m pl) :
    Parted w m₀ (Function.update m pr (m pl)) save pl pl (pr - 1) where
  filled := hp.filled.shift hp.has_right hp.has_left
  low := hp.low
  le := by omega
  high := by
    have := hp.high
    omega
  below p hlow hp' := by
    rw [Function.update_of_ne (by omega)]
    exact hp.below p hlow hp'
  above p hp' hhigh := by
    rcases eq_or_ne p pr with rfl | hne
    · rwa [Function.update_self]
    · rw [Function.update_of_ne hne]
      exact hp.above p (by omega) hhigh

theorem scanRight (hp : Parted w m₀ m save h pl pr) :
    ∃ pr', Returns (fun fuel => run (ArraySort.scanRight w m save pl) fuel pr) pr' ∧ pr' ≤ pr ∧
      Parted w m₀ m save h pl pr' ∧ (pl < pr' → m pr' ≤ save) := by
  have hgo : ∀ p, pl ≤ p → p ≤ pr →
      (if pl < p then (w.load m p).map fun x => decide (save < x) else some false) =
        some (decide (pl < p ∧ save < m p)) := by
    intro p hlow hhigh
    have hhas : w.Has p := ⟨hp.low.trans hlow, lt_of_le_of_lt hhigh hp.high⟩
    by_cases hlt : pl < p <;> simp [hlt, hhas]
  obtain ⟨r, hr, hlow, hhigh, hscan, hstop⟩ := move_down hgo hp.le
  refine ⟨r, hr, hhigh, ?_, fun hlt => not_lt.mp (hstop hlt)⟩
  exact hp.lower hhigh hlow fun p hlt hle => (hscan p hlt hle).le

theorem scanLeft (hp : Parted w m₀ m save h pl pr) :
    ∃ pl', Returns (fun fuel => run (ArraySort.scanLeft w m save pr) fuel pl) pl' ∧ pl ≤ pl' ∧
      Parted w m₀ m save h pl' pr ∧ (pl' < pr → save ≤ m pl') := by
  have hgo : ∀ p, pl ≤ p → p ≤ pr →
      (if p < pr then (w.load m p).map fun x => decide (x < save) else some false) =
        some (decide (p < pr ∧ m p < save)) := by
    intro p hlow hhigh
    have hhas : w.Has p := ⟨hp.low.trans hlow, lt_of_le_of_lt hhigh hp.high⟩
    by_cases hlt : p < pr <;> simp [hlt, hhas]
  obtain ⟨r, hr, hlow, hhigh, hscan, hstop⟩ := move_up hgo hp.le
  refine ⟨r, hr, hlow, ?_, fun hlt => not_lt.mp (hstop hlt)⟩
  exact hp.raise hlow hhigh fun p hlt hle => (hscan p hlt hle).le

theorem partition (hp : Parted w m₀ m save pl pl pr) :
    ∃ r, Returns (fun fuel => run (partitionTurn w save fuel) fuel (m, pl, pr)) r ∧
      Parted w m₀ r.1 save r.2 r.2 r.2 := by
  apply returns_of_measure (I := fun s => Parted w m₀ s.1 save s.2.1 s.2.1 s.2.2)
    (fun s => (s.2.2 - s.2.1).toNat) _ hp
  rintro ⟨m, pl, pr⟩ hp
  simp only at hp
  obtain ⟨pr₁, ⟨n₁, h₁⟩, hdown, hp₁, hstop₁⟩ := hp.scanRight
  by_cases hlt₁ : pl < pr₁
  · have hp₂ := hp₁.fillLeft hlt₁ (hstop₁ hlt₁)
    generalize hm₁ : Function.update m pl (m pr₁) = m₁ at hp₂
    obtain ⟨pl₁, ⟨n₂, h₂⟩, hup, hp₃, hstop₂⟩ := hp₂.scanLeft
    by_cases hlt₂ : pl₁ < pr₁
    · have hp₄ := hp₃.fillRight hlt₂ (hstop₂ hlt₂)
      refine .inl ⟨(Function.update m₁ pr₁ (m₁ pl₁), pl₁, pr₁ - 1),
        ⟨n₁ + n₂, fun fuel hf => ?_⟩, hp₄, by simp only; omega⟩
      simp only [partitionTurn, h₁ fuel (by omega), h₂ fuel (by omega), hlt₁, hlt₂, if_true,
        Option.bind_eq_bind, Option.bind_some, Arr.load_eq hp₁.has_right,
        Arr.store_eq hp₁.has_left, hm₁, Arr.load_eq hp₃.has_left, Arr.store_eq hp₃.has_right]
    · have hle := hp₃.le
      obtain rfl : pl₁ = pr₁ := by omega
      refine .inr ⟨(m₁, pl₁), ⟨n₁ + n₂, fun fuel hf => ?_⟩, hp₃⟩
      simp only [partitionTurn, h₁ fuel (by omega), h₂ fuel (by omega), hlt₁, hlt₂, if_true,
        if_false, Option.bind_eq_bind, Option.bind_some, Arr.load_eq hp₁.has_right,
        Arr.store_eq hp₁.has_left, hm₁]
  · have hle := hp₁.le
    obtain rfl : pl = pr₁ := by omega
    refine .inr ⟨(m, pl), ⟨n₁, fun fuel hf => ?_⟩, hp₁⟩
    simp only [partitionTurn, h₁ fuel hf, hlt₁, if_false, Option.bind_eq_bind, Option.bind_some]

end Parted

/-- Before the partition: the pivot is aside, and the hole is at the first element that is not
below it. -/
theorem parted_start {p pl : ℤ} (hp : w.Has p) (hlow : w.a ≤ pl) (hle : pl ≤ p)
    (hscan : ∀ q, w.a ≤ q → q < pl → m q < m p) :
    Parted w m (if pl < p then Function.update m p (m pl) else m) (m p) pl pl
      (w.a + w.n - 1) := by
  have hhigh := hp.2
  have hpl : w.Has pl := ⟨hlow, by omega⟩
  refine ⟨?_, hlow, by omega, by omega, fun q hq hlt => ?_, fun q hq hlt => by omega⟩
  · have hout : Rearranged w.cells m (Function.update m p (m p)) := .takeOut _ _ _
    split
    · exact hout.shift hp hpl
    · obtain rfl : pl = p := by omega
      exact hout
  · split
    · rw [Function.update_of_ne (by omega)]
      exact (hscan q hq hlt).le
    · exact (hscan q hq hlt).le

theorem ordered_of_parts {m' : Mem} {a n q : ℤ}
    (hleft : ∀ i j, a ≤ i → i < j → j < q → m' i ≤ m' j)
    (hright : ∀ i j, q < i → i < j → j < a + n → m' i ≤ m' j)
    (hbelow : ∀ i, a ≤ i → i < q → m' i ≤ m' q) (habove : ∀ i, q < i → i < a + n → m' q ≤ m' i)
    (i j : ℤ) (hi : a ≤ i) (hij : i < j) (hj : j < a + n) : m' i ≤ m' j := by
  rcases lt_trichotomy i q with hiq | rfl | hiq
  · rcases lt_trichotomy j q with hjq | rfl | hjq
    · exact hleft i j hi hij hjq
    · exact hbelow i hi hiq
    · exact (hbelow i hi hiq).trans (habove j hjq hj)
  · exact habove j hij hj
  · exact hright i j hiq hij hj

/-- The recursive calls rearrange the parts, and so the bounds of the partition hold on. -/
theorem ordered_of_calls {m₃ m₄ m₅ : Mem} {a n q : ℤ}
    (hbelow : ∀ i, a ≤ i → i < q → m₃ i ≤ m₃ q) (habove : ∀ i, q < i → i < a + n → m₃ q ≤ m₃ i)
    (hleft : Rearranged (Set.Ico a q) m₃ m₄) (hsorted₄ : ∀ i j, a ≤ i → i < j → j < q → m₄ i ≤ m₄ j)
    (hright : Rearranged (Set.Ico (q + 1) (a + n)) m₄ m₅)
    (hsorted₅ : ∀ i j, q + 1 ≤ i → i < j → j < a + n → m₅ i ≤ m₅ j) (i j : ℤ) (hi : a ≤ i)
    (hij : i < j) (hj : j < a + n) : m₅ i ≤ m₅ j := by
  have hlow : ∀ i, i ≤ q → m₅ i = m₄ i := fun i hi => hright.outside (by simp; omega)
  have hhigh : ∀ i, q ≤ i → m₄ i = m₃ i := fun i hi => hleft.outside (by simp; omega)
  have hpivot : m₅ q = m₃ q := (hlow q le_rfl).trans (hhigh q le_rfl)
  apply ordered_of_parts (q := q) _ _ _ _ i j hi hij hj
  · intro i j hi hij hj
    rw [hlow i (by omega), hlow j (by omega)]
    exact hsorted₄ i j hi hij hj
  · exact fun i j hi hij hj => hsorted₅ i j hi hij hj
  · intro i hi hiq
    rw [hlow i hiq.le, hpivot]
    exact hleft.all (P := (· ≤ m₃ q)) (fun i hi => hbelow i hi.1 hi.2) i ⟨hi, hiq⟩
  · intro i hqi hi
    rw [hpivot]
    refine hright.all (P := (m₃ q ≤ ·)) (fun i hi => ?_) i ⟨hqi, hi⟩
    have hqi : q < i := hi.1
    rw [hhigh i hqi.le]
    exact habove i hqi hi.2

theorem scanFirst_returns {p : ℤ} (hp : w.Has p) :
    ∃ pl, Returns (fun fuel => run (scanFirst w m p) fuel w.a) pl ∧ w.a ≤ pl ∧ pl ≤ p ∧
      ∀ q, w.a ≤ q → q < pl → m q < m p := by
  have hgo : ∀ pl, w.a ≤ pl → pl ≤ p →
      (if pl < p then do
        let x ← w.load m pl
        let y ← w.load m p
        some (decide (x < y))
      else some false) = some (decide (pl < p ∧ m pl < m p)) := by
    intro pl hlow hle
    have hpl : w.Has pl := ⟨hlow, lt_of_le_of_lt hle hp.2⟩
    by_cases hlt : pl < p <;> simp [hlt, hpl, hp]
  obtain ⟨pl, hreturns, hlow, hle, hscan, -⟩ := move_up hgo hp.1
  exact ⟨pl, hreturns, hlow, hle, hscan⟩

/-- What the recursive calls are made on: the pivot is in its place. -/
theorem quickSort_parts {n : ℤ} {a : ℤ} (hn : 1 < n) (m : Mem) :
    ∃ m' q, a ≤ q ∧ q < a + n ∧ Rearranged (Set.Ico a (a + n)) m m' ∧
      (∀ i, a ≤ i → i < q → m' i ≤ m' q) ∧ (∀ i, q < i → i < a + n → m' q ≤ m' i) ∧
      ∃ k, ∀ fuel, k ≤ fuel → quickSort (fuel + 1) m a n =
        (quickSort fuel m' a (sizeT (q - a))).bind fun m =>
          quickSort fuel m (q + 1) (sizeT (n - 1 - (q - a))) := by
  have hp : (Arr.mk a n).Has (a + n / 2) := Arr.has_index (by omega) (by omega)
  obtain ⟨pl, ⟨k₁, hfirst⟩, hlow, hle, hscan⟩ := scanFirst_returns (m := m) hp
  obtain ⟨⟨m₂, q⟩, ⟨k₂, hpart⟩, hparted⟩ := (parted_start hp hlow hle hscan).partition
  simp only at hparted hpart
  have hpl : (Arr.mk a n).Has pl := ⟨hlow, lt_of_le_of_lt hle hp.2⟩
  have hq : (Arr.mk a n).Has q := hparted.has_left
  refine ⟨Function.update m₂ q (m (a + n / 2)), q, hq.1, hq.2, hparted.filled, ?_, ?_,
    k₁ + k₂, fun fuel hf => ?_⟩
  · intro i hi hiq
    rw [Function.update_self, Function.update_of_ne hiq.ne]
    exact hparted.below i hi hiq
  · intro i hqi hi
    rw [Function.update_self, Function.update_of_ne hqi.ne']
    exact hparted.above i hqi hi
  · have hlarge : ¬ n ≤ 1 := by omega
    have hpart := hpart fuel (by omega)
    by_cases hlt : pl < a + n / 2
    · rw [if_pos hlt] at hpart
      simp only [quickSort, if_neg hlarge, Option.bind_eq_bind, Arr.load_eq hp, Option.bind_some,
        hfirst fuel (by omega), if_pos hlt, Arr.load_eq hpl, Arr.store_eq hp, hpart,
        Arr.store_eq hq]
    · rw [if_neg hlt] at hpart
      simp only [quickSort, if_neg hlarge, Option.bind_eq_bind, Arr.load_eq hp, Option.bind_some,
        hfirst fuel (by omega), if_neg hlt, hpart, Arr.store_eq hq]

theorem quickSort_returns (m : Mem) (a : ℤ) (n : ℕ) (hn : n < 2 ^ 64) :
    ∃ m', Returns (fun fuel => quickSort fuel m a n) m' ∧
      Rearranged (Set.Ico a (a + n)) m m' ∧
      ∀ i j, a ≤ i → i < j → j < a + n → m' i ≤ m' j := by
  induction n using Nat.strong_induction_on generalizing m a with
  | _ n ih =>
  rcases Nat.lt_or_ge 1 n with hlarge | hsmall
  · obtain ⟨m₃, q, hlow, hhigh, hrearranged, hbelow, habove, k, hcall⟩ :=
      quickSort_parts (n := n) (a := a) (by omega) m
    obtain ⟨n₁, hn₁⟩ : ∃ n₁ : ℕ, (n₁ : ℤ) = q - a := ⟨(q - a).toNat, by omega⟩
    obtain ⟨n₂, hn₂⟩ : ∃ n₂ : ℕ, (n₂ : ℤ) = n - 1 - (q - a) := ⟨(n - 1 - (q - a)).toNat, by omega⟩
    obtain ⟨m₄, hcall₄, hleft, hsorted₄⟩ := ih n₁ (by omega) m₃ a (by omega)
    obtain ⟨m₅, hcall₅, hright, hsorted₅⟩ := ih n₂ (by omega) m₄ (q + 1) (by omega)
    rw [show a + (n₁ : ℤ) = q by omega] at hleft hsorted₄
    rw [show q + 1 + (n₂ : ℤ) = a + n by omega] at hright hsorted₅
    have hcalls := hcall₄.andThen (g := fun fuel m => quickSort fuel m (q + 1) n₂) hcall₅
    refine ⟨m₅, Returns.of_succ (hcalls.congr k fun fuel hf => ?_), ?_, ?_⟩
    · rw [hcall fuel hf, ← hn₂, ← hn₁, sizeT_of_lt (by omega) (by omega),
        sizeT_of_lt (by omega) (by omega)]
    · refine hrearranged.trans ((hleft.mono ?_).trans (hright.mono ?_))
      · exact fun i hi => ⟨hi.1, hi.2.trans hhigh⟩
      · exact fun i hi => ⟨by have := hi.1; omega, hi.2⟩
    · exact ordered_of_calls hbelow habove hleft hsorted₄ hright hsorted₅
  · refine ⟨m, ⟨1, fun fuel hf => ?_⟩, .refl _ _, fun i j hi hij hj => by omega⟩
    obtain ⟨fuel, rfl⟩ : ∃ k, fuel = k + 1 := ⟨fuel - 1, by omega⟩
    have hle : (n : ℤ) ≤ 1 := by omega
    simp only [quickSort, if_pos hle]

/-- `quick_sort` returns for every array and sorts it. Every call keeps to its own part of the
array, and changes nothing else. -/
theorem quickSort_sorts (m : Mem) (a : ℤ) (n : ℕ) (hn : n < 2 ^ 64) :
    ∃ m', Returns (fun fuel => quickSort fuel m a n) m' ∧ Sorts m a n m' := by
  obtain ⟨m', hreturns, hrearranged, hordered⟩ := quickSort_returns m a n hn
  exact ⟨m', hreturns, sorts_of_rearranged hrearranged hordered⟩

/-- The pivot occurs more than once. -/
theorem quickSort_sorts_five : ∃ m',
    Returns (fun fuel => quickSort fuel (ofList [2, 5, 2, -1, 2]) 0 (5 : ℕ)) m' ∧
      Sorts (ofList [2, 5, 2, -1, 2]) 0 5 m' :=
  quickSort_sorts _ 0 5 (by decide)

end EmbeddedCode.ArraySort
