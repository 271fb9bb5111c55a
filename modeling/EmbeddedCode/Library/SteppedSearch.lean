import EmbeddedCode.Library.CInt
import EmbeddedCode.Library.Loop
import Mathlib.Algebra.Group.Nat.Defs
import Mathlib.Algebra.Order.Group.Int
import Mathlib.Data.Int.Notation
import Mathlib.Data.Int.Order.Basic

/-!
# Search by steps of halved length

An index is looked for from the middle of a range whose length is a power of two. Every comparison
moves the position, an `int`, by the step, which is then halved, and the position may leave the
indices that exist. A last comparison is made with the step 0.
-/
namespace EmbeddedCode.SteppedSearch

open CInt Loop

structure Probing where
  step : ℕ
  pos : ℤ
  deriving DecidableEq, Repr

/-- The position is moved, or left where it is with the last step. -/
def move (s : Probing) (pos : ℤ) : Turn Probing (Option ℕ × ℤ) :=
  if s.step = 0 then .leave (none, pos) else .again ⟨s.step / 2, pos⟩

/-- `cmp i` is negative if what is looked for comes before the index `i`, and `n` indices exist. A
comparison that is not there faults. -/
def turn (cmp : ℕ → Option ℤ) (n : ℕ) (s : Probing) : Option (Turn Probing (Option ℕ × ℤ)) :=
  if s.pos < 0 then some (move s (wrap (s.pos + s.step)))
  else if (n : ℤ) ≤ s.pos then some (move s (wrap (s.pos - s.step)))
  else (cmp s.pos.toNat).map fun c =>
    if c = 0 then .leave (some s.pos.toNat, s.pos)
    else if c < 0 then move s (wrap (s.pos - s.step))
    else move s (wrap (s.pos + s.step))

/-- What is looked for is at the index `r`, or belongs between `r` and the index before it. -/
structure Located (cmp : ℕ → Option ℤ) (n r : ℕ) (found : Bool) : Prop where
  le : r ≤ n
  before : ∀ i < r, ∃ c, cmp i = some c ∧ 0 < c
  behind : ∀ i, r < i → i < n → ∃ c, cmp i = some c ∧ c < 0
  at_found : found → r < n ∧ cmp r = some 0
  at_missing : found = false → r < n → ∃ c, cmp r = some c ∧ c < 0

/-- Twice the index that is looked for, or one less if it lies before it. -/
def target (r : ℕ) (found : Bool) : ℤ := if found then 2 * r else 2 * r - 1

variable {cmp : ℕ → Option ℤ} {n r : ℕ} {found : Bool} {s : Probing}

/-- The step is half of `2 ^ j`, and the target is less than twice that away. -/
def Near (r : ℕ) (found : Bool) (j : ℕ) (s : Probing) : Prop :=
  s.step = 2 ^ j / 2 ∧ target r found - 2 * s.pos < 2 ^ (j + 1) ∧
    2 * s.pos - target r found < 2 ^ (j + 1)

def Result (r : ℕ) (found : Bool) (result : Option ℕ × ℤ) : Prop :=
  if found then result.1 = some r else result.1 = none ∧ (result.2 = r ∨ result.2 = r - 1)

theorem target_cases (r : ℕ) (found : Bool) :
    (found = true ∧ target r found = 2 * r) ∨ (found = false ∧ target r found = 2 * r - 1) := by
  cases found with
  | false => exact .inr ⟨rfl, rfl⟩
  | true => exact .inl ⟨rfl, rfl⟩

theorem turn_of_cmp {i : ℕ} (hi : s.pos = i) (hlt : i < n) {c : ℤ} (hc : cmp i = some c) :
    turn cmp n s = some (if c = 0 then .leave (some i, s.pos)
      else if c < 0 then move s (wrap (s.pos - s.step))
      else move s (wrap (s.pos + s.step))) := by
  unfold turn
  rw [if_neg (by omega), if_neg (by omega), hi, Int.toNat_natCast, hc, Option.map_some]

theorem Located.turn_eq (h : Located cmp n r found) (s : Probing) :
    (2 * s.pos < target r found ∧ turn cmp n s = some (move s (wrap (s.pos + s.step)))) ∨
      (target r found < 2 * s.pos ∧ turn cmp n s = some (move s (wrap (s.pos - s.step)))) ∨
        (found ∧ turn cmp n s = some (.leave (some r, s.pos))) := by
  have hle := h.le
  have htarget := target_cases r found
  by_cases hneg : s.pos < 0
  · exact .inl ⟨by omega, if_pos hneg⟩
  · by_cases hbig : (n : ℤ) ≤ s.pos
    · refine .inr (.inl ⟨?_, (if_neg hneg).trans (if_pos hbig)⟩)
      rcases htarget with ⟨hfound, heq⟩ | ⟨-, heq⟩
      · have := (h.at_found hfound).1
        omega
      · omega
    · obtain ⟨i, hi⟩ : ∃ i : ℕ, s.pos = i := ⟨s.pos.toNat, by omega⟩
      have hin : i < n := by omega
      rcases Nat.lt_trichotomy i r with hlt | heq | hgt
      · obtain ⟨c, hc, hpos⟩ := h.before i hlt
        rw [turn_of_cmp hi hin hc, if_neg (by omega), if_neg (by omega)]
        exact .inl ⟨by omega, rfl⟩
      · subst heq
        rcases htarget with ⟨hfound, -⟩ | ⟨hmissing, heq⟩
        · rw [turn_of_cmp hi hin (h.at_found hfound).2, if_pos rfl]
          exact .inr (.inr ⟨hfound, rfl⟩)
        · obtain ⟨c, hc, hlt⟩ := h.at_missing hmissing hin
          rw [turn_of_cmp hi hin hc, if_neg (by omega), if_pos hlt]
          exact .inr (.inl ⟨by omega, rfl⟩)
      · obtain ⟨c, hc, hlt⟩ := h.behind i hgt hin
        rw [turn_of_cmp hi hin hc, if_neg (by omega), if_pos hlt]
        exact .inr (.inl ⟨by omega, rfl⟩)

/-- The last step leaves the position, which is then next to a target that is missing. -/
theorem Near.last (h : Near r found 0 s) (hne : 2 * s.pos ≠ target r found) :
    Result r found (none, s.pos) := by
  obtain ⟨-, hlo, hhi⟩ := h
  unfold Result
  rcases target_cases r found with ⟨hfound, heq⟩ | ⟨hmissing, heq⟩
  · omega
  · rw [hmissing, if_neg (by decide)]
    exact ⟨rfl, by simp only; omega⟩

/-- A step towards the target brings it within half of the distance. -/
theorem Near.towards {j : ℕ} (h : Near r found (j + 1) s) :
    (2 * s.pos < target r found → Near r found j ⟨s.step / 2, s.pos + s.step⟩) ∧
      (target r found < 2 * s.pos → Near r found j ⟨s.step / 2, s.pos - s.step⟩) := by
  obtain ⟨hstep, hlo, hhi⟩ := h
  have hpow : 2 ^ (j + 1) / 2 = 2 ^ j := by omega
  rw [hpow] at hstep
  have hcast : (s.step : ℤ) = 2 ^ j := by rw [hstep]; norm_cast
  constructor
  all_goals
    intro hlt
    refine ⟨by simp only; omega, ?_, ?_⟩ <;> simp only <;> rw [hcast] <;> omega

/-- A step that is not the last one halves the next, and the last one leaves. -/
theorem Near.turn {j : ℕ} (h : Near r found j s) {pos : ℤ}
    (hnear : ∀ i, j = i + 1 → Near r found i ⟨s.step / 2, pos⟩)
    (hlast : j = 0 → Result r found (none, pos)) :
    (∃ t, move s pos = .again t ∧ (∃ i ≤ j, Near r found i t) ∧ t.step < s.step) ∨
      ∃ result, move s pos = .leave result ∧ Result r found result := by
  have hstep := h.1
  cases j with
  | zero => exact .inr ⟨_, if_pos hstep, hlast rfl⟩
  | succ j =>
      have hpow : 2 ^ (j + 1) / 2 = 2 ^ j := by omega
      have hpos : 0 < s.step := by
        rw [hstep, hpow]
        exact Nat.two_pow_pos j
      exact .inl ⟨_, if_neg (Nat.ne_of_gt hpos), ⟨j, Nat.le_succ j, hnear j rfl⟩,
        Nat.div_lt_self hpos (by decide)⟩

theorem Located.target_range (h : Located cmp n r found) :
    -1 ≤ target r found ∧ target r found ≤ 2 * n - 1 := by
  have hle := h.le
  rcases target_cases r found with ⟨hfound, heq⟩ | ⟨-, heq⟩
  · have := (h.at_found hfound).1
    omega
  · omega

/-- A search in at most `2 ^ 30` indices does not leave the range of `int`. -/
theorem Located.fits (h : Located cmp n r found) (hn : n ≤ 2 ^ 30) {j : ℕ} (hj : j ≤ 30)
    (hs : Near r found j s) :
    (2 * s.pos < target r found → wrap (s.pos + s.step) = s.pos + s.step) ∧
      (target r found < 2 * s.pos → wrap (s.pos - s.step) = s.pos - s.step) := by
  obtain ⟨hlo, hhi⟩ := h.target_range
  obtain ⟨hstep, hbelow, habove⟩ := hs
  have hpow : 2 ^ j ≤ 2 ^ 30 := Nat.pow_le_pow_right (by decide) hj
  have hcast : (2 : ℤ) ^ (j + 1) = 2 * (2 ^ j : ℕ) := by
    rw [Int.pow_succ, Int.mul_comm]
    norm_cast
  rw [hcast] at hbelow habove
  have hhalf : s.step ≤ 2 ^ 29 := by omega
  refine ⟨fun hlt => wrap_fits ?_, fun hlt => wrap_fits ?_⟩
  all_goals
    unfold Fits intMin intMax
    omega

/-- The target is in reach from the middle. -/
theorem Located.near (h : Located cmp n r found) {k : ℕ} (hn : n ≤ 2 ^ k) :
    Near r found k ⟨2 ^ k / 2, (2 ^ k / 2 : ℕ)⟩ := by
  have hrange := h.target_range
  have hpow : ((2 ^ k : ℕ) : ℤ) = 2 ^ k := by norm_cast
  have hcast : (n : ℤ) ≤ 2 ^ k := by omega
  refine ⟨rfl, ?_, ?_⟩
  · simp only
    cases k with
    | zero => simp at *; omega
    | succ k => omega
  · simp only
    cases k with
    | zero => simp at *; omega
    | succ k =>
        have := Nat.two_pow_pos k
        omega

/-- The search finds the index, or the place for what is not there. -/
theorem search_result (h : Located cmp n r found) {k : ℕ} (hk : k ≤ 30) (hn : n ≤ 2 ^ k) :
    ∃ result, run (turn cmp n) (2 ^ k / 2 + 1) ⟨2 ^ k / 2, (2 ^ k / 2 : ℕ)⟩ = some result ∧
      Result r found result := by
  have hmax : n ≤ 2 ^ 30 := hn.trans (Nat.pow_le_pow_right (by decide) hk)
  refine run_within_measure (I := fun s => ∃ j ≤ 30, Near r found j s) (fun s => s.step)
    (fun s ⟨j, hle, hj⟩ => ?_) ⟨k, hk, h.near hn⟩ (Nat.lt_succ_self _)
  have hfits := h.fits hmax hle hj
  have hmove (pos : ℤ) (hnear : ∀ i, j = i + 1 → Near r found i ⟨s.step / 2, pos⟩)
      (hlast : j = 0 → Result r found (none, pos)) :
      (∃ t, some (move s pos) = some (.again t) ∧ (∃ i ≤ 30, Near r found i t) ∧
        t.step < s.step) ∨
        ∃ result, some (move s pos) = some (.leave result) ∧ Result r found result := by
    simp only [Option.some.injEq]
    rcases hj.turn hnear hlast with ⟨t, ht, ⟨i, hi, hnear⟩, hlt⟩ | hleave
    · exact .inl ⟨t, ht, ⟨i, hi.trans hle, hnear⟩, hlt⟩
    · exact .inr hleave
  rcases h.turn_eq s with ⟨hlt, hturn⟩ | ⟨hlt, hturn⟩ | ⟨hfound, hturn⟩
  · rw [hturn, hfits.1 hlt]
    refine hmove _ (fun i hi => ?_) fun hzero => ?_
    · subst hi
      exact hj.towards.1 hlt
    · subst hzero
      have hstep : s.step = 0 := hj.1
      rw [hstep, Int.natCast_zero, Int.add_zero]
      exact hj.last (by omega)
  · rw [hturn, hfits.2 hlt]
    refine hmove _ (fun i hi => ?_) fun hzero => ?_
    · subst hi
      exact hj.towards.2 hlt
    · subst hzero
      have hstep : s.step = 0 := hj.1
      rw [hstep, Int.natCast_zero, Int.sub_zero]
      exact hj.last (by omega)
  · exact .inr ⟨_, hturn, by simp [Result, hfound]⟩

end EmbeddedCode.SteppedSearch
