import EmbeddedCode.Conversion.Itoa

/-!
# A string becomes a number

`m_atoi` of `c_zy/1122_2.c`. A byte that is no minus is compared with a plus by `*s++`, so the
pointer has moved behind it in any case.
-/
namespace EmbeddedCode.Conversion

open CInt Loop Printk

def isDigit (ch : UInt8) : Bool := ascii '0' ≤ ch && ch ≤ ascii '9'

/-- The loop over the digits, with the bytes from `s` on and `n`. Behind the NUL there is nothing to
read. -/
def numberTurn : List UInt8 × ℤ → Option (Turn (List UInt8 × ℤ) ℤ)
  | ([], _) => none
  | (ch :: s, n) =>
      if ch = 0 then some (.leave n)
      else if isDigit ch then some (.again (s, wrap (wrap (n * 10) + (ch.toNat - 48))))
      else some (.leave n)

/-- The bytes from `s` on end with the NUL. -/
def mAtoi (fuel : ℕ) : List UInt8 → Option ℤ
  | [] => none
  | ch :: s =>
      if ch = ascii '-' then
        s.head?.bind fun next =>
          if next = ascii '+' then some 0
          else (run numberTurn fuel (s, 0)).map fun n => wrap (-1 * n)
      else if ch = ascii '+' then
        s.head?.bind fun next =>
          if next = ascii '-' then some 0
          else (run numberTurn fuel (s, 0)).map fun n => wrap (1 * n)
      else (run numberTurn fuel (s, 0)).map fun n => wrap (1 * n)

inductive Sign where
  | plus
  | minus
  deriving DecidableEq, Repr

def Sign.char : Sign → UInt8
  | .plus => ascii '+'
  | .minus => ascii '-'

def isSign (ch : UInt8) : Bool := ch = ascii '+' || ch = ascii '-'

/-- The number that digits stand for. -/
def value (ds : List UInt8) : ℕ := ds.foldl (fun n ch => n * 10 + (ch.toNat - 48)) 0

/-- A string with a number at its beginning. -/
structure Numbered where
  sign : Option Sign
  digits : List UInt8
  text : List UInt8
  digits_all : ∀ ch ∈ digits, isDigit ch = true
  value_le : (value digits : ℤ) ≤ intMax
  text_no_nul : 0 ∉ text
  text_head : ∀ ch ∈ text.head?, ¬ isDigit ch = true ∧ ¬ isSign ch = true

namespace Numbered

variable (s : Numbered)

def bytes : List UInt8 := (s.sign.map Sign.char).toList ++ s.digits ++ s.text ++ [0]

def number : ℤ := if s.sign = some .minus then -value s.digits else value s.digits

/-- The byte that is skipped in a string without a sign does not count: a leading zero of the
digits, or one in front of digits that are worth 0 as an `int`. -/
def Skippable : Prop :=
  match s.digits, s.text with
  | ch :: _, _ => ch = ascii '0'
  | [], [] => False
  | [], _ :: text => value (text.takeWhile isDigit) % 2 ^ 32 = 0

end Numbered

theorem value_append (ds : List UInt8) (ch : UInt8) :
    value (ds ++ [ch]) = value ds * 10 + (ch.toNat - 48) := by
  simp [value]

theorem value_cons (ch : UInt8) (ds : List UInt8) :
    value (ch :: ds) = (ch.toNat - 48) * 10 ^ ds.length + value ds := by
  induction ds using List.reverseRecOn with
  | nil => simp [value]
  | append_singleton ds d ih =>
      rw [← List.cons_append, value_append, value_append, ih, List.length_append,
        List.length_singleton, Nat.pow_succ]
      ring

theorem number_returns (l : List UInt8) (n : ℕ) :
    Returns (fun fuel => run numberTurn fuel (l ++ [0], wrap n))
      (wrap ((l.takeWhile isDigit).foldl (fun n ch => n * 10 + (ch.toNat - 48)) n : ℕ)) := by
  induction l generalizing n with
  | nil => exact returns_leave (by simp [numberTurn])
  | cons ch l ih =>
      by_cases hdigit : isDigit ch = true
      · have hch : ch ≠ 0 := by
          rintro rfl
          cases hdigit
        have hle : 48 ≤ ch.toNat := by
          simp only [isDigit, Bool.and_eq_true, decide_eq_true_eq] at hdigit
          exact UInt8.le_iff_toNat_le.mp hdigit.1
        have hnext : wrap (wrap (wrap n * 10) + ((ch.toNat : ℤ) - 48)) =
            wrap ((n * 10 + (ch.toNat - 48) : ℕ) : ℤ) := by
          rw [wrap_mul_left, wrap_add_left]
          congr 1
          omega
        rw [List.takeWhile_cons_of_pos hdigit]
        refine Returns.again (ih _) ?_
        simp only [List.cons_append, numberTurn]
        rw [if_neg hch, if_pos hdigit, hnext]
      · rw [List.takeWhile_cons_of_neg hdigit]
        apply returns_leave
        simp only [List.cons_append, numberTurn]
        split_ifs <;> rfl

theorem value_returns (l : List UInt8) :
    Returns (fun fuel => run numberTurn fuel (l ++ [0], 0)) (wrap (value (l.takeWhile isDigit))) :=
  number_returns l 0

namespace Numbered

variable {s : Numbered}

theorem takeWhile_eq (s : Numbered) : (s.digits ++ s.text).takeWhile isDigit = s.digits := by
  rw [List.takeWhile_append_of_pos s.digits_all]
  have hhead := s.text_head
  cases htext : s.text with
  | nil => simp
  | cons ch text =>
      rw [htext] at hhead
      rw [List.takeWhile_cons_of_neg (hhead ch rfl).1, List.append_nil]

theorem fits_value (s : Numbered) : Fits (value s.digits) := by
  have hle := s.value_le
  simp only [Fits, intMin, intMax] at hle ⊢
  omega

theorem next_not_sign (s : Numbered) : ∃ next, (s.digits ++ s.text ++ [0]).head? = some next ∧
    next ≠ ascii '+' ∧ next ≠ ascii '-' := by
  cases hdigits : s.digits with
  | cons ch digits =>
      have hdigit : isDigit ch = true := s.digits_all ch (by rw [hdigits]; exact List.mem_cons_self)
      refine ⟨ch, rfl, ?_, ?_⟩ <;> (rintro rfl; revert hdigit; decide)
  | nil =>
      cases htext : s.text with
      | nil => exact ⟨0, rfl, by decide, by decide⟩
      | cons ch text =>
          have hsign := (s.text_head ch (by rw [htext]; rfl)).2
          simp only [isSign, Bool.or_eq_true, decide_eq_true_eq, not_or] at hsign
          exact ⟨ch, rfl, hsign⟩

theorem signed_returns {sign : Sign} (hsign : s.sign = some sign) :
    Returns (fun fuel => mAtoi fuel s.bytes) s.number := by
  have hbytes : s.bytes = sign.char :: (s.digits ++ s.text ++ [0]) := by
    rw [bytes, hsign]
    simp
  have hvalue := value_returns (s.digits ++ s.text)
  rw [takeWhile_eq, wrap_fits s.fits_value] at hvalue
  obtain ⟨next, hnext, hplus, hminus⟩ := s.next_not_sign
  have hle := s.value_le
  cases sign with
  | plus =>
      have hresult : wrap (1 * value s.digits) = s.number := by
        rw [number, hsign, if_neg (by decide), one_mul, wrap_fits s.fits_value]
      have hne : ascii '+' ≠ ascii '-' := by decide
      simp only [hbytes, mAtoi, Sign.char, if_neg hne, if_true, hnext, Option.bind_some,
        if_neg hminus, Option.map_eq_bind]
      exact hvalue.bind (congrArg some hresult)
  | minus =>
      have hresult : wrap (-1 * value s.digits) = s.number := by
        rw [number, hsign, if_pos rfl, neg_one_mul, wrap_fits]
        simp only [Fits, intMin, intMax] at hle ⊢
        omega
      simp only [hbytes, mAtoi, Sign.char, if_true, hnext, Option.bind_some, if_neg hplus,
        Option.map_eq_bind]
      exact hvalue.bind (congrArg some hresult)

/-- Without a sign the first byte is skipped all the same. -/
theorem unsigned_returns {ch : UInt8} {rest : List UInt8} (hsign : s.sign = none)
    (hs : s.digits ++ s.text = ch :: rest) :
    Returns (fun fuel => mAtoi fuel s.bytes) (wrap (value (rest.takeWhile isDigit))) := by
  have hbytes : s.bytes = ch :: (rest ++ [0]) := by
    rw [bytes, hsign, Option.map_none, Option.toList_none, List.nil_append, hs, List.cons_append]
  obtain ⟨next, hnext, hplus, hminus⟩ := s.next_not_sign
  rw [hs] at hnext
  obtain rfl : ch = next := Option.some.inj hnext
  simp only [hbytes, mAtoi, if_neg hplus, if_neg hminus, Option.map_eq_bind]
  exact (value_returns rest).bind (by rw [Function.comp_apply, one_mul, wrap_wrap])

/-- An empty string is left at once, and read behind its NUL. -/
theorem empty_faults (hsign : s.sign = none) (hs : s.digits ++ s.text = []) (fuel : ℕ) :
    mAtoi fuel s.bytes = none := by
  have hbytes : s.bytes = [0] := by
    rw [bytes, hsign, Option.map_none, Option.toList_none, List.nil_append, hs, List.nil_append]
  have hplus : (0 : UInt8) ≠ ascii '+' := by decide
  have hminus : (0 : UInt8) ≠ ascii '-' := by decide
  rw [hbytes, mAtoi, if_neg hminus, if_neg hplus]
  cases fuel <;> rfl

def Converted (s : Numbered) : Prop := Returns (fun fuel => mAtoi fuel s.bytes) s.number

theorem converted_of_unsigned {ch : UInt8} {rest : List UInt8} (hsign : s.sign = none)
    (hs : s.digits ++ s.text = ch :: rest) :
    s.Converted ↔ wrap (value (rest.takeWhile isDigit)) = (value s.digits : ℤ) := by
  have hreturns := unsigned_returns hsign hs
  have hnumber : s.number = value s.digits := by
    rw [number, hsign, if_neg (by decide)]
  rw [Converted, hnumber]
  exact ⟨hreturns.unique, fun heq => heq ▸ hreturns⟩

/-- A digit does not count as the first one if it is a zero. -/
theorem value_tail_iff {ch : UInt8} {ds : List UInt8} (hch : isDigit ch = true) :
    value ds = value (ch :: ds) ↔ ch = ascii '0' := by
  have hle : 48 ≤ ch.toNat := by
    simp only [isDigit, Bool.and_eq_true, decide_eq_true_eq] at hch
    exact UInt8.le_iff_toNat_le.mp hch.1
  have hpow : 0 < 10 ^ ds.length := Nat.pow_pos (by decide)
  rw [value_cons, right_eq_add, Nat.mul_eq_zero, or_iff_left hpow.ne', ← UInt8.toNat_inj]
  have hzero : (ascii '0').toNat = 48 := rfl
  omega

theorem converted_iff (s : Numbered) : s.Converted ↔ s.sign ≠ none ∨ s.Skippable := by
  cases hsign : s.sign with
  | some sign => exact iff_of_true (signed_returns hsign) (.inl (by simp))
  | none =>
      simp only [ne_eq, not_true_eq_false, false_or, Skippable]
      cases hdigits : s.digits with
      | cons ch ds =>
          have hdigit : isDigit ch = true :=
            s.digits_all ch (by rw [hdigits]; exact List.mem_cons_self)
          have htake : (ds ++ s.text).takeWhile isDigit = ds := by
            have hall := s.takeWhile_eq
            rw [hdigits, List.cons_append, List.takeWhile_cons_of_pos hdigit] at hall
            exact (List.cons.inj hall).2
          have hfits : Fits (value ds) := by
            have hle := s.value_le
            rw [hdigits, value_cons] at hle
            simp only [Fits, intMin, intMax] at hle ⊢
            omega
          rw [converted_of_unsigned hsign (by rw [hdigits, List.cons_append]), htake,
            wrap_fits hfits, hdigits, Nat.cast_inj, value_tail_iff hdigit]
      | nil =>
          cases htext : s.text with
          | nil =>
              refine iff_of_false (fun hconverted => ?_) id
              obtain ⟨fuel, hreturns⟩ := hconverted
              have hfault := empty_faults hsign (by rw [hdigits, htext]; rfl) fuel
              cases (hreturns fuel (Nat.le_refl fuel)).symm.trans hfault
          | cons ch text =>
              rw [converted_of_unsigned hsign (by rw [hdigits, htext, List.nil_append]), hdigits]
              have hzero : value [] = 0 := rfl
              rw [hzero]
              simp only [wrap, Int.bmod_def]
              omega

end Numbered

theorem digit_facts : ∀ d < 10, isDigit (digit d) = true ∧ (digit d).toNat - 48 = d ∧
    (digit d = ascii '0' → d = 0) := by
  decide

theorem value_reverse {l : List ℕ} (h : ∀ d ∈ l, d < 10) :
    value (l.map digit).reverse = Nat.ofDigits 10 l := by
  induction l with
  | nil => rfl
  | cons d l ih =>
      rw [List.forall_mem_cons] at h
      rw [List.map_cons, List.reverse_cons, value_append, ih h.2, (digit_facts d h.1).2.1,
        Nat.ofDigits_cons, Nat.add_comm, Nat.mul_comm]

section
variable {k : ℕ}

theorem digits_lt : ∀ d ∈ Nat.digits 10 k, d < 10 := fun _ => Nat.digits_lt_base (by decide)

theorem numeral_all (k : ℕ) : ∀ ch ∈ numeral 10 k, isDigit ch = true := by
  rcases Nat.eq_zero_or_pos k with rfl | hk
  · exact List.forall_mem_singleton.mpr (by decide)
  · intro ch hch
    rw [numeral_eq (by decide) hk, List.mem_reverse] at hch
    obtain ⟨d, hd, rfl⟩ := List.mem_map.mp hch
    exact (digit_facts d (digits_lt d hd)).1

theorem value_numeral (k : ℕ) : value (numeral 10 k) = k := by
  rcases Nat.eq_zero_or_pos k with rfl | hk
  · decide
  · rw [numeral_eq (by decide) hk, digitsUp, value_reverse digits_lt, Nat.ofDigits_digits]

theorem head_numeral (hk : 0 < k) : ∃ ch ds, numeral 10 k = ch :: ds ∧ ch ≠ ascii '0' := by
  have hne : Nat.digits 10 k ≠ [] := Nat.digits_ne_nil_iff_ne_zero.mpr hk.ne'
  have hlast := Nat.getLast_digit_ne_zero 10 hk.ne'
  rw [numeral_eq (by decide) hk, digitsUp]
  conv in Nat.digits 10 k => rw [← List.dropLast_append_getLast hne]
  rw [List.map_append, List.reverse_append]
  refine ⟨_, _, rfl, fun hzero => hlast ?_⟩
  exact (digit_facts _ (digits_lt _ (List.getLast_mem hne))).2.2 hzero

end

theorem value_numeral_le {n : Word} (hn : n.toInt ≠ intMin) :
    (value (numeral 10 n.toInt.natAbs) : ℤ) ≤ intMax := by
  have hlt := n.toInt_lt
  have hle := n.le_toInt
  rw [value_numeral]
  simp only [intMin, intMax] at hn ⊢
  omega

def Numbered.ofInt (n : Word) (hn : n.toInt ≠ intMin) : Numbered where
  sign := if n.toInt < 0 then some .minus else none
  digits := numeral 10 n.toInt.natAbs
  text := []
  digits_all := numeral_all _
  value_le := value_numeral_le hn
  text_no_nul := List.not_mem_nil
  text_head := fun _ h => nomatch h

theorem ofInt_bytes (n : Word) (hn : n.toInt ≠ intMin) :
    (Numbered.ofInt n hn).bytes = signedNumeral n ++ [0] := by
  simp only [Numbered.bytes, Numbered.ofInt, signedNumeral, List.append_nil]
  split_ifs <;> rfl

theorem ofInt_number (n : Word) (hn : n.toInt ≠ intMin) :
    (Numbered.ofInt n hn).number = n.toInt := by
  simp only [Numbered.number, Numbered.ofInt, value_numeral]
  by_cases hneg : n.toInt < 0
  · simp only [if_pos hneg, if_true]
    omega
  · simp only [if_neg hneg, reduceCtorEq, if_false]
    omega

/-- `m_atoi` returns the number at the beginning of a string, and stays in the string, exactly when
there is a sign, or the byte that it takes for one does not count. It reads the numeral of `n` back
exactly when `n` is not positive. -/
theorem mAtoi_iff (s : Numbered) (n : Word) :
    (Returns (fun fuel => mAtoi fuel s.bytes) s.number ↔ s.sign ≠ none ∨ s.Skippable) ∧
      (n.toInt ≠ intMin →
        (Returns (fun fuel => mAtoi fuel (signedNumeral n ++ [0])) n.toInt ↔ n.toInt ≤ 0)) := by
  refine ⟨s.converted_iff, fun hn => ?_⟩
  have hconverted := Numbered.converted_iff (.ofInt n hn)
  rw [Numbered.Converted, ofInt_bytes, ofInt_number] at hconverted
  rw [hconverted]
  simp only [Numbered.ofInt, Numbered.Skippable]
  rcases lt_trichotomy n.toInt 0 with hneg | hzero | hpos
  · exact iff_of_true (.inl (by simp [hneg])) hneg.le
  · refine iff_of_true (.inr ?_) hzero.le
    rw [hzero]
    rfl
  · obtain ⟨ch, ds, hds, hch⟩ := head_numeral (Int.natAbs_pos.mpr hpos.ne')
    rw [hds, if_neg (not_lt.mpr hpos.le)]
    exact iff_of_false (by simpa using hch) (not_le.mpr hpos)

/-- The string 1234 is read as 234. -/
theorem mAtoi_positive :
    ¬ Returns (fun fuel => mAtoi fuel ("1234".toList.map ascii ++ [0])) 1234 ∧
      mAtoi 5 ("1234".toList.map ascii ++ [0]) = some 234 := by
  refine ⟨?_, by decide⟩
  rintro ⟨n, hn⟩
  have hrun : mAtoi (n + 5) ("1234".toList.map ascii ++ [0]) = some 234 := rfl
  cases hrun.symm.trans (hn (n + 5) (Nat.le_add_right n 5))

end EmbeddedCode.Conversion
