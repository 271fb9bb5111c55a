import EmbeddedCode.Printk.Expansion

/-!
# Canonical numerals

What a numeral is can be said without an algorithm: its digits have the value, and no zero stands
in front of other digits. A number has one such numeral in every base, and `itoa` leaves it in the
buffer.
-/
namespace EmbeddedCode.Printk

open Loop

variable {base v : ℕ} {text : List UInt8}

/-- `text` is the numeral of `v` without leading zeros. -/
structure Canonical (base v : ℕ) (text : List UInt8) : Prop where
  /-- The digits, the last one first. -/
  digits : ∃ ds : List ℕ, text = (ds.map digit).reverse ∧ (∀ d ∈ ds, d < base) ∧
    Nat.ofDigits base ds = v
  nonempty : text ≠ []
  noLeadingZero : text.head? = some (ascii '0') → text = [ascii '0']

theorem digit_eq_zero : ∀ d < 16, digit d = ascii '0' → d = 0 := by decide

theorem numeral_zero (base : ℕ) : numeral base 0 = [ascii '0'] := by
  rw [numeral, Nat.toDigits_zero]
  rfl

theorem numeral_canonical (hb : 1 < base) (hb' : base ≤ 16) (v : ℕ) :
    Canonical base v (numeral base v) := by
  by_cases hv : v = 0
  · subst hv
    rw [numeral_zero]
    exact ⟨⟨[0], rfl, by simp; omega, by simp⟩, by simp, fun _ => rfl⟩
  · have hne : Nat.digits base v ≠ [] := Nat.digits_ne_nil_iff_ne_zero.mpr hv
    rw [numeral_eq hb (Nat.pos_of_ne_zero hv)]
    refine ⟨⟨Nat.digits base v, rfl, fun d => Nat.digits_lt_base hb, Nat.ofDigits_digits base v⟩,
      by simpa [digitsUp] using hne, fun hhead => ?_⟩
    rw [List.head?_reverse, digitsUp, List.getLast?_map, List.getLast?_eq_some_getLast hne,
      Option.map_some, Option.some_inj] at hhead
    have hlt : (Nat.digits base v).getLast hne < 16 :=
      (Nat.digits_lt_base hb (List.getLast_mem hne)).trans_le hb'
    exact absurd (digit_eq_zero _ hlt hhead) (Nat.getLast_digit_ne_zero base hv)

/-- A number has one canonical numeral. -/
theorem Canonical.eq_numeral (hb : 1 < base) (h : Canonical base v text) :
    text = numeral base v := by
  obtain ⟨ds, htext, hlt, hvalue⟩ := h.digits
  have hne : ds ≠ [] := by
    rintro rfl
    exact h.nonempty htext
  by_cases hlast : ds.getLast hne = 0
  · have hhead : text.head? = some (ascii '0') := by
      rw [htext, List.head?_reverse, List.getLast?_map, List.getLast?_eq_some_getLast hne, hlast]
      rfl
    have hsingle := h.noLeadingZero hhead
    have hlength : ds.length = 1 := by
      have := congrArg List.length (htext.symm.trans hsingle)
      simpa using this
    obtain ⟨d, rfl⟩ := List.length_eq_one_iff.mp hlength
    rw [List.getLast_singleton] at hlast
    rw [hsingle, ← hvalue, hlast, Nat.ofDigits_singleton, numeral_zero]
  · have hdigits : Nat.digits base v = ds := by
      rw [← hvalue]
      exact Nat.digits_ofDigits base hb ds hlt fun _ => hlast
    have hpos : 0 < v := by
      rcases Nat.eq_zero_or_pos v with rfl | hpos
      · exact absurd (hdigits.symm.trans (Nat.digits_zero base)) hne
      · exact hpos
    rw [numeral_eq hb hpos, digitsUp, hdigits, htext]

/-- The numeral of an integer, with a sign in front if it is negative. -/
def CanonicalSigned (base : ℕ) (v : ℤ) (text : List UInt8) : Prop :=
  ∃ digits, Canonical base v.natAbs digits ∧
    text = if v < 0 then ascii '-' :: digits else digits

/-- The number that a call of `itoa` is to show. -/
def shown (n : Word) (base : ℕ) (isSigned : Bool) : ℤ :=
  if base = 10 ∧ isSigned = true then n.toInt else n.toNat

theorem shown_canonical (hb : 1 < base) (hb' : base ≤ 16) (n : Word) (isSigned : Bool) :
    CanonicalSigned base (shown n base isSigned)
      (sign n base isSigned ++ numeral base (magnitude n base isSigned).toNat) := by
  by_cases hsigned : base = 10 ∧ isSigned = true
  · obtain ⟨rfl, rfl⟩ := hsigned
    rw [signedNumeral_eq, shown, if_pos ⟨rfl, rfl⟩]
    refine ⟨_, numeral_canonical hb hb' _, ?_⟩
    rw [signedNumeral]
    split_ifs <;> rfl
  · rw [unsignedNumeral_eq n hsigned, shown, if_neg hsigned]
    refine ⟨_, numeral_canonical hb hb' _, ?_⟩
    rw [if_neg (by omega)]
    rfl

/-- `itoa` leaves the canonical numeral with its NUL in the buffer, in every base up to that of
the table, and returns the length. -/
theorem itoa_canonical (hb : 2 ≤ base) (hb' : base ≤ 16) (n : Word) (isSigned : Bool)
    {str : List UInt8} (hlen : str.length = bufLen) :
    ∃ text, Returns (fun fuel => itoa fuel str n base isSigned)
        (written str text, text, text.length) ∧
      CanonicalSigned base (shown n base isSigned) text ∧ text.length + 1 ≤ bufLen := by
  obtain ⟨hfits, hitoa⟩ := itoa_returns hb hb' hlen n isSigned
  exact ⟨_, hitoa, shown_canonical hb hb' n isSigned, hfits⟩

theorem itoa_canonical_intMin :
    ∃ text, Returns (fun fuel => itoa fuel (List.replicate 33 0) (BitVec.intMin 32) 10 true)
        (written (List.replicate 33 0) text, text, text.length) ∧
      CanonicalSigned 10 (-2147483648) text ∧ text.length + 1 ≤ bufLen :=
  itoa_canonical (by decide) (by decide) (BitVec.intMin 32) true rfl

end EmbeddedCode.Printk
