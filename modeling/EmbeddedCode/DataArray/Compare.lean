import EmbeddedCode.Library.CInt
import Mathlib.Algebra.Group.Nat.Defs
import Mathlib.Data.Int.Notation
import Mathlib.Data.Int.Order.Basic
import Mathlib.Data.List.Lex
import Mathlib.Order.Lattice

/-!
# The comparison of keys

`buffer_caseless_compare` of `lighttpd-1.4.32/src/buffer.c` skips equal words of memory and then
compares byte by byte. What it finds is the lexicographic order of the texts in lower case.
-/
namespace EmbeddedCode.DataArray

open CInt

/-- `a1 |= 32` for a letter of the upper case. -/
def lowerByte (b : UInt8) : UInt8 := if 65 ≤ b ∧ b ≤ 90 then b ||| 32 else b

/-- A `char`, which is signed, as an `int`. -/
def charValue (b : UInt8) : ℤ := b.toInt8.toInt

/-- The loop over the bytes, and behind it the difference of the lengths, which becomes an `int`. -/
def compareBytes : List UInt8 → List UInt8 → ℤ
  | a :: as, b :: bs =>
      if a ≠ b then
        if charValue (lowerByte a) - charValue (lowerByte b) ≠ 0 then
          charValue (lowerByte a) - charValue (lowerByte b)
        else compareBytes as bs
      else compareBytes as bs
  | as, bs => wrap (as.length - bs.length)

/-- `sizeof(*al)`. -/
def wordSize : ℕ := 8

/-- What is left when up to so many equal words are skipped. -/
def skipWords : ℕ → List UInt8 → List UInt8 → List UInt8 × List UInt8
  | 0, a, b => (a, b)
  | n + 1, a, b =>
      if a.take wordSize ≠ b.take wordSize then (a, b)
      else skipWords n (a.drop wordSize) (b.drop wordSize)

/-- `aligned` says whether both texts start at the address of a word. -/
def caselessCompare (aligned : Bool) (a b : List UInt8) : ℤ :=
  if aligned then
    let (a, b) := skipWords (min a.length b.length / wordSize) a b
    compareBytes a b
  else compareBytes a b

/-- A key without the case of its letters. -/
def fold (key : List UInt8) : List ℤ := key.map fun b => charValue (lowerByte b)

@[simp] theorem fold_nil : fold [] = [] := rfl

@[simp] theorem fold_cons (b : UInt8) (bs : List UInt8) :
    fold (b :: bs) = charValue (lowerByte b) :: fold bs := rfl

/-- The sign of a comparison. -/
structure Compares (c : ℤ) (a b : List UInt8) : Prop where
  neg_iff : c < 0 ↔ fold a < fold b
  zero_iff : c = 0 ↔ fold a = fold b

theorem Compares.cons {c : ℤ} {as bs : List UInt8} (h : Compares c as bs) {a b : UInt8}
    (hab : charValue (lowerByte a) = charValue (lowerByte b)) : Compares c (a :: as) (b :: bs) := by
  refine ⟨?_, ?_⟩
  · rw [h.neg_iff, fold_cons, fold_cons, hab, List.cons_lt_cons_iff]
    simp
  · rw [h.zero_iff, fold_cons, fold_cons, hab]
    simp

theorem wrap_length_sub {m n : ℕ} (hm : m < 2 ^ 31) (hn : n < 2 ^ 31) :
    wrap ((m : ℤ) - n) = m - n := by
  apply wrap_fits
  unfold Fits intMin intMax
  omega

theorem compareBytes_compares {a b : List UInt8} (ha : a.length < 2 ^ 31)
    (hb : b.length < 2 ^ 31) : Compares (compareBytes a b) a b := by
  induction a generalizing b with
  | nil =>
      cases b with
      | nil =>
          have hzero : compareBytes [] [] = 0 := wrap_length_sub ha ha
          exact ⟨by simp [hzero], by simp [hzero]⟩
      | cons b bs =>
          have hneg : compareBytes [] (b :: bs) < 0 := by
            have hsub : compareBytes [] (b :: bs) = (0 : ℕ) - (b :: bs).length :=
              wrap_length_sub ha hb
            rw [hsub, List.length_cons]
            omega
          exact ⟨by simp [hneg], by simp [Int.ne_of_lt hneg]⟩
  | cons a as ih =>
      cases b with
      | nil =>
          have hpos : 0 < compareBytes (a :: as) [] := by
            have hsub : compareBytes (a :: as) [] = (a :: as).length - (0 : ℕ) :=
              wrap_length_sub ha hb
            rw [hsub, List.length_cons]
            omega
          exact ⟨by simp [Int.le_of_lt hpos], by simp [Int.ne_of_gt hpos]⟩
      | cons b bs =>
          have hsub : charValue (lowerByte a) - charValue (lowerByte b) ≠ 0 →
              Compares (charValue (lowerByte a) - charValue (lowerByte b)) (a :: as) (b :: bs) := by
            intro hne
            refine ⟨?_, ?_⟩
            · rw [fold_cons, fold_cons, List.cons_lt_cons_iff]
              omega
            · rw [fold_cons, fold_cons, List.cons_eq_cons]
              omega
          rw [List.length_cons] at ha hb
          have htail : Compares (compareBytes as bs) as bs := ih (by omega) (by omega)
          unfold compareBytes
          split_ifs with hab hdiff
          · exact hsub hdiff
          · exact htail.cons (by omega)
          · exact htail.cons (by rw [not_not.mp hab])

theorem compareBytes_append (w as bs : List UInt8) :
    compareBytes (w ++ as) (w ++ bs) = compareBytes as bs := by
  induction w with
  | nil => rfl
  | cons x w ih => simp [compareBytes, ih]

theorem skipWords_compare (n : ℕ) (a b : List UInt8) :
    compareBytes (skipWords n a b).1 (skipWords n a b).2 = compareBytes a b := by
  induction n generalizing a b with
  | zero => rfl
  | succ n ih =>
      unfold skipWords
      split_ifs with hne
      · rfl
      · have happend := compareBytes_append (a.take wordSize) (a.drop wordSize) (b.drop wordSize)
        nth_rewrite 2 [not_not.mp hne] at happend
        rw [List.take_append_drop, List.take_append_drop] at happend
        rw [ih, happend]

theorem caselessCompare_compares (aligned : Bool) {a b : List UInt8} (ha : a.length < 2 ^ 31)
    (hb : b.length < 2 ^ 31) : Compares (caselessCompare aligned a b) a b := by
  have heq : caselessCompare aligned a b = compareBytes a b := by
    cases aligned with
    | false => rfl
    | true => exact skipWords_compare _ a b
  rw [heq]
  exact compareBytes_compares ha hb

end EmbeddedCode.DataArray
