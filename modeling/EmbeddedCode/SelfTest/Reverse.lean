import EmbeddedCode.Library.CInt
import EmbeddedCode.Library.CString
import EmbeddedCode.Library.Loop
import EmbeddedCode.Printk.Model
import Mathlib.Data.List.Induction

/-!
# Reversal of Chinese and English

`reverse` of `selftest/reverse_str.c` prints a string backwards, and takes a byte that is negative
as a `char` for the last one of a character of three bytes. A `char` is signed. The remaining
length is an `int`, and so it is 0 also when 4 GiB remain.
-/
namespace EmbeddedCode.SelfTest

open CInt Loop Printk

/-- A byte of the string, or its NUL. -/
def byteAt (str : CString) (p : ℤ) : Option UInt8 :=
  if 0 ≤ p then (str.bytes ++ [0])[p.toNat]? else none

/-- The loop to the end of the string. The state holds `p` and `len`. -/
def endTurn (str : CString) : ℤ × ℤ → Option (Turn (ℤ × ℤ) (ℤ × ℤ))
  | (p, len) => (byteAt str p).map fun ch =>
      if ch ≠ 0 then .again (p + 1, wrap (len + 1)) else .leave (p, len)

/-- The loop back to the start. The state holds `p`, `len` and what is printed. -/
def backTurn (str : CString) : ℤ × ℤ × List UInt8 → Option (Turn (ℤ × ℤ × List UInt8) (List UInt8))
  | (p, len, out) =>
      if len ≠ 0 then
        (byteAt str p).bind fun last =>
          if last.toInt8 < 0 then
            (byteAt str (p - 2)).bind fun first =>
            (byteAt str (p - 1)).map fun second =>
              .again (p - 3, wrap (len - 3), out ++ [first, second, last])
          else some (.again (p - 1, wrap (len - 1), out ++ [last]))
      else some (.leave out)

/-- `printf("here %s\n", str)` -/
def echo (str : CString) : List UInt8 := "here ".toList.map ascii ++ str.bytes ++ [ascii '\n']

def reverse (fuel : ℕ) (str : CString) : Option (List UInt8) :=
  (run (endTurn str) fuel (0, 0)).bind fun (p, len) =>
  (run (backTurn str) fuel (p - 1, len, [])).map fun out => echo str ++ out ++ [ascii '\n']

/-! ## Characters -/

/-- A character that is ASCII, but not the NUL, or has three bytes in UTF-8. -/
structure Letter where
  ch : Char
  size : ch ≠ '\x00' ∧ ch.utf8Size = 1 ∨ ch.utf8Size = 3

def Letter.bytes (c : Letter) : List UInt8 := String.utf8EncodeChar c.ch

def encode (cs : List Letter) : List UInt8 := cs.flatMap Letter.bytes

theorem le_or (x y : UInt8) : y ≤ x ||| y := by
  rw [UInt8.le_iff_toNat_le, UInt8.toNat_or]
  exact Nat.right_le_or

theorem ne_zero_of_le {b : UInt8} (h : 128 ≤ b) : b ≠ 0 := by
  rintro rfl
  exact absurd h (by decide)

theorem negative_iff (ch : UInt8) : ch.toInt8 < 0 ↔ 128 ≤ ch := by
  have hbits : ch.toInt8.toBitVec = ch.toBitVec := rfl
  have hnat : ch.toBitVec.toNat = ch.toNat := rfl
  have hzero : (0 : Int8).toInt = 0 := rfl
  have hhalf : (128 : UInt8).toNat = 128 := rfl
  have hlt := ch.toBitVec.isLt
  rw [Int8.lt_iff_toInt_lt, UInt8.le_iff_toNat_le, Int8.toInt, hbits, BitVec.toInt_eq_toNat_cond,
    hnat, hzero, hhalf]
  split_ifs <;> omega

theorem single_byte {ch : Char} (h : ch.utf8Size = 1) :
    ch.val.toUInt8.toNat = ch.val.toNat ∧ ch.val.toNat ≤ 127 := by
  have hle := Char.utf8Size_eq_one_iff.mp h
  have hmax : (127 : UInt32).toNat = 127 := rfl
  rw [UInt32.le_iff_toNat_le, hmax] at hle
  refine ⟨?_, hle⟩
  rw [UInt32.toNat_toUInt8]
  exact Nat.mod_eq_of_lt (by omega)

/-- The last byte of a character tells how many it has. -/
theorem Letter.bytes_cases (c : Letter) :
    (∃ b, c.bytes = [b] ∧ b ≠ 0 ∧ ¬ 128 ≤ b) ∨
      ∃ first second last, c.bytes = [first, second, last] ∧ first ≠ 0 ∧ second ≠ 0 ∧
        128 ≤ last := by
  rcases c.size with ⟨hne, hone⟩ | hthree
  · obtain ⟨hnat, hle⟩ := single_byte hone
    refine .inl ⟨c.ch.val.toUInt8, String.utf8EncodeChar_eq_singleton hone, ?_, ?_⟩
    · intro hzero
      rw [hzero] at hnat
      exact hne (Char.ext (UInt32.toNat.inj hnat.symm))
    · have hhalf : (128 : UInt8).toNat = 128 := rfl
      rw [UInt8.le_iff_toNat_le, hnat, hhalf]
      omega
  · refine .inr ⟨_, _, _, String.utf8EncodeChar_eq_cons_cons_cons hthree, ?_, ?_, le_or _ _⟩
    · exact ne_zero_of_le (UInt8.le_trans (by decide) (le_or _ 0xe0))
    · exact ne_zero_of_le (le_or _ 0x80)

theorem encode_noNul (cs : List Letter) : 0 ∉ encode cs := by
  intro hmem
  obtain ⟨c, -, hc⟩ := List.mem_flatMap.mp hmem
  rcases c.bytes_cases with ⟨b, hbytes, hb, -⟩ | ⟨b₁, b₂, b₃, hbytes, h₁, h₂, h₃⟩
  · rw [hbytes, List.mem_singleton] at hc
    exact hb hc.symm
  · have hne := ne_zero_of_le h₃
    grind

def text (cs : List Letter) : CString := ⟨encode cs, encode_noNul cs⟩

/-! ## The loops -/

variable {str : CString} {A B rest : List UInt8} {b : UInt8} {c : Letter} {cs : List Letter}

theorem byteAt_eq (h : str.bytes ++ [0] = A ++ b :: B) {p : ℤ} (hp : p = A.length) :
    byteAt str p = some b := by
  rw [byteAt, if_pos (by omega), hp, Int.toNat_natCast, h]
  simp

/-- The first loop counts all bytes, as far as an `int` can. -/
theorem end_returns (h : str.bytes = A ++ B) :
    Returns (fun fuel => run (endTurn str) fuel (A.length, wrap A.length))
      (str.bytes.length, wrap str.bytes.length) := by
  induction B generalizing A with
  | nil =>
      rw [List.append_nil] at h
      have hnul : byteAt str A.length = some 0 := byteAt_eq (B := []) (by rw [h]) rfl
      refine returns_leave ?_
      rw [endTurn, hnul, ← h]
      rfl
  | cons b B ih =>
      have hbyte : byteAt str A.length = some b :=
        byteAt_eq (B := B ++ [0]) (by rw [h, List.append_assoc]; rfl) rfl
      have hb : b ≠ 0 := by
        rintro rfl
        exact str.noNul (by simp [h])
      have hrest := ih (A := A ++ [b]) (by rw [h, List.append_assoc]; rfl)
      rw [List.length_append, List.length_singleton, Int.natCast_add, Int.natCast_one,
        ← wrap_add_left] at hrest
      refine hrest.again ?_
      rw [endTurn, hbyte, Option.map_some, if_pos hb]

theorem wrap_eq_zero {n : ℕ} : wrap n = 0 ↔ n % 2 ^ 32 = 0 := by
  rw [wrap, Int.bmod_def]
  split_ifs <;> omega

theorem encode_cons (c : Letter) (cs : List Letter) : encode (c :: cs) = c.bytes ++ encode cs :=
  List.flatMap_cons

theorem encode_append (cs cs' : List Letter) : encode (cs ++ cs') = encode cs ++ encode cs' :=
  List.flatMap_append

theorem encode_reverse_cons (c : Letter) (cs : List Letter) :
    encode (c :: cs).reverse = encode cs.reverse ++ c.bytes := by
  rw [List.reverse_cons, encode_append, encode_cons]
  simp [encode]

theorem encode_reverse_length (cs : List Letter) :
    (encode cs.reverse).length = (encode cs).length := by
  induction cs with
  | nil => rfl
  | cons c cs ih =>
      rw [encode_reverse_cons, encode_cons, List.length_append, List.length_append, ih,
        Nat.add_comm]

/-- What the second loop prints, with the characters from the last one on. -/
def backwards : List Letter → List UInt8
  | [] => []
  | c :: cs =>
      if (encode (c :: cs)).length % 2 ^ 32 = 0 then [] else c.bytes ++ backwards cs

/-- One turn prints one character. -/
theorem back_turn (h : str.bytes = encode cs.reverse ++ (c.bytes ++ rest))
    (hlen : wrap (encode (c :: cs)).length ≠ 0) (out : List UInt8) :
    backTurn str ((encode (c :: cs)).length - 1, wrap (encode (c :: cs)).length, out) =
      some (.again ((encode cs).length - 1, wrap (encode cs).length, out ++ c.bytes)) := by
  have hlength := encode_reverse_length cs
  rcases c.bytes_cases with ⟨b, hbytes, -, hb⟩ | ⟨first, second, last, hbytes, -, -, hlast⟩
  · have hsize : (encode (c :: cs)).length = (encode cs).length + 1 := by
      rw [encode_cons, hbytes, List.length_append, Nat.add_comm]
      rfl
    have hbyte : byteAt str (encode cs).length = some b :=
      byteAt_eq (A := encode cs.reverse) (B := rest ++ [0]) (by rw [h, hbytes]; simp) (by omega)
    have hp : ((encode (c :: cs)).length : ℤ) - 1 = (encode cs).length := by omega
    simp only [backTurn, if_pos hlen, hbyte, Option.bind_some, negative_iff, if_neg hb,
      wrap_sub_left, hbytes, hp]
  · have hsize : (encode (c :: cs)).length = (encode cs).length + 3 := by
      rw [encode_cons, hbytes, List.length_append, Nat.add_comm]
      rfl
    have hbyte : byteAt str ((encode (c :: cs)).length - 1) = some last :=
      byteAt_eq (A := encode cs.reverse ++ [first, second]) (B := rest ++ [0])
        (by rw [h, hbytes]; simp) (by rw [List.length_append, hlength, hsize]; simp; omega)
    have hfirst : byteAt str ((encode (c :: cs)).length - 1 - 2) = some first :=
      byteAt_eq (A := encode cs.reverse) (B := second :: last :: rest ++ [0])
        (by rw [h, hbytes]; simp) (by omega)
    have hsecond : byteAt str ((encode (c :: cs)).length - 1 - 1) = some second :=
      byteAt_eq (A := encode cs.reverse ++ [first]) (B := last :: rest ++ [0])
        (by rw [h, hbytes]; simp) (by rw [List.length_append, hlength, hsize]; simp; omega)
    have hp : ((encode (c :: cs)).length : ℤ) - 1 - 3 = (encode cs).length - 1 := by omega
    have hrest : ((encode (c :: cs)).length : ℤ) - 3 = (encode cs).length := by omega
    simp only [backTurn, if_pos hlen, hbyte, hfirst, hsecond, Option.bind_some, Option.map_some,
      negative_iff, if_pos hlast, wrap_sub_left, hbytes, hp, hrest]

/-- Between two characters, `p` is at the last byte that is not printed yet, and `len` is the number
of the bytes up to there. -/
theorem back_returns (h : str.bytes = encode cs.reverse ++ rest) (out : List UInt8) :
    Returns (fun fuel => run (backTurn str) fuel
        ((encode cs).length - 1, wrap (encode cs).length, out)) (out ++ backwards cs) := by
  induction cs generalizing rest out with
  | nil => exact returns_leave (by simp [backTurn, backwards, encode, wrap])
  | cons c cs ih =>
      rw [encode_reverse_cons, List.append_assoc] at h
      rw [backwards]
      split_ifs with hstop
      · rw [List.append_nil]
        refine returns_leave ?_
        rw [backTurn, wrap_eq_zero.mpr hstop, if_neg (fun hne => hne rfl)]
      · have hlen : wrap (encode (c :: cs)).length ≠ 0 := fun hzero => hstop (wrap_eq_zero.mp hzero)
        have hrest := ih h (out ++ c.bytes)
        rw [List.append_assoc] at hrest
        exact hrest.again (back_turn h hlen out)

/-! ## The result -/

theorem reverse_of_loops {p len : ℤ} {out : List UInt8}
    (hend : Returns (fun fuel => run (endTurn str) fuel (0, 0)) (p, len))
    (hback : Returns (fun fuel => run (backTurn str) fuel (p - 1, len, [])) out) :
    Returns (fun fuel => reverse fuel str) (echo str ++ out ++ [ascii '\n']) := by
  have hprinted := hback.bind (g := fun out => some (echo str ++ out ++ [ascii '\n'])) rfl
  simp only [reverse, Option.map_eq_bind]
  exact hend.andThen hprinted

theorem reverse_returns (cs : List Letter) : Returns (fun fuel => reverse fuel (text cs))
    (echo (text cs) ++ backwards cs.reverse ++ [ascii '\n']) := by
  have hbytes : (text cs).bytes = [] ++ (text cs).bytes := rfl
  have hfront : (text cs).bytes = encode cs.reverse.reverse ++ [] := by
    rw [List.reverse_reverse, List.append_nil]
    rfl
  have hend := end_returns hbytes
  have hback := back_returns hfront []
  rw [encode_reverse_length, List.nil_append] at hback
  simp only [List.length_nil, Int.natCast_zero, wrap_fits (v := 0) (by decide)] at hend
  exact reverse_of_loops hend hback

def letterA : Letter := ⟨'a', .inl ⟨nofun, rfl⟩⟩

def letterNi : Letter := ⟨'你', .inr rfl⟩

example : reverse 5 (text [letterNi, letterA]) =
    some ("here ".toList.map ascii ++ [228, 189, 160, 97, 10, 97, 228, 189, 160, 10]) := by decide

/-- The output between the echo and the last end of line is the reversed string. -/
def Reverses (cs : List Letter) : Prop :=
  Returns (fun fuel => reverse fuel (text cs))
    (echo (text cs) ++ encode cs.reverse ++ [ascii '\n'])

/-- No number of characters at the start of the string has a multiple of 4 GiB. -/
def Unbroken (cs : List Letter) : Prop :=
  ∀ front, front <+: cs → front ≠ [] → (encode front).length % 2 ^ 32 ≠ 0

theorem Letter.bytes_ne_nil (c : Letter) : c.bytes ≠ [] := String.utf8EncodeChar_ne_nil

theorem unbroken_concat : Unbroken (cs ++ [c]) ↔
    (encode (cs ++ [c])).length % 2 ^ 32 ≠ 0 ∧ Unbroken cs := by
  constructor
  · intro h
    refine ⟨h _ List.prefix_rfl (by simp), fun front hfront => ?_⟩
    exact h front (hfront.trans (List.prefix_append _ _))
  · rintro ⟨hall, h⟩ front hfront hne
    rcases List.prefix_concat_iff.mp hfront with rfl | hfront
    · exact hall
    · exact h front hfront hne

theorem backwards_eq_iff : backwards cs = encode cs ↔ Unbroken cs.reverse := by
  induction cs with
  | nil =>
      refine iff_of_true rfl fun front hfront hne => ?_
      exact absurd (List.prefix_nil.mp hfront) hne
  | cons c cs ih =>
      rw [List.reverse_cons, unbroken_concat, ← List.reverse_cons, encode_reverse_length, ← ih,
        backwards, encode_cons]
      split_ifs with hstop
      · have hne : [] ≠ c.bytes ++ encode cs := fun heq =>
          c.bytes_ne_nil (List.append_eq_nil_iff.mp heq.symm).1
        exact iff_of_false hne fun h => h.1 hstop
      · rw [List.append_cancel_left_eq]
        exact (and_iff_right hstop).symm

theorem reverses_iff_unbroken : Reverses cs ↔ Unbroken cs := by
  have hreturns := reverse_returns cs
  rw [← List.reverse_reverse cs, ← backwards_eq_iff, List.reverse_reverse]
  constructor
  · intro h
    have heq := hreturns.unique h
    simpa using heq
  · intro h
    rwa [h] at hreturns

/-- The reversed string is printed, and comes back when it is reversed again, as long as no
remaining length is 0 as an `int`. -/
theorem reverse_twice_iff :
    Reverses cs ∧ Reverses cs.reverse ↔ Unbroken cs ∧ Unbroken cs.reverse := by
  rw [reverses_iff_unbroken, reverses_iff_unbroken]

theorem encode_replicate_length (n : ℕ) (c : Letter) :
    (encode (List.replicate n c)).length = n * c.bytes.length := by
  induction n with
  | zero => simp [encode]
  | succ n ih =>
      rw [List.replicate_succ, encode_cons, List.length_append, ih, Nat.succ_mul, Nat.add_comm]

theorem not_unbroken_replicate {n : ℕ} (hn : n ≠ 0) (hlength : c.bytes.length = 1)
    (hmod : n % 2 ^ 32 = 0) : ¬ Unbroken (List.replicate n c) := by
  intro h
  apply h _ List.prefix_rfl
  · simp [hn]
  · rw [encode_replicate_length, hlength, Nat.mul_one]
    exact hmod

/-- 4 GiB of the same letter are not reversed. -/
theorem not_reverses_long : ¬ (Reverses (List.replicate (2 ^ 32) letterA) ∧
    Reverses (List.replicate (2 ^ 32) letterA).reverse) := fun h =>
  not_unbroken_replicate (by decide) rfl (by decide) (reverses_iff_unbroken.mp h.1)

end EmbeddedCode.SelfTest
