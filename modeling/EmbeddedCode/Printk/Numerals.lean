import EmbeddedCode.Library.Reverse
import EmbeddedCode.Printk.Model
import Mathlib.Data.Nat.Digits.Lemmas

/-!
# What `itoa` prints

The loop of `itoa` leaves the digits of the number in the buffer, the last one first, and
`str_reverse` turns them around. The buffer has room for every number in every base.
-/
namespace EmbeddedCode.Printk

open Loop

section Reverse

/-- All bytes of the buffer are read as they are. -/
theorem tailTurn_eq : tailTurn = Reverse.tailTurn some 0 := by
  funext str tail
  rw [tailTurn, Reverse.tailTurn, Option.bind_fun_some]

theorem swapTurn_eq : swapTurn = Reverse.swapTurn some id := by
  funext s
  simp only [swapTurn, Reverse.swapTurn, Option.bind_fun_some, id]

theorem strReverse_returns (B m : List UInt8) (hne : m ≠ []) (hm : 0 ∉ m) :
    Returns (fun fuel => strReverse fuel (m ++ 0 :: B)) (m.reverse ++ 0 :: B) := by
  cases m with
  | nil => contradiction
  | cons a m =>
      rw [List.mem_cons, not_or] at hm
      have hreverse := Reverse.reverse_returns some id [] B (fun _ => rfl) a m
        hm.2
      simp only [List.map_id] at hreverse
      simp only [strReverse, tailTurn_eq, swapTurn_eq]
      exact hreverse

end Reverse

section Digits

variable {base : ℕ} {A B : List UInt8} {n : Word} {isSigned : Bool}

/-- The buffer starts with `A`, and the pointer is behind it. -/
def filled (A B : List UInt8) : Cursor := ⟨A ++ B, A.length, A.length⟩

theorem put_filled (A B : List UInt8) (b ch : UInt8) :
    (filled A (b :: B)).put ch = some (filled (A ++ [ch]) B) := by
  have hlt : (filled A (b :: B)).p < (filled A (b :: B)).str.length := by
    simp [filled]
  rw [Cursor.put, if_pos hlt]
  simp [filled]

theorem put_filled_drop (hB : 0 < B.length) (ch : UInt8) :
    (filled A B).put ch = some (filled (A ++ [ch]) (B.drop 1)) := by
  cases B with
  | nil => cases hB
  | cons b B => exact put_filled A B b ch

def digit (d : ℕ) : UInt8 := ascii (Nat.digitChar d)

theorem tab_digit : ∀ d < 16, tab[d]? = some (digit d) ∧ digit d ≠ 0 := by decide

/-- The digits in the order in which the loop finds them. -/
def digitsUp (base n : ℕ) : List UInt8 := (Nat.digits base n).map digit

theorem digitsUp_pos (hb : 1 < base) {k : ℕ} (hk : 0 < k) :
    digitsUp base k = digit (k % base) :: digitsUp base (k / base) := by
  rw [digitsUp, Nat.digits_def' hb hk]
  rfl

theorem digit_turn (hb : 1 < base) (hb' : base ≤ 16) (hn : n ≠ 0) (hB : 0 < B.length) :
    digitTurn base (n, filled A B) =
      some (.again (BitVec.ofNat 32 (n.toNat / base),
        filled (A ++ [digit (n.toNat % base)]) (B.drop 1))) := by
  have hlt : n.toNat % base < 16 := (Nat.mod_lt _ (by omega)).trans_le hb'
  simp only [digitTurn]
  rw [if_neg hn, (tab_digit _ hlt).1, Option.bind_some, put_filled_drop hB, Option.map_some]

theorem digits_returns (hb : 1 < base) (hb' : base ≤ 16)
    (hB : (digitsUp base n.toNat).length ≤ B.length) :
    Returns (fun fuel => run (digitTurn base) fuel (n, filled A B))
      (filled (A ++ digitsUp base n.toNat) (B.drop (digitsUp base n.toNat).length)) := by
  induction hk : n.toNat using Nat.strong_induction_on generalizing n A B with
  | _ k ih =>
      by_cases hn : n = 0
      · subst hn
        obtain rfl : k = 0 := hk.symm
        refine returns_leave ?_
        simp [digitTurn, digitsUp]
      · have hpos : 0 < n.toNat := by
          by_contra hzero
          exact hn (BitVec.eq_of_toNat_eq (by simpa using hzero))
        have hdiv : n.toNat / base < n.toNat := Nat.div_lt_self hpos hb
        have hquot : (BitVec.ofNat 32 (n.toNat / base)).toNat = n.toNat / base :=
          Nat.mod_eq_of_lt (hdiv.trans n.isLt)
        rw [digitsUp_pos hb hpos, List.length_cons] at hB
        have hrest := ih (n.toNat / base) (hk ▸ hdiv) (n := BitVec.ofNat 32 (n.toNat / base))
          (A := A ++ [digit (n.toNat % base)]) (B := B.drop 1)
          (by rw [hquot, List.length_drop]; omega) hquot
        refine Returns.again ?_ (digit_turn hb hb' hn (by omega))
        rw [← hk, digitsUp_pos hb hpos]
        simpa [Nat.add_comm] using hrest

theorem digitsUp_length (hb : 1 < base) {k m : ℕ} (hk : k < base ^ m) :
    (digitsUp base k).length ≤ m := by
  rw [digitsUp, List.length_map]
  exact (Nat.digits_length_le_iff hb k).mpr hk

theorem digitsUp_ne_zero (hb : 1 < base) (hb' : base ≤ 16) (k : ℕ) : 0 ∉ digitsUp base k := by
  intro hmem
  obtain ⟨d, hd, hzero⟩ := List.mem_map.mp hmem
  exact (tab_digit d ((Nat.digits_lt_base hb hd).trans_le hb')).2 hzero

def numeral (base n : ℕ) : List UInt8 := (Nat.toDigits base n).map ascii

theorem numeral_eq (hb : 1 < base) {k : ℕ} (hk : 0 < k) :
    numeral base k = (digitsUp base k).reverse := by
  induction k using Nat.strong_induction_on with
  | _ k ih =>
      rw [digitsUp_pos hb hk, List.reverse_cons, numeral, Nat.toDigits_eq_if hb]
      split_ifs with hlt
      · rw [Nat.div_eq_of_lt hlt, Nat.mod_eq_of_lt hlt]
        simp [digitsUp, digit]
      · have hpos : 0 < k / base := Nat.div_pos (by omega) (by omega)
        rw [← ih (k / base) (Nat.div_lt_self hk hb) hpos, List.map_append]
        rfl

/-- What the buffer holds in front of a sign. -/
def numeralUp (base k : ℕ) : List UInt8 := if k = 0 then [ascii '0'] else digitsUp base k

theorem numeralUp_reverse (hb : 1 < base) (k : ℕ) :
    (numeralUp base k).reverse = numeral base k := by
  unfold numeralUp
  split_ifs with hk
  · rw [hk, numeral, Nat.toDigits_zero]
    rfl
  · exact (numeral_eq hb (Nat.pos_of_ne_zero hk)).symm

theorem numeralUp_length (hb : 1 < base) {k m : ℕ} (hm : 0 < m) (hk : k < base ^ m) :
    (numeralUp base k).length ≤ m := by
  unfold numeralUp
  split_ifs
  · exact hm
  · exact digitsUp_length hb hk

theorem numeralUp_ne_zero (hb : 1 < base) (hb' : base ≤ 16) (k : ℕ) :
    0 ∉ numeralUp base k := by
  unfold numeralUp
  split_ifs
  · decide
  · exact digitsUp_ne_zero hb hb' k

theorem numeralUp_ne_nil (hb : 1 < base) (k : ℕ) : numeralUp base k ≠ [] := by
  unfold numeralUp
  split_ifs with hk
  · simp
  · rw [digitsUp_pos hb (Nat.pos_of_ne_zero hk)]
    simp

/-- The number 0 has its digit from the branch in front of the loop. -/
theorem numeral_returns (hb : 1 < base) (hb' : base ≤ 16) {str : List UInt8}
    (hlen : (numeralUp base n.toNat).length ≤ str.length) :
    Returns (fun fuel => (if n = 0 then (filled [] str).put (ascii '0')
        else some (filled [] str)).bind fun cur => run (digitTurn base) fuel (n, cur))
      (filled (numeralUp base n.toNat) (str.drop (numeralUp base n.toNat).length)) := by
  by_cases hn : n = 0
  · subst hn
    have hpos : 0 < str.length := Nat.lt_of_lt_of_le (by simp [numeralUp]) hlen
    simp only [if_pos, put_filled_drop hpos, Option.bind_some]
    exact returns_leave (by simp [digitTurn, numeralUp])
  · have hpos : n.toNat ≠ 0 := fun hzero => hn (BitVec.eq_of_toNat_eq (by simpa using hzero))
    simp only [if_neg hn, Option.bind_some, numeralUp, if_neg hpos] at hlen ⊢
    exact digits_returns hb hb' hlen

theorem printStr_append (hA : 0 ∉ A) : printStr (A ++ 0 :: B) = some A := by
  have hall : ∀ a ∈ A, decide (a ≠ 0) = true := by
    intro a ha
    have hne : a ≠ 0 := fun hzero => hA (hzero ▸ ha)
    simp [hne]
  rw [printStr, if_pos (by simp), List.takeWhile_append_of_pos hall]
  simp

theorem finish_returns (hne : A ≠ []) (hA : 0 ∉ A) (hB : 0 < B.length) :
    Returns (fun fuel => ((filled A B).put 0).bind fun last =>
        (strReverse fuel last.str).bind fun str =>
        (printStr str).map fun out => (str, out, (filled A B).count))
      (A.reverse ++ 0 :: B.drop 1, A.reverse, A.length) := by
  have hstr : (filled (A ++ [0]) (B.drop 1)).str = A ++ 0 :: B.drop 1 := by simp [filled]
  have hrev : 0 ∉ A.reverse := by rwa [List.mem_reverse]
  simp only [put_filled_drop hB, Option.bind_some, hstr]
  apply (strReverse_returns (B.drop 1) A hne hA).bind
  rw [printStr_append hrev]
  rfl

/-- The value whose digits are printed. -/
def magnitude (n : Word) (base : ℕ) (isSigned : Bool) : Word :=
  if base = 10 ∧ isSigned = true ∧ n.toInt < 0 then -n else n

def sign (n : Word) (base : ℕ) (isSigned : Bool) : List UInt8 :=
  if base = 10 ∧ isSigned = true ∧ n.toInt < 0 then [ascii '-'] else []

theorem sign_length (n : Word) (base : ℕ) (isSigned : Bool) :
    (sign n base isSigned).length ≤ if base = 10 then 1 else 0 := by
  unfold sign
  split_ifs with h h' h' <;> first | exact absurd h.1 h' | decide

theorem sign_reverse (n : Word) (base : ℕ) (isSigned : Bool) :
    (sign n base isSigned).reverse = sign n base isSigned := by
  unfold sign
  split_ifs <;> rfl

theorem sign_ne_zero (n : Word) (base : ℕ) (isSigned : Bool) : 0 ∉ sign n base isSigned := by
  unfold sign
  split_ifs <;> decide

/-- Every number has room in the buffer, with its sign and the NUL. Only decimal numbers, which
are short, have a sign. -/
theorem room (hb : 1 < base) (n m : Word) (isSigned : Bool) :
    (numeralUp base m.toNat).length + (sign n base isSigned).length < bufLen := by
  have hsign := sign_length n base isSigned
  have hlt := m.isLt
  by_cases hbase : base = 10
  · subst hbase
    have hdigits : (numeralUp 10 m.toNat).length ≤ 10 :=
      numeralUp_length (by decide) (by decide) (hlt.trans (by decide))
    rw [if_pos rfl] at hsign
    unfold bufLen
    omega
  · have hpow : 2 ^ 32 ≤ base ^ 32 := Nat.pow_le_pow_left hb 32
    have hdigits : (numeralUp base m.toNat).length ≤ 32 :=
      numeralUp_length hb (by decide) (hlt.trans_le hpow)
    rw [if_neg hbase] at hsign
    unfold bufLen
    omega

theorem itoa_eq (fuel : ℕ) (str : List UInt8) (n : Word) (base : ℕ) (isSigned : Bool) :
    itoa fuel str n base isSigned =
      ((if magnitude n base isSigned = 0 then (filled [] str).put (ascii '0')
        else some (filled [] str)).bind fun cur =>
          run (digitTurn base) fuel (magnitude n base isSigned, cur)).bind fun cur =>
      (if base = 10 ∧ isSigned = true ∧ n.toInt < 0 then cur.put (ascii '-')
        else some cur).bind fun cur =>
      (cur.put 0).bind fun last =>
      (strReverse fuel last.str).bind fun str =>
      (printStr str).map fun out => (str, out, cur.count) := by
  rw [Option.bind_assoc]
  rfl

theorem put_sign (hB : (sign n base isSigned).length ≤ B.length) :
    (if base = 10 ∧ isSigned = true ∧ n.toInt < 0 then (filled A B).put (ascii '-')
        else some (filled A B)) =
      some (filled (A ++ sign n base isSigned) (B.drop (sign n base isSigned).length)) := by
  unfold sign at hB ⊢
  split_ifs at hB ⊢
  · exact put_filled_drop hB _
  · simp

/-- The buffer behind a call of `itoa`: a text with its NUL in front of what was there. -/
def written (str text : List UInt8) : List UInt8 := text ++ 0 :: str.drop (text.length + 1)

theorem written_length {str text : List UInt8} (hlt : text.length < str.length) :
    (written str text).length = str.length := by
  simp only [written, List.length_append, List.length_cons, List.length_drop]
  omega

/-- The characters that `itoa` prints are the numeral with its sign, and it counts them all. -/
theorem itoa_returns (hb : 1 < base) (hb' : base ≤ 16) {str : List UInt8}
    (hlen : str.length = bufLen) (n : Word) (isSigned : Bool) :
    let text := sign n base isSigned ++ numeral base (magnitude n base isSigned).toNat
    text.length < bufLen ∧
      Returns (fun fuel => itoa fuel str n base isSigned)
        (written str text, text, text.length) := by
  have hroom := room hb n (magnitude n base isSigned) isSigned
  generalize hm : magnitude n base isSigned = m at *
  have hdigits : Returns _ (filled (numeralUp base m.toNat)
      (str.drop (numeralUp base m.toNat).length)) :=
    numeral_returns hb hb' (by omega)
  have hdrop : (sign n base isSigned).length ≤
      (str.drop (numeralUp base m.toNat).length).length := by
    rw [List.length_drop]
    omega
  have hzero : 0 ∉ numeralUp base m.toNat ++ sign n base isSigned := by
    rw [List.mem_append, not_or]
    exact ⟨numeralUp_ne_zero hb hb' m.toNat, sign_ne_zero n base isSigned⟩
  have hne : numeralUp base m.toNat ++ sign n base isSigned ≠ [] :=
    List.append_ne_nil_of_left_ne_nil (numeralUp_ne_nil hb m.toNat) _
  have htext : sign n base isSigned ++ numeral base m.toNat =
      (numeralUp base m.toNat ++ sign n base isSigned).reverse := by
    rw [List.reverse_append, sign_reverse, numeralUp_reverse hb]
  obtain ⟨rest, hrest⟩ : ∃ rest, rest =
      (str.drop (numeralUp base m.toNat).length).drop (sign n base isSigned).length := ⟨_, rfl⟩
  have hcount : rest.length =
      bufLen - (numeralUp base m.toNat).length - (sign n base isSigned).length := by
    rw [hrest, List.length_drop, List.length_drop, hlen]
  have hbehind : rest.drop 1 =
      str.drop ((numeralUp base m.toNat ++ sign n base isSigned).length + 1) := by
    rw [hrest, List.drop_drop, List.drop_drop, List.length_append, Nat.add_assoc]
  have hlast := finish_returns (B := rest) hne hzero (by omega)
  simp only [htext, written, List.length_reverse, ← hbehind]
  refine ⟨by rw [List.length_append]; exact hroom, ?_⟩
  simp only [itoa_eq, hm]
  apply hdigits.andThen
  rw [put_sign hdrop, ← hrest]
  exact hlast

end Digits

theorem neg_toNat {n : Word} (hn : n.toInt < 0) : (-n).toNat = n.toInt.natAbs := by
  have hlt := n.isLt
  rw [BitVec.toInt_eq_toNat_cond] at hn ⊢
  rw [BitVec.toNat_neg]
  split_ifs at hn ⊢ <;> omega

end EmbeddedCode.Printk
