import EmbeddedCode.Library.Reverse
import EmbeddedCode.Printk.Expansion

/-!
# A number becomes a string

`itoa` of `c_zy/1122_3.c`, which puts the digits behind the place of the sign, the last one first,
and turns them around. For a number without a sign the string is then to be moved by one character
with `strcpy`, whose strings must not overlap.
-/
namespace EmbeddedCode.Conversion

open CInt Loop Printk

/-- A buffer whose cells are `none` until a byte is written there. To read such a cell is a fault,
as is an access outside of the buffer. -/
abbrev Cells := List (Option UInt8)

def put (s : Cells) (i : ℕ) (ch : UInt8) : Option Cells :=
  if i < s.length then some (s.set i (some ch)) else none

/-- `str_reverse` from the index `start` on. Its second parameter is not used. -/
def strReverse (fuel : ℕ) (s : Cells) (start : ℕ) : Option Cells :=
  Reverse.reverse id some 0 fuel s start

/-- The string that a buffer begins with. -/
def stringOf : Cells → Option (List UInt8)
  | [] => none
  | none :: _ => none
  | some ch :: s => if ch = 0 then some [] else (stringOf s).map fun str => ch :: str

/-- `strcpy` of a string that lies elsewhere. -/
def strcpy : Cells → List UInt8 → Option Cells
  | _, [] => none
  | [], _ => none
  | _ :: s, ch :: src => if ch = 0 then some (some 0 :: s) else (strcpy s src).map (some ch :: ·)

/-- `strcpy` between two places of one buffer. Where the string with its NUL overlaps its copy, C
leaves open what happens, which is a fault. -/
def strcpyWithin (s : Cells) (dst src : ℕ) : Option Cells :=
  (stringOf (s.drop src)).bind fun str =>
    if dst ≤ src + str.length ∧ src ≤ dst + str.length then none
    else (strcpy (s.drop dst) (str ++ [0])).map fun copy => s.take dst ++ copy

/-- The loop over the digits, with `m`, the buffer, `i` and `count`. -/
def digitTurn : ℤ × Cells × ℕ × ℕ → Option (Turn (ℤ × Cells × ℕ × ℕ) (Cells × ℕ × ℕ))
  | (m, s, i, count) =>
      if m = 0 then some (.leave (s, i, count))
      else
        (put s i (UInt8.ofInt (m.tmod 10 + 48))).map fun s =>
          .again (m.tdiv 10, s, i + 1, count + 1)

/-- Both versions of `itoa`. They differ in what they do behind the last digit. -/
def itoaWith (terminate : Cells → ℕ → Option Cells) (fuel : ℕ) (s : Cells) (n : Word) :
    Option (Cells × ℕ) :=
  let n := n.toInt
  let m := if n < 0 then wrap (-n) else n
  (put s 0 (if n < 0 then ascii '-' else ascii ' ')).bind fun s =>
  (run digitTurn fuel (m, s, 1, if n < 0 then 1 else 0)).bind fun digits =>
  (terminate digits.1 digits.2.1).bind fun s =>
  (strReverse fuel s 1).bind fun s =>
  (if 0 ≤ n then strcpyWithin s 0 1 else some s).map fun s => (s, digits.2.2)

def itoa (fuel : ℕ) (s : Cells) (n : Word) : Option (Cells × ℕ) :=
  itoaWith (fun s i => put s i 0) fuel s n

section Digits

/-- The character for a remainder. The remainders of a negative number are not positive. -/
def mark (σ : ℤ) (d : ℕ) : UInt8 := UInt8.ofInt (σ * d + 48)

/-- The characters for a number, the last digit first. -/
def marks (σ : ℤ) (k : ℕ) : List UInt8 := (Nat.digits 10 k).map (mark σ)

variable {σ : ℤ} {k c : ℕ} {A B : Cells}

theorem marks_zero : marks σ 0 = [] := by simp [marks]

theorem marks_pos (hk : 0 < k) : marks σ k = mark σ (k % 10) :: marks σ (k / 10) := by
  rw [marks, Nat.digits_def' (by decide) hk]
  rfl

theorem mark_digit : ∀ d < 10, mark 1 d = digit d := by decide

theorem mark_ne_zero (hσ : σ = 1 ∨ σ = -1) : ∀ d < 10, mark σ d ≠ 0 := by
  rcases hσ with rfl | rfl <;> decide

theorem marks_one (k : ℕ) : marks 1 k = digitsUp 10 k := by
  apply List.map_congr_left
  intro d hd
  exact mark_digit d (Nat.digits_lt_base (by decide) hd)

theorem marks_ne_zero (hσ : σ = 1 ∨ σ = -1) (k : ℕ) : 0 ∉ marks σ k := by
  intro hmem
  obtain ⟨d, hd, hzero⟩ := List.mem_map.mp hmem
  exact mark_ne_zero hσ d (Nat.digits_lt_base (by decide) hd) hzero

theorem marks_length_le (hk : k < 10 ^ 10) : (marks σ k).length ≤ 10 := by
  rw [marks, List.length_map]
  exact (Nat.digits_length_le_iff (by decide) k).mpr hk

theorem tmod_mul (hσ : σ = 1 ∨ σ = -1) (k : ℕ) : (σ * k).tmod 10 = σ * (k % 10 : ℕ) := by
  have hk : (k : ℤ).tmod 10 = (k % 10 : ℕ) := Int.tmod_eq_emod_of_nonneg (by omega)
  rcases hσ with rfl | rfl
  · rw [one_mul, one_mul, hk]
  · rw [neg_one_mul, neg_one_mul, Int.neg_tmod, hk]

theorem tdiv_mul (hσ : σ = 1 ∨ σ = -1) (k : ℕ) : (σ * k).tdiv 10 = σ * (k / 10 : ℕ) := by
  have hk : (k : ℤ).tdiv 10 = (k / 10 : ℕ) := Int.tdiv_eq_ediv_of_nonneg (by omega)
  rcases hσ with rfl | rfl
  · rw [one_mul, one_mul, hk]
  · rw [neg_one_mul, neg_one_mul, Int.neg_tdiv, hk]

theorem put_mid (x : Option UInt8) (ch : UInt8) :
    put (A ++ x :: B) A.length ch = some (A ++ some ch :: B) := by
  rw [put, if_pos (by simp)]
  simp

theorem digits_returns (hσ : σ = 1 ∨ σ = -1) (hB : (marks σ k).length ≤ B.length) :
    Returns (fun fuel => run digitTurn fuel (σ * k, A ++ B, A.length, c))
      (A ++ ((marks σ k).map some ++ B.drop (marks σ k).length),
        A.length + (marks σ k).length, c + (marks σ k).length) := by
  induction k using Nat.strong_induction_on generalizing A B c with
  | _ k ih =>
      rcases Nat.eq_zero_or_pos k with rfl | hk
      · apply returns_leave
        simp [digitTurn, marks_zero]
      · have hm : σ * k ≠ 0 := by rcases hσ with rfl | rfl <;> omega
        rw [marks_pos hk, List.length_cons] at hB
        cases B with
        | nil => simp at hB
        | cons x B =>
            have hrest := ih (k / 10) (by omega) (A := A ++ [some (mark σ (k % 10))]) (B := B)
              (c := c + 1) (by rw [List.length_cons] at hB; omega)
            refine Returns.again (t := (σ * (k / 10 : ℕ), A ++ some (mark σ (k % 10)) :: B,
              A.length + 1, c + 1)) ?_ ?_
            · rw [marks_pos hk, List.length_cons, List.drop_succ_cons]
              simpa [← Nat.add_assoc, Nat.add_right_comm] using hrest
            · simp only [digitTurn]
              rw [if_neg hm, tmod_mul hσ, tdiv_mul hσ, put_mid]
              rfl

end Digits

section Copy

variable {B : Cells} {x : Option UInt8} {m : List UInt8}

theorem stringOf_append (hm : 0 ∉ m) (B : Cells) :
    stringOf (m.map some ++ some 0 :: B) = some m := by
  induction m with
  | nil => rfl
  | cons ch m ih =>
      rw [List.mem_cons, not_or] at hm
      simp [stringOf, ih hm.2, Ne.symm hm.1]

/-- Only the empty string does not overlap its copy one place before it. -/
theorem strcpyWithin_shift (hm : 0 ∉ m) :
    strcpyWithin (x :: (m.map some ++ some 0 :: B)) 0 1 =
      if m = [] then some (some 0 :: some 0 :: B) else none := by
  have hstr : stringOf ((x :: (m.map some ++ some 0 :: B)).drop 1) = some m := stringOf_append hm B
  simp only [strcpyWithin, hstr, Option.bind_some]
  cases m with
  | nil => rfl
  | cons a m =>
      rw [if_pos ⟨Nat.zero_le _, by simp only [List.length_cons]; omega⟩, if_neg (by simp)]

end Copy

/-- The factor of the remainders: the smallest `int` is still negative when its sign is removed. -/
def factor (n : Word) : ℤ := if n.toInt = intMin then -1 else 1

theorem factor_or (n : Word) : factor n = 1 ∨ factor n = -1 := by
  unfold factor
  split_ifs <;> simp

theorem magnitude_eq (n : Word) :
    (if n.toInt < 0 then wrap (-n.toInt) else n.toInt) = factor n * n.toInt.natAbs := by
  have hlt := n.toInt_lt
  have hle := n.le_toInt
  unfold factor
  split_ifs with hneg hmin hmin
  · rw [hmin]
    decide
  · rw [wrap_fits] <;> simp only [Fits, intMin, intMax] at * <;> omega
  · simp only [intMin] at hmin
    omega
  · omega

/-- The characters of a number as they are read, without a sign. -/
def digits (n : Word) : List UInt8 := (marks (factor n) n.toInt.natAbs).reverse

def minus (n : Word) : List UInt8 := if n.toInt < 0 then [ascii '-'] else []

/-- What `itoa` prints. For 0 this is nothing. -/
def image (n : Word) : List UInt8 := minus n ++ digits n

/-- What ends the string: the move of a string without a sign leaves its NUL twice. -/
def ending (n : Word) : List UInt8 := if n.toInt < 0 then [0] else [0, 0]

section Result

variable {n : Word} {terminate : Cells → ℕ → Option Cells} {B C t : Cells} {x : Option UInt8}
variable {a : UInt8} {m : List UInt8}

theorem image_length (n : Word) :
    (image n).length = (if n.toInt < 0 then 1 else 0) + (digits n).length := by
  rw [image, List.length_append, minus]
  split_ifs <;> rfl

/-- The buffer in front of the loop. -/
def signCell (n : Word) : Option UInt8 := some (if n.toInt < 0 then ascii '-' else ascii ' ')

/-- From the end of the reversal on. -/
def move (n : Word) (s : Cells) : Option Cells :=
  if 0 ≤ n.toInt then strcpyWithin s 0 1 else some s

theorem move_neg (hn : n.toInt < 0) (m : List UInt8) :
    move n (signCell n :: (m.map some ++ some 0 :: B)) =
      some ((minus n ++ m).map some ++ ((ending n).map some ++ B)) := by
  simp only [move, if_neg (not_le.mpr hn), signCell, minus, ending, if_pos hn]
  rfl

theorem move_nonneg (hn : 0 ≤ n.toInt) (hm : 0 ∉ m) :
    move n (signCell n :: (m.map some ++ some 0 :: B)) =
      if m = [] then some (some 0 :: some 0 :: B) else none := by
  rw [move, if_pos hn, strcpyWithin_shift hm]

/-- Up to the end of the reversal `itoa` returns, and the move decides. -/
theorem itoaWith_returns_iff (hB : (digits n).length ≤ B.length)
    (hterm : terminate (signCell n :: ((digits n).reverse.map some ++ B.drop (digits n).length))
      (1 + (digits n).length) = some (signCell n :: ((a :: m).map some ++ some 0 :: C)))
    (hm : 0 ∉ m) (r : Cells × ℕ) :
    Returns (fun fuel => itoaWith terminate fuel (x :: B) n) r ↔
      (move n (signCell n :: ((a :: m).reverse.map some ++ some 0 :: C))).map
        (fun s => (s, (image n).length)) = some r := by
  have hmarks : marks (factor n) n.toInt.natAbs = (digits n).reverse := by
    rw [digits, List.reverse_reverse]
  have hdigits := digits_returns (factor_or n) (k := n.toInt.natAbs) (A := [signCell n]) (B := B)
    (c := if n.toInt < 0 then 1 else 0) (by rwa [hmarks, List.length_reverse])
  have hreverse := Reverse.reverse_returns id some [signCell n] C (fun _ => rfl) a m hm
  have hput : put (x :: B) 0 (if n.toInt < 0 then ascii '-' else ascii ' ') =
      some (signCell n :: B) := put_mid (A := []) x _
  rw [hmarks, List.length_reverse, ← image_length] at hdigits
  simp only [itoaWith, hput, Option.bind_some, magnitude_eq]
  constructor
  · intro hreturns
    have hafter := hdigits.of_andThen hreturns
    simp only [List.singleton_append, List.length_singleton, hterm, Option.bind_some] at hafter
    exact hreverse.of_bind hafter
  · intro hmove
    refine hdigits.andThen ?_
    simp only [List.singleton_append, List.length_singleton, hterm, Option.bind_some]
    exact hreverse.bind hmove

theorem itoa_settles (s : Cells) (n : Word) : Settles fun fuel => itoa fuel s n := by
  have hreverse (s : Cells) : Settles fun fuel => strReverse fuel s 1 :=
    (settles_run _).andThen fun _ => settles_run _
  refine (settles_const _).andThen fun s => (settles_run _).andThen fun ended => ?_
  refine (settles_const _).andThen fun s => (hreverse s).andThen fun s => ?_
  exact settles_const _

theorem digits_zero (hn : n.toInt = 0) : digits n = [] := by
  rw [digits, hn, Int.natAbs_zero, marks_zero, List.reverse_nil]

theorem image_zero (hn : n.toInt = 0) : image n = [] := by
  rw [image, minus, digits_zero hn, if_neg (by omega)]
  rfl

theorem digits_ne_nil (hn : n.toInt ≠ 0) : digits n ≠ [] := by
  rw [digits, marks_pos (Int.natAbs_pos.mpr hn), List.reverse_cons]
  simp

theorem digits_no_nul (n : Word) : 0 ∉ digits n := by
  rw [digits, List.mem_reverse]
  exact marks_ne_zero (factor_or n) _

theorem digits_length_le (n : Word) : (digits n).length ≤ 10 := by
  have hlt := n.toInt_lt
  have hle := n.le_toInt
  rw [digits, List.length_reverse]
  exact marks_length_le (by omega)

theorem put_nul {c : Option UInt8} {rest : Cells} (hB : B.drop (digits n).length = c :: rest) :
    put (signCell n :: ((digits n).reverse.map some ++ B.drop (digits n).length))
      (1 + (digits n).length) 0 =
        some (signCell n :: ((digits n).reverse.map some ++ some 0 :: rest)) := by
  have hput := put_mid (A := signCell n :: (digits n).reverse.map some) (B := rest) c 0
  rw [hB]
  simpa [Nat.add_comm] using hput

/-- Where there is room for a number, its move decides whether it is printed. -/
theorem itoa_returns_iff (hn : n.toInt ≠ 0) {s : Cells} (hs : (digits n).length + 2 ≤ s.length)
    (r : Cells × ℕ) :
    Returns (fun fuel => itoa fuel s n) r ↔
      (move n (signCell n :: ((digits n).map some ++ some 0 :: s.drop ((digits n).length + 2)))).map
        (fun s => (s, (image n).length)) = some r := by
  obtain ⟨x, B, rfl⟩ : ∃ x B, s = x :: B := List.exists_cons_of_length_pos (by omega)
  obtain ⟨c, rest, hB⟩ : ∃ c rest, B.drop (digits n).length = c :: rest :=
    List.exists_cons_of_length_pos (by
      rw [List.length_cons] at hs
      rw [List.length_drop]
      omega)
  have hrest : (x :: B).drop ((digits n).length + 2) = rest := by
    have hdrop := congrArg (List.drop 1) hB
    rwa [List.drop_drop] at hdrop
  obtain ⟨a, m, ham⟩ : ∃ a m, (digits n).reverse = a :: m :=
    List.exists_cons_of_ne_nil (mt List.reverse_eq_nil_iff.mp (digits_ne_nil hn))
  have hnul : 0 ∉ a :: m := by
    rw [← ham, List.mem_reverse]
    exact digits_no_nul n
  have hdigits : (a :: m).reverse = digits n := by rw [← ham, List.reverse_reverse]
  rw [List.length_cons] at hs
  rw [hrest, ← hdigits]
  exact itoaWith_returns_iff (by omega) (by rw [put_nul hB, ham])
    (List.not_mem_of_not_mem_cons hnul) r

theorem itoa_negative (hn : n.toInt < 0) {s : Cells} (hs : (digits n).length + 2 ≤ s.length) :
    Returns (fun fuel => itoa fuel s n)
      ((image n).map some ++ ((ending n).map some ++ s.drop ((digits n).length + 2)),
        (image n).length) := by
  rw [itoa_returns_iff (by omega) hs, move_neg hn]
  rfl

/-- A positive number would have to be moved onto itself. -/
theorem itoa_positive (hn : 0 < n.toInt) {s : Cells} (hs : (digits n).length + 2 ≤ s.length)
    (r : Cells × ℕ) : ¬ Returns (fun fuel => itoa fuel s n) r := by
  rw [itoa_returns_iff (by omega) hs, move_nonneg hn.le (digits_no_nul n),
    if_neg (digits_ne_nil (by omega))]
  exact Option.some_ne_none _ ∘ Eq.symm

/-- For 0 the search for the end of the digits goes on behind the NUL, and what is found there is
turned around and to be moved. -/
theorem itoa_zero_iff (hn : n.toInt = 0) {c : Option UInt8} (hm : 0 ∉ m) (r : Cells × ℕ) :
    Returns (fun fuel => itoa fuel (x :: c :: (m.map some ++ some 0 :: B)) n) r ↔
      m = [] ∧ r = (some 0 :: some 0 :: some 0 :: B, 0) := by
  have hdigits := digits_zero hn
  have hterm : put (signCell n :: ((digits n).reverse.map some ++
      (c :: (m.map some ++ some 0 :: B)).drop (digits n).length)) (1 + (digits n).length) 0 =
        some (signCell n :: ((0 :: m).map some ++ some 0 :: B)) := by
    rw [put_nul (by rw [hdigits]; rfl), hdigits]
    rfl
  have hB : (digits n).length ≤ (c :: (m.map some ++ some 0 :: B)).length := by simp [hdigits]
  have hreturns : Returns (fun fuel => itoa fuel (x :: c :: (m.map some ++ some 0 :: B)) n) r ↔ _ :=
    itoaWith_returns_iff hB hterm hm r
  have hmove := move_nonneg (n := n) (m := m.reverse) (B := some 0 :: B) (by omega)
    (by rwa [List.mem_reverse])
  have hcells : (0 :: m).reverse.map some ++ some 0 :: B =
      m.reverse.map some ++ some 0 :: some 0 :: B := by simp
  rw [hcells, hmove, image_zero hn] at hreturns
  refine hreturns.trans ?_
  by_cases hm' : m = []
  · simp [hm', eq_comm]
  · simp [hm']

end Result

/-- Whatever a buffer of 12 bytes and more holds, `itoa` writes the numeral of the number there
without reading what it has not written, and returns its length. -/
def PrintsNumeral (n : Word) : Prop :=
  ∀ prior : Cells, 12 ≤ prior.length → ∃ s, s.drop 12 = prior.drop 12 ∧ s.length = prior.length ∧
    (signedNumeral n).map some ++ [some 0] <+: s ∧
    Returns (fun fuel => itoa fuel prior n) (s, (signedNumeral n).length)

theorem image_eq {n : Word} (hzero : n.toInt ≠ 0) (hmin : n.toInt ≠ intMin) :
    image n = signedNumeral n := by
  rw [image, minus, digits, signedNumeral, factor, if_neg hmin, marks_one,
    numeral_eq (by decide) (Int.natAbs_pos.mpr hzero)]

theorem written_length (n : Word) :
    (image n).length + (ending n).length = (digits n).length + 2 := by
  rw [image, List.length_append, minus, ending]
  split_ifs <;> simp only [List.length_cons, List.length_nil] <;> omega

theorem printsNumeral_of_negative {n : Word} (hn : n.toInt < 0) (hmin : n.toInt ≠ intMin) :
    PrintsNumeral n := by
  intro prior hprior
  have hlength := digits_length_le n
  have hreturns := itoa_negative hn (s := prior) (by omega)
  rw [image_eq hn.ne hmin] at hreturns
  have hwritten := written_length n
  rw [image_eq hn.ne hmin] at hwritten
  refine ⟨_, ?_, ?_, ?_, hreturns⟩
  · have hlen : ((signedNumeral n).map some ++ (ending n).map some).length =
        (digits n).length + 2 := by
      rw [List.length_append, List.length_map, List.length_map, hwritten]
    rw [← List.append_assoc, List.drop_append, hlen, List.drop_eq_nil_of_le (by omega),
      List.nil_append, List.drop_drop, Nat.add_sub_cancel' (by omega)]
  · simp only [List.length_append, List.length_map, List.length_drop]
    omega
  · rw [ending, if_pos hn]
    exact ⟨prior.drop ((digits n).length + 2), by simp⟩

/-- The string of a positive number overlaps the place to which it is moved. -/
theorem not_printsNumeral_positive {n : Word} (hn : 0 < n.toInt) : ¬ PrintsNumeral n := by
  intro hprints
  have hlength := digits_length_le n
  obtain ⟨s, -, -, -, hreturns⟩ := hprints (List.replicate 12 none) (by decide)
  exact itoa_positive hn (by simp only [List.length_replicate]; omega) _ hreturns

theorem not_printsNumeral_zero {n : Word} (hn : n.toInt = 0) : ¬ PrintsNumeral n := by
  intro hprints
  obtain rfl : n = 0 := BitVec.eq_of_toInt_eq hn
  obtain ⟨s, -, -, -, N, hN⟩ := hprints (List.replicate 12 none) (by decide)
  have hrun := hN (N + 1) (Nat.le_succ N)
  simp [itoa, itoaWith, put, run, digitTurn, strReverse, Reverse.reverse, Reverse.tailTurn] at hrun

theorem not_printsNumeral_min {n : Word} (hn : n.toInt = intMin) : ¬ PrintsNumeral n := by
  intro hprints
  obtain rfl : n = BitVec.intMin 32 := BitVec.eq_of_toInt_eq hn
  obtain ⟨s, -, -, hprefix, hreturns⟩ := hprints (List.replicate 12 none) (by decide)
  have hs := hreturns.unique (itoa_negative (by decide) (by decide))
  rw [(Prod.mk.inj hs).1] at hprefix
  have hshort := List.prefix_of_prefix_length_le ((List.prefix_append _ _).trans hprefix)
    (List.prefix_append _ _) (by decide)
  exact absurd (hshort.eq_of_length (by decide)) (by decide)

/-- `itoa` prints the negative numbers but the smallest `int`, which gets characters that are no
digits. A positive number is moved onto itself, and for 0 what is left of an earlier string is
read. -/
theorem itoa_numeral_iff (n : Word) : PrintsNumeral n ↔ intMin < n.toInt ∧ n.toInt < 0 := by
  have hle := n.le_toInt
  constructor
  · intro hprints
    have hzero : n.toInt ≠ 0 := fun hn => not_printsNumeral_zero hn hprints
    have hmin : n.toInt ≠ intMin := fun hn => not_printsNumeral_min hn hprints
    have hpos : ¬ 0 < n.toInt := fun hn => not_printsNumeral_positive hn hprints
    simp only [intMin] at hmin ⊢
    omega
  · rintro ⟨hmin, hn⟩
    exact printsNumeral_of_negative hn hmin.ne'

/-- The string 1234 is not moved to the place one before it. -/
theorem itoa_overlaps : ¬ PrintsNumeral 1234 ∧
    ∀ r, ¬ Returns (fun fuel => itoa fuel (List.replicate 12 (some 0)) 1234) r :=
  ⟨not_printsNumeral_positive (by decide), itoa_positive (by decide) (by decide)⟩

end EmbeddedCode.Conversion
