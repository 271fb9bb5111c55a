import EmbeddedCode.Conversion.Itoa
import Mathlib.Data.List.Chain

/-!
# `m_printf`

`m_printf` of `c_zy/1122_3.c`. All numbers of a call are converted in one buffer, which is zero at
first. The format ends with its NUL, and behind that there is nothing to read.
-/
namespace EmbeddedCode.Conversion

open CInt Loop Printk

structure State where
  /-- The arguments that are not used yet. -/
  ap : List Arg
  s : Cells
  /-- What has been written to `stdout`. -/
  out : List UInt8
  count : ℤ

namespace State

def putchar (st : State) (ch : UInt8) : State :=
  {st with
    out := st.out ++ [ch]
    count := wrap (st.count + 1)}

/-- The `switch` over the character behind a `%`. The number that `itoa` leaves is written by
`fputs`. -/
def convert (fuel : ℕ) (st : State) (ch : UInt8) : Option State :=
  if ch = ascii 'd' then
    match st.ap with
    | .int n :: ap =>
        (itoa fuel st.s n).bind fun r =>
        (stringOf r.1).map fun out =>
          ⟨ap, r.1, st.out ++ out, wrap (st.count + r.2)⟩
    | _ => none
  else if ch = ascii 'c' then
    match st.ap with
    | .int n :: ap => some {st.putchar (UInt8.ofInt n.toInt) with ap := ap}
    | _ => none
  else if ch = ascii 's' then
    match st.ap with
    | .str str :: ap => some {st with
        ap := ap
        out := st.out ++ str.bytes
        count := wrap (st.count + str.strlen)}
    | _ => none
  else if ch = ascii '%' then some (st.putchar ch)
  else some (st.putchar (ascii '%'))

def loop (fuel : ℕ) : List UInt8 → State → Option State
  | [], _ => none
  | ch :: fmt, st =>
      if ch = 0 then some st
      else if ch = ascii '%' then
        match fmt with
        | [] => none
        | conv :: fmt => (st.convert fuel conv).bind (loop fuel fmt)
      else loop fuel fmt (st.putchar ch)

end State

def CNT : ℕ := 100

/-- The state at the end, with what has been written and the result `count`. -/
def mPrintf (fuel : ℕ) (fmt : CString) (args : List Arg) : Option State :=
  State.loop fuel (fmt.bytes ++ [0]) ⟨args, List.replicate CNT (some 0), [], 0⟩

/-- A part of a format, with the argument that it takes. -/
inductive Piece where
  | lit (ch : UInt8)
  | dec (n : Word)
  | chr (n : Word)
  | str (s : CString)
  /-- A `%%`, with the format from its second character on. -/
  | percent (fmt : List UInt8)
  /-- A `%` and a character that is no conversion. -/
  | other (ch : UInt8)
  /-- A `%` at the end of the format. -/
  | lone

/-- A conversion, with the format behind it and the arguments. -/
def Piece.conversion (ch : UInt8) (fmt : List UInt8) : List Arg → Option (Piece × List Arg)
  | args =>
    if ch = ascii 'd' then
      match args with
      | .int n :: args => some (.dec n, args)
      | _ => none
    else if ch = ascii 'c' then
      match args with
      | .int n :: args => some (.chr n, args)
      | _ => none
    else if ch = ascii 's' then
      match args with
      | .str s :: args => some (.str s, args)
      | _ => none
    else if ch = ascii '%' then some (.percent (ch :: fmt), args)
    else some (.other ch, args)

/-- The parts of a format. There are none if the arguments do not match it. -/
def pieces : List UInt8 → List Arg → Option (List Piece)
  | [], _ => some []
  | ch :: fmt, args =>
      if ch = ascii '%' then
        match fmt with
        | [] => some [.lone]
        | conv :: fmt =>
            (Piece.conversion conv fmt args).bind fun r =>
            (pieces fmt r.2).map fun ps => r.1 :: ps
      else (pieces fmt args).map fun ps => .lit ch :: ps

/-! ## The buffer -/

/-- The part of a list in front of the first zero. -/
def beforeZero (l : List UInt8) : List UInt8 := l.takeWhile (· ≠ 0)

/-- The rest of the list, from the first zero on. -/
def fromZero (l : List UInt8) : List UInt8 := l.dropWhile (· ≠ 0)

theorem beforeZero_append (l : List UInt8) : beforeZero l ++ fromZero l = l :=
  List.takeWhile_append_dropWhile

theorem beforeZero_no_nul (l : List UInt8) : 0 ∉ beforeZero l := by
  intro hmem
  simpa using List.mem_takeWhile_imp hmem

theorem fromZero_eq {l : List UInt8} (h : 0 ∈ l) : ∃ B, fromZero l = 0 :: B := by
  induction l with
  | nil => cases h
  | cons ch l ih =>
      by_cases hch : ch = 0
      · exact ⟨l, by simp [fromZero, hch]⟩
      · obtain ⟨B, hB⟩ := ih ((List.mem_cons.mp h).resolve_left (Ne.symm hch))
        exact ⟨B, by simpa [fromZero, hch] using hB⟩

theorem beforeZero_eq_nil {l : List UInt8} (h : 0 ∈ l) :
    beforeZero l = [] ↔ l.head? = some 0 := by
  cases l with
  | nil => cases h
  | cons ch l => simp [beforeZero]

/-- The buffer behind a number that is written. -/
def after (b : List UInt8) (n : Word) : List UInt8 :=
  image n ++ (ending n ++ b.drop ((digits n).length + 2))

structure Ended (b : List UInt8) : Prop where
  length : b.length = CNT
  last : b.getLast? = some 0

/-- The third byte of the buffer is not zero. -/
def Stale (b : List UInt8) : Prop := (b.drop 2).head? ≠ some 0

/-- What `itoa` does not have to move onto itself: a number with a sign, and the 0 of which no
characters are found. -/
def Fixed (b : List UInt8) (n : Word) : Prop := n.toInt < 0 ∨ n.toInt = 0 ∧ ¬ Stale b

section
variable {b : List UInt8} {n : Word}

theorem image_no_nul (n : Word) : 0 ∉ image n := by
  rw [image, minus, List.mem_append, not_or]
  refine ⟨?_, digits_no_nul n⟩
  split_ifs <;> decide

theorem Ended.drop_last (hb : Ended b) {k : ℕ} (hk : k < CNT) :
    (b.drop k).getLast? = some 0 := by
  rw [List.getLast?_drop, hb.length, if_neg (by omega), hb.last]

theorem Ended.zero_mem (hb : Ended b) : 0 ∈ b.drop 2 :=
  List.mem_of_getLast? (hb.drop_last (by decide))

theorem Ended.itoa_zero (hb : Ended b) (hn : n.toInt = 0) (r : Cells × ℕ) :
    Returns (fun fuel => itoa fuel (b.map some) n) r ↔
      ¬ Stale b ∧ r = ((after b n).map some, (image n).length) := by
  obtain ⟨x, c, rest, rfl⟩ : ∃ x c rest, b = x :: c :: rest := by
    match b, hb.length with
    | x :: c :: rest, _ => exact ⟨x, c, rest, rfl⟩
  have hzero : 0 ∈ rest := hb.zero_mem
  obtain ⟨B, hB⟩ := fromZero_eq hzero
  have hsplit := beforeZero_append rest
  rw [hB] at hsplit
  have hreturns := itoa_zero_iff (x := some x) (c := some c) (B := B.map some) hn
    (beforeZero_no_nul rest) r
  have hcells : (x :: c :: rest).map some =
      some x :: some c :: ((beforeZero rest).map some ++ some 0 :: B.map some) := by
    nth_rewrite 1 [← hsplit]
    simp
  rw [hcells, hreturns, beforeZero_eq_nil hzero, Stale, not_not]
  refine and_congr_right fun hhead => ?_
  obtain ⟨rest', rfl⟩ := List.head?_eq_some_iff.mp hhead
  have hsame : B = rest' := by simpa [fromZero] using hB.symm
  rw [after, image_zero hn, digits_zero hn, ending, if_neg (by omega), hsame]
  rfl

theorem Ended.itoa_iff (hb : Ended b) (n : Word) (r : Cells × ℕ) :
    Returns (fun fuel => itoa fuel (b.map some) n) r ↔
      Fixed b n ∧ r = ((after b n).map some, (image n).length) := by
  have hdigits := digits_length_le n
  have hroom : (digits n).length + 2 ≤ (b.map some).length := by
    rw [List.length_map, hb.length, CNT]
    omega
  rcases Int.lt_trichotomy n.toInt 0 with hneg | hzero | hpos
  · have hreturns := itoa_negative hneg hroom
    have hcells : (image n).map some ++ ((ending n).map some ++
        (b.map some).drop ((digits n).length + 2)) = (after b n).map some := by
      simp [after]
    rw [hcells] at hreturns
    constructor
    · exact fun h => ⟨.inl hneg, h.unique hreturns⟩
    · rintro ⟨-, rfl⟩
      exact hreturns
  · rw [hb.itoa_zero hzero, Fixed]
    simp [hzero]
  · refine iff_of_false (itoa_positive hpos hroom r) ?_
    rintro ⟨hneg | hzero, -⟩ <;> omega

/-- A number that would have to be moved onto itself ends the call. -/
theorem Ended.itoa_faults (hb : Ended b) (hn : ¬ Fixed b n) (fuel : ℕ) :
    itoa fuel (b.map some) n = none := by
  refine Option.eq_none_iff_forall_ne_some.mpr fun r hr => hn ?_
  exact ((hb.itoa_iff n r).mp ((itoa_settles _ n).returns hr)).1

theorem stringOf_after (b : List UInt8) (n : Word) :
    stringOf ((after b n).map some) = some (image n) := by
  obtain ⟨e, he⟩ : ∃ e, ending n = 0 :: e := by
    unfold ending
    split_ifs <;> exact ⟨_, rfl⟩
  rw [after, List.map_append, he]
  exact stringOf_append (image_no_nul n) _

theorem after_ended (hb : Ended b) (n : Word) : Ended (after b n) := by
  have hlength := hb.length
  have hdigits := digits_length_le n
  have hwritten := written_length n
  unfold after
  constructor
  · simp only [List.length_append, List.length_drop, hlength, CNT]
    omega
  · rw [← List.append_assoc, List.getLast?_append, hb.drop_last (by rw [CNT]; omega),
      Option.some_or]

theorem digits_length_le_iff (n : Word) (k : ℕ) :
    (digits n).length ≤ k ↔ n.toInt.natAbs < 10 ^ k := by
  rw [digits, List.length_reverse, marks, List.length_map]
  exact Nat.digits_length_le_iff (by decide) _

theorem ending_zero (n : Word) : ∀ ch ∈ ending n, ch = 0 := by
  unfold ending
  split_ifs <;> simp

theorem third_zero {text zeros rest : List UInt8} (htext : 0 ∉ text) (hzeros : ∀ ch ∈ zeros, ch = 0)
    (hlen : 2 < text.length + zeros.length) :
    (text ++ (zeros ++ rest))[2]? = some 0 ↔ text.length ≤ 2 := by
  rcases Nat.lt_or_ge 2 text.length with hlong | hshort
  · rw [List.getElem?_append_left hlong, List.getElem?_eq_getElem hlong]
    refine iff_of_false (fun hzero => htext ?_) (by omega)
    rw [← Option.some.inj hzero]
    exact List.getElem_mem hlong
  · have hin : 2 - text.length < zeros.length := by omega
    rw [List.getElem?_append_right hshort, List.getElem?_append_left hin,
      List.getElem?_eq_getElem hin]
    exact iff_of_true (congrArg some (hzeros _ (List.getElem_mem hin))) hshort

/-- A number of one or two characters leaves no third one. -/
theorem after_fresh (hn : Fixed b n) : ¬ Stale (after b n) ↔ -9 ≤ n.toInt := by
  rcases hn with hneg | ⟨hzero, hfresh⟩
  · have hone := digits_length_le_iff n 1
    have hpos : 0 < (digits n).length := List.length_pos_of_ne_nil (digits_ne_nil hneg.ne)
    have hwritten := written_length n
    rw [Stale, after, List.head?_drop, not_not,
      third_zero (image_no_nul n) (ending_zero n) (by omega), image_length, if_pos hneg]
    omega
  · refine iff_of_true (fun hstale => hstale ?_) (by omega)
    rw [after, image_zero hzero, digits_zero hzero, ending, if_neg (by omega)]
    exact not_not.mp hfresh

theorem fixed_iff (b : List UInt8) (n : Word) :
    Fixed b n ↔ n.toInt ≤ 0 ∧ (n.toInt = 0 → ¬ Stale b) := by
  constructor
  · rintro (hneg | ⟨hzero, hfresh⟩)
    · exact ⟨hneg.le, fun hzero => absurd hzero hneg.ne⟩
    · exact ⟨hzero.le, fun _ => hfresh⟩
  · rintro ⟨hle, hfresh⟩
    rcases hle.lt_or_eq with hneg | hzero
    · exact .inl hneg
    · exact .inr ⟨hzero, hfresh hzero⟩

end

/-! ## The parts of the format -/

namespace Piece

/-- What is written for a part of the format. -/
def text : Piece → List UInt8
  | .lit ch => [ch]
  | .dec n => image n
  | .chr n => [UInt8.ofInt n.toInt]
  | .str s => s.bytes
  | .percent _ | .other _ | .lone => [ascii '%']

/-- The buffer behind a part of the format. -/
def buffer (b : List UInt8) : Piece → List UInt8
  | .dec n => after b n
  | _ => b

/-- The loop gets over the part. -/
def Passed (b : List UInt8) : Piece → Prop
  | .dec n => Fixed b n
  | .lone => False
  | _ => True

end Piece

def expansion (ps : List Piece) : List UInt8 := ps.flatMap Piece.text

def Passed : List UInt8 → List Piece → Prop
  | _, [] => True
  | b, p :: ps => p.Passed b ∧ Passed (p.buffer b) ps

theorem expansion_cons (p : Piece) (ps : List Piece) :
    expansion (p :: ps) = p.text ++ expansion ps := List.flatMap_cons

section
variable {b : List UInt8} {st : State} {ch : UInt8} {fmt : List UInt8} {p : Piece} {ps : List Piece}
variable {args ap : List Arg}

theorem buffer_ended (hb : Ended b) (p : Piece) : Ended (p.buffer b) := by
  cases p with
  | dec n => exact after_ended hb n
  | _ => exact hb

theorem conversion_cases (hp : Piece.conversion ch fmt args = some (p, ap)) :
    (∃ n, ch = ascii 'd' ∧ args = .int n :: ap ∧ p = .dec n) ∨
    (∃ n, ch = ascii 'c' ∧ args = .int n :: ap ∧ p = .chr n) ∨
    (∃ s, ch = ascii 's' ∧ args = .str s :: ap ∧ p = .str s) ∨
    (ch = ascii '%' ∧ args = ap ∧ p = .percent (ch :: fmt)) ∨
    ((ch ≠ ascii 'd' ∧ ch ≠ ascii 'c' ∧ ch ≠ ascii 's' ∧ ch ≠ ascii '%') ∧ args = ap ∧
      p = .other ch) := by
  unfold Piece.conversion at hp
  split_ifs at hp with hd hc hs hpercent
  · match args, hp with
    | .int n :: args, hp =>
        cases hp
        exact .inl ⟨n, hd, rfl, rfl⟩
  · match args, hp with
    | .int n :: args, hp =>
        cases hp
        exact .inr (.inl ⟨n, hc, rfl, rfl⟩)
  · match args, hp with
    | .str s :: args, hp =>
        cases hp
        exact .inr (.inr (.inl ⟨s, hs, rfl, rfl⟩))
  · cases hp
    exact .inr (.inr (.inr (.inl ⟨hpercent, rfl, rfl⟩)))
  · cases hp
    exact .inr (.inr (.inr (.inr ⟨⟨hd, hc, hs, hpercent⟩, rfl, rfl⟩)))

theorem convert_returns (hb : Ended b) (hs : st.s = b.map some)
    (hp : Piece.conversion ch fmt st.ap = some (p, ap)) (hpass : p.Passed b) :
    Returns (fun fuel => st.convert fuel ch) ⟨ap, (p.buffer b).map some, st.out ++ p.text,
      wrap (st.count + p.text.length)⟩ := by
  rcases conversion_cases hp with ⟨n, rfl, hap, rfl⟩ | ⟨n, rfl, hap, rfl⟩ | ⟨str, rfl, hap, rfl⟩ |
    ⟨rfl, hap, rfl⟩ | ⟨⟨hd, hc, hstr, hpercent⟩, hap, rfl⟩
  · simp only [State.convert, if_true, hap, hs]
    refine ((hb.itoa_iff n _).mpr ⟨hpass, rfl⟩).bind ?_
    rw [stringOf_after]
    rfl
  · have hd : ascii 'c' ≠ ascii 'd' := by decide
    simp only [State.convert, if_true, if_neg hd, hap, State.putchar, hs]
    exact returns_const _
  · have hd : ascii 's' ≠ ascii 'd' := by decide
    have hc : ascii 's' ≠ ascii 'c' := by decide
    simp only [State.convert, if_true, if_neg hd, if_neg hc, hap, hs]
    exact returns_const _
  · have hd : ascii '%' ≠ ascii 'd' := by decide
    have hc : ascii '%' ≠ ascii 'c' := by decide
    have hstr : ascii '%' ≠ ascii 's' := by decide
    simp only [State.convert, if_true, if_neg hd, if_neg hc, if_neg hstr, ← hap, State.putchar, hs]
    exact returns_const _
  · simp only [State.convert, if_neg hd, if_neg hc, if_neg hstr, if_neg hpercent, ← hap,
      State.putchar, hs]
    exact returns_const _

/-- Only a number that is not fixed is not passed, and it ends the call. -/
theorem convert_faults (hb : Ended b) (hs : st.s = b.map some)
    (hp : Piece.conversion ch fmt st.ap = some (p, ap)) (hpass : ¬ p.Passed b) (fuel : ℕ) :
    st.convert fuel ch = none := by
  rcases conversion_cases hp with ⟨n, rfl, hap, rfl⟩ | ⟨n, -, -, rfl⟩ | ⟨s, -, -, rfl⟩ |
    ⟨-, -, rfl⟩ | ⟨-, -, rfl⟩
  · simp only [State.convert, if_true, hap, hs, hb.itoa_faults hpass]
    rfl
  all_goals exact absurd trivial hpass

theorem pieces_nil (h : pieces [] args = some ps) : ps = [] := by
  rw [pieces.eq_def] at h
  exact (Option.some.inj h).symm

theorem pieces_lit (hch : ch ≠ ascii '%') (h : pieces (ch :: fmt) args = some ps) :
    ∃ ps', pieces fmt args = some ps' ∧ ps = .lit ch :: ps' := by
  rw [pieces.eq_def] at h
  simp only [if_neg hch] at h
  obtain ⟨ps', hps', rfl⟩ := Option.map_eq_some_iff.mp h
  exact ⟨ps', hps', rfl⟩

theorem pieces_conversion {conv : UInt8} (h : pieces (ascii '%' :: conv :: fmt) args = some ps) :
    ∃ p ap ps', Piece.conversion conv fmt args = some (p, ap) ∧ pieces fmt ap = some ps' ∧
      ps = p :: ps' := by
  rw [pieces.eq_def] at h
  simp only [if_true] at h
  obtain ⟨⟨p, ap⟩, hp, h⟩ := Option.bind_eq_some_iff.mp h
  obtain ⟨ps', hps', rfl⟩ := Option.map_eq_some_iff.mp h
  exact ⟨p, ap, ps', hp, hps', rfl⟩

theorem pieces_lone (h : pieces [ascii '%'] args = some ps) : ps = [.lone] := by
  rw [pieces.eq_def] at h
  exact (Option.some.inj h).symm

/-- The format is read from its front: it is empty, or a `%` alone, or it goes on behind a
conversion or behind another character. -/
theorem fmt_induction {motive : List UInt8 → Prop} (nil : motive []) (lone : motive [ascii '%'])
    (conversion : ∀ conv fmt, motive fmt → motive (ascii '%' :: conv :: fmt))
    (lit : ∀ ch fmt, ch ≠ ascii '%' → motive fmt → motive (ch :: fmt)) (fmt : List UInt8) :
    motive fmt := by
  induction hlen : fmt.length using Nat.strong_induction_on generalizing fmt with
  | _ len ih =>
      subst hlen
      match fmt with
      | [] => exact nil
      | ch :: rest =>
          by_cases hch : ch = ascii '%'
          · subst hch
            match rest with
            | [] => exact lone
            | conv :: rest =>
                exact conversion conv rest (ih _ (by simp only [List.length_cons]; omega) rest rfl)
          · exact lit ch rest hch (ih _ (by simp) rest rfl)

theorem loop_nul (fuel : ℕ) (st : State) : State.loop fuel [0] st = some st := by
  rw [State.loop.eq_def]
  rfl

theorem loop_percent (fuel : ℕ) (conv : UInt8) (fmt : List UInt8) (st : State) :
    State.loop fuel (ascii '%' :: conv :: fmt) st =
      (st.convert fuel conv).bind (State.loop fuel fmt) := by
  rw [State.loop.eq_def]
  rfl

theorem loop_lit (hnul : ch ≠ 0) (hch : ch ≠ ascii '%') (fuel : ℕ) (fmt : List UInt8) (st : State) :
    State.loop fuel (ch :: fmt) st = State.loop fuel fmt (st.putchar ch) := by
  rw [State.loop.eq_def]
  simp only [if_neg hnul, if_neg hch]

/-- Behind a `%` at the end of the format there is nothing to read. -/
theorem loop_lone (fuel : ℕ) (st : State) : State.loop fuel [ascii '%', 0] st = none := by
  rw [loop_percent]
  cases st.convert fuel 0 <;> rfl

/-- What the loop does from the state `st` on: it writes `text` and adds its length to the count. -/
def Writes (st : State) (fmt : List UInt8) (text : List UInt8) : Prop :=
  ∃ t, Returns (fun fuel => State.loop fuel (fmt ++ [0]) st) t ∧ t.out = st.out ++ text ∧
    t.count = wrap (st.count + text.length)

theorem Writes.step {st' : State} {fmt' text text' : List UInt8} (h : Writes st' fmt' text')
    (hstep : ∀ t, Returns (fun fuel => State.loop fuel (fmt' ++ [0]) st') t →
      Returns (fun fuel => State.loop fuel (fmt ++ [0]) st) t)
    (hout : st'.out = st.out ++ text) (hcount : st'.count = wrap (st.count + text.length)) :
    Writes st fmt (text ++ text') := by
  obtain ⟨t, ht, hout', hcount'⟩ := h
  refine ⟨t, hstep t ht, ?_, ?_⟩
  · rw [hout', hout, List.append_assoc]
  · rw [hcount', hcount, wrap_add_left, List.length_append, Nat.cast_add, add_assoc]

/-- The parts of the format are written one after the other, and all of them are counted. -/
theorem loop_writes (st : State) (hnul : 0 ∉ fmt) (hps : pieces fmt st.ap = some ps)
    (hpass : Passed b ps) (hb : Ended b) (hs : st.s = b.map some)
    (hcount : wrap st.count = st.count) : Writes st fmt (expansion ps) := by
  induction fmt using fmt_induction generalizing st b ps with
  | nil =>
      obtain rfl := pieces_nil hps
      exact ⟨st, ⟨0, fun fuel _ => loop_nul fuel st⟩, (List.append_nil _).symm,
        by simpa [expansion] using hcount.symm⟩
  | lone =>
      rw [pieces_lone hps] at hpass
      exact absurd hpass.1 id
  | conversion conv fmt ih =>
      obtain ⟨p, ap, ps, hp, hps', rfl⟩ := pieces_conversion hps
      rw [List.mem_cons, not_or] at hnul
      have hrest := ih ⟨ap, (p.buffer b).map some, st.out ++ p.text,
        wrap (st.count + p.text.length)⟩ (mt (List.mem_cons_of_mem conv) hnul.2) hps' hpass.2
        (buffer_ended hb p) rfl (wrap_wrap _)
      refine hrest.step (fun t ht => ?_) rfl rfl
      simp only [List.cons_append, loop_percent]
      exact (convert_returns hb hs hp hpass.1).andThen ht
  | lit ch fmt hch ih =>
      obtain ⟨ps, hps', rfl⟩ := pieces_lit hch hps
      rw [List.mem_cons, not_or] at hnul
      have hrest := ih (st.putchar ch) hnul.2 hps' hpass.2 hb hs (wrap_wrap _)
      refine hrest.step (fun t ht => ?_) rfl rfl
      simp only [List.cons_append, loop_lit (Ne.symm hnul.1) hch]
      exact ht

/-- Where the loop does not get over a part it returns nothing: behind a `%` at the end of the
format it goes on reading, and a number that is not fixed is a fault. -/
theorem passed_of_returns (st : State) (hnul : 0 ∉ fmt) (hps : pieces fmt st.ap = some ps)
    (hb : Ended b) (hs : st.s = b.map some) {t : State}
    (h : Returns (fun fuel => State.loop fuel (fmt ++ [0]) st) t) : Passed b ps := by
  induction fmt using fmt_induction generalizing st b ps with
  | nil =>
      obtain rfl := pieces_nil hps
      exact trivial
  | lone =>
      obtain ⟨n, hn⟩ := h
      cases (hn n (Nat.le_refl n)).symm.trans (loop_lone n st)
  | conversion conv fmt ih =>
      obtain ⟨p, ap, ps, hp, hps', rfl⟩ := pieces_conversion hps
      rw [List.mem_cons, not_or] at hnul
      simp only [List.cons_append, loop_percent] at h
      by_cases hpass : p.Passed b
      · have hrest := (convert_returns hb hs hp hpass).of_andThen h
        exact ⟨hpass, ih _ (mt (List.mem_cons_of_mem conv) hnul.2) hps' (buffer_ended hb p) rfl
          hrest⟩
      · obtain ⟨n, hn⟩ := h
        have hrun := hn n (Nat.le_refl n)
        simp only [convert_faults hb hs hp hpass] at hrun
        cases hrun
  | lit ch fmt hch ih =>
      obtain ⟨ps, hps', rfl⟩ := pieces_lit hch hps
      rw [List.mem_cons, not_or] at hnul
      simp only [List.cons_append, loop_lit (Ne.symm hnul.1) hch] at h
      exact ⟨trivial, ih (st.putchar ch) hnul.2 hps' hb hs h⟩

end

/-! ## The count -/

def Piece.number : Piece → Option ℤ
  | .dec n => some n.toInt
  | _ => none

/-- The number 0 is the first one or follows a number of at most two characters. -/
def ZerosFresh (numbers : List ℤ) : Prop :=
  numbers.IsChain fun before n => n = 0 → -9 ≤ before

theorem zerosFresh_cons (n : ℤ) (numbers : List ℤ) :
    ZerosFresh (n :: numbers) ↔ (numbers.head? = some 0 → -9 ≤ n) ∧ ZerosFresh numbers := by
  unfold ZerosFresh
  cases numbers with
  | nil => simp
  | cons m numbers => rw [List.isChain_cons_cons, List.head?_cons, Option.some_inj]

/-- Only a number changes the buffer, and of the others only the `%` at the end is not passed. -/
theorem passed_of_no_number (b : List UInt8) {p : Piece} (hp : p.number = none) :
    (p.Passed b ↔ Piece.lone ≠ p) ∧ p.buffer b = b := by
  cases p with
  | dec n => cases hp
  | lone => exact ⟨iff_of_false id fun hne => hne rfl, rfl⟩
  | _ => exact ⟨iff_of_true trivial (by simp), rfl⟩

/-- The parts that the loop gets over, by the numbers and by what the buffer holds at first. -/
theorem passed_iff (b : List UInt8) (ps : List Piece) :
    Passed b ps ↔ Piece.lone ∉ ps ∧ (∀ n ∈ ps.filterMap Piece.number, n ≤ 0) ∧
      ((ps.filterMap Piece.number).head? = some 0 → ¬ Stale b) ∧
        ZerosFresh (ps.filterMap Piece.number) := by
  induction ps generalizing b with
  | nil => simp [Passed, ZerosFresh]
  | cons p ps ih =>
      rw [Passed, ih, List.mem_cons, not_or]
      cases hp : p.number with
      | none =>
          obtain ⟨hpass, hbuffer⟩ := passed_of_no_number b hp
          rw [hpass, hbuffer, List.filterMap_cons_none hp, and_assoc]
      | some m =>
          obtain ⟨n, rfl⟩ : ∃ n, p = .dec n := by
            cases p with
            | dec n => exact ⟨n, rfl⟩
            | _ => cases hp
          obtain rfl : n.toInt = m := Option.some.inj hp
          have hfixed : (Piece.dec n).Passed b ↔ n.toInt ≤ 0 ∧ (n.toInt = 0 → ¬ Stale b) :=
            fixed_iff b n
          rw [List.filterMap_cons_some hp, List.forall_mem_cons, List.head?_cons, zerosFresh_cons,
            Option.some_inj, hfixed]
          constructor
          · rintro ⟨⟨hn, hfresh⟩, hlone, hle, hhead, hzeros⟩
            have hafter := after_fresh ((fixed_iff b n).mpr ⟨hn, hfresh⟩)
            exact ⟨⟨by simp, hlone⟩, ⟨hn, hle⟩, hfresh, fun hzero => hafter.mp (hhead hzero),
              hzeros⟩
          · rintro ⟨⟨-, hlone⟩, ⟨hn, hle⟩, hfresh, hhead, hzeros⟩
            have hafter := after_fresh ((fixed_iff b n).mpr ⟨hn, hfresh⟩)
            exact ⟨⟨hn, hfresh⟩, hlone, hle, fun hzero => hafter.mpr (hhead hzero), hzeros⟩

theorem wrap_le (v : ℤ) : wrap v ≤ intMax := by
  simp only [wrap, intMax, Int.bmod_def]
  omega

theorem fresh_ended : Ended (List.replicate CNT 0) := ⟨List.length_replicate, rfl⟩

theorem fresh_cells : List.replicate CNT (some 0) = (List.replicate CNT (0 : UInt8)).map some :=
  List.map_replicate.symm

theorem passed_fresh_iff (ps : List Piece) :
    Passed (List.replicate CNT 0) ps ↔ Piece.lone ∉ ps ∧
      (∀ n ∈ ps.filterMap Piece.number, n ≤ 0) ∧ ZerosFresh (ps.filterMap Piece.number) := by
  have hfresh : ¬ Stale (List.replicate CNT 0) := fun hstale => hstale rfl
  rw [passed_iff]
  simp [hfresh]

theorem mPrintf_returns {fmt : CString} {args : List Arg} {ps : List Piece}
    (hps : pieces fmt.bytes args = some ps) (hpass : Passed (List.replicate CNT 0) ps) :
    ∃ t, Returns (fun fuel => mPrintf fuel fmt args) t ∧ t.out = expansion ps ∧
      t.count = wrap (expansion ps).length := by
  obtain ⟨t, ht, hout, hcount⟩ := loop_writes ⟨args, List.replicate CNT (some 0), [], 0⟩ fmt.noNul
    hps hpass fresh_ended fresh_cells rfl
  exact ⟨t, ht, hout, by simpa using hcount⟩

theorem passed_of_mPrintf {fmt : CString} {args : List Arg} {ps : List Piece}
    (hps : pieces fmt.bytes args = some ps) {t : State}
    (ht : Returns (fun fuel => mPrintf fuel fmt args) t) : Passed (List.replicate CNT 0) ps :=
  passed_of_returns ⟨args, _, [], 0⟩ fmt.noNul hps fresh_ended fresh_cells ht

/-- The result of `m_printf` is the number of characters that it has written. -/
def Counted (fmt : CString) (args : List Arg) : Prop :=
  ∃ t, Returns (fun fuel => mPrintf fuel fmt args) t ∧ t.count = t.out.length

/-- `m_printf` returns the number of characters it has written, and stays in its format, exactly
when the format does not end with a single `%`, no number is positive, each number 0 is the first
one or follows one of at most two characters, and the number of characters is an `int`. -/
theorem mPrintf_counted_iff (fmt : CString) (args : List Arg) (ps : List Piece)
    (hps : pieces fmt.bytes args = some ps) :
    Counted fmt args ↔ Piece.lone ∉ ps ∧ (∀ n ∈ ps.filterMap Piece.number, n ≤ 0) ∧
      ZerosFresh (ps.filterMap Piece.number) ∧ ((expansion ps).length : ℤ) ≤ intMax := by
  have hsplit : (Piece.lone ∉ ps ∧ (∀ n ∈ ps.filterMap Piece.number, n ≤ 0) ∧
      ZerosFresh (ps.filterMap Piece.number) ∧ ((expansion ps).length : ℤ) ≤ intMax) ↔
        Passed (List.replicate CNT 0) ps ∧ ((expansion ps).length : ℤ) ≤ intMax := by
    rw [passed_fresh_iff, and_assoc, and_assoc]
  rw [hsplit]
  constructor
  · rintro ⟨t, ht, hcounted⟩
    have hpass := passed_of_mPrintf hps ht
    obtain ⟨t', ht', hout, hcount⟩ := mPrintf_returns hps hpass
    obtain rfl := ht.unique ht'
    rw [hcount, hout] at hcounted
    exact ⟨hpass, hcounted ▸ wrap_le _⟩
  · rintro ⟨hpass, hmax⟩
    obtain ⟨t, ht, hout, hcount⟩ := mPrintf_returns hps hpass
    refine ⟨t, ht, ?_⟩
    rw [hcount, hout]
    exact wrap_fits ⟨by simp only [intMin]; omega, hmax⟩

def twoNumbers : CString := ⟨[ascii '%', ascii 'd', ascii '%', ascii 'd'], by decide⟩

theorem mPrintf_counted_two :
    Counted twoNumbers [.int (-7), .int 0] ∧ ¬ Counted twoNumbers [.int (-42), .int 0] := by
  constructor
  · refine (mPrintf_counted_iff twoNumbers _ [.dec (-7), .dec 0] rfl).mpr
      ⟨by simp, by decide, ?_, by decide⟩
    exact (zerosFresh_cons (-7) [0]).mpr ⟨fun _ => by decide, List.isChain_singleton _⟩
  · intro hcounted
    have hzeros := ((mPrintf_counted_iff twoNumbers _ [.dec (-42), .dec 0] rfl).mp hcounted).2.2.1
    have hnumbers : [Piece.dec (-42), Piece.dec 0].filterMap Piece.number = [-42, 0] := by decide
    rw [hnumbers] at hzeros
    have hshort := ((zerosFresh_cons (-42) [0]).mp hzeros).1 rfl
    omega

def percent : CString := ⟨[ascii '%'], by decide⟩

def number : CString := ⟨[ascii '%', ascii 'd'], by decide⟩

/-- A single `%` lets the loop read behind the format, and the positive number 1234 is moved onto
itself. -/
theorem mPrintf_miscounts : ¬ Counted percent [] ∧ ¬ Counted number [.int 1234] := by
  constructor
  · rintro ⟨t, ⟨n, hn⟩, -⟩
    cases (hn n (Nat.le_refl n)).symm.trans (loop_lone n _)
  · rintro ⟨t, ht, -⟩
    have hpieces : pieces number.bytes [.int 1234] = some [.dec 1234] := rfl
    have hpass := passed_of_mPrintf hpieces ht
    rcases hpass.1 with hneg | ⟨hzero, -⟩
    · exact absurd hneg (by decide)
    · exact absurd hzero (by decide)

end EmbeddedCode.Conversion
