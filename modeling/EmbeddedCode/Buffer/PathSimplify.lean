import EmbeddedCode.Buffer.UrlCoding
import EmbeddedCode.Library.CInt
import Mathlib.Data.List.Induction
import Mathlib.Data.List.TakeWhile

/-!
# The simplification of paths

`buffer_path_simplify` of `lighttpd-1.4.32/src/buffer.c` takes "/../", "//" and "/./" out of a
path. It reads the text at `src` and writes to `start`, which may be the same place.
-/
namespace EmbeddedCode.Buffer

open ByteMemory CInt Loop

/-- A `char`, which is signed, as an `unsigned short`. -/
def charBits (c : UInt8) : UInt16 := c.toInt8.toInt16.toUInt16

/-- `(a << 8) | b`. -/
def pair (a b : UInt8) : UInt16 := (charBits a <<< 8) ||| charBits b

structure Simplifying where
  mem : Memory
  walk : ℕ
  out : ℕ
  slash : ℕ
  c : UInt8
  /-- The last two bytes that have been read before `c`. -/
  pre : UInt16

/-- `while (out > start && *out != '/') out--`. -/
def backUp (mem : Memory) (start : ℕ) : ℕ → ℕ
  | 0 => 0
  | out + 1 => if out + 1 > start ∧ mem (out + 1) ≠ ascii '/' then backUp mem start out else out + 1

namespace Simplifying

/-- What is done when a slash or the end is read. -/
def cut (start : ℕ) (s : Simplifying) : Simplifying :=
  let toklen := wrap ((s.out : ℤ) - s.slash)
  let out :=
    if toklen = 3 ∧ s.pre = pair (ascii '.') (ascii '.') then
      let out := if s.slash > start then backUp s.mem start (s.slash - 1) else s.slash
      if s.c = 0 then out + 1 else out
    else if toklen = 1 ∨ s.pre = pair (ascii '/') (ascii '.') then
      if s.c = 0 then s.slash + 1 else s.slash
    else s.out
  {s with out := out, slash := out}

/-- The byte `c` is stored, and the next one is read before that. -/
def push (s : Simplifying) : Simplifying where
  mem := Function.update s.mem s.out s.c
  walk := s.walk + 1
  out := s.out + 1
  slash := s.slash
  c := s.mem s.walk
  pre := (s.pre <<< 8) ||| charBits s.c

def turn (start : ℕ) (s : Simplifying) : Option (Turn Simplifying Simplifying) :=
  let s := if s.c = ascii '/' ∨ s.c = 0 then s.cut start else s
  if s.c = 0 then some (.leave s) else some (.again s.push)

end Simplifying

/-- `while (*walk == ' ') walk++`. -/
def blankTurn (mem : Memory) (walk : ℕ) : Option (Turn ℕ ℕ) :=
  if mem walk = ascii ' ' then some (.again (walk + 1)) else some (.leave walk)

/-- The memory, `out` and `pre` when the first byte of the text is stored. -/
def first (mem : Memory) (start : ℕ) (pre1 : UInt8) : Memory × ℕ × UInt16 :=
  if pre1 ≠ ascii '/' then
    (Function.update (Function.update mem start (ascii '/')) (start + 1) pre1, start + 2,
      pair (ascii '/') pre1)
  else (Function.update mem start pre1, start + 1, charBits pre1)

/-- What `buffer_path_simplify` does behind the blanks. -/
def simplifyText (fuel : ℕ) (mem : Memory) (start walk : ℕ) : Option (Memory × ℕ) := do
  let pre1 := mem walk
  let c := mem (walk + 1)
  let (mem, out, pre) := first mem start pre1
  if pre1 = 0 then return (mem, out - start + 1)
  let s ← run (Simplifying.turn start) fuel ⟨mem, walk + 2, out, start, c, pre⟩
  return (Function.update s.mem s.out 0, s.out - start + 1)

/-- The memory and `dest->used` in the end. -/
def pathSimplify (fuel : ℕ) (mem : Memory) (start src : ℕ) : Option (Memory × ℕ) := do
  let walk ← run (blankTurn mem) fuel src
  simplifyText fuel mem start walk

abbrev Segment := List UInt8

def dot : Segment := [ascii '.']

def dotdot : Segment := [ascii '.', ascii '.']

def path (stack : List Segment) : List UInt8 :=
  stack.reverse.flatMap fun segment => ascii '/' :: segment

/-- A segment with more of the path behind it. -/
def enter (stack : List Segment) (segment : Segment) : List Segment :=
  if segment = [] ∨ segment = dot then stack
  else if segment = dotdot then stack.tail
  else segment :: stack

/-- A segment that is not kept. -/
def Special (segment : Segment) : Prop := segment = [] ∨ segment = dot ∨ segment = dotdot

instance (segment : Segment) : Decidable (Special segment) := inferInstanceAs (Decidable (_ ∨ _))

/-- The path that ends with a segment. -/
def finish (stack : List Segment) (segment : Segment) : List UInt8 :=
  if Special segment then path (enter stack segment) ++ [ascii '/']
  else path stack ++ ascii '/' :: segment

/-- The path that segments lead to. -/
def resolve (stack : List Segment) : List Segment → List UInt8
  | [] => path stack
  | [segment] => finish stack segment
  | segment :: segments => resolve (enter stack segment) segments

/-- What a path means: blanks before it do not count, and neither does whether it starts with a
slash. -/
def simplified (text : List UInt8) : List UInt8 :=
  let text := text.dropWhile (· = ascii ' ')
  let text := if text.head? = some (ascii '/') then text.tail else text
  resolve [] (text.splitOn (ascii '/'))

theorem low_shift (p : UInt16) (c : UInt8) : ((p <<< 8) ||| charBits c).toUInt8 = c := by
  apply UInt8.toBitVec_inj.mp
  apply BitVec.eq_of_getLsbD_eq
  intro i hi
  have hbit : (BitVec.signExtend 16 c.toBitVec).getLsbD i = c.toBitVec[i] := by
    rw [BitVec.getLsbD_signExtend, if_pos hi, BitVec.getLsbD_eq_getElem hi]
    simp only [Bool.and_eq_right_iff_imp, decide_eq_true_eq]
    omega
  simpa [charBits, hi] using hbit

theorem low_charBits (c : UInt8) : (charBits c).toUInt8 = c := by
  have h := low_shift 0 c
  rwa [UInt16.zero_shiftLeft, UInt16.zero_or] at h

theorem high_shift (p : UInt16) {c : UInt8} (hc : c < 128) :
    (((p <<< 8) ||| charBits c) >>> 8).toUInt8 = p.toUInt8 := by
  have hmsb : c.toBitVec.msb = false := by
    rw [BitVec.msb_eq_false_iff_two_mul_lt]
    have := UInt8.lt_iff_toNat_lt.mp hc
    simp at this ⊢
    omega
  apply UInt8.toBitVec_inj.mp
  apply BitVec.eq_of_getLsbD_eq
  intro i hi
  have hbit : (BitVec.signExtend 16 c.toBitVec).getLsbD (8 + i) = false := by
    rw [BitVec.getLsbD_signExtend, if_neg (by omega), hmsb, Bool.and_false]
  simp only [charBits]
  simp [hi, hbit]
  intro
  omega

theorem eq_of_bytes {p q : UInt16} (hlow : p.toUInt8 = q.toUInt8)
    (hhigh : (p >>> 8).toUInt8 = (q >>> 8).toUInt8) : p = q := by
  have hl := congrArg UInt8.toNat hlow
  have hh := congrArg UInt8.toNat hhigh
  apply UInt16.toNat_inj.mp
  have := p.toNat_lt
  have := q.toNat_lt
  simp [Nat.shiftRight_eq_div_pow] at hl hh
  omega

/-- What `pre` tells when the bytes behind the last slash are `token`, the last one first. -/
def Tells (pre : UInt16) : List UInt8 → Prop
  | [] => pre.toUInt8 = ascii '/'
  | x :: xs => pre.toUInt8 = x ∧ (x < 128 → (pre >>> 8).toUInt8 = xs.headD (ascii '/'))

theorem Tells.low {pre : UInt16} {token : List UInt8} (h : Tells pre token) :
    pre.toUInt8 = token.headD (ascii '/') := by
  cases token with
  | nil => exact h
  | cons x xs => exact h.1

theorem Tells.shift {pre : UInt16} {token : List UInt8} (h : Tells pre token) (c : UInt8) :
    Tells ((pre <<< 8) ||| charBits c) (c :: token) :=
  ⟨low_shift pre c, fun hc => (high_shift pre hc).trans h.low⟩

theorem Tells.eq_pair {pre : UInt16} {token : List UInt8} (h : Tells pre token) {a b : UInt8}
    (hb : b < 128) (hne : b ≠ ascii '/') :
    pre = pair a b ↔ ∃ xs, token = b :: xs ∧ xs.headD (ascii '/') = a := by
  have hlow : (pair a b).toUInt8 = b := low_shift _ _
  have hhigh : (pair a b >>> 8).toUInt8 = a := (high_shift (charBits a) hb).trans (low_charBits a)
  constructor
  · rintro rfl
    cases token with
    | nil => exact absurd (hlow.symm.trans h) hne
    | cons x xs =>
        obtain rfl : x = b := h.1.symm.trans hlow
        exact ⟨xs, rfl, (h.2 hb).symm.trans hhigh⟩
  · rintro ⟨xs, rfl, rfl⟩
    exact eq_of_bytes (h.1.trans hlow.symm) ((h.2 hb).trans hhigh.symm)

@[simp] theorem path_cons (segment : Segment) (stack : List Segment) :
    path (segment :: stack) = path stack ++ ascii '/' :: segment := by
  simp [path]

theorem resolve_cons (stack : List Segment) (segment : Segment) {segments : List Segment}
    (h : segments ≠ []) : resolve stack (segment :: segments) =
      resolve (enter stack segment) segments := by
  cases segments with
  | nil => exact absurd rfl h
  | cons _ _ => rfl

/-- Going back from the end of a segment ends at the slash before it. -/
theorem backUp_eq {mem : Memory} {start q : ℕ} (hq : start ≤ q) {segment : Segment}
    (h : Bytes mem q (ascii '/' :: segment)) (hseg : ascii '/' ∉ segment) :
    backUp mem start (q + segment.length) = q := by
  induction segment using List.reverseRecOn with
  | nil =>
      cases q with
      | zero => rfl
      | succ q =>
          rw [List.length_nil, Nat.add_zero, backUp, if_neg]
          exact fun hc => hc.2 h.1
  | append_singleton segment x ih =>
      rw [List.mem_append, List.mem_singleton, not_or] at hseg
      rw [← List.cons_append, bytes_append] at h
      have hx : mem (q + segment.length + 1) = x := h.2.1
      rw [List.length_append, List.length_singleton, ← Nat.add_assoc, backUp, if_pos]
      · exact ih h.1 hseg.1
      · exact ⟨by omega, hx ▸ Ne.symm hseg.2⟩

namespace Simplifying

/-- The bytes behind the last slash are `token`, the last one first, and `text` is still to be
read. Its end is at `last`, not so far from its start that `toklen` overflows. -/
structure Inv (start src last : ℕ) (stack : List Segment) (token text : List UInt8)
    (s : Simplifying) : Prop where
  segments : ∀ segment ∈ stack, ascii '/' ∉ segment
  clean : ascii '/' ∉ token
  written : Bytes s.mem start (path stack ++ ascii '/' :: token.reverse)
  slash : s.slash = start + (path stack).length
  out : s.out = s.slash + token.length + 1
  pre : Tells s.pre token
  c : s.c = text.headD 0
  input : Bytes s.mem s.walk (text.tail ++ [0]) ∨ text = []
  walk : s.walk + text.length = last + 1
  behind : s.out + src ≤ s.walk + start
  short : last < src + 2 ^ 31

variable {start src last : ℕ} {stack : List Segment} {token text : List UInt8} {s : Simplifying}
  {c : UInt8}

theorem Inv.popped (h : Inv start src last stack token text s) :
    (if s.slash > start then backUp s.mem start (s.slash - 1) else s.slash) =
      start + (path stack.tail).length := by
  cases stack with
  | nil =>
      have hslash : s.slash = start := h.slash
      rw [hslash, if_neg (Nat.lt_irrefl _)]
      rfl
  | cons segment stack =>
      have hwritten := h.written
      rw [path_cons, List.append_assoc, bytes_append, bytes_append] at hwritten
      have hslash := h.slash
      rw [path_cons, List.length_append, List.length_cons] at hslash
      have hq : s.slash - 1 = start + (path stack).length + segment.length := by omega
      rw [if_pos (by omega), hq, List.tail_cons]
      exact backUp_eq (by omega) hwritten.2.1 (h.segments segment (by simp))

theorem Inv.toklen (h : Inv start src last stack token text s) (n : ℕ) (hn : n ≤ 3) :
    wrap ((s.out : ℤ) - s.slash) = n ↔ token.length + 1 = n := by
  have hlen : (s.out : ℤ) - s.slash = token.length + 1 := by
    rw [h.out]
    push_cast
    omega
  have hle : token.length + 1 ≤ 2 ^ 31 := by
    have hwalk := h.walk
    have hbehind := h.behind
    have hshort := h.short
    have hslash := h.slash
    have hout := h.out
    omega
  rw [hlen, wrap, Int.bmod_def]
  omega

theorem Inv.is_dotdot (h : Inv start src last stack token text s) :
    (wrap ((s.out : ℤ) - s.slash) = 3 ∧ s.pre = pair (ascii '.') (ascii '.')) ↔
      token.reverse = dotdot := by
  have hlen : wrap ((s.out : ℤ) - s.slash) = 3 ↔ token.length + 1 = 3 := h.toklen 3 (by decide)
  rw [h.pre.eq_pair (by decide) (by decide), hlen, List.reverse_eq_iff]
  constructor
  · rintro ⟨hthree, xs, rfl, hxs⟩
    match xs with
    | [] => cases hthree
    | [x] =>
        obtain rfl : x = ascii '.' := hxs
        rfl
    | _ :: _ :: _ => simp at hthree
  · rintro rfl
    exact ⟨rfl, [ascii '.'], rfl, rfl⟩

theorem Inv.is_empty (h : Inv start src last stack token text s) :
    (wrap ((s.out : ℤ) - s.slash) = 1 ∨ s.pre = pair (ascii '/') (ascii '.')) ↔
      token.reverse = [] ∨ token.reverse = dot := by
  have hlen : wrap ((s.out : ℤ) - s.slash) = 1 ↔ token.length + 1 = 1 := h.toklen 1 (by decide)
  have hslash := h.clean
  rw [h.pre.eq_pair (by decide) (by decide), hlen, List.reverse_eq_nil_iff, List.reverse_eq_iff]
  constructor
  · rintro (hone | ⟨xs, rfl, hxs⟩)
    · exact .inl (List.length_eq_zero_iff.mp (by omega))
    · cases xs with
      | nil => exact .inr rfl
      | cons x xs =>
          obtain rfl : x = ascii '/' := hxs
          simp at hslash
  · rintro (rfl | rfl)
    · exact .inl rfl
    · exact .inr ⟨[], rfl, rfl⟩

theorem enter_plain {segment : Segment} (h : ¬ Special segment) :
    enter stack segment = segment :: stack := by
  simp only [Special, not_or] at h
  simp [enter, h]

theorem Inv.cut_special (h : Inv start src last stack token text s)
    (hspecial : Special token.reverse) : (s.cut start).out =
      start + (path (enter stack token.reverse)).length + if s.c = 0 then 1 else 0 := by
  have hdot : dotdot ≠ [] ∧ dotdot ≠ dot := by decide
  unfold cut
  simp only [h.is_dotdot, h.is_empty, h.popped]
  by_cases hdd : token.reverse = dotdot
  · have hne : ¬ (dotdot = [] ∨ dotdot = dot) := by simp [hdot]
    rw [if_pos hdd, hdd, enter, if_neg hne, if_pos rfl]
    split_ifs <;> rfl
  · have he : token.reverse = [] ∨ token.reverse = dot := by
      rcases hspecial with he | he | he
      · exact .inl he
      · exact .inr he
      · exact absurd he hdd
    rw [if_neg hdd, if_pos he, enter, if_pos he, h.slash]
    split_ifs <;> rfl

theorem Inv.cut_plain (h : Inv start src last stack token text s)
    (hplain : ¬ Special token.reverse) : (s.cut start).out = s.out := by
  simp only [Special, not_or] at hplain
  unfold cut
  simp only [h.is_dotdot, h.is_empty]
  rw [if_neg hplain.2.2, if_neg (by simp [hplain])]

theorem length_enter_le (stack : List Segment) {segment : Segment} (h : Special segment) :
    (path (enter stack segment)).length ≤ (path stack).length := by
  unfold enter
  split_ifs with he hdd
  · exact Nat.le_refl _
  · cases stack with
    | nil => exact Nat.le_refl _
    | cons segment stack => simp
  · rcases h with hs | hs | hs
    · exact absurd (.inl hs) he
    · exact absurd (.inr hs) he
    · exact absurd hs hdd

/-- What is kept of the path lies before a slash. -/
theorem Inv.kept (h : Inv start src last stack token text s) (hspecial : Special token.reverse) :
    Bytes s.mem start (path (enter stack token.reverse) ++ [ascii '/']) := by
  have hwritten := h.written
  unfold enter
  split_ifs with he hdd
  · rw [List.append_cons] at hwritten
    exact (bytes_append.mp hwritten).1
  · cases stack with
    | nil =>
        rw [List.append_cons] at hwritten
        exact (bytes_append.mp hwritten).1
    | cons segment stack =>
        rw [path_cons, List.append_assoc, List.cons_append, List.append_cons] at hwritten
        exact (bytes_append.mp hwritten).1
  · rcases hspecial with hs | hs | hs
    · exact absurd (.inl hs) he
    · exact absurd (.inr hs) he
    · exact absurd hs hdd

/-- What is left of the invariant when the end of what is written has been moved back. -/
structure Kept (start : ℕ) (s s₀ : Simplifying) (kept : List UInt8) : Prop where
  mem : s₀.mem = s.mem
  walk : s₀.walk = s.walk
  c : s₀.c = s.c
  pre : s₀.pre = s.pre
  written : Bytes s.mem start kept
  out : s₀.out = start + kept.length
  le : s₀.out ≤ s.out

theorem Inv.push {s₀ : Simplifying} {kept : List UInt8} {stack' : List Segment}
    {token' : List UInt8} (hplace : start ≤ src ∨ last < start)
    (h : Inv start src last stack token (c :: text) s) (hkept : Kept start s s₀ kept)
    (hsegments : ∀ segment ∈ stack', ascii '/' ∉ segment) (hclean : ascii '/' ∉ token')
    (hpath : kept ++ [c] = path stack' ++ ascii '/' :: token'.reverse)
    (hslash : s₀.slash = start + (path stack').length)
    (htells : Tells ((s.pre <<< 8) ||| charBits c) token') :
    Inv start src last stack' token' text s₀.push ∧
      ∀ a, a < start ∨ start + last < a + src → s₀.push.mem a = s.mem a := by
  obtain ⟨hmem, hwalk, hc, hpre, hwritten, hout, hle⟩ := hkept
  have hshort := h.short
  have hsc : s.c = c := h.c
  have hinput : Bytes s.mem s.walk (text ++ [0]) := h.input.resolve_right (by simp)
  have hlast := h.walk
  have hbehind := h.behind
  rw [List.length_cons] at hlast
  have hlen := congrArg List.length hpath
  simp only [List.length_append, List.length_cons, List.length_nil, List.length_reverse] at hlen
  refine ⟨⟨hsegments, hclean, ?_, hslash, ?_, ?_, ?_, ?_, ?_, ?_, hshort⟩, fun a ha => ?_⟩
  · rw [← hpath, Simplifying.push, hmem, hc, hsc, hout]
    exact hwritten.concat c
  · simp only [Simplifying.push]
    omega
  · simp only [Simplifying.push]
    rwa [hpre, hc, hsc]
  · simp only [Simplifying.push]
    rw [hmem, hwalk]
    cases text with
    | nil => exact hinput.1
    | cons d text => exact hinput.1
  · cases text with
    | nil => exact .inr rfl
    | cons d text =>
        left
        simp only [Simplifying.push]
        rw [hmem, hwalk]
        rw [List.length_cons] at hlast
        have htail : Bytes s.mem (s.walk + 1) (text ++ [0]) := hinput.2
        apply htail.update
        rw [List.length_append, List.length_singleton]
        omega
  · simp only [Simplifying.push]
    omega
  · simp only [Simplifying.push]
    omega
  · simp only [Simplifying.push]
    rw [hmem]
    exact Function.update_of_ne (by omega) _ _

theorem Inv.cut_kept (h : Inv start src last stack token (ascii '/' :: text) s) :
    Kept start s (s.cut start) (path (enter stack token.reverse)) := by
  have hc : s.c ≠ 0 := by
    rw [show s.c = ascii '/' from h.c]
    decide
  have hslash := h.slash
  have hout := h.out
  by_cases hspecial : Special token.reverse
  · have hcut := h.cut_special hspecial
    have hkept := h.kept hspecial
    rw [if_neg hc, Nat.add_zero] at hcut
    refine ⟨rfl, rfl, rfl, rfl, (bytes_append.mp hkept).1, hcut, ?_⟩
    have hle := length_enter_le stack hspecial
    omega
  · have hcut := h.cut_plain hspecial
    rw [enter_plain hspecial, path_cons]
    refine ⟨rfl, rfl, rfl, rfl, h.written, ?_, Nat.le_of_eq hcut⟩
    rw [hcut, List.length_append, List.length_cons, List.length_reverse]
    omega

theorem segments_enter (h : ∀ segment ∈ stack, ascii '/' ∉ segment) (htoken : ascii '/' ∉ token) :
    ∀ segment ∈ enter stack token.reverse, ascii '/' ∉ segment := by
  intro segment hmem
  unfold enter at hmem
  split_ifs at hmem
  · exact h segment hmem
  · exact h segment (List.mem_of_mem_tail hmem)
  · rcases List.mem_cons.mp hmem with rfl | hmem
    · rwa [List.mem_reverse]
    · exact h segment hmem

theorem turn_cut (h : s.c = ascii '/' ∨ s.c = 0) : turn start s =
    if s.c = 0 then some (.leave (s.cut start)) else some (.again (s.cut start).push) := by
  unfold turn
  simp only [if_pos h]
  rfl

theorem turn_push (h : ¬ (s.c = ascii '/' ∨ s.c = 0)) : turn start s = some (.again s.push) := by
  unfold turn
  simp only [if_neg h]
  exact if_neg fun hc => h (.inr hc)

theorem Inv.slash_read (hplace : start ≤ src ∨ last < start)
    (h : Inv start src last stack token (ascii '/' :: text) s) :
    turn start s = some (.again (s.cut start).push) ∧
      Inv start src last (enter stack token.reverse) [] text (s.cut start).push ∧
      ∀ a, a < start ∨ start + last < a + src → (s.cut start).push.mem a = s.mem a := by
  have hc : s.c = ascii '/' := h.c
  have hkept := h.cut_kept
  refine ⟨?_, h.push hplace hkept (segments_enter h.segments h.clean) (by simp) rfl hkept.out
    (low_shift _ _)⟩
  rw [turn_cut (.inl hc), if_neg]
  rw [hc]
  decide

theorem Inv.byte_read (hplace : start ≤ src ∨ last < start)
    (h : Inv start src last stack token (c :: text) s) (hslash : c ≠ ascii '/') (hnul : c ≠ 0) :
    turn start s = some (.again s.push) ∧
      Inv start src last stack (c :: token) text s.push ∧
      ∀ a, a < start ∨ start + last < a + src → s.push.mem a = s.mem a := by
  have hc : s.c = c := h.c
  have hout : s.out = start + (path stack ++ ascii '/' :: token.reverse).length := by
    rw [h.out, h.slash, List.length_append, List.length_cons, List.length_reverse]
    omega
  refine ⟨?_, h.push hplace ⟨rfl, rfl, rfl, rfl, h.written, hout, Nat.le_refl _⟩ h.segments
    ?_ ?_ h.slash (h.pre.shift c)⟩
  · exact turn_push (by simp [hc, hslash, hnul])
  · rw [List.mem_cons, not_or]
    exact ⟨hslash.symm, h.clean⟩
  · rw [List.reverse_cons, List.append_assoc, List.cons_append]

theorem Inv.end_read (h : Inv start src last stack token [] s) :
    turn start s = some (.leave (s.cut start)) ∧
      Bytes s.mem start (finish stack token.reverse) ∧
      (s.cut start).out = start + (finish stack token.reverse).length ∧
      (s.cut start).out ≤ s.out := by
  have hc : s.c = 0 := h.c
  have hslash := h.slash
  have hsout := h.out
  refine ⟨?_, ?_⟩
  · rw [turn_cut (.inr hc), if_pos hc]
  · by_cases hspecial : Special token.reverse
    · rw [finish, if_pos hspecial]
      have hle := length_enter_le stack hspecial
      rw [h.cut_special hspecial, if_pos hc, List.length_append, List.length_singleton]
      exact ⟨h.kept hspecial, Nat.add_assoc _ _ _, by omega⟩
    · rw [finish, if_neg hspecial]
      rw [h.cut_plain hspecial, List.length_append, List.length_cons, List.length_reverse]
      exact ⟨h.written, by omega, Nat.le_refl _⟩

theorem Inv.run (hplace : start ≤ src ∨ last < start)
    (h : Inv start src last stack token text s) (hnul : 0 ∉ text) :
    ∃ s', Returns (fun fuel => Loop.run (turn start) fuel s) s' ∧
      Bytes s'.mem start (resolve stack (text.splitOnPPrepend (· == ascii '/') token)) ∧
      s'.out = start + (resolve stack (text.splitOnPPrepend (· == ascii '/') token)).length ∧
      s'.out + src ≤ last + 1 + start ∧
      ∀ a, a < start ∨ start + last < a + src → s'.mem a = s.mem a := by
  induction text generalizing stack token s with
  | nil =>
      obtain ⟨hturn, hbytes, hout, hle⟩ := h.end_read
      have hwalk : s.walk = last + 1 := h.walk
      have hbehind := h.behind
      exact ⟨s.cut start, returns_leave hturn, hbytes, hout, by omega, fun _ _ => rfl⟩
  | cons c text ih =>
      rw [List.mem_cons, not_or] at hnul
      by_cases hslash : c = ascii '/'
      · subst hslash
        obtain ⟨hturn, hinv, hframe⟩ := h.slash_read hplace
        obtain ⟨s', hrun, hbytes, hout, hle, hframe'⟩ := ih hinv hnul.2
        have hresolve : resolve stack ((ascii '/' :: text).splitOnPPrepend (· == ascii '/') token) =
            resolve (enter stack token.reverse)
              (text.splitOnPPrepend (· == ascii '/') []) := by
          rw [List.splitOnPPrepend_cons_pos (by simp), List.splitOnPPrepend_nil_right]
          exact resolve_cons stack _ (List.splitOnP_ne_nil _ _)
        rw [hresolve]
        exact ⟨s', hrun.again hturn, hbytes, hout, hle,
          fun a ha => (hframe' a ha).trans (hframe a ha)⟩
      · obtain ⟨hturn, hinv, hframe⟩ := h.byte_read hplace hslash (Ne.symm hnul.1)
        obtain ⟨s', hrun, hbytes, hout, hle, hframe'⟩ := ih hinv hnul.2
        rw [List.splitOnPPrepend_cons_neg (by simpa using hslash)]
        exact ⟨s', hrun.again hturn, hbytes, hout, hle,
          fun a ha => (hframe' a ha).trans (hframe a ha)⟩

/-- The loop starts behind a slash that has been stored. -/
theorem inv_start {mem : Memory} {v : ℕ} (hplace : start ≤ src ∨ last < start) (hsrc : src ≤ v)
    (hlast : v + text.length = last) (hshort : last < src + 2 ^ 31)
    (h : Bytes mem v (text ++ [0])) :
    Inv start src last [] [] text
      ⟨Function.update mem start (ascii '/'), v + 1, start + 1, start, mem v,
        charBits (ascii '/')⟩ := by
  refine ⟨by simp, by simp, ⟨Function.update_self _ _ _, trivial⟩, rfl, rfl, low_charBits _, ?_, ?_,
    ?_, ?_, hshort⟩
  · cases text with
    | nil => exact h.1
    | cons c text => exact h.1
  · cases text with
    | nil => exact .inr rfl
    | cons c text =>
        have htail : Bytes mem (v + 1) (text ++ [0]) := h.2
        rw [List.length_cons] at hlast
        left
        apply htail.update
        rw [List.length_append, List.length_singleton]
        omega
  · show v + 1 + text.length = last + 1
    omega
  · show start + 1 + src ≤ v + 1 + start
    omega

end Simplifying

theorem blanks {mem : Memory} {text : List UInt8} {p : ℕ} (h : Bytes mem p (text ++ [0])) :
    Returns (fun fuel => run (blankTurn mem) fuel p)
        (p + (text.takeWhile (· = ascii ' ')).length) ∧
      Bytes mem (p + (text.takeWhile (· = ascii ' ')).length)
        (text.dropWhile (· = ascii ' ') ++ [0]) := by
  induction text generalizing p with
  | nil =>
      refine ⟨returns_leave ?_, h⟩
      unfold blankTurn
      rw [show mem p = 0 from h.1, if_neg (by decide)]
      rfl
  | cons c text ih =>
      by_cases hc : c = ascii ' '
      · obtain ⟨hrun, hbytes⟩ := ih h.2
        rw [List.takeWhile_cons_of_pos (by simpa using hc), List.dropWhile_cons_of_pos
          (by simpa using hc), List.length_cons, Nat.add_comm _ 1, ← Nat.add_assoc]
        refine ⟨hrun.again ?_, hbytes⟩
        unfold blankTurn
        rw [if_pos (h.1.trans hc)]
      · rw [List.takeWhile_cons_of_neg (by simpa using hc), List.dropWhile_cons_of_neg
          (by simpa using hc)]
        refine ⟨returns_leave ?_, h⟩
        unfold blankTurn
        rw [show mem p = c from h.1, if_neg hc]
        rfl

theorem run_start (mem : Memory) {start src last : ℕ} {token text : List UInt8} {s : Simplifying}
    (hplace : start ≤ src ∨ last < start)
    (h : Simplifying.Inv start src last [] token text s) (hnul : 0 ∉ text)
    (hframe : ∀ a, a < start ∨ start + last + 1 < a + src → s.mem a = mem a) :
    ∃ s', Returns (fun fuel => run (Simplifying.turn start) fuel s) s' ∧
      Bytes (Function.update s'.mem s'.out 0) start
        (resolve [] (text.splitOnPPrepend (· == ascii '/') token) ++ [0]) ∧
      s'.out - start = (resolve [] (text.splitOnPPrepend (· == ascii '/') token)).length ∧
      ∀ a, a < start ∨ start + last + 1 < a + src →
        Function.update s'.mem s'.out 0 a = mem a := by
  obtain ⟨s', hrun, hbytes, hout, hle, hframe'⟩ := h.run hplace hnul
  refine ⟨s', hrun, hout ▸ hbytes.concat 0, by omega, fun a ha => ?_⟩
  rw [Function.update_of_ne (by omega), hframe' a (by omega), hframe a ha]

/-- A text without blanks before it. -/
theorem simplifyText_eq {mem : Memory} {start src last walk : ℕ} {pre1 : UInt8} {text : List UInt8}
    (hplace : start ≤ src ∨ last < start) (hsrc : src ≤ walk)
    (hlast : walk + text.length + 1 = last) (hshort : last < src + 2 ^ 31)
    (h : Bytes mem walk (pre1 :: text ++ [0]))
    (hnul : 0 ∉ pre1 :: text) {segments : List Segment}
    (hsegments : segments = (if pre1 = ascii '/' then text else pre1 :: text).splitOn (ascii '/')) :
    ∃ mem', Returns (fun fuel => simplifyText fuel mem start walk)
        (mem', (resolve [] segments).length + 1) ∧
      Bytes mem' start (resolve [] segments ++ [0]) ∧
      ∀ a, a < start ∨ start + last + 1 < a + src → mem' a = mem a := by
  have hpre1 : mem walk = pre1 := h.1
  rw [List.mem_cons, not_or] at hnul
  have hne : pre1 ≠ 0 := Ne.symm hnul.1
  by_cases hslash : pre1 = ascii '/'
  · rw [if_pos hslash] at hsegments
    have hinv := Simplifying.inv_start hplace (Nat.le_succ_of_le hsrc)
      (show walk + 1 + text.length = last by omega) hshort h.2
    obtain ⟨s, hrun, hbytes, hout, hframe⟩ := run_start mem hplace hinv hnul.2
      fun a ha => Function.update_of_ne (by omega) _ _
    rw [List.splitOnPPrepend_nil_right, ← List.splitOn] at hbytes hout
    rw [hsegments, ← hout]
    refine ⟨_, ?_, hbytes, hframe⟩
    unfold simplifyText
    simp only [hpre1, hslash, first, ne_eq, not_true_eq_false, if_false,
      show ascii '/' ≠ 0 by decide]
    exact hrun.bind rfl
  · rw [if_neg hslash, List.splitOn, ← List.splitOnPPrepend_nil_right,
      List.splitOnPPrepend_cons_neg (by simpa using hslash)] at hsegments
    have hinv := Simplifying.inv_start hplace hsrc
      (show walk + (pre1 :: text).length = last by rw [List.length_cons]; omega) hshort h
    obtain ⟨-, hinv, hframe⟩ := hinv.byte_read hplace hslash hne
    obtain ⟨s, hrun, hbytes, hout, hframe⟩ := run_start mem hplace hinv hnul.2
      fun a ha => (hframe a (by omega)).trans (Function.update_of_ne (by omega) _ _)
    rw [hsegments, ← hout]
    refine ⟨_, ?_, hbytes, hframe⟩
    have hnext : Function.update mem start (ascii '/') (walk + 1) = mem (walk + 1) :=
      Function.update_of_ne (by omega) _ _
    simp only [Simplifying.push, hpre1, hnext] at hrun
    unfold simplifyText
    simp only [hpre1, hslash, hne, first, ne_eq, not_false_eq_true, if_true, if_false]
    exact hrun.bind rfl

/-- A text is simplified to its path, in the place of the text or before it or behind it. The
number of used bytes is that of the path with its NUL, but for a text of blanks only, for which
it is one more. -/
theorem pathSimplify_eq {mem : Memory} {start src : ℕ} {text : List UInt8}
    (h : Bytes mem src (text ++ [0])) (hnul : 0 ∉ text) (hlen : text.length < 2 ^ 31)
    (hplace : start ≤ src ∨ src + text.length < start) :
    ∃ mem', Returns (fun fuel => pathSimplify fuel mem start src)
        (mem', (simplified text).length + if text.all (· == ascii ' ') then 2 else 1) ∧
      Bytes mem' start (simplified text ++ [0]) ∧
      ∀ a, a < start ∨ start + text.length + 1 < a → mem' a = mem a := by
  obtain ⟨hwalk, hbody⟩ := blanks h
  have hsplit := congrArg List.length
    (List.takeWhile_append_dropWhile (p := (· = ascii ' ')) (l := text))
  rw [List.length_append] at hsplit
  have hnul' : 0 ∉ text.dropWhile (· = ascii ' ') :=
    fun hmem => hnul (List.dropWhile_subset _ hmem)
  have hblank : text.all (· == ascii ' ') = true ↔ text.dropWhile (· = ascii ' ') = [] := by
    rw [List.dropWhile_eq_nil_iff]
    simp
  unfold simplified
  simp only [hblank]
  generalize text.dropWhile (· = ascii ' ') = body at *
  generalize (text.takeWhile (· = ascii ' ')).length = k at *
  cases body with
  | nil =>
      have hpre1 : mem (src + k) = 0 := hbody.1
      refine ⟨Function.update (Function.update mem start (ascii '/')) (start + 1) 0,
        hwalk.andThen ?_, ⟨?_, Function.update_self _ _ _, trivial⟩, fun a ha => ?_⟩
      · unfold simplifyText
        simp only [hpre1, first, if_pos (show (0 : UInt8) ≠ ascii '/' by decide), if_true]
        have hused : start + 2 - start + 1 = 3 := by omega
        rw [hused]
        exact returns_const _
      · rw [Function.update_of_ne (by omega), Function.update_self]
      · rw [List.length_nil] at hsplit
        rw [Function.update_of_ne (by omega), Function.update_of_ne (by omega)]
  | cons pre1 body =>
      rw [List.length_cons] at hsplit
      obtain ⟨mem', hrun, hbytes, hframe⟩ := simplifyText_eq hplace (Nat.le_add_right src k)
        (by omega) (by omega) hbody hnul' rfl
      simp only [List.head?_cons, Option.some.injEq, List.tail_cons, reduceCtorEq, if_false]
      exact ⟨mem', hwalk.andThen hrun, hbytes, fun a ha => hframe a (by omega)⟩

end EmbeddedCode.Buffer
