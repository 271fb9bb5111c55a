import EmbeddedCode.Library.ByteMemory
import EmbeddedCode.Library.Loop
import Mathlib.Algebra.GroupWithZero.Nat
import Mathlib.Data.Nat.Notation

/-!
# The codings of `lighttpd-1.4.32/src/buffer.c`

`buffer_append_string_encoded` goes through its text twice, first to count the bytes that it
needs and then to write them. `buffer_urldecode_internal` decodes a text where it stands.
-/
namespace EmbeddedCode.Buffer

open ByteMemory Loop

/-- A letter of the source as its byte. -/
def ascii (c : Char) : UInt8 := UInt8.ofNat c.toNat

def hexChars : List UInt8 := "0123456789abcdef".toList.map ascii

def hexChar (n : UInt8) : UInt8 := hexChars.getD (n &&& 0x0F).toNat 0

def hex2int (hex : UInt8) : UInt8 :=
  let hex := hex - ascii '0'
  let hex := if hex > 9 then ((hex + ascii '0' - 1) ||| 0x20) - ascii 'a' + 11 else hex
  if hex > 15 then 0xFF else hex

inductive Encoding where
  | relUri
  | relUriPart
  | html
  | minimalXml
  | hex
  | httpHeader
  deriving DecidableEq, Repr

def ones : List ℕ := List.replicate 16 1

def zeros : List ℕ := List.replicate 16 0

/-- Rows of the tables that more than one of them has. -/
def colonRow : List ℕ := [0, 0, 0, 0, 0, 0, 0, 0, 0, 0, 1, 1, 1, 1, 1, 1]
def atRow : List ℕ := [1, 0, 0, 0, 0, 0, 0, 0, 0, 0, 0, 0, 0, 0, 0, 0]
def bracketRow : List ℕ := [0, 0, 0, 0, 0, 0, 0, 0, 0, 0, 0, 1, 1, 1, 1, 0]
def braceRow : List ℕ := [0, 0, 0, 0, 0, 0, 0, 0, 0, 0, 0, 1, 1, 1, 1, 1]
def ampRow : List ℕ := [0, 0, 0, 0, 0, 0, 1, 0, 0, 0, 0, 0, 0, 0, 0, 0]
def angleRow : List ℕ := [0, 0, 0, 0, 0, 0, 0, 0, 0, 0, 0, 0, 1, 0, 1, 0]
def delRow : List ℕ := [0, 0, 0, 0, 0, 0, 0, 0, 0, 0, 0, 0, 0, 0, 0, 1]
def newlineRow : List ℕ := [0, 0, 0, 0, 0, 0, 0, 0, 0, 0, 1, 0, 0, 0, 0, 0]

/-- The tables, each with 16 rows of 16. -/
def encodedChars : Encoding → List ℕ
  | .relUri =>
      ones ++ ones ++ [1, 0, 1, 1, 1, 1, 1, 1, 0, 0, 0, 1, 1, 0, 0, 0] ++ colonRow ++
        atRow ++ bracketRow ++ atRow ++ braceRow ++ (List.replicate 8 ones).flatten
  | .relUriPart =>
      ones ++ ones ++ [1, 0, 1, 1, 1, 1, 1, 1, 0, 0, 0, 1, 1, 0, 0, 1] ++ colonRow ++
        atRow ++ bracketRow ++ atRow ++ braceRow ++ (List.replicate 8 ones).flatten
  | .html =>
      ones ++ ones ++ ampRow ++ angleRow ++ zeros ++ zeros ++ zeros ++ delRow ++
        (List.replicate 8 ones).flatten
  | .minimalXml =>
      ones ++ ones ++ ampRow ++ angleRow ++ zeros ++ zeros ++ zeros ++ delRow ++
        (List.replicate 8 zeros).flatten
  | .hex => (List.replicate 16 ones).flatten
  | .httpHeader => newlineRow ++ (List.replicate 15 zeros).flatten

/-- `map[*ds]`. -/
def encoded (encoding : Encoding) (b : UInt8) : Bool := (encodedChars encoding).getD b.toNat 0 ≠ 0

/-- What the first loop counts for a byte. -/
def countByte (encoding : Encoding) (b : UInt8) : ℕ :=
  if encoded encoding b then
    match encoding with
    | .relUri | .relUriPart => 3
    | .html | .minimalXml => 6
    | .hex | .httpHeader => 2
  else 1

/-- What the second loop writes for a byte. -/
def encodeByte (encoding : Encoding) (b : UInt8) : List UInt8 :=
  if encoded encoding b then
    match encoding with
    | .relUri | .relUriPart => [ascii '%', hexChar (b >>> 4), hexChar b]
    | .html | .minimalXml =>
        [ascii '&', ascii '#', ascii 'x', hexChar (b >>> 4), hexChar b, ascii ';']
    | .hex => [hexChar (b >>> 4), hexChar b]
    | .httpHeader => [b, ascii '\t']
  else [b]

/-- The bytes of the buffer `b` up to its NUL. Without a NUL at its end the server stops, and
there is no result either if the second loop would write more than the first has counted. -/
def appendStringEncoded (b s : List UInt8) (encoding : Encoding) : Option (List UInt8) :=
  if b.getLast? ≠ some 0 then none
  else if s = [] then some b
  else
    let written := s.flatMap (encodeByte encoding)
    if written.length ≤ (s.map (countByte encoding)).sum then some (b.dropLast ++ written ++ [0])
    else none

/-- The variables of `buffer_urldecode_internal`. -/
structure Decoding where
  mem : Memory
  src : ℕ
  dst : ℕ

namespace Decoding

/-- `*dst = b; dst++; src++` behind a step of `skip`. -/
def put (s : Decoding) (b : UInt8) (skip : ℕ) : Decoding :=
  ⟨Function.update s.mem s.dst b, s.src + skip + 1, s.dst + 1⟩

/-- A percent sign, which is stored before the digits behind it are looked at. -/
def percent (s : Decoding) : Decoding :=
  let mem := Function.update s.mem s.dst (ascii '%')
  let high := hex2int (mem (s.src + 1))
  if high ≠ 0xFF then
    let low := hex2int (mem (s.src + 2))
    if low ≠ 0xFF then
      let high := (high <<< 4) ||| low
      s.put (if high < 32 ∨ high = 127 then ascii '_' else high) 2
    else s.put (ascii '%') 0
  else s.put (ascii '%') 0

def turn (isQuery : Bool) (s : Decoding) : Option (Turn Decoding Decoding) :=
  if s.mem s.src = 0 then some (.leave s)
  else if isQuery ∧ s.mem s.src = ascii '+' then some (.again (s.put (ascii ' ') 0))
  else if s.mem s.src = ascii '%' then some (.again s.percent)
  else some (.again (s.put (s.mem s.src) 0))

end Decoding

/-- The memory and `url->used` in the end. -/
def urldecodeInternal (fuel : ℕ) (mem : Memory) (ptr : ℕ) (isQuery : Bool) :
    Option (Memory × ℕ) := do
  let s ← run (Decoding.turn isQuery) fuel ⟨mem, ptr, ptr⟩
  return (Function.update s.mem s.dst 0, s.dst - ptr + 1)

/-- What is kept of a decoded byte: control characters are mapped out. -/
def printable (b : UInt8) : UInt8 := if b < 32 ∨ b = 127 then ascii '_' else b

/-- The text that a text stands for. -/
def decode (isQuery : Bool) : List UInt8 → List UInt8
  | [] => []
  | b :: bs =>
      if isQuery ∧ b = ascii '+' then ascii ' ' :: decode isQuery bs
      else if b = ascii '%' then
        match bs with
        | x :: y :: rest =>
            if hex2int x ≠ 0xFF ∧ hex2int y ≠ 0xFF then
              printable ((hex2int x <<< 4) ||| hex2int y) :: decode isQuery rest
            else b :: decode isQuery (x :: y :: rest)
        | [x] => b :: decode isQuery [x]
        | [] => [b]
      else b :: decode isQuery bs

theorem decode_plus {isQuery : Bool} {b : UInt8} (h : isQuery ∧ b = ascii '+') (bs : List UInt8) :
    decode isQuery (b :: bs) = ascii ' ' :: decode isQuery bs := by
  rw [decode.eq_def]
  exact if_pos h

theorem decode_plain {isQuery : Bool} {b : UInt8} (hplus : ¬ (isQuery ∧ b = ascii '+'))
    (hpercent : b ≠ ascii '%') (bs : List UInt8) :
    decode isQuery (b :: bs) = b :: decode isQuery bs := by
  rw [decode.eq_def]
  simp only [if_neg hplus, if_neg hpercent]

theorem ascii_percent_ne : ascii '%' ≠ 0 := by decide

namespace Decoding

variable {isQuery : Bool} {s : Decoding} {p : ℕ} {b x y : UInt8} {out text : List UInt8}

/-- The text that is still to be decoded is at `src`, and what is decoded lies before `dst`. -/
structure Inv (p : ℕ) (out text : List UInt8) (s : Decoding) : Prop where
  input : Bytes s.mem s.src (text ++ [0])
  output : Bytes s.mem p out
  dst : s.dst = p + out.length
  le : s.dst ≤ s.src

theorem Inv.put (xs : List UInt8) {skip : ℕ} (h : Inv p out (xs ++ text) s)
    (hxs : xs.length = skip + 1) (b : UInt8) : Inv p (out ++ [b]) text (s.put b skip) := by
  obtain ⟨hinput, houtput, hdst, hle⟩ := h
  rw [List.append_assoc, bytes_append, hxs] at hinput
  refine ⟨?_, ?_, ?_, ?_⟩
  · apply hinput.2.update
    left
    show s.dst < s.src + skip + 1
    omega
  · rw [Decoding.put, hdst]
    exact houtput.concat b
  · simp [Decoding.put, hdst, Nat.add_assoc]
  · simp only [Decoding.put]
    omega

theorem Inv.get (h : Inv p out (b :: text) s) : s.mem s.src = b := h.input.1

/-- What a percent sign makes of the two bytes behind it. -/
theorem Inv.percent_eq (h : Inv p out (b :: text) s) :
    s.percent = match text with
      | x :: y :: _ => if hex2int x ≠ 0xFF ∧ hex2int y ≠ 0xFF then
          s.put (printable ((hex2int x <<< 4) ||| hex2int y)) 2
        else s.put (ascii '%') 0
      | _ => s.put (ascii '%') 0 := by
  have hnul : hex2int 0 = 0xFF := by decide
  have hread (k : ℕ) : Function.update s.mem s.dst (ascii '%') (s.src + (k + 1)) =
      s.mem (s.src + (k + 1)) := Function.update_of_ne (by have := h.le; omega) _ _
  have hbytes := h.input
  unfold percent
  simp only [hread]
  match text with
  | [] =>
      have h₁ : s.mem (s.src + 1) = 0 := hbytes.2.1
      simp [h₁, hnul]
  | [x] =>
      have h₂ : s.mem (s.src + 2) = 0 := hbytes.2.2.1
      simp [h₂, hnul]
  | x :: y :: text =>
      have h₁ : s.mem (s.src + 1) = x := hbytes.2.1
      have h₂ : s.mem (s.src + 2) = y := hbytes.2.2.1
      simp only [h₁, h₂, printable]
      by_cases hx : hex2int x = 0xFF <;> by_cases hy : hex2int y = 0xFF <;> simp [hx, hy]

/-- What the loop makes of a text of which `bytes` are decoded. -/
def Decodes (isQuery : Bool) (p : ℕ) (out text : List UInt8) (s : Decoding)
    (bytes : List UInt8) : Prop :=
  ∃ s', Returns (fun fuel => Loop.run (turn isQuery) fuel s) s' ∧ Inv p (out ++ bytes) [] s' ∧
    s'.dst ≤ s.src + text.length ∧ ∀ a, a < s.dst ∨ s.src + text.length ≤ a → s'.mem a = s.mem a

theorem Inv.decodes_put (xs : List UInt8) {bytes : List UInt8} {skip : ℕ}
    (h : Inv p out (xs ++ text) s) (hxs : xs.length = skip + 1) {c : UInt8}
    (hturn : turn isQuery s = some (.again (s.put c skip)))
    (ih : Decodes isQuery p (out ++ [c]) text (s.put c skip) bytes) :
    Decodes isQuery p out (xs ++ text) s (c :: bytes) := by
  obtain ⟨s', hrun, hinv, hdst, hframe⟩ := ih
  have hle := h.le
  simp only [Decoding.put] at hdst hframe
  refine ⟨s', hrun.again hturn, ?_, ?_, fun a ha => ?_⟩
  · rwa [List.append_assoc] at hinv
  · rw [List.length_append, hxs]
    omega
  · rw [List.length_append, hxs] at ha
    rw [hframe a (by omega)]
    exact Function.update_of_ne (by omega) _ _

/-- A percent sign that starts no encoded byte is copied. -/
theorem Inv.decodes_percent (h : Inv p out (ascii '%' :: text) s)
    (hplus : ¬ (isQuery = true ∧ ascii '%' = ascii '+'))
    (hput : s.percent = s.put (ascii '%') 0) {bytes : List UInt8}
    (ih : ∀ {s : Decoding}, Inv p (out ++ [ascii '%']) text s →
      Decodes isQuery p (out ++ [ascii '%']) text s bytes) :
    Decodes isQuery p out (ascii '%' :: text) s (ascii '%' :: bytes) := by
  refine h.decodes_put [ascii '%'] rfl ?_ (ih (h.put [ascii '%'] rfl _))
  unfold turn
  rw [h.get, if_neg ascii_percent_ne, if_neg hplus, if_pos rfl, hput]
  rfl

theorem Inv.run (h : Inv p out text s) (hnul : 0 ∉ text) :
    Decodes isQuery p out text s (decode isQuery text) := by
  induction text using decode.induct isQuery generalizing out s with
  | case1 =>
      refine ⟨s, returns_leave ?_, ?_, h.le, fun _ _ => rfl⟩
      · unfold turn
        rw [if_pos h.input.1]
      · rwa [decode, List.append_nil]
  | case2 b bs hplus ih =>
      rw [List.mem_cons, not_or] at hnul
      rw [decode_plus hplus]
      refine h.decodes_put [b] rfl ?_ (ih (h.put [b] rfl _) hnul.2)
      unfold turn
      rw [h.get, if_neg (Ne.symm hnul.1), if_pos hplus]
      rfl
  | case3 x y rest hdigits hplus ih =>
      rw [decode, if_neg hplus, if_pos rfl, if_pos hdigits]
      have hrest : 0 ∉ rest := fun hmem => hnul (by simp [hmem])
      refine h.decodes_put [ascii '%', x, y] rfl ?_
        (ih (h.put [ascii '%', x, y] rfl _) hrest)
      unfold turn
      rw [h.get, if_neg ascii_percent_ne, if_neg hplus, if_pos rfl, h.percent_eq]
      simp only [if_pos hdigits]
      rfl
  | case4 x y rest hdigits hplus ih =>
      rw [List.mem_cons, not_or] at hnul
      rw [decode, if_neg hplus, if_pos rfl, if_neg hdigits]
      apply h.decodes_percent hplus
      · rw [h.percent_eq]
        exact if_neg hdigits
      · exact fun h => ih h hnul.2
  | case5 x hplus ih =>
      rw [List.mem_cons, not_or] at hnul
      rw [decode, if_neg hplus, if_pos rfl]
      exact h.decodes_percent hplus h.percent_eq fun h => ih h hnul.2
  | case6 hplus =>
      rw [decode, if_neg hplus, if_pos rfl]
      apply h.decodes_percent hplus h.percent_eq
      intro s h
      refine ⟨s, returns_leave ?_, by rwa [List.append_nil], h.le, fun _ _ => rfl⟩
      unfold turn
      rw [if_pos h.input.1]
  | case7 b bs hplus hpercent ih =>
      rw [List.mem_cons, not_or] at hnul
      rw [decode_plain hplus hpercent]
      refine h.decodes_put [b] rfl ?_ (ih (h.put [b] rfl _) hnul.2)
      unfold turn
      rw [h.get, if_neg (Ne.symm hnul.1), if_neg hplus, if_neg hpercent]
      rfl

end Decoding

/-- A text is decoded in its place, and no byte before it or behind its NUL is changed. -/
theorem urldecodeInternal_eq {mem : Memory} {ptr : ℕ} {text : List UInt8} (isQuery : Bool)
    (h : Bytes mem ptr (text ++ [0])) (hnul : 0 ∉ text) :
    ∃ mem', Returns (fun fuel => urldecodeInternal fuel mem ptr isQuery)
        (mem', (decode isQuery text).length + 1) ∧
      Bytes mem' ptr (decode isQuery text ++ [0]) ∧
      ∀ a, a < ptr ∨ ptr + text.length < a → mem' a = mem a := by
  have hinv : Decoding.Inv ptr [] text ⟨mem, ptr, ptr⟩ := ⟨h, trivial, rfl, Nat.le_refl _⟩
  obtain ⟨s, hrun, hs, hdst, hframe⟩ := hinv.run hnul
  have houtput := hs.output.concat 0
  rw [List.nil_append] at houtput
  have hat : s.dst = ptr + (decode isQuery text).length := hs.dst
  refine ⟨Function.update s.mem s.dst 0, hrun.bind ?_, hat ▸ houtput, fun a ha => ?_⟩
  · simp only [hat, Nat.add_sub_cancel_left]
    rfl
  · simp only at hdst hframe
    rw [Function.update_of_ne (by omega), hframe a (by omega)]

def Encoding.IsUri (encoding : Encoding) : Prop := encoding = .relUri ∨ encoding = .relUriPart

instance (encoding : Encoding) : Decidable encoding.IsUri := inferInstanceAs (Decidable (_ ∨ _))

/-- The digits of a byte give the byte. -/
theorem hex2int_hexChar (b : UInt8) : hex2int (hexChar (b >>> 4)) ≠ 0xFF ∧
    hex2int (hexChar b) ≠ 0xFF ∧ (hex2int (hexChar (b >>> 4)) <<< 4) ||| hex2int (hexChar b) = b :=
  forall_byte (P := fun b => hex2int (hexChar (b >>> 4)) ≠ 0xFF ∧ hex2int (hexChar b) ≠ 0xFF ∧
    (hex2int (hexChar (b >>> 4)) <<< 4) ||| hex2int (hexChar b) = b) (by decide +kernel) b

theorem hexChar_ne (b : UInt8) : hexChar (b >>> 4) ≠ 0 ∧ hexChar b ≠ 0 :=
  forall_byte (P := fun b => hexChar (b >>> 4) ≠ 0 ∧ hexChar b ≠ 0) (by decide +kernel) b

/-- What is known of a byte that is not encoded. -/
def Plain (b : UInt8) : Prop := b ≠ 0 ∧ b ≠ ascii '+' ∧ b ≠ ascii '%' ∧ printable b = b

instance (b : UInt8) : Decidable (Plain b) := inferInstanceAs (Decidable (_ ∧ _))

theorem plain_of_not_encoded {encoding : Encoding} (he : encoding.IsUri) (b : UInt8)
    (h : encoded encoding b = false) : Plain b := by
  rcases he with rfl | rfl
  · exact forall_byte (P := fun b => encoded .relUri b = false → Plain b) (by decide +kernel) b h
  · exact forall_byte (P := fun b => encoded .relUriPart b = false → Plain b) (by decide +kernel) b
      h

theorem encodeByte_uri {encoding : Encoding} (he : encoding.IsUri) (b : UInt8) :
    encodeByte encoding b = [ascii '%', hexChar (b >>> 4), hexChar b] ∨
      encodeByte encoding b = [b] ∧ Plain b := by
  cases henc : encoded encoding b with
  | true =>
      left
      unfold encodeByte
      rw [if_pos henc]
      rcases he with rfl | rfl <;> rfl
  | false => exact .inr ⟨if_neg (by simp [henc]), plain_of_not_encoded he b henc⟩

theorem decode_encodeByte {encoding : Encoding} (he : encoding.IsUri) (isQuery : Bool) (b : UInt8)
    (bs : List UInt8) :
    decode isQuery (encodeByte encoding b ++ bs) = printable b :: decode isQuery bs := by
  rcases encodeByte_uri he b with hdigits | ⟨hsame, -, hplus, hpercent, hprint⟩
  · obtain ⟨hhigh, hlow, hbyte⟩ := hex2int_hexChar b
    have hplus : ¬ (isQuery ∧ ascii '%' = ascii '+') := fun h => absurd h.2 (by decide)
    rw [hdigits, List.cons_append, List.cons_append, List.cons_append, List.nil_append, decode,
      if_neg hplus, if_pos rfl, if_pos ⟨hhigh, hlow⟩, hbyte]
  · rw [hsame, List.singleton_append, decode_plain (fun h => hplus h.2) hpercent, hprint]

theorem decode_encode {encoding : Encoding} (he : encoding.IsUri) (isQuery : Bool)
    (s : List UInt8) : decode isQuery (s.flatMap (encodeByte encoding)) = s.map printable := by
  induction s with
  | nil => rfl
  | cons b s ih => rw [List.flatMap_cons, decode_encodeByte he, ih, List.map_cons]

/-- The first loop counts what the second one writes. -/
theorem length_encodeByte (encoding : Encoding) (b : UInt8) :
    (encodeByte encoding b).length = countByte encoding b := by
  unfold encodeByte countByte
  split_ifs
  · cases encoding <;> rfl
  · rfl

theorem appendStringEncoded_eq {b : List UInt8} (hb : b.getLast? = some 0) (s : List UInt8)
    (encoding : Encoding) : appendStringEncoded b s encoding =
      some (b.dropLast ++ s.flatMap (encodeByte encoding) ++ [0]) := by
  unfold appendStringEncoded
  rw [if_neg (by simp [hb])]
  by_cases hs : s = []
  · have hne : b ≠ [] := by
      rintro rfl
      cases hb
    rw [if_pos hs, hs, List.flatMap_nil, List.append_nil]
    rw [List.getLast?_eq_some_getLast hne, Option.some_inj] at hb
    rw [← hb, List.dropLast_concat_getLast hne]
  · have hlength : (s.flatMap (encodeByte encoding)).length =
        (s.map (countByte encoding)).sum := by
      rw [List.length_flatMap]
      congr 2
      funext b
      exact length_encodeByte encoding b
    rw [if_neg hs]
    exact if_pos (Nat.le_of_eq hlength)

theorem noNul_encode {encoding : Encoding} (he : encoding.IsUri) (s : List UInt8) :
    0 ∉ s.flatMap (encodeByte encoding) := by
  rw [List.mem_flatMap]
  rintro ⟨b, -, hmem⟩
  rcases encodeByte_uri he b with hdigits | ⟨hsame, hnul, -⟩
  · obtain ⟨hhigh, hlow⟩ := hexChar_ne b
    rw [hdigits] at hmem
    simp only [List.mem_cons, List.not_mem_nil, or_false] at hmem
    rcases hmem with h | h | h
    · exact ascii_percent_ne h.symm
    · exact hhigh h.symm
    · exact hlow h.symm
  · rw [hsame, List.mem_singleton] at hmem
    exact hnul hmem.symm

/-- A text that is encoded as part of an address and decoded in its place, as a path or as a
query, is the text again, but for control characters, which are underscores in it. -/
theorem urldecode_encoded (encoding : Encoding) (he : encoding.IsUri) (s : List UInt8)
    (isQuery : Bool) (mem : Memory) (ptr : ℕ) :
    ∃ url, appendStringEncoded [0] s encoding = some url ∧
      (Bytes mem ptr url → ∃ mem',
        Returns (fun fuel => urldecodeInternal fuel mem ptr isQuery) (mem', s.length + 1) ∧
        Bytes mem' ptr (s.map printable ++ [0]) ∧
        ∀ a, a < ptr ∨ ptr + url.length ≤ a → mem' a = mem a) := by
  refine ⟨_, appendStringEncoded_eq rfl s encoding, fun hmem => ?_⟩
  rw [List.dropLast_singleton, List.nil_append] at hmem ⊢
  obtain ⟨mem', hrun, hbytes, hframe⟩ := urldecodeInternal_eq isQuery hmem (noNul_encode he s)
  rw [decode_encode he] at hrun hbytes
  rw [List.length_map] at hrun
  refine ⟨mem', hrun, hbytes, fun a ha => hframe a ?_⟩
  rw [List.length_append, List.length_singleton] at ha
  omega

/-- A plus sign, a blank and a line feed. -/
theorem urldecode_encoded_plus :
    let mem : Memory := fun a => ("%2b%20%0a".toList.map ascii).getD a 0
    ∃ mem', Returns (fun fuel => urldecodeInternal fuel mem 0 true) (mem', 4) ∧
      Bytes mem' 0 [ascii '+', ascii ' ', ascii '_', 0] := by
  intro mem
  obtain ⟨url, hurl, hdecode⟩ :=
    urldecode_encoded .relUri (.inl rfl) [ascii '+', ascii ' ', 10] true mem 0
  have hsome : appendStringEncoded [0] [ascii '+', ascii ' ', 10] .relUri =
      some ("%2b%20%0a".toList.map ascii ++ [0]) := by decide +kernel
  obtain rfl := Option.some.inj (hurl.symm.trans hsome)
  obtain ⟨mem', hrun, hbytes, -⟩ := hdecode (by simp [mem])
  exact ⟨mem', hrun, hbytes⟩

end EmbeddedCode.Buffer
