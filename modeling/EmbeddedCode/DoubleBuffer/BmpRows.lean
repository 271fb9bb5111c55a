import EmbeddedCode.DoubleBuffer.Bmp
import Mathlib.Tactic.Ring

/-!
# The rows of a bitmap file

A row of a file with 24 bits a pixel is filled up to a multiple of four bytes. The program fills
it up to a multiple of four pixels instead.
-/
namespace EmbeddedCode.DoubleBuffer

open CInt Writes

def stride (width : ℕ) : ℕ := (3 * width + 3) / 4 * 4

/-- What the program takes for a row of the file, beyond what the row has. -/
def slack (width : ℕ) : ℕ := if width % 4 = 1 then 8 else if width % 4 = 2 then 4 else 0

/-- The header of a file, which all files with this beginning have if it is complete. -/
def headOf (front : List UInt8) : BmpHead := readHead front fun _ => 0

/-- What stands before the pixels in a file with 24 bits a pixel that can be opened. -/
structure Standard (front : List UInt8) (head : BmpHead) : Prop where
  complete : sizeofBmpHead ≤ front.length
  header : headOf front = head
  offset : head.offset = front.length
  count : head.count = 24
  width_pos : 0 < head.width
  height_pos : 0 < head.height
  fits : front.length + head.height.toNat * stride head.width.toNat < 2 ^ 31

/-- The colour of a pixel in a file whose rows go from the bottom to the top. -/
def BmpHead.pictureColor (head : BmpHead) (file : List UInt8) (p : ℕ × ℕ) : BitVec 24 :=
  let off := head.offset + (head.height.toNat - 1 - p.2) * stride head.width.toNat + 3 * p.1
  let red := file.getD (off + 2) 0
  let green := file.getD (off + 1) 0
  let blue := file.getD off 0
  red.toBitVec ++ green.toBitVec ++ blue.toBitVec

/-- The pixels that are drawn, with the part of their colours that `draw_pixel_32bpp` looks at, are
those of the picture that the screen has room for. -/
def Faithful (info : LdmInfo) (head : BmpHead) (file : List UInt8)
    (draws : List ((ℕ × ℕ) × Color)) : Prop :=
  ∀ p c, (∃ color, (p, color) ∈ draws ∧ color.setWidth 24 = c) ↔
    (p.1 < min info.x head.width.toNat ∧ p.2 < min info.y head.height.toNat) ∧
      c = head.pictureColor file p

theorem byte_congr {c c' : Color} (h : c.setWidth 24 = c'.setWidth 24) {k : ℕ} (hk : k ≤ 16) :
    (c >>> k) &&& 0xff = (c' >>> k) &&& 0xff := by
  have hmask : (0xff : Color) = (BitVec.allOnes 8).setWidth 32 := by decide
  rw [hmask]
  apply BitVec.eq_of_getLsbD_eq
  intro i hi
  have hbit := congrArg (BitVec.getLsbD · (k + i)) h
  simp only [BitVec.getLsbD_setWidth] at hbit
  simp only [BitVec.getLsbD_and, BitVec.getLsbD_ushiftRight, BitVec.getLsbD_setWidth,
    BitVec.getLsbD_allOnes]
  by_cases h8 : i < 8
  · have hki : k + i < 24 := by omega
    simpa [hki, h8, hi] using hbit
  · simp [h8]

/-- `draw_pixel_32bpp` does not look at the upper byte of a colour. -/
theorem Var.pixel_congr (var : Var) {c c' : Color} (h : c.setWidth 24 = c'.setWidth 24) :
    var.pixel c = var.pixel c' := by
  have hblue := byte_congr h (Nat.zero_le 16)
  simp only [BitVec.ushiftRight_zero] at hblue
  simp only [pixel, byte_congr h (Nat.le_refl 16), byte_congr h (k := 8) (by omega), hblue]

namespace BmpHead

variable {head : BmpHead} {info : LdmInfo} {rows : Rows} {n y : ℕ}

theorem mem_draws (hrows : rows.draws = []) {p : ℕ × ℕ} {c : Color} :
    (p, c) ∈ (head.drawRows info n rows).draws ↔ (p.1 < head.dispx info ∧ p.2 < n) ∧
      c = head.pixelBuf (head.drawRows info (p.2 + 1) rows).lineBuf p.1 := by
  induction n with
  | zero => simp [drawRows, hrows]
  | succ n ih =>
      have hline : (head.drawRow info (head.drawRows info n rows) n).lineBuf =
          (head.drawRows info (n + 1) rows).lineBuf := by rw [drawRows_succ]
      rw [drawRows_succ]
      simp only [drawRow] at hline ⊢
      simp only [List.mem_append, ih, List.mem_map, List.mem_range, Prod.mk.injEq, hline]
      constructor
      · rintro (⟨⟨hx, hy⟩, hc⟩ | ⟨x, hx, rfl, hc⟩)
        · exact ⟨⟨hx, by omega⟩, hc⟩
        · exact ⟨⟨hx, n.lt_succ_self⟩, hc.symm⟩
      · rintro ⟨⟨hx, hy⟩, hc⟩
        rcases Nat.lt_succ_iff_lt_or_eq.mp hy with hy | rfl
        · exact .inl ⟨⟨hx, hy⟩, hc⟩
        · exact .inr ⟨p.1, hx, rfl, hc.symm⟩

theorem drawRows_bytes : (head.drawRows info n rows).fp.bytes = rows.fp.bytes := by
  induction n with
  | zero => rfl
  | succ n ih =>
      rw [drawRows_succ, ← ih]
      simp only [drawRow, Stream.fread, Stream.fseek]
      split <;> rfl

theorem pixelBuf_24 (h : head.count = 24) (line : Buffer) {x : ℕ} (hx : 3 * x < 2 ^ 32) :
    (head.pixelBuf line x).setWidth 24 =
      (line (3 * x + 2)).toBitVec ++ (line (3 * x + 1)).toBitVec ++ (line (3 * x)).toBitVec := by
  have hoff : u32 (x * (24 / 8)) = 3 * x := by
    rw [u32_of_lt (by omega)]
    omega
  simp only [pixelBuf, h, hoff]
  apply BitVec.eq_of_toNat_eq
  have h₀ := (line (3 * x)).toNat_lt
  have h₁ := (line (3 * x + 1)).toNat_lt
  have h₂ := (line (3 * x + 2)).toNat_lt
  have h₃ := (line (3 * x + 3)).toNat_lt
  simp only [BitVec.toNat_append, UInt8.toNat_toBitVec]
  simp only [littleEndian, BitVec.toNat_setWidth, BitVec.toNat_ofNat, Nat.add_assoc, Nat.reduceAdd]
  rw [← Nat.shiftLeft_add_eq_or_of_lt h₁, ← Nat.shiftLeft_add_eq_or_of_lt h₀]
  simp only [Nat.shiftLeft_eq]
  omega

theorem lineBuf_apply {i : ℕ} (hi : i < head.lineSize info) :
    (head.drawRows info (y + 1) rows).lineBuf i =
      rows.fp.bytes[((head.drawRows info y rows).fp.fseek (head.rowOffset y)).pos + i]?.getD
        ((head.drawRows info y rows).lineBuf i) := by
  rw [drawRows_succ]
  simp only [drawRow, Stream.fread, Stream.fseek_bytes, drawRows_bytes, if_pos hi]

/-- The row lies in the file. -/
theorem lineBuf_of_found {i : ℕ} (hi : i < head.lineSize info) (hseek : head.rowOffset y < 2 ^ 31)
    (hend : head.rowOffset y + i < rows.fp.bytes.length) :
    (head.drawRows info (y + 1) rows).lineBuf i = rows.fp.bytes.getD (head.rowOffset y + i) 0 := by
  rw [lineBuf_apply hi, Stream.fseek, if_pos hseek, List.getD_eq_getElem?_getD,
    List.getElem?_eq_getElem hend]
  rfl

theorem bmpX_eq (h₀ : 0 < head.width) (h : head.width < 2 ^ 30) :
    3 * head.bmpX = stride head.width.toNat + slack head.width.toNat := by
  unfold bmpX stride slack
  rw [Int.tmod_eq_emod_of_nonneg h₀.le, unsigned_of_lt (by omega) (by omega),
    unsigned_of_lt (by omega) (by omega)]
  split_ifs <;> omega

end BmpHead

theorem littleEndian_congr {buf buf' : Buffer} {off len size : ℕ} (h : ∀ i < size, buf i = buf' i)
    (hlen : off + len ≤ size) : littleEndian buf off len = littleEndian buf' off len := by
  induction len generalizing off with
  | zero => rfl
  | succ len ih =>
      simp only [littleEndian]
      rw [h off (by omega), ih (by omega)]

section
variable {front : List UInt8}

/-- All files with a complete header have the header of their beginning. -/
theorem readHead_append (h : sizeofBmpHead ≤ front.length) (data : List UInt8) (headBuf : Buffer) :
    readHead (front ++ data) headBuf = headOf front := by
  have hbytes : ∀ i < sizeofBmpHead,
      ((Stream.mk (front ++ data) 0).fread sizeofBmpHead headBuf).2 i =
        ((Stream.mk front 0).fread sizeofBmpHead fun _ => 0).2 i := by
    intro i hi
    have hfront : 0 + i < front.length := by omega
    simp only [Stream.fread, if_pos hi, List.getElem?_append_left hfront,
      List.getElem?_eq_getElem hfront, Option.getD_some]
  unfold headOf readHead bmpHead
  rw [littleEndian_congr hbytes (by decide), littleEndian_congr hbytes (by decide),
    littleEndian_congr hbytes (by decide), littleEndian_congr hbytes (by decide)]

end

section
variable {info : LdmInfo} {file : List UInt8} {headBuf lineBuf : Buffer} {n : ℕ} {p : ℕ × ℕ}
variable {c : Color}

theorem mem_displayedRows_draws :
    (p, c) ∈ (displayedRows info file headBuf lineBuf n).draws ↔
      (p.1 < (readHead file headBuf).dispx info ∧ p.2 < n) ∧
        c = (readHead file headBuf).pixelBuf
          (displayedRows info file headBuf lineBuf (p.2 + 1)).lineBuf p.1 := by
  unfold displayedRows
  exact BmpHead.mem_draws rfl

theorem displayedRows_found {i y : ℕ} (hi : i < (readHead file headBuf).lineSize info)
    (hseek : (readHead file headBuf).rowOffset y < 2 ^ 31)
    (hend : (readHead file headBuf).rowOffset y + i < file.length) :
    (displayedRows info file headBuf lineBuf (y + 1)).lineBuf i =
      file.getD ((readHead file headBuf).rowOffset y + i) 0 := by
  unfold displayedRows
  rw [BmpHead.lineBuf_of_found hi hseek] <;> rw [Stream.fseek_bytes]
  · rfl
  · exact hend

/-- Where the first row is read. When it is looked for too far away, the position is still the
one of the pixels. -/
def firstRow (head : BmpHead) : ℕ :=
  if head.rowOffset 0 < 2 ^ 31 then head.rowOffset 0 else head.offset

theorem displayedRows_first {i : ℕ} (hi : i < (readHead file headBuf).lineSize info)
    (hseek : (readHead file headBuf).offset < 2 ^ 31) :
    (displayedRows info file headBuf lineBuf 1).lineBuf i =
      file[firstRow (readHead file headBuf) + i]?.getD (lineBuf i) := by
  unfold displayedRows firstRow
  rw [BmpHead.lineBuf_apply hi, Stream.fseek_bytes]
  simp only [BmpHead.drawRows, List.range_zero, List.foldl_nil, Stream.fseek, if_pos hseek]
  split <;> rfl

end

theorem row_le {height y : ℕ} (size : ℕ) (hy : y < height) :
    (height - 1 - y) * size + size ≤ height * size := by
  rw [← Nat.succ_mul]
  exact Nat.mul_le_mul_right _ (by omega)

theorem blue_inj {red green blue red' green' blue' : BitVec 8}
    (h : red ++ green ++ blue = red' ++ green' ++ blue') : blue = blue' := by
  have hblue := congrArg (BitVec.setWidth 8) h
  simpa only [BitVec.setWidth_append, Nat.le_refl, dite_true, BitVec.setWidth_eq] using hblue

theorem slack_eq_zero {width : ℤ} (h : 0 < width) :
    slack width.toNat = 0 ↔ width % 4 = 0 ∨ width % 4 = 3 := by
  unfold slack
  constructor
  · intro hzero
    split_ifs at hzero
    omega
  · intro hwidth
    rw [if_neg (by omega), if_neg (by omega)]

theorem three_mul_le_stride (width : ℕ) : 3 * width ≤ stride width := by
  unfold stride
  omega

namespace Standard

variable {front data : List UInt8} {head : BmpHead} {info : LdmInfo} {headBuf lineBuf : Buffer}
variable {p : ℕ × ℕ} {c : Color} {y : ℕ}

theorem height_toNat_pos (h : Standard front head) : 0 < head.height.toNat := by
  have hpos := h.height_pos
  omega

theorem stride_lt (h : Standard front head) : stride head.width.toNat < 2 ^ 31 := by
  have hfits := h.fits
  have hrow := Nat.le_mul_of_pos_left (stride head.width.toNat) h.height_toNat_pos
  omega

theorem width_lt (h : Standard front head) : head.width < 2 ^ 30 := by
  have hstride := h.stride_lt
  have hwidth := three_mul_le_stride head.width.toNat
  omega

theorem height_lt (h : Standard front head) : head.height < 2 ^ 31 :=
  h.header ▸ readHead_height_lt ..

theorem readHead_eq (h : Standard front head) (data : List UInt8) (headBuf : Buffer) :
    readHead (front ++ data) headBuf = head :=
  (readHead_append h.complete data headBuf).trans h.header

theorem dispx_eq (h : Standard front head) (info : LdmInfo) :
    head.dispx info = min info.x head.width.toNat :=
  BmpHead.dispx_eq info h.width_pos.le (by have hlt := h.width_lt; omega)

theorem dispy_eq (h : Standard front head) (info : LdmInfo) :
    head.dispy info = min info.y head.height.toNat :=
  BmpHead.dispy_eq info h.height_pos.le h.height_lt

theorem lineSize_eq (h : Standard front head) (info : LdmInfo) :
    head.lineSize info = 3 * head.dispx info := by
  have hwidth := h.width_lt
  have hdispx := h.dispx_eq info
  unfold BmpHead.lineSize
  rw [h.count, u32_of_lt (by omega)]
  omega

theorem rowOffset_eq (h : Standard front head) (hy : y < head.height.toNat) :
    head.rowOffset y = u32 (front.length + (head.height.toNat - 1 - y) *
      (stride head.width.toNat + slack head.width.toNat)) := by
  have hheight := h.height_lt
  have hrow : unsigned (head.height - y - 1) = head.height.toNat - 1 - y := by
    rw [unsigned_of_lt (by omega) (by omega)]
    omega
  unfold BmpHead.rowOffset
  rw [hrow, h.offset, h.count, ← BmpHead.bmpX_eq h.width_pos h.width_lt]

theorem mem_draws (h : Standard front head) (hdata : front.length + data.length < 2 ^ 31) :
    (p, c) ∈ (dislplayBmp info (some (front ++ data)) (some headBuf) (some lineBuf)).draws ↔
      (p.1 < min info.x head.width.toNat ∧ p.2 < min info.y head.height.toNat) ∧
        c = head.pixelBuf
          (displayedRows info (front ++ data) headBuf lineBuf (p.2 + 1)).lineBuf p.1 := by
  have hlength : (front ++ data).length < 2 ^ 31 := by rwa [List.length_append]
  rw [dislplayBmp_of_lt hlength, Rows.displayed_draws, mem_displayedRows_draws,
    h.readHead_eq, h.dispx_eq, h.dispy_eq]

theorem rowOffset_found (h : Standard front head)
    (hrows : slack head.width.toNat = 0 ∨ head.height = 1)
    (hy : y < head.height.toNat) :
    head.rowOffset y = front.length +
      (head.height.toNat - 1 - y) * stride head.width.toNat := by
  have hfits := h.fits
  have hrow := row_le (stride head.width.toNat) hy
  rw [h.rowOffset_eq hy]
  rcases hrows with hslack | hheight
  · rw [hslack, Nat.add_zero, u32_of_lt (by omega)]
  · have hlast : head.height.toNat - 1 - y = 0 := by omega
    rw [hlast, Nat.zero_mul, Nat.zero_mul, u32_of_lt (by omega)]

theorem faithful_of_colors (h : Standard front head)
    (hdata : front.length + data.length < 2 ^ 31)
    (hcolor : ∀ p : ℕ × ℕ, p.1 < min info.x head.width.toNat →
      p.2 < min info.y head.height.toNat →
      (head.pixelBuf (displayedRows info (front ++ data) headBuf lineBuf
        (p.2 + 1)).lineBuf p.1).setWidth 24 = head.pictureColor (front ++ data) p) :
    Faithful info head (front ++ data)
      (dislplayBmp info (some (front ++ data)) (some headBuf) (some lineBuf)).draws := by
  intro p c
  constructor
  · rintro ⟨color, hmem, rfl⟩
    obtain ⟨hrange, rfl⟩ := (h.mem_draws hdata).mp hmem
    exact ⟨hrange, hcolor p hrange.1 hrange.2⟩
  · rintro ⟨hrange, rfl⟩
    exact ⟨_, (h.mem_draws hdata).mpr ⟨hrange, rfl⟩, hcolor p hrange.1 hrange.2⟩

theorem faithful (h : Standard front head)
    (hrows : slack head.width.toNat = 0 ∨ head.height = 1)
    (hlong : head.height.toNat * stride head.width.toNat ≤ data.length)
    (hdata : front.length + data.length < 2 ^ 31) :
    Faithful info head (front ++ data)
      (dislplayBmp info (some (front ++ data)) (some headBuf) (some lineBuf)).draws := by
  refine h.faithful_of_colors hdata fun p hx hy => ?_
  have hwidth := three_mul_le_stride head.width.toNat
  have hrow := row_le (stride head.width.toNat) (hy.trans_le (Nat.min_le_right ..))
  have hoff := h.rowOffset_found hrows (y := p.2) (hy.trans_le (Nat.min_le_right ..))
  have hfound : ∀ k < 3, (displayedRows info (front ++ data) headBuf lineBuf
      (p.2 + 1)).lineBuf (3 * p.1 + k) =
        (front ++ data).getD (head.rowOffset p.2 + (3 * p.1 + k)) 0 := by
    intro k hk
    have hhead := h.readHead_eq data headBuf
    have hsize := h.lineSize_eq info
    have hdispx := h.dispx_eq info
    have hlength : (front ++ data).length = front.length + data.length := List.length_append
    rw [displayedRows_found] <;> rw [hhead] <;> omega
  have hlt := h.width_lt
  rw [BmpHead.pixelBuf_24 h.count _ (by omega), hfound 2 (by omega), hfound 1 (by omega),
    ← Nat.add_zero (3 * p.1), hfound 0 (by omega), hoff]
  unfold BmpHead.pictureColor
  rw [h.offset]
  rfl

/-- The first row of the screen is the last one in the file. It is not read from its place there. -/
theorem firstRow_ne (h : Standard front head) (hslack : slack head.width.toNat ≠ 0)
    (hheight : head.height ≠ 1) :
    firstRow head ≠ front.length + (head.height.toNat - 1) * stride head.width.toNat := by
  have hpos := h.width_pos
  have hmore : 2 ≤ head.height.toNat := by
    have hheight_pos := h.height_pos
    omega
  have hfits := h.fits
  have hrow := row_le (stride head.width.toNat) h.height_toNat_pos
  have hstride : 4 ≤ stride head.width.toNat := by
    unfold stride
    omega
  have hrows : 4 * (head.height.toNat - 1) ≤
      (head.height.toNat - 1) * stride head.width.toNat := by
    rw [Nat.mul_comm]
    exact Nat.mul_le_mul_left _ hstride
  have hslack_le : slack head.width.toNat ≤ 8 := by
    unfold slack
    split_ifs <;> omega
  have hlate : (head.height.toNat - 1) * slack head.width.toNat ≤ (head.height.toNat - 1) * 8 :=
    Nat.mul_le_mul_left _ hslack_le
  have hlate_pos : 0 < (head.height.toNat - 1) * slack head.width.toNat :=
    Nat.mul_pos (by omega) (by omega)
  rw [Nat.sub_zero] at hrow
  unfold firstRow
  rw [h.rowOffset_eq h.height_toNat_pos, h.offset, Nat.sub_zero, Nat.mul_add, u32]
  split_ifs <;> omega

/-- In a picture that is displayed, the byte that is read first is that of its last row. -/
theorem first_byte (h : Standard front head) (hdata : front.length + data.length < 2 ^ 31)
    (hx : 0 < info.x) (hy : 0 < info.y)
    (hfaithful : Faithful info head (front ++ data)
      (dislplayBmp info (some (front ++ data)) (some headBuf) (some lineBuf)).draws) :
    (front ++ data)[firstRow head]?.getD (lineBuf 0) = (front ++ data).getD
      (front.length + (head.height.toNat - 1) * stride head.width.toNat) 0 := by
  have hpos := h.width_pos
  have hheight_pos := h.height_toNat_pos
  have hlt := h.width_lt
  have hsize := h.lineSize_eq info
  have hdispx := h.dispx_eq info
  have hread : (displayedRows info (front ++ data) headBuf lineBuf 1).lineBuf 0 =
      (front ++ data)[firstRow head]?.getD (lineBuf 0) := by
    have hhead := h.readHead_eq data headBuf
    have hoffset := h.offset
    rw [displayedRows_first] <;> rw [hhead]
    · rfl
    · omega
    · omega
  have hcolor := ((hfaithful (0, 0) _).mp
    ⟨_, (h.mem_draws hdata).mpr ⟨⟨by omega, by omega⟩, rfl⟩, rfl⟩).2
  rw [BmpHead.pixelBuf_24 h.count _ (by omega)] at hcolor
  have hblue := UInt8.toBitVec_inj.mp (blue_inj hcolor)
  simp only [Nat.mul_zero, Nat.zero_add, Nat.add_zero, Nat.sub_zero, h.offset] at hblue
  exact hread.symm.trans hblue

/-- A file whose rows are looked for behind their places, so that its last row shows other bytes. -/
theorem exists_not_faithful (h : Standard front head) (hslack : slack head.width.toNat ≠ 0)
    (hheight : head.height ≠ 1) (hx : 0 < info.x) (hy : 0 < info.y) :
    ∃ data headBuf lineBuf,
      head.height.toNat * stride head.width.toNat ≤ data.length ∧
      front.length + data.length < 2 ^ 31 ∧
      ¬ Faithful info head (front ++ data)
        (dislplayBmp info (some (front ++ data)) (some headBuf) (some lineBuf)).draws := by
  let place := (head.height.toNat - 1) * stride head.width.toNat
  let plain := List.replicate (head.height.toNat * stride head.width.toNat) (0 : UInt8)
  -- The byte that is read for the first one of the row.
  let byte := (front ++ plain)[firstRow head]?.getD 0
  have hsize : (plain.set place (byte + 1)).length =
      head.height.toNat * stride head.width.toNat := by simp [plain]
  have hdata : front.length + (plain.set place (byte + 1)).length < 2 ^ 31 := hsize ▸ h.fits
  refine ⟨plain.set place (byte + 1), fun _ => 0, fun _ => 0, hsize.ge, hdata, fun hfaithful => ?_⟩
  have hplace : front.length + place < (front ++ plain).length := by
    have hrow := row_le (stride head.width.toNat) h.height_toNat_pos
    have hwidth := three_mul_le_stride head.width.toNat
    have hpos := h.width_pos
    rw [Nat.sub_zero] at hrow
    simp only [place, plain, List.length_append, List.length_replicate]
    omega
  have hfirst := h.first_byte hdata hx hy hfaithful
  have hne : front.length + place ≠ firstRow head := (h.firstRow_ne hslack hheight).symm
  have hfile : front ++ plain.set place (byte + 1) =
      (front ++ plain).set (front.length + place) (byte + 1) := by
    rw [List.set_append_right _ _ (by omega), Nat.add_sub_cancel_left]
  rw [hfile, List.getElem?_set_ne hne, List.getD_eq_getElem?_getD,
    List.getElem?_set_self hplace] at hfirst
  have hbyte : byte = byte + 1 := hfirst
  exact absurd hbyte.symm (by simp)

end Standard

/-- The pixels of the screen after the calls of `draw_pixel`. -/
def showDraws (info : LdmInfo) (draws : List ((ℕ × ℕ) × Color)) : Mem → Mem :=
  writes (fun draw => info.pixelAddr draw.1) (fun draw => info.var.pixel draw.2) draws

theorem Faithful.showDraws_apply {info : LdmInfo} {head : BmpHead} {file : List UInt8}
    {draws : List ((ℕ × ℕ) × Color)} (h : Faithful info head file draws) (hmapped : info.Mapped)
    {p : ℕ × ℕ} (hp : info.OnScreen p) (mem : Mem) :
    showDraws info draws mem (info.pixelAddr p) =
      if p.1 < head.width.toNat ∧ p.2 < head.height.toNat then
        info.var.pixel ((head.pictureColor file p).setWidth 32)
      else mem (info.pixelAddr p) := by
  have hsame : ∀ draw ∈ draws, info.pixelAddr draw.1 = info.pixelAddr p → draw.1 = p := by
    intro draw hdraw haddr
    obtain ⟨hx, hy⟩ := ((h draw.1 _).mp ⟨draw.2, hdraw, rfl⟩).1
    exact hmapped.pixelAddr_inj ⟨by omega, by omega⟩ hp haddr
  obtain ⟨hx, hy⟩ := hp
  split_ifs with hin
  · obtain ⟨color, hdraw, hcolor⟩ := (h p _).mpr ⟨⟨by omega, by omega⟩, rfl⟩
    refine writes_of_agree (fun draw hmem haddr => ?_) (.inr ⟨_, hdraw, rfl⟩)
    obtain ⟨-, hvalue⟩ := (h draw.1 _).mp ⟨draw.2, hmem, rfl⟩
    rw [hsame draw hmem haddr] at hvalue
    apply Var.pixel_congr
    rw [hvalue, BitVec.setWidth_setWidth_of_le _ (by omega), BitVec.setWidth_eq]
  · apply writes_of_forall_ne
    intro draw hmem haddr
    have hrange := ((h draw.1 _).mp ⟨draw.2, hmem, rfl⟩).1
    rw [hsame draw hmem haddr] at hrange
    exact hin ⟨by omega, by omega⟩

/-- Pictures with 24 bits a pixel are displayed as they are exactly when filling up their rows to
four pixels adds as many bytes as filling them up to four bytes. The rows of a picture with one row
need not be found, and those of an empty screen are not read. The byte behind `line_buf` that the
last load of a row takes has some value here, and is not drawn. -/
theorem picture_displayed (info : LdmInfo) (front : List UInt8) (head : BmpHead)
    (h : Standard front head) :
    (∀ data headBuf lineBuf, head.height.toNat * stride head.width.toNat ≤ data.length →
      front.length + data.length < 2 ^ 31 →
      Faithful info head (front ++ data)
        (dislplayBmp info (some (front ++ data)) (some headBuf) (some lineBuf)).draws) ↔
      (head.width % 4 = 0 ∨ head.width % 4 = 3) ∨ head.height = 1 ∨ info.x = 0 ∨ info.y = 0 := by
  rw [← slack_eq_zero h.width_pos]
  constructor
  · intro hall
    by_contra hnot
    simp only [not_or] at hnot
    obtain ⟨hslack, hheight, hx, hy⟩ := hnot
    obtain ⟨data, headBuf, lineBuf, hlong, hdata, hne⟩ :=
      h.exists_not_faithful hslack hheight (Nat.pos_of_ne_zero hx) (Nat.pos_of_ne_zero hy)
    exact hne (hall data headBuf lineBuf hlong hdata)
  · rintro hcase data headBuf lineBuf hlong hdata
    rcases hcase with hslack | hheight | hx | hy
    · exact h.faithful (.inl hslack) hlong hdata
    · exact h.faithful (.inr hheight) hlong hdata
    · exact h.faithful_of_colors hdata fun p hpx _ => by omega
    · exact h.faithful_of_colors hdata fun p _ hpy => by omega

/-- The header of a file with 24 bits a pixel. -/
def front24 (width height : UInt8) : List UInt8 :=
  [0x42, 0x4d, 0, 0, 0, 0, 0, 0, 0, 0, 54, 0, 0, 0, 40, 0, 0, 0, width, 0, 0, 0, height, 0, 0, 0,
    1, 0, 24, 0] ++ List.replicate 24 0

theorem front24_standard (width height : UInt8) (h : (width = 1 ∨ width = 4) ∧ height = 2) :
    Standard (front24 width height) (headOf (front24 width height)) := by
  obtain ⟨rfl | rfl, rfl⟩ := h <;>
    exact ⟨by decide, rfl, by decide, by decide, by decide, by decide, by decide⟩

theorem picture_displayed_four : Faithful row (headOf (front24 4 2))
    (front24 4 2 ++ List.replicate 24 0) (dislplayBmp row
      (some (front24 4 2 ++ List.replicate 24 0)) (some fun _ => 0) (some fun _ => 1)).draws :=
  (picture_displayed row _ _ (front24_standard 4 2 (by decide))).mpr (by decide) _ _ _ (by decide)
    (by decide)

/-- A picture of one column, blue above black. Its upper row is looked for behind the file. -/
theorem column_not_displayed : Standard (front24 1 2) (headOf (front24 1 2)) ∧
    ¬ Faithful row (headOf (front24 1 2)) (front24 1 2 ++ [0, 0, 0, 0, 0xff, 0, 0, 0])
      (dislplayBmp row (some (front24 1 2 ++ [0, 0, 0, 0, 0xff, 0, 0, 0])) (some fun _ => 0)
        (some fun _ => 0)).draws := by
  refine ⟨front24_standard 1 2 (by decide), fun h => ?_⟩
  have hdrawn := (h (0, 0) 0).mp ⟨0, by decide, by decide⟩
  exact absurd hdrawn.2 (by decide)

end EmbeddedCode.DoubleBuffer
