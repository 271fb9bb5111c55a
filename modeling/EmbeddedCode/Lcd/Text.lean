import EmbeddedCode.Library.CInt
import EmbeddedCode.Library.CString
import Mathlib.Data.Nat.Bitwise

/-!
# Text on the LCD

`draw_ch` and `draw_str` of `27lcd_font_fbdrv_demo/01lcd_font/lcd.c`. The cursor is static, and no
branch brings it back to the top of the screen.
-/
namespace EmbeddedCode.Lcd

open CInt

def XSIZE : ℕ := 800

def YSIZE : ℕ := 480

structure FontDesc where
  width : ℕ
  height : ℕ
  data : ℕ → UInt8

/-- The font that is used, with the bytes of its characters. -/
def fontVga8x16 (fontdata : ℕ → UInt8) : FontDesc := ⟨8, 16, fontdata⟩

/-- The pixels that `__draw_ch` draws. Their positions are passed on as `ssize_t`. -/
def drawChAt (x y : ℕ) (ch : UInt8) (fontdesc : FontDesc) : List (ℤ × ℤ) :=
  if 8 < fontdesc.width then []
  else
    let fontSize := (fontdesc.width + 7) / 8 * fontdesc.height
    let font := fun iy => fontdesc.data (ch.toNat * fontSize + iy)
    (List.range fontdesc.height).flatMap fun iy =>
      ((List.range fontdesc.width).filter fun ix => (font iy).toNat.testBit (7 - ix)).map
        fun ix : ℕ => (wrap (x + ix), wrap (y + iy))

/-- The static variables of `draw_ch`. -/
structure Cursor where
  lcdChX : ℕ
  lcdChY : ℕ

/-- A call of `__draw_ch`. -/
structure Glyph where
  x : ℕ
  y : ℕ
  pixels : List (ℤ × ℤ)
  deriving DecidableEq

def newline : UInt8 := 10

section
variable (fontdata : ℕ → UInt8)

def drawCh (cursor : Cursor) (ch : UInt8) : Option Glyph × Cursor :=
  let font := fontVga8x16 fontdata
  let changeLine : Cursor := ⟨0, u32 (cursor.lcdChY + font.height)⟩
  if ch = newline then (none, changeLine)
  else
    let glyph : Glyph :=
      ⟨cursor.lcdChX, cursor.lcdChY, drawChAt cursor.lcdChX cursor.lcdChY ch font⟩
    let x := u32 (cursor.lcdChX + font.width)
    (some glyph, if XSIZE - 1 ≤ x then changeLine else {cursor with lcdChX := x})

def drawChs (cursor : Cursor) : List UInt8 → List Glyph × Cursor
  | [] => ([], cursor)
  | ch :: chs =>
      let drawn := drawCh fontdata cursor ch
      let more := drawChs drawn.2 chs
      (drawn.1.toList ++ more.1, more.2)

def drawStr (cursor : Cursor) (str : CString) : List Glyph × Cursor :=
  drawChs fontdata cursor str.bytes

/-- What the program may call. -/
inductive Call where
  | ch (c : UInt8)
  | str (s : CString)

def Call.chars : Call → List UInt8
  | .ch c => [c]
  | .str s => s.bytes

def Call.run (cursor : Cursor) : Call → List Glyph × Cursor
  | .ch c =>
      let drawn := drawCh fontdata cursor c
      (drawn.1.toList, drawn.2)
  | .str s => drawStr fontdata cursor s

/-- The glyphs that are drawn by a sequence of calls. -/
def drawCalls (cursor : Cursor) : List Call → List Glyph
  | [] => []
  | call :: calls =>
      let drawn := call.run fontdata cursor
      drawn.1 ++ drawCalls drawn.2 calls

end

/-!
The cells of a text, and what the cursor has to do with them.
-/

def columns : ℕ := 100

def lines : ℕ := 30

structure Cell where
  col : ℕ
  line : ℕ
  col_lt : col < columns

namespace Cell

def origin : Cell := ⟨0, 0, by decide⟩

/-- The first cell of the next row. -/
def nextLine (cell : Cell) : Cell := ⟨0, cell.line + 1, by decide⟩

/-- The cell after a character: the next one of the row, or after a full row or a newline the first
one of the next row. -/
def next (cell : Cell) (ch : UInt8) : Cell :=
  if ch = newline then cell.nextLine
  else if h : cell.col + 1 < columns then ⟨cell.col + 1, cell.line, h⟩ else cell.nextLine

def cursor (cell : Cell) : Cursor := ⟨8 * cell.col, u32 (16 * cell.line)⟩

/-- The upper left corner of the cell. -/
def corner (cell : Cell) : ℕ × ℕ := (8 * cell.col, 16 * cell.line)

/-- The characters of a text that are no newlines, with their cells. -/
def layout (cell : Cell) : List UInt8 → List (UInt8 × Cell)
  | [] => []
  | ch :: chs =>
      if ch = newline then layout (cell.next ch) chs else (ch, cell) :: layout (cell.next ch) chs

end Cell

def OnScreen (p : ℤ × ℤ) : Prop := (0 ≤ p.1 ∧ p.1 < XSIZE) ∧ 0 ≤ p.2 ∧ p.2 < YSIZE

def Blank (fontdata : ℕ → UInt8) (ch : UInt8) : Prop := ∀ iy < 16, fontdata (ch.toNat * 16 + iy) = 0

section
variable {fontdata : ℕ → UInt8} {cell : Cell} {ch : UInt8}

/-- What is drawn for a character in its cell. -/
def glyphAt (fontdata : ℕ → UInt8) (c : UInt8 × Cell) : Glyph :=
  let cursor := c.2.cursor
  ⟨cursor.lcdChX, cursor.lcdChY,
    drawChAt cursor.lcdChX cursor.lcdChY c.1 (fontVga8x16 fontdata)⟩

theorem cursor_nextLine : cell.nextLine.cursor = ⟨0, u32 (cell.cursor.lcdChY + 16)⟩ := by
  simp only [Cell.cursor, Cell.nextLine, u32, Cursor.mk.injEq, Nat.mul_zero, true_and]
  omega

theorem drawCh_newline :
    drawCh fontdata cell.cursor newline = (none, (cell.next newline).cursor) := by
  simp only [drawCh, if_true, Cell.next, cursor_nextLine, fontVga8x16]

theorem drawCh_cell (h : ch ≠ newline) : drawCh fontdata cell.cursor ch =
    (some (glyphAt fontdata (ch, cell)), (cell.next ch).cursor) := by
  have hcol := cell.col_lt
  have hx : u32 (cell.cursor.lcdChX + 8) = 8 * (cell.col + 1) := by
    simp only [columns] at hcol
    simp only [Cell.cursor]
    rw [u32_of_lt (by omega)]
    omega
  simp only [drawCh, if_neg h, fontVga8x16, hx, Cell.next]
  congr 1
  split_ifs with hend hnext hnext
  · simp only [columns, XSIZE] at hnext hend
    omega
  · exact cursor_nextLine.symm
  · rfl
  · simp only [columns, XSIZE] at hnext hend
    omega

theorem layout_cons (chs : List UInt8) : (cell.layout (ch :: chs)).map (glyphAt fontdata) =
    (drawCh fontdata cell.cursor ch).1.toList ++
      ((cell.next ch).layout chs).map (glyphAt fontdata) := by
  by_cases h : ch = newline
  · subst h
    rw [drawCh_newline]
    simp only [Cell.layout, if_true, Option.toList_none, List.nil_append]
  · rw [drawCh_cell h]
    simp only [Cell.layout, if_neg h, List.map_cons, Option.toList_some, List.singleton_append]

theorem drawCh_cursor : (drawCh fontdata cell.cursor ch).2 = (cell.next ch).cursor := by
  by_cases h : ch = newline
  · subst h
    rw [drawCh_newline]
  · rw [drawCh_cell h]

/-- The cell behind a text. -/
def Cell.after (cell : Cell) (chs : List UInt8) : Cell := chs.foldl Cell.next cell

theorem drawChs_eq (chs : List UInt8) : drawChs fontdata cell.cursor chs =
    ((cell.layout chs).map (glyphAt fontdata), (cell.after chs).cursor) := by
  induction chs generalizing cell with
  | nil => rfl
  | cons ch chs ih =>
      rw [layout_cons]
      simp only [drawChs, drawCh_cursor, ih]
      rfl

theorem layout_append (chs chs' : List UInt8) :
    cell.layout (chs ++ chs') = cell.layout chs ++ (cell.after chs).layout chs' := by
  induction chs generalizing cell with
  | nil => rfl
  | cons ch chs ih =>
      simp only [List.cons_append, Cell.layout, ih]
      split_ifs <;> rfl

theorem run_eq (call : Call) : call.run fontdata cell.cursor =
    ((cell.layout call.chars).map (glyphAt fontdata), (cell.after call.chars).cursor) := by
  cases call with
  | ch c =>
      rw [Call.chars, layout_cons]
      simp only [Call.run, drawCh_cursor, Cell.layout, List.map_nil, List.append_nil]
      rfl
  | str s => exact drawChs_eq s.bytes

/-- The cursor goes on from where the call before has left it. -/
theorem drawCalls_eq (calls : List Call) : drawCalls fontdata cell.cursor calls =
    (cell.layout (calls.flatMap Call.chars)).map (glyphAt fontdata) := by
  induction calls generalizing cell with
  | nil => rfl
  | cons call calls ih =>
      simp only [drawCalls, run_eq, ih, List.flatMap_cons, layout_append, List.map_append]

theorem mem_pixels {c : UInt8 × Cell} {p : ℤ × ℤ} : p ∈ (glyphAt fontdata c).pixels ↔
    ∃ iy < 16, ∃ ix < 8, (fontdata (c.1.toNat * 16 + iy)).toNat.testBit (7 - ix) ∧
      (((8 * c.2.col + ix : ℕ) : ℤ), wrap (u32 (16 * c.2.line) + iy : ℕ)) = p := by
  have hcol := c.2.col_lt
  have hx : ∀ ix < 8, wrap (8 * c.2.col + ix : ℕ) = (8 * c.2.col + ix : ℕ) := by
    intro ix hix
    simp only [columns] at hcol
    apply wrap_fits
    simp only [Fits, intMin, intMax]
    omega
  simp only [glyphAt, drawChAt, fontVga8x16, Nat.lt_irrefl, if_false, Cell.cursor,
    List.mem_flatMap, List.mem_map, List.mem_filter, List.mem_range]
  constructor
  · rintro ⟨iy, hiy, ix, ⟨hix, hbit⟩, rfl⟩
    refine ⟨iy, hiy, ix, hix, hbit, ?_⟩
    rw [← hx ix hix]
    push_cast
    rfl
  · rintro ⟨iy, hiy, ix, hix, hbit, rfl⟩
    refine ⟨iy, hiy, ix, ⟨hix, hbit⟩, ?_⟩
    rw [← hx ix hix]
    push_cast
    rfl

theorem exists_testBit {b : UInt8} (h : b ≠ 0) : ∃ ix < 8, b.toNat.testBit (7 - ix) := by
  obtain ⟨i, hi⟩ := Nat.exists_testBit_of_ne_zero
    (fun hzero => h (UInt8.toNat_inj.mp hzero))
  have hlt : i < 8 := by
    by_contra hge
    rw [Nat.testBit_lt_two_pow (b.toNat_lt.trans_le (Nat.pow_le_pow_right (by omega)
      (Nat.not_lt.mp hge)))] at hi
    cases hi
  exact ⟨7 - i, by omega, by rwa [Nat.sub_sub_self (by omega)]⟩

theorem row_onScreen_iff {line iy : ℕ} (hline : line < 2 ^ 28) (hiy : iy < 16) :
    (0 ≤ wrap (u32 (16 * line) + iy : ℕ) ∧ wrap (u32 (16 * line) + iy : ℕ) < YSIZE) ↔
      line < lines := by
  rw [u32_of_lt (by omega)]
  simp only [wrap, Int.bmod_def, YSIZE, lines]
  omega

/-- The pixels of a character are on the screen. -/
theorem pixels_onScreen_iff {c : UInt8 × Cell} (hline : c.2.line < 2 ^ 28) :
    (∀ p ∈ (glyphAt fontdata c).pixels, OnScreen p) ↔ c.2.line < lines ∨ Blank fontdata c.1 := by
  have hcol := c.2.col_lt
  constructor
  · intro hpixels
    refine or_iff_not_imp_right.mpr fun hblank => ?_
    simp only [Blank, not_forall] at hblank
    obtain ⟨iy, hiy, hbyte⟩ := hblank
    obtain ⟨ix, hix, hbit⟩ := exists_testBit hbyte
    have hp := hpixels _ (mem_pixels.mpr ⟨iy, hiy, ix, hix, hbit, rfl⟩)
    simp only [OnScreen, row_onScreen_iff hline hiy] at hp
    exact hp.2
  · intro hcase p hp
    obtain ⟨iy, hiy, ix, hix, hbit, rfl⟩ := mem_pixels.mp hp
    rcases hcase with hlines | hblank
    · rw [OnScreen, row_onScreen_iff hline hiy]
      simp only [columns, XSIZE] at hcol ⊢
      omega
    · rw [hblank iy hiy] at hbit
      simp at hbit

theorem corner_iff {c : UInt8 × Cell} :
    ((glyphAt fontdata c).x, (glyphAt fontdata c).y) = c.2.corner ↔ c.2.line < 2 ^ 28 := by
  simp only [glyphAt, Cell.cursor, Cell.corner, Prod.mk.injEq, true_and, u32]
  omega

end

/-- The text of any number of calls stays on the screen, with each character in the cell after the
one before, exactly when all lines from the 31st on are blank and the cursor does not overflow. -/
theorem text_on_screen (fontdata : ℕ → UInt8) (calls : List Call) :
    ((∀ glyph ∈ drawCalls fontdata ⟨0, 0⟩ calls, ∀ p ∈ glyph.pixels, OnScreen p) ∧
      (drawCalls fontdata ⟨0, 0⟩ calls).map (fun glyph => (glyph.x, glyph.y)) =
        (Cell.origin.layout (calls.flatMap Call.chars)).map fun c => c.2.corner) ↔
    ∀ c ∈ Cell.origin.layout (calls.flatMap Call.chars),
      c.2.line < 2 ^ 28 ∧ (c.2.line < lines ∨ Blank fontdata c.1) := by
  have hstart : (⟨0, 0⟩ : Cursor) = Cell.origin.cursor := rfl
  rw [hstart, drawCalls_eq, List.map_map, List.map_inj_left]
  simp only [List.forall_mem_map, Function.comp_apply, corner_iff]
  constructor
  · rintro ⟨hpixels, hlines⟩ c hc
    exact ⟨hlines c hc, (pixels_onScreen_iff (hlines c hc)).mp (hpixels c hc)⟩
  · intro hall
    exact ⟨fun c hc => (pixels_onScreen_iff (hall c hc).1).mpr (hall c hc).2,
      fun c hc => (hall c hc).1⟩

/-- A font that has the hyphen only. -/
def hyphen (i : ℕ) : UInt8 := if i = 0x2d * 16 + 7 then 0xfe else 0

/-- A hyphen after thirty newlines is drawn below the screen. -/
theorem hyphen_below_screen : ∃ glyph ∈ drawCalls hyphen ⟨0, 0⟩
    [.str ⟨List.replicate 30 newline ++ [0x2d], by decide⟩],
    ∃ p ∈ glyph.pixels, (YSIZE : ℤ) ≤ p.2 :=
  ⟨⟨0, 480, drawChAt 0 480 0x2d (fontVga8x16 hyphen)⟩, by decide, (0, 487), by decide, by decide⟩

end EmbeddedCode.Lcd
