import EmbeddedCode.DoubleBuffer.Painting

/-!
# Bitmap files on the screen

`dislplay_bmp` of `29doublebuff/03double_buff_interrupt/fbapp.c`. It reads a row of the picture
into `line_buf` and loads each pixel from there. The result tells which loads these are and
which calls of `draw_pixel` follow, so that both can be compared with the file.
-/
namespace EmbeddedCode.DoubleBuffer

open CInt

/-- The bytes from an address on. What lies behind an allocated block has values, too. -/
abbrev Buffer := ℕ → UInt8

structure Stream where
  bytes : List UInt8
  pos : ℕ

namespace Stream

/-- A file whose size is no `long` cannot be opened. -/
def fopen (bytes : List UInt8) : Option Stream :=
  if bytes.length < 2 ^ 31 then some ⟨bytes, 0⟩ else none

/-- The offset is a `long`. The position stays where it is when this is negative. -/
def fseek (fp : Stream) (offset : ℕ) : Stream :=
  if offset < 2 ^ 31 then {fp with pos := offset} else fp

theorem fseek_bytes (fp : Stream) (offset : ℕ) : (fp.fseek offset).bytes = fp.bytes := by
  unfold fseek
  split <;> rfl

/-- Bytes behind the end of the file are not read, and the buffer keeps what it has there. -/
def fread (fp : Stream) (size : ℕ) (buf : Buffer) : Stream × Buffer :=
  ({fp with pos := fp.pos + min size (fp.bytes.length - fp.pos)},
    fun i => if i < size then fp.bytes[fp.pos + i]?.getD (buf i) else buf i)

end Stream

/-- The number in `len` bytes of a buffer, least significant byte first. -/
def littleEndian (buf : Buffer) (at_ : ℕ) : ℕ → ℕ
  | 0 => 0
  | len + 1 => (buf at_).toNat + 2 ^ 8 * littleEndian buf (at_ + 1) len

/-- The conversion of an `int` to `unsigned int`. -/
def unsigned (v : ℤ) : ℕ := (v % 2 ^ 32).toNat

/-- The fields of `struct bmp_head` that are read. -/
structure BmpHead where
  offset : ℕ
  width : ℤ
  height : ℤ
  count : ℕ

def sizeofBmpHead : ℕ := 54

def bmpHead (buf : Buffer) : BmpHead where
  offset := littleEndian buf 10 4
  width := wrap (littleEndian buf 18 4)
  height := wrap (littleEndian buf 22 4)
  count := littleEndian buf 28 2

/-- The header that is read from a file. Where the file is too short, it is what `malloc` left. -/
def readHead (file : List UInt8) (headBuf : Buffer) : BmpHead :=
  bmpHead ((Stream.mk file 0).fread sizeofBmpHead headBuf).2

/-- The state of the loop over the rows. -/
structure Rows where
  fp : Stream
  lineBuf : Buffer
  /-- The loads from `line_buf`, each with its offset and its size. -/
  loads : List (ℕ × ℕ)
  /-- The calls of `draw_pixel`. -/
  draws : List ((ℕ × ℕ) × Color)

namespace BmpHead

variable (head : BmpHead)

def dispx (info : LdmInfo) : ℕ :=
  if info.x < unsigned head.width then info.x else unsigned head.width

def dispy (info : LdmInfo) : ℕ :=
  if info.y < unsigned head.height then info.y else unsigned head.height

/-- The pixels of a row in the file, as the program computes them. -/
def bmpX : ℕ :=
  if head.width.tmod 4 ≠ 0 then unsigned (head.width + 4 - head.width.tmod 4)
  else unsigned head.width

/-- The size of the block that is allocated for `line_buf`. -/
def lineSize (info : LdmInfo) : ℕ := u32 (head.dispx info * (head.count / 8))

/-- The load in the branch of the `switch` that is taken. -/
def pixelLoad (x : ℕ) : Option (ℕ × ℕ) :=
  let off := u32 (x * (head.count / 8))
  match head.count with
  | 32 => some (off, 4)
  | 24 => some (off, 4)
  | 16 => some (off, 2)
  | _ => none

/-- The value of `pixel_buf` after the `switch`. No branch is ever taken for another `count`, so
that `pixel_buf` is still 0. -/
def pixelBuf (lineBuf : Buffer) (x : ℕ) : Color :=
  let off := u32 (x * (head.count / 8))
  match head.count with
  | 32 => BitVec.ofNat 32 (littleEndian lineBuf off 4) >>> 8
  | 24 => BitVec.ofNat 32 (littleEndian lineBuf off 4)
  | 16 =>
      let buf := BitVec.ofNat 32 (littleEndian lineBuf off 2)
      let red := buf >>> 11 <<< 3 &&& 0xff
      let green := buf >>> 5 <<< 2 &&& 0xff
      let blue := buf <<< 3 &&& 0xff
      red <<< 16 ||| green <<< 8 ||| blue
  | _ => 0

/-- Where a row of the screen is looked for in the file. -/
def rowOffset (y : ℕ) : ℕ :=
  u32 (head.offset + unsigned (head.height - y - 1) * (head.count / 8 * head.bmpX))

def drawRow (info : LdmInfo) (rows : Rows) (y : ℕ) : Rows :=
  let read := (rows.fp.fseek (head.rowOffset y)).fread (head.lineSize info) rows.lineBuf
  { fp := read.1
    lineBuf := read.2
    loads := rows.loads ++ (List.range (head.dispx info)).filterMap head.pixelLoad
    draws := rows.draws ++
      (List.range (head.dispx info)).map fun x => ((x, y), head.pixelBuf read.2 x) }

/-- The state after the first rows. -/
def drawRows (info : LdmInfo) (n : ℕ) (rows : Rows) : Rows :=
  (List.range n).foldl (head.drawRow info) rows

end BmpHead

structure Displayed where
  ret : ℤ
  loads : List (ℕ × ℕ)
  draws : List ((ℕ × ℕ) × Color)

def notDisplayed : Displayed := ⟨-1, [], []⟩

def Rows.displayed (rows : Rows) : Displayed := ⟨0, rows.loads, rows.draws⟩

theorem Rows.displayed_loads (rows : Rows) : rows.displayed.loads = rows.loads := rfl

theorem Rows.displayed_draws (rows : Rows) : rows.displayed.draws = rows.draws := rfl

/-- The file is `none` if there is no such file. Each of the two blocks is `none` if `malloc`
fails. -/
def dislplayBmp (info : LdmInfo) (file : Option (List UInt8)) (headBuf lineBuf : Option Buffer) :
    Displayed :=
  match file.bind Stream.fopen with
  | none => notDisplayed
  | some fp =>
      match headBuf with
      | none => notDisplayed
      | some headBuf =>
          let read := fp.fread sizeofBmpHead headBuf
          let head := bmpHead read.2
          match lineBuf with
          | none => notDisplayed
          | some lineBuf =>
              let fp := read.1.fseek head.offset
              (head.drawRows info (head.dispy info) ⟨fp, lineBuf, [], []⟩).displayed

theorem unsigned_of_lt {v : ℤ} (h₀ : 0 ≤ v) (h : v < 2 ^ 32) : unsigned v = v.toNat := by
  unfold unsigned
  rw [Int.emod_eq_of_lt h₀ h]

theorem wrap_lt (v : ℤ) : wrap v < 2 ^ 31 := by
  simp only [wrap, Int.bmod_def]
  omega

namespace BmpHead

variable {head : BmpHead} (info : LdmInfo)

theorem dispx_eq (h₀ : 0 ≤ head.width) (h : head.width < 2 ^ 31) :
    head.dispx info = min info.x head.width.toNat := by
  unfold dispx
  rw [unsigned_of_lt h₀ (by omega)]
  split_ifs <;> omega

theorem dispy_eq (h₀ : 0 ≤ head.height) (h : head.height < 2 ^ 31) :
    head.dispy info = min info.y head.height.toNat := by
  unfold dispy
  rw [unsigned_of_lt h₀ (by omega)]
  split_ifs <;> omega

theorem drawRows_succ (n : ℕ) (rows : Rows) :
    head.drawRows info (n + 1) rows = head.drawRow info (head.drawRows info n rows) n := by
  simp [drawRows, List.range_succ]

/-- All rows have the same loads. -/
theorem mem_loads {n : ℕ} {rows : Rows} {l : ℕ × ℕ} (hrows : rows.loads = []) :
    l ∈ (head.drawRows info n rows).loads ↔
      0 < n ∧ ∃ x < head.dispx info, head.pixelLoad x = some l := by
  induction n with
  | zero => simp [drawRows, hrows]
  | succ n ih =>
      simp only [drawRows_succ, drawRow, List.mem_append, ih, List.mem_filterMap, List.mem_range]
      constructor
      · rintro (⟨_, hl⟩ | hl) <;> exact ⟨n.succ_pos, hl⟩
      · exact fun hl => .inr hl.2

/-- Every load of a row is in the block that is allocated for it. -/
def LoadsInside (head : BmpHead) (info : LdmInfo) : Prop :=
  ∀ x < head.dispx info, ∀ l, head.pixelLoad x = some l → l.1 + l.2 ≤ head.lineSize info

theorem loadsInside_of_16 (h : head.count = 16) (hd : head.dispx info < 2 ^ 31) :
    head.LoadsInside info := by
  intro x hx l hl
  simp only [pixelLoad, h, Option.some.injEq] at hl
  subst hl
  simp only [lineSize, h, u32]
  omega

theorem loadsInside_24 (h : head.count = 24) :
    head.LoadsInside info ↔ head.dispx info = 0 := by
  unfold LoadsInside
  constructor
  · intro hinside
    by_contra hpos
    -- The last pixel of the row.
    have hlast := hinside (head.dispx info - 1) (by omega) (_, 4) (by simp only [pixelLoad, h]; rfl)
    simp only [lineSize, h, u32] at hlast
    omega
  · intro hzero x hx
    omega

theorem loadsInside_32 (h : head.count = 32) :
    head.LoadsInside info ↔ head.dispx info < 2 ^ 30 := by
  unfold LoadsInside
  constructor
  · intro hinside
    by_contra hlarge
    -- The size of the block is no `size_t`, but the offset of this pixel still is.
    have hload := hinside (2 ^ 30 - 1) (by omega) (_, 4) (by simp only [pixelLoad, h]; rfl)
    simp only [lineSize, h, u32] at hload
    omega
  · intro hd x hx l hl
    simp only [pixelLoad, h, Option.some.injEq] at hl
    subst hl
    simp only [lineSize, h, u32]
    omega

end BmpHead

section
variable (file : List UInt8) (headBuf : Buffer)

theorem readHead_width_lt : (readHead file headBuf).width < 2 ^ 31 := by
  simp only [readHead, bmpHead]
  exact wrap_lt _

theorem readHead_height_lt : (readHead file headBuf).height < 2 ^ 31 := by
  simp only [readHead, bmpHead]
  exact wrap_lt _

end

section
variable {info : LdmInfo} {file : List UInt8} {headBuf lineBuf : Buffer} {l : ℕ × ℕ}

theorem Stream.fopen_of_lt (h : file.length < 2 ^ 31) : fopen file = some ⟨file, 0⟩ := if_pos h

theorem Stream.fopen_of_le (h : 2 ^ 31 ≤ file.length) : fopen file = none :=
  if_neg (Nat.not_lt.mpr h)

/-- The rows that are drawn if nothing fails. -/
def displayedRows (info : LdmInfo) (file : List UInt8) (headBuf lineBuf : Buffer) (n : ℕ) : Rows :=
  let fp := ((Stream.mk file 0).fread sizeofBmpHead headBuf).1
  let head := readHead file headBuf
  head.drawRows info n ⟨fp.fseek head.offset, lineBuf, [], []⟩

theorem dislplayBmp_of_lt (h : file.length < 2 ^ 31) :
    dislplayBmp info (some file) (some headBuf) (some lineBuf) =
      (displayedRows info file headBuf lineBuf ((readHead file headBuf).dispy info)).displayed := by
  unfold dislplayBmp
  rw [Option.bind_some, Stream.fopen_of_lt h]
  rfl

theorem dislplayBmp_of_le (h : 2 ^ 31 ≤ file.length) (headBuf lineBuf : Option Buffer) :
    dislplayBmp info (some file) headBuf lineBuf = notDisplayed := by
  unfold dislplayBmp
  rw [Option.bind_some, Stream.fopen_of_le h]

theorem dislplayBmp_none (h : file.length < 2 ^ 31) :
    dislplayBmp info (some file) (some headBuf) none = notDisplayed := by
  unfold dislplayBmp
  rw [Option.bind_some, Stream.fopen_of_lt h]

theorem mem_displayedRows_loads {n : ℕ} :
    l ∈ (displayedRows info file headBuf lineBuf n).loads ↔
      0 < n ∧ ∃ x < (readHead file headBuf).dispx info,
        (readHead file headBuf).pixelLoad x = some l := by
  unfold displayedRows
  exact BmpHead.mem_loads info rfl

theorem mem_dislplayBmp_loads (h : file.length < 2 ^ 31) :
    l ∈ (dislplayBmp info (some file) (some headBuf) (some lineBuf)).loads ↔
      0 < (readHead file headBuf).dispy info ∧
        ∃ x < (readHead file headBuf).dispx info, (readHead file headBuf).pixelLoad x = some l := by
  rw [dislplayBmp_of_lt h, Rows.displayed_loads, mem_displayedRows_loads]

end

/-- The loads of `dislplay_bmp` stay in `line_buf` for 16 bits a pixel, and for 32 bits. For 24
bits the last load of each row takes one byte more, which is outside of the block whatever value
`pixelBuf` gets for it. -/
theorem lineBuf_loads (info : LdmInfo) (file : List UInt8) (headBuf : Buffer)
    (lineBuf : Option Buffer) (hwidth : 0 < (readHead file headBuf).width)
    (hheight : 0 < (readHead file headBuf).height)
    (hcount : (readHead file headBuf).count = 16 ∨ (readHead file headBuf).count = 24 ∨
      (readHead file headBuf).count = 32) :
    (∀ l ∈ (dislplayBmp info (some file) (some headBuf) lineBuf).loads,
        l.1 + l.2 ≤ (readHead file headBuf).lineSize info) ↔
      2 ^ 31 ≤ file.length ∨ lineBuf = none ∨ info.x = 0 ∨ info.y = 0 ∨
        (readHead file headBuf).count = 16 ∨
        (readHead file headBuf).count = 32 ∧ (readHead file headBuf).dispx info < 2 ^ 30 := by
  rcases Nat.lt_or_ge file.length (2 ^ 31) with hopen | hlarge
  swap
  · rw [dislplayBmp_of_le hlarge]
    exact iff_of_true (by simp [notDisplayed]) (.inl hlarge)
  cases lineBuf with
  | none => simp [dislplayBmp_none hopen, notDisplayed]
  | some lineBuf =>
      have hw := readHead_width_lt file headBuf
      have hh := readHead_height_lt file headBuf
      simp only [mem_dislplayBmp_loads hopen]
      generalize readHead file headBuf = head at *
      have hdispx := BmpHead.dispx_eq info hwidth.le hw
      have hdispy := BmpHead.dispy_eq info hheight.le hh
      have hinside : (∀ l : ℕ × ℕ, (0 < head.dispy info ∧ ∃ x < head.dispx info,
          head.pixelLoad x = some l) → l.1 + l.2 ≤ head.lineSize info) ↔
            head.dispy info = 0 ∨ head.LoadsInside info := by
        constructor
        · intro h
          rcases Nat.eq_zero_or_pos (head.dispy info) with hzero | hpos
          · exact .inl hzero
          · exact .inr fun x hx l hl => h l ⟨hpos, x, hx, hl⟩
        · rintro (hzero | h) l ⟨hpos, x, hx, hl⟩
          · omega
          · exact h x hx l hl
      rw [hinside]
      have hopened : ¬ 2 ^ 31 ≤ file.length := by omega
      rcases hcount with hcount | hcount | hcount
      · have h := BmpHead.loadsInside_of_16 info hcount (by omega)
        simp [h, hcount]
      · rw [BmpHead.loadsInside_24 info hcount]
        simp only [hcount, hopened, reduceCtorEq, Nat.reduceEqDiff, false_or, false_and, or_false]
        omega
      · rw [BmpHead.loadsInside_32 info hcount]
        simp only [hcount, hopened, reduceCtorEq, Nat.reduceEqDiff, false_or, true_and]
        omega

/-- A picture of one black pixel. -/
def onePixel (count : UInt8) : List UInt8 :=
  [0x42, 0x4d, 58, 0, 0, 0, 0, 0, 0, 0, 54, 0, 0, 0, 40, 0, 0, 0, 1, 0, 0, 0, 1, 0, 0, 0, 1, 0,
    count, 0] ++ List.replicate 28 0

theorem lineBuf_loads_onePixel : (readHead (onePixel 32) fun _ => 0).lineSize row = 4 ∧
    ∀ l ∈ (dislplayBmp row (some (onePixel 32)) (some fun _ => 0) (some fun _ => 0)).loads,
      l.1 + l.2 ≤ 4 :=
  ⟨by decide, (lineBuf_loads row (onePixel 32) (fun _ => 0) (some fun _ => 0) (by decide)
    (by decide) (by decide)).mpr (by decide)⟩

/-- The four bytes of a load are one more than a pixel of 24 bits has. -/
theorem loads_onePixel : (readHead (onePixel 24) fun _ => 0).width = 1 ∧
    (readHead (onePixel 24) fun _ => 0).height = 1 ∧
    (readHead (onePixel 24) fun _ => 0).count = 24 ∧
    ¬ ∀ l ∈ (dislplayBmp row (some (onePixel 24)) (some fun _ => 0) (some fun _ => 0)).loads,
      l.1 + l.2 ≤ (readHead (onePixel 24) fun _ => 0).lineSize row := by
  decide

end EmbeddedCode.DoubleBuffer
