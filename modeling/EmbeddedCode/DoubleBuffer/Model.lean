import EmbeddedCode.Library.CInt
import EmbeddedCode.Library.Transition
import EmbeddedCode.Library.Writes
import Mathlib.Data.List.Basic

/-!
# The double-buffered animation

`doublebuff_test` of `29doublebuff/03double_buff_interrupt/fbapp.c` on a machine with 32-bit
addresses. `fb_addr` is aligned, and all accesses are to words at a multiple of 4 from it, so a
memory is a function from the addresses of words.
-/
namespace EmbeddedCode.DoubleBuffer

open CInt Transition Writes

abbrev Color := BitVec 32

abbrev Mem := ℕ → BitVec 32

/-- The offsets in `var` of the colours in a pixel. -/
structure Var where
  red : ℕ
  green : ℕ
  blue : ℕ

structure LdmInfo where
  lineLength : ℕ
  var : Var
  x : ℕ
  y : ℕ
  pixelSize : ℕ
  fbAddr : ℕ

/-- `info` with the drawing functions directed to the buffer at `buf`. -/
def LdmInfo.on (info : LdmInfo) (buf : ℕ) : LdmInfo := {info with fbAddr := buf}

@[simp] theorem LdmInfo.on_x (info : LdmInfo) (buf : ℕ) : (info.on buf).x = info.x := rfl

@[simp] theorem LdmInfo.on_y (info : LdmInfo) (buf : ℕ) : (info.on buf).y = info.y := rfl

/-- The word that `draw_pixel_32bpp` writes for a colour. -/
def Var.pixel (var : Var) (color : Color) : BitVec 32 :=
  let red := (color >>> 16) &&& 0xff
  let green := (color >>> 8) &&& 0xff
  let blue := color &&& 0xff
  red <<< var.red ||| green <<< var.green ||| blue <<< var.blue

/-- The address of a pixel in the buffer at `info.fbAddr`. -/
def LdmInfo.pixelAddr (info : LdmInfo) (p : ℕ × ℕ) : ℕ :=
  u32 (info.fbAddr + 4 * u32 (p.2 * info.x + p.1))

def drawPixel32bpp (info : LdmInfo) (color : Color) (mem : Mem) (p : ℕ × ℕ) : Mem :=
  Function.update mem (info.pixelAddr p) (info.var.pixel color)

def rectPixels (x y xlen ylen : ℕ) : List (ℕ × ℕ) :=
  (List.range ylen).flatMap fun iy =>
    (List.range xlen).map fun ix => (u32 (x + ix), u32 (y + iy))

def drawRect (info : LdmInfo) (x y xlen ylen : ℕ) (color : Color) (mem : Mem) : Mem :=
  (rectPixels x y xlen ylen).foldl (drawPixel32bpp info color) mem

def clearScreen (info : LdmInfo) (color : Color) : Mem → Mem :=
  drawRect info 0 0 (u32 (info.x + 2 ^ 32 - 1)) (u32 (info.y + 2 ^ 32 - 1)) color

/-- The parameters of `doublebuff_test`. -/
structure Args where
  info : LdmInfo
  xlen : ℕ
  ylen : ℕ
  rectColor : Color
  backColor : Color

/-- The statement of the loop that comes next. -/
inductive Pc where
  /-- `draw_rect` at the new position. -/
  | draw
  /-- The swap of the buffers, `FBIOPAN_DISPLAY`, and the new `fb_addr`. -/
  | pan
  /-- `draw_rect` at the previous position, and the new `xprev` and `yprev`. -/
  | erase
  | advance
  deriving DecidableEq, Repr

structure State where
  pc : Pc
  mem : Mem
  /-- `info->fb_addr` -/
  fbAddr : ℕ
  frontBuff : ℕ
  backBuff : ℕ
  x : ℕ
  y : ℕ
  xprev : ℕ
  yprev : ℕ
  /-- `var.yoffset` of the last `FBIOPAN_DISPLAY`, 0 before the first one. -/
  yoffset : ℕ

namespace Args

variable (args : Args)

def baseAddr : ℕ := args.info.fbAddr

def bufSize : ℕ := u32 (u32 (args.info.x * args.info.y) * args.info.pixelSize)

/-- The state at the head of the loop, after both buffers are cleared. -/
def start (mem : Mem) : State :=
  let back := u32 (args.info.fbAddr + args.bufSize)
  let mem := clearScreen args.info args.backColor mem
  let mem := clearScreen (args.info.on back) args.backColor mem
  ⟨.draw, mem, back, args.info.fbAddr, back, 0, 0, 0, 0, 0⟩

def advance (x y : ℕ) : ℕ × ℕ :=
  let x := u32 (x + 1)
  if args.info.x ≤ u32 (x + args.xlen) then
    let y := u32 (y + args.ylen)
    if args.info.y ≤ u32 (y + args.ylen) then (0, 0) else (0, y)
  else (x, y)

def step (s : State) : State :=
  let info := args.info.on s.fbAddr
  match s.pc with
  | .draw => {s with
      pc := .pan
      mem := drawRect info s.x s.y args.xlen args.ylen args.rectColor s.mem}
  | .pan => {s with
      pc := .erase
      frontBuff := s.backBuff
      backBuff := s.frontBuff
      yoffset := u32 (s.backBuff + 2 ^ 32 - args.baseAddr) / args.info.lineLength
      fbAddr := s.frontBuff}
  | .erase => {s with
      pc := .advance
      mem := drawRect info s.xprev s.yprev args.xlen args.ylen args.backColor s.mem
      xprev := s.x
      yprev := s.y}
  | .advance =>
      let p := args.advance s.x s.y
      {s with
        pc := .draw
        x := p.1
        y := p.2}

/-- The loop runs forever, with one way to go on from each state. -/
def machine (mem : Mem) : Machine State Unit where
  init := args.start mem
  step s _ := some (args.step s)

/-- Where the buffer lies that the display shows. -/
def shown (s : State) : ℕ := args.baseAddr + s.yoffset * args.info.lineLength

end Args

end EmbeddedCode.DoubleBuffer
