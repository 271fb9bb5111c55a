import EmbeddedCode.DoubleBuffer.Painting

/-!
# The frames of the animation

Each `FBIOPAN_DISPLAY` shows a clean frame, and nothing is drawn into a buffer while it is
shown. The buffer that is not shown holds the cleared screen, up to the rectangle that it
still has to lose.
-/
namespace EmbeddedCode.DoubleBuffer

open CInt Transition Writes

/-- The rectangle lies in `[0, x) × [0, y)` wherever it stands, and the two buffers of
`x * y` pixels fit behind each other. `draw_pixel_32bpp` is in use for pixels of 4 bytes. -/
structure Args.Fits (args : Args) : Prop where
  xlen : args.xlen < args.info.x
  ylen : args.ylen < args.info.y
  pixelSize : args.info.pixelSize = 4
  lineLength : args.info.lineLength = args.info.x * args.info.pixelSize
  mapped : args.info.fbAddr + 2 * (args.info.x * args.info.y * args.info.pixelSize) ≤ 2 ^ 32

/-- The pixel is in `[0, x) × [0, y)`. -/
def Args.OnScreen (args : Args) (p : ℕ × ℕ) : Prop := p.1 < args.info.x ∧ p.2 < args.info.y

/-- The address lies in the buffer at `buf`. -/
def Args.InBuffer (args : Args) (buf addr : ℕ) : Prop :=
  buf ≤ addr ∧ addr < buf + args.bufSize

namespace Args

variable {args : Args} {x y buf : ℕ} {p q : ℕ × ℕ}

namespace Fits

theorem pixels_le (h : args.Fits) : 8 * (args.info.x * args.info.y) ≤ 2 ^ 32 := by
  have hmapped := h.mapped
  rw [h.pixelSize] at hmapped
  omega

theorem size_lt (h : args.Fits) : 8 * args.info.x ≤ 2 ^ 32 ∧ 8 * args.info.y ≤ 2 ^ 32 := by
  have hpixels := h.pixels_le
  have hy := h.ylen
  have hx := h.xlen
  have hxy : args.info.x ≤ args.info.x * args.info.y :=
    Nat.le_mul_of_pos_right _ (by omega)
  have hyx : args.info.y ≤ args.info.x * args.info.y :=
    Nat.le_mul_of_pos_left _ (by omega)
  omega

theorem bufSize (h : args.Fits) : args.bufSize = 4 * (args.info.x * args.info.y) := by
  have hpixels := h.pixels_le
  have hxy : u32 (args.info.x * args.info.y) = args.info.x * args.info.y :=
    u32_of_lt (by omega)
  unfold Args.bufSize
  rw [h.pixelSize, hxy, u32_of_lt (by omega), Nat.mul_comm]

/-- Each of the buffers is a frame of its own. -/
theorem on_mapped (h : args.Fits) (hbuf : buf + args.bufSize ≤ 2 ^ 32) :
    (args.info.on buf).Mapped where
  x_pos := Nat.zero_lt_of_lt h.xlen
  y_pos := Nat.zero_lt_of_lt h.ylen
  mapped := h.bufSize ▸ hbuf

theorem addr_mem (h : args.Fits) (hbuf : buf + args.bufSize ≤ 2 ^ 32) (hp : args.OnScreen p) :
    args.InBuffer buf ((args.info.on buf).pixelAddr p) := by
  have hsize := h.bufSize
  have hindex := index_lt hp.1 hp.2
  rw [(h.on_mapped hbuf).pixelAddr_eq hp, LdmInfo.on_x, LdmInfo.on_fbAddr]
  constructor <;> omega

end Fits

/-- `buf` is one of the two buffers, and `other` is the other one. -/
def Buffers (args : Args) (buf other : ℕ) : Prop :=
  buf = args.baseAddr ∧ other = args.baseAddr + args.bufSize ∨
    buf = args.baseAddr + args.bufSize ∧ other = args.baseAddr

theorem Buffers.symm {other : ℕ} (hb : args.Buffers buf other) : args.Buffers other buf := by
  rcases hb with ⟨hbuf, hother⟩ | ⟨hbuf, hother⟩
  · exact .inr ⟨hother, hbuf⟩
  · exact .inl ⟨hother, hbuf⟩

theorem Buffers.le {other : ℕ} (hb : args.Buffers buf other) (h : args.Fits) :
    buf + args.bufSize ≤ 2 ^ 32 := by
  have hsize := h.bufSize
  have hmapped := h.mapped
  rw [h.pixelSize] at hmapped
  unfold Buffers baseAddr at hb
  omega

theorem Buffers.not_mem {other addr : ℕ} (hb : args.Buffers buf other)
    (ha : args.InBuffer buf addr) : ¬ args.InBuffer other addr := by
  unfold Buffers at hb
  unfold InBuffer at *
  omega

section Draw

variable {c : Color} {mem mem' : Mem} {x' y' xlen ylen other a : ℕ}

theorem Fits.drawRect_other (h : args.Fits) (hbuf : buf + args.bufSize ≤ 2 ^ 32)
    (hx : x + xlen ≤ args.info.x) (hy : y + ylen ≤ args.info.y)
    (ha : ¬ args.InBuffer buf a) :
    drawRect (args.info.on buf) x y xlen ylen c mem a = mem a := by
  apply (h.on_mapped hbuf).drawRect_other hx hy
  rintro p hp rfl
  exact ha (h.addr_mem hbuf hp)

theorem Fits.drawRect_apply (h : args.Fits) (hbuf : buf + args.bufSize ≤ 2 ^ 32)
    (hx : x + xlen ≤ args.info.x) (hy : y + ylen ≤ args.info.y) (hp : args.OnScreen p) :
    drawRect (args.info.on buf) x y xlen ylen c mem ((args.info.on buf).pixelAddr p) =
      if InRect x y xlen ylen p then args.info.var.pixel c
      else mem ((args.info.on buf).pixelAddr p) :=
  (h.on_mapped hbuf).drawRect_apply hx hy hp

end Draw

section Contents

variable {mem₀ mem mem' : Mem} {other : ℕ} {R : ℕ × ℕ → Prop} [DecidablePred R]

/-- The buffer holds what it held in `mem₀`, with the pixels of `R` in the colour of the
rectangle. -/
def Shows (args : Args) (mem₀ mem : Mem) (buf : ℕ) (R : ℕ × ℕ → Prop) [DecidablePred R] : Prop :=
  ∀ p, args.OnScreen p → mem ((args.info.on buf).pixelAddr p) =
    if R p then args.info.var.pixel args.rectColor else mem₀ ((args.info.on buf).pixelAddr p)

/-- The buffer holds what it held in `mem₀` outside of `R`. -/
def Keeps (args : Args) (mem₀ mem : Mem) (buf : ℕ) (R : ℕ × ℕ → Prop) : Prop :=
  ∀ p, args.OnScreen p → ¬ R p →
    mem ((args.info.on buf).pixelAddr p) = mem₀ ((args.info.on buf).pixelAddr p)

theorem Shows.keeps (h : args.Shows mem₀ mem buf R) : args.Keeps mem₀ mem buf R := by
  intro p hp hR
  rw [h p hp, if_neg hR]

def Cleared (args : Args) (mem : Mem) (buf : ℕ) : Prop :=
  ∀ p : ℕ × ℕ, p.1 < args.info.x - 1 → p.2 < args.info.y - 1 →
    mem ((args.info.on buf).pixelAddr p) = args.info.var.pixel args.backColor

theorem Fits.draw_shows (h : args.Fits) (hbuf : buf + args.bufSize ≤ 2 ^ 32)
    (hx : x + args.xlen ≤ args.info.x) (hy : y + args.ylen ≤ args.info.y)
    (hclean : args.Keeps mem₀ mem buf fun _ => False) :
    args.Shows mem₀ (drawRect (args.info.on buf) x y args.xlen args.ylen args.rectColor mem) buf
      (InRect x y args.xlen args.ylen) := by
  intro p hp
  rw [h.drawRect_apply hbuf hx hy hp, hclean p hp not_false]

/-- Erasing the rectangle gives the cleared screen back. The rectangle does not reach the last
row and the last column, which are not cleared. -/
theorem Fits.erase_keeps (h : args.Fits) (hbuf : buf + args.bufSize ≤ 2 ^ 32)
    (hx : x + args.xlen < args.info.x) (hy : y + args.ylen < args.info.y)
    (hcleared : args.Cleared mem₀ buf)
    (hkeeps : args.Keeps mem₀ mem buf (InRect x y args.xlen args.ylen)) :
    args.Keeps mem₀ (drawRect (args.info.on buf) x y args.xlen args.ylen args.backColor mem) buf
      fun _ => False := by
  intro p hp _
  rw [h.drawRect_apply hbuf hx.le hy.le hp]
  split_ifs with hrect
  · obtain ⟨⟨-, hp₁⟩, -, hp₂⟩ := hrect
    exact (hcleared p (by omega) (by omega)).symm
  · exact hkeeps p hp hrect

def Same (args : Args) (mem mem' : Mem) (other : ℕ) : Prop :=
  ∀ a, args.InBuffer other a → mem' a = mem a

theorem Fits.draw_same (h : args.Fits) (hb : args.Buffers buf other) {c : Color}
    (xlen ylen : ℕ) (hx : x + xlen ≤ args.info.x) (hy : y + ylen ≤ args.info.y) (mem : Mem) :
    args.Same mem (drawRect (args.info.on buf) x y xlen ylen c mem) other := by
  intro a ha
  exact h.drawRect_other (hb.le h) hx hy (hb.symm.not_mem ha)

theorem Same.addr (hs : args.Same mem mem' buf) (h : args.Fits)
    (hbuf : buf + args.bufSize ≤ 2 ^ 32) (hp : args.OnScreen p) :
    mem' ((args.info.on buf).pixelAddr p) = mem ((args.info.on buf).pixelAddr p) :=
  hs _ (h.addr_mem hbuf hp)

theorem Keeps.same {R : ℕ × ℕ → Prop} (hk : args.Keeps mem₀ mem buf R)
    (hs : args.Same mem mem' buf) (h : args.Fits) (hbuf : buf + args.bufSize ≤ 2 ^ 32) :
    args.Keeps mem₀ mem' buf R := by
  intro p hp hR
  rw [hs.addr h hbuf hp, hk p hp hR]

end Contents

section Runs

variable {mem mem₀ : Mem} {s : State} {other : ℕ}

theorem Fits.start_backBuff (h : args.Fits) (mem : Mem) :
    (args.start mem).backBuff = args.baseAddr + args.bufSize := by
  have hbuf := h.bufSize
  have hmapped := h.mapped
  have hx := h.xlen
  have hy := h.ylen
  have hpos : 0 < args.info.x * args.info.y := Nat.mul_pos (by omega) (by omega)
  rw [h.pixelSize] at hmapped
  exact u32_of_lt (by omega)

theorem Fits.clearScreen_cleared (h : args.Fits) (hbuf : buf + args.bufSize ≤ 2 ^ 32) :
    args.Cleared (clearScreen (args.info.on buf) args.backColor mem) buf := by
  intro p hp₁ hp₂
  have hp : args.OnScreen p := ⟨by omega, by omega⟩
  rw [(h.on_mapped hbuf).clearScreen_apply hp]
  exact if_pos ⟨hp₁, hp₂⟩

theorem on_baseAddr (args : Args) : args.info.on args.baseAddr = args.info := rfl

theorem start_mem (args : Args) (mem : Mem) :
    (args.start mem).mem = clearScreen (args.info.on (args.start mem).backBuff) args.backColor
      (clearScreen (args.info.on args.baseAddr) args.backColor mem) := by
  simp only [start, on_baseAddr]

theorem Fits.start_buffers (h : args.Fits) (mem : Mem) :
    args.Buffers args.baseAddr (args.start mem).backBuff :=
  .inl ⟨rfl, h.start_backBuff mem⟩

/-- Both buffers are cleared before the loop. -/
theorem Fits.start_cleared (h : args.Fits) (mem : Mem) :
    args.Cleared (args.start mem).mem args.baseAddr ∧
      args.Cleared (args.start mem).mem (args.start mem).backBuff := by
  have hb := h.start_buffers mem
  rw [start_mem]
  constructor
  · intro p hp₁ hp₂
    have hsame := h.draw_same hb.symm (x := 0) (y := 0) (c := args.backColor)
      (args.info.x - 1) (args.info.y - 1) (by omega) (by omega)
      (clearScreen (args.info.on args.baseAddr) args.backColor mem)
    rw [(h.on_mapped (hb.symm.le h)).clearScreen_eq, LdmInfo.on_x, LdmInfo.on_y,
      hsame.addr h (hb.le h) ⟨by omega, by omega⟩]
    exact h.clearScreen_cleared (hb.le h) p hp₁ hp₂
  · exact h.clearScreen_cleared (hb.symm.le h)

/-- Both buffers are cleared in `mem₀`. -/
def BothCleared (args : Args) (mem₀ : Mem) : Prop :=
  ∀ buf other, args.Buffers buf other → args.Cleared mem₀ buf

/-- The rectangle at this position, and the one behind it, are on the screen. -/
def Inside (args : Args) (x y : ℕ) : Prop :=
  x + args.xlen < args.info.x ∧ y + args.ylen < args.info.y

/-- What the buffers hold: the one that is not shown is clean, or has one rectangle. -/
def Contents (args : Args) (mem₀ : Mem) (s : State) : Prop :=
  match s.pc with
  | .draw | .advance =>
      args.Keeps mem₀ s.mem s.backBuff (fun _ => False) ∧
        args.Keeps mem₀ s.mem s.frontBuff (InRect s.xprev s.yprev args.xlen args.ylen)
  | .pan =>
      args.Shows mem₀ s.mem s.backBuff (InRect s.x s.y args.xlen args.ylen) ∧
        args.Keeps mem₀ s.mem s.frontBuff (InRect s.xprev s.yprev args.xlen args.ylen)
  | .erase =>
      args.Shows mem₀ s.mem s.frontBuff (InRect s.x s.y args.xlen args.ylen) ∧
        args.Keeps mem₀ s.mem s.backBuff (InRect s.xprev s.yprev args.xlen args.ylen)

structure Inv (args : Args) (mem₀ : Mem) (s : State) : Prop where
  buffers : args.Buffers s.frontBuff s.backBuff
  fbAddr : s.fbAddr = s.backBuff
  shown : args.shown s = s.frontBuff
  yoffset : s.yoffset = 0 ∨ s.yoffset = args.info.y
  inside : args.Inside s.x s.y
  prev : args.Inside s.xprev s.yprev
  contents : args.Contents mem₀ s

theorem Fits.start_inv (h : args.Fits) (mem : Mem) :
    args.Inv (args.start mem).mem (args.start mem) where
  buffers := h.start_buffers mem
  fbAddr := rfl
  shown := by simp [Args.shown, start, baseAddr]
  yoffset := .inl rfl
  inside := ⟨by simpa [start] using h.xlen, by simpa [start] using h.ylen⟩
  prev := ⟨by simpa [start] using h.xlen, by simpa [start] using h.ylen⟩
  contents := ⟨fun _ _ _ => rfl, fun _ _ _ => rfl⟩

theorem Fits.advance_inside (h : args.Fits) (hin : args.Inside x y) :
    args.Inside (args.advance x y).1 (args.advance x y).2 := by
  have hsize := h.size_lt
  have hxlen := h.xlen
  have hylen := h.ylen
  obtain ⟨hx, hy⟩ := hin
  have hx₁ : u32 (x + 1) = x + 1 := u32_of_lt (by omega)
  have hy₁ : u32 (y + args.ylen) = y + args.ylen := u32_of_lt (by omega)
  have hx₂ : u32 (x + 1 + args.xlen) = x + 1 + args.xlen := u32_of_lt (by omega)
  have hy₂ : u32 (y + args.ylen + args.ylen) = y + args.ylen + args.ylen :=
    u32_of_lt (by omega)
  unfold advance Inside
  simp only [hx₁, hx₂, hy₁, hy₂]
  split_ifs <;> constructor <;> simp only <;> omega

/-- `FBIOPAN_DISPLAY` shows the buffer that has been drawn. -/
theorem Fits.pan (h : args.Fits) (hb : args.Buffers buf other) :
    let yoffset := u32 (buf + 2 ^ 32 - args.baseAddr) / args.info.lineLength
    (yoffset = 0 ∨ yoffset = args.info.y) ∧
      args.baseAddr + yoffset * args.info.lineLength = buf := by
  have hsize := h.size_lt
  have hbufSize := h.bufSize
  have hpixels := h.pixels_le
  have hxlen := h.xlen
  have hline : args.info.lineLength = args.info.x * 4 := h.pixelSize ▸ h.lineLength
  have hpos : 0 < args.info.lineLength := by omega
  have hmul : args.bufSize = args.info.y * args.info.lineLength := by
    rw [hbufSize, hline, Nat.mul_comm 4, Nat.mul_comm args.info.x, Nat.mul_assoc]
  intro yoffset
  rcases hb with ⟨hbuf, -⟩ | ⟨hbuf, -⟩
  · have hzero : u32 (buf + 2 ^ 32 - args.baseAddr) = 0 := by
      rw [hbuf, Nat.add_sub_cancel_left]
      rfl
    have hy : yoffset = 0 := by
      change u32 (buf + 2 ^ 32 - args.baseAddr) / args.info.lineLength = 0
      rw [hzero, Nat.zero_div]
    exact ⟨.inl hy, by rw [hy, hbuf]; omega⟩
  · have hsub : u32 (buf + 2 ^ 32 - args.baseAddr) = args.bufSize := by
      have heq : buf + 2 ^ 32 - args.baseAddr = args.bufSize + 2 ^ 32 := by omega
      unfold u32
      rw [heq, Nat.add_mod_right, Nat.mod_eq_of_lt (by omega)]
    have hy : yoffset = args.info.y := by
      change u32 (buf + 2 ^ 32 - args.baseAddr) / args.info.lineLength = args.info.y
      rw [hsub, hmul, Nat.mul_div_cancel _ hpos]
    exact ⟨.inr hy, by rw [hy, ← hmul, hbuf]⟩

theorem Inv.step (hi : args.Inv mem₀ s) (h : args.Fits) (hclear : args.BothCleared mem₀) :
    args.Inv mem₀ (args.step s) := by
  have hb := hi.buffers
  have hback := hb.symm.le h
  have hfront := hb.le h
  have hcontents := hi.contents
  obtain ⟨hx, hy⟩ := hi.inside
  obtain ⟨hxprev, hyprev⟩ := hi.prev
  unfold Contents at hcontents
  unfold Args.step
  cases hpc : s.pc with
  | draw =>
      simp only [hpc] at hcontents
      obtain ⟨hclean, hkeeps⟩ := hcontents
      have hsame := h.draw_same hb.symm (c := args.rectColor) args.xlen args.ylen hx.le hy.le s.mem
      refine ⟨hb, hi.fbAddr, hi.shown, hi.yoffset, hi.inside, hi.prev, ?_⟩
      rw [hi.fbAddr]
      exact ⟨h.draw_shows hback hx.le hy.le hclean, hkeeps.same hsame h hfront⟩
  | pan =>
      simp only [hpc] at hcontents
      obtain ⟨hoff, hshown⟩ := h.pan hb.symm
      exact ⟨hb.symm, rfl, hshown, hoff, hi.inside, hi.prev, hcontents⟩
  | erase =>
      simp only [hpc] at hcontents
      obtain ⟨hshows, hkeeps⟩ := hcontents
      have hsame := h.draw_same hb.symm (c := args.backColor) args.xlen args.ylen hxprev.le
        hyprev.le s.mem
      refine ⟨hb, hi.fbAddr, hi.shown, hi.yoffset, hi.inside, hi.inside, ?_⟩
      rw [hi.fbAddr]
      exact ⟨h.erase_keeps hback hxprev hyprev (hclear _ _ hb.symm) hkeeps,
        hshows.keeps.same hsame h hfront⟩
  | advance =>
      simp only [hpc] at hcontents
      exact ⟨hb, hi.fbAddr, hi.shown, hi.yoffset, h.advance_inside hi.inside, hi.prev, hcontents⟩

theorem Fits.bothCleared (h : args.Fits) (mem : Mem) :
    args.BothCleared (args.start mem).mem := by
  obtain ⟨hbase, hback⟩ := h.start_cleared mem
  rw [h.start_backBuff] at hback
  rintro buf other (⟨rfl, -⟩ | ⟨rfl, -⟩)
  · exact hbase
  · exact hback

theorem Fits.reachable_inv (h : args.Fits) (hs : (args.machine mem).Reachable s) :
    args.Inv (args.start mem).mem s := by
  apply hs.invariant (h.start_inv mem)
  intro s a t hi hstep
  cases hstep
  exact hi.step h (h.bothCleared mem)

end Runs

end Args

end EmbeddedCode.DoubleBuffer
