import EmbeddedCode.DoubleBuffer.Model
import Mathlib.Algebra.Order.Ring.Nat

/-!
# What is painted

`draw_rect` paints its rectangle in the frame at `info.fbAddr` and nothing else. `clear_screen`
takes the last row and the last column for the extent of the screen, so it leaves them out.
-/
namespace EmbeddedCode.DoubleBuffer

open CInt Writes

def InRect (x y xlen ylen : ℕ) (p : ℕ × ℕ) : Prop :=
  (x ≤ p.1 ∧ p.1 < x + xlen) ∧ y ≤ p.2 ∧ p.2 < y + ylen

instance (x y xlen ylen : ℕ) : DecidablePred (InRect x y xlen ylen) :=
  fun _ => inferInstanceAs (Decidable (_ ∧ _))

theorem index_lt {w h : ℕ} {p : ℕ × ℕ} (hx : p.1 < w) (hy : p.2 < h) :
    p.2 * w + p.1 < w * h :=
  calc p.2 * w + p.1 < p.2 * w + w := by omega
    _ = w * (p.2 + 1) := by rw [Nat.mul_comm, Nat.mul_succ]
    _ ≤ w * h := Nat.mul_le_mul_left w hy

theorem index_inj {w : ℕ} {p q : ℕ × ℕ} (hp : p.1 < w) (hq : q.1 < w)
    (h : p.2 * w + p.1 = q.2 * w + q.1) : p = q := by
  have hw : 0 < w := by omega
  have hdiv := congrArg (· / w) h
  have hmod := congrArg (· % w) h
  simp only [Nat.mul_comm _ w, Nat.mul_add_div hw, Nat.mul_add_mod, Nat.div_eq_of_lt hp,
    Nat.div_eq_of_lt hq, Nat.mod_eq_of_lt hp, Nat.mod_eq_of_lt hq, Nat.add_zero] at hdiv hmod
  exact Prod.ext hmod hdiv

theorem u32_pred {n : ℕ} (hpos : 0 < n) (hlt : n < 2 ^ 32) : u32 (n + 2 ^ 32 - 1) = n - 1 := by
  have heq : n + 2 ^ 32 - 1 = n - 1 + 2 ^ 32 := by omega
  unfold u32
  rw [heq, Nat.add_mod_right, Nat.mod_eq_of_lt (by omega)]

theorem mem_rectPixels {x y xlen ylen : ℕ} {p : ℕ × ℕ} (hx : x + xlen < 2 ^ 32)
    (hy : y + ylen < 2 ^ 32) : p ∈ rectPixels x y xlen ylen ↔ InRect x y xlen ylen p := by
  simp only [InRect, rectPixels, List.mem_flatMap, List.mem_map, List.mem_range]
  constructor
  · rintro ⟨iy, hiy, ix, hix, rfl⟩
    rw [u32_of_lt (by omega), u32_of_lt (by omega)]
    omega
  · rintro ⟨⟨hx₁, hx₂⟩, hy₁, hy₂⟩
    refine ⟨p.2 - y, by omega, p.1 - x, by omega, ?_⟩
    rw [Nat.add_sub_cancel' hx₁, Nat.add_sub_cancel' hy₁, u32_of_lt (by omega),
      u32_of_lt (by omega)]

theorem drawRect_eq (info : LdmInfo) (x y xlen ylen : ℕ) (c : Color) (mem : Mem) :
    drawRect info x y xlen ylen c mem =
      writes info.pixelAddr (fun _ => info.var.pixel c) (rectPixels x y xlen ylen) mem := rfl

namespace LdmInfo

theorem on_fbAddr (info : LdmInfo) (buf : ℕ) : (info.on buf).fbAddr = buf := rfl

variable {info : LdmInfo} {x y xlen ylen a : ℕ} {p q : ℕ × ℕ} {c : Color} {mem : Mem}

def OnScreen (info : LdmInfo) (p : ℕ × ℕ) : Prop := p.1 < info.x ∧ p.2 < info.y

/-- The frame has a pixel, and fits into the memory. -/
structure Mapped (info : LdmInfo) : Prop where
  x_pos : 0 < info.x
  y_pos : 0 < info.y
  mapped : info.fbAddr + 4 * (info.x * info.y) ≤ 2 ^ 32

namespace Mapped

theorem size_le (h : info.Mapped) : 4 * info.x ≤ 2 ^ 32 ∧ 4 * info.y ≤ 2 ^ 32 := by
  have hmapped := h.mapped
  have hx : info.x ≤ info.x * info.y := Nat.le_mul_of_pos_right _ h.y_pos
  have hy : info.y ≤ info.x * info.y := Nat.le_mul_of_pos_left _ h.x_pos
  omega

theorem pixelAddr_eq (h : info.Mapped) (hp : info.OnScreen p) :
    info.pixelAddr p = info.fbAddr + 4 * (p.2 * info.x + p.1) := by
  have hmapped := h.mapped
  have hindex := index_lt hp.1 hp.2
  have hin : u32 (p.2 * info.x + p.1) = p.2 * info.x + p.1 := u32_of_lt (by omega)
  unfold pixelAddr
  rw [hin, u32_of_lt (by omega)]

theorem pixelAddr_inj (h : info.Mapped) (hp : info.OnScreen p) (hq : info.OnScreen q)
    (heq : info.pixelAddr p = info.pixelAddr q) : p = q := by
  rw [h.pixelAddr_eq hp, h.pixelAddr_eq hq] at heq
  exact index_inj hp.1 hq.1 (by omega)

/-- The rectangle is on the screen. -/
theorem mem_rectPixels (h : info.Mapped) (hx : x + xlen ≤ info.x) (hy : y + ylen ≤ info.y) :
    p ∈ rectPixels x y xlen ylen ↔ InRect x y xlen ylen p := by
  have hsize := h.size_le
  exact DoubleBuffer.mem_rectPixels (by omega) (by omega)

theorem onScreen (h : info.Mapped) (hx : x + xlen ≤ info.x) (hy : y + ylen ≤ info.y)
    (hp : p ∈ rectPixels x y xlen ylen) : info.OnScreen p := by
  rw [h.mem_rectPixels hx hy] at hp
  unfold InRect at hp
  constructor <;> omega

theorem drawRect_apply (h : info.Mapped) (hx : x + xlen ≤ info.x) (hy : y + ylen ≤ info.y)
    (hp : info.OnScreen p) :
    drawRect info x y xlen ylen c mem (info.pixelAddr p) =
      if InRect x y xlen ylen p then info.var.pixel c else mem (info.pixelAddr p) := by
  rw [drawRect_eq]
  split_ifs with hrect
  · exact writes_of_mem ((h.mem_rectPixels hx hy).mpr hrect) (fun _ _ _ => rfl) mem
  · apply writes_of_forall_ne
    intro q hq heq
    rw [h.pixelAddr_inj (h.onScreen hx hy hq) hp heq] at hq
    exact hrect ((h.mem_rectPixels hx hy).mp hq)

/-- What is no pixel of the screen keeps its value. -/
theorem drawRect_other (h : info.Mapped) (hx : x + xlen ≤ info.x) (hy : y + ylen ≤ info.y)
    (ha : ∀ p, info.OnScreen p → info.pixelAddr p ≠ a) :
    drawRect info x y xlen ylen c mem a = mem a := by
  rw [drawRect_eq]
  exact writes_of_forall_ne (fun p hp => ha p (h.onScreen hx hy hp)) mem

theorem clearScreen_eq (h : info.Mapped) (c : Color) (mem : Mem) :
    clearScreen info c mem = drawRect info 0 0 (info.x - 1) (info.y - 1) c mem := by
  have hsize := h.size_le
  unfold clearScreen
  rw [u32_pred h.x_pos (by omega), u32_pred h.y_pos (by omega)]

theorem clearScreen_apply (h : info.Mapped) (hp : info.OnScreen p) :
    clearScreen info c mem (info.pixelAddr p) =
      if p.1 < info.x - 1 ∧ p.2 < info.y - 1 then info.var.pixel c
      else mem (info.pixelAddr p) := by
  rw [h.clearScreen_eq, h.drawRect_apply (by omega) (by omega) hp]
  simp [InRect]

end Mapped

end LdmInfo

open LdmInfo

/-- `draw_rect` paints exactly the rectangle. `clear_screen` clears the screen exactly when the
last row and the last column have the colour before. -/
theorem painted_area (info : LdmInfo) (h : info.Mapped) (color : Color) (mem : Mem) :
    (∀ x y xlen ylen, x + xlen ≤ info.x → y + ylen ≤ info.y →
      (∀ p, info.OnScreen p → drawRect info x y xlen ylen color mem (info.pixelAddr p) =
        if InRect x y xlen ylen p then info.var.pixel color else mem (info.pixelAddr p)) ∧
      ∀ a, (∀ p, info.OnScreen p → info.pixelAddr p ≠ a) →
        drawRect info x y xlen ylen color mem a = mem a) ∧
    ((∀ p, info.OnScreen p →
        clearScreen info color mem (info.pixelAddr p) = info.var.pixel color) ↔
      ∀ p, info.OnScreen p → p.1 = info.x - 1 ∨ p.2 = info.y - 1 →
        mem (info.pixelAddr p) = info.var.pixel color) := by
  refine ⟨fun x y xlen ylen hx hy => ⟨fun p hp => h.drawRect_apply hx hy hp,
    fun a ha => h.drawRect_other hx hy ha⟩, ?_⟩
  constructor
  · intro hcleared p hp hlast
    have hkept := hcleared p hp
    have hout : ¬ (p.1 < info.x - 1 ∧ p.2 < info.y - 1) := by omega
    rwa [h.clearScreen_apply hp, if_neg hout] at hkept
  · intro hlast p hp
    rw [h.clearScreen_apply hp]
    split_ifs with hinner
    · rfl
    · have hx := hp.1
      have hy := hp.2
      exact hlast p hp (by omega)

/-- A screen of one row with two pixels. -/
def row : LdmInfo := ⟨8, ⟨16, 8, 0⟩, 2, 1, 4, 0x10000⟩

theorem row_mapped : row.Mapped := by
  constructor <;> decide

theorem painted_area_row :
    drawRect row 1 0 1 1 0xff (fun _ => 0) (row.pixelAddr (0, 0)) = 0 := by
  have hpainted := (painted_area row row_mapped 0xff fun _ => 0).1 1 0 1 1 (by decide) (by decide)
  exact hpainted.1 (0, 0) (by constructor <;> decide)

/-- A cleared screen of one row keeps all its pixels. -/
theorem clearScreen_row : row.Mapped ∧ row.OnScreen (0, 0) ∧
    clearScreen row 0xff (fun _ => 0) (row.pixelAddr (0, 0)) ≠ row.var.pixel 0xff :=
  ⟨row_mapped, by constructor <;> decide, by decide⟩

end EmbeddedCode.DoubleBuffer
