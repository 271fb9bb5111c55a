import EmbeddedCode.I2c.Registers

/-!
# The touch screen

`ts_handler` of `26lcd_alpha_changebuff/04change_buf/ft5x06.c`, the handler of the interrupt of a
touch controller that is a slave on the I2C bus.
-/
namespace EmbeddedCode.I2c

open CInt

def ft5x06SlaveAddr : UInt8 := 0x38
def tdStatus : UInt8 := 2
def touch1Xh : UInt8 := 3

def maxPoints : ℕ := 5

def rawSize : ℕ := 6

structure TsInfo where
  numOfPt : ℕ
  /-- The bytes of `pt_raw_data`. -/
  ptRawData : ℕ → UInt8
  eventFlag : ℕ → UInt8
  x : ℕ → ℕ
  y : ℕ → ℕ

/-- The number in the first bytes, lowest byte first. -/
def littleEndian (bytes : ℕ → UInt8) : ℕ → ℕ
  | 0 => 0
  | n + 1 => (bytes 0).toNat + 256 * littleEndian (fun k => bytes (k + 1)) n

def coordinate (high low : UInt8) : ℕ := (high &&& 0xf).toNat <<< 8 ||| low.toNat

/-- A turn of the loop over the points. -/
def TsInfo.decode (info : TsInfo) (i : ℕ) : TsInfo :=
  let raw k := info.ptRawData (rawSize * i + k)
  {info with
    eventFlag := Function.update info.eventFlag i (raw 0 >>> 6)
    x := Function.update info.x i (coordinate (raw 0) (raw 1))
    y := Function.update info.y i (coordinate (raw 2) (raw 3))}

/-- The bus and the data of the handler after it, and whether it has cleared its interrupt. None
where it stores behind the end of an array. -/
def tsHandler (w : World) (info : TsInfo) : Option (World × TsInfo × Bool) := do
  let (w, numOfPt) ← w.i2cBlockRead ft5x06SlaveAddr (fun _ => 0) 4 tdStatus
  let info := {info with numOfPt := littleEndian numOfPt 4 &&& 0xf}
  if info.numOfPt = 0 then
    return (w, info, false)
  if maxPoints < info.numOfPt then none
  let (w, raw) ← w.i2cBlockRead ft5x06SlaveAddr info.ptRawData (rawSize * info.numOfPt) touch1Xh
  let info := {info with ptRawData := raw}
  return (w, (List.range info.numOfPt).foldl TsInfo.decode info, true)

theorem littleEndian_and (bytes : ℕ → UInt8) (n : ℕ) :
    littleEndian bytes (n + 1) &&& 0xf = (bytes 0).toNat % 16 := by
  rw [show 0xf = 2 ^ 4 - 1 from rfl, Nat.and_two_pow_sub_one_eq_mod, littleEndian]
  omega

theorem coordinate_eq (high low : UInt8) :
    coordinate high low = high.toNat % 16 * 256 + low.toNat := by
  have hhigh : (high &&& 0xf).toNat = high.toNat % 16 := by
    rw [UInt8.toNat_and, show (0xf : UInt8).toNat = 2 ^ 4 - 1 from rfl,
      Nat.and_two_pow_sub_one_eq_mod]
  rw [coordinate, hhigh, ← Nat.shiftLeft_add_eq_or_of_lt low.toNat_lt, Nat.shiftLeft_eq]

/-- The event flag and the coordinates of a point. -/
def TsInfo.point (info : TsInfo) (i : ℕ) : UInt8 × ℕ × ℕ := (info.eventFlag i, info.x i, info.y i)

/-- The point that the registers of the controller give, from those of the point on. -/
def pointAt (reg : ℕ → UInt8) : UInt8 × ℕ × ℕ :=
  (reg 0 >>> 6, (reg 0).toNat % 16 * 256 + (reg 1).toNat, (reg 2).toNat % 16 * 256 + (reg 3).toNat)

theorem pointAt_congr {f g : ℕ → UInt8} (h : ∀ k < rawSize, f k = g k) : pointAt f = pointAt g := by
  unfold pointAt
  rw [h 0 (by decide), h 1 (by decide), h 2 (by decide), h 3 (by decide)]

theorem TsInfo.decode_point (info : TsInfo) (n i : ℕ) : (info.decode n).point i =
    if i = n then pointAt fun k => info.ptRawData (rawSize * n + k) else info.point i := by
  by_cases hi : i = n
  · simp [hi, decode, point, pointAt, coordinate_eq]
  · simp [hi, decode, point]

/-- The loop fills the elements of the points and leaves the others. -/
theorem foldl_decode (info : TsInfo) (n : ℕ) :
    ((List.range n).foldl TsInfo.decode info).numOfPt = info.numOfPt ∧
      ((List.range n).foldl TsInfo.decode info).ptRawData = info.ptRawData ∧
      ∀ i, ((List.range n).foldl TsInfo.decode info).point i =
        if i < n then pointAt fun k => info.ptRawData (rawSize * i + k) else info.point i := by
  induction n with
  | zero => exact ⟨rfl, rfl, fun i => rfl⟩
  | succ n ih =>
      obtain ⟨hnum, hraw, hpoint⟩ := ih
      rw [List.range_succ, List.foldl_append, List.foldl_cons, List.foldl_nil]
      refine ⟨hnum, hraw, fun i => ?_⟩
      rw [TsInfo.decode_point, hraw, hpoint]
      rcases Nat.lt_trichotomy i n with hlt | rfl | hgt
      · rw [if_neg (by omega), if_pos hlt, if_pos (by omega)]
      · rw [if_pos rfl, if_pos (by omega)]
      · rw [if_neg (by omega), if_neg (by omega), if_neg (by omega)]

/-- The number of points that the controller reports. -/
def reported (f : Registers) : ℕ := (f.get ft5x06SlaveAddr tdStatus).toNat % 16

theorem read_count (w : World) : ∃ w' num,
    w.i2cBlockRead ft5x06SlaveAddr (fun _ => 0) 4 tdStatus = some (w', num) ∧
      w'.registers = w.registers ∧ littleEndian num 4 &&& 0xf = reported w.registers := by
  have hfour : 4 < 2 ^ 32 := by decide
  obtain ⟨w', num, hread, hregs, hnum⟩ :=
    w.i2cBlockRead_spec ft5x06SlaveAddr (fun _ => 0) (Nat.succ_pos 3) hfour tdStatus
  refine ⟨w', num, hread, hregs, ?_⟩
  have hfirst : num 0 = Registers.get w.registers (wireAddr ft5x06SlaveAddr) (tdStatus + 0) :=
    (hnum 0).trans (if_pos (Nat.succ_pos 3))
  rw [littleEndian_and, hfirst, UInt8.add_zero]
  rfl

/-- The second read, with the loop behind it. -/
theorem read_points (w : World) (info : TsInfo) {n : ℕ} (hpos : 0 < n) (hn : n ≤ maxPoints) :
    ∃ w' raw, w.i2cBlockRead ft5x06SlaveAddr info.ptRawData (rawSize * n) touch1Xh =
        some (w', raw) ∧ w'.registers = w.registers ∧
      ∀ i, ((List.range n).foldl TsInfo.decode {info with ptRawData := raw}).point i =
        if i < n then pointAt fun k => Registers.get w.registers ft5x06SlaveAddr
          (touch1Xh + UInt8.ofNat (rawSize * i + k)) else info.point i := by
  have hsize : rawSize * n < 2 ^ 32 := by
    simp only [rawSize, maxPoints] at *
    omega
  have hpos' : 0 < rawSize * n := Nat.mul_pos (by decide) hpos
  obtain ⟨w', raw, hread, hregs, hraw⟩ :=
    w.i2cBlockRead_spec ft5x06SlaveAddr info.ptRawData hpos' hsize touch1Xh
  refine ⟨w', raw, hread, hregs, fun i => ?_⟩
  rw [(foldl_decode {info with ptRawData := raw} n).2.2 i]
  by_cases hi : i < n
  · rw [if_pos hi, if_pos hi]
    apply pointAt_congr
    intro k hk
    have hin : rawSize * i + k < rawSize * n :=
      calc rawSize * i + k < rawSize * i + rawSize := Nat.add_lt_add_left hk _
        _ = rawSize * (i + 1) := (Nat.mul_succ _ _).symm
        _ ≤ rawSize * n := Nat.mul_le_mul_left _ hi
    exact (hraw _).trans (if_pos hin)
  · rw [if_neg hi, if_neg hi]
    rfl

/-- The handler leaves its arrays exactly if the controller reports more than five points.
Otherwise it has the points as the registers give them and the other elements as they were, and
it clears its interrupt only if there is a point. -/
theorem tsHandler_cases (w : World) (info : TsInfo) :
    (tsHandler w info = none ↔ maxPoints < reported w.registers) ∧
      (reported w.registers ≤ maxPoints → ∃ w' info',
        tsHandler w info = some (w', info', decide (reported w.registers ≠ 0)) ∧
        w'.registers = w.registers ∧ info'.numOfPt = reported w.registers ∧
        ∀ i, info'.point i = if i < reported w.registers then
          pointAt fun k => Registers.get w.registers ft5x06SlaveAddr
            (touch1Xh + UInt8.ofNat (rawSize * i + k)) else info.point i) := by
  obtain ⟨w₁, num, hread, hregs, hcount⟩ := read_count w
  unfold tsHandler
  simp only [hread, hcount, Option.bind_eq_bind, Option.bind_some]
  rw [← hregs]
  generalize reported w₁.registers = n
  by_cases hzero : n = 0
  · subst hzero
    exact ⟨by simp, fun _ => ⟨w₁, {info with numOfPt := 0}, rfl, rfl, rfl, fun i => rfl⟩⟩
  · by_cases hmany : maxPoints < n
    · simp [hzero, hmany]
    · obtain ⟨w₂, raw, hread', hregs', hpoint⟩ := read_points w₁ {info with numOfPt := n}
        (Nat.pos_of_ne_zero hzero) (Nat.le_of_not_lt hmany)
      simp only [hzero, hmany, if_false, hread', Option.bind_some, Option.pure_def,
        reduceCtorEq, iff_self, true_and, ne_eq, not_false_eq_true, decide_true]
      exact fun _ => ⟨w₂, _, rfl, hregs', (foldl_decode _ n).1, hpoint⟩

/-- A controller with two points, of which the second one is still held. -/
def touched : World where
  bus := atRest
  slaves addr := if addr = ft5x06SlaveAddr then
    some ⟨fun r => [0, 0, 2, 0x01, 0x20, 0x10, 0x11, 0, 0, 0x83, 0x1f, 0x01, 0xdf].getD r.toNat 0,
      0, false⟩ else none
  target := 0

theorem tsHandler_cases_two : ∃ w' info',
    tsHandler touched ⟨0, fun _ => 0, fun _ => 0, fun _ => 0, fun _ => 0⟩ = some (w', info', true) ∧
      info'.point 0 = (0, 288, 17) ∧ info'.point 1 = (2, 799, 479) ∧ info'.point 2 = (0, 0, 0) := by
  obtain ⟨w', info', hrun, -, -, hpoint⟩ :=
    (tsHandler_cases touched ⟨0, fun _ => 0, fun _ => 0, fun _ => 0, fun _ => 0⟩).2 (by decide)
  exact ⟨w', info', hrun, (hpoint 0).trans (by decide), (hpoint 1).trans (by decide),
    (hpoint 2).trans (by decide)⟩

end EmbeddedCode.I2c
