import EmbeddedCode.I2c.Read

/-!
# Register files behind the bus

`i2c_write`, `i2c_block_write` and `i2c_block_read` of `26lcd_alpha_changebuff/04change_buf/i2c.c`
on a bus with any slaves that are register files: the first byte after the address is the number
of a register, the bytes after it go to that register and the following ones, and a read starts
where the last transfer has stopped.
-/
namespace EmbeddedCode.I2c

open CInt

structure Slave where
  regs : UInt8 → UInt8
  /-- The register that the next byte goes to or comes from. -/
  ptr : UInt8
  /-- The next byte is the number of a register. -/
  fresh : Bool

namespace Slave

def select (s : Slave) : Slave := {s with fresh := true}

def receive (s : Slave) (byte : UInt8) : Slave :=
  if s.fresh then {s with ptr := byte, fresh := false}
  else {s with regs := Function.update s.regs s.ptr byte, ptr := s.ptr + 1}

/-- The slave after `n` bytes have been clocked out of it. -/
def sent (s : Slave) (n : ℕ) : Slave := {s with ptr := s.ptr + UInt8.ofNat n, fresh := false}

end Slave

/-- The controller and the slaves by their addresses of seven bits. -/
structure World where
  bus : Bus
  slaves : UInt8 → Option Slave
  /-- The slave that the last start has addressed. -/
  target : UInt8

def Bus.masterTxStart (bus : Bus) : Bus := {bus with phase := .address, clocked := []}

def Bus.masterTxStop (bus : Bus) : Bus := {bus with phase := .stopped}

namespace World

variable (w : World)

def mapTarget (f : Slave → Slave) : World :=
  {w with slaves := Function.update w.slaves w.target ((w.slaves w.target).map f)}

/-- The controller sends what is in `I2CDS` and waits again, whether it is answered or not. -/
def waitIntTx : Option World :=
  if w.bus.pending then some w
  else
    match w.bus.phase with
    | .address =>
        some (({w with
          bus := {w.bus with pending := true, phase := .data}
          target := w.bus.ds >>> 1} : World).mapTarget Slave.select)
    | .data =>
        some (({w with bus := {w.bus with pending := true}} : World).mapTarget
          fun s => s.receive w.bus.ds)
    | .idle | .stopped => none

def writeByte (byte : UInt8) : Option World :=
  ({w with bus := (w.bus.writeDs byte).clrInt} : World).waitIntTx

/-- `I2CDS(n) = slave_addr << 1` and the start of a transmission. -/
def startTx (slaveAddr : UInt8) : Option World :=
  ({w with bus := (w.bus.writeDs (slaveAddr <<< 1)).masterTxStart.clrInt} : World).waitIntTx

def stopTx : World := {w with bus := w.bus.masterTxStop.clrInt}

def i2cWrite (slaveAddr : UInt8) (data : List UInt8) : Option World := do
  let w ← w.startTx slaveAddr
  let w ← data.foldlM writeByte w
  return w.stopTx

def i2cBlockWrite (slaveAddr : UInt8) (data : List UInt8) (dataAddr : UInt8) : Option World := do
  let w ← w.startTx slaveAddr
  let w ← w.writeByte dataAddr
  let w ← data.foldlM writeByte w
  return w.stopTx

/-- The bytes that the slave at `addr` has for a read; with no slave there the line stays high. -/
def stream (addr : UInt8) (k : ℕ) : UInt8 :=
  match w.slaves addr with
  | some s => s.regs (s.ptr + UInt8.ofNat k)
  | none => 0xff

def i2cReadFrom (slaveAddr : UInt8) (buf : ℕ → UInt8) (size : ℕ) :
    Option (World × (ℕ → UInt8)) := do
  let target := (slaveAddr <<< 1) >>> 1
  let r ← i2cRead (w.stream target) w.bus slaveAddr buf size
  return (({w with bus := r.bus, target := target} : World).mapTarget
    (Slave.sent · r.bus.clocked.length), r.buf)

def i2cBlockRead (slaveAddr : UInt8) (buf : ℕ → UInt8) (size : ℕ) (dataAddr : UInt8) :
    Option (World × (ℕ → UInt8)) := do
  let w ← w.i2cWrite slaveAddr [dataAddr]
  w.i2cReadFrom slaveAddr buf size

end World

/-- The address that is on the wire: the upper bit is shifted out. -/
def wireAddr (slaveAddr : UInt8) : UInt8 := (slaveAddr <<< 1) >>> 1

/-- The registers with `data` stored from `addr` on. -/
def store (regs : UInt8 → UInt8) (addr : UInt8) : List UInt8 → UInt8 → UInt8
  | [] => regs
  | byte :: data => store (Function.update regs addr byte) (addr + 1) data

namespace Slave

theorem foldl_receive (data : List UInt8) (s : Slave) (h : s.fresh = false) :
    (data.foldl receive s).regs = store s.regs s.ptr data ∧
      (data.foldl receive s).fresh = false := by
  induction data generalizing s with
  | nil => exact ⟨rfl, h⟩
  | cons byte data ih =>
      have hstep : s.receive byte =
          {s with regs := Function.update s.regs s.ptr byte, ptr := s.ptr + 1} := by
        simp [receive, h]
      rw [List.foldl_cons, hstep]
      exact ih _ h

theorem foldl_receive_select (data : List UInt8) (s : Slave) (addr : UInt8) :
    ((addr :: data).foldl receive s.select).regs = store s.regs addr data :=
  (foldl_receive data {s with ptr := addr, fresh := false} rfl).1

end Slave

namespace World

variable {w : World}

/-- The controller waits for the next byte of a transmission. -/
structure Sending (w : World) : Prop where
  pending : w.bus.pending = true
  phase : w.bus.phase = .data

theorem startTx_eq (w : World) (slaveAddr : UInt8) : ∃ w', w.startTx slaveAddr = some w' ∧
    w'.Sending ∧ w'.target = wireAddr slaveAddr ∧
    w'.slaves = Function.update w.slaves (wireAddr slaveAddr)
      ((w.slaves (wireAddr slaveAddr)).map Slave.select) :=
  ⟨_, rfl, ⟨rfl, rfl⟩, rfl, rfl⟩

theorem Sending.writeByte (h : w.Sending) (byte : UInt8) : ∃ w', w.writeByte byte = some w' ∧
    w'.Sending ∧ w'.target = w.target ∧
    w'.slaves = Function.update w.slaves w.target
      ((w.slaves w.target).map fun s => s.receive byte) := by
  obtain ⟨⟨ack, pending, ds, phase, clocked⟩, slaves, target⟩ := w
  obtain ⟨hpending, hphase⟩ := h
  cases hpending
  cases hphase
  exact ⟨_, rfl, ⟨rfl, rfl⟩, rfl, rfl⟩

theorem Sending.foldlM (h : w.Sending) (data : List UInt8) :
    ∃ w', data.foldlM World.writeByte w = some w' ∧ w'.Sending ∧
      w'.slaves = Function.update w.slaves w.target
        ((w.slaves w.target).map fun s => data.foldl Slave.receive s) := by
  induction data generalizing w with
  | nil => exact ⟨w, rfl, h, by simp⟩
  | cons byte data ih =>
      obtain ⟨w', hw, hsending, htarget, hslaves⟩ := h.writeByte byte
      obtain ⟨w'', hw', hsending', hslaves'⟩ := ih hsending
      refine ⟨w'', ?_, hsending', ?_⟩
      · simp [List.foldlM_cons, hw, hw']
      · rw [hslaves', htarget, hslaves]
        simp [Function.comp_def]

theorem i2cWrite_eq (w : World) (slaveAddr : UInt8) (data : List UInt8) :
    ∃ w', w.i2cWrite slaveAddr data = some w' ∧
      w'.slaves = Function.update w.slaves (wireAddr slaveAddr)
        ((w.slaves (wireAddr slaveAddr)).map fun s => data.foldl Slave.receive s.select) := by
  obtain ⟨w₁, hstart, hsending, htarget, hslaves⟩ := w.startTx_eq slaveAddr
  obtain ⟨w₂, hloop, -, hslaves'⟩ := hsending.foldlM data
  refine ⟨w₂.stopTx, ?_, ?_⟩
  · simp [i2cWrite, hstart, hloop]
  · have hstop : w₂.stopTx.slaves = w₂.slaves := rfl
    rw [hstop, hslaves', htarget, hslaves]
    simp [Function.comp_def]

theorem i2cBlockWrite_eq (w : World) (slaveAddr : UInt8) (data : List UInt8) (dataAddr : UInt8) :
    w.i2cBlockWrite slaveAddr data dataAddr = w.i2cWrite slaveAddr (dataAddr :: data) := by
  simp [i2cBlockWrite, i2cWrite, List.foldlM_cons, Option.bind_assoc]

/-- The register files, which is what the callers know of the slaves. -/
def registers (w : World) (addr : UInt8) : Option (UInt8 → UInt8) := (w.slaves addr).map Slave.regs

end World

abbrev Registers := UInt8 → Option (UInt8 → UInt8)

/-- What a read of the register `reg` gives. -/
def Registers.get (f : Registers) (addr reg : UInt8) : UInt8 :=
  match f addr with
  | some regs => regs reg
  | none => 0xff

def Registers.set (f : Registers) (addr reg : UInt8) (data : List UInt8) : Registers :=
  Function.update f addr ((f addr).map fun regs => store regs reg data)

namespace World

theorem i2cBlockWrite_spec (w : World) (slaveAddr : UInt8) (data : List UInt8)
    (dataAddr : UInt8) : ∃ w', w.i2cBlockWrite slaveAddr data dataAddr = some w' ∧
      w'.registers = Registers.set w.registers (wireAddr slaveAddr) dataAddr data := by
  obtain ⟨w', hw, hslaves⟩ := w.i2cWrite_eq slaveAddr (dataAddr :: data)
  refine ⟨w', (w.i2cBlockWrite_eq slaveAddr data dataAddr).trans hw, ?_⟩
  funext addr
  unfold registers Registers.set
  rw [hslaves]
  by_cases haddr : addr = wireAddr slaveAddr
  · subst haddr
    rw [Function.update_self, Function.update_self]
    rw [Option.map_map, Option.map_map]
    congr 1
    funext s
    exact Slave.foldl_receive_select data s dataAddr
  · rw [Function.update_of_ne haddr, Function.update_of_ne haddr]

theorem i2cReadFrom_eq (w : World) (slaveAddr : UInt8) (buf : ℕ → UInt8) {size : ℕ}
    (hpos : 0 < size) (hsize : size < 2 ^ 32) :
    ∃ w', w.i2cReadFrom slaveAddr buf size =
        some (w', fun i => if i < size then w.stream (wireAddr slaveAddr) i else buf i) ∧
      w'.slaves = Function.update w.slaves (wireAddr slaveAddr)
        ((w.slaves (wireAddr slaveAddr)).map (Slave.sent · (size + 1))) := by
  have hread (stream : ℕ → UInt8) : i2cRead stream w.bus slaveAddr buf size = some
      ⟨⟨decide (size + 1 < size), false, stream size, .stopped, transfer stream size (size + 1)⟩,
        fun i => if i < size then stream i else buf i⟩ := i2cRead_eq w.bus slaveAddr hpos hsize
  unfold i2cReadFrom
  rw [show ((slaveAddr <<< 1) >>> 1 : UInt8) = wireAddr slaveAddr from rfl]
  simp only [hread, Option.bind_eq_bind, Option.bind_some, Option.pure_def, transfer_length]
  exact ⟨_, rfl, rfl⟩

theorem i2cBlockRead_spec (w : World) (slaveAddr : UInt8) (buf : ℕ → UInt8) {size : ℕ}
    (hpos : 0 < size) (hsize : size < 2 ^ 32) (dataAddr : UInt8) :
    ∃ w' buf', w.i2cBlockRead slaveAddr buf size dataAddr = some (w', buf') ∧
      w'.registers = w.registers ∧
      ∀ i, buf' i = if i < size then
        Registers.get w.registers (wireAddr slaveAddr) (dataAddr + UInt8.ofNat i) else buf i := by
  obtain ⟨w₁, hw, hslaves⟩ := w.i2cWrite_eq slaveAddr [dataAddr]
  obtain ⟨w₂, hread, hslaves'⟩ := w₁.i2cReadFrom_eq slaveAddr buf hpos hsize
  refine ⟨w₂, fun i => if i < size then w₁.stream (wireAddr slaveAddr) i else buf i, ?_, ?_,
    fun i => ?_⟩
  · simp only [i2cBlockRead, hw, hread, Option.bind_eq_bind, Option.bind_some]
  · funext addr
    unfold registers
    rw [hslaves', hslaves]
    by_cases haddr : addr = wireAddr slaveAddr
    · subst haddr
      simp only [Function.update_self, Option.map_map]
      rfl
    · rw [Function.update_of_ne haddr, Function.update_of_ne haddr]
  · have hstream : w₁.stream (wireAddr slaveAddr) i =
        Registers.get w.registers (wireAddr slaveAddr) (dataAddr + UInt8.ofNat i) := by
      unfold stream Registers.get registers
      rw [hslaves, Function.update_self]
      cases w.slaves (wireAddr slaveAddr) <;> rfl
    exact if_congr Iff.rfl hstream rfl

end World

/-- A transfer that a driver asks for. -/
inductive Op where
  | write (slaveAddr : UInt8) (data : List UInt8) (dataAddr : UInt8)
  | read (slaveAddr : UInt8) (size : ℕ) (dataAddr : UInt8)
  deriving Repr

namespace Op

/-- The sizes are those of `size_t`, and a read asks for at least one byte. -/
def Ok : Op → Prop
  | .write _ data _ => data.length < 2 ^ 32
  | .read _ size _ => 0 < size ∧ size < 2 ^ 32

def exec (w : World) : Op → Option (World × List UInt8)
  | .write slaveAddr data dataAddr =>
      (w.i2cBlockWrite slaveAddr data dataAddr).map fun w => (w, [])
  | .read slaveAddr size dataAddr =>
      (w.i2cBlockRead slaveAddr (fun _ => 0) size dataAddr).map fun (w, buf) =>
        (w, (List.range size).map buf)

/-- The transfer as an access to the register files. -/
def access (f : Registers) : Op → Registers × List UInt8
  | .write slaveAddr data dataAddr => (f.set (wireAddr slaveAddr) dataAddr data, [])
  | .read slaveAddr size dataAddr =>
      (f, (List.range size).map fun i => f.get (wireAddr slaveAddr) (dataAddr + UInt8.ofNat i))

theorem exec_eq_access (w : World) {op : Op} (h : op.Ok) :
    ∃ w', op.exec w = some (w', (op.access w.registers).2) ∧
      w'.registers = (op.access w.registers).1 := by
  cases op with
  | write slaveAddr data dataAddr =>
      obtain ⟨w', hw, hregs⟩ := w.i2cBlockWrite_spec slaveAddr data dataAddr
      exact ⟨w', by simp [exec, hw, access], hregs⟩
  | read slaveAddr size dataAddr =>
      obtain ⟨w', buf, hw, hregs, hbuf⟩ :=
        w.i2cBlockRead_spec slaveAddr (fun _ => 0) h.1 h.2 dataAddr
      refine ⟨w', ?_, hregs⟩
      simp only [exec, hw, Option.map_some, access, Option.some.injEq, Prod.mk.injEq, true_and]
      apply List.map_congr_left
      intro i hi
      rw [hbuf, if_pos (List.mem_range.mp hi)]

end Op

def transfers (w : World) : List Op → Option (World × List (List UInt8))
  | [] => some (w, [])
  | op :: ops => do
      let (w, bytes) ← op.exec w
      let (w, rest) ← transfers w ops
      return (w, bytes :: rest)

def accesses (f : Registers) : List Op → Registers × List (List UInt8)
  | [] => (f, [])
  | op :: ops =>
      let (f, bytes) := op.access f
      let (f, rest) := accesses f ops
      (f, bytes :: rest)

/-- Any sequence of block transfers to any slaves never hangs, although every read clocks a byte
too many: it reads and leaves what the same accesses to register files read and leave. -/
theorem transfers_eq_accesses (w : World) (ops : List Op) (h : ∀ op ∈ ops, op.Ok) :
    ∃ w', transfers w ops = some (w', (accesses w.registers ops).2) ∧
      w'.registers = (accesses w.registers ops).1 := by
  induction ops generalizing w with
  | nil => exact ⟨w, rfl, rfl⟩
  | cons op ops ih =>
      rw [List.forall_mem_cons] at h
      obtain ⟨w₁, hop, hregs⟩ := op.exec_eq_access w h.1
      obtain ⟨w₂, hops, hregs'⟩ := ih w₁ h.2
      rw [hregs] at hops hregs'
      refine ⟨w₂, ?_, hregs'⟩
      simp [transfers, accesses, hop, hops]

/-- Two registers of one slave are written and read again, the first of them twice. -/
theorem transfers_eq_accesses_two :
    ∃ w', transfers ⟨atRest, fun a => if a = 0x38 then some ⟨fun _ => 0, 7, false⟩ else none, 0⟩
        [.write 0x38 [1, 2] 0x10, .read 0x38 1 0x10, .read 0xb8 2 0x10, .read 0x39 1 0] =
      some (w', [[], [1], [1, 2], [0xff]]) := by
  obtain ⟨w', hw, -⟩ := transfers_eq_accesses
    ⟨atRest, fun a => if a = 0x38 then some ⟨fun _ => 0, 7, false⟩ else none, 0⟩
    [.write 0x38 [1, 2] 0x10, .read 0x38 1 0x10, .read 0xb8 2 0x10, .read 0x39 1 0]
    (by simp [Op.Ok])
  exact ⟨w', hw.trans (congrArg some (congrArg (Prod.mk w') (by decide)))⟩

end EmbeddedCode.I2c
