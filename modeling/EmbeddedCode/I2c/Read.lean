import EmbeddedCode.Library.CInt
import Mathlib.Logic.Function.Basic
import Mathlib.Tactic.SplitIfs
import Mathlib.Tactic.TypeStar

/-!
# Reading from an I2C bus

`i2c_read` of `26lcd_alpha_changebuff/04change_buf/i2c.c` with the controller it waits for.
-/
namespace EmbeddedCode.I2c

open CInt

/-- What the controller does when it goes on. -/
inductive Phase where
  | idle
  /-- The address of the slave is on its way. -/
  | address
  /-- Data bytes come from the slave. -/
  | data
  | stopped
  deriving DecidableEq, Repr

/-- The registers of the controller, and what has happened on the bus since the last start. -/
structure Bus where
  /-- Bit 7 of `I2CCON`: data bytes are answered with ACK. -/
  ack : Bool
  /-- Bit 4 of `I2CCON`: the controller waits. -/
  pending : Bool
  ds : UInt8
  phase : Phase
  /-- The data bytes, and whether they were answered with ACK. -/
  clocked : List (UInt8 × Bool)

namespace Bus

variable (bus : Bus)

def ackOn : Bus := {bus with ack := true}

def ackOff : Bus := {bus with ack := false}

def clrInt : Bus := {bus with pending := false}

def writeDs (byte : UInt8) : Bus := {bus with ds := byte}

def masterRxStart : Bus := {bus with phase := .address, clocked := []}

def masterRxStop : Bus := {bus with phase := .stopped}

/-- The controller goes on until it waits again. With the answer of the slave to its address a
master has finished the address phase, after that every data byte makes it wait. Otherwise it never
does. The slave has the bytes of `stream`. -/
def waitInt (stream : ℕ → UInt8) : Option Bus :=
  if bus.pending then some bus
  else
    match bus.phase with
    | .address => some {bus with pending := true, phase := .data}
    | .data =>
        let byte := stream bus.clocked.length
        some {bus with pending := true, ds := byte, clocked := bus.clocked ++ [(byte, bus.ack)]}
    | .idle | .stopped => none

end Bus

section
variable (stream : ℕ → UInt8)

structure Reading where
  bus : Bus
  buf : ℕ → UInt8

/-- One turn of the loop. -/
def readByte (size : ℕ) (r : Reading) (i : ℕ) : Option Reading := do
  let buf := Function.update r.buf i r.bus.ds
  let bus := if u32 (size + 2 ^ 32 - 2) ≤ i then r.bus.ackOff else r.bus
  let bus ← bus.clrInt.waitInt stream
  return ⟨bus, buf⟩

def i2cRead (bus : Bus) (slaveAddr : UInt8) (buf : ℕ → UInt8) (size : ℕ) : Option Reading := do
  let bus := if size = 1 then bus.ackOff else bus.ackOn
  let bus := (bus.writeDs (slaveAddr <<< 1)).masterRxStart.clrInt
  let bus ← bus.waitInt stream
  let bus ← bus.clrInt.waitInt stream
  let r ← (List.range size).foldlM (readByte stream size) ⟨bus, buf⟩
  return ⟨r.bus.masterRxStop.clrInt, r.buf⟩

end

/-- The data bytes `0` to `n - 1`, of which those before the last one that is wanted are answered
with ACK. -/
def transfer (stream : ℕ → UInt8) (size n : ℕ) : List (UInt8 × Bool) :=
  (List.range n).map fun i => (stream i, decide (i + 1 < size))

def Framed (stream : ℕ → UInt8) (size : ℕ) (r : Reading) : Prop :=
  r.bus.clocked = transfer stream size size ∧ ∀ i < size, r.buf i = stream i

section
variable {stream : ℕ → UInt8} {size k : ℕ} {buf : ℕ → UInt8}

theorem transfer_succ (stream : ℕ → UInt8) (size n : ℕ) : transfer stream size (n + 1) =
    transfer stream size n ++ [(stream n, decide (n + 1 < size))] := by
  simp [transfer, List.range_succ]

theorem transfer_length (stream : ℕ → UInt8) (size n : ℕ) :
    (transfer stream size n).length = n := by
  simp [transfer]

/-- The state before turn `k`: one byte more than are stored has been clocked. -/
def beforeTurn (stream : ℕ → UInt8) (size : ℕ) (buf : ℕ → UInt8) (k : ℕ) : Reading where
  bus := ⟨decide (k + 1 < size), true, stream k, .data, transfer stream size (k + 1)⟩
  buf := fun i => if i < k then stream i else buf i

theorem ackOff_iff (hsize : size < 2 ^ 32) (hk : k < size) :
    (if u32 (size + 2 ^ 32 - 2) ≤ k then false else decide (k + 1 < size)) =
      decide (k + 2 < size) := by
  unfold u32
  split_ifs with hlast
  · exact (decide_eq_false (by omega)).symm
  · exact decide_eq_decide.mpr (by omega)

theorem readByte_beforeTurn (hsize : size < 2 ^ 32) (hk : k < size) :
    readByte stream size (beforeTurn stream size buf k) k =
      some (beforeTurn stream size buf (k + 1)) := by
  have hack : (if u32 (size + 2 ^ 32 - 2) ≤ k then (beforeTurn stream size buf k).bus.ackOff
      else (beforeTurn stream size buf k).bus) =
      {(beforeTurn stream size buf k).bus with ack := decide (k + 2 < size)} := by
    rw [← ackOff_iff hsize hk]
    split_ifs <;> rfl
  have hbuf : Function.update (beforeTurn stream size buf k).buf k
      (beforeTurn stream size buf k).bus.ds = (beforeTurn stream size buf (k + 1)).buf := by
    funext i
    rcases eq_or_ne i k with rfl | hne
    · rw [Function.update_self]
      exact (if_pos i.lt_succ_self).symm
    · rw [Function.update_of_ne hne]
      simp only [beforeTurn]
      split_ifs <;> first | rfl | omega
  unfold readByte
  rw [hack, hbuf]
  simp only [Bus.clrInt, Bus.waitInt, Bool.false_eq_true, if_false, beforeTurn, transfer_length,
    ← transfer_succ, Option.bind_eq_bind, Option.bind_some, Option.pure_def]

/-- A loop over `i` that goes through the states `s`. -/
theorem foldlM_range {σ : Type*} {f : σ → ℕ → Option σ} {s : ℕ → σ} {n : ℕ}
    (h : ∀ i < n, f (s i) i = some (s (i + 1))) :
    (List.range n).foldlM f (s 0) = some (s n) := by
  induction n with
  | zero => rfl
  | succ n ih =>
      have hturn : f (s n) n = some (s (n + 1)) := h n n.lt_succ_self
      rw [List.range_succ, List.foldlM_append, ih fun i hi => h i (Nat.lt_succ_of_lt hi)]
      simp only [Option.bind_eq_bind, Option.bind_some, List.foldlM_cons, hturn, List.foldlM_nil]
      rfl

theorem i2cRead_eq (bus : Bus) (slaveAddr : UInt8) (hpos : 0 < size) (hsize : size < 2 ^ 32) :
    i2cRead stream bus slaveAddr buf size = some
      ⟨⟨decide (size + 1 < size), false, stream size, .stopped, transfer stream size (size + 1)⟩,
        fun i => if i < size then stream i else buf i⟩ := by
  have hturn : ∀ i < size, readByte stream size (beforeTurn stream size buf i) i =
      some (beforeTurn stream size buf (i + 1)) := fun i hi => readByte_beforeTurn hsize hi
  have hloop := foldlM_range hturn
  have hack : (if size = 1 then bus.ackOff else bus.ackOn) =
      {bus with ack := decide (0 + 1 < size)} := by
    split_ifs with hone
    · simp [Bus.ackOff, hone]
    · have hmore : 0 + 1 < size := by omega
      simp [Bus.ackOn, hmore]
  have hstart : beforeTurn stream size buf 0 = ⟨⟨decide (0 + 1 < size), true, stream 0, .data,
      [(stream 0, decide (0 + 1 < size))]⟩, buf⟩ := by
    simp [beforeTurn, transfer]
  rw [hstart] at hloop
  unfold i2cRead
  rw [hack]
  simp only [Bus.writeDs, Bus.masterRxStart, Bus.clrInt, Bus.waitInt, Bool.false_eq_true, if_false,
    Option.bind_eq_bind, Option.bind_some, List.length_nil, List.nil_append, hloop, beforeTurn,
    Bus.masterRxStop, Option.pure_def]

end

/-- A read of any number of bytes clocks one byte more than that. Of the bytes that are wanted all
but the last are answered with ACK, the one after them is not, and the buffer has those that are
wanted. -/
theorem i2cRead_overruns (stream : ℕ → UInt8) (bus : Bus) (slaveAddr : UInt8) (buf : ℕ → UInt8)
    (size : ℕ) (hpos : 0 < size) (hsize : size < 2 ^ 32) :
    ∃ r, i2cRead stream bus slaveAddr buf size = some r ∧ ¬ Framed stream size r ∧
      r.bus.clocked = transfer stream size (size + 1) ∧
      ∀ i, r.buf i = if i < size then stream i else buf i := by
  refine ⟨_, i2cRead_eq bus slaveAddr hpos hsize, fun hframed => ?_, rfl, fun _ => rfl⟩
  have hlength := congrArg List.length hframed.1
  simp only [transfer_length] at hlength
  omega

/-- A controller that is at rest. -/
def atRest : Bus := ⟨false, false, 0, .idle, []⟩

theorem i2cRead_overruns_two : ∃ r, i2cRead (fun i => UInt8.ofNat i) atRest 0x38 (fun _ => 0xff) 2 =
    some r ∧ ¬ Framed (fun i => UInt8.ofNat i) 2 r ∧
      r.bus.clocked = [(0, true), (1, false), (2, false)] ∧
      ∀ i, r.buf i = if i < 2 then UInt8.ofNat i else 0xff :=
  i2cRead_overruns (fun i => UInt8.ofNat i) atRest 0x38 (fun _ => 0xff) 2 (by decide) (by decide)

/-- For one byte two are clocked. -/
theorem i2cRead_one : ∃ r, i2cRead (fun _ => 0x5a) atRest 0x38 (fun _ => 0) 1 = some r ∧
    r.bus.clocked = [(0x5a, false), (0x5a, false)] ∧ ¬ Framed (fun _ => 0x5a) 1 r :=
  ⟨_, rfl, by decide, fun hframed => absurd hframed.1 (by decide)⟩

end EmbeddedCode.I2c
