import Mathlib.Algebra.Group.Nat.Defs
import Mathlib.Data.Int.Notation
import Mathlib.Order.Basic
import Mathlib.Tactic.SplitIfs
import Mathlib.Tactic.TypeStar

/-!
# The requests of the RAM disk

`do_ldm_req` of `30blkdrv_mmu_bootm/02block_drv_partition/test.c`. The start of a request is
brought to 32 bits before it is checked, so the check sees only residues.
-/
namespace EmbeddedCode.RamDisk

def SECTOR_SIZE : ℕ := 512

def DEV_SIZE : ℕ := 1024 * 100 * SECTOR_SIZE

def EIO : ℤ := 5

/-- The bytes of the memory, counted from `ldm.addr` modulo `2 ^ 32`. The first `DEV_SIZE` of them
are those of the device. -/
abbrev Mem := UInt32 → UInt8

inductive Dir where
  | read
  | write
  deriving DecidableEq, Repr

structure Request where
  /-- `blk_rq_pos(req)` -/
  pos : UInt64
  /-- `blk_rq_cur_bytes(req)` -/
  curBytes : UInt32
  dir : Dir
  /-- The bytes from `req->buffer` on. -/
  buffer : UInt32 → UInt8

/-- `len` bytes of `dst` from `d` on become those of `src` from `s` on. -/
def memcpy (dst : UInt32 → UInt8) (d : UInt32) (src : UInt32 → UInt8) (s len : UInt32) :
    UInt32 → UInt8 :=
  fun a => if a - d < len then src (s + (a - d)) else dst a

/-- What has been done for a request when it is ended. -/
structure Pass where
  /-- The error that `__blk_end_request_cur` is told. -/
  err : ℤ
  /-- The bytes of the device from which on, and up to which, `memcpy` was called. -/
  copied : Option (ℕ × ℕ)
  mem : Mem
  buffer : UInt32 → UInt8

/-- One turn of the loop, up to `__blk_end_request_cur`. -/
def serve (req : Request) (mem : Mem) : Pass :=
  let start := (req.pos * UInt64.ofNat SECTOR_SIZE).toUInt32
  let len := req.curBytes
  if start + len > UInt32.ofNat DEV_SIZE then ⟨- EIO, none, mem, req.buffer⟩
  else
    let copied := some (start.toNat, start.toNat + len.toNat)
    match req.dir with
    | .read => ⟨0, copied, mem, memcpy req.buffer 0 mem start len⟩
    | .write => ⟨0, copied, memcpy mem start req.buffer 0 len, req.buffer⟩

/-- The functions of the block layer, over its own state. -/
structure BlockLayer (Q : Type*) where
  blkFetchRequest : Q → Option Request × Q
  /-- The request as it is then, or nothing if all of it is done. -/
  blkEndRequestCur : Q → Request → Pass → Option Request × Q

variable {Q : Type*} (layer : BlockLayer Q)

structure State (Q : Type*) where
  queue : Q
  req : Option Request
  mem : Mem

/-- A request that was served, with the memory it found. -/
structure Served where
  req : Request
  before : Mem
  pass : Pass

def BlockLayer.next (queue : Q) (req : Request) (pass : Pass) : Option Request × Q :=
  let ended := layer.blkEndRequestCur queue req pass
  match ended.1 with
  | some req => (some req, ended.2)
  | none => layer.blkFetchRequest ended.2

/-- The first turns of the loop, at most `n`. -/
def turns : ℕ → State Q → List Served
  | 0, _ => []
  | n + 1, s =>
      match s.req with
      | none => []
      | some req =>
          let pass := serve req s.mem
          let next := layer.next s.queue req pass
          ⟨req, s.mem, pass⟩ :: turns n ⟨next.2, next.1, pass.mem⟩

/-- The requests that are served when the block layer calls `do_ldm_req`. -/
def doLdmReq (queue : Q) (mem : Mem) (n : ℕ) : List Served :=
  let fetched := layer.blkFetchRequest queue
  turns layer n ⟨fetched.2, fetched.1, mem⟩

namespace Request

variable (req : Request)

/-- The first byte of the request. -/
def first : ℕ := req.pos.toNat * SECTOR_SIZE

/-- The byte after the last one of the request. -/
def stop : ℕ := req.first + req.curBytes.toNat

/-- What is to be done for a request: it is carried out if it ends on the device. -/
def ideal (mem : Mem) : Pass :=
  if req.stop ≤ DEV_SIZE then
    match req.dir with
    | .read => ⟨0, some (req.first, req.stop), mem, fun i =>
        if i.toNat < req.curBytes.toNat then mem (UInt32.ofNat (req.first + i.toNat))
        else req.buffer i⟩
    | .write => ⟨0, some (req.first, req.stop), fun a =>
        if req.first ≤ a.toNat ∧ a.toNat < req.stop then
          req.buffer (UInt32.ofNat (a.toNat - req.first))
        else mem a, req.buffer⟩
  else ⟨- EIO, none, mem, req.buffer⟩

/-- The request ends on the device, or is seen not to. -/
def Checked : Prop := req.stop ≤ DEV_SIZE ∨ DEV_SIZE < req.stop % 2 ^ 32

variable {req : Request} {mem : Mem}

theorem start_toNat (req : Request) :
    (req.pos * UInt64.ofNat SECTOR_SIZE).toUInt32.toNat = req.first % 2 ^ 32 := by
  have hsector : (UInt64.ofNat SECTOR_SIZE).toNat = SECTOR_SIZE := rfl
  rw [UInt64.toNat_toUInt32, UInt64.toNat_mul, hsector, first, SECTOR_SIZE]
  omega

theorem refused_iff (req : Request) :
    (req.pos * UInt64.ofNat SECTOR_SIZE).toUInt32 + req.curBytes > UInt32.ofNat DEV_SIZE ↔
      DEV_SIZE < req.stop % 2 ^ 32 := by
  have hsize : (UInt32.ofNat DEV_SIZE).toNat = DEV_SIZE := rfl
  rw [gt_iff_lt, UInt32.lt_iff_toNat_lt, hsize, UInt32.toNat_add, start_toNat, stop,
    Nat.mod_add_mod]

theorem start_toNat_of_le (h : req.stop ≤ DEV_SIZE) :
    (req.pos * UInt64.ofNat SECTOR_SIZE).toUInt32.toNat = req.first := by
  rw [start_toNat]
  simp only [stop, DEV_SIZE, SECTOR_SIZE] at h
  omega

theorem lt_length_iff {start len a : UInt32} (h : start.toNat + len.toNat < 2 ^ 32) :
    a - start < len ↔ start.toNat ≤ a.toNat ∧ a.toNat < start.toNat + len.toNat := by
  have ha := a.toNat_lt
  have hlen := len.toNat_lt
  rw [UInt32.lt_iff_toNat_lt, UInt32.toNat_sub]
  omega

theorem memcpy_from (dst src : UInt32 → UInt8) (start len : UInt32) :
    memcpy dst 0 src start len = fun i =>
      if i.toNat < len.toNat then src (UInt32.ofNat (start.toNat + i.toNat)) else dst i := by
  funext i
  simp only [memcpy, UInt32.sub_zero, UInt32.lt_iff_toNat_lt, UInt32.ofNat_add, UInt32.ofNat_toNat]

theorem memcpy_to {start len : UInt32} (h : start.toNat + len.toNat < 2 ^ 32)
    (dst src : UInt32 → UInt8) : memcpy dst start src 0 len = fun a =>
      if start.toNat ≤ a.toNat ∧ a.toNat < start.toNat + len.toNat then
        src (UInt32.ofNat (a.toNat - start.toNat))
      else dst a := by
  funext a
  simp only [memcpy, UInt32.zero_add, lt_length_iff h]
  split_ifs with hin
  · rw [UInt32.ofNat_sub hin.1, UInt32.ofNat_toNat, UInt32.ofNat_toNat]
  · rfl

theorem serve_of_le (h : req.stop ≤ DEV_SIZE) : serve req mem = req.ideal mem := by
  have hsmall : req.stop < 2 ^ 32 := by
    simp only [DEV_SIZE, SECTOR_SIZE] at h
    omega
  have haccept : ¬ DEV_SIZE < req.stop % 2 ^ 32 := by
    rw [Nat.mod_eq_of_lt hsmall]
    omega
  have hstart := start_toNat_of_le h
  unfold serve ideal
  simp only [if_neg (mt (refused_iff req).mp haccept), if_pos h]
  generalize (req.pos * UInt64.ofNat SECTOR_SIZE).toUInt32 = start at hstart
  have hstop : start.toNat + req.curBytes.toNat = req.stop := by rw [hstart, stop]
  cases req.dir with
  | read => simp only [memcpy_from, ← hstart, ← hstop]
  | write => simp only [memcpy_to (hstop ▸ hsmall), ← hstart, ← hstop]

/-- Exactly the checked requests are served as they are to be. -/
theorem serve_eq_iff : serve req mem = req.ideal mem ↔ req.Checked := by
  by_cases h : req.stop ≤ DEV_SIZE
  · exact iff_of_true (serve_of_le h) (.inl h)
  · rw [Checked, or_iff_right h, ← refused_iff, ideal, if_neg h]
    unfold serve
    constructor
    · intro heq
      by_contra haccept
      simp only [if_neg haccept] at heq
      have hcopied := congrArg Pass.copied heq
      cases hdir : req.dir <;> simp [hdir] at hcopied
    · intro hrefused
      simp only [if_pos hrefused]

end Request

variable {layer}

theorem turns_pass {n : ℕ} {s : State Q} {served : Served} (h : served ∈ turns layer n s) :
    served.pass = serve served.req served.before := by
  induction n generalizing s with
  | zero => cases h
  | succ n ih =>
      unfold turns at h
      cases hreq : s.req with
      | none => simp [hreq] at h
      | some req =>
          simp only [hreq, List.mem_cons] at h
          rcases h with rfl | h
          · rfl
          · exact ih h

theorem ideal_mem_outside {req : Request} {mem : Mem} {a : UInt32} (ha : DEV_SIZE ≤ a.toNat) :
    (req.ideal mem).mem a = mem a := by
  unfold Request.ideal
  split_ifs with hstop
  · cases req.dir with
    | read => rfl
    | write => exact if_neg fun hin => by omega
  · rfl

/-- As long as all requests are checked, memory that is not the device's is never written. -/
theorem turns_mem_outside {n : ℕ} {s : State Q} {a : UInt32} (ha : DEV_SIZE ≤ a.toNat)
    (h : ∀ served ∈ turns layer n s, served.req.Checked) :
    ∀ served ∈ turns layer n s, served.pass.mem a = s.mem a := by
  induction n generalizing s with
  | zero => exact fun served hserved => by cases hserved
  | succ n ih =>
      unfold turns at h ⊢
      cases hreq : s.req with
      | none => simp
      | some req =>
          simp only [hreq, List.forall_mem_cons] at h ⊢
          have hpass : (serve req s.mem).mem a = s.mem a := by
            rw [Request.serve_eq_iff.mpr h.1]
            exact ideal_mem_outside ha
          exact ⟨hpass, fun served hserved => (ih h.2 served hserved).trans hpass⟩

/-- Whatever requests the block layer has, and in whatever parts it ends them: a request is carried
out if it ends on the device, and refused otherwise, exactly when it is checked. -/
theorem requests_checked (layer : BlockLayer Q) (queue : Q) (mem : Mem) (n : ℕ) :
    ∀ served ∈ doLdmReq layer queue mem n,
      served.pass = served.req.ideal served.before ↔ served.req.Checked := by
  intro served hserved
  rw [turns_pass hserved]
  exact Request.serve_eq_iff

/-- A block layer whose queue is a list, and which ends requests as a whole. -/
def listLayer : BlockLayer (List Request) where
  blkFetchRequest queue := (queue.head?, queue.tail)
  blkEndRequestCur queue _ _ := (none, queue)

/-- A request to write `0xff` over one sector. -/
def writeSector (pos : UInt64) : Request := ⟨pos, 512, .write, fun _ => 0xff⟩

theorem requests_checked_last : serve (writeSector 102399) (fun _ => 0) =
    (writeSector 102399).ideal fun _ => 0 :=
  (requests_checked listLayer [writeSector 102399] (fun _ => 0) 1
    ⟨writeSector 102399, fun _ => 0, serve (writeSector 102399) fun _ => 0⟩
    List.mem_cons_self).mpr (.inl (by decide))

/-- A write to a sector 4 GiB behind the device overwrites its first sector. -/
theorem writeSector_overflow : DEV_SIZE < (writeSector 8388608).stop ∧
    (serve (writeSector 8388608) fun _ => 0).err = 0 ∧
    (serve (writeSector 8388608) fun _ => 0).mem 0 = 0xff := by
  decide

end EmbeddedCode.RamDisk
