import EmbeddedCode.RamDisk.Requests

/-!
# What a read gives back

In any order of reads and writes a byte that is read is that of the last write to its place. The
block layer may end a request in parts, so a place may be written by a part of a request.
-/
namespace EmbeddedCode.RamDisk

/-- A write that was carried out and has stored a byte at `a`. -/
def Served.Writes (served : Served) (a : UInt32) : Prop :=
  served.req.dir = .write ∧ served.req.stop ≤ DEV_SIZE ∧
    served.req.first ≤ a.toNat ∧ a.toNat < served.req.stop

instance (served : Served) (a : UInt32) : Decidable (served.Writes a) :=
  inferInstanceAs (Decidable (_ ∧ _))

/-- The byte that the last write to `a` among these requests has stored, or the one from before. -/
def lastByte (history : List Served) (mem : Mem) (a : UInt32) : UInt8 :=
  match history.reverse.find? fun served => served.Writes a with
  | some served => served.req.buffer (UInt32.ofNat (a.toNat - served.req.first))
  | none => mem a

theorem Request.ideal_mem (req : Request) (mem : Mem) (pass : Pass) (a : UInt32) :
    (req.ideal mem).mem a = lastByte [⟨req, mem, pass⟩] mem a := by
  unfold Request.ideal lastByte
  rw [List.reverse_singleton, List.find?_singleton]
  by_cases hstop : req.stop ≤ DEV_SIZE
  · rw [if_pos hstop]
    cases hdir : req.dir with
    | read => simp [Served.Writes, hdir]
    | write =>
        by_cases hin : req.first ≤ a.toNat ∧ a.toNat < req.stop
        · simp [Served.Writes, hdir, hstop, hin]
        · simp [Served.Writes, hdir, hstop, hin]
  · rw [if_neg hstop]
    simp [Served.Writes, hstop]

/-- One more request before a history. -/
theorem lastByte_cons (served : Served) (history : List Served) (mem : Mem) (a : UInt32) :
    lastByte (served :: history) mem a = lastByte history (lastByte [served] mem) a := by
  unfold lastByte
  rw [List.reverse_cons, List.find?_append]
  cases history.reverse.find? fun served => served.Writes a with
  | none => rfl
  | some w => rfl

variable {Q : Type*} {layer : BlockLayer Q}

/-- The memory that a request finds is that of the requests before it. -/
theorem turns_before {n : ℕ} {s : State Q} (h : ∀ served ∈ turns layer n s, served.req.Checked)
    {k : ℕ} {served : Served} (hk : (turns layer n s)[k]? = some served) :
    served.before = lastByte ((turns layer n s).take k) s.mem := by
  induction n generalizing s k with
  | zero => simp [turns] at hk
  | succ n ih =>
      unfold turns at h hk ⊢
      cases hreq : s.req with
      | none => simp [hreq] at hk
      | some req =>
          simp only [hreq, List.forall_mem_cons] at h hk ⊢
          cases k with
          | zero =>
              cases hk
              rfl
          | succ k =>
              rw [ih h.2 hk, List.take_succ_cons]
              funext a
              rw [lastByte_cons]
              congr 1
              funext b
              rw [Request.serve_eq_iff.mpr h.1]
              exact req.ideal_mem s.mem _ b

/-- Whatever requests come, and in whatever parts they are ended: as long as all of them are
checked, each byte that a read on the device gives back is the one that the last write to its
place before it has stored. -/
theorem read_last_written (layer : BlockLayer Q) (queue : Q) (mem : Mem) (n : ℕ)
    (h : ∀ served ∈ doLdmReq layer queue mem n, served.req.Checked) {k : ℕ} {served : Served}
    (hk : (doLdmReq layer queue mem n)[k]? = some served) (hread : served.req.dir = .read)
    (hstop : served.req.stop ≤ DEV_SIZE) {i : ℕ} (hi : i < served.req.curBytes.toNat) :
    served.pass.err = 0 ∧ served.pass.buffer (UInt32.ofNat i) =
      lastByte ((doLdmReq layer queue mem n).take k) mem (UInt32.ofNat (served.req.first + i)) := by
  have hpass := turns_pass (List.mem_of_getElem? hk)
  have hbefore := turns_before h hk
  rw [Request.serve_of_le hstop] at hpass
  rw [hpass]
  have hsmall := served.req.curBytes.toNat_lt
  have hnat : (UInt32.ofNat i).toNat = i := UInt32.toNat_ofNat_of_lt' (Nat.lt_trans hi hsmall)
  simp only [Request.ideal, if_pos hstop, hread, hnat, if_pos hi, hbefore, true_and]
  rfl

/-- The last byte of a sector that has been written. -/
theorem read_last_written_sector :
    ∃ served, (doLdmReq listLayer [writeSector 3, ⟨3, 512, .read, fun _ => 0⟩] (fun _ => 0) 2)[1]? =
        some served ∧ served.pass.err = 0 ∧ served.pass.buffer (UInt32.ofNat 511) = 0xff := by
  have hchecked : ∀ served ∈ doLdmReq listLayer [writeSector 3, ⟨3, 512, .read, fun _ => 0⟩]
      (fun _ => 0) 2, served.req.Checked := by
    intro served hserved
    simp only [doLdmReq, turns, listLayer, BlockLayer.next, List.head?_cons, List.tail_cons,
      List.mem_cons, List.not_mem_nil, or_false] at hserved
    rcases hserved with rfl | rfl
    · exact .inl (by decide)
    · exact .inl (by decide)
  let mem := (serve (writeSector 3) fun _ => 0).mem
  let req : Request := ⟨3, 512, .read, fun _ => 0⟩
  have hread : (doLdmReq listLayer [writeSector 3, req] (fun _ => 0) 2)[1]? =
      some ⟨req, mem, serve req mem⟩ := rfl
  obtain ⟨herr, hbyte⟩ := read_last_written listLayer _ (fun _ => 0) 2 hchecked hread rfl
    (show req.stop ≤ DEV_SIZE by decide) (show 511 < req.curBytes.toNat by decide)
  refine ⟨⟨req, mem, serve req mem⟩, hread, herr, ?_⟩
  rw [hbyte]
  decide

end EmbeddedCode.RamDisk
