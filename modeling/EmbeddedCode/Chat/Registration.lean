import EmbeddedCode.Chat.Model
import Mathlib.Data.List.Induction
import Mathlib.Data.List.Nodup

/-!
# Registration

The uid of a client is the number of the clients so far, cut to a byte, so the 256th
client gets the uid of the server. The name of a client ends where the receive buffer
has a NUL, and the bytes of earlier and longer names are still in the buffer.
-/
namespace EmbeddedCode.Chat

variable {A : Type}

def handled (mesgs : List (A × MsgInfo)) : ServerInfo A :=
  mesgs.foldl (fun server mesg => (cliHandler server mesg.1 mesg.2).1) serverInit

def registrations (mesgs : List (A × MsgInfo)) : ℕ := mesgs.countP fun mesg => mesg.2.mtype = .reg

theorem handled_concat (mesgs : List (A × MsgInfo)) (mesg : A × MsgInfo) :
    handled (mesgs ++ [mesg]) = (cliHandler (handled mesgs) mesg.1 mesg.2).1 := by
  simp [handled]

theorem cliHandler_of_ne {server : ServerInfo A} {addr : A} {mesg : MsgInfo}
    (h : mesg.mtype ≠ .reg) : cliHandler server addr mesg = (server, []) := by
  unfold cliHandler
  split
  · contradiction
  · rfl

theorem cliHandler_of_reg {server : ServerInfo A} {addr : A} {mesg : MsgInfo}
    (h : mesg.mtype = .reg) : cliHandler server addr mesg = userAdd server mesg.buf addr := by
  simp only [cliHandler, h]

theorem handled_uids (mesgs : List (A × MsgInfo)) :
    (handled mesgs).count = Int32.ofNat (registrations mesgs) ∧
      (handled mesgs).list.map Cli.uid =
        (List.range (registrations mesgs)).map fun i => UInt8.ofNat (i + 1) := by
  induction mesgs using List.reverseRecOn with
  | nil => exact ⟨rfl, rfl⟩
  | append_singleton mesgs mesg ih =>
      obtain ⟨hcount, huids⟩ := ih
      rw [handled_concat]
      by_cases hreg : mesg.2.mtype = .reg
      · have hk : registrations (mesgs ++ [mesg]) = registrations mesgs + 1 := by
          simp [registrations, List.countP_append, hreg]
        rw [hk, cliHandler_of_reg hreg]
        refine ⟨?_, ?_⟩
        · simp [userAdd, hcount]
        · simp only [userAdd, List.map_append, List.map_singleton, huids, hcount, List.range_succ]
          simp
          rfl
      · have hk : registrations (mesgs ++ [mesg]) = registrations mesgs := by
          simp [registrations, List.countP_append, hreg]
        rw [hk, cliHandler_of_ne hreg]
        exact ⟨hcount, huids⟩

/-- The uids are distinct and none is that of the server exactly up to 255 registrations. -/
theorem uids_distinct_iff (mesgs : List (A × MsgInfo)) :
    (((handled mesgs).list.map Cli.uid).Nodup ∧ srvId ∉ (handled mesgs).list.map Cli.uid) ↔
      registrations mesgs ≤ 255 := by
  rw [(handled_uids mesgs).2]
  generalize registrations mesgs = k
  constructor
  · rintro ⟨-, hsrv⟩
    by_contra hlt
    apply hsrv
    rw [List.mem_map]
    exact ⟨255, List.mem_range.mpr (by omega), rfl⟩
  · intro hle
    refine ⟨?_, ?_⟩
    · apply List.Nodup.map_on _ List.nodup_range
      intro i hi j hj heq
      rw [List.mem_range] at hi hj
      have hnat := congrArg UInt8.toNat heq
      simp only [UInt8.toNat_ofNat'] at hnat
      omega
    · intro hmem
      obtain ⟨i, hi, heq⟩ := List.mem_map.mp hmem
      rw [List.mem_range] at hi
      have hnat := congrArg UInt8.toNat heq
      simp only [UInt8.toNat_ofNat', srvId, UInt8.toNat_zero] at hnat
      omega

/-- The 256th client gets the uid of the server. -/
theorem uid_srvId : ¬ ∀ mesgs : List (ℕ × MsgInfo),
    ((handled mesgs).list.map Cli.uid).Nodup ∧ srvId ∉ (handled mesgs).list.map Cli.uid := by
  intro hall
  let mesg : MsgInfo := ⟨.reg, 0, 0, List.replicate bufSize 0, List.length_replicate⟩
  have hk : ∀ k, registrations (List.replicate k (0, mesg)) = k := fun k => by
    simp [registrations, List.countP_replicate, mesg]
  have hsrv := (hall (List.replicate 256 (0, mesg))).2
  rw [(handled_uids _).2, hk] at hsrv
  exact hsrv (List.mem_map.mpr ⟨255, List.mem_range.mpr (by decide), rfl⟩)

/-- Clients register, in the order in which their datagrams come in. -/
def session (regs : List (A × CString)) : Option (Main A) :=
  regs.foldlM (fun s reg => do
    let datagram ← regHandler (regLine reg.2)
    mainTurn s (reg.1, datagram)) mainInit

theorem regHandler_regLine {name : CString} (h : name.strlen < bufSize) :
    regHandler (regLine name) = some ⟨.reg, 0, 0, name.bytes⟩ := by
  have hbuf : CString.strncpy bufSize (regLine name).bytes.tail =
      name.bytes ++ List.replicate (bufSize - name.bytes.length) 0 :=
    CString.strncpy_of_noNul name.noNul (Nat.le_of_lt h)
  obtain ⟨k, hk⟩ : ∃ k, bufSize - name.bytes.length = k + 1 :=
    ⟨bufSize - name.bytes.length - 1, by simp only [CString.strlen] at h; omega⟩
  rw [hk, List.replicate_succ] at hbuf
  have htext : (name.bytes ++ 0 :: List.replicate k 0).takeWhile (· != 0) = name.bytes := by
    rw [List.takeWhile_append_of_pos]
    · simp
    · intro b hb
      simpa using ne_of_mem_of_not_mem hb name.noNul
  simp [regHandler, hbuf, htext]

/-- What is in the receive buffer behind the last name: the buffer has a NUL at `p` exactly if
no name so far was longer than `p`. -/
def Residue (buf : List UInt8) (names : List CString) : Prop :=
  ∀ p < bufSize, buf[p]? = some 0 ↔ ∀ name ∈ names, name.strlen ≤ p

theorem residue_nil : Residue (List.replicate bufSize 0) [] := by
  intro p hp
  simp [hp]

theorem Residue.receive {buf : List UInt8} {names : List CString} (h : Residue buf names)
    (name : CString) :
    Residue (name.bytes ++ buf.drop name.bytes.length) (names ++ [name]) := by
  intro p hp
  rcases Nat.lt_or_ge p name.bytes.length with hlt | hge
  · rw [List.getElem?_append_left hlt, List.getElem?_eq_getElem hlt]
    have hne : name.bytes[p] ≠ 0 := fun heq => name.noNul (heq ▸ List.getElem_mem hlt)
    simp only [Option.some.injEq, hne, List.mem_append, List.mem_singleton, false_iff]
    intro hall
    exact absurd (hall name (.inr rfl)) (Nat.not_le_of_lt hlt)
  · rw [List.getElem?_append_right hge, List.getElem?_drop, Nat.add_sub_cancel' hge, h p hp]
    simp only [List.mem_append, List.mem_singleton]
    constructor
    · rintro hall m (hm | rfl)
      · exact hall m hm
      · exact hge
    · exact fun hall m hm => hall m (.inl hm)

/-- The name that is stored is that of the datagram exactly if it fills the copy or ends at a
NUL of the buffer. -/
theorem stored_eq_iff {buf : List UInt8} {names : List CString} (h : Residue buf names)
    (hbuf : buf.length = bufSize) (name : CString) :
    CString.strncpy maxNameSize (name.bytes ++ buf.drop name.bytes.length) =
        CString.strncpy maxNameSize name.bytes ↔
      (name.strlen < maxNameSize → ∀ earlier ∈ names, earlier.strlen ≤ name.strlen) := by
  rcases Nat.lt_or_ge name.strlen maxNameSize with hlt | hge
  · have hpos : name.strlen < bufSize := hlt.trans (by decide)
    have hfit := CString.strncpy_of_noNul name.noNul (Nat.le_of_lt hlt)
    have hbyte : buf[name.strlen]? = (buf.drop name.bytes.length)[0]? := by
      rw [List.getElem?_drop]
      rfl
    have hiff := h name.strlen hpos
    cases hdrop : buf.drop name.bytes.length with
    | nil =>
        rw [List.drop_eq_nil_iff, hbuf] at hdrop
        exact absurd hpos (Nat.not_lt_of_ge hdrop)
    | cons b rest =>
        rw [hbyte, hdrop, List.getElem?_cons_zero, Option.some.injEq] at hiff
        simp only [hlt, true_implies, ← hiff]
        constructor
        · intro heq
          by_contra hne
          have hcopied : (CString.strncpy maxNameSize
              (name.bytes ++ b :: rest))[name.bytes.length]? = some b :=
            CString.strncpy_getElem? name.noNul hlt hne
          have hroom : name.bytes.length < maxNameSize := hlt
          rw [heq, hfit, List.getElem?_append_right (Nat.le_refl _), Nat.sub_self,
            List.getElem?_replicate, if_pos (Nat.sub_pos_of_lt hroom)] at hcopied
          exact hne (Option.some.inj hcopied).symm
        · rintro rfl
          rw [CString.strncpy_of_lt name.noNul hlt, hfit]
  · have hcut : ∀ rest, CString.strncpy maxNameSize (name.bytes ++ rest) =
        name.bytes.take maxNameSize := fun _ => CString.strncpy_of_le name.noNul hge
    have hself := hcut []
    rw [List.append_nil] at hself
    simp [hcut, hself, Nat.not_lt_of_ge hge]

/-- The buffer, the stored names and the clients after the registrations `regs`. -/
theorem session_spec {regs : List (A × CString)} (h : ∀ reg ∈ regs, reg.2.strlen < bufSize) :
    ∃ s, session regs = some s ∧ Residue s.buf.buf (regs.map Prod.snd) ∧
      ((s.server.list.map fun c => (c.cliAddr, c.name)) =
          (regs.map fun reg => (reg.1, CString.strncpy maxNameSize reg.2.bytes)) ↔
        regs.Pairwise fun earlier reg =>
          reg.2.strlen < maxNameSize → earlier.2.strlen ≤ reg.2.strlen) := by
  induction regs using List.reverseRecOn with
  | nil => exact ⟨mainInit, rfl, residue_nil, by simp [mainInit, serverInit]⟩
  | append_singleton regs reg ih =>
      obtain ⟨s, hs, hresidue, hnames⟩ := ih fun reg' hmem => h reg' (by simp [hmem])
      have hlen : reg.2.strlen < bufSize := h reg (by simp)
      have hreceive : ∃ s', mainTurn s (reg.1, ⟨.reg, 0, 0, reg.2.bytes⟩) = some s' ∧
          s'.buf.buf = reg.2.bytes ++ s.buf.buf.drop reg.2.bytes.length ∧
          s'.server.list.map (fun c => (c.cliAddr, c.name)) =
            s.server.list.map (fun c => (c.cliAddr, c.name)) ++
              [(reg.1, CString.strncpy maxNameSize
                (reg.2.bytes ++ s.buf.buf.drop reg.2.bytes.length))] := by
        have hle : reg.2.bytes.length ≤ bufSize := Nat.le_of_lt hlen
        simp [mainTurn, recvfrom, hle, cliHandler, userAdd]
      obtain ⟨s', hturn, hbuf, hlist⟩ := hreceive
      refine ⟨s', ?_, ?_, ?_⟩
      · have hregs : session (regs ++ [reg]) = (session regs).bind fun s =>
            (regHandler (regLine reg.2)).bind fun datagram => mainTurn s (reg.1, datagram) := by
          simp [session]
        rw [hregs, hs, regHandler_regLine hlen]
        exact hturn
      · rw [hbuf, List.map_append, List.map_singleton]
        exact hresidue.receive reg.2
      · have hone := stored_eq_iff hresidue s.buf.size reg.2
        rw [List.forall_mem_map] at hone
        rw [hlist, List.map_append, List.map_singleton, List.pairwise_append, ← hnames]
        constructor
        · intro heq
          obtain ⟨hfront, hlast⟩ := List.append_inj' heq rfl
          have hname := (Prod.mk.inj (List.cons.inj hlast).1).2
          refine ⟨hfront, List.pairwise_singleton _ _, fun earlier hmem reg' hreg' hlt => ?_⟩
          obtain rfl := List.mem_singleton.mp hreg'
          exact hone.mp hname hlt earlier hmem
        · rintro ⟨hfront, -, hlast⟩
          rw [hfront, hone.mpr fun hlt earlier hmem =>
            hlast earlier hmem reg (List.mem_singleton_self _) hlt]

/-- Every client is stored with the name of its own datagram, cut to the size of the field,
exactly if no name that is shorter than the field comes after a longer one. -/
theorem names_iff {regs : List (A × CString)}
    (h : ∀ reg ∈ regs, 1 ≤ reg.2.strlen ∧ reg.2.strlen ≤ 1023) :
    (∃ s, session regs = some s ∧
      (s.server.list.map fun c => (c.cliAddr, c.name)) =
        regs.map fun reg => (reg.1, CString.strncpy maxNameSize reg.2.bytes)) ↔
      regs.Pairwise fun earlier reg =>
        reg.2.strlen < maxNameSize → earlier.2.strlen ≤ reg.2.strlen := by
  obtain ⟨s, hs, -, hiff⟩ := session_spec fun reg hmem => Nat.lt_succ_of_le (h reg hmem).2
  rw [← hiff]
  constructor
  · rintro ⟨s', hs', hnames⟩
    cases hs.symm.trans hs'
    exact hnames
  · exact fun hnames => ⟨s, hs, hnames⟩

theorem names_iff_two :
    ∃ s, session [(0, ⟨[97], by decide⟩), (1, ⟨[98, 99], by decide⟩)] = some s ∧
    (s.server.list.map fun c => (c.cliAddr, c.name)) =
      [(0, CString.strncpy maxNameSize [97]), (1, CString.strncpy maxNameSize [98, 99])] :=
  (names_iff (by decide)).mpr (by decide)

theorem name_mixed : ¬ ∀ regs : List (ℕ × CString),
    (∀ reg ∈ regs, 1 ≤ reg.2.strlen ∧ reg.2.strlen ≤ 1023) →
    ∃ s, session regs = some s ∧
      (s.server.list.map fun c => (c.cliAddr, c.name)) =
        regs.map fun reg => (reg.1, CString.strncpy maxNameSize reg.2.bytes) := by
  intro hall
  let regs : List (ℕ × CString) := [(0, ⟨[98, 99], by decide⟩), (1, ⟨[97], by decide⟩)]
  have hlen : ∀ reg ∈ regs, 1 ≤ reg.2.strlen ∧ reg.2.strlen ≤ 1023 := by decide
  obtain ⟨s, hs, -, hiff⟩ := session_spec fun reg hmem => Nat.lt_succ_of_le (hlen reg hmem).2
  obtain ⟨s', hs', hnames⟩ := hall regs hlen
  cases hs.symm.trans hs'
  exact absurd (hiff.mp hnames) (by decide)

end EmbeddedCode.Chat
