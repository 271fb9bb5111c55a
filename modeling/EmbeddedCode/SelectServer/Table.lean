import EmbeddedCode.Library.Transition
import Mathlib.Data.Int.Notation
import Mathlib.Data.List.Basic
import Mathlib.Data.Nat.Notation
import Mathlib.Logic.Function.Basic

/-!
# The descriptor table of the echo server

The loop of `select_tcp/select_tcp.c`. The calls of the system answer arbitrarily, except
that `accept` returns a descriptor that is not in use. The states record which of the
accepted descriptors are not closed.
-/
namespace EmbeddedCode.SelectServer

open Transition

def backlog : ℕ := 5

/-- What the calls of one turn of the loop return. -/
structure Answer where
  select : ℤ
  /-- The descriptors of clients that `select` reports. -/
  ready : ℕ → Bool
  read : ℕ → ℤ
  /-- The descriptor that `accept` returns, if `select` reports the listening socket. The -1
  of a failing `accept` is stored in a free slot, which leaves the table as it is. -/
  conn : Option ℕ

inductive Phase where
  /-- At the head of the loop. -/
  | head
  /-- `main` has returned because `select` failed. -/
  | failed
  /-- `main` has returned after the final loop. -/
  | closed
  deriving DecidableEq, Repr

structure State where
  /-- A slot without a descriptor holds -1 in the source. -/
  cliFd : List (Option ℕ)
  srvShutdown : Bool
  phase : Phase
  /-- The descriptors that are accepted and not closed. -/
  opened : ℕ → Bool

/-- The peer of the client has closed its connection. -/
def Answer.closes (answer : Answer) (fd : ℕ) : Bool := answer.ready fd && answer.read fd == 0

/-- The slot of a client after its turn in the loop over the clients. What is echoed to the
client, and a failing `read`, do not change it. -/
def serve (answer : Answer) : Option ℕ → Option ℕ
  | none => none
  | some fd => if answer.closes fd then none else some fd

/-- The first free slot gets the new descriptor. There is no result if there is none. -/
def place (conn : ℕ) : List (Option ℕ) → Option (List (Option ℕ))
  | [] => none
  | none :: slots => some (some conn :: slots)
  | some fd :: slots => (place conn slots).map (some fd :: ·)

inductive Action where
  /-- SIGINT is delivered. -/
  | sigint
  | turn (answer : Answer)
  /-- The loop is left, and the final loop closes the descriptors in the table. -/
  | finish

namespace State

/-- The part of a turn behind a `select` that reports descriptors. -/
def handle (s : State) (answer : Answer) : Option State :=
  let cliFd := s.cliFd.map (serve answer)
  match answer.conn with
  | none => some {s with cliFd := cliFd}
  | some conn =>
      if s.opened conn then none
      else
        match place conn cliFd with
        | some cliFd => some {s with
            cliFd := cliFd
            opened := Function.update s.opened conn true}
        -- The table is full, and the new descriptor is closed again.
        | none => some {s with cliFd := cliFd}

def step (s : State) (a : Action) : Option State :=
  if s.phase = .head then
    match a with
    | .sigint => some {s with srvShutdown := true}
    | .turn answer =>
        if s.srvShutdown then none
        else if answer.select = -1 then some {s with phase := .failed}
        else if answer.select = 0 then some s
        else s.handle answer
    | .finish =>
        if s.srvShutdown then
          some {s with
            phase := .closed
            opened := fun fd => s.opened fd && !s.cliFd.contains (some fd)}
        else none
  else none

end State

def machine : Machine State Action where
  init := ⟨List.replicate backlog none, false, .head, fun _ => false⟩
  step := State.step

/-- Every open descriptor is in exactly one slot, and none is open at the end. -/
structure Tabled (s : State) : Prop where
  slot : ∀ fd, s.opened fd = true → s.cliFd.count (some fd) = 1
  closed : s.phase = .closed → ∀ fd, s.opened fd = false

def noPeerClose (s : State) : Action → Prop
  | .turn answer => answer.select ≠ -1 → answer.select ≠ 0 →
      ∀ fd, some fd ∈ s.cliFd → answer.closes fd = false
  | _ => True

variable {s s' : State} {answer : Answer} {a : Action} {conn fd : ℕ}
variable {slots slots' : List (Option ℕ)}

/-- A client keeps its slots, or loses all of them. -/
theorem count_serve (answer : Answer) (slots : List (Option ℕ)) (fd : ℕ) :
    (slots.map (serve answer)).count (some fd) =
      if answer.closes fd then 0 else slots.count (some fd) := by
  induction slots with
  | nil => simp
  | cons slot slots ih =>
      rw [List.map_cons, List.count_cons, List.count_cons, ih]
      cases slot with
      | none => simp [serve]
      | some fd' =>
          rcases eq_or_ne fd' fd with rfl | hne
          · cases hcloses : answer.closes fd' <;> simp [serve, hcloses]
          · have hserve : serve answer (some fd') ≠ some fd := by
              cases hcloses : answer.closes fd' <;> simp [serve, hcloses, hne]
            simp [hserve, hne]

theorem count_place (h : place conn slots = some slots') (fd : ℕ) :
    slots'.count (some fd) = slots.count (some fd) + if conn = fd then 1 else 0 := by
  induction slots generalizing slots' with
  | nil => cases h
  | cons slot slots ih =>
      cases slot with
      | none =>
          cases h
          simp [List.count_cons]
      | some fd' =>
          simp only [place, Option.map_eq_some_iff] at h
          obtain ⟨rest, hrest, rfl⟩ := h
          rw [List.count_cons, List.count_cons, ih hrest]
          omega

/-- What a turn does that gets as far as the clients. -/
inductive Handled (s : State) (answer : Answer) : State → Prop
  | quiet : Handled s answer {s with cliFd := s.cliFd.map (serve answer)}
  | placed {conn : ℕ} {cliFd : List (Option ℕ)} : s.opened conn = false →
      place conn (s.cliFd.map (serve answer)) = some cliFd →
      Handled s answer {s with
        cliFd := cliFd
        opened := Function.update s.opened conn true}

theorem State.handle_cases (h : s.handle answer = some s') : Handled s answer s' := by
  unfold State.handle at h
  cases hconn : answer.conn with
  | none =>
      simp only [hconn] at h
      cases h
      exact .quiet
  | some conn =>
      simp only [hconn] at h
      split_ifs at h with hopen
      cases hplace : place conn (s.cliFd.map (serve answer)) with
      | none =>
          simp only [hplace] at h
          cases h
          exact .quiet
      | some cliFd =>
          simp only [hplace] at h
          cases h
          exact .placed (Bool.eq_false_iff.mpr hopen) hplace

/-- What a step does: one case for each way in which a turn can end. -/
inductive State.Step (s : State) : Action → State → Prop
  | sigint : Step s .sigint {s with srvShutdown := true}
  | failed {answer : Answer} : answer.select = -1 →
      Step s (.turn answer) {s with phase := .failed}
  | timeout {answer : Answer} : answer.select = 0 → Step s (.turn answer) s
  | handled {answer : Answer} {s' : State} : answer.select ≠ -1 → answer.select ≠ 0 →
      Handled s answer s' → Step s (.turn answer) s'
  | finish : Step s .finish {s with
      phase := .closed
      opened := fun fd => s.opened fd && !s.cliFd.contains (some fd)}

theorem State.step_cases (h : s.step a = some s') : s.phase = .head ∧ s.Step a s' := by
  unfold State.step at h
  by_cases hhead : s.phase = .head
  · rw [if_pos hhead] at h
    refine ⟨hhead, ?_⟩
    cases a with
    | sigint =>
        cases h
        exact .sigint
    | turn answer =>
        simp only at h
        split_ifs at h with _ hfail htime
        · cases h
          exact .failed hfail
        · cases h
          exact .timeout htime
        · exact .handled hfail htime (State.handle_cases h)
    | finish =>
        simp only at h
        split_ifs at h
        cases h
        exact .finish
  · rw [if_neg hhead] at h
    cases h

/-- No descriptor is in two slots, and at the head of the loop the slots hold open descriptors
only. -/
structure Slots (s : State) : Prop where
  single : ∀ fd, s.cliFd.count (some fd) ≤ 1
  opened : s.phase = .head → ∀ fd, s.cliFd.count (some fd) ≠ 0 → s.opened fd = true

/-- A descriptor is open and in no slot. -/
def Leaked (s : State) (fd : ℕ) : Prop := s.opened fd = true ∧ s.cliFd.count (some fd) = 0

theorem Tabled.not_leaked (h : Tabled s) : ¬ Leaked s fd := by
  rintro ⟨hopen, hcount⟩
  have hone := h.slot fd hopen
  omega

theorem Slots.handled (h : Slots s) (hhead : s.phase = .head) (hs : Handled s answer s') :
    Slots s' := by
  have hopen := h.opened hhead
  cases hs with
  | quiet =>
      constructor
      · intro fd
        have hle := h.single fd
        rw [count_serve]
        split_ifs <;> omega
      · intro _ fd hcount
        rw [count_serve] at hcount
        split_ifs at hcount
        · contradiction
        · exact hopen fd hcount
  | @placed conn cliFd hfree hplace =>
      have hcount := count_place hplace
      simp only [count_serve] at hcount
      constructor
      · intro fd
        have hle := h.single fd
        have hnone : conn = fd → s.cliFd.count (some fd) = 0 := by
          rintro rfl
          by_contra hne
          simp [hopen conn hne] at hfree
        rw [hcount]
        split_ifs <;> omega
      · intro _ fd hne
        rcases eq_or_ne fd conn with rfl | hconn
        · exact Function.update_self ..
        · rw [hcount, if_neg (Ne.symm hconn)] at hne
          refine (Function.update_of_ne hconn _ _).trans (hopen fd ?_)
          split_ifs at hne
          · contradiction
          · exact hne

theorem Slots.step (h : Slots s) (hs : s.step a = some s') : Slots s' := by
  obtain ⟨hhead, hs⟩ := State.step_cases hs
  cases hs with
  | sigint => exact ⟨h.single, h.opened⟩
  | failed _ => exact ⟨h.single, nofun⟩
  | timeout _ => exact h
  | handled _ _ hs => exact h.handled hhead hs
  | finish => exact ⟨h.single, nofun⟩

/-- An open descriptor stays open, and is in a slot afterwards exactly if it was in one before
and its peer does not close the connection. -/
theorem Handled.keeps (hs : Handled s answer s') (ho : s.opened fd = true) :
    s'.opened fd = true ∧
      s'.cliFd.count (some fd) = if answer.closes fd then 0 else s.cliFd.count (some fd) := by
  cases hs with
  | quiet => exact ⟨ho, count_serve answer s.cliFd fd⟩
  | @placed conn cliFd hfree hplace =>
      have hne : fd ≠ conn := by
        rintro rfl
        simp [hfree] at ho
      refine ⟨(Function.update_of_ne hne _ _).trans ho, ?_⟩
      rw [count_place hplace, count_serve, if_neg (Ne.symm hne), Nat.add_zero]

/-- The last loop closes what is in the table only. -/
theorem Leaked.step (h : Leaked s fd) (hs : s.step a = some s') : Leaked s' fd := by
  obtain ⟨hopen, hcount⟩ := h
  obtain ⟨-, hs⟩ := State.step_cases hs
  cases hs with
  | sigint => exact ⟨hopen, hcount⟩
  | failed _ => exact ⟨hopen, hcount⟩
  | timeout _ => exact ⟨hopen, hcount⟩
  | handled _ _ hs =>
      obtain ⟨hopen', hcount'⟩ := hs.keeps hopen
      refine ⟨hopen', hcount'.trans ?_⟩
      split_ifs
      · rfl
      · exact hcount
  | finish =>
      refine ⟨?_, hcount⟩
      rw [List.count_eq_zero] at hcount
      simp [hopen, hcount]

/-- A turn in which a peer closes its connection loses its descriptor. -/
theorem Handled.leaked (hs : Handled s answer s') (hopen : s.opened fd = true)
    (hcloses : answer.closes fd = true) : Leaked s' fd := by
  obtain ⟨hopen', hcount'⟩ := hs.keeps hopen
  rw [if_pos hcloses] at hcount'
  exact ⟨hopen', hcount'⟩

theorem Tabled.handled (h : Tabled s) (hhead : s.phase = .head) (hslots : Slots s)
    (hs : Handled s answer s') (hg : ∀ fd, some fd ∈ s.cliFd → answer.closes fd = false) :
    Tabled s' := by
  have hkeep : ∀ fd, s.opened fd = true → s'.cliFd.count (some fd) = 1 := by
    intro fd hopen
    have hone := h.slot fd hopen
    have hmem : some fd ∈ s.cliFd := List.count_pos_iff.mp (by omega)
    rw [(hs.keeps hopen).2, hg fd hmem]
    exact hone
  have hslots' := hslots.handled hhead hs
  constructor
  · intro fd hopen
    cases hs with
    | quiet => exact hkeep fd hopen
    | @placed conn cliFd hfree hplace =>
        rcases eq_or_ne fd conn with rfl | hne
        · have hle := hslots'.single fd
          have hcount := count_place hplace fd
          rw [if_pos rfl] at hcount
          simp only at hle ⊢
          omega
        · exact hkeep fd ((Function.update_of_ne hne _ _).symm.trans hopen)
  · intro hclosed
    have hphase : s'.phase = s.phase := by cases hs <;> rfl
    rw [hphase, hhead] at hclosed
    cases hclosed

theorem Tabled.step (h : Tabled s) (hslots : Slots s) (hg : noPeerClose s a)
    (hs : s.step a = some s') : Tabled s' := by
  obtain ⟨hhead, hs⟩ := State.step_cases hs
  cases hs with
  | sigint => exact ⟨h.slot, h.closed⟩
  | failed _ => exact ⟨h.slot, nofun⟩
  | timeout _ => exact h
  | handled hfail htime hs => exact h.handled hhead hslots hs (hg hfail htime)
  | finish =>
      have hnone : ∀ fd, (s.opened fd && !s.cliFd.contains (some fd)) = false := by
        intro fd
        cases hopen : s.opened fd with
        | false => rfl
        | true =>
            have hone := h.slot fd hopen
            have hmem : some fd ∈ s.cliFd := List.count_pos_iff.mp (by omega)
            simp [hmem]
      exact ⟨fun fd hopen => absurd hopen (by simp only [hnone fd]; decide), fun _ => hnone⟩

/-- The turns that do not meet the guard lose a descriptor. -/
theorem Slots.leaked (h : Slots s) (hg : ¬ noPeerClose s a) (hs : s.step a = some s') :
    ∃ fd, Leaked s' fd := by
  obtain ⟨hhead, hs⟩ := State.step_cases hs
  cases hs with
  | sigint => exact absurd trivial hg
  | failed hfail => exact absurd (fun hne => absurd hfail hne) hg
  | timeout htime => exact absurd (fun _ hne => absurd htime hne) hg
  | @handled answer s' hfail htime hs =>
      simp only [noPeerClose, not_forall, Bool.not_eq_false] at hg
      obtain ⟨-, -, fd, hmem, hcloses⟩ := hg
      have hcount := List.count_pos_iff.mpr hmem
      exact ⟨fd, hs.leaked (h.opened hhead fd (by omega)) hcloses⟩
  | finish => exact absurd trivial hg

theorem init_slots : Slots machine.init where
  single fd := by simp [machine, List.count_replicate]
  opened _ fd hcount := by simp [machine, List.count_replicate] at hcount

theorem init_tabled : Tabled machine.init where
  slot _ hopen := by cases hopen
  closed _ _ := rfl

theorem tabled_of_noPeerClose (h : machine.ReachableBy noPeerClose s) : Slots s ∧ Tabled s := by
  refine h.invariant (I := fun s => Slots s ∧ Tabled s) ⟨init_slots, init_tabled⟩ ?_
  rintro s a s' ⟨hslots, htabled⟩ hg hs
  exact ⟨hslots.step hs, htabled.step hslots hg hs⟩

/-- What a run loses, it never gets back. -/
theorem noPeerClose_or_leaked (h : machine.Reachable s) :
    Slots s ∧ (machine.ReachableBy noPeerClose s ∨ ∃ fd, Leaked s fd) := by
  refine h.invariant (I := fun s => Slots s ∧
    (machine.ReachableBy noPeerClose s ∨ ∃ fd, Leaked s fd)) ⟨init_slots, .inl .start⟩ ?_
  rintro s a s' ⟨hslots, hrun | ⟨fd, hleaked⟩⟩ hs
  · refine ⟨hslots.step hs, ?_⟩
    by_cases hg : noPeerClose s a
    · exact .inl (hrun.next hg hs)
    · exact .inr (hslots.leaked hg hs)
  · exact ⟨hslots.step hs, .inr ⟨fd, hleaked.step hs⟩⟩

/-- The table holds every open descriptor exactly after the runs in which no peer closes its
connection. -/
theorem tabled_iff (h : machine.Reachable s) :
    Tabled s ↔ machine.ReachableBy noPeerClose s := by
  constructor
  · intro htabled
    obtain ⟨-, hrun | ⟨fd, hleaked⟩⟩ := noPeerClose_or_leaked h
    · exact hrun
    · exact absurd hleaked htabled.not_leaked
  · intro hrun
    exact (tabled_of_noPeerClose hrun).2

def connect : Action := .turn ⟨1, fun _ => false, fun _ => 0, some 4⟩

def hangUp : Action := .turn ⟨1, fun fd => fd == 4, fun _ => 0, none⟩

def connected : State :=
  ⟨[some 4, none, none, none, none], false, .head, Function.update (fun _ => false) 4 true⟩

theorem tabled_iff_connected :
    machine.Reachable connected ∧
      (Tabled connected ↔ machine.ReachableBy noPeerClose connected) := by
  have hrun : machine.run machine.init [connect] = some connected := rfl
  exact ⟨.run .start hrun, tabled_iff (.run .start hrun)⟩

/-- The descriptor of a client that closes its connection is in no slot, and is not closed. -/
theorem not_tabled :
    ¬ ∀ s, machine.Reachable s → s.phase = .head → Tabled s := by
  intro h
  have hrun : machine.run machine.init [connect, hangUp] =
      some {connected with cliFd := [none, none, none, none, none]} := rfl
  have htabled := h _ (.run .start hrun) rfl
  have hleaked : Leaked {connected with cliFd := [none, none, none, none, none]} 4 := ⟨rfl, rfl⟩
  exact htabled.not_leaked hleaked

end EmbeddedCode.SelectServer
