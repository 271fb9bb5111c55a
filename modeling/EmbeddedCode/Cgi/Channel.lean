import EmbeddedCode.Library.Transition
import Mathlib.Data.Nat.Notation

/-!
# Parent and child of `cgi_handler`

The child of `3http_V04/src/up_cgi.c` writes to one end of a socket pair, a channel
for `capacity` bytes, and exits. The parent waits for the exit first, sends the
status line, and only then reads from the other end and passes on what it reads.
-/
namespace EmbeddedCode.Cgi

open Transition

/-- Where the parent stands in `cgi_handler`, from its `wait` on. -/
inductive ParentPc where
  | waiting
  | replying
  | reading
  | done
  deriving DecidableEq, Repr

structure State (β : Type) where
  /-- What the child has still to write. -/
  rest : List β
  exited : Bool
  channel : List β
  parent : ParentPc
  /-- What was read and written to the connection, behind the status line. -/
  sent : List β

inductive Action where
  /-- A part of the child's output gets into the channel. -/
  | write (k : ℕ)
  | exit
  | wait
  | reply
  | read (k : ℕ)
  /-- `read` returns 0: the channel is empty, and the child has closed it. -/
  | eof
  deriving DecidableEq, Repr

def bufSize : ℕ := 1024

variable {β : Type} {capacity : ℕ} {output : List β}

def step (capacity : ℕ) (s : State β) : Action → Option (State β)
  | .write k =>
      if 0 < k ∧ k ≤ s.rest.length ∧ s.channel.length + k ≤ capacity then
        some {s with rest := s.rest.drop k, channel := s.channel ++ s.rest.take k}
      else none
  | .exit => if s.rest = [] ∧ s.exited = false then some {s with exited := true} else none
  | .wait =>
      if s.parent = .waiting ∧ s.exited then some {s with parent := .replying} else none
  | .reply => if s.parent = .replying then some {s with parent := .reading} else none
  | .read k =>
      if s.parent = .reading ∧ 0 < k ∧ k ≤ s.channel.length ∧ k ≤ bufSize then
        some {s with channel := s.channel.drop k, sent := s.sent ++ s.channel.take k}
      else none
  | .eof =>
      if s.parent = .reading ∧ s.channel = [] ∧ s.exited then some {s with parent := .done}
      else none

def machine (capacity : ℕ) (output : List β) : Machine (State β) Action where
  init := ⟨output, false, [], .waiting, []⟩
  step := step capacity

/-- The parent is blocked in `wait`, and the child in a write to the full channel. -/
def Deadlock (capacity : ℕ) (s : State β) : Prop :=
  s.parent = .waiting ∧ s.exited = false ∧ s.rest ≠ [] ∧ s.channel.length = capacity

/-- The invariant: every byte of the output is sent, in the channel or still to be written,
and the parent does not read before the child has exited. -/
structure Flow (output : List β) (s : State β) : Prop where
  bytes : s.sent ++ s.channel ++ s.rest = output
  unread : s.parent = .waiting → s.sent = []
  exited : s.exited = true → s.rest = []
  waited : s.parent ≠ .waiting → s.exited = true
  drained : s.parent = .done → s.channel = []

theorem Flow.step {s s' : State β} {a : Action} (h : Flow output s)
    (hs : step capacity s a = some s') : Flow output s' := by
  cases a with
  | write k =>
      simp only [Cgi.step] at hs
      split_ifs at hs with hk
      cases hs
      have hrest : s.rest ≠ [] := by
        rintro hnil
        rw [hnil, List.length_nil] at hk
        omega
      have hrun : s.exited ≠ true := fun he => hrest (h.exited he)
      have hwait : s.parent = .waiting := by
        by_contra hne
        exact hrun (h.waited hne)
      refine ⟨?_, h.unread, fun he => absurd he hrun, h.waited, ?_⟩
      · rw [← h.bytes]
        simp [List.append_assoc]
      · simp [hwait]
  | exit =>
      simp only [Cgi.step] at hs
      split_ifs at hs with hc
      cases hs
      exact ⟨h.bytes, h.unread, fun _ => hc.1, fun _ => rfl, h.drained⟩
  | wait =>
      simp only [Cgi.step] at hs
      split_ifs at hs with hc
      cases hs
      exact ⟨h.bytes, by simp, h.exited, fun _ => hc.2, by simp⟩
  | reply =>
      simp only [Cgi.step] at hs
      split_ifs at hs with hc
      cases hs
      exact ⟨h.bytes, by simp, h.exited, fun _ => h.waited (by simp [hc]), by simp⟩
  | read k =>
      simp only [Cgi.step] at hs
      split_ifs at hs with hc
      cases hs
      refine ⟨?_, by simp [hc.1], h.exited, h.waited, by simp [hc.1]⟩
      rw [← h.bytes]
      simp [List.append_assoc]
  | eof =>
      simp only [Cgi.step] at hs
      split_ifs at hs with hc
      cases hs
      exact ⟨h.bytes, by simp, h.exited, fun _ => hc.2.2, fun _ => hc.2.1⟩

theorem reachable_flow {s : State β} (h : (machine capacity output).Reachable s) :
    Flow output s :=
  Machine.Reachable.invariant ⟨rfl, fun _ => rfl, by simp [machine], by simp [machine],
    by simp [machine]⟩ (fun _ _ _ hi hs => hi.step hs) h

/-- A request that is served to its end has sent the whole output. -/
theorem done_sent {s : State β} (h : (machine capacity output).Reachable s)
    (hd : s.parent = .done) : s.sent = output := by
  have hf := reachable_flow h
  have hrest := hf.exited (hf.waited (by simp [hd]))
  have hb := hf.bytes
  rwa [hf.drained hd, hrest, List.append_nil, List.append_nil] at hb

/-- Parent and child can block each other exactly if the output does not fit into the
channel. -/
theorem deadlock_free_iff : (∀ s, (machine capacity output).Reachable s → ¬ Deadlock capacity s) ↔
    output.length ≤ capacity := by
  constructor
  · intro hall
    by_contra hlt
    rw [Nat.not_le] at hlt
    rcases Nat.eq_zero_or_pos capacity with rfl | hpos
    · refine hall _ .start ⟨rfl, rfl, ?_, rfl⟩
      rintro (hnil : output = [])
      simp [hnil] at hlt
    · have hstep : (machine capacity output).step (machine capacity output).init (.write capacity) =
          some ⟨output.drop capacity, false, output.take capacity, .waiting, []⟩ := by
        simp [machine, step, hpos, Nat.le_of_lt hlt]
      refine hall _ (Machine.Reachable.start.next hstep) ⟨rfl, rfl, ?_, ?_⟩
      · simpa using hlt
      · exact (List.length_take).trans (Nat.min_eq_left (Nat.le_of_lt hlt))
  · rintro hle s hs ⟨hwait, _, hrest, hfull⟩
    have hf := reachable_flow hs
    have hlen := congrArg List.length hf.bytes
    rw [hf.unread hwait] at hlen
    simp only [List.nil_append, List.length_append] at hlen
    have := List.length_pos_iff.mpr hrest
    omega

/-- A channel for one byte, and a child that writes two. -/
theorem deadlock_reachable : ¬ ∀ (capacity : ℕ) (output : List UInt8) (s : State UInt8),
    0 < capacity → (machine capacity output).Reachable s → ¬ Deadlock capacity s := by
  intro hall
  let output : List UInt8 := [0, 0]
  have hstep : (machine 1 output).step (machine 1 output).init (.write 1) =
      some ⟨[0], false, [0], .waiting, []⟩ := rfl
  exact hall 1 output _ (by decide) (Machine.Reachable.start.next hstep)
    ⟨rfl, rfl, List.cons_ne_nil _ _, rfl⟩

end EmbeddedCode.Cgi
