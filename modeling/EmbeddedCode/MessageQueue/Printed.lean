import EmbeddedCode.Library.Transition
import Mathlib.Data.List.Induction
import Mathlib.Data.List.TakeWhile
import Mathlib.Logic.Function.Basic

/-!
# Lines through a message queue

`03msq/mq_cli.c` sends the lines of its input to a queue of messages and `03msq/mq_srv.c` prints
what it receives. The server never ends the text in its buffer, so that what an earlier message
has left behind a shorter one is printed with it.
-/
namespace EmbeddedCode.MessageQueue

open Transition

abbrev Message := List UInt8

/-- `fgets` with room for `n` bytes before the NUL: a line, and the input behind it. -/
def fgets : ℕ → List UInt8 → Message × List UInt8
  | 0, input => ([], input)
  | _ + 1, [] => ([], [])
  | n + 1, c :: input =>
      if c = 10 then ([c], input)
      else
        let (line, left) := fgets n input
        (c :: line, left)

def text (buf : List UInt8) : Message := buf.takeWhile (· ≠ 0)

def lineSize : ℕ := 1024

def bufSize : ℕ := 8192

/-- `buf[n - 1] = '\0'` takes the last byte of a line away, whatever it is. A line that starts with
a NUL faults. -/
def prepare (line : Message) : Option Message :=
  if text line = [] then none else some (text line).dropLast

inductive Pc where
  | testing
  | receiving
  | done
  deriving DecidableEq, Repr

structure State (P : Type) where
  /-- What is left of the input of each client. -/
  input : P → List UInt8
  /-- The message that a client is in `mq_send` with. -/
  sending : P → Option Message
  queue : List Message
  server : Pc
  srvShutdown : Bool
  buf : List UInt8
  /-- The length and the text of each line that is printed. -/
  printed : List (ℕ × Message)

inductive Action (P : Type) where
  | read (p : P)
  | send (p : P)
  | test
  | receive
  | signal
  deriving DecidableEq, Repr

variable {P : Type} [DecidableEq P]

/-- A queue takes `maxmsg` messages, and a call blocks while there is no room or no message. -/
def step (maxmsg : ℕ) (s : State P) : Action P → Option (State P)
  | .read p =>
      if s.sending p = none ∧ s.input p ≠ [] then do
        let (line, left) := fgets (lineSize - 1) (s.input p)
        let m ← prepare line
        some {s with
          input := Function.update s.input p left, sending := Function.update s.sending p (some m)}
      else none
  | .send p => do
      let m ← s.sending p
      if s.queue.length < maxmsg then
        some {s with
          queue := s.queue ++ [m], sending := Function.update s.sending p none}
      else none
  | .test =>
      if s.server = .testing then
        some {s with server := if s.srvShutdown then .done else .receiving}
      else none
  | .receive =>
      match s.server, s.queue with
      | .receiving, m :: queue =>
          let buf := m ++ s.buf.drop m.length
          -- `printf` reads up to a NUL, which has to be there
          if m.length ≤ bufSize ∧ 0 ∈ buf then
            some {s with
              queue := queue, server := .testing, buf := buf,
              printed := s.printed ++ [(m.length, text buf)]}
          else none
      | _, _ => none
  | .signal => some {s with srvShutdown := true}

def machine (maxmsg : ℕ) (input : P → List UInt8) : Machine (State P) (Action P) where
  init := ⟨input, fun _ => none, [], .testing, false, List.replicate bufSize 0, []⟩
  step := step maxmsg

theorem length_fgets (n : ℕ) (input : List UInt8) : (fgets n input).1.length ≤ n := by
  induction n generalizing input with
  | zero => exact Nat.le_refl 0
  | succ n ih =>
      cases input with
      | nil => exact Nat.zero_le _
      | cons c input =>
          unfold fgets
          split_ifs
          · exact Nat.succ_le_succ (Nat.zero_le n)
          · exact Nat.succ_le_succ (ih input)

theorem length_fgets_lt (n : ℕ) {input : List UInt8} (h : input ≠ []) :
    (fgets (n + 1) input).2.length < input.length := by
  have hle (n : ℕ) (input : List UInt8) : (fgets n input).2.length ≤ input.length := by
    induction n generalizing input with
    | zero => exact Nat.le_refl _
    | succ n ih =>
        cases input with
        | nil => exact Nat.le_refl _
        | cons c input =>
            unfold fgets
            split_ifs
            · exact Nat.le_succ _
            · exact Nat.le_succ_of_le (ih input)
  cases input with
  | nil => exact absurd rfl h
  | cons c input =>
      unfold fgets
      split_ifs
      · exact Nat.lt_succ_self _
      · exact Nat.lt_succ_of_le (hle n input)

/-- The messages of an input, up to a line that faults. -/
def messages (input : List UInt8) : List Message :=
  if _ : input = [] then []
  else
    match prepare (fgets (lineSize - 1) input).1 with
    | none => []
    | some m => m :: messages (fgets (lineSize - 1) input).2
termination_by input.length
decreasing_by exact length_fgets_lt _ (by assumption)

theorem messages_eq {input : List UInt8} (h : input ≠ []) {m : Message}
    (hm : prepare (fgets (lineSize - 1) input).1 = some m) :
    messages input = m :: messages (fgets (lineSize - 1) input).2 := by
  rw [messages, dif_neg h, hm]

/-- What is in the buffer behind messages that have been received one after the other. -/
def overlay : List Message → Message :=
  List.foldl (fun buf m => m ++ buf.drop m.length) []

@[simp] theorem overlay_concat (ms : List Message) (m : Message) :
    overlay (ms ++ [m]) = m ++ (overlay ms).drop m.length := by
  simp [overlay]

theorem length_overlay_le {ms : List Message} {n : ℕ} :
    (overlay ms).length ≤ n ↔ ∀ m ∈ ms, m.length ≤ n := by
  induction ms using List.reverseRecOn with
  | nil => simp [overlay]
  | append_singleton ms m ih =>
      simp only [overlay_concat, List.length_append, List.length_drop, List.forall_mem_append, ← ih,
        List.forall_mem_singleton]
      omega

/-- A message of a client. -/
structure Fits (m : Message) : Prop where
  noNul : 0 ∉ m
  length : m.length < lineSize

theorem fits_prepare {input : List UInt8} {m : Message}
    (h : prepare (fgets (lineSize - 1) input).1 = some m) : Fits m := by
  unfold prepare at h
  split_ifs at h with hempty
  obtain rfl := Option.some.inj h
  have hline := length_fgets (lineSize - 1) input
  have htext : (text (fgets (lineSize - 1) input).1).length ≤
      (fgets (lineSize - 1) input).1.length := (List.takeWhile_sublist _).length_le
  refine ⟨fun hmem => ?_, ?_⟩
  · have hne := List.mem_takeWhile_imp (List.dropLast_subset _ hmem)
    simp at hne
  · rw [List.length_dropLast]
    have : 0 < lineSize := by decide
    omega

def filled (ms : List Message) : List UInt8 :=
  overlay ms ++ List.replicate (bufSize - (overlay ms).length) 0

theorem filled_concat {ms : List Message} (h : ∀ m ∈ ms, m.length < bufSize) {m : Message}
    (hm : m.length < bufSize) : m ++ (filled ms).drop m.length = filled (ms ++ [m]) := by
  have hms : (overlay ms).length ≤ bufSize :=
    length_overlay_le.mpr fun m' hm' => Nat.le_of_lt (h m' hm')
  unfold filled
  rw [overlay_concat, List.drop_append, List.drop_replicate, List.append_assoc,
    List.length_append, List.length_drop]
  congr 3
  omega

theorem noNul_overlay {ms : List Message} (h : ∀ m ∈ ms, 0 ∉ m) : 0 ∉ overlay ms := by
  induction ms using List.reverseRecOn with
  | nil => simp [overlay]
  | append_singleton ms m ih =>
      rw [List.forall_mem_append, List.forall_mem_singleton] at h
      rw [overlay_concat, List.mem_append, not_or]
      exact ⟨h.2, fun hmem => ih h.1 (List.mem_of_mem_drop hmem)⟩

/-- The text in the buffer is what the messages have left there, and it ends. -/
theorem text_filled {ms : List Message} (h : ∀ m ∈ ms, Fits m) :
    text (filled ms) = overlay ms ∧ 0 ∈ filled ms := by
  have hnul : 0 ∉ overlay ms := noNul_overlay fun m hm => (h m hm).noNul
  have hle : (overlay ms).length ≤ lineSize :=
    length_overlay_le.mpr fun m hm => Nat.le_of_lt (h m hm).length
  have hpos : lineSize < bufSize := by decide
  obtain ⟨n, hn⟩ : ∃ n, bufSize - (overlay ms).length = n + 1 :=
    ⟨bufSize - (overlay ms).length - 1, by omega⟩
  unfold filled
  rw [hn, List.replicate_succ]
  refine ⟨?_, by simp⟩
  unfold text
  rw [List.takeWhile_append_of_pos, List.takeWhile_cons_of_neg (by simp), List.append_nil]
  intro b hb
  rw [decide_eq_true_iff]
  rintro rfl
  exact hnul hb

/-- The messages of the client `p` among all that have been sent. -/
def sentBy (p : P) (sent : List (P × Message)) : List Message :=
  (sent.filter (·.1 = p)).map Prod.snd

/-- `received` has been received of what has been `sent`. -/
structure Inv (maxmsg : ℕ) (input : P → List UInt8) (s : State P) (received : List Message)
    (sent : List (P × Message)) : Prop where
  fifo : sent.map Prod.snd = received ++ s.queue
  clients : ∀ p, messages (input p) = sentBy p sent ++ (s.sending p).toList ++ messages (s.input p)
  fits : ∀ m ∈ received ++ s.queue, Fits m
  sending : ∀ p, ∀ m ∈ s.sending p, Fits m
  room : s.queue.length ≤ maxmsg
  buf : s.buf = filled received
  length : s.printed.length = received.length
  printed : ∀ k m, received[k]? = some m →
    s.printed[k]? = some (m.length, overlay (received.take (k + 1)))

variable {maxmsg : ℕ} {input : P → List UInt8} {s t : State P} {received : List Message}
  {sent : List (P × Message)}

theorem Inv.read (h : Inv maxmsg input s received sent) {p : P}
    (hs : step maxmsg s (.read p) = some t) : Inv maxmsg input t received sent := by
  simp only [step] at hs
  split_ifs at hs with hidle
  obtain ⟨m, hm, hs⟩ := Option.bind_eq_some_iff.mp hs
  obtain rfl := Option.some.inj hs
  refine ⟨h.fifo, fun q => ?_, h.fits, fun q m' hm' => ?_, h.room, h.buf, h.length, h.printed⟩
  · by_cases hq : q = p
    · subst hq
      have hclient := h.clients q
      rw [hidle.1, messages_eq hidle.2 hm] at hclient
      simpa using hclient
    · simpa [hq] using h.clients q
  · by_cases hq : q = p
    · subst hq
      simp only [Function.update_self, Option.mem_some_iff] at hm'
      exact hm' ▸ fits_prepare hm
    · simp only [ne_eq, hq, not_false_eq_true, Function.update_of_ne] at hm'
      exact h.sending q m' hm'

theorem Inv.send (h : Inv maxmsg input s received sent) {p : P}
    (hs : step maxmsg s (.send p) = some t) :
    ∃ m, Inv maxmsg input t received (sent ++ [(p, m)]) := by
  simp only [step] at hs
  obtain ⟨m, hm, hs⟩ := Option.bind_eq_some_iff.mp hs
  split_ifs at hs with hroom
  obtain rfl := Option.some.inj hs
  refine ⟨m, ⟨?_, fun q => ?_, ?_, fun q m' hm' => ?_, ?_, h.buf, h.length, h.printed⟩⟩
  · rw [List.map_append, h.fifo, List.append_assoc]
    rfl
  · have hclient := h.clients q
    by_cases hq : q = p
    · subst hq
      rw [hm] at hclient
      simpa [sentBy] using hclient
    · simpa [sentBy, hq, Ne.symm hq] using hclient
  · rw [← List.append_assoc, List.forall_mem_append, List.forall_mem_singleton]
    exact ⟨h.fits, h.sending p m hm⟩
  · by_cases hq : q = p
    · subst hq
      simp at hm'
    · simp only [ne_eq, hq, not_false_eq_true, Function.update_of_ne] at hm'
      exact h.sending q m' hm'
  · rw [List.length_append, List.length_singleton]
    exact hroom

theorem Inv.receive (h : Inv maxmsg input s received sent)
    (hs : step maxmsg s .receive = some t) :
    ∃ m, Inv maxmsg input t (received ++ [m]) sent := by
  simp only [step] at hs
  split at hs
  case h_1 m queue hserver hqueue =>
    split_ifs at hs with hbuf
    obtain rfl := Option.some.inj hs
    have hfifo := h.fifo
    have hfits := h.fits
    have hroom := h.room
    rw [hqueue, List.append_cons] at hfifo hfits
    rw [hqueue, List.length_cons] at hroom
    rw [List.forall_mem_append] at hfits
    have hlt (m' : Message) (hm' : m' ∈ received ++ [m]) : m'.length < bufSize :=
      Nat.lt_trans (hfits.1 m' hm').length (by decide)
    rw [List.forall_mem_append, List.forall_mem_singleton] at hlt
    have hfilled := filled_concat hlt.1 hlt.2
    rw [← h.buf] at hfilled
    refine ⟨m, ⟨hfifo, h.clients, ?_, h.sending, Nat.le_of_succ_le hroom, hfilled, ?_, ?_⟩⟩
    · rw [List.forall_mem_append]
      exact hfits
    · rw [List.length_append, List.length_append, h.length]
      rfl
    · intro k m' hk
      simp only [hfilled, (text_filled hfits.1).1]
      rcases Nat.lt_or_ge k received.length with hlt | hge
      · rw [List.getElem?_append_left hlt] at hk
        rw [List.getElem?_append_left (h.length ▸ hlt), List.take_append_of_le_length hlt]
        exact h.printed k m' hk
      · obtain ⟨hlength, -⟩ := List.getElem?_eq_some_iff.mp hk
        rw [List.length_append, List.length_singleton] at hlength
        have heq : k = received.length := by omega
        subst heq
        rw [List.getElem?_concat_length] at hk
        obtain rfl := Option.some.inj hk
        rw [← h.length, List.getElem?_concat_length, h.length, List.take_of_length_le (by simp)]
  case h_2 => cases hs

theorem Inv.step (h : Inv maxmsg input s received sent) {a : Action P}
    (hs : step maxmsg s a = some t) : ∃ received sent, Inv maxmsg input t received sent := by
  cases a with
  | read p => exact ⟨_, _, h.read hs⟩
  | send p =>
      obtain ⟨m, ht⟩ := h.send hs
      exact ⟨_, _, ht⟩
  | test =>
      simp only [MessageQueue.step] at hs
      split_ifs at hs
      all_goals
        obtain rfl := Option.some.inj hs
        exact ⟨_, _, ⟨h.fifo, h.clients, h.fits, h.sending, h.room, h.buf, h.length, h.printed⟩⟩
  | receive =>
      obtain ⟨m, ht⟩ := h.receive hs
      exact ⟨_, _, ht⟩
  | signal =>
      obtain rfl := Option.some.inj hs
      exact ⟨_, _, ⟨h.fifo, h.clients, h.fits, h.sending, h.room, h.buf, h.length, h.printed⟩⟩

theorem inv_init (maxmsg : ℕ) (input : P → List UInt8) :
    Inv maxmsg input (machine maxmsg input).init [] [] :=
  ⟨rfl, fun _ => rfl, by simp [machine], by simp [machine], Nat.zero_le _,
    by simp [machine, filled, overlay], rfl, by simp⟩

end EmbeddedCode.MessageQueue
