import EmbeddedCode.Library.CInt
import EmbeddedCode.Library.Transition
import Mathlib.Data.BitVec

/-!
# The driver behind the double buffer

`ldm_pandisplay` and `pandisplay_handler` of `29doublebuff/03double_buff_interrupt/test.c`. A
call that finds the controller transferring pixels turns the frame interrupt on and sleeps until
the handler has run. Each access to a register or to `wait_condition` is one step, and the
handler runs on any processor between the steps of the call.
-/
namespace EmbeddedCode.DoubleBuffer.PanDisplay

open CInt Transition

def xsize : ℕ := 800
def ysize : ℕ := 480
def pixelSize : ℕ := 4

def lineLength : ℕ := xsize * pixelSize

def frameSize : ℕ := xsize * ysize * pixelSize

/-- Where `ldm_pandisplay` stands, with `var->yoffset`. -/
inductive Pan where
  | idle
  /-- At the test of `VIDCON1[14:13]`. -/
  | testing (yoffset : ℕ)
  | enabling (yoffset : ℕ)
  /-- At `wait_condition = 0`. -/
  | clearing (yoffset : ℕ)
  /-- In `wait_event_interruptible`, at the test of its condition. -/
  | waiting (yoffset : ℕ)
  | asleep (yoffset : ℕ)
  | storingStart (yoffset : ℕ)
  | storingEnd (yoffset : ℕ)
  deriving DecidableEq, Repr

/-- Where `pandisplay_handler` stands. -/
inductive Handler where
  | idle
  | setting
  | waking
  | disabling
  | acking
  deriving DecidableEq, Repr

structure State where
  vidintcon0 : BitVec 32
  /-- Bit 1 of `VIDINTCON1`, which a write of 1 clears. -/
  pending : Bool
  waitCondition : Bool
  pan : Pan
  handler : Handler
  /-- `VIDW00ADD0B0` and `VIDW00ADD1B0`. -/
  startAddr : ℕ
  endAddr : ℕ
  deriving DecidableEq, Repr

inductive Action where
  /-- `FBIOPAN_DISPLAY` with a `yoffset` that the framework has let through. -/
  | call (yoffset : ℕ)
  /-- The test reads `state` from `VIDCON1[14:13]`. -/
  | test (state : BitVec 2)
  | enable
  | clear
  /-- The condition of `wait_event_interruptible` is tested. -/
  | check
  /-- A signal ends the sleep. -/
  | signal
  | storeStart
  | storeEnd
  /-- The controller reaches the front porch of a frame. -/
  | frame
  | irq
  | set
  | wake
  | disable
  | ack
  deriving DecidableEq, Repr

/-- The bit of `VIDINTCON0` that turns the frame interrupt on. -/
def frameEn : BitVec 32 := 1#32 <<< 12

/-- Both bits that the frame interrupt needs. -/
def enabled (vidintcon0 : BitVec 32) : Bool := vidintcon0.getLsbD 0 && vidintcon0.getLsbD 12

def newStart (smemStart yoffset : ℕ) : ℕ := u32 (smemStart + yoffset * lineLength)

def newEnd (smemStart yoffset : ℕ) : ℕ := u32 (smemStart + frameSize + yoffset * lineLength)

namespace State

def stepPan (smemStart : ℕ) (s : State) : Action → Pan → Option State
  | .call yoffset, .idle =>
      if yoffset + ysize ≤ 2 * ysize then some {s with pan := .testing yoffset} else none
  | .test state, .testing y =>
      some {s with pan := if state = 0b10 then .enabling y else .storingStart y}
  | .enable, .enabling y =>
      some {s with vidintcon0 := s.vidintcon0 ||| (1#32 ||| frameEn), pan := .clearing y}
  | .clear, .clearing y => some {s with waitCondition := false, pan := .waiting y}
  | .check, .waiting y =>
      some {s with pan := if s.waitCondition then .storingStart y else .asleep y}
  | .signal, .waiting y | .signal, .asleep y => some {s with pan := .storingStart y}
  | .storeStart, .storingStart y =>
      some {s with startAddr := newStart smemStart y, pan := .storingEnd y}
  | .storeEnd, .storingEnd y => some {s with endAddr := newEnd smemStart y, pan := .idle}
  | _, _ => none

/-- What `wake_up_interruptible` does to the call. -/
def woken : Pan → Pan
  | .asleep y => .waiting y
  | pan => pan

def stepHandler (s : State) : Action → Handler → Option State
  | .irq, .idle => if s.pending then some {s with handler := .setting} else none
  | .set, .setting => some {s with waitCondition := true, handler := .waking}
  | .wake, .waking => some {s with pan := woken s.pan, handler := .disabling}
  | .disable, .disabling =>
      some {s with vidintcon0 := s.vidintcon0 &&& ~~~frameEn, handler := .acking}
  | .ack, .acking => some {s with pending := false, handler := .idle}
  | _, _ => none

def step (smemStart : ℕ) (s : State) (a : Action) : Option State :=
  match a with
  | .frame => some {s with pending := s.pending || enabled s.vidintcon0}
  | .irq | .set | .wake | .disable | .ack => s.stepHandler a s.handler
  | _ => s.stepPan smemStart a s.pan

end State

/-- The driver after `ldm_init`, with the value of `VIDINTCON0` before it. -/
def machine (smemStart : ℕ) (reset : BitVec 32) : Machine State Action where
  init :=
    ⟨(reset &&& ~~~(1#32 ||| frameEn ||| 3#32 <<< 13)) ||| 3#32 <<< 15, false, false, .idle, .idle,
      smemStart, smemStart + frameSize⟩
  step := State.step smemStart

@[simp] theorem enabled_enable (v : BitVec 32) : enabled (v ||| (1#32 ||| frameEn)) = true := by
  simp [enabled, frameEn]

@[simp] theorem enabled_disable (v : BitVec 32) : enabled (v &&& ~~~frameEn) = false := by
  simp [enabled, frameEn]

/-- The call is in `wait_event_interruptible`. -/
def Waits (s : State) (y : ℕ) : Prop := s.pan = .waiting y ∨ s.pan = .asleep y

structure Served (s : State) : Prop where
  idle : s.handler = .idle → s.pending = true → enabled s.vidintcon0 = true
  running : s.handler = .setting ∨ s.handler = .waking ∨ s.handler = .disabling →
    enabled s.vidintcon0 = true

/-- The handler will not come again: the interrupt is off, or about to be turned off by a handler
that has stored the condition already. -/
def Over (s : State) : Prop :=
  s.handler = .waking ∨ s.handler = .disabling ∨
    enabled s.vidintcon0 = false ∧ (s.handler = .acking ∨ s.handler = .idle ∧ s.pending = false)

variable {smemStart : ℕ} {s t : State} {a : Action} {y : ℕ}

/-- What a step does: one case for each place of the call and of the handler. -/
inductive State.Step (smemStart : ℕ) (s : State) : Action → State → Prop
  | call {y : ℕ} : s.pan = .idle → y + ysize ≤ 2 * ysize →
      Step smemStart s (.call y) {s with pan := .testing y}
  | active {y : ℕ} : s.pan = .testing y →
      Step smemStart s (.test 0b10) {s with pan := .enabling y}
  | inactive {y : ℕ} {state : BitVec 2} : s.pan = .testing y → state ≠ 0b10 →
      Step smemStart s (.test state) {s with pan := .storingStart y}
  | enable {y : ℕ} : s.pan = .enabling y → Step smemStart s .enable
      {s with vidintcon0 := s.vidintcon0 ||| (1#32 ||| frameEn), pan := .clearing y}
  | clear {y : ℕ} : s.pan = .clearing y →
      Step smemStart s .clear {s with waitCondition := false, pan := .waiting y}
  | proceed {y : ℕ} : s.pan = .waiting y → s.waitCondition = true →
      Step smemStart s .check {s with pan := .storingStart y}
  | sleep {y : ℕ} : s.pan = .waiting y → s.waitCondition = false →
      Step smemStart s .check {s with pan := .asleep y}
  | signal {y : ℕ} : Waits s y → Step smemStart s .signal {s with pan := .storingStart y}
  | storeStart {y : ℕ} : s.pan = .storingStart y → Step smemStart s .storeStart
      {s with startAddr := newStart smemStart y, pan := .storingEnd y}
  | storeEnd {y : ℕ} : s.pan = .storingEnd y →
      Step smemStart s .storeEnd {s with endAddr := newEnd smemStart y, pan := .idle}
  | frame : Step smemStart s .frame {s with pending := s.pending || enabled s.vidintcon0}
  | irq : s.handler = .idle → s.pending = true →
      Step smemStart s .irq {s with handler := .setting}
  | set : s.handler = .setting →
      Step smemStart s .set {s with waitCondition := true, handler := .waking}
  | wake : s.handler = .waking →
      Step smemStart s .wake {s with pan := State.woken s.pan, handler := .disabling}
  | disable : s.handler = .disabling → Step smemStart s .disable
      {s with vidintcon0 := s.vidintcon0 &&& ~~~frameEn, handler := .acking}
  | ack : s.handler = .acking →
      Step smemStart s .ack {s with pending := false, handler := .idle}

theorem State.step_cases (h : s.step smemStart a = some t) : State.Step smemStart s a t := by
  cases a with
  | call y =>
      cases hp : s.pan <;> simp only [step, stepPan, hp, reduceCtorEq,
        Option.ite_none_right_eq_some, Option.some.injEq] at h
      exact h.2 ▸ .call hp h.1
  | test state =>
      cases hp : s.pan <;> simp only [step, stepPan, hp, reduceCtorEq, Option.some.injEq] at h
      subst h
      split
      · rename_i hstate
        exact hstate ▸ .active hp
      · exact .inactive hp ‹_›
  | enable =>
      cases hp : s.pan <;> simp only [step, stepPan, hp, reduceCtorEq, Option.some.injEq] at h
      exact h ▸ .enable hp
  | clear =>
      cases hp : s.pan <;> simp only [step, stepPan, hp, reduceCtorEq, Option.some.injEq] at h
      exact h ▸ .clear hp
  | check =>
      cases hp : s.pan <;> simp only [step, stepPan, hp, reduceCtorEq, Option.some.injEq] at h
      subst h
      split
      · exact .proceed hp ‹_›
      · exact .sleep hp (by simpa using ‹¬ s.waitCondition = true›)
  | signal =>
      cases hp : s.pan <;> simp only [step, stepPan, hp, reduceCtorEq, Option.some.injEq] at h
      · exact h ▸ .signal (.inl hp)
      · exact h ▸ .signal (.inr hp)
  | storeStart =>
      cases hp : s.pan <;> simp only [step, stepPan, hp, reduceCtorEq, Option.some.injEq] at h
      exact h ▸ .storeStart hp
  | storeEnd =>
      cases hp : s.pan <;> simp only [step, stepPan, hp, reduceCtorEq, Option.some.injEq] at h
      exact h ▸ .storeEnd hp
  | frame =>
      simp only [step, Option.some.injEq] at h
      exact h ▸ .frame
  | irq =>
      cases hh : s.handler <;> simp only [step, stepHandler, hh, reduceCtorEq,
        Option.ite_none_right_eq_some, Option.some.injEq] at h
      exact h.2 ▸ .irq hh h.1
  | set =>
      cases hh : s.handler <;> simp only [step, stepHandler, hh, reduceCtorEq,
        Option.some.injEq] at h
      exact h ▸ .set hh
  | wake =>
      cases hh : s.handler <;> simp only [step, stepHandler, hh, reduceCtorEq,
        Option.some.injEq] at h
      exact h ▸ .wake hh
  | disable =>
      cases hh : s.handler <;> simp only [step, stepHandler, hh, reduceCtorEq,
        Option.some.injEq] at h
      exact h ▸ .disable hh
  | ack =>
      cases hh : s.handler <;> simp only [step, stepHandler, hh, reduceCtorEq,
        Option.some.injEq] at h
      exact h ▸ .ack hh

theorem Served.step (h : Served s) (hs : s.step smemStart a = some t) : Served t := by
  obtain ⟨hidle, hrunning⟩ := h
  cases State.step_cases hs with
  | frame =>
      refine ⟨fun hh hp => ?_, hrunning⟩
      rw [Bool.or_eq_true] at hp
      exact hp.elim (hidle hh) id
  | _ => constructor <;> simp_all

/-- What keeps a call asleep for good. -/
structure Stuck (s : State) (y : ℕ) : Prop where
  waits : Waits s y
  condition : s.waitCondition = false
  past : Over s

theorem Stuck.step (h : Stuck s y) (ha : a ≠ .signal) (hs : s.step smemStart a = some t) :
    Stuck t y ∧ t.startAddr = s.startAddr ∧ t.endAddr = s.endAddr := by
  obtain ⟨hw, hc, ho⟩ := h
  cases State.step_cases hs with
  | sleep hp _ =>
      obtain rfl : y = _ := by simpa [Waits, hp, eq_comm] using hw
      exact ⟨⟨.inr rfl, hc, ho⟩, rfl, rfl⟩
  | frame =>
      refine ⟨⟨hw, hc, ?_⟩, rfl, rfl⟩
      unfold Over at *
      cases henabled : enabled s.vidintcon0 <;> simp_all
  | wake hh =>
      refine ⟨⟨?_, hc, .inr (.inl rfl)⟩, rfl, rfl⟩
      rcases hw with hw | hw <;> simp [Waits, State.woken, hw]
  | disable hh => exact ⟨⟨hw, hc, .inr (.inr ⟨by simp, .inl rfl⟩)⟩, rfl, rfl⟩
  | ack hh =>
      refine ⟨⟨hw, hc, ?_⟩, rfl, rfl⟩
      unfold Over at *
      simp_all
  | _ => simp_all [Waits, Over]

theorem Stuck.run {schedule : List Action} (h : Stuck s y) (hsig : .signal ∉ schedule)
    {reset : BitVec 32} (hr : (machine smemStart reset).run s schedule = some t) :
    Stuck t y ∧ t.startAddr = s.startAddr ∧ t.endAddr = s.endAddr := by
  induction schedule generalizing s with
  | nil =>
      cases hr
      exact ⟨h, rfl, rfl⟩
  | cons a schedule ih =>
      rw [Machine.run_cons] at hr
      obtain ⟨u, hu, hr⟩ := Option.bind_eq_some_iff.mp hr
      rw [List.mem_cons, not_or] at hsig
      obtain ⟨hstuck, hstart, hend⟩ := h.step (Ne.symm hsig.1) hu
      obtain ⟨hstuck', hstart', hend'⟩ := ih hstuck hsig.2 hr
      exact ⟨hstuck', hstart'.trans hstart, hend'.trans hend⟩

/-- When the condition is cleared, the interrupt is on and will stay on until the handler has set
the condition again. -/
def OnTime (s : State) : Prop :=
  enabled s.vidintcon0 = true ∧ s.handler ≠ .waking ∧ s.handler ≠ .disabling

theorem reachable_served {reset : BitVec 32} (h : (machine smemStart reset).Reachable s) :
    Served s := by
  apply Machine.Reachable.invariant (I := Served) _ _ h
  · constructor <;> simp [machine]
  · intro s a t hi hs
    exact hi.step hs

/-- The call has ended and shows the frame of its `yoffset`. -/
structure Completed (smemStart y : ℕ) (s : State) : Prop where
  idle : s.pan = .idle
  start : s.startAddr = newStart smemStart y
  finish : s.endAddr = newEnd smemStart y

/-- Where a call may be that has cleared its condition in time. -/
inductive Underway (smemStart y : ℕ) (s : State) : Prop
  | expecting : Waits s y → s.waitCondition = false → enabled s.vidintcon0 = true →
      s.handler = .idle ∨ s.handler = .setting ∨ s.handler = .acking → Underway smemStart y s
  | ready : s.pan = .waiting y → s.waitCondition = true → Underway smemStart y s
  | sleeping : s.pan = .asleep y → s.waitCondition = true → s.handler = .waking →
      Underway smemStart y s
  | start : s.pan = .storingStart y → Underway smemStart y s
  | finish : s.pan = .storingEnd y → s.startAddr = newStart smemStart y → Underway smemStart y s

namespace State

def handlerLeft (s : State) : ℕ :=
  match s.handler with
  | .idle => if enabled s.vidintcon0 then 5 else 0
  | .setting => 4
  | .waking => 3
  | .disabling => 2
  | .acking => if enabled s.vidintcon0 then 6 else 1

def panLeft (s : State) : ℕ :=
  match s.pan with
  | .waiting _ => if s.waitCondition then 3 else 5
  | .asleep _ => 4
  | .storingStart _ => 2
  | .storingEnd _ => 1
  | _ => 0

def left (s : State) : ℕ := s.handlerLeft + s.panLeft

end State

/-- The steps of a schedule that are no frames. -/
def worked (schedule : List Action) : ℕ := schedule.countP (· != .frame)

theorem worked_cons (a : Action) (schedule : List Action) :
    worked (a :: schedule) = worked schedule + worked [a] := by
  simp [worked, List.countP_cons]

theorem OnTime.underway (h : OnTime s) (hpan : s.pan = .clearing y)
    (hs : s.step smemStart .clear = some t) : Underway smemStart y t ∧ t.left ≤ 11 := by
  obtain ⟨henabled, hwaking, hdisabling⟩ := h
  cases State.step_cases hs with
  | clear hp =>
      obtain rfl : y = _ := by simpa [hp, eq_comm] using hpan
      refine ⟨.expecting (.inl rfl) rfl henabled ?_, ?_⟩
      · cases hh : s.handler <;> simp_all
      · cases hh : s.handler <;> simp_all [State.left, State.handlerLeft, State.panLeft]

theorem Underway.pan (h : Underway smemStart y s) :
    Waits s y ∨ s.pan = .storingStart y ∨ s.pan = .storingEnd y := by
  cases h with
  | expecting hw _ _ _ => exact .inl hw
  | ready hp _ => exact .inl (.inl hp)
  | sleeping hp _ _ => exact .inl (.inr hp)
  | start hp => exact .inr (.inl hp)
  | finish hp _ => exact .inr (.inr hp)

theorem Underway.of_handler (h : Underway smemStart y s) (hpan : t.pan = s.pan)
    (hcond : t.waitCondition = s.waitCondition) (haddr : t.startAddr = s.startAddr)
    (hexpecting : enabled s.vidintcon0 = true →
      s.handler = .idle ∨ s.handler = .setting ∨ s.handler = .acking →
        enabled t.vidintcon0 = true ∧
          (t.handler = .idle ∨ t.handler = .setting ∨ t.handler = .acking))
    (hwaking : s.handler = .waking → t.handler = .waking) :
    Underway smemStart y t ∧ t.panLeft = s.panLeft := by
  refine ⟨?_, by unfold State.panLeft; rw [hpan, hcond]⟩
  cases h with
  | expecting hw hc he hh =>
      obtain ⟨he', hh'⟩ := hexpecting he hh
      refine .expecting ?_ (hcond.trans hc) he' hh'
      rwa [Waits, hpan]
  | ready hp hc => exact .ready (hpan.trans hp) (hcond.trans hc)
  | sleeping hp hc hh => exact .sleeping (hpan.trans hp) (hcond.trans hc) (hwaking hh)
  | start hp => exact .start (hpan.trans hp)
  | finish hp ha => exact .finish (hpan.trans hp) (haddr.trans ha)

theorem Underway.setting (h : Underway smemStart y s) :
    Underway smemStart y {s with waitCondition := true, handler := .waking} ∧
      State.panLeft {s with waitCondition := true, handler := .waking} ≤ s.panLeft := by
  rcases h.pan with (hp | hp) | hp | hp
  · refine ⟨.ready hp rfl, ?_⟩
    cases hc : s.waitCondition <;> simp [State.panLeft, hp, hc]
  · exact ⟨.sleeping hp rfl rfl, by simp [State.panLeft, hp]⟩
  · exact ⟨.start hp, by simp [State.panLeft, hp]⟩
  · refine ⟨?_, by simp [State.panLeft, hp]⟩
    cases h with
    | finish _ ha => exact .finish hp ha
    | expecting hw _ _ _ => simp [Waits, hp] at hw
    | ready hp' _ | sleeping hp' _ _ | start hp' => simp [hp] at hp'

/-- The call that sleeps is woken, and finds its condition. -/
theorem Underway.waking (h : Underway smemStart y s) (hh : s.handler = .waking) :
    Underway smemStart y {s with pan := State.woken s.pan, handler := .disabling} ∧
      State.panLeft {s with pan := State.woken s.pan, handler := .disabling} ≤ s.panLeft := by
  cases h with
  | expecting _ _ _ hno => simp [hh] at hno
  | ready hp hc =>
      exact ⟨.ready (by simp [State.woken, hp]) hc, by simp [State.panLeft, State.woken, hp]⟩
  | sleeping hp hc _ =>
      exact ⟨.ready (by simp [State.woken, hp]) hc, by simp [State.panLeft, State.woken, hp, hc]⟩
  | start hp =>
      exact ⟨.start (by simp [State.woken, hp]), by simp [State.panLeft, State.woken, hp]⟩
  | finish hp ha =>
      exact ⟨.finish (by simp [State.woken, hp]) ha, by simp [State.panLeft, State.woken, hp]⟩

/-- A frame leaves everything as it is, and any other step of the call or of the handler brings
the end nearer. -/
theorem Underway.step (h : Underway smemStart y s) (hserved : Served s) (ha : a ≠ .signal)
    (hs : s.step smemStart a = some t) :
    Completed smemStart y t ∨ Underway smemStart y t ∧ worked [a] + t.left ≤ s.left := by
  have hpan := h.pan
  have hone : worked [a] ≤ 1 := List.countP_le_length
  cases State.step_cases hs with
  | call hp _ | active hp | inactive hp _ | enable hp | clear hp => simp [Waits, hp] at hpan
  | proceed hp hc =>
      obtain rfl : y = _ := by simpa [Waits, hp, eq_comm] using hpan
      refine .inr ⟨.start rfl, ?_⟩
      simp only [State.left, State.handlerLeft, State.panLeft, hp, hc, if_true]
      omega
  | sleep hp hc =>
      obtain rfl : y = _ := by simpa [Waits, hp, eq_comm] using hpan
      cases h with
      | expecting _ _ he hh =>
          refine .inr ⟨.expecting (.inr rfl) hc he hh, ?_⟩
          simp only [State.left, State.handlerLeft, State.panLeft, hp, hc]
          simp only [Bool.false_eq_true, if_false]
          omega
      | ready _ hc' => simp [hc] at hc'
      | sleeping hp' _ _ | start hp' | finish hp' _ => simp [hp] at hp'
  | signal _ => exact absurd rfl ha
  | storeStart hp =>
      obtain rfl : y = _ := by simpa [Waits, hp, eq_comm] using hpan
      refine .inr ⟨.finish rfl rfl, ?_⟩
      simp only [State.left, State.handlerLeft, State.panLeft, hp]
      omega
  | storeEnd hp =>
      obtain rfl : y = _ := by simpa [Waits, hp, eq_comm] using hpan
      cases h with
      | finish _ haddr => exact .inl ⟨rfl, haddr, rfl⟩
      | expecting hw _ _ _ => simp [Waits, hp] at hw
      | ready hp' _ | sleeping hp' _ _ | start hp' => simp [hp] at hp'
  | frame =>
      obtain ⟨hunder, hleft⟩ := h.of_handler
        (t := {s with pending := s.pending || enabled s.vidintcon0}) rfl rfl rfl
        (fun he hh => ⟨he, hh⟩) id
      exact .inr ⟨hunder, by simp [worked, State.left, State.handlerLeft, hleft]⟩
  | irq hh hp =>
      have henabled := hserved.idle hh hp
      obtain ⟨hunder, hleft⟩ := h.of_handler (t := {s with handler := .setting}) rfl rfl rfl
        (fun he _ => ⟨he, .inr (.inl rfl)⟩) (by simp [hh])
      refine .inr ⟨hunder, ?_⟩
      rw [State.left, State.left, hleft]
      simp only [State.handlerLeft, hh, henabled, if_true]
      omega
  | set hh =>
      obtain ⟨hunder, hleft⟩ := h.setting
      refine .inr ⟨hunder, ?_⟩
      simp only [State.left, State.handlerLeft, hh]
      omega
  | wake hh =>
      obtain ⟨hunder, hleft⟩ := h.waking hh
      refine .inr ⟨hunder, ?_⟩
      simp only [State.left, State.handlerLeft, hh]
      omega
  | disable hh =>
      obtain ⟨hunder, hleft⟩ := h.of_handler
        (t := {s with vidintcon0 := s.vidintcon0 &&& ~~~frameEn, handler := .acking}) rfl rfl rfl
        (by simp [hh]) (by simp [hh])
      refine .inr ⟨hunder, ?_⟩
      rw [State.left, State.left, hleft]
      simp only [State.handlerLeft, hh, enabled_disable, Bool.false_eq_true, if_false]
      omega
  | ack hh =>
      obtain ⟨hunder, hleft⟩ := h.of_handler (t := {s with pending := false, handler := .idle}) rfl
        rfl rfl (fun he _ => ⟨he, .inl rfl⟩) (by simp [hh])
      refine .inr ⟨hunder, ?_⟩
      rw [State.left, State.left, hleft]
      simp only [State.handlerLeft, hh]
      split_ifs <;> omega

theorem Underway.left_pos (h : Underway smemStart y s) : 0 < s.left := by
  unfold State.left
  suffices hpan : 0 < s.panLeft by omega
  unfold State.panLeft
  cases h with
  | expecting hw hc _ _ => rcases hw with hw | hw <;> simp [hw, hc]
  | ready hp hc => simp [hp, hc]
  | sleeping hp _ _ => simp [hp]
  | start hp => simp [hp]
  | finish hp _ => simp [hp]

/-- A call that is underway can go on, if not now then behind the next frame. -/
theorem Underway.goes_on (h : Underway smemStart y s) :
    ∃ a, a ≠ .frame ∧ a ≠ .signal ∧ ((s.step smemStart a).isSome ∨
      ∃ t, s.step smemStart .frame = some t ∧ (t.step smemStart a).isSome) := by
  have hcheck (hp : s.pan = .waiting y) : ∃ a, a ≠ .frame ∧ a ≠ .signal ∧
      ((s.step smemStart a).isSome ∨
        ∃ t, s.step smemStart .frame = some t ∧ (t.step smemStart a).isSome) :=
    ⟨.check, by simp, by simp, .inl (by simp [State.step, State.stepPan, hp])⟩
  cases h with
  | expecting hw hc he hh =>
      rcases hw with hp | hp
      · exact hcheck hp
      · rcases hh with hh | hh | hh
        · refine ⟨.irq, by simp, by simp, .inr ⟨_, rfl, ?_⟩⟩
          simp [State.step, State.stepHandler, hh, he]
        · exact ⟨.set, by simp, by simp, .inl (by simp [State.step, State.stepHandler, hh])⟩
        · exact ⟨.ack, by simp, by simp, .inl (by simp [State.step, State.stepHandler, hh])⟩
  | ready hp _ => exact hcheck hp
  | sleeping _ _ hh =>
      exact ⟨.wake, by simp, by simp, .inl (by simp [State.step, State.stepHandler, hh])⟩
  | start hp =>
      exact ⟨.storeStart, by simp, by simp, .inl (by simp [State.step, State.stepPan, hp])⟩
  | finish hp _ =>
      exact ⟨.storeEnd, by simp, by simp, .inl (by simp [State.step, State.stepPan, hp])⟩

/-- The call ends with its addresses, or it has made few steps and can go on. -/
theorem Underway.run {reset : BitVec 32} {schedule : List Action} (h : Underway smemStart y s)
    (hserved : Served s) (hsig : .signal ∉ schedule)
    (hr : (machine smemStart reset).run s schedule = some t) :
    (∃ before after u, schedule = before ++ after ∧
      (machine smemStart reset).run s before = some u ∧ Completed smemStart y u) ∨
    Underway smemStart y t ∧ worked schedule + t.left ≤ s.left := by
  induction schedule generalizing s with
  | nil =>
      cases hr
      exact .inr ⟨h, by simp [worked]⟩
  | cons a schedule ih =>
      rw [Machine.run_cons] at hr
      obtain ⟨u, hu, hr⟩ := Option.bind_eq_some_iff.mp hr
      rw [List.mem_cons, not_or] at hsig
      rcases h.step hserved (Ne.symm hsig.1) hu with hdone | ⟨hunder, hleft⟩
      · refine .inl ⟨[a], schedule, u, rfl, ?_, hdone⟩
        rw [Machine.run_cons, hu]
        rfl
      · rcases ih hunder (hserved.step hu) hsig.2 hr with ⟨before, after, v, rfl, hv, hdone⟩ | hrest
        · refine .inl ⟨a :: before, after, v, rfl, ?_, hdone⟩
          rw [Machine.run_cons, hu]
          exact hv
        · have hcons := worked_cons a schedule
          exact .inr ⟨hrest.1, by omega⟩

theorem Served.stuck (h : Served s) (hpan : s.pan = .clearing y) (htime : ¬ OnTime s)
    (hs : s.step smemStart .clear = some t) : Stuck t y := by
  obtain ⟨v, pending, condition, pan, handler, startAddr, endAddr⟩ := s
  obtain rfl : pan = .clearing y := hpan
  cases hs
  refine ⟨.inl rfl, rfl, ?_⟩
  by_cases henabled : enabled v = true
  · have hlate : handler = .waking ∨ handler = .disabling := by
      by_contra hno
      rw [not_or] at hno
      exact htime ⟨henabled, hno.1, hno.2⟩
    exact hlate.imp id .inl
  · obtain ⟨hidle, hrunning⟩ := h
    cases handler <;> simp_all [Over]

/-- A call that has turned the interrupt on, in every continuation without a signal. If it has
cleared its condition in time, it ends with the new addresses in the registers: as long as it has
not ended, the handler and the call have made ten steps at most, and one of them can go on, if not
now then behind the next frame. Otherwise no frame wakes it, and the registers keep the addresses
that they have. -/
theorem pan_completes_iff {reset : BitVec 32} (h : (machine smemStart reset).Reachable s)
    (hpan : s.pan = .clearing y) (hs : s.step smemStart .clear = some t) {schedule : List Action}
    (hsig : .signal ∉ schedule) {u : State}
    (hr : (machine smemStart reset).run t schedule = some u) :
    (OnTime s →
      (∃ before after v, schedule = before ++ after ∧
        (machine smemStart reset).run t before = some v ∧ Completed smemStart y v) ∨
      worked schedule ≤ 10 ∧ ∃ a, a ≠ .frame ∧ a ≠ .signal ∧ ((u.step smemStart a).isSome ∨
        ∃ v, u.step smemStart .frame = some v ∧ (v.step smemStart a).isSome)) ∧
    (¬ OnTime s → Waits u y ∧ u.startAddr = s.startAddr ∧ u.endAddr = s.endAddr) := by
  have hserved := reachable_served h
  constructor
  · intro htime
    obtain ⟨hunder, hleft⟩ := htime.underway hpan hs
    rcases hunder.run (hserved.step hs) hsig hr with hdone | ⟨hunder', hworked⟩
    · exact .inl hdone
    · have hpos := hunder'.left_pos
      exact .inr ⟨by omega, hunder'.goes_on⟩
  · intro htime
    obtain ⟨hw, hstart, hend⟩ := (hserved.stuck hpan htime hs).run hsig hr
    cases State.step_cases hs
    exact ⟨hw.waits, hstart, hend⟩

/-- The handler has run between the enabling of the interrupt and the clearing of the condition,
and the call sleeps for good. -/
theorem pan_completes_late :
    ∃ u, (machine 0x60000000 0).run
        ⟨0x18001, false, false, .waiting 480, .idle, 0x60000000, 0x60000000 + frameSize⟩
        [.check, .frame, .frame] = some u ∧
      Waits u 480 ∧ u.startAddr = 0x60000000 := by
  have hreach : (machine 0x60000000 0).Reachable
      ⟨0x18001, false, true, .clearing 480, .idle, 0x60000000, 0x60000000 + frameSize⟩ :=
    Machine.Reachable.run .start (show (machine 0x60000000 0).run (machine 0x60000000 0).init
      [.call 480, .test 0b10, .enable, .frame, .irq, .set, .wake, .disable, .ack] = some _ from rfl)
  have hlate : ¬ OnTime (⟨0x18001, false, true, .clearing 480, .idle, 0x60000000,
      0x60000000 + frameSize⟩ : State) := fun htime => absurd htime.1 (by decide)
  have hrun : (machine 0x60000000 0).run
      ⟨0x18001, false, false, .waiting 480, .idle, 0x60000000, 0x60000000 + frameSize⟩
      [.check, .frame, .frame] = some _ := rfl
  obtain ⟨hwaits, hstart, -⟩ := (pan_completes_iff hreach rfl rfl (by decide) hrun).2 hlate
  exact ⟨_, hrun, hwaits, hstart⟩

/-- The `yoffset` of a call leaves room for a frame behind it. -/
def Pan.Within : Pan → Prop
  | .idle => True
  | .testing y | .enabling y | .clearing y | .waiting y | .asleep y | .storingStart y
  | .storingEnd y => y ≤ ysize

/-- The registers hold the window of one frame in the memory, except that its start is that of
the next one already between the two stores. -/
structure Window (smemStart : ℕ) (s : State) : Prop where
  within : s.pan.Within
  start : ∃ y ≤ ysize, s.startAddr = smemStart + y * lineLength
  finish : ∃ y ≤ ysize, s.endAddr = smemStart + frameSize + y * lineLength
  whole : (∀ y, s.pan ≠ .storingEnd y) → s.endAddr = s.startAddr + frameSize
  half : ∀ y, s.pan = .storingEnd y → s.startAddr = smemStart + y * lineLength

theorem newStart_eq (hmem : smemStart + 2 * frameSize < 2 ^ 32) (hy : y ≤ ysize) :
    newStart smemStart y = smemStart + y * lineLength ∧
      newEnd smemStart y = newStart smemStart y + frameSize := by
  have hle : y * lineLength ≤ frameSize := by
    simp only [ysize, lineLength, frameSize, xsize, pixelSize] at *
    omega
  unfold newStart newEnd
  rw [u32_of_lt (by omega), u32_of_lt (by omega)]
  omega

theorem Window.goto (h : Window smemStart s) (hpan : ∀ y, s.pan ≠ .storingEnd y)
    (hpan' : ∀ y, t.pan ≠ .storingEnd y) (hw : t.pan.Within)
    (haddr : t.startAddr = s.startAddr ∧ t.endAddr = s.endAddr) : Window smemStart t where
  within := hw
  start := haddr.1 ▸ h.start
  finish := haddr.2 ▸ h.finish
  whole _ := by rw [haddr.1, haddr.2, h.whole hpan]
  half y hy := absurd hy (hpan' y)

theorem Window.step (hmem : smemStart + 2 * frameSize < 2 ^ 32) (h : Window smemStart s)
    (hs : s.step smemStart a = some t) : Window smemStart t := by
  have hw := h.within
  cases State.step_cases hs with
  | call hp hle =>
      exact h.goto (by simp [hp]) (by simp) (show _ ≤ ysize by omega) ⟨rfl, rfl⟩
  | active hp =>
      rw [hp] at hw
      exact h.goto (by simp [hp]) (by simp) hw ⟨rfl, rfl⟩
  | inactive hp _ =>
      rw [hp] at hw
      exact h.goto (by simp [hp]) (by simp) hw ⟨rfl, rfl⟩
  | enable hp =>
      rw [hp] at hw
      exact h.goto (by simp [hp]) (by simp) hw ⟨rfl, rfl⟩
  | clear hp =>
      rw [hp] at hw
      exact h.goto (by simp [hp]) (by simp) hw ⟨rfl, rfl⟩
  | proceed hp _ =>
      rw [hp] at hw
      exact h.goto (by simp [hp]) (by simp) hw ⟨rfl, rfl⟩
  | sleep hp _ =>
      rw [hp] at hw
      exact h.goto (by simp [hp]) (by simp) hw ⟨rfl, rfl⟩
  | signal hwaits =>
      rcases hwaits with hp | hp
      · rw [hp] at hw
        exact h.goto (by simp [hp]) (by simp) hw ⟨rfl, rfl⟩
      · rw [hp] at hw
        exact h.goto (by simp [hp]) (by simp) hw ⟨rfl, rfl⟩
  | storeStart hp =>
      rw [hp] at hw
      have hnew := (newStart_eq hmem hw).1
      refine ⟨hw, ⟨_, hw, hnew⟩, h.finish, fun hno => absurd rfl (hno _), ?_⟩
      rintro y ⟨rfl⟩
      exact hnew
  | storeEnd hp =>
      rw [hp] at hw
      obtain ⟨hnew, hnew'⟩ := newStart_eq hmem hw
      have hstart := h.half _ hp
      refine ⟨trivial, ⟨_, hw, hstart⟩, ⟨_, hw, ?_⟩, fun _ => ?_, by simp⟩
      · simp only [hnew', hnew]
        omega
      · simp only [hnew', hnew, hstart]
  | wake hh =>
      have hwoken : (State.woken s.pan).Within := by
        cases hp : s.pan <;> rw [hp] at hw <;> exact hw
      have hlast (y : ℕ) : State.woken s.pan = .storingEnd y ↔ s.pan = .storingEnd y := by
        cases s.pan <;> simp [State.woken]
      exact ⟨hwoken, h.start, h.finish, fun hno => h.whole fun y hy => hno y ((hlast y).mpr hy),
        fun y hy => h.half y ((hlast y).mp hy)⟩
  | frame => exact ⟨hw, h.start, h.finish, h.whole, h.half⟩
  | irq _ _ => exact ⟨hw, h.start, h.finish, h.whole, h.half⟩
  | set _ => exact ⟨hw, h.start, h.finish, h.whole, h.half⟩
  | disable _ => exact ⟨hw, h.start, h.finish, h.whole, h.half⟩
  | ack _ => exact ⟨hw, h.start, h.finish, h.whole, h.half⟩

/-- Whatever calls, frames and signals come in which order, the controller is never told to read
outside of the frame buffer, and except between the two stores of a call it is told to read
exactly one frame from the line of a `yoffset` on. -/
theorem window_in_memory {reset : BitVec 32} (hmem : smemStart + 2 * frameSize < 2 ^ 32)
    (h : (machine smemStart reset).Reachable s) :
    (smemStart ≤ s.startAddr ∧ s.startAddr ≤ smemStart + frameSize) ∧
      (smemStart + frameSize ≤ s.endAddr ∧ s.endAddr ≤ smemStart + 2 * frameSize) ∧
      (∃ y ≤ ysize, s.startAddr = smemStart + y * lineLength) ∧
      ((∀ y, s.pan ≠ .storingEnd y) → s.endAddr = s.startAddr + frameSize) := by
  have hwindow : Window smemStart s := by
    apply Machine.Reachable.invariant (I := Window smemStart) _ _ h
    · exact ⟨trivial, ⟨0, by simp, by simp [machine]⟩, ⟨0, by simp, by simp [machine]⟩,
        fun _ => rfl, by simp [machine]⟩
    · intro s a t hi hs
      exact hi.step hmem hs
  obtain ⟨y, hy, hstart⟩ := hwindow.start
  obtain ⟨z, hz, hend⟩ := hwindow.finish
  refine ⟨?_, ?_, hwindow.start, hwindow.whole⟩
  · simp only [ysize, lineLength, frameSize, xsize, pixelSize] at *
    omega
  · simp only [ysize, lineLength, frameSize, xsize, pixelSize] at *
    omega

/-- The second frame is shown from the front porch of the first one on. -/
theorem window_in_memory_second :
    (0x60000000 ≤ 0x60177000 ∧ 0x60177000 ≤ 0x60000000 + frameSize) ∧
      (0x60000000 + frameSize ≤ 0x602ee000 ∧ 0x602ee000 ≤ 0x60000000 + 2 * frameSize) ∧
      (∃ y ≤ ysize, 0x60177000 = 0x60000000 + y * lineLength) ∧
      ((∀ y, Pan.idle ≠ .storingEnd y) → 0x602ee000 = 0x60177000 + frameSize) := by
  have hreach : (machine 0x60000000 0).Reachable
      ⟨0x19001, true, true, .idle, .waking, 0x60177000, 0x602ee000⟩ :=
    Machine.Reachable.run .start (show (machine 0x60000000 0).run (machine 0x60000000 0).init
      [.call 480, .test 0b10, .enable, .clear, .check, .frame, .irq, .set, .signal, .storeStart,
        .storeEnd] = some _ from rfl)
  exact window_in_memory (by decide) hreach

end EmbeddedCode.DoubleBuffer.PanDisplay
