import EmbeddedCode.Library.Transition
import Mathlib.Data.Int.Notation
import Mathlib.Data.Nat.Notation
import Mathlib.Logic.Function.Basic

/-!
# Requests that wait for each other's children

The threads of the pool run `cgi_handler` of `3http_V04/src/up_cgi.c` in one
process. Each request forks a child and calls `wait`, which reaps any child of the
process that has exited. Children are numbered in the order of the forks, so a
number is never used again.
-/
namespace EmbeddedCode.Cgi.Wait

open Transition

/-- Where a thread stands in `cgi_handler`. -/
inductive Pc where
  | idle
  /-- It has forked `child`, and `wait` is next. -/
  | waiting (child : ℕ)
  /-- It has forked `child`, `wait` has returned, and the status line is next. -/
  | replying (child : ℕ) (n : ℤ)
  deriving DecidableEq, Repr

structure State (T : Type) where
  forks : ℕ
  /-- The exit status of each child that has exited. -/
  status : ℕ → Option ℤ
  reaped : ℕ → Bool
  thread : T → Pc
  /-- The children forked for the requests that are served, with the codes sent. -/
  sent : List (ℕ × ℕ)

inductive Action (T : Type) where
  | fork (t : T)
  | exit (child : ℕ) (n : ℤ)
  | wait (t : T) (child : ℕ)
  /-- `wait` fails because there is no child, and leaves `n = 0`. -/
  | waitFails (t : T)
  | reply (t : T)

def statusCode (n : ℤ) : ℕ := if n ≠ 0 then 500 else 200

variable {T : Type} [DecidableEq T]

namespace State

def setThread (s : State T) (t : T) (pc : Pc) : State T :=
  {s with thread := Function.update s.thread t pc}

/-- A child that has been forked and not been reaped. -/
def IsChild (s : State T) (child : ℕ) : Prop := child < s.forks ∧ s.reaped child = false

instance (s : State T) (child : ℕ) : Decidable (s.IsChild child) :=
  inferInstanceAs (Decidable (_ ∧ _))

def step (s : State T) : Action T → Option (State T)
  | .fork t =>
      match s.thread t with
      | .idle => some ({s with forks := s.forks + 1}.setThread t (.waiting s.forks))
      | _ => none
  | .exit child n =>
      if s.IsChild child ∧ s.status child = none then
        some {s with status := Function.update s.status child (some n)}
      else none
  | .wait t child =>
      match s.thread t, s.status child with
      | .waiting own, some n =>
          if s.IsChild child then
            some ({s with reaped := Function.update s.reaped child true}.setThread t
              (.replying own n))
          else none
      | _, _ => none
  | .waitFails t =>
      match s.thread t with
      | .waiting own =>
          if ∀ child < s.forks, ¬ s.IsChild child then some (s.setThread t (.replying own 0))
          else none
      | _ => none
  | .reply t =>
      match s.thread t with
      | .replying own n =>
          some ({s with sent := s.sent ++ [(own, statusCode n)]}.setThread t .idle)
      | _ => none

end State

def machine (T : Type) [DecidableEq T] : Machine (State T) (Action T) where
  init := ⟨0, fun _ => none, fun _ => false, fun _ => .idle, []⟩
  step := State.step

variable {s s' : State T} {a : Action T}

/-- What each step does. -/
inductive State.Step (s : State T) : Action T → State T → Prop
  | fork {t : T} : s.thread t = .idle →
      Step s (.fork t) ({s with forks := s.forks + 1}.setThread t (.waiting s.forks))
  | exit {child : ℕ} {n : ℤ} : s.IsChild child → s.status child = none →
      Step s (.exit child n) {s with status := Function.update s.status child (some n)}
  | wait {t : T} {child own : ℕ} {n : ℤ} : s.thread t = .waiting own → s.IsChild child →
      s.status child = some n → Step s (.wait t child)
        ({s with reaped := Function.update s.reaped child true}.setThread t (.replying own n))
  | waitFails {t : T} {own : ℕ} : s.thread t = .waiting own →
      (∀ child, ¬ s.IsChild child) → Step s (.waitFails t) (s.setThread t (.replying own 0))
  | reply {t : T} {own : ℕ} {n : ℤ} : s.thread t = .replying own n →
      Step s (.reply t)
        ({s with sent := s.sent ++ [(own, statusCode n)]}.setThread t .idle)

theorem State.step_cases (h : s.step a = some s') : s.Step a s' := by
  cases a with
  | fork t =>
      cases ht : s.thread t <;> simp only [State.step, ht] at h <;> cases h
      exact .fork ht
  | exit child n =>
      simp only [State.step] at h
      split_ifs at h with hc
      cases h
      exact .exit hc.1 hc.2
  | wait t child =>
      cases ht : s.thread t <;> cases hn : s.status child <;>
        simp only [State.step, ht, hn] at h <;> try cases h
      split_ifs at h with hc
      cases h
      exact .wait ht hc hn
  | waitFails t =>
      cases ht : s.thread t <;> simp only [State.step, ht] at h <;> try cases h
      split_ifs at h with hc
      cases h
      exact .waitFails ht fun child hchild => hc child hchild.1 hchild
  | reply t =>
      cases ht : s.thread t <;> simp only [State.step, ht] at h <;> cases h
      exact .reply ht

/-- Every code sent is the one for the exit status of the child of the same request. -/
def Own (s : State T) : Prop :=
  ∀ p ∈ s.sent, ∃ n, s.status p.1 = some n ∧ p.2 = statusCode n

/-- A thread calls `wait` when its own child has exited, and all the exited children that it
could reap have a status of the same kind. -/
def waitSafe (s : State T) : Action T → Prop
  | .wait t _ => ∀ own, s.thread t = .waiting own → ∃ n, s.status own = some n ∧
      ∀ child m, s.IsChild child → s.status child = some m → statusCode m = statusCode n
  | _ => True

theorem status_step (h : s.Step a s') {child : ℕ} {n : ℤ} (hn : s.status child = some n) :
    s'.status child = some n := by
  cases h with
  | exit _ hnone =>
      have hne : child ≠ _ := fun heq => absurd (hnone.symm.trans (heq ▸ hn)) (by simp)
      exact (Function.update_of_ne hne _ _).trans hn
  | _ => exact hn

/-- Every waiting thread has a child that is not reaped, and no two threads have the same.
It need not be the child that the thread has forked. -/
structure Assigned (s : State T) (child : T → ℕ) : Prop where
  isChild : ∀ t own, s.thread t = .waiting own → s.IsChild (child t)
  distinct : ∀ t u own own', s.thread t = .waiting own → s.thread u = .waiting own' →
    child t = child u → t = u

omit [DecidableEq T] in
theorem Assigned.frame {child : T → ℕ} (h : Assigned s child)
    (hthread : ∀ t own, s'.thread t = .waiting own → s.thread t = .waiting own)
    (hchild : ∀ c, s.IsChild c → s'.IsChild c) : Assigned s' child where
  isChild t own ht := hchild _ (h.isChild t own (hthread t own ht))
  distinct t u own own' ht hu := h.distinct t u own own' (hthread t own ht) (hthread u own' hu)

theorem waiting_of_setThread {t u : T} {pc : Pc} {own : ℕ} (hpc : ∀ c, pc ≠ .waiting c)
    (h : (s.setThread t pc).thread u = .waiting own) : u ≠ t ∧ s.thread u = .waiting own := by
  rcases eq_or_ne u t with heq | hne
  · rw [heq] at h
    have hself : (s.setThread t pc).thread t = pc := Function.update_self ..
    exact absurd (hself.symm.trans h) (hpc own)
  · exact ⟨hne, (Function.update_of_ne hne _ _).symm.trans h⟩

theorem Assigned.fork {child : T → ℕ} (h : Assigned s child)
    (hfresh : s.reaped s.forks = false) (t : T) :
    Assigned ({s with forks := s.forks + 1}.setThread t (.waiting s.forks))
      (Function.update child t s.forks) := by
  have hold : ∀ u own, u ≠ t → ({s with forks := s.forks + 1}.setThread t
      (.waiting s.forks)).thread u = .waiting own → s.thread u = .waiting own := by
    intro u own hne hu
    exact (Function.update_of_ne hne _ _).symm.trans hu
  have hlt : ∀ u own, u ≠ t → ({s with forks := s.forks + 1}.setThread t
      (.waiting s.forks)).thread u = .waiting own → child u < s.forks :=
    fun u own hne hu => (h.isChild u own (hold u own hne hu)).1
  constructor
  · intro u own hu
    rcases eq_or_ne u t with heq | hne
    · rw [heq, Function.update_self]
      exact ⟨Nat.lt_succ_self _, hfresh⟩
    · rw [Function.update_of_ne hne]
      exact ⟨Nat.lt_succ_of_lt (hlt u own hne hu), (h.isChild u own (hold u own hne hu)).2⟩
  · intro u v own own' hu hv heq
    by_cases hut : u = t <;> by_cases hvt : v = t
    · exact hut.trans hvt.symm
    · rw [hut, Function.update_self, Function.update_of_ne hvt] at heq
      exact absurd heq.symm (Nat.ne_of_lt (hlt v own' hvt hv))
    · rw [hvt, Function.update_self, Function.update_of_ne hut] at heq
      exact absurd heq (Nat.ne_of_lt (hlt u own hut hu))
    · rw [Function.update_of_ne hut, Function.update_of_ne hvt] at heq
      exact h.distinct u v own own' (hold u own hut hu) (hold v own' hvt hv) heq

/-- The thread whose child is reaped by another one takes over the child of that one. -/
theorem Assigned.wait {child : T → ℕ} (h : Assigned s child) {t : T} {c own : ℕ} {n : ℤ}
    (ht : s.thread t = .waiting own) :
    Assigned ({s with reaped := Function.update s.reaped c true}.setThread t (.replying own n))
      fun u => if child u = c then child t else child u := by
  have hold : ∀ u own', ({s with reaped := Function.update s.reaped c true}.setThread t
      (.replying own n)).thread u = .waiting own' → u ≠ t ∧ s.thread u = .waiting own' :=
    fun u own' hu => waiting_of_setThread (by simp) hu
  have hkept : ∀ u own', s.thread u = .waiting own' → child u ≠ c →
      child u < s.forks ∧ Function.update s.reaped c true (child u) = false := by
    intro u own' hu hne
    have hchild := h.isChild u own' hu
    exact ⟨hchild.1, (Function.update_of_ne hne _ _).trans hchild.2⟩
  constructor
  · intro u own' hu
    obtain ⟨hne, hw⟩ := hold u own' hu
    split_ifs with hc
    · refine hkept t own ht fun htc => hne ?_
      exact h.distinct u t own' own hw ht (hc.trans htc.symm)
    · exact hkept u own' hw hc
  · intro u v own₁ own₂ hu hv heq
    obtain ⟨hut, hw₁⟩ := hold u own₁ hu
    obtain ⟨hvt, hw₂⟩ := hold v own₂ hv
    split_ifs at heq with hcu hcv hcv
    · exact h.distinct u v own₁ own₂ hw₁ hw₂ (hcu.trans hcv.symm)
    · exact absurd (h.distinct v t own₂ own hw₂ ht heq.symm) hvt
    · exact absurd (h.distinct u t own₁ own hw₁ ht heq) hut
    · exact h.distinct u v own₁ own₂ hw₁ hw₂ heq

/-- The part of the invariant that holds in every run. -/
structure Kept (s : State T) : Prop where
  assigned : ∃ child, Assigned s child
  fresh : ∀ c, s.reaped c = true → c < s.forks

theorem Kept.step (h : Kept s) (hs : s.Step a s') : Kept s' := by
  obtain ⟨⟨child, ha⟩, hfresh⟩ := h
  cases hs with
  | @fork t _ =>
      have hnew : s.reaped s.forks = false := by
        by_contra hne
        exact Nat.lt_irrefl _ (hfresh _ (by simpa using hne))
      exact ⟨⟨_, ha.fork hnew t⟩, fun c hc => Nat.lt_succ_of_lt (hfresh c hc)⟩
  | exit _ _ => exact ⟨⟨child, ha.frame (fun _ _ h => h) fun _ h => h⟩, hfresh⟩
  | @wait _ c _ _ ht hc hn =>
      refine ⟨⟨_, ha.wait ht⟩, fun c' hreaped => ?_⟩
      by_cases heq : c' = c
      · exact heq ▸ hc.1
      · exact hfresh c' ((Function.update_of_ne heq _ _).symm.trans hreaped)
  | waitFails ht _ =>
      exact ⟨⟨child, ha.frame (fun _ _ h => (waiting_of_setThread (by simp) h).2) fun _ h => h⟩,
        hfresh⟩
  | reply ht =>
      exact ⟨⟨child, ha.frame (fun _ _ h => (waiting_of_setThread (by simp) h).2) fun _ h => h⟩,
        hfresh⟩

theorem kept_init : Kept (machine T).init where
  assigned := ⟨fun _ => 0, by simp [machine], by simp [machine]⟩
  fresh := by simp [machine]

theorem reachable_kept (h : (machine T).Reachable s) : Kept s :=
  Machine.Reachable.invariant kept_init (fun _ _ _ hi hs => hi.step (State.step_cases hs)) h

omit [DecidableEq T] in
theorem Kept.exists_isChild (h : Kept s) {t : T} {own : ℕ} (ht : s.thread t = .waiting own) :
    ∃ child, s.IsChild child :=
  let ⟨child, ha⟩ := h.assigned
  ⟨child t, ha.isChild t own ht⟩

/-- So `wait` never fails, whatever the runs of the other requests. -/
theorem waitFails_eq_none (h : (machine T).Reachable s) (t : T) : s.step (.waitFails t) = none := by
  by_contra hne
  obtain ⟨s', hs⟩ := Option.ne_none_iff_exists'.mp hne
  cases State.step_cases hs with
  | waitFails ht hnone =>
      obtain ⟨child, hchild⟩ := (reachable_kept h).exists_isChild ht
      exact hnone child hchild

structure Matched (s : State T) : Prop extends Kept s where
  own : Own s
  reply : ∀ t child n, s.thread t = .replying child n →
    ∃ m, s.status child = some m ∧ statusCode n = statusCode m

theorem Matched.step (h : Matched s) (hg : waitSafe s a) (hs : s.Step a s') : Matched s' := by
  have hstatus : ∀ child n, s.status child = some n → s'.status child = some n :=
    fun _ _ => status_step hs
  have hreply : ∀ t child n, s.thread t = .replying child n →
      ∃ m, s'.status child = some m ∧ statusCode n = statusCode m := by
    intro t child n ht
    obtain ⟨m, hm, heq⟩ := h.reply t child n ht
    exact ⟨m, hstatus child m hm, heq⟩
  have hown : ∀ p ∈ s.sent, ∃ n, s'.status p.1 = some n ∧ p.2 = statusCode n := by
    intro p hp
    obtain ⟨n, hn, heq⟩ := h.own p hp
    exact ⟨n, hstatus _ n hn, heq⟩
  have hother : ∀ {t u : T} {pc : Pc} {child : ℕ} {n : ℤ},
      Function.update s.thread t pc u = .replying child n → pc ≠ .replying child n →
      ∃ m, s'.status child = some m ∧ statusCode n = statusCode m := by
    intro t u pc child n hu hpc
    rcases eq_or_ne u t with heq | hne
    · rw [heq, Function.update_self] at hu
      exact absurd hu hpc
    · exact hreply u child n ((Function.update_of_ne hne _ _).symm.trans hu)
  refine ⟨h.toKept.step hs, ?_, ?_⟩
  · cases hs with
    | reply ht =>
        intro p hp
        rcases List.mem_append.mp hp with hp | hp
        · exact hown p hp
        · rw [List.mem_singleton.mp hp]
          exact hreply _ _ _ ht
    | _ => exact hown
  · cases hs with
    | exit _ _ => exact hreply
    | waitFails ht hnone =>
        obtain ⟨child, hchild⟩ := h.exists_isChild ht
        exact absurd hchild (hnone child)
    | fork _ => exact fun u child n hu => hother hu (by simp)
    | reply _ => exact fun u child n hu => hother hu (by simp)
    | @wait t c own n ht hc hn =>
        intro u child m hu
        by_cases heq : (.replying own n : Pc) = .replying child m
        · cases heq
          obtain ⟨k, hk, hsame⟩ := hg own ht
          exact ⟨k, hk, hsame c n hc hn⟩
        · exact hother hu heq

/-- If every `wait` is safe, every request sends the code for its own child. -/
theorem sent_own (h : (machine T).ReachableBy waitSafe s) : Own s := by
  have hm : Matched s := by
    apply Machine.ReachableBy.invariant ?_ (fun s a t hi hg hs => ?_) h
    · exact ⟨kept_init, by simp [Own, machine], by simp [machine]⟩
    · exact hi.step hg (State.step_cases hs)
  exact hm.own

/-- Two threads whose children have both exited with status 0, each reaped by the other. -/
theorem sent_own_crossed : ∃ s : State Bool, s.sent = [(0, 200), (1, 200)] ∧ Own s := by
  have h₁ : (machine Bool).ReachableBy waitSafe _ :=
    .next (a := .fork true) (.next (a := .fork false) .start trivial rfl) trivial rfl
  have h₂ := (h₁.next (a := .exit 0 0) (by trivial) rfl).next (a := .exit 1 0) (by trivial) rfl
  have h₃ := h₂.next (a := .wait false 1) (by
    rintro own ⟨⟩
    refine ⟨0, rfl, fun child m _ hm => ?_⟩
    simp only [State.setThread, Function.update_apply] at hm
    split_ifs at hm <;> cases hm <;> rfl) rfl
  have h₄ := h₃.next (a := .wait true 0) (by
    rintro own ⟨⟩
    refine ⟨0, rfl, fun child m _ hm => ?_⟩
    simp only [State.setThread, Function.update_apply] at hm
    split_ifs at hm <;> cases hm <;> rfl) rfl
  have h₅ := (h₄.next (a := .reply false) (by trivial) rfl).next (a := .reply true) (by trivial) rfl
  exact ⟨_, rfl, sent_own h₅⟩

/-- Where a `wait` is not safe, some run from there sends a code that is not the child's own. -/
theorem not_own_of_not_waitSafe {t : T} {c : ℕ} (hs : s.Step (.wait t c) s')
    (hg : ¬ waitSafe s (.wait t c)) : ∃ as u, (machine T).run s as = some u ∧ ¬ Own u := by
  have hserve : ∀ own child n, s.thread t = .waiting own → s.IsChild child →
      s.status child = some n → ∃ u, (machine T).run s [.wait t child, .reply t] = some u ∧
        u.status = s.status ∧ (own, statusCode n) ∈ u.sent := by
    intro own child n ht hchild hn
    simp [Machine.run, machine, State.step, ht, hchild, hn, State.setThread]
  cases hs with
  | @wait _ _ own n ht hc hn =>
      have hunsafe : ∃ child m, s.IsChild child ∧ s.status child = some m ∧
          ∀ k, s.status own = some k → statusCode m ≠ statusCode k := by
        cases hown : s.status own with
        | none => exact ⟨c, n, hc, hn, by simp⟩
        | some k =>
            by_contra hall
            apply hg
            intro own' ht'
            rw [ht] at ht'
            cases ht'
            refine ⟨k, hown, fun child m hchild hm => ?_⟩
            by_contra hne
            exact hall ⟨child, m, hchild, hm, by simpa using hne⟩
      obtain ⟨child, m, hchild, hm, hne⟩ := hunsafe
      obtain ⟨u, hrun, hstatus, hmem⟩ := hserve own child m ht hchild hm
      refine ⟨_, u, hrun, fun hu => ?_⟩
      obtain ⟨k, hk, heq⟩ := hu _ hmem
      exact hne k (hstatus ▸ hk) heq

/-- Two requests: the script of the first succeeds and the one of the second exits with 1, and
each `wait` reaps the child of the other. -/
theorem crossed_reachable : ¬ ∀ s : State Bool, (machine Bool).Reachable s → Own s := by
  intro hall
  have hrun : ∃ u, (machine Bool).run (machine Bool).init [.fork false, .fork true, .exit 0 0,
      .exit 1 256, .wait false 1, .reply false] = some u ∧ u.sent = [(0, 500)] ∧
      u.status 0 = some 0 := ⟨_, rfl, rfl, rfl⟩
  obtain ⟨u, hrun, hsent, hstatus⟩ := hrun
  obtain ⟨n, hn, hcode⟩ := hall u (Machine.Reachable.start.run hrun) (0, 500) (by simp [hsent])
  cases hstatus.symm.trans hn
  exact absurd hcode (by decide)

end EmbeddedCode.Cgi.Wait
