import Mathlib.Order.Basic
import Mathlib.Tactic.TypeStar

/-!
# Machines and their reachable states

A machine has an initial state and a partial step function. Every choice that
the environment makes (which thread moves, which address an allocation returns)
is part of the action, so a step is a function and a concrete run can be
evaluated. `ReachableBy guard` keeps only the runs in which every step meets a
condition on the action and on the state before it; `Reachable` keeps all runs.
-/
namespace EmbeddedCode.Transition

structure Machine (S A : Type*) where
  init : S
  step : S → A → Option S

namespace Machine

variable {S A : Type*} (M : Machine S A)

inductive ReachableBy (guard : S → A → Prop) : S → Prop
  | start : ReachableBy guard M.init
  | next {s t : S} {a : A} : ReachableBy guard s → guard s a → M.step s a = some t →
      ReachableBy guard t

def Reachable (s : S) : Prop := M.ReachableBy (fun _ _ => True) s

def run : S → List A → Option S
  | s, [] => some s
  | s, a :: as => (M.step s a).bind fun t => run t as

variable {M}

theorem Reachable.start : M.Reachable M.init := ReachableBy.start

theorem Reachable.next {s t : S} {a : A} (h : M.Reachable s) (hs : M.step s a = some t) :
    M.Reachable t := ReachableBy.next h trivial hs

/-- An invariant of the guarded runs: it holds at the start and every step which
meets the guard keeps it. -/
theorem ReachableBy.invariant {guard : S → A → Prop} {I : S → Prop} (h0 : I M.init)
    (hstep : ∀ s a t, I s → guard s a → M.step s a = some t → I t) {s : S}
    (h : M.ReachableBy guard s) : I s := by
  induction h with
  | start => exact h0
  | next _ hg hs ih => exact hstep _ _ _ ih hg hs

theorem Reachable.invariant {I : S → Prop} (h0 : I M.init)
    (hstep : ∀ s a t, I s → M.step s a = some t → I t) {s : S} (h : M.Reachable s) : I s :=
  ReachableBy.invariant h0 (fun s a t hi _ hs => hstep s a t hi hs) h

theorem run_cons {s : S} {a : A} {as : List A} :
    M.run s (a :: as) = (M.step s a).bind fun t => M.run t as := rfl

/-- A run in which the guard of every action holds in every state. -/
theorem ReachableBy.run {guard : S → A → Prop} {s t : S} (h : M.ReachableBy guard s)
    (as : List A) (hg : ∀ a ∈ as, ∀ u, guard u a) (hr : M.run s as = some t) :
    M.ReachableBy guard t := by
  induction as generalizing s with
  | nil =>
      cases hr
      exact h
  | cons a as ih =>
      rw [run_cons] at hr
      cases hs : M.step s a with
      | none => simp [hs] at hr
      | some u =>
          rw [hs] at hr
          rw [List.forall_mem_cons] at hg
          exact ih (h.next (hg.1 s) hs) hg.2 hr

theorem Reachable.run {s t : S} (h : M.Reachable s) {as : List A} (hr : M.run s as = some t) :
    M.Reachable t := ReachableBy.run h as (fun _ _ _ => trivial) hr

end Machine

end EmbeddedCode.Transition
