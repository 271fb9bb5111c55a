import EmbeddedCode.Library.Loop
import Mathlib.Data.List.TakeWhile

/-!
# Loops that scan a text

`while (go(*p)) ++p;` over the elements that may be accessed. A position is known by what the
text holds from there on. The loop ends at the first element that stops it, and without one it
runs into an access beyond the text.
-/
namespace EmbeddedCode.Scan

open Loop

variable {α : Type*}

def turn (text : List α) (go : α → Bool) (p : ℕ) : Option (Turn ℕ ℕ) :=
  text[p]?.map fun c => if go c then .again (p + 1) else .leave p

variable {text xs rest : List α} {go : α → Bool} {p : ℕ} {c : α}

theorem getElem?_of_drop (h : text.drop p = c :: rest) : text[p]? = some c := by
  rw [← List.head?_drop, h, List.head?_cons]

theorem drop_add (h : text.drop p = xs ++ rest) : text.drop (p + xs.length) = rest := by
  rw [← List.drop_drop, h, List.drop_left]

theorem drop_succ (h : text.drop p = c :: rest) : text.drop (p + 1) = rest := by
  rw [← List.drop_drop, h, List.drop_one, List.tail_cons]

/-- The loop passes the elements that do not stop it, and ends at the next one. -/
theorem run_turn (h : text.drop p = xs ++ rest) (hxs : ∀ x ∈ xs, go x = true)
    (hrest : rest.head? = some c) (hc : go c = false) :
    Returns (fun fuel => run (turn text go) fuel p) (p + xs.length) := by
  induction xs generalizing p with
  | nil =>
      apply returns_leave
      rw [List.nil_append] at h
      have hp : text[p]? = some c := by rw [← List.head?_drop, h, hrest]
      simp [turn, hp, hc]
  | cons x xs ih =>
      rw [List.cons_append] at h
      have hturn : turn text go p = some (.again (p + 1)) := by
        simp [turn, getElem?_of_drop h, hxs x List.mem_cons_self]
      have hrun := ih (drop_succ h) fun y hy => hxs y (List.mem_cons_of_mem _ hy)
      rw [List.length_cons, Nat.add_comm xs.length, ← Nat.add_assoc]
      exact hrun.again hturn

/-- What is left starts with an element that stops the loop. -/
theorem go_of_head? (h : (xs.dropWhile go).head? = some c) : go c = false := by
  have hhead := List.head?_dropWhile_not go xs
  rw [h] at hhead
  simpa using hhead

theorem go_of_dropWhile (h : xs.dropWhile go = c :: rest) : go c = false :=
  go_of_head? (h ▸ List.head?_cons)

/-- With an element that stops it the loop skips a part of the text. -/
theorem returns_drop (h : ∃ c ∈ text.drop p, go c = false) :
    ∃ q, Returns (fun fuel => run (turn text go) fuel p) q ∧
      text.drop q = (text.drop p).dropWhile go := by
  obtain ⟨c, hmem, hc⟩ := h
  cases hdrop : (text.drop p).dropWhile go with
  | nil => simp [List.dropWhile_eq_nil_iff.mp hdrop c hmem] at hc
  | cons d rest =>
      have hsplit : text.drop p = (text.drop p).takeWhile go ++ d :: rest := by
        rw [← hdrop, List.takeWhile_append_dropWhile]
      exact ⟨_, run_turn hsplit (fun x hx => List.mem_takeWhile_imp hx) rfl
        (go_of_dropWhile hdrop), drop_add hsplit⟩

/-- Without one it leaves the text. -/
theorem run_none (h : ∀ c ∈ text.drop p, go c = true) (fuel : ℕ) :
    run (turn text go) fuel p = none := by
  induction fuel generalizing p with
  | zero => rfl
  | succ fuel ih =>
      cases hdrop : text.drop p with
      | nil =>
          have hnone : text[p]? = none := by rw [← List.head?_drop, hdrop, List.head?_nil]
          simp [run, turn, hnone]
      | cons c rest =>
          have hturn : turn text go p = some (.again (p + 1)) := by
            simp [turn, getElem?_of_drop hdrop, h c (by simp [hdrop])]
          rw [run_again hturn]
          refine ih fun d hd => h d ?_
          rw [drop_succ hdrop] at hd
          simp [hdrop, hd]

/-- What is known of a loop that has ended. -/
theorem drop_of_run {fuel q : ℕ} (h : run (turn text go) fuel p = some q) :
    (∃ c ∈ text.drop p, go c = false) ∧ text.drop q = (text.drop p).dropWhile go := by
  have hstop : ∃ c ∈ text.drop p, go c = false := by
    by_contra hnone
    have hgo : ∀ c ∈ text.drop p, go c = true := by simpa using hnone
    rw [run_none hgo fuel] at h
    cases h
  obtain ⟨q', hq', hdrop⟩ := returns_drop hstop
  exact ⟨hstop, (run_returns h).unique hq' ▸ hdrop⟩

end EmbeddedCode.Scan
