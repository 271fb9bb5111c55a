import Mathlib.Algebra.Group.Nat.Defs
import Mathlib.Data.Int.Notation
import Mathlib.Data.List.Basic
import Mathlib.Logic.Function.Basic
import Mathlib.Tactic.TypeStar

/-!
# The towers of Hanoi

Discs lie on pegs, and a disc never lies on a smaller one. The discs are numbered by their size.
The moves that bring a tower from one peg to another one are the same whatever larger discs lie
below.
-/
namespace EmbeddedCode.Towers

variable {P : Type*} [DecidableEq P] {s m f : P} {n : ℕ} {d : ℤ} {S : List ℤ}

/-- The discs of every peg, from the top to the bottom. -/
abbrev Position (P : Type*) := P → List ℤ

structure Move (P : Type*) where
  disc : ℤ
  start : P
  finish : P
  deriving DecidableEq, Repr

/-- The named disc is the top of its peg and comes to another peg, on a larger disc or on no
disc. -/
def Position.Allows (pos : Position P) (move : Move P) : Prop :=
  (pos move.start).head? = some move.disc ∧ move.start ≠ move.finish ∧
    ∀ top ∈ (pos move.finish).head?, move.disc < top

instance (pos : Position P) (move : Move P) : Decidable (pos.Allows move) :=
  inferInstanceAs (Decidable (_ ∧ _ ∧ _))

def Position.apply (pos : Position P) (move : Move P) : Position P :=
  Function.update (Function.update pos move.start (pos move.start).tail) move.finish
    (move.disc :: pos move.finish)

/-- The position after some moves, if all of them are allowed. -/
def replay : List (Move P) → Position P → Option (Position P)
  | [], pos => some pos
  | move :: moves, pos => if pos.Allows move then replay moves (pos.apply move) else none

def tower (n : ℕ) : List ℤ := (List.range n).map fun i : ℕ => (i : ℤ) + 1

def single (s : P) (discs : List ℤ) : Position P := Function.update (fun _ => []) s discs

def solution : ℕ → P → P → P → List (Move P)
  | 0, _, _, _ => []
  | n + 1, s, m, f => solution n s f m ++ ⟨n + 1, s, f⟩ :: solution n m s f

theorem replay_append (moves moves' : List (Move P)) (pos : Position P) :
    replay (moves ++ moves') pos = (replay moves pos).bind (replay moves') := by
  induction moves generalizing pos with
  | nil => rfl
  | cons move moves ih =>
      rw [List.cons_append, replay, replay]
      split_ifs
      · exact ih (pos.apply move)
      · rfl

theorem tower_succ (n : ℕ) : tower (n + 1) = tower n ++ [(n : ℤ) + 1] := by
  rw [tower, List.range_succ, List.map_append]
  rfl

omit [DecidableEq P] in
theorem solution_length (n : ℕ) (s m f : P) : (solution n s m f).length = 2 ^ n - 1 := by
  induction n generalizing s m f with
  | zero => rfl
  | succ n ih =>
      have hpos : 0 < 2 ^ n := Nat.two_pow_pos n
      rw [solution, List.length_append, List.length_cons, ih, ih, Nat.pow_succ]
      omega

/-- The tower of the discs up to `n` lies on `s`, and all other discs of the three pegs are
larger. -/
structure Ready (pos : Position P) (n : ℕ) (s m f : P) (S : List ℤ) : Prop where
  start : pos s = tower n ++ S
  below : ∀ d ∈ S, (n : ℤ) < d
  middle : ∀ d ∈ pos m, (n : ℤ) < d
  finish : ∀ d ∈ pos f, (n : ℤ) < d

theorem replay_single {pos : Position P} (hsf : s ≠ f) (hs : pos s = d :: S)
    (hf : ∀ top ∈ pos f, d < top) (moves : List (Move P)) :
    replay (⟨d, s, f⟩ :: moves) pos =
      replay moves (Function.update (Function.update pos s S) f (d :: pos f)) := by
  have hallows : pos.Allows ⟨d, s, f⟩ :=
    ⟨by rw [hs]; rfl, hsf, fun top htop => hf top (List.mem_of_mem_head? htop)⟩
  rw [replay, if_pos hallows, Position.apply, hs]
  rfl

/-- The solution brings the tower to the peg `f`, on what lies there, and in the end nothing else
has moved. -/
theorem replay_solution {pos : Position P} (hsm : s ≠ m) (hsf : s ≠ f) (hmf : m ≠ f)
    (h : Ready pos n s m f S) : replay (solution n s m f) pos =
      some (Function.update (Function.update pos s S) f (tower n ++ pos f)) := by
  induction n generalizing s m f pos S with
  | zero =>
      have hs : pos s = S := h.start
      rw [solution, replay, ← hs, Function.update_eq_self]
      exact congrArg some (Function.update_eq_self f pos).symm
  | succ n ih =>
      obtain ⟨hstart, hbelow, hmiddle, hfinish⟩ := h
      rw [tower_succ, List.append_assoc, List.singleton_append] at hstart
      push_cast at hbelow hmiddle hfinish
      -- The smaller tower waits on the peg in the middle while the largest disc moves.
      have hwaits : Ready pos n s f m (((n : ℤ) + 1) :: S) :=
        ⟨hstart, by grind, by grind, by grind⟩
      rw [solution, replay_append, ih hsf hsm hmf.symm hwaits, Option.bind_some]
      obtain ⟨pos₁, hpos₁⟩ : ∃ pos₁, pos₁ = Function.update
        (Function.update pos s (((n : ℤ) + 1) :: S)) m (tower n ++ pos m) := ⟨_, rfl⟩
      have hs : pos₁ s = ((n : ℤ) + 1) :: S := by
        rw [hpos₁, Function.update_of_ne hsm, Function.update_self]
      have hm : pos₁ m = tower n ++ pos m := by rw [hpos₁, Function.update_self]
      have hf : pos₁ f = pos f := by
        rw [hpos₁, Function.update_of_ne hmf.symm, Function.update_of_ne hsf.symm]
      rw [← hpos₁, replay_single hsf hs (by rw [hf]; exact hfinish), hf]
      obtain ⟨pos₂, hpos₂⟩ : ∃ pos₂, pos₂ = Function.update
        (Function.update pos₁ s S) f (((n : ℤ) + 1) :: pos f) := ⟨_, rfl⟩
      have hs' : pos₂ s = S := by
        rw [hpos₂, Function.update_of_ne hsf, Function.update_self]
      have hm' : pos₂ m = tower n ++ pos m := by
        rw [hpos₂, Function.update_of_ne hmf, Function.update_of_ne hsm.symm, hm]
      have hf' : pos₂ f = ((n : ℤ) + 1) :: pos f := by rw [hpos₂, Function.update_self]
      have hreturns : Ready pos₂ n m s f (pos m) :=
        ⟨hm', by grind, by grind, by grind⟩
      rw [← hpos₂, ih hsm.symm hmf hsf hreturns, hf']
      subst hpos₂ hpos₁
      congr 1
      funext peg
      grind [tower_succ]

end EmbeddedCode.Towers
