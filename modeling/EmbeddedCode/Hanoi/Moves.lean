import EmbeddedCode.Library.CInt
import EmbeddedCode.Library.Loop
import EmbeddedCode.Library.Towers
import EmbeddedCode.Printk.Model

/-!
# The moves of `hanoi`

`c_zy/1109_8.c` prints one line for each move, `move %d: %c --> %c`. The output is the sequence of
the moves that these lines name. The parameter `end` is `finish` here.
-/
namespace EmbeddedCode.Hanoi

open CInt Loop Towers

/-- The output and the global `count`. -/
structure State where
  out : List (Move UInt8)
  count : ℤ
  deriving DecidableEq, Repr

def move (st : State) (start finish : UInt8) (n : ℤ) : State where
  out := st.out ++ [⟨n, start, finish⟩]
  count := wrap (st.count + 1)

def hanoi : ℕ → UInt8 → UInt8 → UInt8 → ℤ → State → Option State
  | 0, _, _, _, _, _ => none
  | fuel + 1, start, mid, finish, n, st =>
      if n = 1 then some (move st start finish n)
      else
        (checked (n - 1)).bind fun less =>
        (hanoi fuel start finish mid less st).bind fun st =>
        hanoi fuel mid start finish less (move st start finish n)

/-- The state behind some moves. -/
def State.after (st : State) (moves : List (Move UInt8)) : State where
  out := st.out ++ moves
  count := wrap (st.count + moves.length)

theorem move_eq (st : State) (start finish : UInt8) (n : ℤ) :
    move st start finish n = st.after [⟨n, start, finish⟩] := rfl

theorem State.after_append (st : State) (moves moves' : List (Move UInt8)) :
    (st.after moves).after moves' = st.after (moves ++ moves') := by
  simp [State.after, Int.add_assoc]

theorem hanoi_returns {n : ℕ} (hn : 1 ≤ n) (hfits : (n : ℤ) ≤ intMax) (start mid finish : UInt8)
    (st : State) : Returns (fun fuel => hanoi fuel start mid finish n st)
      (st.after (solution n start mid finish)) := by
  induction n, hn using Nat.le_induction generalizing start mid finish st with
  | base =>
      have hone : ((1 : ℕ) : ℤ) = 1 := rfl
      refine Returns.of_succ ?_
      simp only [hanoi, if_pos hone, move_eq]
      exact returns_const _
  | succ n hn ih =>
      have hone : ((n + 1 : ℕ) : ℤ) ≠ 1 := by omega
      have hless : checked (((n + 1 : ℕ) : ℤ) - 1) = some (n : ℤ) := by
        rw [Int.natCast_succ, Int.add_sub_cancel]
        exact checked_of_le (n := intMax) (by unfold intMax; omega) (by omega) le_rfl
      have hfits' : (n : ℤ) ≤ intMax := by omega
      have hafter : st.after (solution (n + 1) start mid finish) =
          (move (st.after (solution n start finish mid)) start finish (n + 1 : ℕ)).after
            (solution n mid start finish) := by
        rw [move_eq, State.after_append, State.after_append]
        rfl
      rw [hafter]
      refine Returns.of_succ ?_
      simp only [hanoi, if_neg hone, hless, Option.bind_some]
      exact (ih hfits' start finish mid st).andThen (ih hfits' mid start finish _)

/-- The printed moves bring the tower from A to C. No move takes a disc from under another one or
puts one on a smaller one. -/
theorem hanoi_solves {n : ℤ} (hn : 1 ≤ n) (hfits : Fits n) :
    ∃ moves, Returns (fun fuel => hanoi fuel (Printk.ascii 'A') (Printk.ascii 'B')
        (Printk.ascii 'C') n ⟨[], 0⟩) ⟨moves, wrap moves.length⟩ ∧
      replay moves (single (Printk.ascii 'A') (tower n.toNat)) =
        some (single (Printk.ascii 'C') (tower n.toNat)) ∧
      moves.length = 2 ^ n.toNat - 1 := by
  obtain ⟨k, rfl⟩ := Int.eq_ofNat_of_zero_le (by omega : 0 ≤ n)
  have hreturns := hanoi_returns (by omega) hfits.2 (Printk.ascii 'A') (Printk.ascii 'B')
    (Printk.ascii 'C') ⟨[], 0⟩
  have hAB : Printk.ascii 'A' ≠ Printk.ascii 'B' := by decide
  have hAC : Printk.ascii 'A' ≠ Printk.ascii 'C' := by decide
  have hBC : Printk.ascii 'B' ≠ Printk.ascii 'C' := by decide
  refine ⟨solution k (Printk.ascii 'A') (Printk.ascii 'B') (Printk.ascii 'C'), ?_, ?_,
    solution_length k _ _ _⟩
  · simpa [State.after] using hreturns
  · rw [Int.toNat_natCast]
    have hready : Ready (single (Printk.ascii 'A') (tower k)) k (Printk.ascii 'A')
        (Printk.ascii 'B') (Printk.ascii 'C') [] :=
      ⟨by simp [single], by simp, by simp [single, hAB.symm], by simp [single, hAC.symm]⟩
    rw [replay_solution hAB hAC hBC hready]
    simp [single, Function.update_idem, hAC.symm]

theorem hanoi_solves_three :
    ∃ moves, Returns (fun fuel => hanoi fuel (Printk.ascii 'A') (Printk.ascii 'B')
        (Printk.ascii 'C') 3 ⟨[], 0⟩) ⟨moves, wrap moves.length⟩ ∧
      replay moves (single (Printk.ascii 'A') (tower 3)) =
        some (single (Printk.ascii 'C') (tower 3)) ∧
      moves.length = 7 :=
  hanoi_solves (by decide) (by decide)

end EmbeddedCode.Hanoi
