import EmbeddedCode.Library.Loop
import Mathlib.Data.List.Induction

/-!
# Reversal in place

Two indices move towards each other and swap what they find. The cells of the array may be more
than the values in them: `read` gives the value of a cell, if it has one, and `cell` stores a value.
The part to reverse ends in front of a terminator.
-/
namespace EmbeddedCode.Reverse

open Loop

variable {α β : Type*} [DecidableEq β] (read : α → Option β) (cell : β → α) (stop : β)

/-- One turn of the search for the last index in front of the terminator. -/
def tailTurn (s : List α) (tail : ℕ) : Option (Turn ℕ ℕ) :=
  (s[tail + 1]?.bind read).map fun v => if v = stop then .leave tail else .again (tail + 1)

def swapTurn : List α × ℕ × ℕ → Option (Turn (List α × ℕ × ℕ) (List α))
  | (s, head, tail) =>
      if head < tail then
        (s[head]?.bind read).bind fun first =>
        (s[tail]?.bind read).map fun last =>
          .again ((s.set head (cell last)).set tail (cell first), head + 1, tail - 1)
      else some (.leave s)

/-- The reversal from the index `head` on. -/
def reverse (fuel : ℕ) (s : List α) (head : ℕ) : Option (List α) :=
  (run (tailTurn read stop s) fuel head).bind fun tail =>
    run (swapTurn read cell) fuel (s, head, tail)

variable {read cell stop}

theorem tail_stops {s : List α} {head tail fuel : ℕ}
    (h : run (tailTurn read stop s) fuel head = some tail) :
    s[tail + 1]?.bind read = some stop := by
  refine run_some (I := fun _ => True) (Q := fun k => s[k + 1]?.bind read = some stop)
    (fun _ _ _ _ => trivial) ?_ trivial h
  intro k last _ hturn
  obtain ⟨v, hread, hv⟩ := Option.map_eq_some_iff.mp hturn
  split_ifs at hv with hstop
  cases hv
  exact hstop ▸ hread

section
variable (A B : List α)

theorem getElem?_mid (a : α) : (A ++ a :: B)[A.length]? = some a := by simp

theorem set_mid (a b : α) : (A ++ a :: B).set A.length b = A ++ b :: B := by simp

/-- The first cell is not looked at. -/
theorem tail_returns (hread : ∀ b, read (cell b) = some b) (a : α) (m : List β) (hm : stop ∉ m) :
    Returns (fun fuel => run (tailTurn read stop (A ++ a :: (m.map cell ++ cell stop :: B))) fuel
      A.length) (A.length + m.length) := by
  induction m generalizing A a with
  | nil => exact returns_leave (by simp [tailTurn, hread])
  | cons b m ih =>
      rw [List.mem_cons, not_or] at hm
      have hrest := ih (A ++ [a]) (cell b) hm.2
      have hnext : (A ++ a :: ((b :: m).map cell ++ cell stop :: B))[A.length + 1]? =
          some (cell b) := by simp
      have hturn : tailTurn read stop (A ++ a :: ((b :: m).map cell ++ cell stop :: B)) A.length =
          some (.again (A.length + 1)) := by
        rw [tailTurn, hnext, Option.bind_some, hread]
        simp [Ne.symm hm.1]
      refine Returns.again ?_ hturn
      simpa [Nat.add_comm, Nat.add_left_comm] using hrest

omit [DecidableEq β] in
theorem swap_turn (hread : ∀ b, read (cell b) = some b) (m : List α) (a b : β) :
    swapTurn read cell (A ++ cell a :: (m ++ cell b :: B), A.length, A.length + m.length + 1) =
      some (.again (A ++ cell b :: (m ++ cell a :: B), A.length + 1, A.length + m.length)) := by
  have hfirst : (A ++ cell a :: (m ++ cell b :: B))[A.length]? = some (cell a) := getElem?_mid ..
  have hlen : ∀ c : α, (A ++ c :: m).length = A.length + m.length + 1 := by
    intro c
    simp [Nat.add_assoc]
  have hsplit : ∀ c d : α, A ++ c :: (m ++ d :: B) = (A ++ c :: m) ++ d :: B := by
    intro c d
    simp
  have hlast : (A ++ cell a :: (m ++ cell b :: B))[A.length + m.length + 1]? = some (cell b) := by
    rw [hsplit, ← hlen (cell a)]
    exact getElem?_mid ..
  have hset : ((A ++ cell a :: (m ++ cell b :: B)).set A.length (cell b)).set
      (A.length + m.length + 1) (cell a) = A ++ cell b :: (m ++ cell a :: B) := by
    rw [set_mid, hsplit, ← hlen (cell b), set_mid, ← hsplit]
  simp only [swapTurn]
  rw [if_pos (by omega), hfirst, hlast, Option.bind_some, Option.bind_some, hread, hread,
    Option.bind_some, Option.map_some, hset, Nat.add_sub_cancel]

omit [DecidableEq β] in
/-- The swaps go from the ends of `m` to its middle. -/
theorem swap_returns (hread : ∀ b, read (cell b) = some b) (m : List β) :
    Returns (fun fuel => run (swapTurn read cell) fuel
      (A ++ (m.map cell ++ B), A.length, A.length + m.length - 1))
      (A ++ (m.reverse.map cell ++ B)) := by
  induction m using List.bidirectionalRec generalizing A B with
  | nil =>
      apply returns_leave
      rw [swapTurn, if_neg (by rw [List.length_nil]; omega)]
      rfl
  | singleton a => exact returns_leave (by simp [swapTurn])
  | cons_append a m b ih =>
      have hrest := ih (A ++ [cell b]) (cell a :: B)
      have hturn := swap_turn A B hread (m.map cell) a b
      rw [List.length_map] at hturn
      refine Returns.again (t := (A ++ cell b :: (m.map cell ++ cell a :: B), A.length + 1,
        A.length + m.length)) ?_ ?_
      · simpa [Nat.add_right_comm] using hrest
      · simpa [← Nat.add_assoc] using hturn

variable (read cell) in
/-- The first value may be the terminator. -/
theorem reverse_returns (hread : ∀ b, read (cell b) = some b) (a : β) (m : List β)
    (hm : stop ∉ m) :
    Returns (fun fuel => reverse read cell stop fuel
      (A ++ ((a :: m).map cell ++ cell stop :: B)) A.length)
      (A ++ ((a :: m).reverse.map cell ++ cell stop :: B)) := by
  have htail := tail_returns A B hread (cell a) m hm
  have hswap := swap_returns A (cell stop :: B) hread (a :: m)
  apply htail.andThen
  simpa using hswap

end

end EmbeddedCode.Reverse
