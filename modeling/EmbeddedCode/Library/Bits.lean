import Mathlib.Algebra.Group.Nat.Defs
import Mathlib.Data.Nat.Notation

/-!
# Fields of a word

Where the fields of a word do not overlap, `|||` puts them together as `+` does, and a mask of
ones leaves the fields in it as they are.
-/
namespace EmbeddedCode.Bits

theorem or_eq_add {a b i : ℕ} (ha : 2 ^ i ∣ a) (hb : b < 2 ^ i) : a ||| b = a + b := by
  obtain ⟨q, rfl⟩ := ha
  exact (Nat.two_pow_add_eq_or_of_lt hb q).symm

theorem and_mask {a i n : ℕ} (ha : 2 ^ i ∣ a) (hlt : a < 2 ^ (n + i)) :
    a &&& (2 ^ n - 1) <<< i = a := by
  obtain ⟨q, rfl⟩ := ha
  have hq : q < 2 ^ n := by
    rw [Nat.pow_add, Nat.mul_comm] at hlt
    exact Nat.lt_of_mul_lt_mul_right hlt
  rw [Nat.mul_comm, ← Nat.shiftLeft_eq, ← Nat.shiftLeft_and_distrib,
    Nat.and_two_pow_sub_one_of_lt_two_pow hq]

end EmbeddedCode.Bits
