import Mathlib.Algebra.Group.Nat.Defs
import Mathlib.Data.Int.Order.Basic

/-!
# The C type `int`

An `int` has 32 bits. It is an integer together with `wrap`, which brings the
result of an operation back into range as the machine instructions do, and which
is what an operation means. `checked` has no result when an operation overflows: it
stands where an index must not wrap, so that a run that returns makes no operation
that would. An `unsigned int` is a natural number together with `u32`.
-/
namespace EmbeddedCode.CInt

def intMin : ℤ := -2147483648

def intMax : ℤ := 2147483647

/-- The residue modulo `2 ^ 32` that lies in the range of `int`. -/
def wrap (v : ℤ) : ℤ := Int.bmod v 4294967296

def Fits (v : ℤ) : Prop := intMin ≤ v ∧ v ≤ intMax

instance : DecidablePred Fits := fun _ => inferInstanceAs (Decidable (_ ∧ _))

@[simp] theorem wrap_fits {v : ℤ} (h : Fits v) : wrap v = v := by
  obtain ⟨h₁, h₂⟩ := h
  simp only [intMin, intMax] at h₁ h₂
  exact Int.bmod_eq_of_le (by omega) (by omega)

section
variable (a b : ℤ)

@[simp] theorem wrap_wrap : wrap (wrap a) = wrap a := Int.bmod_bmod

@[simp] theorem wrap_add_left : wrap (wrap a + b) = wrap (a + b) := Int.bmod_add_bmod

@[simp] theorem wrap_add_right : wrap (a + wrap b) = wrap (a + b) := Int.add_bmod_bmod

theorem wrap_add_middle (c : ℤ) : wrap (a + wrap b + c) = wrap (a + b + c) := by
  rw [Int.add_right_comm, wrap_add_right, Int.add_right_comm]

@[simp] theorem wrap_sub_left : wrap (wrap a - b) = wrap (a - b) := Int.bmod_sub_bmod

@[simp] theorem wrap_sub_right : wrap (a - wrap b) = wrap (a - b) := Int.sub_bmod_bmod

@[simp] theorem wrap_mul_left : wrap (wrap a * b) = wrap (a * b) := Int.bmod_mul_bmod

@[simp] theorem wrap_mul_right : wrap (a * wrap b) = wrap (a * b) := Int.mul_bmod_bmod

end

/-- The one division by a non-zero divisor whose quotient is no `int`. -/
def Overflows (a b : ℤ) : Prop := a = intMin ∧ b = -1

instance (a b : ℤ) : Decidable (Overflows a b) := inferInstanceAs (Decidable (_ ∧ _))

def checked (v : ℤ) : Option ℤ := if Fits v then some v else none

theorem checked_eq_some {v w : ℤ} : checked v = some w ↔ Fits v ∧ v = w := by
  unfold checked
  split <;> simp_all

theorem checked_of_le {v n : ℤ} (h₀ : -n ≤ v) (h : v ≤ n) (hn : n ≤ intMax) :
    checked v = some v := by
  refine checked_eq_some.mpr ⟨?_, rfl⟩
  simp only [Fits, intMin, intMax] at hn ⊢
  omega

def u32 (n : ℕ) : ℕ := n % 2 ^ 32

theorem u32_of_lt {n : ℕ} (h : n < 2 ^ 32) : u32 n = n := Nat.mod_eq_of_lt h

/-- The value of an operation on `size_t`, and of a conversion to it. -/
def sizeT (v : ℤ) : ℤ := v % 18446744073709551616

theorem sizeT_of_lt {v : ℤ} (h₀ : 0 ≤ v) (h : v < 18446744073709551616) : sizeT v = v :=
  Int.emod_eq_of_lt h₀ h

/-- A conversion to `size_t` and back. -/
theorem wrap_sizeT {v : ℤ} (h : Fits v) : wrap (sizeT v) = v := by
  obtain ⟨h₁, h₂⟩ := h
  simp only [intMin, intMax] at h₁ h₂
  simp only [wrap, sizeT, Int.bmod_def]
  omega

end EmbeddedCode.CInt
