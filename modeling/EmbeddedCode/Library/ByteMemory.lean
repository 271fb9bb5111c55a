import Mathlib.Data.Nat.Notation
import Mathlib.Logic.Function.Basic

/-!
# Bytes in a memory

A memory is a function from addresses to bytes. `Bytes m p bs` says that `bs` lie in `m` from
`p` on.
-/
namespace EmbeddedCode.ByteMemory

abbrev Memory := ℕ → UInt8

def Bytes (m : Memory) : ℕ → List UInt8 → Prop
  | _, [] => True
  | p, b :: bs => m p = b ∧ Bytes m (p + 1) bs

variable {m m' : Memory} {p a : ℕ} {b : UInt8} {xs ys : List UInt8}

@[simp] theorem bytes_nil : Bytes m p [] := trivial

@[simp] theorem bytes_cons : Bytes m p (b :: xs) ↔ m p = b ∧ Bytes m (p + 1) xs := Iff.rfl

theorem bytes_append : Bytes m p (xs ++ ys) ↔ Bytes m p xs ∧ Bytes m (p + xs.length) ys := by
  induction xs generalizing p with
  | nil => simp
  | cons x xs ih =>
      rw [List.cons_append, bytes_cons, bytes_cons, ih, List.length_cons, Nat.add_assoc,
        Nat.add_comm 1, and_assoc]

theorem Bytes.congr (h : Bytes m p xs) (hm : ∀ a, p ≤ a → a < p + xs.length → m' a = m a) :
    Bytes m' p xs := by
  induction xs generalizing p with
  | nil => trivial
  | cons x xs ih =>
      rw [List.length_cons] at hm
      refine ⟨(hm p (Nat.le_refl _) (by omega)).trans h.1, ih h.2 fun a hle hlt => ?_⟩
      exact hm a (by omega) (by omega)

theorem Bytes.update (h : Bytes m p xs) (ha : a < p ∨ p + xs.length ≤ a) (b : UInt8) :
    Bytes (Function.update m a b) p xs :=
  h.congr fun _ hle hlt => Function.update_of_ne (by omega) _ _

theorem Bytes.move {q : ℕ} (h : Bytes m p xs) (hm : ∀ i < xs.length, m' (q + i) = m (p + i)) :
    Bytes m' q xs := by
  induction xs generalizing p q with
  | nil => trivial
  | cons x xs ih =>
      rw [List.length_cons] at hm
      refine ⟨(hm 0 (Nat.succ_pos _)).trans h.1, ih h.2 fun i hi => ?_⟩
      rw [Nat.add_assoc, Nat.add_assoc, Nat.add_comm 1]
      exact hm (i + 1) (Nat.succ_lt_succ hi)

/-- A byte that is stored behind others. -/
theorem Bytes.concat (h : Bytes m p xs) (b : UInt8) :
    Bytes (Function.update m (p + xs.length) b) p (xs ++ [b]) :=
  bytes_append.mpr ⟨h.update (.inr (Nat.le_refl _)) b, Function.update_self _ _ _, trivial⟩

/-- A fact about bytes by going through all of them. -/
theorem forall_byte {P : UInt8 → Prop} (h : ∀ n : Fin 256, P (UInt8.ofFin n)) (b : UInt8) : P b :=
  h b.toFin

end EmbeddedCode.ByteMemory
