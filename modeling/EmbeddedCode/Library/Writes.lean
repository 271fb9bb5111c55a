import Mathlib.Data.Nat.Notation
import Mathlib.Logic.Function.Basic
import Mathlib.Tactic.TypeStar

/-!
# Sequences of writes to a memory

A memory is a function from addresses. The writes of a loop are a list: each element has an
address and a value, and later writes overwrite earlier ones.
-/
namespace EmbeddedCode.Writes

variable {ι α β : Type*} [DecidableEq α] (addr : ι → α) (val : ι → β)

def writes (l : List ι) (mem : α → β) : α → β :=
  l.foldl (fun mem i => Function.update mem (addr i) (val i)) mem

variable {addr val}

theorem writes_cons (i : ι) (l : List ι) (mem : α → β) :
    writes addr val (i :: l) mem =
      writes addr val l (Function.update mem (addr i) (val i)) := rfl

theorem writes_of_forall_ne {l : List ι} {a : α} (h : ∀ i ∈ l, addr i ≠ a) (mem : α → β) :
    writes addr val l mem a = mem a := by
  induction l generalizing mem with
  | nil => rfl
  | cons i l ih =>
      rw [writes_cons, ih fun j hj => h j (List.mem_cons_of_mem i hj)]
      exact Function.update_of_ne (h i List.mem_cons_self).symm ..

/-- An address may be written many times, if all these writes have the same value. -/
theorem writes_of_agree {l : List ι} {a : α} {v : β} {mem : α → β}
    (h : ∀ i ∈ l, addr i = a → val i = v) (hv : mem a = v ∨ ∃ i ∈ l, addr i = a) :
    writes addr val l mem a = v := by
  induction l generalizing mem with
  | nil => exact hv.resolve_right (by simp)
  | cons i l ih =>
      rw [writes_cons]
      apply ih fun j hj => h j (List.mem_cons_of_mem i hj)
      by_cases hi : addr i = a
      · left
        rw [hi, Function.update_self]
        exact h i List.mem_cons_self hi
      · rcases hv with hv | ⟨j, hj, hja⟩
        · exact .inl ((Function.update_of_ne (Ne.symm hi) ..).trans hv)
        · rcases List.mem_cons.mp hj with rfl | hj
          · exact absurd hja hi
          · exact .inr ⟨j, hj, hja⟩

theorem writes_of_mem {l : List ι} {i : ι} (hi : i ∈ l)
    (h : ∀ j ∈ l, addr j = addr i → val j = val i) (mem : α → β) :
    writes addr val l mem (addr i) = val i :=
  writes_of_agree h (.inr ⟨i, hi, rfl⟩)

end EmbeddedCode.Writes
