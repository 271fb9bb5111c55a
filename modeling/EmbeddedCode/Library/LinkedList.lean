import EmbeddedCode.Library.Loop
import Mathlib.Logic.Function.Basic

/-!
# Linked lists in memory

The nodes of a list are addresses. A pointer is the reference to a node or some
other value, such as NULL or the head of a ring, at which a list ends. `Segment`
says that the pointers which start with `p` pass the nodes `xs` and then have the
value `q`.
-/
namespace EmbeddedCode.LinkedList

open Loop

variable {α P : Type*} {ref : α → P} {next : α → P} {p q r : P} {a z : α} {xs ys : List α}

def Segment (ref next : α → P) : P → List α → P → Prop
  | p, [], q => p = q
  | p, a :: xs, q => p = ref a ∧ Segment ref next (next a) xs q

@[simp] theorem segment_nil : Segment ref next p [] q ↔ p = q := Iff.rfl

@[simp] theorem segment_cons :
    Segment ref next p (a :: xs) q ↔ p = ref a ∧ Segment ref next (next a) xs q := Iff.rfl

theorem segment_append :
    Segment ref next p (xs ++ ys) r ↔
      ∃ q, Segment ref next p xs q ∧ Segment ref next q ys r := by
  induction xs generalizing p with
  | nil => simp
  | cons a xs ih => simp [ih, and_assoc]

theorem segment_concat :
    Segment ref next p (xs ++ [a]) q ↔ Segment ref next p xs (ref a) ∧ next a = q := by
  simp only [segment_append, segment_cons, segment_nil]
  constructor
  · rintro ⟨_, h, rfl, hq⟩
    exact ⟨h, hq⟩
  · exact fun ⟨h, hq⟩ => ⟨_, h, rfl, hq⟩

/-- A list depends on the pointers of its own nodes only. -/
theorem Segment.congr {next' : α → P} (h : Segment ref next p xs q)
    (hn : ∀ a ∈ xs, next' a = next a) : Segment ref next' p xs q := by
  induction xs generalizing p with
  | nil => exact h
  | cons a xs ih =>
      refine ⟨h.1, ?_⟩
      rw [hn a (by simp)]
      exact ih h.2 fun b hb => hn b (by simp [hb])

theorem Segment.update [DecidableEq α] (h : Segment ref next p xs q) (hz : z ∉ xs) (v : P) :
    Segment ref (Function.update next z v) p xs q :=
  h.congr fun _ ha => Function.update_of_ne (ne_of_mem_of_not_mem ha hz) _ _

/-- The nodes up to a value that refers to no node are determined by the pointers. -/
theorem Segment.unique (hinj : Function.Injective ref) (hq : ∀ a, ref a ≠ q)
    (h : Segment ref next p xs q) (h' : Segment ref next p ys q) : xs = ys := by
  induction xs generalizing p ys with
  | nil =>
      cases ys with
      | nil => rfl
      | cons b ys => exact absurd (h'.1.symm.trans h) (hq b)
  | cons a xs ih =>
      cases ys with
      | nil => exact absurd (h.1.symm.trans h') (hq a)
      | cons b ys =>
          obtain rfl : a = b := hinj (h.1.symm.trans h'.1)
          rw [ih h.2 h'.2]

/-- A list that ends has no node twice. -/
theorem Segment.nodup (hinj : Function.Injective ref) (hq : ∀ a, ref a ≠ q)
    (h : Segment ref next p xs q) : xs.Nodup := by
  induction xs generalizing p with
  | nil => exact List.nodup_nil
  | cons a xs ih =>
      refine List.nodup_cons.mpr ⟨fun ha => ?_, ih h.2⟩
      obtain ⟨us, vs, rfl⟩ := List.append_of_mem ha
      obtain ⟨r, _, hr⟩ := segment_append.mp h.2
      -- From the second `a` on, the list would be the same as from the first.
      have hsame : Segment ref next p (a :: vs) q := ⟨h.1, hr.2⟩
      have := congrArg List.length (h.unique hinj hq hsame)
      simp only [List.length_cons, List.length_append] at this
      omega

/-- A loop that only passes the nodes of a list comes to the end of the list. Its state is
given by the pointer that it has reached. -/
theorem Segment.run_skip {σ ρ : Type*} {turn : σ → Option (Turn σ ρ)}
    (h : Segment ref next p xs q) (pos : P → σ)
    (hturn : ∀ a ∈ xs, turn (pos (ref a)) = some (.again (pos (next a)))) (fuel : ℕ) :
    run turn (fuel + xs.length) (pos p) = run turn fuel (pos q) := by
  induction xs generalizing p with
  | nil => rw [segment_nil.mp h, List.length_nil, Nat.add_zero]
  | cons a xs ih =>
      rw [h.1, List.length_cons, ← Nat.add_assoc, run_again (hturn a List.mem_cons_self)]
      exact ih h.2 fun b hb => hturn b (List.mem_cons_of_mem _ hb)

/-- What holds of the first node and is passed on along the pointers holds of every node. -/
theorem Segment.forall_mem {Q : α → Prop} (h : Segment ref next p xs q)
    (hfirst : ∀ a, p = ref a → Q a) (hnext : ∀ a b, Q a → next a = ref b → Q b) :
    ∀ a ∈ xs, Q a := by
  induction xs generalizing p with
  | nil => simp
  | cons b xs ih =>
      have hb := hfirst b h.1
      rw [List.forall_mem_cons]
      exact ⟨hb, ih h.2 fun c hc => hnext b c hb hc⟩

def Chain (next : α → Option α) (p : Option α) (xs : List α) : Prop := Segment some next p xs none

namespace Chain

variable {next : α → Option α} {p : Option α}

theorem nodup (h : Chain next p xs) : xs.Nodup :=
  Segment.nodup (fun _ _ => Option.some.inj) (fun _ => Option.some_ne_none _) h

theorem head_eq (h : Chain next p xs) : p = xs.head? := by
  cases xs with
  | nil => exact h
  | cons a xs => exact h.1

theorem congr {next' : α → Option α} (h : Chain next p xs) (hn : ∀ a ∈ xs, next' a = next a) :
    Chain next' p xs := Segment.congr h hn

theorem concat [DecidableEq α] (h : Chain next p (xs ++ [z])) (ha : a ∉ xs ++ [z])
    (hnull : next a = none) :
    Chain (Function.update next z (some a)) p (xs ++ [z] ++ [a]) := by
  have hz : z ∉ xs := fun hz => (List.nodup_append.mp h.nodup).2.2 z hz z (by simp) rfl
  obtain ⟨hxs, -⟩ := segment_concat.mp h
  refine segment_concat.mpr ⟨segment_concat.mpr ⟨Segment.update hxs hz _, by simp⟩, ?_⟩
  have hne : a ≠ z := fun he => ha (by simp [he])
  rwa [Function.update_of_ne hne]

end Chain

theorem Chain.run_lastTurn {next : α → Option α} {b : α}
    (h : Chain next (some b) (xs ++ [z])) : run (lastTurn next) (xs.length + 1) b = some z := by
  induction xs generalizing b with
  | nil =>
      obtain ⟨hb, hz⟩ := h
      cases hb
      exact run_leave (by simp [lastTurn, segment_nil.mp hz]) 0
  | cons a xs ih =>
      obtain ⟨hb, ht⟩ := h
      cases hb
      have hne : next a ≠ none := fun hn => by
        rw [hn] at ht
        cases xs <;> cases ht.1
      obtain ⟨c, hc⟩ := Option.ne_none_iff_exists'.mp hne
      rw [List.length_cons, run_again (t := c) (by simp [lastTurn, hc])]
      rw [hc] at ht
      exact ih ht

end EmbeddedCode.LinkedList
