import EmbeddedCode.IntrusiveList.Circle
import EmbeddedCode.Library.StableSort
import EmbeddedCode.ListSort.Model
import Mathlib.Logic.Equiv.Basic

/-!
# Two nodes change their places

`swap` links nodes and unlinks them: the node on its stack stands for one of the two nodes
as long as that one is elsewhere.
-/
namespace EmbeddedCode.ListSort

open IntrusiveList

section
variable {Λ : Type} {a b : Λ} {us vs ws xs : List Λ}

theorem map_eq_self {f : Λ → Λ} (h : ∀ l ∈ xs, f l = l) : xs.map f = xs :=
  (List.map_congr_left h).trans (List.map_id xs)

variable [DecidableEq Λ]

/-- One node takes the place of another one. -/
def substitute (m : Heads Λ) (a x : Λ) : Option (Heads Λ) := do
  let m ← m.listAdd a x
  m.del a

/-- `x` for `a`. -/
def renamed (a x l : Λ) : Λ := if l = a then x else l

theorem map_renamed_self (a : Λ) (xs : List Λ) : xs.map (renamed a a) = xs :=
  map_eq_self fun l _ => by
    unfold renamed
    split_ifs with hl
    · exact hl.symm
    · rfl

theorem renamed_swap {stack l : Λ} (ha : a ≠ stack) (hb : b ≠ stack)
    (hl : l ≠ stack) :
    renamed stack b (renamed b a (renamed a stack l)) = Equiv.swap a b l := by
  rw [Equiv.swap_apply_def]
  grind [renamed]

/-- The exchange as it looks from the first of the two nodes. -/
theorem map_swap (hn : (us ++ a :: (ws ++ b :: vs)).Nodup) :
    (us ++ a :: (ws ++ b :: vs)).map (Equiv.swap a b) = us ++ b :: (ws ++ a :: vs) := by
  simp only [List.nodup_append, List.nodup_cons, List.mem_append, List.mem_cons] at hn
  have hkept : ∀ ys : List Λ, (∀ l ∈ ys, l ≠ a ∧ l ≠ b) → ys.map (Equiv.swap a b) = ys :=
    fun ys hys => map_eq_self fun l hl => Equiv.swap_apply_of_ne_of_ne (hys l hl).1 (hys l hl).2
  simp only [List.map_append, List.map_cons, Equiv.swap_apply_left, Equiv.swap_apply_right]
  rw [hkept us (by grind), hkept ws (by grind), hkept vs (by grind)]

theorem mem_map_swap (ha : a ∈ xs) (hb : b ∈ xs) {l : Λ} :
    l ∈ xs.map (Equiv.swap a b) ↔ l ∈ xs := by
  have hkept : ∀ l ∈ xs, Equiv.swap a b l ∈ xs := by
    intro l hl
    rw [Equiv.swap_apply_def]
    split_ifs
    · exact hb
    · exact ha
    · exact hl
  rw [List.mem_map]
  constructor
  · rintro ⟨x, hx, rfl⟩
    exact hkept x hx
  · intro hl
    exact ⟨Equiv.swap a b l, hkept l hl, Equiv.swap_apply_self a b l⟩

theorem substitute_self {m : Heads Λ} (hlive : m.live a = true) (hnext : m.next a = a)
    (hprev : m.prev a = a) : ListSort.substitute m a a = some m := by
  have hnext' : Function.update m.next a a = m.next := by rw [Function.update_eq_self_iff, hnext]
  have hprev' : Function.update m.prev a a = m.prev := by rw [Function.update_eq_self_iff, hprev]
  have hadd : m.add a a a = some m := by
    rw [Circular.add_eq hlive hlive hlive, hnext', hnext', hprev', hprev']
  have hlistAdd : m.listAdd a a = some m := by
    rw [Heads.listAdd, Heads.readNext, if_pos hlive, hnext]
    exact hadd
  have hinit : m.listInit a = some m := by rw [Circular.listInit_eq hlive, hnext', hprev']
  have hwrites : m.writeNext a a = some m ∧ m.writePrev a a = some m := by
    rw [Heads.writeNext, Heads.writePrev, if_pos hlive, if_pos hlive, hnext', hprev']
    exact ⟨rfl, rfl⟩
  rw [ListSort.substitute, hlistAdd]
  simp only [Option.bind_eq_bind, Option.bind_some, Heads.del, Heads.readNext, Heads.readPrev,
    if_pos hlive, hnext, hprev, hwrites.1, hwrites.2, hinit]

/-- The three places change their nodes in turn. -/
theorem swap_eq (stack : Λ) (m : Heads Λ) (a b : Λ) :
    swap stack m a b = (push m stack).bind fun m =>
      (ListSort.substitute m a stack).bind fun m =>
        (ListSort.substitute m b a).bind fun m =>
          (ListSort.substitute m stack b).bind fun m => some (pop m stack) := by
  simp only [ListSort.swap, ListSort.substitute, Heads.listAdd, Option.bind_eq_bind,
    Option.bind_assoc]

end

end EmbeddedCode.ListSort

namespace EmbeddedCode.IntrusiveList.Circular

open ListSort

variable {Λ : Type} [DecidableEq Λ] {m : Heads Λ} {head a b stack : Λ} {us vs ws xs : List Λ}

theorem substitute (h : Circular m head xs) (ha : a ∈ xs) {x : Λ} (hx : x ∉ head :: xs)
    (hlive : m.live x = true) :
    ∃ m', ListSort.substitute m a x = some m' ∧
      Circular m' head (xs.map (renamed a x)) ∧
      Relinked (x :: head :: xs) m m' ∧ m'.next a = a ∧ m'.prev a = a := by
  obtain ⟨us, vs, rfl⟩ := List.append_of_mem ha
  have hbehind : Circular m head ((us ++ [a]) ++ vs) := by simpa using h
  obtain ⟨m₁, hadd, h₁, hr₁⟩ := hbehind.add (a := x) (by simpa using hx) hlive
  rw [List.getLastD_concat] at hadd
  have hmiddle : Circular m₁ head (us ++ a :: (x :: vs)) := by simpa using h₁
  obtain ⟨m₂, hdel, h₂, hr₂, hself⟩ := hmiddle.del
  have hlistAdd : m.listAdd a x = some m₁ := by
    rw [Heads.listAdd, h.readNext]
    exact hadd
  have hnodup := h.nodup
  simp only [List.nodup_cons, List.nodup_append, List.mem_cons] at hnodup
  have hus : us.map (renamed a x) = us :=
    map_eq_self fun l hl => if_neg (by grind)
  have hvs : vs.map (renamed a x) = vs :=
    map_eq_self fun l hl => if_neg (by grind)
  refine ⟨m₂, ?_, ?_, (hr₁.mono ?_).trans (hr₂.mono ?_), hself⟩
  · rw [ListSort.substitute, hlistAdd]
    exact hdel
  · rwa [List.map_append, List.map_cons, hus, hvs, renamed, if_pos rfl]
  · intro l hl
    grind
  · intro l hl
    grind

/-- The node on the stack is in no list. -/
theorem pushed (h : Circular m head xs) (hstack : m.live stack = false) :
    stack ∉ head :: xs ∧ ∃ m', push m stack = some m' ∧ Circular m' head xs ∧
      m'.live = Function.update m.live stack true ∧ m'.next = m.next ∧ m'.prev = m.prev := by
  have hout : stack ∉ head :: xs := fun hmem => by
    rw [h.live stack hmem] at hstack
    cases hstack
  refine ⟨hout, {m with live := Function.update m.live stack true}, ?_, ⟨h.ring, fun l hl => ?_⟩,
    rfl, rfl, rfl⟩
  · rw [push, if_neg (by simp [hstack])]
  · have hne : l ≠ stack := ne_of_mem_of_not_mem hl hout
    exact (Function.update_of_ne hne _ _).trans (h.live l hl)

theorem popped {m₁ : Heads Λ} (h : Circular m₁ head xs) (hstack : m.live stack = false)
    (hout : stack ∉ head :: xs) (hlive : m₁.live = Function.update m.live stack true) :
    Circular (pop m₁ stack) head xs ∧ (pop m₁ stack).live = m.live := by
  have heq : (pop m₁ stack).live = m.live := by
    rw [pop, hlive, Function.update_idem, ← hstack, Function.update_eq_self]
  refine ⟨⟨h.ring, fun l hl => ?_⟩, heq⟩
  have hne : l ≠ stack := ne_of_mem_of_not_mem hl hout
  exact (Function.update_of_ne hne _ _).trans (h.live l hl)

/-- The second of the two nodes comes to the place of the first one. There is nothing to do if it
is the same node. -/
theorem substitute_second {m₁ : Heads Λ} (h₁ : Circular m₁ head (xs.map (renamed a stack)))
    (hlive : m₁.live a = true) (hself : m₁.next a = a ∧ m₁.prev a = a) (hb : b ∈ xs)
    (hout : a ∉ head :: xs.map (renamed a stack)) :
    ∃ m₂, ListSort.substitute m₁ b a = some m₂ ∧
      Circular m₂ head ((xs.map (renamed a stack)).map (renamed b a)) ∧
      Relinked (a :: head :: xs.map (renamed a stack)) m₁ m₂ := by
  by_cases hab : b = a
  · subst hab
    refine ⟨m₁, substitute_self hlive hself.1 hself.2, ?_, .refl _ _⟩
    rwa [map_renamed_self]
  · obtain ⟨m₂, hsub, h₂, hr, -⟩ :=
      h₁.substitute (List.mem_map.mpr ⟨b, hb, if_neg hab⟩) hout hlive
    exact ⟨m₂, hsub, h₂, hr⟩

theorem swap (h : Circular m head xs) (ha : a ∈ xs) (hb : b ∈ xs) (hstack : m.live stack = false) :
    ∃ m', swap stack m a b = some m' ∧ Circular m' head (xs.map (Equiv.swap a b)) ∧
      Relinked (stack :: head :: xs) m m' ∧ m'.next stack = stack ∧ m'.prev stack = stack := by
  obtain ⟨hout, m₀, hpush, h₀, hlive₀, hnext₀, hprev₀⟩ := h.pushed hstack
  have hahead := h.ne_head ha
  have hbhead := h.ne_head hb
  simp only [List.mem_cons, not_or] at hout
  have hastack : a ≠ stack := ne_of_mem_of_not_mem ha hout.2
  have hbstack : b ≠ stack := ne_of_mem_of_not_mem hb hout.2
  obtain ⟨m₁, hsub₁, h₁, hr₁, hself₁⟩ := h₀.substitute (x := stack) ha (by simpa using hout)
    (by rw [hlive₀, Function.update_self])
  obtain ⟨m₂, hsub₂, h₂, hr₂⟩ := h₁.substitute_second
    (by rw [hr₁.live]; exact h₀.live a (List.mem_cons_of_mem _ ha)) hself₁ hb
    (by grind [renamed])
  obtain ⟨m₃, hsub₃, h₃, hr₃, hself₃⟩ := h₂.substitute (a := stack) (x := b)
    (by grind [renamed]) (by grind [renamed])
    (by rw [hr₂.live, hr₁.live]; exact h₀.live b (List.mem_cons_of_mem _ hb))
  have hr : Relinked (stack :: head :: xs) m₀ m₃ := by
    refine (hr₁.mono ?_).trans ((hr₂.mono ?_).trans (hr₃.mono ?_)) <;>
    · intro l hl
      grind [renamed]
  have hmap : ((xs.map (renamed a stack)).map (renamed b a)).map (renamed stack b) =
      xs.map (Equiv.swap a b) := by
    rw [List.map_map, List.map_map]
    apply List.map_congr_left
    intro l hl
    exact renamed_swap hastack hbstack (ne_of_mem_of_not_mem hl hout.2)
  rw [hmap] at h₃
  have hstill : stack ∉ head :: xs.map (Equiv.swap a b) := by
    simp only [List.mem_cons, List.mem_map, Equiv.swap_apply_def]
    grind
  obtain ⟨h₄, hlive₄⟩ := h₃.popped hstack hstill (hr.live.trans hlive₀)
  refine ⟨pop m₃ stack, ?_, h₄, ⟨hlive₄, fun l hl => ?_, fun l hl => ?_⟩, hself₃⟩
  · simp only [swap_eq, hpush, hsub₁, hsub₂, hsub₃, Option.bind_some]
  · exact (hr.next l hl).trans (congrFun hnext₀ l)
  · exact (hr.prev l hl).trans (congrFun hprev₀ l)

/-- `swap` of a node and a node behind it. -/
theorem swap_forward (h : Circular m head (us ++ a :: (ws ++ b :: vs)))
    (hstack : m.live stack = false) :
    ∃ m', ListSort.swap stack m a b = some m' ∧ Circular m' head (us ++ b :: (ws ++ a :: vs)) ∧
      Relinked (stack :: head :: (us ++ a :: (ws ++ b :: vs))) m m' := by
  rw [← map_swap (List.nodup_cons.mp h.nodup).2]
  obtain ⟨m', hswap, h', hr, -⟩ := h.swap (a := a) (b := b) (by simp) (by simp) hstack
  exact ⟨m', hswap, h', hr⟩

/-- `swap` of a node and a node before it. -/
theorem swap_backward (h : Circular m head (us ++ a :: (ws ++ b :: vs)))
    (hstack : m.live stack = false) :
    ∃ m', ListSort.swap stack m b a = some m' ∧ Circular m' head (us ++ b :: (ws ++ a :: vs)) ∧
      Relinked (stack :: head :: (us ++ a :: (ws ++ b :: vs))) m m' := by
  rw [← map_swap (List.nodup_cons.mp h.nodup).2, Equiv.swap_comm]
  obtain ⟨m', hswap, h', hr, -⟩ := h.swap (a := b) (b := a) (by simp) (by simp) hstack
  exact ⟨m', hswap, h', hr⟩

end EmbeddedCode.IntrusiveList.Circular

namespace EmbeddedCode.ListSort

open IntrusiveList

def three : Heads ℕ where
  live l := l ≤ 3
  prev l := if l = 0 then 3 else l - 1
  next l := if l = 3 then 0 else l + 1

theorem circular_three : Circular three 0 [1, 2, 3] where
  ring := ⟨by decide, ⟨rfl, rfl, rfl, rfl⟩, ⟨rfl, rfl, rfl, rfl⟩⟩
  live := by decide

section Exchange
variable {Λ : Type} [DecidableEq Λ] {m : Heads Λ} {head a b stack : Λ} {xs : List Λ}

/-- No link between `stack` and other structures is left. -/
structure Unlinked (m : Heads Λ) (head : Λ) (xs : List Λ) (stack : Λ) : Prop where
  next : m.next stack = stack
  prev : m.prev stack = stack
  outside : ∀ l ∈ head :: xs, m.next l ≠ stack ∧ m.prev l ≠ stack

/-- `swap` exchanges the places of two nodes of a list and leaves all others where they are.
A node that is given twice stays where it is, with all links as before. -/
theorem swap_exchanges (h : Circular m head xs) (ha : a ∈ xs) (hb : b ∈ xs)
    (hstack : m.live stack = false) :
    ∃ m', swap stack m a b = some m' ∧ Circular m' head (xs.map (Equiv.swap a b)) ∧
      Relinked (stack :: head :: xs) m m' ∧ (a = b → Relinked [stack] m m') ∧
      Unlinked m' head xs stack := by
  obtain ⟨m', hswap, h', hr, hnext, hprev⟩ := h.swap ha hb hstack
  have hout := (h.pushed hstack).1
  refine ⟨m', hswap, h', hr, fun hab => ?_, hnext, hprev, fun l hl => ?_⟩
  · have hsame : Circular m' head xs := by
      rwa [hab, Equiv.swap_self, Equiv.coe_refl, List.map_id] at h'
    refine ⟨hr.live, fun l hl => ?_, fun l hl => ?_⟩
    · by_cases hlist : l ∈ head :: xs
      · exact (h.links_unique hsame hlist).1
      · exact hr.next l (by simp_all)
    · by_cases hlist : l ∈ head :: xs
      · exact (h.links_unique hsame hlist).2
      · exact hr.prev l (by simp_all)
  · have hl' : l ∈ head :: xs.map (Equiv.swap a b) := by
      rwa [List.mem_cons, mem_map_swap ha hb, ← List.mem_cons]
    obtain ⟨hnext', hprev'⟩ := h'.links_mem hl'
    rw [List.mem_cons, mem_map_swap ha hb, ← List.mem_cons] at hnext' hprev'
    exact ⟨ne_of_mem_of_not_mem hnext' hout, ne_of_mem_of_not_mem hprev' hout⟩

theorem swap_exchanges_three :
    ∃ m', swap 4 three 3 2 = some m' ∧ Circular m' 0 [1, 3, 2] ∧
      Relinked [4, 0, 1, 2, 3] three m' ∧ (3 = 2 → Relinked [4] three m') ∧
      Unlinked m' 0 [1, 2, 3] 4 :=
  swap_exchanges circular_three (by decide) (by decide) (by decide)

end Exchange

/-- The nodes 1 and 3 are equal. -/
def keyOf (l : ℕ) : ℤ := if l = 2 then 1 else 2

end EmbeddedCode.ListSort
