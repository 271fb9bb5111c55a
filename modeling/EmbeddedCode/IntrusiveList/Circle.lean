import EmbeddedCode.IntrusiveList.Model

/-!
# One list and its links

A list is a ring of allocated structures. To link a node between two neighbours and to
unlink a node are operations on the sequence of the nodes.
-/
namespace EmbeddedCode.IntrusiveList

open LinkedList

variable {Λ : Type} {m m' m'' : Heads Λ} {head a : Λ} {us vs ws xs W W' : List Λ}

/-- The list of `head` has the nodes `xs`. -/
structure Circular (m : Heads Λ) (head : Λ) (xs : List Λ) : Prop where
  ring : Ring id m.next m.prev head xs
  live : ∀ l ∈ head :: xs, m.live l = true

/-- Nothing outside `W` has been written to. -/
structure Relinked (W : List Λ) (m m' : Heads Λ) : Prop where
  live : m'.live = m.live
  next : ∀ l, l ∉ W → m'.next l = m.next l
  prev : ∀ l, l ∉ W → m'.prev l = m.prev l

namespace Relinked

theorem refl (W : List Λ) (m : Heads Λ) : Relinked W m m := ⟨rfl, fun _ _ => rfl, fun _ _ => rfl⟩

theorem trans (h : Relinked W m m') (h' : Relinked W m' m'') : Relinked W m m'' where
  live := h'.live.trans h.live
  next := fun l hl => (h'.next l hl).trans (h.next l hl)
  prev := fun l hl => (h'.prev l hl).trans (h.prev l hl)

theorem mono (h : Relinked W m m') (hW : W ⊆ W') : Relinked W' m m' where
  live := h.live
  next := fun l hl => h.next l fun hmem => hl (hW hmem)
  prev := fun l hl => h.prev l fun hmem => hl (hW hmem)

end Relinked

namespace Circular

theorem nodup (h : Circular m head xs) : (head :: xs).Nodup := by simpa using h.ring.distinct

theorem not_mem (h : Circular m head (us ++ a :: vs)) : a ∉ head :: (us ++ vs) := by
  have hnodup := h.nodup
  rw [← List.cons_append, List.nodup_middle] at hnodup
  exact (List.nodup_cons.mp hnodup).1

theorem ne_head (h : Circular m head xs) (ha : a ∈ xs) : a ≠ head := by
  rintro rfl
  exact (List.nodup_cons.mp h.nodup).1 ha

theorem next_eq (h : Circular m head (us ++ a :: vs)) : m.next a = vs.headD head := by
  have hnext := h.ring.next_eq
  rwa [lastCell_reverse, List.map_id] at hnext

theorem prev_eq (h : Circular m head (us ++ a :: vs)) : m.prev a = us.getLastD head := by
  have hprev := h.ring.prev_eq
  rwa [lastCell_eq, List.map_id] at hprev

theorem next_head (h : Circular m head xs) : m.next head = xs.headD head := by
  have hnext := h.ring.forward.start
  rwa [lastCell_reverse, List.map_id] at hnext

theorem prev_head (h : Circular m head xs) : m.prev head = xs.getLastD head := by
  have hprev := h.ring.backward.start
  rwa [List.reverse_reverse, lastCell_eq, List.map_id] at hprev

theorem readNext (h : Circular m head (us ++ a :: vs)) : m.readNext a = some (vs.headD head) := by
  rw [Heads.readNext, if_pos (h.live a (by simp)), h.next_eq]

theorem readPrev (h : Circular m head (us ++ a :: vs)) :
    m.readPrev a = some (us.getLastD head) := by
  rw [Heads.readPrev, if_pos (h.live a (by simp)), h.prev_eq]

theorem readNext_head (h : Circular m head xs) : m.readNext head = some (xs.headD head) := by
  rw [Heads.readNext, if_pos (h.live head List.mem_cons_self), h.next_head]

theorem readPrev_head (h : Circular m head xs) : m.readPrev head = some (xs.getLastD head) := by
  rw [Heads.readPrev, if_pos (h.live head List.mem_cons_self), h.prev_head]

theorem before_mem (head : Λ) (us vs : List Λ) : us.getLastD head ∈ head :: (us ++ vs) := by
  rcases List.eq_nil_or_concat us with rfl | ⟨us, b, rfl⟩ <;> simp

theorem behind_mem (head : Λ) (us vs : List Λ) : vs.headD head ∈ head :: (us ++ vs) := by
  cases vs <;> simp

theorem without_subset (head a : Λ) (us vs : List Λ) :
    head :: (us ++ vs) ⊆ head :: (us ++ a :: vs) :=
  (((List.sublist_cons_self a vs).append_left us).cons_cons head).subset

/-- What comes behind the first nodes, or behind the head when there are none. -/
theorem next_last (h : Circular m head (us ++ vs)) :
    m.next (us.getLastD head) = vs.headD head := by
  have hstart := (Listed.append h.ring.forward).start
  rwa [lastCell_reverse, lastCell_eq, List.map_id, List.map_id] at hstart

theorem readNext_last (h : Circular m head (us ++ vs)) :
    m.readNext (us.getLastD head) = some (vs.headD head) := by
  rw [Heads.readNext, if_pos (h.live _ (before_mem head us vs)), h.next_last]

theorem ne_before (h : Circular m head (us ++ (ws ++ a :: vs))) : a ≠ us.getLastD head := by
  intro heq
  have hmem := before_mem head us (ws ++ vs)
  rw [← heq, ← List.append_assoc] at hmem
  rw [← List.append_assoc] at h
  exact h.not_mem hmem

theorem links_mem (h : Circular m head xs) {l : Λ} (hl : l ∈ head :: xs) :
    m.next l ∈ head :: xs ∧ m.prev l ∈ head :: xs := by
  rcases List.mem_cons.mp hl with rfl | hl
  · have hnext := behind_mem l [] xs
    have hprev := before_mem l xs []
    rw [List.append_nil] at hprev
    exact ⟨h.next_head ▸ hnext, h.prev_head ▸ hprev⟩
  · obtain ⟨us, vs, rfl⟩ := List.append_of_mem hl
    have hsub := without_subset head l us vs
    exact ⟨h.next_eq ▸ hsub (behind_mem head us vs), h.prev_eq ▸ hsub (before_mem head us vs)⟩

/-- The order of the nodes says what all of their links are. -/
theorem links_unique {m' : Heads Λ} (h : Circular m head xs) (h' : Circular m' head xs) {l : Λ}
    (hl : l ∈ head :: xs) : m'.next l = m.next l ∧ m'.prev l = m.prev l := by
  rcases List.mem_cons.mp hl with rfl | hl
  · exact ⟨h'.next_head.trans h.next_head.symm, h'.prev_head.trans h.prev_head.symm⟩
  · obtain ⟨us, vs, rfl⟩ := List.append_of_mem hl
    exact ⟨h'.next_eq.trans h.next_eq.symm, h'.prev_eq.trans h.prev_eq.symm⟩

variable [DecidableEq Λ]

theorem listInit_eq (hl : m.live a = true) :
    m.listInit a = some {m with
      prev := Function.update m.prev a a
      next := Function.update m.next a a} := by
  simp [Heads.listInit, Heads.writePrev, Heads.writeNext, hl]

theorem add_eq {p n : Λ} (hp : m.live p = true) (hn : m.live n = true) (ha : m.live a = true) :
    m.add a p n = some {m with
      next := Function.update (Function.update m.next p a) a n
      prev := Function.update (Function.update m.prev n a) a p} := by
  simp [Heads.add, Heads.writeNext, Heads.writePrev, hp, hn, ha]

theorem del_eq (ha : m.live a = true) (hnext : m.live (m.next a) = true)
    (hprev : m.live (m.prev a) = true) (hne : a ≠ m.prev a) :
    m.del a = some {m with
      next := Function.update (Function.update m.next (m.prev a) (m.next a)) a a
      prev := Function.update (Function.update m.prev (m.next a) (m.prev a)) a a} := by
  simp [Heads.del, Heads.listInit, Heads.readNext, Heads.readPrev, Heads.writeNext,
    Heads.writePrev, ha, hnext, hprev, hne]

theorem listInit (hlive : m.live head = true) :
    ∃ m', m.listInit head = some m' ∧ Circular m' head [] ∧ Relinked [head] m m' := by
  refine ⟨_, listInit_eq hlive, ⟨?_, by simpa using hlive⟩, rfl, fun l hl => ?_, fun l hl => ?_⟩
  · exact ring_nil (Function.update_self ..) (Function.update_self ..)
  · exact Function.update_of_ne (List.ne_of_not_mem_cons hl) _ _
  · exact Function.update_of_ne (List.ne_of_not_mem_cons hl) _ _

/-- A node is linked between two neighbours. -/
theorem add (h : Circular m head (us ++ vs)) (ha : a ∉ head :: (us ++ vs))
    (hlive : m.live a = true) :
    ∃ m', m.add a (us.getLastD head) (vs.headD head) = some m' ∧
      Circular m' head (us ++ a :: vs) ∧ Relinked (head :: (us ++ a :: vs)) m m' := by
  have hsub := without_subset head a us vs
  have hring := Ring.insertAt (a := a) us vs h.ring (by simpa using ha)
  rw [lastCell_eq, List.map_id, h.next_last] at hring
  have hbefore := before_mem head us vs
  have hbehind := behind_mem head us vs
  refine ⟨_, add_eq (h.live _ hbefore) (h.live _ hbehind) hlive, ⟨hring, fun l hl => ?_⟩, rfl,
    fun l hl => ?_, fun l hl => ?_⟩
  · simp only [List.mem_cons, List.mem_append] at hl
    rcases hl with rfl | hl | rfl | hl
    · exact h.live _ List.mem_cons_self
    · exact h.live _ (List.mem_cons_of_mem _ (List.mem_append_left _ hl))
    · exact hlive
    · exact h.live _ (List.mem_cons_of_mem _ (List.mem_append_right _ hl))
  · have hla : l ≠ a := fun heq => hl (by simp [heq])
    have hlb : l ≠ us.getLastD head := fun heq => hl (heq ▸ hsub hbefore)
    exact (Function.update_of_ne hla _ _).trans (Function.update_of_ne hlb _ _)
  · have hla : l ≠ a := fun heq => hl (by simp [heq])
    have hlb : l ≠ vs.headD head := fun heq => hl (heq ▸ hsub hbehind)
    exact (Function.update_of_ne hla _ _).trans (Function.update_of_ne hlb _ _)

theorem listAdd (h : Circular m head xs) (ha : a ∉ head :: xs) (hlive : m.live a = true) :
    ∃ m', m.listAdd head a = some m' ∧ Circular m' head (a :: xs) ∧
      Relinked (head :: a :: xs) m m' := by
  rw [← List.nil_append xs] at h ha
  obtain ⟨m', hadd, hdoes⟩ := h.add ha hlive
  refine ⟨m', ?_, hdoes⟩
  rw [Heads.listAdd, h.readNext_head]
  exact hadd

theorem listAddTail (h : Circular m head xs) (ha : a ∉ head :: xs) (hlive : m.live a = true) :
    ∃ m', m.listAddTail head a = some m' ∧ Circular m' head (xs ++ [a]) ∧
      Relinked (head :: (xs ++ [a])) m m' := by
  rw [← List.append_nil xs] at h ha
  obtain ⟨m', hadd, hdoes⟩ := h.add ha hlive
  refine ⟨m', ?_, hdoes⟩
  rw [Heads.listAddTail, h.readPrev_head, List.append_nil]
  exact hadd

theorem del (h : Circular m head (us ++ a :: vs)) :
    ∃ m', m.del a = some m' ∧ Circular m' head (us ++ vs) ∧
      Relinked (head :: (us ++ a :: vs)) m m' ∧ m'.next a = a ∧ m'.prev a = a := by
  have hsub := without_subset head a us vs
  have hself : ∀ l ∈ head :: (us ++ vs).map id, l ≠ a := by
    rintro l hl rfl
    exact h.not_mem (by simpa using hl)
  have hprev : m.prev a ∈ head :: (us ++ a :: vs) := h.prev_eq ▸ before_mem head us _
  have hnext : m.next a ∈ head :: (us ++ a :: vs) := by
    rw [h.next_eq]
    exact hsub (behind_mem head us vs)
  refine ⟨_, del_eq (h.live a (by simp)) (h.live _ hnext) (h.live _ hprev) h.ring.prev_ne,
    ⟨?_, fun l hl => h.live l (hsub hl)⟩, ⟨rfl, fun l hl => ?_, fun l hl => ?_⟩,
    Function.update_self .., Function.update_self ..⟩
  · apply h.ring.erase.congr
    · exact fun l hl => Function.update_of_ne (hself l hl) _ _
    · exact fun l hl => Function.update_of_ne (hself l hl) _ _
  · have hla : l ≠ a := fun heq => hl (by simp [heq])
    have hlb : l ≠ m.prev a := fun heq => hl (heq ▸ hprev)
    exact (Function.update_of_ne hla _ _).trans (Function.update_of_ne hlb _ _)
  · have hla : l ≠ a := fun heq => hl (by simp [heq])
    have hlb : l ≠ m.next a := fun heq => hl (heq ▸ hnext)
    exact (Function.update_of_ne hla _ _).trans (Function.update_of_ne hlb _ _)

end Circular

end EmbeddedCode.IntrusiveList
