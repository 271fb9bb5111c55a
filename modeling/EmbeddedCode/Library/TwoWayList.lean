import EmbeddedCode.Library.LinkedList
import Mathlib.Data.List.Nodup

/-!
# Lists that are linked both ways

A list starts at a cell of memory, and `loc` gives the cell of a node that holds the
pointer to what comes after the node. To insert or erase a node is to write to the
cell that refers to the place, the last cell before it. A ring is linked by two such
lists, one the reverse of the other. A list with owners has nodes that know the cell
by which they are referred to.
-/
namespace EmbeddedCode.LinkedList

variable {α Λ P : Type*} {ref : α → P} {loc : α → Λ} {mem mem' : Λ → P} {c : Λ} {q : P} {a : α}
  {us vs xs : List α}

def Listed (ref : α → P) (loc : α → Λ) (mem : Λ → P) (c : Λ) (xs : List α) (q : P) : Prop :=
  Segment ref (mem ∘ loc) (mem c) xs q

/-- The cell that refers to what comes after the nodes of a list that starts at `c`. -/
def lastCell (loc : α → Λ) : Λ → List α → Λ
  | c, [] => c
  | _, a :: us => lastCell loc (loc a) us

theorem listed_cons :
    Listed ref loc mem c (a :: xs) q ↔ mem c = ref a ∧ Listed ref loc mem (loc a) xs q := Iff.rfl

theorem lastCell_append : lastCell loc c (us ++ vs) = lastCell loc (lastCell loc c us) vs := by
  induction us generalizing c with
  | nil => rfl
  | cons b us ih => exact ih

theorem lastCell_concat : lastCell loc c (us ++ [a]) = loc a := lastCell_append

theorem lastCell_eq (loc : α → Λ) (c : Λ) (us : List α) :
    lastCell loc c us = (us.map loc).getLastD c := by
  induction us generalizing c with
  | nil => rfl
  | cons b us ih => rw [lastCell, ih, List.map_cons, List.getLastD_cons]

theorem lastCell_reverse (loc : α → Λ) (c : Λ) (us : List α) :
    lastCell loc c us.reverse = (us.map loc).headD c := by
  cases us with
  | nil => rfl
  | cons b us => rw [List.reverse_cons, lastCell_concat, List.map_cons, List.headD_cons]

theorem lastCell_mem (loc : α → Λ) (c : Λ) (us : List α) : lastCell loc c us ∈ c :: us.map loc := by
  induction us generalizing c with
  | nil => simp [lastCell]
  | cons b us ih => exact List.mem_cons_of_mem _ (ih (loc b))

theorem lastCell_ne {b : α} (hn : (c :: (b :: us ++ vs).map loc).Nodup) :
    c ≠ lastCell loc (loc b) us := by
  rintro heq
  apply (List.nodup_cons.mp hn).1
  rw [List.map_append]
  apply List.mem_append_left
  rw [heq]
  exact lastCell_mem loc (loc b) us

/-- The cell before a node is not the cell of the node. -/
theorem lastCell_ne_node (hn : (c :: (us ++ a :: vs).map loc).Nodup) :
    lastCell loc c us ≠ loc a := by
  rw [List.map_append, ← List.cons_append] at hn
  intro heq
  exact (List.nodup_append.mp hn).2.2 _ (lastCell_mem loc c us) _ (by simp) heq

theorem Listed.congr (h : Listed ref loc mem c xs q) (hm : ∀ l ∈ c :: xs.map loc, mem' l = mem l) :
    Listed ref loc mem' c xs q := by
  unfold Listed
  rw [hm c List.mem_cons_self]
  apply Segment.congr h
  intro b hb
  exact hm (loc b) (List.mem_cons_of_mem _ (List.mem_map_of_mem hb))

theorem Listed.append (h : Listed ref loc mem c (us ++ vs) q) :
    Listed ref loc mem (lastCell loc c us) vs q := by
  induction us generalizing c with
  | nil => exact h
  | cons b us ih => exact ih h.2

theorem Listed.last (h : Listed ref loc mem c xs q) : mem (lastCell loc c xs) = q :=
  Listed.append (xs.append_nil.symm ▸ h : Listed ref loc mem c (xs ++ []) q)

/-- Where the pointers are the cells, a list starts with the last cell of the reverse list. -/
theorem Listed.start {mem : Λ → Λ} {q : Λ} (h : Listed loc loc mem c xs q) :
    mem c = lastCell loc q xs.reverse := by
  cases xs with
  | nil => exact h
  | cons a xs =>
      rw [List.reverse_cons, lastCell_concat]
      exact h.1

/-- Where the pointers are the cells, they lead to cells of the list and to its end. -/
theorem Listed.mem_cells {mem : Λ → Λ} {q l : Λ} (h : Listed loc loc mem c xs q)
    (hl : l ∈ c :: xs.map loc) : mem l ∈ q :: xs.map loc := by
  induction xs generalizing c with
  | nil =>
      rw [List.map_nil, List.mem_singleton] at hl
      rw [hl]
      exact List.mem_singleton.mpr h
  | cons a xs ih =>
      rcases List.mem_cons.mp hl with rfl | hl
      · rw [h.1]
        simp
      · have hmem := ih h.2 hl
        rw [List.mem_cons] at hmem
        simp only [List.map_cons, List.mem_cons]
        exact hmem.imp_right .inr

section
variable [DecidableEq Λ]

theorem Listed.insert (us vs : List α) (h : Listed ref loc mem c (us ++ vs) q)
    (hn : (c :: (us ++ a :: vs).map loc).Nodup) :
    Listed ref loc (Function.update (Function.update mem (lastCell loc c us) (ref a)) (loc a)
      (mem (lastCell loc c us))) c (us ++ a :: vs) q := by
  induction us generalizing c with
  | nil =>
      simp only [List.nil_append, List.map_cons, List.nodup_cons, List.mem_cons, not_or] at hn
      obtain ⟨⟨hca, hc⟩, ha, _⟩ := hn
      refine ⟨?_, ?_⟩
      · simp [lastCell, hca]
      · simp only [Function.comp_apply, Function.update_self, lastCell]
        apply Segment.congr h
        intro b hb
        have hbv := List.mem_map_of_mem (f := loc) hb
        have hbc : loc b ≠ c := ne_of_mem_of_not_mem hbv hc
        have hba : loc b ≠ loc a := ne_of_mem_of_not_mem hbv ha
        simp [hbc, hba]
  | cons b us ih =>
      obtain ⟨hcn, htail⟩ := List.nodup_cons.mp hn
      refine ⟨?_, ih h.2 htail⟩
      have hca : c ≠ loc a := fun heq => hcn (by simp [heq])
      rw [Function.update_of_ne hca]
      exact (Function.update_of_ne (lastCell_ne hn) _ _).trans h.1

theorem Listed.erase (h : Listed ref loc mem c (us ++ a :: vs) q)
    (hn : (c :: (us ++ a :: vs).map loc).Nodup) :
    Listed ref loc (Function.update mem (lastCell loc c us) (mem (loc a))) c (us ++ vs) q := by
  induction us generalizing c with
  | nil =>
      simp only [List.nil_append, List.map_cons, List.nodup_cons, List.mem_cons, not_or] at hn
      obtain ⟨⟨_, hc⟩, _⟩ := hn
      simp only [Listed, lastCell, Function.update_self]
      apply Segment.congr h.2
      intro b hb
      have hbc : loc b ≠ c := ne_of_mem_of_not_mem (List.mem_map_of_mem hb) hc
      exact Function.update_of_ne hbc _ _
  | cons b us ih =>
      obtain ⟨hcn, htail⟩ := List.nodup_cons.mp hn
      refine ⟨?_, ih h.2 htail⟩
      exact (Function.update_of_ne (lastCell_ne hn) _ _).trans h.1

/-- A circular list with a head that is not one of its nodes. -/
structure Ring (loc : α → Λ) (next prev : Λ → Λ) (head : Λ) (xs : List α) : Prop where
  distinct : (head :: xs.map loc).Nodup
  forward : Listed loc loc next head xs head
  backward : Listed loc loc prev head xs.reverse head

section
variable {next prev next' prev' : Λ → Λ} {head : Λ}

omit [DecidableEq Λ] in
theorem Ring.congr (h : Ring loc next prev head xs)
    (hn : ∀ l ∈ head :: xs.map loc, next' l = next l)
    (hp : ∀ l ∈ head :: xs.map loc, prev' l = prev l) : Ring loc next' prev' head xs := by
  refine ⟨h.distinct, h.forward.congr hn, h.backward.congr fun l hl => hp l ?_⟩
  simpa using hl

omit [DecidableEq Λ] in
theorem ring_nil (hn : next head = head) (hp : prev head = head) : Ring loc next prev head [] :=
  ⟨List.nodup_singleton _, hn, hp⟩

omit [DecidableEq Λ] in
theorem Ring.next_mem (h : Ring loc next prev head xs) {l : Λ} (hl : l ∈ head :: xs.map loc) :
    next l ∈ head :: xs.map loc := h.forward.mem_cells hl

omit [DecidableEq Λ] in
theorem Ring.prev_mem (h : Ring loc next prev head xs) {l : Λ} (hl : l ∈ head :: xs.map loc) :
    prev l ∈ head :: xs.map loc := by
  have hmem := h.backward.mem_cells (l := l) (by simpa using hl)
  simpa using hmem

/-- Insertion at any place. -/
theorem Ring.insertAt (us vs : List α) (h : Ring loc next prev head (us ++ vs))
    (ha : loc a ∉ head :: (us ++ vs).map loc) :
    Ring loc
      (Function.update (Function.update next (lastCell loc head us) (loc a)) (loc a)
        (next (lastCell loc head us)))
      (Function.update (Function.update prev (next (lastCell loc head us)) (loc a)) (loc a)
        (lastCell loc head us))
      head (us ++ a :: vs) := by
  have hdistinct : (head :: (us ++ a :: vs).map loc).Nodup := by
    have hnodup := List.nodup_cons.mpr ⟨ha, h.distinct⟩
    rw [List.map_append, ← List.cons_append] at hnodup ⊢
    exact List.nodup_middle.mpr hnodup
  refine ⟨hdistinct, Listed.insert us vs h.forward hdistinct, ?_⟩
  have hlast : next (lastCell loc head us) = lastCell loc head vs.reverse :=
    (Listed.append h.forward).start
  have hback : Listed loc loc prev head (vs.reverse ++ us.reverse) head := by
    rw [← List.reverse_append]
    exact h.backward
  have hprev : prev (next (lastCell loc head us)) = lastCell loc head us := by
    rw [hlast, (Listed.append hback).start, List.reverse_reverse]
  have hreverse : (head :: (vs.reverse ++ a :: us.reverse).map loc).Nodup := by
    have heq : vs.reverse ++ a :: us.reverse = (us ++ a :: vs).reverse := by simp
    rw [heq, List.map_reverse]
    exact ((List.reverse_perm _).cons _).nodup_iff.mpr hdistinct
  have hinsert := Listed.insert vs.reverse us.reverse hback hreverse
  rw [← hlast, hprev] at hinsert
  rwa [List.reverse_append, List.reverse_cons, List.append_assoc]

theorem Ring.insert (h : Ring loc next prev head xs) (ha : loc a ∉ head :: xs.map loc) :
    Ring loc (Function.update (Function.update next head (loc a)) (loc a) (next head))
      (Function.update (Function.update prev (next head) (loc a)) (loc a) head)
      head (a :: xs) := Ring.insertAt [] xs h ha

omit [DecidableEq Λ] in
theorem Ring.backward_split (h : Ring loc next prev head (us ++ a :: vs)) :
    Listed loc loc prev head (vs.reverse ++ a :: us.reverse) head := by
  have hback := h.backward
  rwa [List.reverse_append, List.reverse_cons, List.append_assoc, List.singleton_append] at hback

omit [DecidableEq Λ] in
theorem Ring.prev_eq (h : Ring loc next prev head (us ++ a :: vs)) :
    prev (loc a) = lastCell loc head us := by
  have hstart := (listed_cons.mp h.backward_split.append).2.start
  rwa [List.reverse_reverse] at hstart

omit [DecidableEq Λ] in
theorem Ring.next_eq (h : Ring loc next prev head (us ++ a :: vs)) :
    next (loc a) = lastCell loc head vs.reverse :=
  (listed_cons.mp h.forward.append).2.start

omit [DecidableEq Λ] in
theorem Ring.prev_ne (h : Ring loc next prev head (us ++ a :: vs)) : loc a ≠ prev (loc a) := by
  rw [h.prev_eq]
  exact (lastCell_ne_node h.distinct).symm

theorem Ring.erase (h : Ring loc next prev head (us ++ a :: vs)) :
    Ring loc (Function.update next (prev (loc a)) (next (loc a)))
      (Function.update prev (next (loc a)) (prev (loc a))) head (us ++ vs) := by
  have hdistinct : (head :: (vs.reverse ++ a :: us.reverse).map loc).Nodup := by
    have hreverse : vs.reverse ++ a :: us.reverse = (us ++ a :: vs).reverse := by simp
    rw [hreverse, List.map_reverse]
    exact ((List.reverse_perm _).cons _).nodup_iff.mpr h.distinct
  refine ⟨?_, ?_, ?_⟩
  · refine h.distinct.sublist (List.Sublist.cons_cons _ (List.Sublist.map _ ?_))
    exact (List.Sublist.refl us).append (List.sublist_cons_self a vs)
  · rw [h.prev_eq]
    exact h.forward.erase h.distinct
  · rw [h.next_eq, List.reverse_append]
    exact h.backward_split.erase hdistinct

omit [DecidableEq Λ] in
/-- A ring read backwards is a ring. -/
theorem Ring.reverse (h : Ring loc next prev head xs) : Ring loc prev next head xs.reverse := by
  refine ⟨?_, h.backward, ?_⟩
  · rw [List.map_reverse]
    exact ((List.reverse_perm _).cons _).nodup_iff.mpr h.distinct
  · rw [List.reverse_reverse]
    exact h.forward

theorem Ring.insertTail (h : Ring loc next prev head xs) (ha : loc a ∉ head :: xs.map loc) :
    Ring loc (Function.update (Function.update next (prev head) (loc a)) (loc a) head)
      (Function.update (Function.update prev head (loc a)) (loc a) (prev head))
      head (xs ++ [a]) := by
  have hinsert := (h.reverse.insert (a := a) (by simpa using ha)).reverse
  rwa [List.reverse_cons, List.reverse_reverse] at hinsert

omit [DecidableEq Λ] in
theorem Ring.prev_next (h : Ring loc next prev head xs) {l : Λ} (hl : l ∈ head :: xs.map loc) :
    prev (next l) = l := by
  rcases List.mem_cons.mp hl with rfl | hl
  · rw [h.forward.start]
    exact h.backward.last
  · obtain ⟨a, ha, rfl⟩ := List.mem_map.mp hl
    obtain ⟨us, vs, rfl⟩ := List.append_of_mem ha
    rw [h.next_eq]
    exact h.backward_split.append.1

omit [DecidableEq Λ] in
theorem Ring.next_prev (h : Ring loc next prev head xs) {l : Λ} (hl : l ∈ head :: xs.map loc) :
    next (prev l) = l := h.reverse.prev_next (by simpa using hl)

/-- The cells that a walk along the pointers passes, up to the cell `q`. -/
def walk (mem : Λ → Λ) (q : Λ) : ℕ → Λ → Option (List Λ)
  | 0, _ => none
  | fuel + 1, p => if p = q then some [] else (walk mem q fuel (mem p)).map (p :: ·)

/-- A walk around a ring passes its nodes in their order. -/
theorem Ring.walk (h : Ring loc next prev head xs) :
    Loop.Returns (fun fuel => walk next head fuel (next head)) (xs.map loc) := by
  have hne : ∀ a ∈ xs, loc a ≠ head := fun a ha heq =>
    (List.nodup_cons.mp h.distinct).1 (heq ▸ List.mem_map_of_mem ha)
  have hforward : Segment loc (next ∘ loc) (next head) xs head := h.forward
  refine ⟨xs.length + 1, fun fuel hfuel => ?_⟩
  generalize next head = p at hforward
  clear h
  induction xs generalizing fuel p with
  | nil =>
      obtain ⟨fuel, rfl⟩ : ∃ m, fuel = m + 1 := ⟨fuel - 1, by omega⟩
      exact if_pos hforward
  | cons a xs ih =>
      obtain ⟨fuel, rfl⟩ : ∃ m, fuel = m + 1 := ⟨fuel - 1, by omega⟩
      obtain ⟨rfl, hrest⟩ := hforward
      rw [List.forall_mem_cons] at hne
      rw [List.length_cons] at hfuel
      have hwalk : LinkedList.walk next head fuel (next (loc a)) = some (xs.map loc) :=
        ih hne.2 fuel (by omega) _ hrest
      simp only [LinkedList.walk, if_neg hne.1, List.map_cons, hwalk, Option.map_some]

end

/-- Every node knows the cell that refers to it. -/
def Referred (loc : α → Λ) (owner : α → Option Λ) : Λ → List α → Prop
  | _, [] => True
  | c, a :: xs => owner a = some c ∧ Referred loc owner (loc a) xs

section
variable {owner owner' : α → Option Λ} {cell cell' : Λ → Option α} {head : Λ}

omit [DecidableEq Λ] in
theorem referred_append :
    Referred loc owner c (us ++ vs) ↔
      Referred loc owner c us ∧ Referred loc owner (lastCell loc c us) vs := by
  induction us generalizing c with
  | nil => simp [Referred, lastCell]
  | cons b us ih => simp only [List.cons_append, Referred, ih, lastCell, and_assoc]

omit [DecidableEq Λ] in
theorem Referred.congr (h : Referred loc owner c xs) (ho : ∀ a ∈ xs, owner' a = owner a) :
    Referred loc owner' c xs := by
  induction xs generalizing c with
  | nil => exact h
  | cons a xs ih =>
      refine ⟨(ho a List.mem_cons_self).trans h.1, ih h.2 fun b hb => ?_⟩
      exact ho b (List.mem_cons_of_mem _ hb)

/-- A list that ends with NULL, and whose nodes know the cells that refer to them. -/
structure OwnedList (loc : α → Λ) (cell : Λ → Option α) (owner : α → Option Λ) (head : Λ)
    (xs : List α) : Prop where
  distinct : (head :: xs.map loc).Nodup
  forward : Listed some loc cell head xs none
  backward : Referred loc owner head xs

omit [DecidableEq Λ] in
theorem OwnedList.congr (h : OwnedList loc cell owner head xs)
    (hc : ∀ l ∈ head :: xs.map loc, cell' l = cell l) (ho : ∀ a ∈ xs, owner' a = owner a) :
    OwnedList loc cell' owner' head xs :=
  ⟨h.distinct, h.forward.congr hc, h.backward.congr ho⟩

variable [DecidableEq α]

/-- Tell the node that a pointer refers to, if there is one, which cell that pointer is in. -/
def setOwner (owner : α → Option Λ) (p : Option α) (c : Option Λ) : α → Option Λ :=
  match p with
  | none => owner
  | some b => Function.update owner b c

omit [DecidableEq Λ] in
theorem setOwner_of_ne {p : Option α} {b : α} (hp : p ≠ some b) (l : Option Λ) :
    setOwner owner p l b = owner b := by
  cases p with
  | none => rfl
  | some d => exact Function.update_of_ne (fun heq => hp (by rw [heq])) _ _

omit [DecidableEq Λ] in
/-- The list from a cell on is referred to by that cell, once its first node knows. -/
theorem Referred.setOwner {l : Λ} {p : Option α} (h : Referred loc owner c xs)
    (hp : p = xs.head?) (hn : xs.Nodup) :
    Referred loc (setOwner owner p (some l)) l xs := by
  cases xs with
  | nil => trivial
  | cons b xs =>
      cases hp
      refine ⟨Function.update_self .., h.2.congr fun d hd => ?_⟩
      exact Function.update_of_ne (ne_of_mem_of_not_mem hd (List.nodup_cons.mp hn).1) _ _

omit [DecidableEq Λ] [DecidableEq α] in
theorem Listed.head_eq (h : Listed some loc cell c xs none) : cell c = xs.head? := by
  cases xs with
  | nil => exact h
  | cons a xs => exact h.1

omit [DecidableEq Λ] [DecidableEq α] in
/-- A pointer in a cell of the list refers to a node of the list. -/
theorem Listed.mem_of_some {l : Λ} {b : α} (h : Listed some loc cell c xs none)
    (hl : l ∈ c :: xs.map loc) (hb : cell l = some b) : b ∈ xs := by
  induction xs generalizing c with
  | nil =>
      rw [List.map_nil, List.mem_singleton] at hl
      rw [hl] at hb
      cases hb.symm.trans h
  | cons a xs ih =>
      rcases List.mem_cons.mp hl with rfl | hl
      · cases hb.symm.trans h.1
        exact List.mem_cons_self
      · exact List.mem_cons_of_mem _ (ih h.2 hl)

/-- Insertion at any place. The node behind it is told its new cell. -/
theorem OwnedList.insertAt (us vs : List α) (h : OwnedList loc cell owner head (us ++ vs))
    (ha : loc a ∉ head :: (us ++ vs).map loc) :
    OwnedList loc
      (Function.update (Function.update cell (loc a) (cell (lastCell loc head us)))
        (lastCell loc head us) (some a))
      (setOwner (Function.update owner a (some (lastCell loc head us)))
        (cell (lastCell loc head us)) (some (loc a)))
      head (us ++ a :: vs) := by
  have hdistinct : (head :: (us ++ a :: vs).map loc).Nodup := by
    have hnodup := List.nodup_cons.mpr ⟨ha, h.distinct⟩
    rw [List.map_append, ← List.cons_append] at hnodup ⊢
    exact List.nodup_middle.mpr hnodup
  have hmem : a ∉ us ++ vs := fun hm => ha (List.mem_cons_of_mem _ (List.mem_map_of_mem hm))
  have hus : a ∉ us := fun hm => hmem (List.mem_append_left _ hm)
  have hvs : a ∉ vs := fun hm => hmem (List.mem_append_right _ hm)
  have hhead : cell (lastCell loc head us) = vs.head? := (Listed.append h.forward).head_eq
  have hnodup : (us ++ vs).Nodup := (List.nodup_cons.mp h.distinct).2.of_map
  obtain ⟨hfront, hback⟩ := referred_append.mp h.backward
  refine ⟨hdistinct, ?_, referred_append.mpr ⟨?_, ?_, ?_⟩⟩
  · rw [Function.update_comm (lastCell_ne_node hdistinct).symm]
    exact Listed.insert us vs h.forward hdistinct
  · apply hfront.congr
    intro b hb
    have hbv : vs.head? ≠ some b := fun heq =>
      (List.nodup_append.mp hnodup).2.2 b hb b (List.mem_of_head? heq) rfl
    rw [hhead, setOwner_of_ne hbv]
    exact Function.update_of_ne (ne_of_mem_of_not_mem hb hus) _ _
  · have hav : vs.head? ≠ some a := fun heq => hvs (List.mem_of_head? heq)
    rw [hhead, setOwner_of_ne hav, Function.update_self]
  · apply Referred.setOwner (c := lastCell loc head us) (hback.congr fun b hb => ?_) hhead
    · exact (List.nodup_append.mp hnodup).2.1
    · exact Function.update_of_ne (ne_of_mem_of_not_mem hb hvs) _ _

theorem OwnedList.insert (h : OwnedList loc cell owner head xs)
    (ha : loc a ∉ head :: xs.map loc) :
    OwnedList loc (Function.update (Function.update cell (loc a) (cell head)) head (some a))
      (setOwner (Function.update owner a (some head)) (cell head) (some (loc a)))
      head (a :: xs) := OwnedList.insertAt [] xs h ha

omit [DecidableEq Λ] [DecidableEq α] in
theorem OwnedList.owner_eq (h : OwnedList loc cell owner head (us ++ a :: vs)) :
    owner a = some (lastCell loc head us) := (referred_append.mp h.backward).2.1

theorem OwnedList.erase (h : OwnedList loc cell owner head (us ++ a :: vs)) :
    OwnedList loc (Function.update cell (lastCell loc head us) (cell (loc a)))
      (setOwner owner (cell (loc a)) (some (lastCell loc head us))) head (us ++ vs) := by
  have hnext : cell (loc a) = vs.head? := (listed_cons.mp h.forward.append).2.head_eq
  have hnodup : (us ++ a :: vs).Nodup := (List.nodup_cons.mp h.distinct).2.of_map
  obtain ⟨hus, hrest⟩ := referred_append.mp h.backward
  refine ⟨?_, h.forward.erase h.distinct, referred_append.mpr ⟨?_, ?_⟩⟩
  · refine h.distinct.sublist (List.Sublist.cons_cons _ (List.Sublist.map _ ?_))
    exact (List.Sublist.refl us).append (List.sublist_cons_self a vs)
  · apply hus.congr
    intro b hb
    apply setOwner_of_ne
    rw [hnext]
    intro hhead
    have hvs : b ∈ a :: vs := List.mem_cons_of_mem _ (List.mem_of_head? hhead)
    exact (List.nodup_append.mp hnodup).2.2 b hb b hvs rfl
  · apply hrest.2.setOwner hnext
    exact (List.nodup_cons.mp (List.nodup_append.mp hnodup).2.1).2

end

end

section Families

/-!
A memory holds a list for each of some heads.
-/

variable {H : Type*} [DecidableEq H] {lists : H → Option (List α)} {cells : H → List α → List Λ}
  {head : H}

/-- Lists with different heads have no cell in common. -/
def Apart (cells : H → List α → List Λ) (lists : H → Option (List α)) : Prop :=
  ∀ ⦃head head' xs xs'⦄, lists head = some xs → lists head' = some xs' →
    ∀ l ∈ cells head xs, l ∈ cells head' xs' → head = head'

theorem Apart.update (h : Apart cells lists)
    (hout : ∀ head' ys, head' ≠ head → lists head' = some ys →
      ∀ l ∈ cells head' ys, l ∉ cells head xs) :
    Apart cells (Function.update lists head (some xs)) := by
  have hother : ∀ {head' ys}, head' ≠ head →
      Function.update lists head (some xs) head' = some ys → lists head' = some ys := by
    intro head' ys hne hy
    rwa [Function.update_of_ne hne] at hy
  intro head₁ head₂ ys₁ ys₂ hy₁ hy₂ l hl₁ hl₂
  rcases eq_or_ne head₁ head with rfl | hne₁ <;> rcases eq_or_ne head₂ head₁ with rfl | hne
  · rfl
  · rw [Function.update_self] at hy₁
    cases hy₁
    exact absurd hl₁ (hout head₂ ys₂ hne (hother hne hy₂) l hl₂)
  · rfl
  · rcases eq_or_ne head₂ head with rfl | hne₂
    · rw [Function.update_self] at hy₂
      cases hy₂
      exact absurd hl₂ (hout head₁ ys₁ hne₁ (hother hne₁ hy₁) l hl₁)
    · exact h (hother hne₁ hy₁) (hother hne₂ hy₂) l hl₁ hl₂

end Families

end EmbeddedCode.LinkedList
