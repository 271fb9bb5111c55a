import EmbeddedCode.IntrusiveList.Circle

/-!
# The lists as circles

The invariant of the intrusive lists: every header has a ring of allocated structures,
and no structure is in two of them. Each function changes one ring, and writes only to
structures of that ring and to the node that it links or unlinks.
-/
namespace EmbeddedCode.IntrusiveList

open LinkedList Loop

variable {Λ : Type} {m m' : Heads Λ} {lists : Lists Λ} {head a : Λ} {xs ys : List Λ}

structure Circles (m : Heads Λ) (lists : Lists Λ) : Prop where
  ring : ∀ {head xs}, lists head = some xs → Ring id m.next m.prev head xs
  live : ∀ {head xs}, lists head = some xs → ∀ l ∈ head :: xs, m.live l = true
  apart : ∀ {head head' xs xs'}, lists head = some xs → lists head' = some xs' →
    ∀ l ∈ head :: xs, l ∈ head' :: xs' → head = head'

namespace Circles

variable {l : Λ}

theorem nodup (h : Circles m lists) (hx : lists head = some xs) : (head :: xs).Nodup := by
  simpa using (h.ring hx).distinct

theorem prev_next (h : Circles m lists) (hx : lists head = some xs) (hl : l ∈ head :: xs) :
    m.prev (m.next l) = l := (h.ring hx).prev_next (by simpa using hl)

theorem next_prev (h : Circles m lists) (hx : lists head = some xs) (hl : l ∈ head :: xs) :
    m.next (m.prev l) = l := (h.ring hx).next_prev (by simpa using hl)

/-- Two lists have no structure in common. -/
theorem ne_of_mem (h : Circles m lists) {head' l' : Λ} {xs' : List Λ} (hne : head' ≠ head)
    (hx' : lists head' = some xs') (hl' : l' ∈ head' :: xs') (hx : lists head = some xs)
    (hl : l ∈ head :: xs) : l' ≠ l := by
  rintro rfl
  exact hne (h.apart hx' hx l' hl' hl)

theorem circular (h : Circles m lists) (hx : lists head = some xs) : Circular m head xs :=
  ⟨h.ring hx, h.live hx⟩

theorem walk [DecidableEq Λ] (h : Circles m lists) (hx : lists head = some xs) :
    Returns (fun fuel => walk m.next head fuel (m.next head)) xs := by
  simpa using (h.ring hx).walk

end Circles

/-- The lists depend on the structures in them only. -/
theorem Circles.congr (h : Circles m lists)
    (hl : ∀ l, lists.Linked l → m'.live l = true ∧ m'.next l = m.next l ∧ m'.prev l = m.prev l) :
    Circles m' lists := by
  refine ⟨fun {head xs} hx => ?_, fun {head xs} hx l hmem => ?_, h.apart⟩
  · apply (h.ring hx).congr
    · exact fun l hmem => (hl l ⟨head, xs, hx, by simpa using hmem⟩).2.1
    · exact fun l hmem => (hl l ⟨head, xs, hx, by simpa using hmem⟩).2.2
  · exact (hl l ⟨head, xs, hx, hmem⟩).1

theorem Circles.linked_live (h : Circles m lists) (hl : lists.Linked a) : m.live a = true := by
  obtain ⟨head, xs, hx, hmem⟩ := hl
  exact h.live hx a hmem

theorem ne_of_not_linked {l : Λ} (ha : ¬ lists.Linked a) (hx : lists head = some xs)
    (hl : l ∈ head :: xs) : l ≠ a := by
  rintro rfl
  exact ha ⟨head, xs, hx, hl⟩

/-- The structures of every list other than that of `head` are linked as before. -/
def Frame (m m' : Heads Λ) (lists : Lists Λ) (head : Λ) : Prop :=
  ∀ head' xs, head' ≠ head → lists head' = some xs →
    ∀ l ∈ head' :: xs, m'.next l = m.next l ∧ m'.prev l = m.prev l

section
variable [DecidableEq Λ]

/-- What every function does to the lists: `m'` is the memory after it. -/
structure Does (m m' : Heads Λ) (lists : Lists Λ) (head : Λ) (xs : List Λ) : Prop where
  circles : Circles m' (Function.update lists head (some xs))
  live : m'.live = m.live
  frame : Frame m m' lists head

theorem Does.refl (h : Circles m lists) (hx : lists head = some xs) : Does m m lists head xs where
  circles := by rwa [← hx, Function.update_eq_self]
  live := rfl
  frame _ _ _ _ _ _ := ⟨rfl, rfl⟩

theorem Does.trans {m₁ : Heads Λ} {ys : List Λ} (h : Does m m₁ lists head xs)
    (h' : Does m₁ m' (Function.update lists head (some xs)) head ys) :
    Does m m' lists head ys where
  circles := by
    have hcircles := h'.circles
    rwa [Function.update_idem] at hcircles
  live := h'.live.trans h.live
  frame := by
    intro head' zs hne hz l hl
    have hfirst := h.frame head' zs hne hz l hl
    have hrest := h'.frame head' zs hne (by rwa [Function.update_of_ne hne]) l hl
    exact ⟨hrest.1.trans hfirst.1, hrest.2.trans hfirst.2⟩

namespace Circles

/-- One list gets new nodes, and the others stay. -/
theorem does (h : Circles m lists) {cells : List Λ} (hxs : Circular m' head xs)
    (hr : Relinked cells m m') (hcells : head :: xs ⊆ cells)
    (hout : ∀ head' ys, head' ≠ head → lists head' = some ys → ∀ l ∈ head' :: ys, l ∉ cells) :
    Does m m' lists head xs := by
  have hother : ∀ {head' ys}, head' ≠ head →
      Function.update lists head (some xs) head' = some ys → lists head' = some ys := by
    intro head' ys hne hy
    rwa [Function.update_of_ne hne] at hy
  have hframe : Frame m m' lists head := fun head' ys hne hys l hl =>
    ⟨hr.next l (hout head' ys hne hys l hl), hr.prev l (hout head' ys hne hys l hl)⟩
  refine ⟨⟨?_, ?_, ?_⟩, hr.live, hframe⟩
  · intro head' ys hy
    rcases eq_or_ne head' head with rfl | hne
    · rw [Function.update_self] at hy
      cases hy
      exact hxs.ring
    · have hys := hother hne hy
      apply (h.ring hys).congr
      · exact fun l hl => (hframe head' ys hne hys l (by simpa using hl)).1
      · exact fun l hl => (hframe head' ys hne hys l (by simpa using hl)).2
  · intro head' ys hy
    rcases eq_or_ne head' head with rfl | hne
    · rw [Function.update_self] at hy
      cases hy
      exact hxs.live
    · rw [hr.live]
      exact h.live (hother hne hy)
  · have hapart : Apart List.cons lists := fun _ _ _ _ => h.apart
    have hnone : ∀ head' ys, head' ≠ head → lists head' = some ys →
        ∀ l ∈ head' :: ys, l ∉ head :: xs :=
      fun head' ys hne hys l hl hmem => hout head' ys hne hys l hl (hcells hmem)
    exact fun {_ _ _ _} hy₁ hy₂ => hapart.update hnone hy₁ hy₂

theorem listInit (h : Circles m lists) (hlive : m.live head = true) (hout : ¬ lists.Linked head) :
    ∃ m', m.listInit head = some m' ∧ Does m m' lists head [] := by
  obtain ⟨m', hinit, hnil, hr⟩ := Circular.listInit hlive
  refine ⟨m', hinit, h.does hnil hr (List.Subset.refl _) fun head' ys _ hys l hl => ?_⟩
  simpa using ne_of_not_linked hout hys hl

omit [DecidableEq Λ] in
/-- The nodes of a list and a node that is in none are in no other list. -/
theorem not_mem_cons (h : Circles m lists) (hx : lists head = some xs) (ha : ¬ lists.Linked a)
    {head' l : Λ} (hne : head' ≠ head) (hys : lists head' = some ys) (hl : l ∈ head' :: ys) :
    l ≠ a ∧ l ∉ head :: xs :=
  ⟨ne_of_not_linked ha hys hl, fun hmem => h.ne_of_mem hne hys hl hx hmem rfl⟩

theorem listAdd (h : Circles m lists) (hx : lists head = some xs) (hlive : m.live a = true)
    (ha : ¬ lists.Linked a) :
    ∃ m', m.listAdd head a = some m' ∧ Does m m' lists head (a :: xs) := by
  have hmem : a ∉ head :: xs := fun hl => ha ⟨head, xs, hx, hl⟩
  obtain ⟨m', hadd, hxs, hr⟩ := (h.circular hx).listAdd hmem hlive
  refine ⟨m', hadd, h.does hxs hr (List.Subset.refl _) fun head' ys hne hys l hl => ?_⟩
  have hnot := h.not_mem_cons hx ha hne hys hl
  simp only [List.mem_cons, not_or] at hnot ⊢
  exact ⟨hnot.2.1, hnot.1, hnot.2.2⟩

theorem listAddTail (h : Circles m lists) (hx : lists head = some xs) (hlive : m.live a = true)
    (ha : ¬ lists.Linked a) :
    ∃ m', m.listAddTail head a = some m' ∧ Does m m' lists head (xs ++ [a]) := by
  have hmem : a ∉ head :: xs := fun hl => ha ⟨head, xs, hx, hl⟩
  obtain ⟨m', hadd, hxs, hr⟩ := (h.circular hx).listAddTail hmem hlive
  refine ⟨m', hadd, h.does hxs hr (List.Subset.refl _) fun head' ys hne hys l hl => ?_⟩
  have hnot := h.not_mem_cons hx ha hne hys hl
  simp only [List.mem_cons, List.mem_append, List.not_mem_nil, or_false, not_or] at hnot ⊢
  exact ⟨hnot.2.1, hnot.2.2, hnot.1⟩

theorem del (h : Circles m lists) (hx : lists head = some xs) (ha : a ∈ xs) :
    ∃ m', m.del a = some m' ∧ Does m m' lists head (xs.erase a) ∧
      m'.next a = a ∧ m'.prev a = a := by
  have hxs := h.circular hx
  obtain ⟨us, vs, hus, rfl, herase⟩ := List.exists_erase_eq ha
  rw [herase]
  obtain ⟨m', hdel, hxs', hr, hself⟩ := hxs.del
  refine ⟨m', hdel, h.does hxs' hr (Circular.without_subset head a us vs) ?_, hself⟩
  exact fun head' ys hne hys l hl hmem => h.ne_of_mem hne hys hl hx hmem rfl

end Circles

/-- The structures of every list that keeps its nodes are linked as before. -/
def Kept (m m' : Heads Λ) (lists lists' : Lists Λ) : Prop :=
  ∀ head xs, lists head = some xs → lists' head = some xs →
    ∀ l ∈ head :: xs, m'.next l = m.next l ∧ m'.prev l = m.prev l

omit [DecidableEq Λ] in
theorem Frame.kept (h : Frame m m' lists head) {lists' : Lists Λ}
    (hne : ∀ xs, lists head = some xs → lists' head ≠ some xs) : Kept m m' lists lists' := by
  intro head' ys hys hys' l hl
  apply h head' ys _ hys l hl
  rintro rfl
  exact hne ys hys hys'

/-- A list that gets other nodes is none of those that keep theirs. -/
theorem Does.kept (h : Does m m' lists head ys) (hx : lists head = some xs) (hne : ys ≠ xs) :
    Kept m m' lists (Function.update lists head (some ys)) := by
  refine h.frame.kept fun zs hz hys => hne ?_
  rw [Function.update_self] at hys
  exact (Option.some.inj hys).trans (Option.some.inj (hz.symm.trans hx))

theorem apply_del (h : Circles m lists) (hx : lists head = some xs) (ha : a ∈ xs) :
    lists.apply (.del a) = Function.update lists head (some (xs.erase a)) := by
  funext head'
  rcases eq_or_ne head' head with rfl | hne
  · simp [Lists.apply, hx]
  · rw [Function.update_of_ne hne]
    cases hys : lists head' with
    | none => simp [Lists.apply, hys]
    | some ys =>
        have hmem : a ∉ ys := fun hmem =>
          h.ne_of_mem hne hys (List.mem_cons_of_mem _ hmem) hx (List.mem_cons_of_mem _ ha) rfl
        simp [Lists.apply, hys, List.erase_of_not_mem hmem]

/-- A call that is allowed succeeds and does to the lists what it is meant to do. -/
theorem Circles.exec (h : Circles m lists) {op : Op Λ} (ha : lists.Allows m.live op) :
    ∃ m', m.exec op = some m' ∧ Circles m' (lists.apply op) ∧ Kept m m' lists (lists.apply op) ∧
      ∀ list, op = .del list → m'.next list = list ∧ m'.prev list = list := by
  cases op with
  | init head =>
      obtain ⟨hlive, hout⟩ := ha
      obtain ⟨m', hm', hdoes⟩ := h.listInit hlive hout
      refine ⟨m', hm', hdoes.circles, hdoes.frame.kept fun xs hx => ?_, nofun⟩
      exact absurd ⟨head, xs, hx, List.mem_cons_self⟩ hout
  | listAdd head list =>
      obtain ⟨hsome, hlive, hout⟩ := ha
      obtain ⟨xs, hx⟩ := Option.ne_none_iff_exists'.mp hsome
      obtain ⟨m', hm', hdoes⟩ := h.listAdd hx hlive hout
      have happly : lists.apply (.listAdd head list) =
          Function.update lists head (some (list :: xs)) := by
        simp [Lists.apply, hx]
      rw [happly]
      exact ⟨m', hm', hdoes.circles, hdoes.kept hx (by simp), nofun⟩
  | listAddTail head list =>
      obtain ⟨hsome, hlive, hout⟩ := ha
      obtain ⟨xs, hx⟩ := Option.ne_none_iff_exists'.mp hsome
      obtain ⟨m', hm', hdoes⟩ := h.listAddTail hx hlive hout
      have happly : lists.apply (.listAddTail head list) =
          Function.update lists head (some (xs ++ [list])) := by
        simp [Lists.apply, hx]
      rw [happly]
      exact ⟨m', hm', hdoes.circles, hdoes.kept hx (by simp), nofun⟩
  | del list =>
      obtain ⟨head, xs, hx, hmem⟩ := ha
      obtain ⟨m', hm', hdoes, hself⟩ := h.del hx hmem
      rw [apply_del h hx hmem]
      have hne : xs.erase list ≠ xs := fun heq => List.erase_eq_self_iff.mp heq hmem
      refine ⟨m', hm', hdoes.circles, hdoes.kept hx hne, ?_⟩
      rintro list' ⟨⟩
      exact hself

theorem Reached.circles {ops : List (Op Λ)} (h : Reached ops m) : Circles m (reference ops) := by
  induction h with
  | start m => exact ⟨nofun, nofun, nofun⟩
  | next _ ha hexec ih =>
      obtain ⟨_, hm', hcircles, -⟩ := ih.exec ha
      cases hm'.symm.trans hexec
      exact hcircles

/-- The links of every list are inverse to each other, a traversal finds its nodes in their
order, and the lists are disjoint. -/
structure WellFormed (m : Heads Λ) (lists : Lists Λ) : Prop where
  links : ∀ head xs, lists head = some xs →
    ∀ l ∈ head :: xs, m.prev (m.next l) = l ∧ m.next (m.prev l) = l
  nodup : ∀ head xs, lists head = some xs → (head :: xs).Nodup
  forward : ∀ head xs, lists head = some xs →
    Returns (fun fuel => LinkedList.walk m.next head fuel (m.next head)) xs
  disjoint : ∀ head head' xs xs', head ≠ head' → lists head = some xs → lists head' = some xs' →
    (head :: xs).Disjoint (head' :: xs')

theorem Circles.wellFormed (h : Circles m lists) : WellFormed m lists where
  links _ _ hx _ hl := ⟨h.prev_next hx hl, h.next_prev hx hl⟩
  nodup _ _ hx := h.nodup hx
  forward _ _ hx := h.walk hx
  disjoint _ _ _ _ hne hx hx' l hl hl' := hne (h.apart hx hx' l hl hl')

theorem Circles.isEmpty (h : Circles m lists) (hx : lists head = some xs) :
    m.listIsEmpty head = some xs.isEmpty := by
  have hlive := h.live hx head List.mem_cons_self
  have hring := h.ring hx
  cases xs with
  | nil =>
      have hnext : m.next head = head := hring.forward
      simp [Heads.listIsEmpty, Heads.readNext, hlive, hnext]
  | cons a xs =>
      have hnext : m.next head = a := hring.forward.1
      have hne : a ≠ head := fun heq => (List.nodup_cons.mp (h.nodup hx)).1 (by simp [heq])
      simp [Heads.listIsEmpty, Heads.readNext, hlive, hnext, hne]

theorem Circles.listDestroy (h : Circles m lists) (hx : lists head = some xs) :
    ∃ m', Returns (fun fuel => m.listDestroy fuel head) m' ∧ Does m m' lists head [] := by
  induction xs generalizing m lists with
  | nil =>
      refine ⟨m, returns_leave ?_, .refl h hx⟩
      simp [Heads.destroyTurn, h.isEmpty hx]
  | cons a xs ih =>
      have hnext : m.next head = a := (h.ring hx).forward.1
      have hlive := h.live hx head List.mem_cons_self
      obtain ⟨m₁, hdel, hdoes, -⟩ := h.del hx List.mem_cons_self
      rw [List.erase_cons_head] at hdoes
      obtain ⟨m', hreturns, hdoes'⟩ := ih hdoes.circles (Function.update_self ..)
      have hturn : Heads.destroyTurn head m = some (.again m₁) := by
        simp [Heads.destroyTurn, h.isEmpty hx, Heads.readNext, hlive, hnext, hdel]
      exact ⟨m', hreturns.again hturn, hdoes.trans hdoes'⟩

end

end EmbeddedCode.IntrusiveList
