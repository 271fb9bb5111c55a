import EmbeddedCode.ListSort.Circle
import Mathlib.Data.List.Induction

/-!
# Insertion sort of a list

The nodes before the cursor are in order. Those that are greater than its node move behind
it, and the next turns of the outer loop pass them again and move nothing.
-/
namespace EmbeddedCode.ListSort

open IntrusiveList Loop StableSort

section
variable {Λ : Type} [DecidableEq Λ] {cmp : Λ → Λ → ℤ} {m : Heads Λ} {head c : Λ}
  {us vs xs : List Λ}

/-- Nodes that are not greater stay where they are. -/
theorem insertInner_stays (hus : ∀ x ∈ us, cmp x c ≤ 0) (h : Circular m head (us ++ vs)) :
    Returns (fun fuel => run (insertInner cmp head c) fuel (m, us.getLastD head)) m := by
  induction us using List.reverseRecOn generalizing vs with
  | nil => exact returns_leave (by simp [insertInner])
  | append_singleton us t ih =>
      rw [List.append_assoc, List.singleton_append] at h
      have ht : t ≠ head := h.ne_head (by simp)
      have hle : ¬ 0 < cmp t c := by simpa using hus t (by simp)
      have hrest := ih (fun x hx => hus x (List.mem_append_left _ hx)) h
      rw [List.getLastD_concat]
      refine hrest.again ?_
      simp [insertInner, ht, hle, h.readPrev]

/-- Nodes that are greater move behind the cursor, and keep their order. -/
theorem insertInner_returns {gs : List Λ} (hus : ∀ x ∈ us, cmp x c ≤ 0)
    (hgs : ∀ x ∈ gs, 0 < cmp x c) (h : Circular m head (us ++ gs ++ c :: vs)) :
    ∃ m', Returns (fun fuel => run (insertInner cmp head c) fuel (m, (us ++ gs).getLastD head)) m' ∧
      Circular m' head (us ++ c :: (gs ++ vs)) ∧ Relinked (head :: (us ++ gs ++ c :: vs)) m m' := by
  induction gs using List.reverseRecOn generalizing m vs with
  | nil =>
      rw [List.append_nil] at h ⊢
      exact ⟨m, insertInner_stays hus h, h, .refl _ m⟩
  | append_singleton gs t ih =>
      have hnode : Circular m head ((us ++ gs) ++ t :: (c :: vs)) := by simpa using h
      obtain ⟨m₁, hdel, h₁, hr₁, -⟩ := hnode.del
      have hplace : Circular m₁ head ((us ++ gs ++ [c]) ++ vs) := by simpa using h₁
      have hout : t ∉ head :: ((us ++ gs ++ [c]) ++ vs) := by simpa using hnode.not_mem
      obtain ⟨m₂, hadd, h₂, hr₂⟩ := hplace.add hout (hr₁.live ▸ hnode.live t (by simp))
      rw [List.getLastD_concat] at hadd
      have hmoved : Circular m₂ head (us ++ gs ++ c :: (t :: vs)) := by simpa using h₂
      obtain ⟨m', hreturns, h', hr'⟩ := ih (fun x hx => hgs x (List.mem_append_left _ hx)) hmoved
      have ht : t ≠ head := hnode.ne_head (by simp)
      have hgt : 0 < cmp t c := hgs t (by simp)
      refine ⟨m', ?_, by simpa using h', ?_⟩
      · rw [← List.append_assoc, List.getLastD_concat]
        refine hreturns.again ?_
        simp only [insertInner, if_neg ht, if_pos hgt, hdel, h₁.readNext, hadd, hmoved.readPrev,
          Option.bind_eq_bind, Option.bind_some]
      · refine (hr₁.mono ?_).trans ((hr₂.mono ?_).trans (hr'.mono ?_))
        · simp
        · intro l hl
          grind
        · intro l hl
          grind

theorem insertOuter_returns (hc : TotalPreorder cmp) (hus : Ordered cmp us)
    (h : Circular m head (us ++ c :: vs)) :
    ∃ m', Returns (fun fuel => insertOuter cmp head fuel (m, c))
        (.again (m', (us.filter (0 < cmp · c) ++ vs).headD head)) ∧
      Circular m' head (around cmp us c vs) ∧ Relinked (head :: (us ++ c :: vs)) m m' := by
  have hleft : ∀ x ∈ us.filter (cmp · c ≤ 0), cmp x c ≤ 0 := fun x hx =>
    of_decide_eq_true (List.mem_filter.mp hx).2
  have hright : ∀ x ∈ us.filter (0 < cmp · c), 0 < cmp x c := fun x hx =>
    of_decide_eq_true (List.mem_filter.mp hx).2
  have hsplit := hus.split hc c
  rw [← hsplit] at h
  obtain ⟨m', ⟨n, hreturns⟩, h', hr⟩ := insertInner_returns hleft hright h
  rw [hsplit] at h hreturns hr
  refine ⟨m', ⟨n, fun fuel hf => ?_⟩, h', hr⟩
  simp only [insertOuter, if_neg (h.ne_head (a := c) (by simp)), h.readPrev, hreturns fuel hf,
    h'.readNext, Option.bind_eq_bind, Option.bind_some]

/-- The outer loop passes nodes that are in order already. -/
theorem insertOuter_passes (hc : TotalPreorder cmp) {qs : List Λ} (hqs : Ordered cmp (us ++ qs))
    (h : Circular m head (us ++ (qs ++ vs))) :
    ∃ m', Leads (insertOuter cmp head) (m, (qs ++ vs).headD head) (m', vs.headD head) ∧
      Circular m' head (us ++ (qs ++ vs)) ∧ Relinked (head :: (us ++ (qs ++ vs))) m m' := by
  induction qs generalizing us m with
  | nil => exact ⟨m, .refl _, h, .refl _ m⟩
  | cons c qs ih =>
      rw [List.cons_append] at h
      obtain ⟨hus, -, hcross⟩ := List.pairwise_append.mp hqs
      have hle : ∀ y ∈ us, cmp y c ≤ 0 := fun y hy => hcross y hy c List.mem_cons_self
      obtain ⟨m₁, hturn, h₁, hr₁⟩ := insertOuter_returns hc hus h
      rw [filter_greater hle, List.nil_append] at hturn
      rw [around_eq hle, List.append_cons] at h₁
      obtain ⟨m', hleads, h', hr'⟩ := ih (by simpa using hqs) h₁
      rw [← List.append_cons] at h' hr'
      exact ⟨m', (Leads.single hturn).trans hleads, h', hr₁.trans hr'⟩

theorem insertOuter_exits (hc : TotalPreorder cmp) (hus : Ordered cmp us)
    (h : Circular m head (us ++ vs)) :
    ∃ m' ys, Exits (insertOuter cmp head) (m, vs.headD head) m' ∧ Circular m' head ys ∧
      StablySorted cmp (us ++ vs) ys ∧ Relinked (head :: (us ++ vs)) m m' := by
  induction vs generalizing us m with
  | nil =>
      refine ⟨m, us, ?_, by simpa using h, ⟨hus, by simpa using .refl cmp us⟩, .refl _ m⟩
      exact .single ⟨0, fun fuel _ => if_pos rfl⟩
  | cons c vs ih =>
      obtain ⟨m₁, hturn, h₁, hr₁⟩ := insertOuter_returns hc hus h
      have hsorted := hus.around hc c
      have hsame := sameOrder_around hc us c vs
      have haround : around cmp us c vs = around cmp us c [] ++ vs := by simp [around]
      have hsub : head :: around cmp us c vs ⊆ head :: (us ++ c :: vs) :=
        ((hsame.perm hc).cons head).subset
      rw [around, List.append_cons] at h₁
      obtain ⟨m₂, hleads, h₂, hr₂⟩ := insertOuter_passes hc (by simpa [around] using hsorted) h₁
      rw [← List.append_cons, ← around, haround] at h₂ hr₂
      obtain ⟨m', ys, hexits, h', hys, hr'⟩ := ih hsorted h₂
      rw [← haround] at hys hr₂ hr'
      refine ⟨m', ys, ((Leads.single hturn).trans hleads).exits hexits, h', ⟨hys.ordered, ?_⟩, ?_⟩
      · exact hsame.trans hys.sameOrder
      · exact hr₁.trans ((hr₂.mono hsub).trans (hr'.mono hsub))

/-- `insert_sort` returns for every list and every comparator, and sorts the list stably. It
writes to the list and to nothing else. -/
theorem insertSort_sorts (hc : TotalPreorder cmp) (h : Circular m head xs) :
    ∃ m' ys, Returns (fun fuel => insertSort cmp head fuel m) m' ∧ Circular m' head ys ∧
      ys.Perm xs ∧ StablySorted cmp xs ys ∧ Relinked (head :: xs) m m' := by
  suffices hstart : ∃ us vs, xs = us ++ vs ∧ Ordered cmp us ∧ ∀ fuel,
      insertSort cmp head fuel m = run (insertOuter cmp head fuel) fuel (m, vs.headD head) by
    obtain ⟨us, vs, rfl, hus, heq⟩ := hstart
    obtain ⟨m', ys, hexits, h', hys, hr⟩ := insertOuter_exits hc hus h
    refine ⟨m', ys, ?_, h', hys.sameOrder.perm hc, hys, hr⟩
    simpa only [heq] using hexits.returns
  cases xs with
  | nil =>
      refine ⟨[], [], rfl, .nil, fun fuel => ?_⟩
      simp only [insertSort, h.readNext_head, List.headD_nil, Option.bind_eq_bind, Option.bind_some]
  | cons x xs =>
      have hnode : Circular m head ([] ++ x :: xs) := h
      refine ⟨[x], xs, rfl, List.pairwise_singleton _ x, fun fuel => ?_⟩
      simp only [insertSort, h.readNext_head, List.headD_cons, hnode.readNext, Option.bind_eq_bind,
        Option.bind_some]

theorem insertSort_sorts_three : ∃ m' ys,
    Returns (fun fuel => insertSort (fun a b => keyOf a - keyOf b) 0 fuel three) m' ∧
      Circular m' 0 ys ∧ ys.Perm [1, 2, 3] ∧
      StablySorted (fun a b => keyOf a - keyOf b) [1, 2, 3] ys ∧
      Relinked [0, 1, 2, 3] three m' :=
  insertSort_sorts (totalPreorder_sub keyOf) circular_three

end

end EmbeddedCode.ListSort
