import EmbeddedCode.ListSort.Circle

/-!
# Selection sort of a list

The nodes before the cursor are in their places. The least of the others changes its place
with the node at the cursor, and the cursor stays at that place.
-/
namespace EmbeddedCode.ListSort

open IntrusiveList Loop StableSort

section
variable {Λ : Type} [DecidableEq Λ] {cmp : Λ → Λ → ℤ} {m : Heads Λ} {stack head c : Λ}
  {fs us vs xs : List Λ}

theorem scan_returns (hc : TotalPreorder cmp) (h : Circular m head (us ++ vs)) (save : Λ) :
    ∃ s, Returns (fun fuel => run (scanTurn cmp head m) fuel (save, vs.headD head)) s ∧
      s ∈ save :: vs ∧ ∀ z ∈ save :: vs, cmp s z ≤ 0 := by
  induction vs generalizing us save with
  | nil =>
      refine ⟨save, returns_leave (by simp [scanTurn]), List.mem_cons_self, fun z hz => ?_⟩
      rw [List.mem_singleton.mp hz, hc.eq_self]
  | cons t vs ih =>
      have ht : t ≠ head := h.ne_head (by simp)
      have hsplit : Circular m head ((us ++ [t]) ++ vs) := by simpa using h
      have hturn : scanTurn cmp head m (save, t) =
          some (.again (if cmp t save < 0 then t else save, vs.headD head)) := by
        simp only [scanTurn, if_neg ht, h.readNext, Option.bind_eq_bind, Option.bind_some]
      obtain ⟨s, hreturns, hmem, hleast⟩ := ih hsplit (if cmp t save < 0 then t else save)
      rw [List.forall_mem_cons] at hleast
      refine ⟨s, hreturns.again hturn, ?_, ?_⟩
      · rcases List.mem_cons.mp hmem with rfl | hmem
        · split <;> simp
        · exact List.mem_cons_of_mem _ (List.mem_cons_of_mem _ hmem)
      · rw [List.forall_mem_cons, List.forall_mem_cons]
        by_cases hlt : cmp t save < 0
        · rw [if_pos hlt] at hleast
          exact ⟨hc.trans s t save hleast.1 (le_of_lt hlt), hleast⟩
        · rw [if_neg hlt] at hleast
          have hle : cmp save t ≤ 0 := by
            have hsign := hc.antisymm t save
            omega
          exact ⟨hleast.1, hc.trans s save t hleast.1 hle, hleast.2⟩

theorem selectOuter_returns (hc : TotalPreorder cmp) (hstack : m.live stack = false)
    (hsettled : Settled cmp fs (c :: us)) (hus : us ≠ []) (h : Circular m head (fs ++ c :: us)) :
    ∃ m' z zs, Returns (fun fuel => selectOuter cmp stack head fuel (m, c))
        (.again (m', zs.headD head)) ∧
      Circular m' head (fs ++ z :: zs) ∧ (z :: zs).Perm (c :: us) ∧ Settled cmp (fs ++ [z]) zs ∧
      Relinked (stack :: head :: (fs ++ c :: us)) m m' := by
  have hlast : ∃ l, m.readPrev head = some l ∧ c ≠ l := by
    obtain ⟨vs, l, rfl⟩ := (List.eq_nil_or_concat' us).resolve_left hus
    have hend : Circular m head (fs ++ c :: vs ++ [l]) := by simpa using h
    refine ⟨l, by rw [hend.readPrev_head, List.getLastD_concat], ?_⟩
    rintro rfl
    exact h.not_mem (by simp)
  obtain ⟨l, hl, hne⟩ := hlast
  have hsplit : Circular m head ((fs ++ [c]) ++ us) := by simpa using h
  obtain ⟨s, ⟨n, hscan⟩, hmem, hleast⟩ := scan_returns hc hsplit c
  by_cases hsc : s = c
  · subst hsc
    refine ⟨m, s, us, ⟨n, fun fuel hf => ?_⟩, h, .refl _, hsettled.next (.refl _) ?_, .refl _ m⟩
    · simp only [selectOuter, hl, if_neg hne, h.readNext, hscan fuel hf, ne_eq, not_true_eq_false,
        if_false, Option.bind_eq_bind, Option.bind_some]
    · exact fun z hz => hleast z (List.mem_cons_of_mem _ hz)
  · have hs : s ∈ us := (List.mem_cons.mp hmem).resolve_left hsc
    obtain ⟨ws, vs, rfl⟩ := List.append_of_mem hs
    obtain ⟨m', hswap, h', hr⟩ := h.swap_backward hstack
    have hperm : (s :: (ws ++ c :: vs)).Perm (c :: (ws ++ s :: vs)) := by
      have hfront := (List.perm_middle.cons s).trans (List.Perm.swap c s (ws ++ vs))
      exact hfront.trans (List.perm_middle.symm.cons c)
    refine ⟨m', s, ws ++ c :: vs, ⟨n, fun fuel hf => ?_⟩, h', hperm, hsettled.next hperm ?_, hr⟩
    · simp only [selectOuter, hl, if_neg hne, h.readNext, hscan fuel hf, ne_eq, hsc,
        not_false_eq_true, if_true, hswap, h'.readNext, Option.bind_eq_bind, Option.bind_some]
    · exact fun z hz => hleast z (hperm.mem_iff.mp (List.mem_cons_of_mem _ hz))

theorem selectOuter_exits (hc : TotalPreorder cmp) (hstack : m.live stack = false)
    (hsettled : Settled cmp fs (c :: us)) (h : Circular m head (fs ++ c :: us)) :
    ∃ m' ys, Exits (selectOuter cmp stack head) (m, c) m' ∧ Circular m' head ys ∧
      ys.Perm (fs ++ c :: us) ∧ Ordered cmp ys ∧
      Relinked (stack :: head :: (fs ++ c :: us)) m m' := by
  induction hlength : us.length generalizing m fs c us with
  | zero =>
      obtain rfl := List.length_eq_zero_iff.mp hlength
      refine ⟨m, fs ++ [c], .single ⟨0, fun fuel _ => ?_⟩, h, .refl _, hsettled.last, .refl _ m⟩
      simp only [selectOuter, h.readPrev_head, List.getLastD_concat, if_true, Option.bind_eq_bind,
        Option.bind_some]
  | succ k ih =>
      have hus : us ≠ [] := List.ne_nil_of_length_eq_add_one hlength
      obtain ⟨m₁, z, zs, hturn, h₁, hperm, hsettled₁, hr₁⟩ :=
        selectOuter_returns hc hstack hsettled hus h
      have hcount := hperm.length_eq
      cases zs with
      | nil =>
          simp only [List.length_cons, List.length_nil] at hcount
          omega
      | cons c' zs =>
          simp only [List.length_cons] at hcount
          have hnext : Circular m₁ head ((fs ++ [z]) ++ c' :: zs) := by simpa using h₁
          obtain ⟨m', ys, hexits, h', hys, hordered, hr'⟩ :=
            ih (hr₁.live ▸ hstack) hsettled₁ hnext (by omega)
          have hall : (fs ++ [z] ++ c' :: zs).Perm (fs ++ c :: us) := by
            rw [← List.append_cons]
            exact hperm.append_left fs
          refine ⟨m', ys, (Leads.single hturn).exits hexits, h', hys.trans hall, hordered,
            hr₁.trans (hr'.mono ?_)⟩
          exact ((hall.cons head).cons stack).subset

/-- `select_sort` returns for every list and every comparator, and sorts the list. It writes to
the list and to the node on its stack, and to nothing else. -/
theorem selectSort_sorts (hc : TotalPreorder cmp) (hstack : m.live stack = false)
    (h : Circular m head xs) :
    ∃ m' ys, Returns (fun fuel => selectSort cmp stack head fuel m) m' ∧ Circular m' head ys ∧
      ys.Perm xs ∧ Ordered cmp ys ∧ Relinked (stack :: head :: xs) m m' := by
  cases xs with
  | nil =>
      refine ⟨m, [], ⟨1, fun fuel hf => ?_⟩, h, .refl _, .nil, .refl _ m⟩
      obtain ⟨fuel, rfl⟩ : ∃ k, fuel = k + 1 := ⟨fuel - 1, by omega⟩
      simp only [selectSort, h.readNext_head, List.headD_nil, Option.bind_eq_bind, Option.bind_some]
      exact run_leave (by simp [selectOuter, h.readPrev_head]) fuel
  | cons c us =>
      have hstart : Circular m head ([] ++ c :: us) := h
      obtain ⟨m', ys, hexits, h', hys, hordered, hr⟩ :=
        selectOuter_exits hc hstack (settled_nil cmp (c :: us)) hstart
      refine ⟨m', ys, ?_, h', hys, hordered, hr⟩
      simpa only [selectSort, h.readNext_head, List.headD_cons, Option.bind_eq_bind,
        Option.bind_some] using hexits.returns

theorem selectSort_sorts_three : ∃ m' ys,
    Returns (fun fuel => selectSort (fun a b => keyOf a - keyOf b) 4 0 fuel three) m' ∧
      Circular m' 0 ys ∧ ys.Perm [1, 2, 3] ∧ Ordered (fun a b => keyOf a - keyOf b) ys ∧
      Relinked [4, 0, 1, 2, 3] three m' :=
  selectSort_sorts (totalPreorder_sub keyOf) (by decide) circular_three

end

end EmbeddedCode.ListSort
