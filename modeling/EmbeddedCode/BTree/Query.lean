import EmbeddedCode.BTree.Build

/-!
# Traversal and search of a stored tree

`in_order`, `search`, `search_min` and `search_max` only read the memory. Each
returns within a fuel bounded by the number of nodes, and its result is stated
by the in-order list of the stored tree.
-/
namespace EmbeddedCode.BTree

open LinkedTree Loop SearchTree

variable {α : Type} {node : Links α}

theorem inOrder_returns {p : Option α} {T : BinaryTree α} (h : Shaped node p T) :
    Returns (fun fuel => inOrder node fuel p) (inorder T) := by
  refine Shaped.returns (P := fun _ => True) (fun _ _ _ _ => ⟨trivial, trivial⟩) ?_ ?_ h trivial
  · intro fuel
    cases fuel <;> rfl
  · intro fuel a l r _ hl hr
    simp [inOrder, hl, hr]

theorem searchTurn_run (cmp : α → α → ℤ) (bnode : α) {p : Option α} {T : BinaryTree α}
    (h : Shaped node p T) {fuel : ℕ} (hf : T.numNodes < fuel) :
    run (searchTurn cmp node bnode) fuel p = some (find cmp bnode T) := by
  induction T generalizing p fuel with
  | nil =>
      obtain ⟨fuel, rfl⟩ : ∃ n, fuel = n + 1 := ⟨fuel - 1, by omega⟩
      cases h
      exact run_leave rfl fuel
  | node a l r hl hr =>
      obtain ⟨fuel, rfl⟩ : ∃ n, fuel = n + 1 := ⟨fuel - 1, by omega⟩
      simp only [BinaryTree.numNodes] at hf
      obtain ⟨rfl, h₁, h₂⟩ := h
      rcases lt_trichotomy (cmp bnode a) 0 with hlt | heq | hgt
      · rw [run_again (t := node.lchild a) (by simp [searchTurn, hlt, hlt.ne]), find_lt hlt]
        exact hl h₁ (by omega)
      · rw [find_eq heq]
        exact run_leave (by simp [searchTurn, heq]) fuel
      · rw [run_again (t := node.rchild a) (by simp [searchTurn, hgt.ne', not_lt.mpr hgt.le]),
          find_gt hgt]
        exact hr h₂ (by omega)

theorem find_none {cmp : α → α → ℤ} (hc : Comparator cmp) {bnode : α} {T : BinaryTree α}
    (hs : Sorted cmp (inorder T)) (h : find cmp bnode T = none) :
    ∀ y ∈ inorder T, cmp bnode y ≠ 0 := by
  induction T with
  | nil => simp
  | node a l r hl hr =>
      obtain ⟨hsl, hsr, hsep⟩ := List.pairwise_append.mp hs
      obtain ⟨har, hsr⟩ := List.pairwise_cons.mp hsr
      intro y hy
      rw [inorder_node, List.mem_append, List.mem_cons] at hy
      rcases lt_trichotomy (cmp bnode a) 0 with hlt | heq | hgt
      · -- Everything from `a` on is above the node.
        rw [find_lt hlt] at h
        rcases hy with hy | rfl | hy
        · exact hl hsl h y hy
        · exact hlt.ne
        · exact (hc.trans _ _ _ hlt (har y hy)).ne
      · cases (find_eq heq).symm.trans h
      · rw [find_gt hgt] at h
        have ha : cmp a bnode < 0 := (hc.antisymm _ _).mpr hgt
        rcases hy with hy | rfl | hy
        · exact ((hc.antisymm _ _).mp (hc.trans _ _ _ (hsep y hy a (by simp)) ha)).ne'
        · exact hgt.ne'
        · exact hr hsr h y hy

theorem lastTurn_left {q : Option α} {a : α} {T : BinaryTree α} (h : Rep node q (some a) T)
    {fuel : ℕ} (hf : T.numNodes ≤ fuel) :
    run (lastTurn node.lchild) fuel a = (inorder T).head? := by
  induction T generalizing q a fuel with
  | nil => cases h
  | node b l r hl _ =>
      simp only [BinaryTree.numNodes] at hf
      obtain ⟨fuel, rfl⟩ : ∃ n, fuel = n + 1 := ⟨fuel - 1, by omega⟩
      obtain ⟨hb, _, h₁, _⟩ := h
      cases hb
      cases hc : node.lchild b with
      | none =>
          rw [hc] at h₁
          rw [rep_none h₁, run_leave (r := b) (by simp [lastTurn, hc])]
          rfl
      | some c =>
          rw [hc] at h₁
          rw [run_again (t := c) (by simp [lastTurn, hc]), hl h₁ (show _ ≤ fuel by omega),
            inorder_node, List.head?_append_of_ne_nil _ (List.ne_nil_of_mem h₁.root_mem)]

theorem lastTurn_right {q : Option α} {a : α} {T : BinaryTree α} (h : Rep node q (some a) T)
    {fuel : ℕ} (hf : T.numNodes ≤ fuel) :
    run (lastTurn node.rchild) fuel a = (inorder T).getLast? := by
  induction T generalizing q a fuel with
  | nil => cases h
  | node b l r _ hr =>
      simp only [BinaryTree.numNodes] at hf
      obtain ⟨fuel, rfl⟩ : ∃ n, fuel = n + 1 := ⟨fuel - 1, by omega⟩
      obtain ⟨hb, _, _, h₂⟩ := h
      cases hb
      cases hc : node.rchild b with
      | none =>
          rw [hc] at h₂
          rw [rep_none h₂, run_leave (r := b) (by simp [lastTurn, hc])]
          simp
      | some c =>
          rw [hc] at h₂
          rw [run_again (t := c) (by simp [lastTurn, hc]), hr h₂ (show _ ≤ fuel by omega),
            inorder_node, List.getLast?_append_of_ne_nil _ (by simp),
            List.getLast?_cons_of_ne_nil (List.ne_nil_of_mem h₂.root_mem)]

section Stored
variable {t : Btree α} {T : BinaryTree α} (h : Stored t T)
include h

theorem search_find (cmp : α → α → ℤ) (bnode : α) {fuel : ℕ} (hf : T.numNodes < fuel) :
    search fuel cmp t bnode = some (find cmp bnode T) := by
  cases hr : t.root with
  | none =>
      rw [Stored, hr] at h
      rw [rep_none h]
      simp [search, hr, find]
  | some root =>
      rw [Stored, hr] at h
      simpa only [search, hr] using searchTurn_run cmp bnode h.shaped hf

theorem search_stored {cmp : α → α → ℤ} (hc : Comparator cmp) (hs : Sorted cmp (inorder T))
    (bnode : α) {fuel : ℕ} (hf : T.numNodes < fuel) :
    (∃ y ∈ inorder T, cmp bnode y = 0 ∧ search fuel cmp t bnode = some (some y)) ∨
    (∀ y ∈ inorder T, cmp bnode y ≠ 0) ∧ search fuel cmp t bnode = some none := by
  rw [search_find h cmp bnode hf]
  cases hfind : find cmp bnode T with
  | none => exact .inr ⟨find_none hc hs hfind, rfl⟩
  | some y =>
      obtain ⟨hy, hz⟩ := find_zero hfind
      exact .inl ⟨y, hy, hz, rfl⟩

theorem searchMin_stored {fuel : ℕ} (hf : T.numNodes ≤ fuel) :
    searchMin fuel t = some (inorder T).head? := by
  cases hr : t.root with
  | none =>
      rw [Stored, hr] at h
      simp [searchMin, hr, rep_none h]
  | some root =>
      rw [Stored, hr] at h
      obtain ⟨l, r, rfl⟩ := rep_some h
      simp only [searchMin, hr, lastTurn_left h hf]
      cases hi : (inorder (.node root l r)).head? with
      | none => simp at hi
      | some x => rfl

theorem searchMax_stored {fuel : ℕ} (hf : T.numNodes ≤ fuel) :
    searchMax fuel t = some (inorder T).getLast? := by
  cases hr : t.root with
  | none =>
      rw [Stored, hr] at h
      simp [searchMax, hr, rep_none h]
  | some root =>
      rw [Stored, hr] at h
      obtain ⟨l, r, rfl⟩ := rep_some h
      simp only [searchMax, hr, lastTurn_right h hf]
      cases hi : (inorder (.node root l r)).getLast? with
      | none => simp at hi
      | some x => rfl

end Stored

end EmbeddedCode.BTree
