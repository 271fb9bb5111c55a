import EmbeddedCode.BTree.Traversal
import EmbeddedCode.BTree.Runs

/-!
# Deleting a node that was refused

`build_tree` refuses a node with a key that is linked already, and says nothing. The
pointers of the node are NULL, so that `del_node` takes it for a root without children and
sets the root of the tree to NULL.
-/
namespace EmbeddedCode.BTree

open LinkedTree Loop SearchTree

variable {α K : Type} [DecidableEq α] {cmp : K → K → ℤ} {t t' : Btree α} {data : α → K}
  {keys : Set K} {bnode : α}

/-- What should be left of a tree after a call: the root, the links of its nodes, and the
sequences of nodes of all walks. -/
structure Untouched (t t' : Btree α) : Prop where
  root : t'.root = t.root
  links : ∀ n, Linked t n → t.node.Agree t'.node n
  inOrder : ∀ xs, Returns (fun fuel => inOrder t.node fuel t.root) xs →
    Returns (fun fuel => BTree.inOrder t'.node fuel t'.root) xs
  preOrder : ∀ xs, Returns (fun fuel => preOrder t.node fuel t.root) xs →
    Returns (fun fuel => BTree.preOrder t'.node fuel t'.root) xs
  postOrder : ∀ xs, Returns (fun fuel => postOrder t.node fuel t.root) xs →
    Returns (fun fuel => BTree.postOrder t'.node fuel t'.root) xs

/-- A node without links is deleted as a root without children, wherever it is. -/
theorem delNode_fresh (hfresh : Fresh t.node bnode) (fuel : ℕ) :
    delNode fuel t bnode = some ⟨none, bnodeInit t.node bnode⟩ := by
  obtain ⟨hparent, hlchild, hrchild⟩ := hfresh
  simp [delNode, identify, hparent, hlchild, hrchild, delLeaf, relink]

omit [DecidableEq α] in
theorem insert_present {cmp : α → α → ℤ} (hc : Comparator cmp) {T : BinaryTree α}
    (hs : Sorted cmp (inorder T)) {y : α} (hy : y ∈ inorder T) (hz : cmp bnode y = 0) :
    insert cmp bnode T = T := by
  cases inserted_insert hc hs bnode with
  | present _ _ _ hsame => exact hsame
  | linked xs ys hxs _ hbefore hafter =>
      rw [hxs, List.mem_append] at hy
      rcases hy with hy | hy
      · have hgt := (hc.antisymm _ _).mp (hbefore y hy)
        omega
      · have hlt := hafter y hy
        omega

/-- A node with a key that is linked already is refused, and no pointer changes. -/
theorem Holds.build_refused (hc : StrictTotal cmp) {T : BinaryTree α} (h : Holds cmp t data keys T)
    (hnew : ¬ Linked t bnode) {key : K} (hkey : key ∈ keys) :
    Returns (fun fuel => buildTree fuel (byKey cmp (Function.update data bnode key))
      {t with node := bnodeInit t.node bnode} bnode) {t with node := bnodeInit t.node bnode} := by
  rw [linked_iff h.stored] at hnew
  have hd : ∀ a ∈ inorder T, Function.update data bnode key a = data a := fun a ha =>
    Function.update_of_ne (ne_of_mem_of_not_mem ha hnew) _ _
  have hs := h.sorted.byKey_congr hd
  have hcmp := hc.comparator (Function.update data bnode key)
  have hst : Stored {t with node := bnodeInit t.node bnode} T :=
    Rep.congr h.stored fun a ha => bnodeInit_agree _ (ne_of_mem_of_not_mem ha hnew)
  have hzero : byKey cmp (Function.update data bnode key) bnode bnode = 0 :=
    (hc.eq_zero _ _).mpr rfl
  obtain ⟨t', hrun, -, hsame⟩ := buildTree_insert hst (hs.nodup hcmp) (bnodeInit_fresh _ _) hnew
    hzero (Nat.lt_succ_self _)
  obtain ⟨y, hy, hyk⟩ := (h.keys key).mp hkey
  have hyzero : byKey cmp (Function.update data bnode key) bnode y = 0 := by
    rw [byKey, hd y hy, hyk, Function.update_self]
    exact (hc.eq_zero _ _).mpr rfl
  rw [hsame (insert_present hcmp hs hy hyzero)] at hrun
  exact buildTree_returns hrun

/-- In no state of a run is it harmless to delete a node that was refused: the tree loses its
root, although its nodes keep their links. -/
theorem refused_del (hc : StrictTotal cmp) (h : Reached cmp t data keys)
    (hnew : ¬ Linked t bnode) {key : K} (hkey : key ∈ keys) :
    ∃ t₀ t', t₀ = {t with node := bnodeInit t.node bnode} ∧
      Returns (fun fuel => buildTree fuel (byKey cmp (Function.update data bnode key)) t₀ bnode)
        t₀ ∧
      Returns (fun fuel => delNode fuel t₀ bnode) t' ∧ ¬ Untouched t t' ∧
      t.root ≠ none ∧ t'.root = none ∧ ∀ n, Linked t n → t.node.Agree t'.node n := by
  obtain ⟨T, hT⟩ := h.holds hc
  let t₀ : Btree α := {t with node := bnodeInit t.node bnode}
  have hdel : Returns (fun fuel => delNode fuel t₀ bnode) ⟨none, bnodeInit t₀.node bnode⟩ :=
    ⟨0, fun fuel _ => delNode_fresh (bnodeInit_fresh _ _) fuel⟩
  have hroot : t.root ≠ none := by
    intro hnone
    have hst := hT.stored
    rw [Stored, hnone] at hst
    obtain ⟨y, hy, -⟩ := (hT.keys key).mp hkey
    simp [rep_none hst] at hy
  have hagree : ∀ n, Linked t n → t.node.Agree (bnodeInit t₀.node bnode) n := by
    intro n hn
    have hne : n ≠ bnode := by
      rintro rfl
      exact hnew hn
    exact (bnodeInit_agree t.node hne).trans (bnodeInit_agree t₀.node hne)
  exact ⟨t₀, _, rfl, hT.build_refused hc hnew hkey, hdel, fun hu => hroot hu.root.symm, hroot, rfl,
    hagree⟩

theorem reached_five : ∃ t : Btree ℕ, Stored t (.node 0 .nil .nil) ∧
    ∃ (data : ℕ → ℤ) (keys : Set ℤ), 5 ∈ keys ∧ Reached (fun a b => a - b) t data keys := by
  let node : Links ℕ := ⟨fun _ => none, fun _ => none, fun _ => none⟩
  let t : Btree ℕ := ⟨some 0, bnodeInit node 0⟩
  have hnew : ¬ Linked (btreeInit node) 0 := by
    rw [linked_iff (t := btreeInit node) (T := .nil) rfl]
    simp
  have h : Reached (fun a b => a - b) t _ _ := .build 0 5 (.init node fun _ => (0 : ℤ)) hnew
    (buildTree_returns (show buildTree 3 _ _ _ = some _ from rfl))
  exact ⟨t, ⟨rfl, rfl, rfl, rfl⟩, _, _, Set.mem_insert _ _, h⟩

theorem refused_del_five : ∃ (t t' : Btree ℕ) (data : ℕ → ℤ) (keys : Set ℤ),
    Reached (fun a b => a - b) t data keys ∧ 5 ∈ keys ∧
      Returns (fun fuel => delNode fuel {t with node := bnodeInit t.node 1} 1) t' ∧
      ¬ Untouched t t' := by
  obtain ⟨t, hstored, data, keys, hkey, h⟩ := reached_five
  have hnew : ¬ Linked t 1 := by
    rw [linked_iff hstored]
    decide
  obtain ⟨_, t', rfl, -, hdel, hharm, -⟩ := refused_del sub_strictTotal h hnew hkey
  exact ⟨t, t', data, keys, h, hkey, hdel, hharm⟩

/-- A second node with key 5 is refused. After its deletion the tree is empty. -/
theorem del_refused_clears : ∃ (t t₀ t' : Btree ℕ) (data : ℕ → ℤ) (keys : Set ℤ),
    Reached (fun a b => a - b) t data keys ∧ 5 ∈ keys ∧ ¬ Linked t 1 ∧
      t₀ = {t with node := bnodeInit t.node 1} ∧
      Returns (fun fuel => buildTree fuel (byKey (fun a b => a - b) (Function.update data 1 5))
        t₀ 1) t₀ ∧
      Returns (fun fuel => delNode fuel t₀ 1) t' ∧ t.root = some 0 ∧ t'.root = none := by
  obtain ⟨t, hstored, data, keys, hkey, h⟩ := reached_five
  have hnew : ¬ Linked t 1 := by
    rw [linked_iff hstored]
    decide
  obtain ⟨T, hT⟩ := h.holds sub_strictTotal
  exact ⟨t, _, _, data, keys, h, hkey, hnew, rfl, hT.build_refused sub_strictTotal hnew hkey,
    ⟨0, fun fuel _ => delNode_fresh (bnodeInit_fresh _ _) fuel⟩, hstored.1, rfl⟩

end EmbeddedCode.BTree
