import EmbeddedCode.BTree.Traversal

/-!
# Reversing a tree

`__reverse` turns back at a leaf, whose two pointers are equal, so that every node of the
tree has its children exchanged afterwards. No parent pointer changes.
-/
namespace EmbeddedCode.BTree

open LinkedTree Loop

variable {α : Type} [DecidableEq α]

/-- `__reverse` -/
def reverseRec : ℕ → Links α → Option α → Option (Links α)
  | _, node, none => some node
  | 0, _, some _ => none
  | fuel + 1, node, some bnode =>
      if (node.lchild bnode).isNone && (node.rchild bnode).isNone then some node
      else do
        let tmp := node.lchild bnode
        let node := node.setLchild bnode (node.rchild bnode)
        let node := node.setRchild bnode tmp
        let node ← reverseRec fuel node (node.lchild bnode)
        reverseRec fuel node (node.rchild bnode)

def reverse (fuel : ℕ) (t : Btree α) : Option (Btree α) := do
  let node ← reverseRec fuel t.node t.root
  some {t with node := node}

/-- The children of the nodes `xs` are exchanged, and nothing else. -/
structure Swapped (m m' : Links α) (xs : List α) : Prop where
  parent : m'.parent = m.parent
  swap : ∀ a ∈ xs, m'.lchild a = m.rchild a ∧ m'.rchild a = m.lchild a
  keep : ∀ a ∉ xs, m'.lchild a = m.lchild a ∧ m'.rchild a = m.rchild a

section
variable {m m' m'' : Links α} {xs ys : List α} {p q : Option α} {T : BinaryTree α}

omit [DecidableEq α] in
theorem Swapped.trans (h : Swapped m m' xs) (h' : Swapped m' m'' ys)
    (hd : ∀ a ∈ xs, a ∉ ys) : Swapped m m'' (xs ++ ys) where
  parent := h'.parent.trans h.parent
  swap a ha := by
    rcases List.mem_append.mp ha with hx | hy
    · have hkeep := h'.keep a (hd a hx)
      have hswap := h.swap a hx
      exact ⟨hkeep.1.trans hswap.1, hkeep.2.trans hswap.2⟩
    · have hswap := h'.swap a hy
      have hkeep := h.keep a fun hx => hd a hx hy
      exact ⟨hswap.1.trans hkeep.2, hswap.2.trans hkeep.1⟩
  keep a ha := by
    rw [List.mem_append, not_or] at ha
    have hkeep := h.keep a ha.1
    have hkeep' := h'.keep a ha.2
    exact ⟨hkeep'.1.trans hkeep.1, hkeep'.2.trans hkeep.2⟩

omit [DecidableEq α] in
theorem Swapped.perm (h : Swapped m m' xs) (hp : xs.Perm ys) : Swapped m m' ys where
  parent := h.parent
  swap a ha := h.swap a (hp.mem_iff.mpr ha)
  keep a ha := h.keep a fun hx => ha (hp.mem_iff.mp hx)

omit [DecidableEq α] in
theorem Swapped.involutive (h : Swapped m m' xs) (h' : Swapped m' m'' xs) : m'' = m := by
  have hparent := h'.parent.trans h.parent
  have hchild : ∀ a, m''.lchild a = m.lchild a ∧ m''.rchild a = m.rchild a := by
    intro a
    by_cases ha : a ∈ xs
    · have hswap := h.swap a ha
      have hswap' := h'.swap a ha
      exact ⟨hswap'.1.trans hswap.2, hswap'.2.trans hswap.1⟩
    · have hkeep := h.keep a ha
      have hkeep' := h'.keep a ha
      exact ⟨hkeep'.1.trans hkeep.1, hkeep'.2.trans hkeep.2⟩
  cases m
  cases m''
  simp only [Links.mk.injEq]
  exact ⟨hparent, funext fun a => (hchild a).1, funext fun a => (hchild a).2⟩

omit [DecidableEq α] in
theorem Swapped.shaped (h : Swapped m m' xs) (hs : Shaped m p T) (hd : ∀ a ∈ inorder T, a ∉ xs) :
    Shaped m' p T := hs.congr fun a ha => h.keep a (hd a ha)

omit [DecidableEq α] in
theorem Swapped.rep_mirror (h : Swapped m m' xs) (hr : Rep m q p T)
    (hx : ∀ a ∈ inorder T, a ∈ xs) : Rep m' q p (mirror T) := by
  induction T generalizing q p with
  | nil => exact hr
  | node a l r ihl ihr =>
      obtain ⟨hp, hq, h₁, h₂⟩ := hr
      obtain ⟨hleft, hright⟩ := h.swap a (hx a (by simp))
      refine ⟨hp, by rw [h.parent, hq], ?_, ?_⟩
      · rw [hleft]
        exact ihr h₂ fun b hb => hx b (by simp [hb])
      · rw [hright]
        exact ihl h₁ fun b hb => hx b (by simp [hb])

theorem swapped_node (m : Links α) (a : α) :
    Swapped m ((m.setLchild a (m.rchild a)).setRchild a (m.lchild a)) [a] where
  parent := rfl
  swap b hb := by
    rw [List.mem_singleton] at hb
    simp [hb]
  keep b hb := by
    rw [List.mem_singleton] at hb
    simp [hb]

theorem reverseRec_swapped (h : Shaped m p T) (hd : (inorder T).Nodup) :
    ∃ m', Returns (fun fuel => reverseRec fuel m p) m' ∧ Swapped m m' (inorder T) := by
  suffices H : ∃ m', (∀ fuel, T.numNodes ≤ fuel → reverseRec fuel m p = some m') ∧
      Swapped m m' (inorder T) by
    obtain ⟨m', hrun, hswapped⟩ := H
    exact ⟨m', ⟨_, hrun⟩, hswapped⟩
  induction T generalizing m p with
  | nil =>
      refine ⟨m, fun fuel _ => ?_, rfl, by simp, fun a _ => ⟨rfl, rfl⟩⟩
      rw [show p = none from h]
      cases fuel <;> rfl
  | node a l r hl hr =>
      obtain ⟨rfl, h₁, h₂⟩ := h
      rw [inorder_node, List.nodup_append, List.nodup_cons] at hd
      obtain ⟨hdl, ⟨har, hdr⟩, hsep⟩ := hd
      have hal : a ∉ inorder l := fun ha => hsep a ha a List.mem_cons_self rfl
      have hrl : ∀ b ∈ inorder r, b ∉ inorder l := fun b hb hb' =>
        hsep b hb' b (List.mem_cons_of_mem _ hb) rfl
      have hnode := swapped_node m a
      by_cases hleaf : m.lchild a = none ∧ m.rchild a = none
      · -- The pointers of a leaf are equal.
        rw [hleaf.1] at h₁
        rw [hleaf.2] at h₂
        rw [shaped_none h₁, shaped_none h₂]
        refine ⟨m, fun fuel hf => ?_, rfl, fun b hb => ?_, fun b _ => ⟨rfl, rfl⟩⟩
        · rw [BinaryTree.numNodes] at hf
          obtain ⟨fuel, rfl⟩ : ∃ n, fuel = n + 1 := ⟨fuel - 1, by omega⟩
          simp [reverseRec, hleaf]
        · rw [show b = a by simpa using hb, hleaf.1, hleaf.2]
          exact ⟨rfl, rfl⟩
      · generalize hm₁ : (m.setLchild a (m.rchild a)).setRchild a (m.lchild a) = m₁ at hnode
        obtain ⟨hleft, hright⟩ := hnode.swap a List.mem_cons_self
        have hs₂ : Shaped m₁ (m₁.lchild a) r := by
          rw [hleft]
          exact hnode.shaped h₂ fun b hb => by simpa using ne_of_mem_of_not_mem hb har
        obtain ⟨m₂, hrun₂, hswapped₂⟩ := hr hs₂ hdr
        have hs₃ : Shaped m₂ (m₂.rchild a) l := by
          rw [(hswapped₂.keep a har).2, hright]
          refine hswapped₂.shaped (hnode.shaped h₁ fun b hb => ?_) fun b hb hb' => hrl b hb' hb
          simpa using ne_of_mem_of_not_mem hb hal
        obtain ⟨m₃, hrun₃, hswapped₃⟩ := hl hs₃ hdl
        refine ⟨m₃, fun fuel hf => ?_, ?_⟩
        · rw [BinaryTree.numNodes] at hf
          obtain ⟨fuel, rfl⟩ : ∃ n, fuel = n + 1 := ⟨fuel - 1, by omega⟩
          have hleaf' : ¬ ((m.lchild a).isNone && (m.rchild a).isNone) = true := by
            simpa using hleaf
          have hstep : reverseRec (fuel + 1) m (some a) = (reverseRec fuel m₁ (m₁.lchild a)).bind
              fun node => reverseRec fuel node (node.rchild a) := by
            rw [reverseRec, if_neg hleaf', ← hm₁]
            rfl
          rw [hstep, hrun₂ fuel (by omega), Option.bind_some, hrun₃ fuel (by omega)]
        · have hall := (hnode.trans hswapped₂ (by simpa using har)).trans hswapped₃ (by
            intro b hb
            rcases List.mem_append.mp hb with hb | hb
            · rwa [List.mem_singleton.mp hb]
            · exact hrl b hb)
          refine hall.perm ?_
          rw [inorder_node, List.singleton_append]
          exact List.perm_append_comm

end

/-- Reversing a tree leaves its nodes and all parent pointers, and turns it into its mirror
image. To reverse it again restores every link. -/
theorem reverse_mirrors {t : Btree α} {T : BinaryTree α} (h : Stored t T)
    (hd : (inorder T).Nodup) :
    ∃ t', Returns (fun fuel => reverse fuel t) t' ∧
      t'.root = t.root ∧ t'.node.parent = t.node.parent ∧ Stored t' (mirror T) ∧
      (∀ a, a ∈ inorder (mirror T) ↔ a ∈ inorder T) ∧
      (∃ xs, Returns (fun fuel => inOrder t.node fuel t.root) xs ∧
        Returns (fun fuel => inOrder t'.node fuel t'.root) xs.reverse) ∧
      (∃ xs, Returns (fun fuel => postOrder t.node fuel t.root) xs ∧
        Returns (fun fuel => preOrder t'.node fuel t'.root) xs.reverse) ∧
      Returns (fun fuel => reverse fuel t') t := by
  obtain ⟨root, node⟩ := t
  have hshaped : Shaped node root T := Rep.shaped h
  obtain ⟨m, hreturns, hswapped⟩ := reverseRec_swapped hshaped hd
  have hmirror : Rep m none root (mirror T) := hswapped.rep_mirror h fun a ha => ha
  have hmem : ∀ a, a ∈ inorder (mirror T) ↔ a ∈ inorder T := by simp [inorder_mirror]
  have hd' : (inorder (mirror T)).Nodup := by
    rw [inorder_mirror]
    exact List.nodup_reverse.mpr hd
  obtain ⟨m', hreturns', hswapped'⟩ := reverseRec_swapped hmirror.shaped hd'
  have hback : m' = node := by
    rw [inorder_mirror] at hswapped'
    exact hswapped.involutive (hswapped'.perm (List.reverse_perm _))
  refine ⟨⟨root, m⟩, hreturns.bind rfl, rfl, hswapped.parent, hmirror, hmem,
    ⟨inorder T, inOrder_returns hshaped, ?_⟩, ⟨postorder T, postOrder_returns hshaped, ?_⟩, ?_⟩
  · rw [← inorder_mirror]
    exact inOrder_returns hmirror.shaped
  · rw [← preorder_mirror]
    exact preOrder_returns hmirror.shaped
  · exact (hback ▸ hreturns').bind rfl

/-- A root whose only child is on the left, and has a right child. -/
theorem reverse_mirrors_single : ∃ t t' : Btree ℕ, Stored t (.node 0 (.node 1 .nil
    (.node 2 .nil .nil)) .nil) ∧ Returns (fun fuel => reverse fuel t) t' ∧
      t'.node.parent = t.node.parent ∧ Returns (fun fuel => reverse fuel t') t := by
  let t : Btree ℕ := ⟨some 0, fun a => if a = 1 then some 0 else if a = 2 then some 1 else none,
    fun a => if a = 0 then some 1 else none, fun a => if a = 1 then some 2 else none⟩
  have h : Stored t (.node 0 (.node 1 .nil (.node 2 .nil .nil)) .nil) :=
    ⟨rfl, rfl, ⟨rfl, rfl, rfl, ⟨rfl, rfl, rfl, rfl⟩⟩, rfl⟩
  obtain ⟨t', hreturns, -, hparent, -, -, -, -, hback⟩ := reverse_mirrors h (by decide)
  exact ⟨t, t', h, hreturns, hparent, hback⟩

end EmbeddedCode.BTree
