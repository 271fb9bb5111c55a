import EmbeddedCode.BTree.Traversal

/-!
# The walk with a queue

`level_order` pushes the root before it looks at it. The tree without a node is the only
one on which this goes wrong: NULL is popped and a member of the node at NULL is read. On
every other tree the queue holds nodes only, first the rest of one depth and then what has
been seen of the next one.
-/
namespace EmbeddedCode.BTree

open LinkedTree Loop IntrusiveList

section
variable {σ α : Type} [DecidableEq σ] {malloc : Malloc σ} {node : Links α}
  {queue : Container σ (Option α)} {xs : List (Option α)}

theorem Represents.pushChild (malloc : Malloc σ) (h : Represents queue xs) (child : Option α) :
    ∃ queue', pushChild malloc queue child = some queue' ∧
      Represents queue' (xs ++ child.toList.map some) := by
  cases child with
  | none => exact ⟨queue, rfl, by simpa using h⟩
  | some a => exact h.push linking_listAddTail malloc (some a)

/-- The loop with a list for its queue, and the loop with its queue in memory. -/
def Queues (w : List α × List α) (s : Container σ (Option α) × List α) : Prop :=
  ∃ queue, s = (queue, w.2) ∧ Represents queue (w.1.map some)

theorem Queues.again {w w' : List α × List α} {s : Container σ (Option α) × List α}
    (h : Queues w s) (hturn : levelTurn node w = some (.again w')) :
    ∃ s', levelOrderTurn malloc node s = some (.again s') ∧ Queues w' s' := by
  obtain ⟨as, visited⟩ := w
  obtain ⟨queue, rfl, hqueue⟩ := h
  have hempty := hqueue.isEmpty
  cases as with
  | nil => cases hturn
  | cons a as =>
      obtain ⟨queue₁, hpop, hqueue₁⟩ := hqueue.pop
      obtain ⟨queue₂, hpush₂, hqueue₂⟩ := hqueue₁.pushChild malloc (node.lchild a)
      obtain ⟨queue₃, hpush₃, hqueue₃⟩ := hqueue₂.pushChild malloc (node.rchild a)
      cases hturn
      refine ⟨(queue₃, visited ++ [a]), ?_, queue₃, rfl, ?_⟩
      · simp [levelOrderTurn, hempty, hpop, hpush₂, hpush₃]
      · simpa [children] using hqueue₃

theorem Queues.leave {w : List α × List α} {s : Container σ (Option α) × List α} {xs : List α}
    (h : Queues w s) (hturn : levelTurn node w = some (.leave xs)) :
    ∃ r, levelOrderTurn malloc node s = some (.leave r) ∧ Results xs r := by
  obtain ⟨as, visited⟩ := w
  obtain ⟨queue, rfl, hqueue⟩ := h
  have hempty := hqueue.isEmpty
  cases as with
  | cons a as => cases hturn
  | nil =>
      cases hturn
      exact ⟨.ok (queue, xs), by simp [levelOrderTurn, hempty], queue, rfl, hqueue⟩

end

section
variable {σ α : Type} [DecidableEq σ] (malloc : Malloc σ) (memory : Memory σ (Option α))
  {t : Btree α} {T : BinaryTree α}

theorem levelOrder_returns (h : Shaped t.node t.root T) (hroot : t.root ≠ none) :
    Returns (fun fuel => levelOrder fuel malloc memory t) (.ok (levelorder T)) := by
  apply walk_returns
  intro queue hqueue
  obtain ⟨root, hr⟩ := Option.ne_none_iff_exists'.mp hroot
  rw [hr] at h ⊢
  obtain ⟨queue', hpush, hqueue'⟩ := hqueue.push linking_listAddTail malloc (some root)
  have hstart : Queues ((some root).toList, []) (queue', []) := ⟨queue', rfl, hqueue'⟩
  obtain ⟨r, hreturns, queue'', rfl, hqueue''⟩ := (returns_level h).simulate
    (fun w w' s hs => hs.again) (fun w xs s hs => hs.leave) hstart
  have hpush' : Queue.push queue (some root) (malloc.node queue) = some queue' := hpush
  simp only [hpush', Option.bind_eq_bind, Option.bind_some]
  exact ⟨queue'', [], hreturns, hqueue''⟩

/-- Without a node the first turn reads a member of the node at NULL. -/
theorem levelOrder_none (hroot : t.root = none) :
    Returns (fun fuel => levelOrder fuel malloc memory t) (.error .nullPointer) := by
  obtain ⟨queue, hinit, hqueue⟩ := memory.represents
  obtain ⟨queue', hpush, hqueue'⟩ := hqueue.push linking_listAddTail malloc none
  have hempty := hqueue'.isEmpty
  obtain ⟨queue'', hpop, -⟩ := hqueue'.pop
  have hturn : levelOrderTurn malloc t.node (queue', []) =
      some (.leave (.error .nullPointer)) := by
    simp [levelOrderTurn, hempty, hpop]
  have hpush' : Queue.push queue none (malloc.node queue) = some queue' := hpush
  simp only [levelOrder, walk, hinit, hroot, hpush', Option.bind_eq_bind, Option.bind_some]
  exact (returns_leave hturn).andThen (returns_const _)

/-- Every node of the tree once, by depth, and within a depth from left to right, which is the
order of an in-order walk. -/
structure ByLevels (T : BinaryTree α) (xs : List α) : Prop where
  nodup : xs.Nodup
  mem : ∀ a, a ∈ xs ↔ a ∈ inorder T
  depth : xs = (List.range T.height).flatMap (atDepth T)
  row : ∀ d, (atDepth T d).Sublist (inorder T)

theorem byLevels_levelorder (hd : (inorder T).Nodup) : ByLevels T (levelorder T) where
  nodup := (levelorder_perm T).nodup_iff.mpr hd
  mem _ := (levelorder_perm T).mem_iff
  depth := rfl
  row := atDepth_sublist T

/-- The walk comes to its end and meets the nodes by levels exactly when there is a node. -/
theorem levelOrder_iff (h : Shaped t.node t.root T) (hd : (inorder T).Nodup) :
    (∃ xs, Returns (fun fuel => levelOrder fuel malloc memory t) (.ok xs) ∧ ByLevels T xs) ↔
      t.root ≠ none := by
  constructor
  · rintro ⟨xs, hreturns, -⟩ hroot
    cases hreturns.unique (levelOrder_none malloc memory hroot)
  · intro hroot
    exact ⟨levelorder T, levelOrder_returns malloc memory h hroot, byLevels_levelorder hd⟩

end

/-- A root with a left child, and with a right child that has a left child. -/
theorem levelOrder_iff_four : ∃ (malloc : Malloc ℕ) (memory : Memory ℕ (Option ℕ)) (t : Btree ℕ)
    (T : BinaryTree ℕ) (xs : List ℕ), ByLevels T xs ∧ T.height = 3 ∧
      Returns (fun fuel => levelOrder fuel malloc memory t) (.ok xs) := by
  obtain ⟨malloc⟩ := malloc_nonempty ℕ
  let memory : Memory ℕ (Option ℕ) := ⟨⟨⟨fun _ => false, id, id⟩, fun _ => none⟩, by simp⟩
  let t : Btree ℕ := ⟨some 0, fun _ => none,
    fun a => if a = 0 then some 1 else if a = 2 then some 3 else none,
    fun a => if a = 0 then some 2 else none⟩
  let T : BinaryTree ℕ := .node 0 (.node 1 .nil .nil) (.node 2 (.node 3 .nil .nil) .nil)
  have h : Shaped t.node t.root T := ⟨rfl, ⟨rfl, rfl, rfl⟩, rfl, ⟨rfl, rfl, rfl⟩, rfl⟩
  obtain ⟨xs, hreturns, hlevels⟩ :=
    (levelOrder_iff malloc memory h (by decide)).mpr (Option.some_ne_none 0)
  exact ⟨malloc, memory, t, T, xs, hlevels, rfl, hreturns⟩

/-- On a tree that was just initialized the walk reads a member of the node at NULL. -/
theorem levelOrder_init : ∃ (malloc : Malloc ℕ) (memory : Memory ℕ (Option ℕ)) (node : Links ℕ),
    Returns (fun fuel => levelOrder fuel malloc memory (btreeInit node))
      (.error .nullPointer) := by
  obtain ⟨malloc⟩ := malloc_nonempty ℕ
  let memory : Memory ℕ (Option ℕ) := ⟨⟨⟨fun _ => false, id, id⟩, fun _ => none⟩, by simp⟩
  let node : Links ℕ := ⟨fun _ => none, fun _ => none, fun _ => none⟩
  exact ⟨malloc, memory, node, levelOrder_none malloc memory rfl⟩

end EmbeddedCode.BTree
