import EmbeddedCode.BTree.Query
import EmbeddedCode.BTree.Walk
import EmbeddedCode.Library.TreeWalks

/-!
# The walks with a stack meet the nodes as the recursive walks do

A loop of `btree.c` follows the loop whose stack is a list, turn by turn: the list in
memory holds the same nodes. So it comes to its end, never pops an empty stack, and
visits the nodes in the order of the recursive walk.
-/
namespace EmbeddedCode.BTree

open LinkedTree Loop IntrusiveList

section Represents
variable {σ D : Type} [DecidableEq σ] {this : Container σ D} {xs : List D} {d : D}

/-- The stack or queue holds the elements, and finitely many blocks are in use. -/
def Represents (this : Container σ D) (xs : List D) : Prop :=
  ∃ as, IntrusiveList.Holds this as ∧ as.map this.data = xs ∧
    {a | this.list.live (.node a) = true}.Finite

theorem Memory.represents (memory : Memory σ D) :
    ∃ this, memory.declare.init = some this ∧ Represents this [] := by
  have hhead : memory.declare.list.live .head = true := by simp [Memory.declare]
  obtain ⟨this, hinit, hholds, hlive⟩ := holds_init hhead
  refine ⟨this, hinit, [], hholds, rfl, ?_⟩
  rw [hlive]
  apply memory.finite.subset
  intro a ha
  simpa [Memory.declare] using ha

theorem Represents.isEmpty (h : Represents this xs) : this.isEmpty = some xs.isEmpty := by
  obtain ⟨as, hholds, rfl, -⟩ := h
  rw [hholds.isEmpty, List.isEmpty_map]

theorem Represents.top (h : Represents this xs) : this.top = some xs.head? := by
  obtain ⟨as, hholds, rfl, -⟩ := h
  exact hholds.top

theorem Represents.pop (h : Represents this (d :: xs)) :
    ∃ this', this.pop = some (some (d, this')) ∧ Represents this' xs := by
  obtain ⟨as, hholds, hdata, hfinite⟩ := h
  cases as with
  | nil => cases hdata
  | cons a as =>
      obtain ⟨this', hpop, hholds', hdata', hlive⟩ := hholds.pop
      rw [List.map_cons, List.cons.injEq] at hdata
      rw [hdata.1] at hpop
      refine ⟨this', hpop, as, hholds', ?_, ?_⟩
      · rw [hdata']
        exact hdata.2
      · rw [hlive]
        apply hfinite.subset
        intro b hb
        rcases eq_or_ne b a with rfl | hne
        · simp at hb
        · simpa [hne] using hb

theorem Represents.push {link : Heads (Ptr σ) → Ptr σ → Ptr σ → Option (Heads (Ptr σ))}
    {insert : {β : Type} → List β → β → List β} (hlink : Linking σ link insert)
    (malloc : Malloc σ) (h : Represents this xs) (d : D) :
    ∃ this', Container.push link this d (malloc.node this) = some this' ∧
      Represents this' (insert xs d) := by
  obtain ⟨as, hholds, rfl, hfinite⟩ := h
  have hfresh : this.list.live (.node (malloc.node this)) = false :=
    malloc.fresh (fun a => this.list.live (.node a)) hfinite
  obtain ⟨this', hpush, hholds', hdata, hlive⟩ := hholds.push hlink hfresh
  refine ⟨this', hpush, insert as (malloc.node this), hholds', hdata, ?_⟩
  rw [hlive]
  apply (hfinite.insert (malloc.node this)).subset
  intro b hb
  rcases eq_or_ne b (malloc.node this) with rfl | hne
  · exact Set.mem_insert _ _
  · exact Set.mem_insert_of_mem _ (by simpa [hne] using hb)

theorem Represents.destroy (h : Represents this xs) :
    ∃ this', Returns (fun fuel => this.destroy fuel) (some this') := by
  obtain ⟨as, hholds, -⟩ := h
  obtain ⟨this', hreturns, -⟩ := hholds.destroy
  exact ⟨this', hreturns⟩

/-- A loop that starts with nothing waiting and visits `xs` makes a walk that returns `xs`. -/
theorem walk_returns {α : Type} {xs : List α} (memory : Memory σ D)
    {loop : ℕ → Container σ D → Option (Except Failure (Container σ D × List α))}
    (hloop : ∀ this, Represents this [] → ∃ this' ys,
      Returns (fun fuel => loop fuel this) (.ok (this', xs)) ∧ Represents this' ys) :
    Returns (fun fuel => walk fuel memory (loop fuel)) (.ok xs) := by
  obtain ⟨this, hinit, hrep⟩ := memory.represents
  obtain ⟨this₁, ys, hreturns, hrep₁⟩ := hloop this hrep
  obtain ⟨this₂, hdestroy⟩ := hrep₁.destroy
  simp only [walk, hinit, Option.bind_eq_bind, Option.bind_some]
  exact hreturns.andThen (hdestroy.bind rfl)

end Represents

section
variable {σ α : Type} [DecidableEq σ] {malloc : Malloc σ} {node : Links α}

/-- The loop with a list for its stack, and the loop with its stack in memory. -/
def Follows (w : Walk α) (s : WalkState σ α) : Prop :=
  ∃ stack, s = ⟨stack, w.cur, w.visited⟩ ∧ Represents stack (w.stack.map some)

/-- The result of a loop, and the result of the loop that follows it. -/
def Results (xs : List α) (r : Except Failure (Container σ (Option α) × List α)) : Prop :=
  ∃ stack, r = .ok (stack, xs) ∧ Represents stack []

theorem Follows.preOrder_again {w w' : Walk α} {s : WalkState σ α} (h : Follows w s)
    (hturn : preTurn node w = some (.again w')) :
    ∃ s', preOrderTurn malloc node s = some (.again s') ∧ Follows w' s' := by
  obtain ⟨as, cur, visited⟩ := w
  obtain ⟨stack, rfl, hstack⟩ := h
  have hempty := hstack.isEmpty
  cases cur with
  | some a =>
      obtain ⟨stack', hpush, hstack'⟩ := hstack.push linking_listAdd malloc (some a)
      have hw' : w' = ⟨a :: as, node.lchild a, visited ++ [a]⟩ := by
        cases as <;> exact (Turn.again.inj (Option.some.inj hturn)).symm
      subst hw'
      refine ⟨_, ?_, stack', rfl, hstack'⟩
      simp [preOrderTurn, hempty, Stack.push, hpush]
  | none =>
      cases as with
      | nil => cases hturn
      | cons a as =>
          obtain ⟨stack', hpop, hstack'⟩ := hstack.pop
          cases hturn
          refine ⟨_, ?_, stack', rfl, hstack'⟩
          simp [preOrderTurn, hempty, hpop]

theorem Follows.inOrder_again {w w' : Walk α} {s : WalkState σ α} (h : Follows w s)
    (hturn : inTurn node w = some (.again w')) :
    ∃ s', inOrderTurn malloc node s = some (.again s') ∧ Follows w' s' := by
  obtain ⟨as, cur, visited⟩ := w
  obtain ⟨stack, rfl, hstack⟩ := h
  have hempty := hstack.isEmpty
  cases cur with
  | some a =>
      obtain ⟨stack', hpush, hstack'⟩ := hstack.push linking_listAdd malloc (some a)
      have hw' : w' = ⟨a :: as, node.lchild a, visited⟩ := by
        cases as <;> exact (Turn.again.inj (Option.some.inj hturn)).symm
      subst hw'
      refine ⟨_, ?_, stack', rfl, hstack'⟩
      simp [inOrderTurn, hempty, Stack.push, hpush]
  | none =>
      cases as with
      | nil => cases hturn
      | cons a as =>
          obtain ⟨stack', hpop, hstack'⟩ := hstack.pop
          cases hturn
          refine ⟨_, ?_, stack', rfl, hstack'⟩
          simp [inOrderTurn, hempty, hpop]

theorem Follows.postOrder_again [DecidableEq α] {w w' : Walk α} {s : WalkState σ α}
    {tmp tmp' : Option α} (h : Follows w s)
    (hturn : postTurn node (w, tmp) = some (.again (w', tmp'))) :
    ∃ s', postOrderTurn malloc node (s, tmp) = some (.again (s', tmp')) ∧ Follows w' s' := by
  obtain ⟨as, cur, visited⟩ := w
  obtain ⟨stack, rfl, hstack⟩ := h
  have hempty := hstack.isEmpty
  cases cur with
  | some a =>
      obtain ⟨stack', hpush, hstack'⟩ := hstack.push linking_listAdd malloc (some a)
      have hw' : (w', tmp') = (⟨a :: as, node.lchild a, visited⟩, tmp) := by
        cases as <;> exact (Turn.again.inj (Option.some.inj hturn)).symm
      cases hw'
      refine ⟨_, ?_, stack', rfl, hstack'⟩
      simp [postOrderTurn, hempty, Stack.push, hpush]
  | none =>
      cases as with
      | nil => cases hturn
      | cons a as =>
          have htop := hstack.top
          simp only [postTurn] at hturn
          split at hturn
          · rename_i hright
            cases hturn
            refine ⟨_, ?_, stack, rfl, hstack⟩
            simp [postOrderTurn, hempty, htop, hright]
          · rename_i hright
            obtain ⟨stack', hpop, hstack'⟩ := hstack.pop
            cases hturn
            refine ⟨_, ?_, stack', rfl, hstack'⟩
            simp [postOrderTurn, hempty, htop, hright, hpop]

theorem Follows.done {xs : List α} {s : WalkState σ α} (h : Follows ⟨[], none, xs⟩ s) :
    ∃ stack, s = ⟨stack, none, xs⟩ ∧ stack.isEmpty = some true ∧
      Results xs (.ok (stack, xs)) := by
  obtain ⟨stack, rfl, hstack⟩ := h
  exact ⟨stack, rfl, hstack.isEmpty, stack, rfl, hstack⟩

/-- A loop that follows another one between the initialization and the destruction of its stack. -/
theorem loop_returns {walkTurn : Walk α → Option (Turn (Walk α) (List α))}
    {turn : WalkState σ α → Option (WalkTurn σ α (WalkState σ α))} {root : Option α} {xs : List α}
    (memory : Memory σ (Option α))
    (hagain : ∀ w w' s, Follows w s → walkTurn w = some (.again w') →
      ∃ s', turn s = some (.again s') ∧ Follows w' s')
    (hleave : ∀ w ys, walkTurn w = some (.leave ys) → w = ⟨[], none, ys⟩)
    (hdone : ∀ stack ys, stack.isEmpty = some true →
      turn ⟨stack, none, ys⟩ = some (.leave (.ok (stack, ys))))
    (hwalk : Returns (fun fuel => run walkTurn fuel ⟨[], root, []⟩) xs) :
    Returns (fun fuel => walk fuel memory fun stack => run turn fuel ⟨stack, root, []⟩)
      (.ok xs) := by
  apply walk_returns
  intro stack hstack
  have hstart : Follows ⟨[], root, []⟩ (⟨stack, root, []⟩ : WalkState σ α) := ⟨stack, rfl, hstack⟩
  have hend : ∀ w ys (s : WalkState σ α), Follows w s → walkTurn w = some (.leave ys) →
      ∃ r, turn s = some (.leave r) ∧ Results ys r := by
    intro w ys s hs hturn
    rw [hleave w ys hturn] at hs
    obtain ⟨stack, rfl, hempty, hresult⟩ := hs.done
    exact ⟨_, hdone stack ys hempty, hresult⟩
  obtain ⟨r, hreturns, stack', rfl, hstack'⟩ := hwalk.simulate hagain hend hstart
  exact ⟨stack', [], hreturns, hstack'⟩

section Equal

/-!
The recursive walks, and the loops.
-/

variable {p : Option α} {T : BinaryTree α}

theorem preOrder_returns (h : Shaped node p T) :
    Returns (fun fuel => preOrder node fuel p) (preorder T) := by
  refine Shaped.returns (P := fun _ => True) (fun _ _ _ _ => ⟨trivial, trivial⟩) ?_ ?_ h trivial
  · intro fuel
    cases fuel <;> rfl
  · intro fuel a l r _ hl hr
    simp [preOrder, hl, hr]

theorem postOrder_returns (h : Shaped node p T) :
    Returns (fun fuel => postOrder node fuel p) (postorder T) := by
  refine Shaped.returns (P := fun _ => True) (fun _ _ _ _ => ⟨trivial, trivial⟩) ?_ ?_ h trivial
  · intro fuel
    cases fuel <;> rfl
  · intro fuel a l r _ hl hr
    simp [postOrder, hl, hr]

variable {t : Btree α} (malloc : Malloc σ) (memory : Memory σ (Option α))

theorem preOrderNorec_returns (h : Shaped t.node t.root T) :
    Returns (fun fuel => preOrderNorec fuel malloc memory t) (.ok (preorder T)) := by
  refine loop_returns memory (fun w w' s hs => hs.preOrder_again) (fun w ys => preTurn_leave) ?_
    (returns_pre h)
  intro stack ys hempty
  simp [preOrderTurn, hempty]

theorem inOrderNorec_returns (h : Shaped t.node t.root T) :
    Returns (fun fuel => inOrderNorec fuel malloc memory t) (.ok (inorder T)) := by
  refine loop_returns memory (fun w w' s hs => hs.inOrder_again) (fun w ys => inTurn_leave) ?_
    (returns_in h)
  intro stack ys hempty
  simp [inOrderTurn, hempty]

theorem postOrderNorec_returns [DecidableEq α] (h : Shaped t.node t.root T)
    (hd : (inorder T).Nodup) :
    Returns (fun fuel => postOrderNorec fuel malloc memory t) (.ok (postorder T)) := by
  apply walk_returns
  intro stack hstack
  let R : Walk α × Option α → WalkState σ α × Option α → Prop := fun w s =>
    Follows w.1 s.1 ∧ w.2 = s.2
  have hstart : R (⟨[], t.root, []⟩, none) (⟨stack, t.root, []⟩, none) :=
    ⟨⟨stack, rfl, hstack⟩, rfl⟩
  have hagain : ∀ w w' s, R w s → postTurn t.node w = some (.again w') →
      ∃ s', postOrderTurn malloc t.node s = some (.again s') ∧ R w' s' := by
    rintro ⟨w, tmp⟩ ⟨w', tmp'⟩ ⟨s, _⟩ ⟨hs, rfl⟩ hturn
    have hstep : ∃ s', postOrderTurn malloc t.node (s, tmp) = some (.again (s', tmp')) ∧
        Follows w' s' := hs.postOrder_again hturn
    obtain ⟨s', hturn', hs'⟩ := hstep
    exact ⟨(s', tmp'), hturn', hs', rfl⟩
  have hleave : ∀ w xs s, R w s → postTurn t.node w = some (.leave xs) →
      ∃ r, postOrderTurn malloc t.node s = some (.leave r) ∧ Results xs r := by
    rintro ⟨w, tmp⟩ xs ⟨s, _⟩ ⟨hs, rfl⟩ hturn
    rw [postTurn_leave hturn] at hs
    obtain ⟨stack, rfl, hempty, hresult⟩ := hs.done
    exact ⟨_, by simp [postOrderTurn, hempty], hresult⟩
  obtain ⟨r, hreturns, stack', rfl, hstack'⟩ :=
    (returns_post h hd).simulate hagain hleave hstart
  exact ⟨stack', [], hreturns, hstack'⟩

/-- On every finite tree the loops return, and they meet the nodes in the order of the
recursive walks. -/
theorem norec_eq_recursive [DecidableEq α] (h : Shaped t.node t.root T)
    (hd : (inorder T).Nodup) :
    (∃ xs, Returns (fun fuel => preOrder t.node fuel t.root) xs ∧
      Returns (fun fuel => preOrderNorec fuel malloc memory t) (.ok xs)) ∧
    (∃ xs, Returns (fun fuel => inOrder t.node fuel t.root) xs ∧
      Returns (fun fuel => inOrderNorec fuel malloc memory t) (.ok xs)) ∧
    ∃ xs, Returns (fun fuel => postOrder t.node fuel t.root) xs ∧
      Returns (fun fuel => postOrderNorec fuel malloc memory t) (.ok xs) := by
  refine ⟨⟨preorder T, preOrder_returns h, ?_⟩, ⟨inorder T, inOrder_returns h, ?_⟩,
    postorder T, postOrder_returns h, ?_⟩
  · exact preOrderNorec_returns malloc memory h
  · exact inOrderNorec_returns malloc memory h
  · exact postOrderNorec_returns malloc memory h hd

/-- A root with a left child, and with a right child that has a left child. -/
theorem norec_eq_recursive_four : ∃ (malloc : Malloc ℕ) (memory : Memory ℕ (Option ℕ))
    (t : Btree ℕ), t.root = some 0 ∧ ∃ xs, Returns (fun fuel => postOrder t.node fuel t.root) xs ∧
      Returns (fun fuel => postOrderNorec fuel malloc memory t) (.ok xs) := by
  obtain ⟨malloc⟩ := malloc_nonempty ℕ
  let memory : Memory ℕ (Option ℕ) := ⟨⟨⟨fun _ => false, id, id⟩, fun _ => none⟩, by simp⟩
  let t : Btree ℕ := ⟨some 0, fun _ => none,
    fun a => if a = 0 then some 1 else if a = 2 then some 3 else none,
    fun a => if a = 0 then some 2 else none⟩
  have h : Shaped t.node t.root (.node 0 (.node 1 .nil .nil) (.node 2 (.node 3 .nil .nil) .nil)) :=
    ⟨rfl, ⟨rfl, rfl, rfl⟩, rfl, ⟨rfl, rfl, rfl⟩, rfl⟩
  exact ⟨malloc, memory, t, rfl, (norec_eq_recursive malloc memory h (by decide)).2.2⟩

end Equal

end

end EmbeddedCode.BTree
