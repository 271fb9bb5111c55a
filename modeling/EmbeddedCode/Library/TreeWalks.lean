import EmbeddedCode.Library.BinaryTrees
import EmbeddedCode.Library.Loop

/-!
# Walks of a tree without recursion

The loops that keep the nodes they come back to on a stack, and the loop that keeps the
nodes it has yet to meet in a queue. Stack and queue are lists here, and only the child
pointers of the memory are read. A loop that starts at a subtree comes to its end with
the stack as it found it, and with the nodes of the subtree visited in the order of the
recursive walk.
-/
namespace EmbeddedCode.LinkedTree

open Loop

variable {α : Type*}

/-- The state of a loop: `visited` holds the nodes that the loop has met so far. -/
structure Walk (α : Type*) where
  stack : List α
  cur : Option α
  visited : List α

def preTurn (m : Links α) : Walk α → Option (Turn (Walk α) (List α))
  | ⟨[], none, visited⟩ => some (.leave visited)
  | ⟨a :: stack, none, visited⟩ => some (.again ⟨stack, m.rchild a, visited⟩)
  | ⟨stack, some a, visited⟩ => some (.again ⟨a :: stack, m.lchild a, visited ++ [a]⟩)

def inTurn (m : Links α) : Walk α → Option (Turn (Walk α) (List α))
  | ⟨[], none, visited⟩ => some (.leave visited)
  | ⟨a :: stack, none, visited⟩ => some (.again ⟨stack, m.rchild a, visited ++ [a]⟩)
  | ⟨stack, some a, visited⟩ => some (.again ⟨a :: stack, m.lchild a, visited⟩)

/-- The second component is the node that was visited last. The right subtree of the node on
top of the stack is done when that node is its root. -/
def postTurn [DecidableEq α] (m : Links α) :
    Walk α × Option α → Option (Turn (Walk α × Option α) (List α))
  | (⟨[], none, visited⟩, _) => some (.leave visited)
  | (⟨a :: stack, none, visited⟩, last) =>
      if m.rchild a ≠ none ∧ m.rchild a ≠ last then
        some (.again (⟨a :: stack, m.rchild a, visited⟩, last))
      else some (.again (⟨stack, none, visited ++ [a]⟩, some a))
  | (⟨stack, some a, visited⟩, last) => some (.again (⟨a :: stack, m.lchild a, visited⟩, last))

variable {m : Links α} {t : BinaryTree α}

section Leave
variable {w : Walk α} {xs : List α}

theorem preTurn_leave (h : preTurn m w = some (.leave xs)) : w = ⟨[], none, xs⟩ := by
  obtain ⟨_ | ⟨a, as⟩, _ | b, visited⟩ := w <;> simp_all [preTurn]

theorem inTurn_leave (h : inTurn m w = some (.leave xs)) : w = ⟨[], none, xs⟩ := by
  obtain ⟨_ | ⟨a, as⟩, _ | b, visited⟩ := w <;> simp_all [inTurn]

theorem postTurn_leave [DecidableEq α] {last : Option α}
    (h : postTurn m (w, last) = some (.leave xs)) : w = ⟨[], none, xs⟩ := by
  obtain ⟨_ | ⟨a, as⟩, _ | b, visited⟩ := w
  · simp_all [postTurn]
  · cases h
  · simp only [postTurn] at h
    split at h <;> cases h
  · cases h

end Leave

theorem leads_of_turn {σ ρ : Type*} {turn : σ → Option (Turn σ ρ)} {s s' : σ}
    (h : turn s = some (.again s')) : Leads (fun _ => turn) s s' :=
  Leads.single (by rw [h]; exact returns_const _)

theorem leads_pre {p : Option α} (h : Shaped m p t) (stack visited : List α) :
    Leads (fun _ => preTurn m) ⟨stack, p, visited⟩ ⟨stack, none, visited ++ preorder t⟩ := by
  induction t generalizing p stack visited with
  | nil =>
      rw [show p = none from h, preorder_nil, List.append_nil]
      exact .refl _
  | node a l r hl hr =>
      obtain ⟨rfl, hsl, hsr⟩ := h
      have hpush : Leads (fun _ => preTurn m) ⟨stack, some a, visited⟩
          ⟨a :: stack, m.lchild a, visited ++ [a]⟩ := leads_of_turn (by cases stack <;> rfl)
      have hleft := hl hsl (a :: stack) (visited ++ [a])
      have hpop : Leads (fun _ => preTurn m) ⟨a :: stack, none, visited ++ [a] ++ preorder l⟩
          ⟨stack, m.rchild a, visited ++ [a] ++ preorder l⟩ := leads_of_turn rfl
      have hright := hr hsr stack (visited ++ [a] ++ preorder l)
      have hlist : visited ++ [a] ++ preorder l ++ preorder r =
          visited ++ preorder (.node a l r) := by simp
      rw [← hlist]
      exact ((hpush.trans hleft).trans hpop).trans hright

theorem leads_in {p : Option α} (h : Shaped m p t) (stack visited : List α) :
    Leads (fun _ => inTurn m) ⟨stack, p, visited⟩ ⟨stack, none, visited ++ inorder t⟩ := by
  induction t generalizing p stack visited with
  | nil =>
      rw [show p = none from h, inorder_nil, List.append_nil]
      exact .refl _
  | node a l r hl hr =>
      obtain ⟨rfl, hsl, hsr⟩ := h
      have hpush : Leads (fun _ => inTurn m) ⟨stack, some a, visited⟩
          ⟨a :: stack, m.lchild a, visited⟩ := leads_of_turn (by cases stack <;> rfl)
      have hleft := hl hsl (a :: stack) visited
      have hpop : Leads (fun _ => inTurn m) ⟨a :: stack, none, visited ++ inorder l⟩
          ⟨stack, m.rchild a, visited ++ inorder l ++ [a]⟩ := leads_of_turn rfl
      have hright := hr hsr stack (visited ++ inorder l ++ [a])
      have hlist : visited ++ inorder l ++ [a] ++ inorder r =
          visited ++ inorder (.node a l r) := by simp
      rw [← hlist]
      exact ((hpush.trans hleft).trans hpop).trans hright

/-- The node visited last is the root of the subtree, if there is one. It tells the right
subtrees apart because no node of the subtree was visited before. -/
theorem leads_post [DecidableEq α] {p : Option α} (h : Shaped m p t) (hd : (inorder t).Nodup)
    (stack visited : List α) {last : Option α} (hlast : ∀ b ∈ inorder t, last ≠ some b) :
    Leads (fun _ => postTurn m) (⟨stack, p, visited⟩, last)
      (⟨stack, none, visited ++ postorder t⟩, p.or last) := by
  induction t generalizing p stack visited last with
  | nil =>
      rw [show p = none from h, postorder_nil, List.append_nil, Option.none_or]
      exact .refl _
  | node a l r hl hr =>
      obtain ⟨rfl, hsl, hsr⟩ := h
      rw [inorder_node, List.nodup_append, List.nodup_cons] at hd
      obtain ⟨hdl, ⟨-, hdr⟩, hsep⟩ := hd
      have hpush : Leads (fun _ => postTurn m) (⟨stack, some a, visited⟩, last)
          (⟨a :: stack, m.lchild a, visited⟩, last) := leads_of_turn (by cases stack <;> rfl)
      have hleft := hl hsl hdl (a :: stack) visited fun b hb => hlast b (by simp [hb])
      -- What was visited last before the right subtree is not in it.
      have hlast' : ∀ b ∈ inorder r, (m.lchild a).or last ≠ some b := by
        intro b hb hor
        rcases Option.or_eq_some_iff.mp hor with hc | ⟨-, hc⟩
        · rw [hc] at hsl
          exact hsep b hsl.root_mem b (by simp [hb]) rfl
        · exact hlast b (by simp [hb]) hc
      have hright := hr hsr hdr (a :: stack) (visited ++ postorder l) hlast'
      have hvisit : Leads (fun _ => postTurn m)
          (⟨a :: stack, none, visited ++ postorder l ++ postorder r⟩,
            (m.rchild a).or ((m.lchild a).or last))
          (⟨stack, none, visited ++ postorder (.node a l r)⟩, some a) := by
        have hlist : visited ++ postorder l ++ postorder r ++ [a] =
            visited ++ postorder (.node a l r) := by simp
        rw [← hlist]
        apply leads_of_turn
        cases hc : m.rchild a <;> simp [postTurn, hc]
      have hback : Leads (fun _ => postTurn m)
          (⟨a :: stack, none, visited ++ postorder l⟩, (m.lchild a).or last)
          (⟨stack, none, visited ++ postorder (.node a l r)⟩, some a) := by
        cases hc : m.rchild a with
        | none =>
            rw [hc] at hsr hvisit
            rw [shaped_none hsr, postorder_nil, List.append_nil, Option.none_or] at hvisit
            exact shaped_none hsr ▸ hvisit
        | some b =>
            rw [hc] at hsr hright hvisit
            refine (Leads.trans (leads_of_turn ?_) hright).trans hvisit
            simp [postTurn, hc, (hlast' b hsr.root_mem).symm]
      exact (hpush.trans hleft).trans hback

section Returns
variable {p : Option α} (h : Shaped m p t)
include h

theorem returns_pre : Returns (fun fuel => run (preTurn m) fuel ⟨[], p, []⟩) (preorder t) := by
  have hleave : Exits (fun _ => preTurn m) ⟨[], none, [] ++ preorder t⟩ (preorder t) :=
    Exits.single (returns_const _)
  exact ((leads_pre h [] []).exits hleave).returns

theorem returns_in : Returns (fun fuel => run (inTurn m) fuel ⟨[], p, []⟩) (inorder t) := by
  have hleave : Exits (fun _ => inTurn m) ⟨[], none, [] ++ inorder t⟩ (inorder t) :=
    Exits.single (returns_const _)
  exact ((leads_in h [] []).exits hleave).returns

theorem returns_post [DecidableEq α] (hd : (inorder t).Nodup) :
    Returns (fun fuel => run (postTurn m) fuel (⟨[], p, []⟩, none)) (postorder t) := by
  have hleave : Exits (fun _ => postTurn m) (⟨[], none, [] ++ postorder t⟩, p.or none)
      (postorder t) := Exits.single (returns_const _)
  have hnone : ∀ b ∈ inorder t, (none : Option α) ≠ some b := by simp
  exact ((leads_post h hd [] [] hnone).exits hleave).returns

end Returns

section Levels

/-- The nodes that `a` points to, from left to right. -/
def children (m : Links α) (a : α) : List α := (m.lchild a).toList ++ (m.rchild a).toList

/-- The nodes that wait, and the nodes that were visited. -/
def levelTurn (m : Links α) : List α × List α → Option (Turn (List α × List α) (List α))
  | ([], visited) => some (.leave visited)
  | (a :: queue, visited) => some (.again (queue ++ children m a, visited ++ [a]))

/-- The nodes at the front of the queue are visited, and their children wait behind it. -/
theorem leads_level (m : Links α) (row queue visited : List α) :
    Leads (fun _ => levelTurn m) (row ++ queue, visited)
      (queue ++ row.flatMap (children m), visited ++ row) := by
  induction row generalizing queue visited with
  | nil =>
      rw [List.nil_append, List.flatMap_nil, List.append_nil, List.append_nil]
      exact .refl _
  | cons a row ih =>
      have hvisit : Leads (fun _ => levelTurn m) (a :: row ++ queue, visited)
          (row ++ (queue ++ children m a), visited ++ [a]) := leads_of_turn (by simp [levelTurn])
      have hrest := ih (queue ++ children m a) (visited ++ [a])
      rw [List.append_assoc, List.append_assoc, List.singleton_append] at hrest
      exact hvisit.trans hrest

theorem atDepth_root {p : Option α} (h : Shaped m p t) : atDepth t 0 = p.toList := by
  cases t with
  | nil => rw [show p = none from h, Option.toList_none, atDepth_nil]
  | node a l r => rw [h.1, Option.toList_some, atDepth_zero]

/-- The children of the nodes of one depth are the nodes of the next one. -/
theorem flatMap_children {p : Option α} (h : Shaped m p t) (d : ℕ) :
    (atDepth t d).flatMap (children m) = atDepth t (d + 1) := by
  induction t generalizing p d with
  | nil => rfl
  | node a l r hl hr =>
      obtain ⟨-, hsl, hsr⟩ := h
      cases d with
      | zero => simp [children, atDepth_root hsl, atDepth_root hsr]
      | succ d => simp only [atDepth_succ, List.flatMap_append, hl hsl, hr hsr]

theorem atDepth_of_height_le {d : ℕ} (hd : t.height ≤ d) : atDepth t d = [] := by
  induction t generalizing d with
  | nil => rfl
  | node a l r hl hr =>
      simp only [BinaryTree.height] at hd
      obtain ⟨d, rfl⟩ : ∃ n, d = n + 1 := ⟨d - 1, by omega⟩
      rw [atDepth_succ, hl (by omega), hr (by omega), List.append_nil]

theorem returns_level {p : Option α} (h : Shaped m p t) :
    Returns (fun fuel => run (levelTurn m) fuel (p.toList, [])) (levelorder t) := by
  have hrows : ∀ n, Leads (fun _ => levelTurn m) (p.toList, [])
      (atDepth t n, (List.range n).flatMap (atDepth t)) := by
    intro n
    induction n with
    | zero =>
        rw [atDepth_root h]
        exact .refl _
    | succ n ih =>
        have hrow := leads_level m (atDepth t n) [] ((List.range n).flatMap (atDepth t))
        rw [List.append_nil, List.nil_append, flatMap_children h] at hrow
        rw [List.range_succ, List.flatMap_append, List.flatMap_singleton]
        exact ih.trans hrow
  have hleave : Exits (fun _ => levelTurn m)
      (atDepth t t.height, (List.range t.height).flatMap (atDepth t)) (levelorder t) := by
    rw [atDepth_of_height_le le_rfl]
    exact Exits.single (returns_const _)
  exact ((hrows t.height).exits hleave).returns

end Levels

end EmbeddedCode.LinkedTree
