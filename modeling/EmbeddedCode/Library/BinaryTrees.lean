import EmbeddedCode.Library.LinkedTree
import Mathlib.Algebra.Group.Nat.Defs
import Mathlib.Data.List.Perm.Basic
import Mathlib.Data.List.Range

/-!
# Orders, depths and mirror images of binary trees

The recursive orders in which the nodes of a tree are met, the nodes of one depth from
left to right, and the trees whose subtrees have about the same height everywhere.
-/
namespace EmbeddedCode.LinkedTree

variable {α : Type*}

def preorder : BinaryTree α → List α
  | .nil => []
  | .node a l r => a :: (preorder l ++ preorder r)

def postorder : BinaryTree α → List α
  | .nil => []
  | .node a l r => postorder l ++ (postorder r ++ [a])

@[simp] theorem preorder_nil : preorder (.nil : BinaryTree α) = [] := rfl
@[simp] theorem preorder_node (a : α) (l r : BinaryTree α) :
    preorder (.node a l r) = a :: (preorder l ++ preorder r) := rfl
@[simp] theorem postorder_nil : postorder (.nil : BinaryTree α) = [] := rfl
@[simp] theorem postorder_node (a : α) (l r : BinaryTree α) :
    postorder (.node a l r) = postorder l ++ (postorder r ++ [a]) := rfl

/-- The nodes of one depth, from left to right. -/
def atDepth : BinaryTree α → ℕ → List α
  | .nil, _ => []
  | .node a _ _, 0 => [a]
  | .node _ l r, d + 1 => atDepth l d ++ atDepth r d

@[simp] theorem atDepth_nil (d : ℕ) : atDepth (.nil : BinaryTree α) d = [] := rfl
@[simp] theorem atDepth_zero (a : α) (l r : BinaryTree α) : atDepth (.node a l r) 0 = [a] := rfl
@[simp] theorem atDepth_succ (a : α) (l r : BinaryTree α) (d : ℕ) :
    atDepth (.node a l r) (d + 1) = atDepth l d ++ atDepth r d := rfl

/-- Depth by depth, and from left to right within a depth. -/
def levelorder (t : BinaryTree α) : List α := (List.range t.height).flatMap (atDepth t)

/-- Within a depth the nodes are met as an in-order walk meets them. -/
theorem atDepth_sublist (t : BinaryTree α) (d : ℕ) : (atDepth t d).Sublist (inorder t) := by
  induction t generalizing d with
  | nil => exact List.Sublist.refl _
  | node a l r hl hr =>
      cases d with
      | zero => exact List.singleton_sublist.mpr (by simp)
      | succ d => exact (hl d).append ((hr d).cons a)

/-- Depth by depth every node is met once, however far the depths are counted. -/
theorem flatMap_atDepth_perm (t : BinaryTree α) {n : ℕ} (hn : t.height ≤ n) :
    ((List.range n).flatMap (atDepth t)).Perm (inorder t) := by
  induction t generalizing n with
  | nil => simp
  | node a l r hl hr =>
      simp only [BinaryTree.height] at hn
      obtain ⟨n, rfl⟩ : ∃ m, n = m + 1 := ⟨n - 1, by omega⟩
      have hsplit : (List.range (n + 1)).flatMap (atDepth (.node a l r)) =
          a :: (List.range n).flatMap fun d => atDepth l d ++ atDepth r d := by
        rw [List.range_succ_eq_map, List.flatMap_cons, List.flatMap_map]
        rfl
      rw [hsplit, inorder_node]
      have hperm := List.flatMap_append_perm (List.range n) (atDepth l) (atDepth r)
      have hchildren := (hl (n := n) (by omega)).append (hr (n := n) (by omega))
      exact ((hperm.symm.trans hchildren).cons a).trans List.perm_middle.symm

theorem levelorder_perm (t : BinaryTree α) : (levelorder t).Perm (inorder t) :=
  flatMap_atDepth_perm t le_rfl

def mirror : BinaryTree α → BinaryTree α
  | .nil => .nil
  | .node a l r => .node a (mirror r) (mirror l)

theorem inorder_mirror (t : BinaryTree α) : inorder (mirror t) = (inorder t).reverse := by
  induction t with
  | nil => rfl
  | node a l r hl hr => simp [mirror, hl, hr]

theorem preorder_mirror (t : BinaryTree α) : preorder (mirror t) = (postorder t).reverse := by
  induction t with
  | nil => rfl
  | node a l r hl hr => simp [mirror, hl, hr]

/-- At every node the heights of the two subtrees differ by at most one. -/
def HeightBalanced : BinaryTree α → Prop
  | .nil => True
  | .node _ l r =>
      (l.height ≤ r.height + 1 ∧ r.height ≤ l.height + 1) ∧ HeightBalanced l ∧ HeightBalanced r

instance decidableHeightBalanced : (t : BinaryTree α) → Decidable (HeightBalanced t)
  | .nil => .isTrue trivial
  | .node _ l r =>
      have := decidableHeightBalanced l
      have := decidableHeightBalanced r
      inferInstanceAs (Decidable (_ ∧ _ ∧ _))

/-- A balanced tree has a number of nodes that is exponential in its height. -/
theorem HeightBalanced.two_pow_le {t : BinaryTree α} (h : HeightBalanced t) :
    2 ^ (t.height / 2) ≤ t.numNodes + 1 := by
  induction t with
  | nil => simp
  | node a l r hl hr =>
      obtain ⟨⟨hlr, hrl⟩, hbl, hbr⟩ := h
      have hl := hl hbl
      have hr := hr hbr
      rcases Nat.lt_or_ge (BinaryTree.node a l r).height 2 with hlow | hhigh
      · have hzero : (BinaryTree.node a l r).height / 2 = 0 := by omega
        rw [hzero]
        omega
      · -- Each subtree is at most two levels lower than the tree.
        simp only [BinaryTree.height] at hhigh ⊢
        have hhalf : (max l.height r.height + 1) / 2 = (max l.height r.height + 1 - 2) / 2 + 1 := by
          omega
        have hpl : 2 ^ ((max l.height r.height + 1 - 2) / 2) ≤ 2 ^ (l.height / 2) :=
          Nat.pow_le_pow_right (by omega) (Nat.div_le_div_right (by omega))
        have hpr : 2 ^ ((max l.height r.height + 1 - 2) / 2) ≤ 2 ^ (r.height / 2) :=
          Nat.pow_le_pow_right (by omega) (Nat.div_le_div_right (by omega))
        rw [hhalf, Nat.pow_succ, BinaryTree.numNodes]
        omega

end EmbeddedCode.LinkedTree
