import EmbeddedCode.Library.Loop
import Mathlib.Data.List.Nodup
import Mathlib.Data.Tree.Basic
import Mathlib.Logic.Function.Basic
import Mathlib.Tactic.Tauto

/-!
# Binary trees stored as linked cells

A cell carries three pointers: to its parent and to its two children. `Rep` says
that a pointer is the root of a stored copy of a `BinaryTree`, with every parent
pointer in place. A `Path` is the part of a tree around one subtree; `RepPath`
says that it is stored, and `rep_plug` splits a stored tree at any subtree.
A change of the memory is then one change below a path and one at its hole.
-/
namespace EmbeddedCode.LinkedTree

open Loop

variable {α : Type*}

structure Links (α : Type*) where
  parent : α → Option α
  lchild : α → Option α
  rchild : α → Option α

namespace Links

variable [DecidableEq α] (m : Links α)

def setParent (a : α) (p : Option α) : Links α := {m with parent := Function.update m.parent a p}
def setLchild (a : α) (p : Option α) : Links α := {m with lchild := Function.update m.lchild a p}
def setRchild (a : α) (p : Option α) : Links α := {m with rchild := Function.update m.rchild a p}

@[simp] theorem setParent_parent (a b : α) (p : Option α) :
    (m.setParent a p).parent b = if b = a then p else m.parent b := Function.update_apply _ _ _ _
@[simp] theorem setParent_lchild (a : α) (p : Option α) : (m.setParent a p).lchild = m.lchild := rfl
@[simp] theorem setParent_rchild (a : α) (p : Option α) : (m.setParent a p).rchild = m.rchild := rfl
@[simp] theorem setLchild_lchild (a b : α) (p : Option α) :
    (m.setLchild a p).lchild b = if b = a then p else m.lchild b := Function.update_apply _ _ _ _
@[simp] theorem setLchild_parent (a : α) (p : Option α) : (m.setLchild a p).parent = m.parent := rfl
@[simp] theorem setLchild_rchild (a : α) (p : Option α) : (m.setLchild a p).rchild = m.rchild := rfl
@[simp] theorem setRchild_rchild (a b : α) (p : Option α) :
    (m.setRchild a p).rchild b = if b = a then p else m.rchild b := Function.update_apply _ _ _ _
@[simp] theorem setRchild_parent (a : α) (p : Option α) : (m.setRchild a p).parent = m.parent := rfl
@[simp] theorem setRchild_lchild (a : α) (p : Option α) : (m.setRchild a p).lchild = m.lchild := rfl

/-- Two memories hold the same cell at `a`. -/
def Agree (m m' : Links α) (a : α) : Prop :=
  m'.parent a = m.parent a ∧ m'.lchild a = m.lchild a ∧ m'.rchild a = m.rchild a

omit [DecidableEq α] in
theorem Agree.trans {m m' m'' : Links α} {a : α} (h : m.Agree m' a) (h' : m'.Agree m'' a) :
    m.Agree m'' a :=
  ⟨h'.1.trans h.1, h'.2.1.trans h.2.1, h'.2.2.trans h.2.2⟩

end Links

def inorder : BinaryTree α → List α
  | .nil => []
  | .node a l r => inorder l ++ a :: inorder r

@[simp] theorem inorder_nil : inorder (.nil : BinaryTree α) = [] := rfl
@[simp] theorem inorder_node (a : α) (l r : BinaryTree α) :
    inorder (.node a l r) = inorder l ++ a :: inorder r := rfl

theorem length_inorder (t : BinaryTree α) : (inorder t).length = t.numNodes := by
  induction t with
  | nil => rfl
  | node a l r hl hr =>
      simp only [inorder_node, List.length_append, List.length_cons, hl, hr, BinaryTree.numNodes]
      omega

/-- The pointer `p` is the root of a stored copy of the tree, and the root's own
parent pointer is `q`. -/
def Rep (m : Links α) : Option α → Option α → BinaryTree α → Prop
  | _, p, .nil => p = none
  | q, p, .node a l r => p = some a ∧ m.parent a = q ∧
      Rep m (some a) (m.lchild a) l ∧ Rep m (some a) (m.rchild a) r

@[simp] theorem rep_nil {m : Links α} {q p : Option α} : Rep m q p .nil ↔ p = none := Iff.rfl

@[simp] theorem rep_node {m : Links α} {q p : Option α} {a : α} {l r : BinaryTree α} :
    Rep m q p (.node a l r) ↔ p = some a ∧ m.parent a = q ∧
      Rep m (some a) (m.lchild a) l ∧ Rep m (some a) (m.rchild a) r := Iff.rfl

theorem rep_none {m : Links α} {q : Option α} {t : BinaryTree α} (h : Rep m q none t) :
    t = .nil := by
  cases t with
  | nil => rfl
  | node a l r => cases h.1

theorem rep_some {m : Links α} {q : Option α} {a : α} {t : BinaryTree α} (h : Rep m q (some a) t) :
    ∃ l r, t = .node a l r := by
  cases t with
  | nil => cases h
  | node b l r =>
      cases h.1
      exact ⟨l, r, rfl⟩

theorem Rep.root_mem {m : Links α} {q : Option α} {a : α} {t : BinaryTree α}
    (h : Rep m q (some a) t) : a ∈ inorder t := by
  obtain ⟨l, r, rfl⟩ := rep_some h
  simp

theorem Rep.root_ne {m : Links α} {q p : Option α} {a : α} {t : BinaryTree α} (h : Rep m q p t)
    (ha : a ∉ inorder t) : p ≠ some a := by
  rintro rfl
  exact ha h.root_mem

/-- Frame rule: a stored tree survives every change outside its own cells. -/
theorem Rep.congr {m m' : Links α} {q p : Option α} {t : BinaryTree α} (h : Rep m q p t)
    (hm : ∀ a ∈ inorder t, m.Agree m' a) : Rep m' q p t := by
  induction t generalizing q p with
  | nil => exact h
  | node a l r hl hr =>
      obtain ⟨hp, hq, h₁, h₂⟩ := h
      obtain ⟨ha, hal, har⟩ := hm a (by simp)
      refine ⟨hp, by rw [ha, hq], ?_, ?_⟩
      · rw [hal]
        exact hl h₁ (fun b hb => hm b (by simp [hb]))
      · rw [har]
        exact hr h₂ (fun b hb => hm b (by simp [hb]))

/-- The child pointers from `p` on have the shape of the tree. The parent pointers may hold
anything. -/
def Shaped (m : Links α) : Option α → BinaryTree α → Prop
  | p, .nil => p = none
  | p, .node a l r => p = some a ∧ Shaped m (m.lchild a) l ∧ Shaped m (m.rchild a) r

theorem Rep.shaped {m : Links α} {q p : Option α} {t : BinaryTree α} (h : Rep m q p t) :
    Shaped m p t := by
  induction t generalizing q p with
  | nil => exact h
  | node a l r hl hr => exact ⟨h.1, hl h.2.2.1, hr h.2.2.2⟩

theorem shaped_none {m : Links α} {t : BinaryTree α} (h : Shaped m none t) : t = .nil := by
  cases t with
  | nil => rfl
  | node a l r => cases h.1

theorem shaped_some {m : Links α} {a : α} {t : BinaryTree α} (h : Shaped m (some a) t) :
    ∃ l r, t = .node a l r ∧ Shaped m (m.lchild a) l ∧ Shaped m (m.rchild a) r := by
  cases t with
  | nil => cases h
  | node b l r =>
      cases h.1
      exact ⟨l, r, rfl, h.2⟩

/-- A shape depends on the child pointers of its own nodes. -/
theorem Shaped.congr {m m' : Links α} {p : Option α} {t : BinaryTree α} (h : Shaped m p t)
    (hm : ∀ a ∈ inorder t, m'.lchild a = m.lchild a ∧ m'.rchild a = m.rchild a) :
    Shaped m' p t := by
  induction t generalizing p with
  | nil => exact h
  | node a l r hl hr =>
      obtain ⟨hp, h₁, h₂⟩ := h
      obtain ⟨hal, har⟩ := hm a (by simp)
      refine ⟨hp, ?_, ?_⟩
      · rw [hal]
        exact hl h₁ fun b hb => hm b (by simp [hb])
      · rw [har]
        exact hr h₂ fun b hb => hm b (by simp [hb])

theorem Shaped.root_mem {m : Links α} {a : α} {t : BinaryTree α} (h : Shaped m (some a) t) :
    a ∈ inorder t := by
  obtain ⟨l, r, rfl, _⟩ := shaped_some h
  simp

/-- A recursion that goes into both children returns on every tree. `P` is what it asks of the
tree, and has to hold of the subtrees as well. -/
theorem Shaped.returns {β : Type*} {m : Links α} {f : ℕ → Option α → Option β}
    {g : BinaryTree α → β} {P : BinaryTree α → Prop}
    (hsub : ∀ a l r, P (.node a l r) → P l ∧ P r)
    (hnil : ∀ fuel, f fuel none = some (g .nil))
    (hnode : ∀ fuel a l r, P (.node a l r) → f fuel (m.lchild a) = some (g l) →
      f fuel (m.rchild a) = some (g r) → f (fuel + 1) (some a) = some (g (.node a l r)))
    {p : Option α} {t : BinaryTree α} (h : Shaped m p t) (hP : P t) :
    Returns (fun fuel => f fuel p) (g t) := by
  refine ⟨t.numNodes, fun fuel hf => ?_⟩
  induction t generalizing p fuel with
  | nil =>
      rw [show p = none from h]
      exact hnil fuel
  | node a l r hl hr =>
      simp only [BinaryTree.numNodes] at hf
      obtain ⟨fuel, rfl⟩ : ∃ n, fuel = n + 1 := ⟨fuel - 1, by omega⟩
      obtain ⟨rfl, h₁, h₂⟩ := h
      obtain ⟨hPl, hPr⟩ := hsub a l r hP
      exact hnode fuel a l r hP (hl h₁ hPl fuel (by omega)) (hr h₂ hPr fuel (by omega))

/-- Along a stored tree every child points back to its parent. -/
theorem Rep.child_parent {m : Links α} {q p : Option α} {t : BinaryTree α} (h : Rep m q p t)
    {a c : α} (ha : a ∈ inorder t) (hc : m.lchild a = some c ∨ m.rchild a = some c) :
    c ∈ inorder t ∧ m.parent c = some a := by
  induction t generalizing q p with
  | nil => simp at ha
  | node b l r hl hr =>
      obtain ⟨_, _, h₁, h₂⟩ := h
      rcases List.mem_append.mp ha with ha | ha
      · have := hl h₁ ha
        exact ⟨by simp [this.1], this.2⟩
      · rcases List.mem_cons.mp ha with rfl | ha
        · rcases hc with hc | hc
          · rw [hc] at h₁
            obtain ⟨l₁, l₂, rfl⟩ := rep_some h₁
            exact ⟨by simp, h₁.2.1⟩
          · rw [hc] at h₂
            obtain ⟨r₁, r₂, rfl⟩ := rep_some h₂
            exact ⟨by simp, h₂.2.1⟩
        · have := hr h₂ ha
          exact ⟨by simp [this.1], this.2⟩

/-- One step of the way from the root down to a subtree: the node passed, and its
other subtree. -/
inductive Crumb (α : Type*) where
  | left (a : α) (r : BinaryTree α)
  | right (l : BinaryTree α) (a : α)

/-- The way from a subtree up to the root, innermost step first. -/
abbrev Path (α : Type*) := List (Crumb α)

namespace Path

def plug : Path α → BinaryTree α → BinaryTree α
  | [], t => t
  | .left a r :: c, t => plug c (.node a t r)
  | .right l a :: c, t => plug c (.node a l t)

/-- The nodes around the hole, which an in-order walk meets before and after it. -/
def before : Path α → List α
  | [] => []
  | .left _ _ :: c => before c
  | .right l a :: c => before c ++ (inorder l ++ [a])

def after : Path α → List α
  | [] => []
  | .left a r :: c => a :: (inorder r ++ after c)
  | .right _ _ :: c => after c

@[simp] theorem before_nil : before ([] : Path α) = [] := rfl
@[simp] theorem before_left (a : α) (r : BinaryTree α) (c : Path α) :
    before (.left a r :: c) = before c := rfl
@[simp] theorem before_right (l : BinaryTree α) (a : α) (c : Path α) :
    before (.right l a :: c) = before c ++ (inorder l ++ [a]) := rfl
@[simp] theorem after_nil : after ([] : Path α) = [] := rfl
@[simp] theorem after_left (a : α) (r : BinaryTree α) (c : Path α) :
    after (.left a r :: c) = a :: (inorder r ++ after c) := rfl
@[simp] theorem after_right (l : BinaryTree α) (a : α) (c : Path α) :
    after (.right l a :: c) = after c := rfl

theorem after_append (d c : Path α) : after (d ++ c) = after d ++ after c := by
  induction d with
  | nil => simp
  | cons x d ih => cases x <;> simp [ih]

theorem plug_append (d c : Path α) (t : BinaryTree α) : plug (d ++ c) t = plug c (plug d t) := by
  induction d generalizing t with
  | nil => rfl
  | cons x d ih => cases x <;> exact ih _

theorem inorder_plug (c : Path α) (t : BinaryTree α) :
    inorder (plug c t) = before c ++ (inorder t ++ after c) := by
  induction c generalizing t with
  | nil => simp [plug]
  | cons x c ih => cases x <;> simp [plug, ih]

end Path

open EmbeddedCode.LinkedTree.Path

/-- The nodes of a path are stored, its hole hangs below `q`, and the link into the
hole holds `p`. -/
def RepPath (m : Links α) (root : Option α) : Path α → Option α → Option α → Prop
  | [], q, p => q = none ∧ root = p
  | .left a r :: c, q, p => q = some a ∧ m.lchild a = p ∧ Rep m (some a) (m.rchild a) r ∧
      RepPath m root c (m.parent a) (some a)
  | .right l a :: c, q, p => q = some a ∧ m.rchild a = p ∧ Rep m (some a) (m.lchild a) l ∧
      RepPath m root c (m.parent a) (some a)

theorem RepPath.congr {m m' : Links α} {root : Option α} {c : Path α} {q p : Option α}
    (h : RepPath m root c q p) (hm : ∀ a, a ∈ before c ∨ a ∈ after c → m.Agree m' a) :
    RepPath m' root c q p := by
  induction c generalizing q p with
  | nil => exact h
  | cons x c ih =>
      cases x with
      | left a r =>
          obtain ⟨hq, hp, hr, hc⟩ := h
          obtain ⟨ha, hal, har⟩ := hm a (by simp)
          refine ⟨hq, by rw [hal, hp], ?_, ?_⟩
          · rw [har]
            exact hr.congr (fun b hb => hm b (by simp [hb]))
          · rw [ha]
            refine ih hc (fun b hb => hm b ?_)
            simp only [before_left, after_left, List.mem_cons, List.mem_append]
            tauto
      | right l a =>
          obtain ⟨hq, hp, hl, hc⟩ := h
          obtain ⟨ha, hal, har⟩ := hm a (by simp)
          refine ⟨hq, by rw [har, hp], ?_, ?_⟩
          · rw [hal]
            exact hl.congr (fun b hb => hm b (by simp [hb]))
          · rw [ha]
            refine ih hc (fun b hb => hm b ?_)
            simp only [before_right, after_right, List.mem_append]
            tauto

/-- A stored tree splits at every subtree into a stored path and a stored subtree. -/
theorem rep_plug {m : Links α} {root : Option α} {c : Path α} {t : BinaryTree α} :
    Rep m none root (plug c t) ↔ ∃ q p, RepPath m root c q p ∧ Rep m q p t := by
  induction c generalizing t with
  | nil =>
      constructor
      · exact fun h => ⟨none, root, ⟨rfl, rfl⟩, h⟩
      · rintro ⟨q, p, ⟨rfl, rfl⟩, h⟩
        exact h
  | cons x c ih =>
      cases x with
      | left a r =>
          rw [plug, ih]
          constructor
          · rintro ⟨q, p, hc, rfl, rfl, hl, hr⟩
            exact ⟨some a, m.lchild a, ⟨rfl, rfl, hr, hc⟩, hl⟩
          · rintro ⟨q, p, ⟨rfl, rfl, hr, hc⟩, hl⟩
            exact ⟨_, _, hc, rfl, rfl, hl, hr⟩
      | right l a =>
          rw [plug, ih]
          constructor
          · rintro ⟨q, p, hc, rfl, rfl, hl, hr⟩
            exact ⟨some a, m.rchild a, ⟨rfl, rfl, hl, hc⟩, hr⟩
          · rintro ⟨q, p, ⟨rfl, rfl, hl, hc⟩, hr⟩
            exact ⟨_, _, hc, rfl, rfl, hl, hr⟩

/-- Every node of a tree is the root of the subtree at the end of some path. -/
theorem exists_path {a : α} {t : BinaryTree α} (h : a ∈ inorder t) :
    ∃ (c : Path α) (l r : BinaryTree α), t = plug c (.node a l r) := by
  suffices H : ∀ (c : Path α), ∃ (d : Path α) (l r : BinaryTree α),
      plug c t = plug d (.node a l r) from H []
  induction t with
  | nil => simp at h
  | node b l r hl hr =>
      intro c
      rcases List.mem_append.mp h with h | h
      · exact hl h (.left b r :: c)
      · rcases List.mem_cons.mp h with rfl | h
        · exact ⟨c, l, r, rfl⟩
        · exact hr h (.right l b :: c)

section Fill
variable [DecidableEq α]

/-- The root of a stored tree may be given another parent. -/
theorem Rep.reparent {m : Links α} {q : Option α} {a : α} {t : BinaryTree α}
    (h : Rep m q (some a) t) (hn : (inorder t).Nodup) (q' : Option α) :
    Rep (m.setParent a q') q' (some a) t := by
  obtain ⟨l, r, rfl⟩ := rep_some h
  obtain ⟨_, _, hl, hr⟩ := h
  have keep : ∀ b, b ≠ a → m.Agree (m.setParent a q') b := fun b hb => ⟨by simp [hb], rfl, rfl⟩
  simp only [inorder_node, List.nodup_append, List.nodup_cons] at hn
  refine ⟨rfl, by simp, hl.congr fun b hb => keep b ?_, hr.congr fun b hb => keep b ?_⟩
  · rintro rfl
    exact hn.2.2 b hb b (by simp) rfl
  · rintro rfl
    exact hn.2.1.1 hb

/-- Let the link into the hole of a path hold `p`. -/
def fillHole (m : Links α) (root : Option α) : Path α → Option α → Links α × Option α
  | [], p => (m, p)
  | .left a _ :: _, p => (m.setLchild a p, root)
  | .right _ a :: _, p => (m.setRchild a p, root)

theorem fillHole_agree (m : Links α) (root : Option α) (c : Path α) (p : Option α) {a : α}
    (ha : a ∉ before c ++ after c) : m.Agree (fillHole m root c p).1 a := by
  cases c with
  | nil => exact ⟨rfl, rfl, rfl⟩
  | cons x c =>
      cases x with
      | left b r =>
          have : a ≠ b := by rintro rfl; simp at ha
          exact ⟨rfl, by simp [fillHole, this], rfl⟩
      | right l b =>
          have : a ≠ b := by rintro rfl; simp at ha
          exact ⟨rfl, rfl, by simp [fillHole, this]⟩

theorem RepPath.fill {m : Links α} {root : Option α} {c : Path α} {q p : Option α}
    (h : RepPath m root c q p) (hn : (before c ++ after c).Nodup) (p' : Option α) :
    RepPath (fillHole m root c p').1 (fillHole m root c p').2 c q p' := by
  cases c with
  | nil => exact ⟨h.1, rfl⟩
  | cons x c =>
      cases x with
      | left a r =>
          obtain ⟨hq, _, hr, hc⟩ := h
          have keep : ∀ b, b ≠ a → m.Agree (m.setLchild a p') b := fun b hb =>
            ⟨rfl, by simp [hb], rfl⟩
          simp only [before_left, after_left, List.nodup_append, List.nodup_cons] at hn
          refine ⟨hq, by simp [fillHole], hr.congr fun b hb => keep b ?_,
            hc.congr fun b hb => keep b ?_⟩
          · rintro rfl
            simp [hb] at hn
          · rintro rfl
            rcases hb with hb | hb
            · exact hn.2.2 b hb b (by simp) rfl
            · simp [hb] at hn
      | right l a =>
          obtain ⟨hq, _, hl, hc⟩ := h
          have keep : ∀ b, b ≠ a → m.Agree (m.setRchild a p') b := fun b hb =>
            ⟨rfl, rfl, by simp [hb]⟩
          simp only [before_right, after_right, List.nodup_append, List.nodup_singleton] at hn
          refine ⟨hq, by simp [fillHole], hl.congr fun b hb => keep b ?_,
            hc.congr fun b hb => keep b ?_⟩
          · rintro rfl
            exact hn.1.2.1.2.2 b hb b (by simp) rfl
          · rintro rfl
            rcases hb with hb | hb
            · exact hn.1.2.2 b hb b (by simp) rfl
            · exact hn.2.2 b (by simp) b hb rfl

end Fill

end EmbeddedCode.LinkedTree
