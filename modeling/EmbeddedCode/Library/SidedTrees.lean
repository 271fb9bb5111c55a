import EmbeddedCode.Library.CInt
import EmbeddedCode.Library.LinkedTree
import Mathlib.Algebra.Group.Int.Defs
import Mathlib.Data.Int.Order.Basic

/-!
# Binary trees whose two sides are alike

What an algorithm does on one side of a tree it does on the other side with left and right
exchanged. A `Side` is a parameter here, `join d` builds a tree from the side `d` on and
`walk d` lists it from there. Cells have a link for each side and an `int` for the number of
nodes of their tree, which is that number as long as an `int` can hold it. A `Spine` is a row of
cells that hang below each other on one side, each with a tree on its other side, and `glue` is
the tree that it makes with a tree at its end.
-/
namespace EmbeddedCode.SidedTrees

open CInt LinkedTree

inductive Side where
  | left
  | right
  deriving DecidableEq, Repr

namespace Side

def other : Side → Side
  | .left => .right
  | .right => .left

@[simp] theorem other_other (d : Side) : d.other.other = d := by cases d <;> rfl

@[simp] theorem other_ne (d : Side) : d.other ≠ d := by cases d <;> decide

@[simp] theorem ne_other (d : Side) : d ≠ d.other := by cases d <;> decide

theorem eq_or_eq_other (d d' : Side) : d' = d ∨ d' = d.other := by
  cases d <;> cases d' <;> simp [other]

theorem sum_sides {β : Type*} [AddCommMagma β] (f : Side → β) (d : Side) :
    f .left + f .right = f d + f d.other := by
  cases d
  · rfl
  · exact add_comm _ _

end Side

variable {α : Type*}

/-- The tree with `x` on the side `d` of `a` and `y` on the other side. -/
def join (d : Side) (a : α) (x y : BinaryTree α) : BinaryTree α :=
  match d with
  | .left => .node a x y
  | .right => .node a y x

theorem join_other (d : Side) (a : α) (x y : BinaryTree α) : join d.other a x y = join d a y x := by
  cases d <;> rfl

/-- A list that is given from the left, read from the side `d`. -/
def facing (d : Side) (xs : List α) : List α :=
  match d with
  | .left => xs
  | .right => xs.reverse

theorem facing_other (d : Side) (xs : List α) : facing d.other xs = (facing d xs).reverse := by
  cases d <;> simp [facing, Side.other]

@[simp] theorem mem_facing {d : Side} {a : α} {xs : List α} : a ∈ facing d xs ↔ a ∈ xs := by
  cases d <;> simp [facing]

@[simp] theorem nodup_facing {d : Side} {xs : List α} : (facing d xs).Nodup ↔ xs.Nodup := by
  cases d <;> simp [facing]

@[simp] theorem length_facing (d : Side) (xs : List α) : (facing d xs).length = xs.length := by
  cases d <;> simp [facing]

/-- The nodes of a tree from the side `d` on. -/
def walk (d : Side) (t : BinaryTree α) : List α := facing d (inorder t)

@[simp] theorem walk_join (d : Side) (a : α) (x y : BinaryTree α) :
    walk d (join d a x y) = walk d x ++ a :: walk d y := by
  cases d <;> simp [walk, facing, join]

theorem walk_other (d : Side) (t : BinaryTree α) : walk d.other t = (walk d t).reverse :=
  facing_other d (inorder t)

@[simp] theorem mem_walk {d : Side} {a : α} {t : BinaryTree α} : a ∈ walk d t ↔ a ∈ inorder t :=
  mem_facing

theorem mem_inorder_join {d : Side} {a b : α} {x y : BinaryTree α} :
    b ∈ inorder (join d a x y) ↔ b ∈ inorder x ∨ b = a ∨ b ∈ inorder y := by
  rw [← mem_walk (d := d), walk_join]
  simp

theorem numNodes_join (d : Side) (a : α) (x y : BinaryTree α) :
    (join d a x y).numNodes = x.numNodes + y.numNodes + 1 := by
  cases d
  · rfl
  · simp [join, BinaryTree.numNodes, Nat.add_comm x.numNodes]

/-- A tree seen from the side `d`. -/
theorem nil_or_join (d : Side) (t : BinaryTree α) : t = .nil ∨ ∃ a x y, t = join d a x y := by
  cases t with
  | nil => exact .inl rfl
  | node a l r =>
      cases d
      · exact .inr ⟨a, l, r, rfl⟩
      · exact .inr ⟨a, r, l, rfl⟩

/-- The links of the cells, and the `int` that each has for the number of nodes below it. -/
structure Cells (α : Type*) where
  child : Side → α → Option α
  size : α → ℤ

namespace Cells

variable [DecidableEq α] (m : Cells α)

def setChild (d : Side) (a : α) (p : Option α) : Cells α :=
  {m with child := Function.update m.child d (Function.update (m.child d) a p)}

def setSize (a : α) (n : ℤ) : Cells α := {m with size := Function.update m.size a (wrap n)}

theorem setChild_child (d d' : Side) (a b : α) (p : Option α) :
    (m.setChild d a p).child d' b = if d' = d ∧ b = a then p else m.child d' b := by
  unfold setChild
  by_cases hd : d' = d
  · subst hd
    by_cases hb : b = a <;> simp [hb]
  · simp [hd]

theorem setChild_self (d : Side) (a : α) (p : Option α) : (m.setChild d a p).child d a = p := by
  rw [setChild_child, if_pos ⟨rfl, rfl⟩]

theorem setChild_of_side {d d' : Side} (h : d' ≠ d) (a b : α) (p : Option α) :
    (m.setChild d a p).child d' b = m.child d' b := by
  rw [setChild_child, if_neg fun hc => h hc.1]

theorem setChild_of_ne (d d' : Side) {a b : α} (h : b ≠ a) (p : Option α) :
    (m.setChild d a p).child d' b = m.child d' b := by
  rw [setChild_child, if_neg fun hc => h hc.2]

@[simp] theorem setChild_size (d : Side) (a : α) (p : Option α) :
    (m.setChild d a p).size = m.size := rfl

@[simp] theorem setSize_child (a : α) (n : ℤ) : (m.setSize a n).child = m.child := rfl

theorem setSize_size (a b : α) (n : ℤ) :
    (m.setSize a n).size b = if b = a then wrap n else m.size b := Function.update_apply _ _ _ _

end Cells

/-- The tree is stored from `p` on, with the number of nodes in every cell as far as an `int`
has it. -/
def Stored (m : Cells α) : Option α → BinaryTree α → Prop
  | p, .nil => p = none
  | p, .node a l r => p = some a ∧ m.size a = wrap (l.numNodes + r.numNodes + 1 : ℕ) ∧
      Stored m (m.child .left a) l ∧ Stored m (m.child .right a) r

theorem stored_nil {m : Cells α} {p : Option α} : Stored m p .nil ↔ p = none := Iff.rfl

theorem stored_join {m : Cells α} {p : Option α} {d : Side} {a : α} {x y : BinaryTree α} :
    Stored m p (join d a x y) ↔ p = some a ∧ m.size a = wrap (x.numNodes + y.numNodes + 1 : ℕ) ∧
      Stored m (m.child d a) x ∧ Stored m (m.child d.other a) y := by
  cases d
  · rfl
  · simp only [join, Stored, Side.other, Nat.add_comm y.numNodes, and_comm (a := Stored _ _ y)]

theorem Stored.nil {m : Cells α} {t : BinaryTree α} (h : Stored m none t) : t = .nil := by
  cases t with
  | nil => rfl
  | node a l r => cases h.1

/-- A stored tree that is not empty, seen from the side `d`. -/
theorem Stored.exists_join {m : Cells α} {a : α} {t : BinaryTree α} (d : Side)
    (h : Stored m (some a) t) : ∃ x y, t = join d a x y := by
  rcases nil_or_join d t with rfl | ⟨b, x, y, rfl⟩
  · cases h
  · cases (stored_join.mp h).1
    exact ⟨x, y, rfl⟩

/-- The size of a tree as `node_size` reads it. -/
def nodeSize (m : Cells α) : Option α → ℤ
  | none => 0
  | some a => m.size a

theorem Stored.nodeSize {m : Cells α} {p : Option α} {t : BinaryTree α} (h : Stored m p t) :
    nodeSize m p = wrap t.numNodes := by
  cases t with
  | nil =>
      rw [stored_nil.mp h]
      exact (wrap_fits (v := 0) (by decide)).symm
  | node a l r =>
      rw [h.1]
      exact h.2.1

/-- Two memories hold the same cell at `a`. -/
def Cells.Agree (m m' : Cells α) (a : α) : Prop :=
  (∀ d, m'.child d a = m.child d a) ∧ m'.size a = m.size a

theorem Cells.Agree.trans {m m' m'' : Cells α} {a : α} (h : m.Agree m' a) (h' : m'.Agree m'' a) :
    m.Agree m'' a := ⟨fun d => (h'.1 d).trans (h.1 d), h'.2.trans h.2⟩

theorem Cells.agree_setChild [DecidableEq α] (m : Cells α) (d : Side) {a b : α} (p : Option α)
    (h : b ≠ a) : m.Agree (m.setChild d a p) b := ⟨fun d' => m.setChild_of_ne d d' h p, rfl⟩

theorem Cells.agree_setSize [DecidableEq α] (m : Cells α) {a b : α} (n : ℤ) (h : b ≠ a) :
    m.Agree (m.setSize a n) b := ⟨fun _ => rfl, by rw [m.setSize_size, if_neg h]⟩

theorem Stored.congr {m m' : Cells α} {p : Option α} {t : BinaryTree α} (h : Stored m p t)
    (hm : ∀ a ∈ inorder t, m.Agree m' a) : Stored m' p t := by
  induction t generalizing p with
  | nil => exact h
  | node a l r hl hr =>
      obtain ⟨hp, hsize, h₁, h₂⟩ := h
      obtain ⟨hchild, hsize'⟩ := hm a (by simp)
      refine ⟨hp, hsize' ▸ hsize, ?_, ?_⟩
      · rw [hchild]
        exact hl h₁ fun b hb => hm b (by simp [hb])
      · rw [hchild]
        exact hr h₂ fun b hb => hm b (by simp [hb])

theorem Stored.setSize [DecidableEq α] {m : Cells α} {a : α} {t : BinaryTree α}
    (h : Stored m (some a) t) : Stored (m.setSize a t.numNodes) (some a) t := by
  apply h.congr
  intro b _
  refine ⟨fun _ => rfl, (m.setSize_size _ _ _).trans ?_⟩
  split_ifs with heq
  · rw [heq]
    exact h.nodeSize.symm
  · rfl

/-- The cells of a spine from the anchor on, each with the tree on its other side. -/
abbrev Row (α : Type*) := List (α × BinaryTree α)

namespace Row

/-- The tree that a spine makes with `z` below its last cell. -/
def glue (d : Side) : Row α → BinaryTree α → BinaryTree α
  | [], z => z
  | (a, t) :: row, z => join d a (glue d row z) t

/-- The nodes from the end of the spine back to its anchor. -/
def walkBack (d : Side) : Row α → List α
  | [] => []
  | (a, t) :: row => walkBack d row ++ a :: walk d t

def numNodes : Row α → ℕ
  | [] => 0
  | (_, t) :: row => 1 + t.numNodes + numNodes row

/-- The cells of the spine itself. -/
def tops (row : Row α) : List α := row.map Prod.fst

@[simp] theorem tops_nil : tops ([] : Row α) = [] := rfl
@[simp] theorem tops_cons (b : α × BinaryTree α) (row : Row α) :
    tops (b :: row) = b.1 :: tops row := rfl

theorem walkBack_concat (d : Side) (row : Row α) (a : α) (t : BinaryTree α) :
    walkBack d (row ++ [(a, t)]) = a :: walk d t ++ walkBack d row := by
  induction row with
  | nil => simp [walkBack]
  | cons b row ih => simp [walkBack, ih]

theorem numNodes_concat (row : Row α) (a : α) (t : BinaryTree α) :
    numNodes (row ++ [(a, t)]) = numNodes row + (1 + t.numNodes) := by
  induction row with
  | nil => simp [numNodes]
  | cons b row ih =>
      simp only [numNodes, List.cons_append, ih]
      omega

theorem length_walk (d : Side) (t : BinaryTree α) : (walk d t).length = t.numNodes :=
  (length_facing d _).trans (length_inorder t)

theorem length_walkBack (d : Side) (row : Row α) : (walkBack d row).length = numNodes row := by
  induction row with
  | nil => rfl
  | cons b row ih =>
      rw [walkBack, List.length_append, ih, List.length_cons, length_walk, numNodes]
      omega

theorem mem_walkBack {d : Side} {a : α} {row : Row α} :
    a ∈ walkBack d row ↔ a ∈ tops row ∨ ∃ b ∈ row, a ∈ inorder b.2 := by
  induction row with
  | nil => simp [walkBack]
  | cons b row ih =>
      simp only [walkBack, List.mem_append, ih, List.mem_cons, mem_walk, tops_cons,
        exists_eq_or_imp]
      constructor
      · rintro ((h | h) | h | h) <;> simp [h]
      · rintro ((h | h) | h | h) <;> simp [h]

theorem walk_glue (d : Side) (row : Row α) (z : BinaryTree α) :
    walk d (glue d row z) = walk d z ++ walkBack d row := by
  induction row with
  | nil => simp [glue, walkBack]
  | cons b row ih => simp [glue, walkBack, ih]

theorem numNodes_glue (d : Side) (row : Row α) (z : BinaryTree α) :
    (glue d row z).numNodes = z.numNodes + numNodes row := by
  induction row with
  | nil => rfl
  | cons b row ih =>
      rw [glue, numNodes_join, ih, numNodes]
      omega

end Row

open Row

/-- From the anchor `src` the links of the side `d` lead along the row to the cell `e`. -/
def Spine (m : Cells α) (d : Side) : α → Row α → α → Prop
  | src, [], e => e = src
  | src, (a, t) :: row, e =>
      m.child d src = some a ∧ Stored m (m.child d.other a) t ∧ Spine m d a row e

variable {m m' : Cells α} {d : Side} {src e a : α} {t z : BinaryTree α} {row : Row α} {p : Option α}

theorem Spine.concat (h : Spine m d src row e) (ha : m.child d e = some a)
    (ht : Stored m (m.child d.other a) t) : Spine m d src (row ++ [(a, t)]) a := by
  induction row generalizing src with
  | nil =>
      cases h
      exact ⟨ha, ht, rfl⟩
  | cons b row ih => exact ⟨h.1, h.2.1, ih h.2.2⟩

theorem Spine.last_mem (h : Spine m d src row e) : e = src ∨ e ∈ tops row := by
  induction row generalizing src with
  | nil => exact .inl h
  | cons b row ih =>
      rcases ih h.2.2 with rfl | hmem
      · exact .inr (by simp)
      · exact .inr (by simp [hmem])

theorem Spine.setChild [DecidableEq α] (h : Spine m d src row e) (hnodup : (walkBack d row).Nodup)
    (hsrc : src ∉ walkBack d row) (p : Option α) : Spine (m.setChild d e p) d src row e := by
  induction row generalizing src with
  | nil => exact h
  | cons b row ih =>
      obtain ⟨hchild, hstored, hrest⟩ := h
      simp only [walkBack, List.nodup_append', List.nodup_cons, List.Disjoint, List.mem_append,
        List.mem_cons, mem_walk, not_or] at hnodup hsrc
      obtain ⟨hrow, ⟨hb, -⟩, hdisj⟩ := hnodup
      have hlast : e = b.1 ∨ e ∈ walkBack d row :=
        hrest.last_mem.imp id fun hmem => mem_walkBack.mpr (.inl hmem)
      have hsrce : src ≠ e := by
        rintro rfl
        exact hlast.elim hsrc.2.1 hsrc.1
      refine ⟨?_, ?_, ih hrest hrow fun hmem => hdisj hmem (.inl rfl)⟩
      · rw [m.setChild_of_ne d d hsrce, hchild]
      · rw [m.setChild_of_side (Side.other_ne d)]
        apply hstored.congr
        intro a ha
        apply m.agree_setChild
        rintro rfl
        exact hlast.elim (fun heq => hb (heq ▸ ha)) fun hmem => hdisj hmem (.inr ha)

/-- A spine does not depend on the sizes of its own cells. -/
theorem Spine.of_agree (h : Spine m d src row e) (hnodup : (walkBack d row).Nodup)
    (hsrc : m'.child d src = m.child d src)
    (hchild : ∀ a ∈ walkBack d row, ∀ d', m'.child d' a = m.child d' a)
    (hsize : ∀ a ∈ walkBack d row, a ∉ tops row → m'.size a = m.size a) :
    Spine m' d src row e := by
  induction row generalizing src with
  | nil => exact h
  | cons b row ih =>
      obtain ⟨hfirst, hstored, hrest⟩ := h
      simp only [walkBack, List.nodup_append', List.nodup_cons, List.Disjoint, List.mem_append,
        List.mem_cons, mem_walk, tops_cons, not_or] at hnodup hchild hsize
      obtain ⟨hrow, ⟨hb, -⟩, hdisj⟩ := hnodup
      refine ⟨hsrc.trans hfirst, ?_, ?_⟩
      · rw [hchild b.1 (.inr (.inl rfl))]
        apply hstored.congr
        intro a ha
        refine ⟨hchild a (.inr (.inr ha)), hsize a (.inr (.inr ha)) ⟨?_, ?_⟩⟩
        · exact fun heq => hb (heq ▸ ha)
        · exact fun hmem => hdisj (mem_walkBack.mpr (.inl hmem)) (.inr ha)
      · exact ih hrest hrow (hchild b.1 (.inr (.inl rfl)) d) (fun a ha => hchild a (.inl ha))
          fun a ha htop => hsize a (.inl ha) ⟨fun heq => hdisj ha (.inl heq), htop⟩

/-- The sizes along a spine with a tree of `n` nodes at its end. -/
def SpineSized (m : Cells α) (n : ℕ) : Row α → Prop
  | [] => True
  | (a, t) :: row => m.size a = wrap (1 + t.numNodes + numNodes row + n : ℕ) ∧ SpineSized m n row

theorem SpineSized.congr {n : ℕ} (h : SpineSized m n row)
    (hm : ∀ a ∈ tops row, m'.size a = m.size a) : SpineSized m' n row := by
  induction row with
  | nil => trivial
  | cons b row ih =>
      exact ⟨(hm b.1 (by simp)).trans h.1, ih h.2 fun a ha => hm a (by simp [ha])⟩

/-- A spine becomes a tree with the tree that is hung to its end. -/
theorem Spine.stored (h : Spine m d src row e) (hsized : SpineSized m z.numNodes row)
    (hz : Stored m (m.child d e) z) : Stored m (m.child d src) (glue d row z) := by
  induction row generalizing src with
  | nil =>
      cases h
      exact hz
  | cons b row ih =>
      obtain ⟨hchild, hstored, hrest⟩ := h
      rw [glue, stored_join]
      refine ⟨hchild, ?_, ih hrest hsized.2, hstored⟩
      rw [hsized.1, numNodes_glue]
      congr 1
      omega

end EmbeddedCode.SidedTrees
