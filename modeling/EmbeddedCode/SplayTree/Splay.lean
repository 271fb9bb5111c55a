import EmbeddedCode.SplayTree.Model

/-!
# What a splay does

The nodes of the tree keep their order from left to right, and the node that comes to the root
is that of the key, or the key is between it and the nodes on one side of it.
-/
namespace EmbeddedCode.SplayTree

open CInt LinkedTree Loop SidedTrees SidedTrees.Row

variable {α : Type}

/-- The key `i` belongs on the side `d` of the key `x`. -/
def Towards (d : Side) (i x : ℤ) : Prop :=
  match d with
  | .left => i < x
  | .right => x < i

theorem Towards.trans {d : Side} {i x y : ℤ} (h : Towards d i x) (h' : Towards d x y) :
    Towards d i y := by
  cases d
  · exact lt_trans h h'
  · exact lt_trans h' h

/-- Keys that are not negative, as those of all users of the tree. -/
def Key (k : ℤ) : Prop := 0 ≤ k ∧ k ≤ intMax

theorem compare_eq {i x : ℤ} (hi : Key i) (hx : Key x) : compare i x = i - x := by
  apply wrap_fits
  obtain ⟨_, _⟩ := hi
  obtain ⟨_, _⟩ := hx
  unfold Fits intMin intMax at *
  omega

theorem sideOf_compare {i x : ℤ} (hi : Key i) (hx : Key x) (d : Side) :
    sideOf (compare i x) = some d ↔ Towards d i x := by
  rw [compare_eq hi hx]
  unfold sideOf
  cases d <;> simp only [Towards] <;> split_ifs <;> simp <;> omega

theorem sideOf_compare_none {i x : ℤ} (hi : Key i) (hx : Key x) :
    sideOf (compare i x) = none ↔ i = x := by
  rw [compare_eq hi hx]
  unfold sideOf
  split_ifs <;> simp <;> omega

def Sorted (key : α → ℤ) (xs : List α) : Prop := xs.Pairwise fun a b => key a < key b

theorem Sorted.facing {key : α → ℤ} {xs : List α} (h : Sorted key xs) (d : Side) :
    (facing d xs).Pairwise fun a b => Towards d (key a) (key b) := by
  cases d
  · exact h
  · exact List.pairwise_reverse.mpr h

/-- The tree in the middle, seen from the side `d`. -/
def middle (d : Side) (t : α) (x : Side → BinaryTree α) : BinaryTree α :=
  join d t (x d) (x d.other)

/-- The invariant of the loop: the tree in the middle and the two that are built around it hold
the nodes of the tree in their order. -/
structure Inv (start : Cells α) (key : α → ℤ) (i : ℤ) (N : α) (xs : List α) (s : Splaying α)
    (row : Side → Row α) (x : Side → BinaryTree α) : Prop where
  child : ∀ d, Stored s.cells (s.cells.child d s.t) (x d)
  spine : ∀ d, Spine s.cells d N (row d) (s.tail d)
  acc : ∀ d, s.acc d = wrap (Row.numNodes (row d) : ℕ)
  order : ∀ d, facing d xs =
    (walkBack d.other (row d.other)).reverse ++ walk d (middle d s.t x) ++ walkBack d (row d)
  beyond : ∀ d, ∀ a ∈ walkBack d (row d), Towards d i (key a)
  frame : ∀ a ∉ xs, a ≠ N → start.Agree s.cells a

/-- The order from one side is the order from the other. -/
theorem order_other {d : Side} {xs : List α} {t : α} {row : Side → Row α}
    {x : Side → BinaryTree α}
    (h : facing d xs =
      (walkBack d.other (row d.other)).reverse ++ walk d (middle d t x) ++ walkBack d (row d)) :
    facing d.other xs = (walkBack d.other.other (row d.other.other)).reverse ++
      walk d.other (middle d.other t x) ++ walkBack d.other (row d.other) := by
  have hmiddle : middle d.other t x = middle d t x := by
    simp only [middle, Side.other_other, join_other]
  rw [facing_other, h, hmiddle, walk_other, Side.other_other]
  simp

theorem order_of {d : Side} {xs : List α} {t : α} {row : Side → Row α} {x : Side → BinaryTree α}
    (h : facing d xs =
      (walkBack d.other (row d.other)).reverse ++ walk d (middle d t x) ++ walkBack d (row d))
    (d' : Side) : facing d' xs =
      (walkBack d'.other (row d'.other)).reverse ++ walk d' (middle d' t x) ++
        walkBack d' (row d') := by
  rcases d.eq_or_eq_other d' with rfl | rfl
  · exact h
  · exact order_other h

/-- No node is in two of the parts, and `N` is in none. -/
structure Apart (N t : α) (row : Side → Row α) (x : Side → BinaryTree α) : Prop where
  root_tree : ∀ d, t ∉ inorder (x d)
  root_row : ∀ d, t ∉ walkBack d (row d)
  tree_tree : ∀ d, ∀ a ∈ inorder (x d), a ∉ inorder (x d.other)
  tree_row : ∀ d e, ∀ a ∈ inorder (x d), a ∉ walkBack e (row e)
  row_row : ∀ d, ∀ a ∈ walkBack d (row d), a ∉ walkBack d.other (row d.other)
  stack_tree : ∀ d, N ∉ inorder (x d)
  stack_row : ∀ d, N ∉ walkBack d (row d)
  stack_root : N ≠ t
  nodup_tree : ∀ d, (inorder (x d)).Nodup
  nodup_row : ∀ d, (walkBack d (row d)).Nodup

section
variable {start : Cells α} {key : α → ℤ} {i : ℤ} {N : α} {xs : List α} {s : Splaying α}
  {row : Side → Row α} {x : Side → BinaryTree α}

theorem Inv.apart (h : Inv start key i N xs s row x) (hxs : xs.Nodup) (hN : N ∉ xs) :
    Apart N s.t row x := by
  have horder (d : Side) : facing d xs = (walkBack d.other (row d.other)).reverse ++
      (walk d (x d) ++ s.t :: walk d (x d.other)) ++ walkBack d (row d) := by
    rw [h.order d, middle, walk_join]
  have hnodup (d : Side) : (facing d xs).Nodup := nodup_facing.mpr hxs
  have hstack (d : Side) : N ∉ facing d xs := fun hmem => hN (mem_facing.mp hmem)
  simp only [horder, List.nodup_append', List.nodup_cons, List.nodup_reverse, List.mem_reverse,
    List.mem_append, List.mem_cons, mem_walk, not_or, List.Disjoint] at hnodup hstack
  constructor
  · intro d hmem
    obtain ⟨⟨-, ⟨-, -, htree⟩, -⟩, -⟩ := hnodup d
    exact htree hmem (.inl rfl)
  · intro d hmem
    exact (hnodup d).2.2 (.inr (.inr (.inl rfl))) hmem
  · intro d a ha hb
    obtain ⟨⟨-, ⟨-, -, htree⟩, -⟩, -⟩ := hnodup d
    exact htree ha (.inr hb)
  · intro d e a ha hb
    obtain ⟨⟨-, -, hrow⟩, -, hdisj⟩ := hnodup d
    rcases d.eq_or_eq_other e with rfl | rfl
    · exact hdisj (.inr (.inl ha)) hb
    · exact hrow hb (.inl ha)
  · exact fun d a ha hb => (hnodup d).2.2 (.inl hb) ha
  · exact fun d => (hstack d).1.2.1
  · exact fun d => (hstack d).2
  · exact (hstack .left).1.2.2.1
  · exact fun d => nodup_facing.mp (hnodup d).1.2.1.1
  · exact fun d => (hnodup d).2.1

theorem Inv.mem (h : Inv start key i N xs s row x) (d : Side) :
    s.t ∈ xs ∧ ∀ a ∈ inorder (x d), a ∈ xs := by
  constructor
  · rw [← mem_facing (d := d), h.order d, middle, walk_join]
    simp
  · intro a ha
    rw [← mem_facing (d := d), h.order d, middle, walk_join]
    simp [ha]

theorem Inv.mem_row (h : Inv start key i N xs s row x) {d : Side} {a : α}
    (ha : a ∈ walkBack d (row d)) : a ∈ xs := by
  rw [← mem_facing (d := d), h.order d]
  simp [ha]

/-- The last cell of a spine is the stack node or in the row. -/
theorem Inv.tail_cases (h : Inv start key i N xs s row x) (d : Side) :
    s.tail d = N ∨ s.tail d ∈ walkBack d (row d) :=
  (h.spine d).last_mem.imp id fun hmem => mem_walkBack.mpr (.inl hmem)

theorem Inv.tail_not_mem (h : Inv start key i N xs s row x) (ha : Apart N s.t row x) (d : Side) :
    s.tail d ≠ s.t ∧ (∀ e, s.tail d ∉ inorder (x e)) ∧
      s.tail d ∉ walkBack d.other (row d.other) := by
  rcases h.tail_cases d with htail | hmem
  · rw [htail]
    exact ⟨ha.stack_root, ha.stack_tree, ha.stack_row _⟩
  · refine ⟨?_, ?_, ha.row_row d _ hmem⟩
    · intro heq
      exact ha.root_row d (heq ▸ hmem)
    · exact fun e htree => ha.tree_row e d _ htree hmem

/-- The nodes that are hung to a tree at the side `d` are beyond the key like the root. -/
theorem beyond_other {d : Side} {t : α} {x : Side → BinaryTree α} (hsort : Sorted key xs)
    (horder : facing d xs =
      (walkBack d.other (row d.other)).reverse ++ walk d (middle d t x) ++ walkBack d (row d))
    (ht : Towards d i (key t)) : ∀ a ∈ t :: walk d (x d.other), Towards d i (key a) := by
  have hpair := hsort.facing d
  rw [horder, middle, walk_join] at hpair
  intro a ha
  rcases List.mem_cons.mp ha with rfl | ha
  · exact ht
  · have hta : Towards d (key t) (key a) := by
      simp only [List.pairwise_append, List.pairwise_cons] at hpair
      exact hpair.1.2.1.2.1.1 a ha
    exact ht.trans hta

variable [DecidableEq α]

theorem Inv.link (h : Inv start key i N xs s row x) (hxs : xs.Nodup) (hN : N ∉ xs)
    (hsort : Sorted key xs) {d : Side} {b : α} {x₁ x₂ : BinaryTree α} (hx : x d = join d b x₁ x₂)
    (ht : Towards d i (key s.t)) :
    Inv start key i N xs (s.link d b) (Function.update row d (row d ++ [(s.t, x d.other)]))
      (fun e => if e = d then x₁ else x₂) := by
  have ha := h.apart hxs hN
  obtain ⟨hroot, htree, hrow⟩ := h.tail_not_mem ha d
  have hagree (a : α) (hne : a ≠ s.tail d) : s.cells.Agree (s.link d b).cells a :=
    s.cells.agree_setChild d _ hne
  have hstored := h.child d
  rw [hx, stored_join] at hstored
  obtain ⟨hchild, -, hb₁, hb₂⟩ := hstored
  have hbne : b ≠ s.tail d := by
    rintro rfl
    exact htree d (by rw [hx, mem_inorder_join]; simp)
  have hother : Stored (s.link d b).cells ((s.link d b).cells.child d.other s.t) (x d.other) := by
    rw [(hagree s.t hroot.symm).1]
    exact (h.child d.other).congr fun a hmem => hagree a fun heq => htree _ (heq ▸ hmem)
  constructor
  · intro e
    have hbe := (hagree b hbne).1 e
    have hcongr (z : BinaryTree α) (hz : ∀ a ∈ inorder z, a ∈ inorder (x d)) {p : Option α}
        (hp : Stored s.cells p z) : Stored (s.link d b).cells p z :=
      hp.congr fun a hmem => hagree a fun heq => htree d (heq ▸ hz a hmem)
    rcases d.eq_or_eq_other e with rfl | rfl
    · simp only [if_true]
      rw [show (s.link e b).t = b from rfl, hbe]
      exact hcongr x₁ (fun a hmem => by rw [hx, mem_inorder_join]; simp [hmem]) hb₁
    · simp only [Side.other_ne, if_false]
      rw [show (s.link d b).t = b from rfl, hbe]
      exact hcongr x₂ (fun a hmem => by rw [hx, mem_inorder_join]; simp [hmem]) hb₂
  · intro e
    rcases d.eq_or_eq_other e with rfl | rfl
    · rw [Function.update_self, show (s.link e b).tail e = s.t from Function.update_self _ _ _]
      exact ((h.spine e).setChild (ha.nodup_row e) (ha.stack_row e) _).concat
        (s.cells.setChild_self e _ _) hother
    · rw [Function.update_of_ne (Side.other_ne d), show (s.link d b).tail d.other =
        s.tail d.other from Function.update_of_ne (Side.other_ne d) _ _]
      have hrest (a : α) (hmem : a ∈ walkBack d.other (row d.other)) :=
        hagree a fun heq => hrow (heq ▸ hmem)
      exact (h.spine d.other).of_agree (ha.nodup_row _)
        (s.cells.setChild_of_side (Side.other_ne d) _ _ _) (fun a hmem => (hrest a hmem).1)
        fun a hmem _ => (hrest a hmem).2
  · intro e
    rcases d.eq_or_eq_other e with rfl | rfl
    · have hsize := hother.nodeSize
      rw [Function.update_self, numNodes_concat,
        show (s.link e b).acc e = wrap (s.acc e + (1 + nodeSize (s.link e b).cells
          ((s.link e b).cells.child e.other s.t))) from Function.update_self _ _ _, hsize, h.acc e,
        wrap_add_left, ← Int.add_assoc, wrap_add_right, Int.add_assoc]
      push_cast
      rfl
    · rw [Function.update_of_ne (Side.other_ne d), show (s.link d b).acc d.other =
        s.acc d.other from Function.update_of_ne (Side.other_ne d) _ _, h.acc]
  · apply order_of (d := d)
    rw [h.order d, Function.update_of_ne (Side.other_ne d), Function.update_self,
      walkBack_concat, middle, middle, walk_join, walk_join]
    simp [hx, show (s.link d b).t = b from rfl]
  · intro e a hmem
    rcases d.eq_or_eq_other e with rfl | rfl
    · rw [Function.update_self, walkBack_concat, List.mem_append] at hmem
      rcases hmem with hmem | hmem
      · exact beyond_other hsort (h.order e) ht a hmem
      · exact h.beyond e a hmem
    · rw [Function.update_of_ne (Side.other_ne d)] at hmem
      exact h.beyond d.other a hmem
  · intro a hax haN
    refine (h.frame a hax haN).trans (hagree a ?_)
    rintro rfl
    rcases h.tail_cases d with htail | hmem
    · exact haN htail
    · exact hax (h.mem_row hmem)

theorem Inv.rotate (h : Inv start key i N xs s row x) (hxs : xs.Nodup) (hN : N ∉ xs)
    {d : Side} {y : α} {x₁ x₂ : BinaryTree α} (hx : x d = join d y x₁ x₂) :
    Inv start key i N xs (s.rotate d y) row
      (fun e => if e = d then x₁ else join d s.t x₂ (x d.other)) := by
  have ha := h.apart hxs hN
  have hmem (a : α) : a ∈ inorder (x d) ↔ a ∈ inorder x₁ ∨ a = y ∨ a ∈ inorder x₂ := by
    rw [hx, mem_inorder_join]
  have hyt : y ≠ s.t := by
    rintro rfl
    exact ha.root_tree d ((hmem _).mpr (.inr (.inl rfl)))
  have hstored := h.child d
  rw [hx, stored_join] at hstored
  obtain ⟨-, -, hy₁, hy₂⟩ := hstored
  have hyx : y ∉ inorder x₁ ∧ y ∉ inorder x₂ := by
    have hw : (walk d (x d)).Nodup := nodup_facing.mpr (ha.nodup_tree d)
    simp only [hx, walk_join, List.nodup_append', List.nodup_cons, List.Disjoint, mem_walk,
      List.mem_cons] at hw
    exact ⟨fun hy => hw.2.2 hy (.inl rfl), hw.2.1.1⟩
  -- the memory before the size of the old root is stored
  let cells := (s.cells.setChild d s.t (s.cells.child d.other y)).setChild d.other y (some s.t)
  have hagree (a : α) (hat : a ≠ s.t) (hay : a ≠ y) : s.cells.Agree cells a :=
    (s.cells.agree_setChild d _ hat).trans (Cells.agree_setChild _ d.other _ hay)
  have hdt : cells.child d s.t = s.cells.child d.other y := by
    rw [Cells.setChild_of_side _ (Side.ne_other d), Cells.setChild_self]
  have hdt' : cells.child d.other s.t = s.cells.child d.other s.t := by
    rw [Cells.setChild_of_ne _ _ _ hyt.symm, Cells.setChild_of_side _ (Side.other_ne d)]
  have hdy : cells.child d y = s.cells.child d y := by
    rw [Cells.setChild_of_side _ (Side.ne_other d), Cells.setChild_of_ne _ _ _ hyt]
  have hdy' : cells.child d.other y = some s.t := Cells.setChild_self _ _ _ _
  have hx₁ : Stored cells (cells.child d y) x₁ := by
    rw [hdy]
    apply hy₁.congr
    intro a hax
    exact hagree a (fun heq => ha.root_tree d ((hmem _).mpr (.inl (heq ▸ hax))))
      fun heq => hyx.1 (heq ▸ hax)
  have hx₂ : Stored cells (cells.child d s.t) x₂ := by
    rw [hdt]
    apply hy₂.congr
    intro a hax
    exact hagree a (fun heq => ha.root_tree d ((hmem _).mpr (.inr (.inr (heq ▸ hax)))))
      fun heq => hyx.2 (heq ▸ hax)
  have hx₃ : Stored cells (cells.child d.other s.t) (x d.other) := by
    rw [hdt']
    apply (h.child d.other).congr
    intro a hax
    exact hagree a (fun heq => ha.root_tree d.other (heq ▸ hax)) fun heq =>
      ha.tree_tree d y ((hmem y).mpr (.inr (.inl rfl))) (heq ▸ hax)
  have hsize : wrap (nodeSize cells (cells.child .left s.t) +
      nodeSize cells (cells.child .right s.t) + 1) =
      wrap (x₂.numNodes + (x d.other).numNodes + 1 : ℕ) := by
    rw [Side.sum_sides (fun e => nodeSize cells (cells.child e s.t)) d, hx₂.nodeSize,
      hx₃.nodeSize, wrap_add_middle, Int.add_assoc, wrap_add_left, ← Int.add_assoc]
    push_cast
    rfl
  have hcells : (s.rotate d y).cells = cells.setSize s.t
      (nodeSize cells (cells.child .left s.t) + nodeSize cells (cells.child .right s.t) + 1) := rfl
  have hkeep {p : Option α} {z : BinaryTree α} (hz : Stored cells p z) (ht : s.t ∉ inorder z) :
      Stored (s.rotate d y).cells p z := by
    rw [hcells]
    exact hz.congr fun a hax => cells.agree_setSize _ fun heq => ht (heq ▸ hax)
  have ht₁ : s.t ∉ inorder x₁ := fun ht => ha.root_tree d ((hmem _).mpr (.inl ht))
  have ht₂ : s.t ∉ inorder x₂ := fun ht => ha.root_tree d ((hmem _).mpr (.inr (.inr ht)))
  constructor
  · intro e
    rcases d.eq_or_eq_other e with rfl | rfl
    · rw [if_pos rfl]
      exact hkeep hx₁ ht₁
    · rw [if_neg (Side.other_ne d), stored_join]
      refine ⟨hdy', ?_, hkeep hx₂ ht₂, hkeep hx₃ (ha.root_tree _)⟩
      rw [hcells, Cells.setSize_size, if_pos rfl, hsize]
  · intro e
    have hrest (a : α) (hrow : a ∈ walkBack e (row e)) : s.cells.Agree (s.rotate d y).cells a := by
      have hat : a ≠ s.t := fun heq => ha.root_row e (heq ▸ hrow)
      exact (hagree a hat fun heq => ha.tree_row d e y ((hmem y).mpr (.inr (.inl rfl)))
        (heq ▸ hrow)).trans (cells.agree_setSize _ hat)
    apply (h.spine e).of_agree (ha.nodup_row e) _ (fun a hrow => (hrest a hrow).1)
      fun a hrow _ => (hrest a hrow).2
    rw [hcells, Cells.setSize_child]
    exact (hagree N ha.stack_root fun heq =>
      ha.stack_tree d ((hmem N).mpr (.inr (.inl heq)))).1 e
  · exact h.acc
  · apply order_of (d := d)
    rw [h.order d, middle, middle, walk_join, walk_join]
    simp [hx, show (s.rotate d y).t = y from rfl]
  · exact h.beyond
  · intro a hax haN
    have hat : a ≠ s.t := fun heq => hax (heq ▸ (h.mem d).1)
    have hay : a ≠ y := fun heq => hax ((h.mem d).2 a ((hmem a).mpr (.inr (.inl heq))))
    exact ((h.frame a hax haN).trans (hagree a hat hay)).trans (cells.agree_setSize _ hat)

omit [DecidableEq α] in
theorem Inv.rows_lt (h : Inv start key i N xs s row x) :
    Row.numNodes (row .left) + Row.numNodes (row .right) < xs.length := by
  have hlen := congrArg List.length (h.order .left)
  rw [length_facing, List.length_append, List.length_append, List.length_reverse,
    length_walkBack, length_walkBack, middle, walk_join, List.length_append,
    List.length_cons, Side.other] at hlen
  omega

/-- The key is that of the root, or there is no node on its side of the root. -/
def Reached (key : α → ℤ) (i : ℤ) (t : α) (x : Side → BinaryTree α) : Prop :=
  i = key t ∨ ∃ d, Towards d i (key t) ∧ x d = .nil

theorem Inv.descend (h : Inv start key i N xs s row x) (hxs : xs.Nodup) (hN : N ∉ xs)
    (hsort : Sorted key xs) {d : Side} (ht : Towards d i (key s.t)) {c : α}
    (hc : s.cells.child d s.t = some c) :
    ∃ row' x', Inv start key i N xs (s.link d c) row' x' ∧
      Row.numNodes (row .left) + Row.numNodes (row .right) <
        Row.numNodes (row' .left) + Row.numNodes (row' .right) := by
  have hstored := h.child d
  rw [hc] at hstored
  obtain ⟨x₁, x₂, hx⟩ := hstored.exists_join d
  refine ⟨_, _, h.link hxs hN hsort hx ht, ?_⟩
  rw [Side.sum_sides (fun e => Row.numNodes (row e)) d,
    Side.sum_sides (fun e => Row.numNodes (Function.update row d _ e)) d,
    Function.update_self, Function.update_of_ne (Side.other_ne d), numNodes_concat]
  omega

theorem Inv.turn (h : Inv start key i N xs s row x) (hxs : xs.Nodup) (hN : N ∉ xs)
    (hsort : Sorted key xs) (hi : Key i) (hkeys : ∀ a ∈ xs, Key (key a)) :
    (∃ s', splayTurn key i s = some (.again s') ∧ ∃ row' x', Inv start key i N xs s' row' x' ∧
      Row.numNodes (row .left) + Row.numNodes (row .right) <
        Row.numNodes (row' .left) + Row.numNodes (row' .right)) ∨
    ∃ s', splayTurn key i s = some (.leave s') ∧
      ∃ row' x', Inv start key i N xs s' row' x' ∧ Reached key i s'.t x' := by
  have hkey : Key (key s.t) := hkeys _ (h.mem .left).1
  unfold splayTurn
  cases hside : sideOf (compare i (key s.t)) with
  | none =>
      exact .inr ⟨s, rfl, row, x, h, .inl ((sideOf_compare_none hi hkey).mp hside)⟩
  | some d =>
      have ht := (sideOf_compare hi hkey d).mp hside
      cases hc : s.cells.child d s.t with
      | none =>
          have hnil : x d = .nil := Stored.nil (hc ▸ h.child d)
          exact .inr ⟨s, by simp only [hc], row, x, h, .inr ⟨d, ht, hnil⟩⟩
      | some y =>
          have hstored := h.child d
          rw [hc] at hstored
          obtain ⟨x₁, x₂, hx⟩ := hstored.exists_join d
          have hky : Key (key y) :=
            hkeys y ((h.mem d).2 y (by rw [hx, mem_inorder_join]; simp))
          by_cases hy : sideOf (compare i (key y)) = some d
          · have hrot := h.rotate hxs hN hx
            have hty : Towards d i (key (s.rotate d y).t) := (sideOf_compare hi hky d).mp hy
            cases hc' : (s.rotate d y).cells.child d (s.rotate d y).t with
            | none =>
                have hnil : x₁ = .nil := by
                  have := hrot.child d
                  rw [hc', if_pos rfl] at this
                  exact this.nil
                refine .inr ⟨s.rotate d y, by simp only [hc, hy, if_true, hc'], row, _, hrot,
                  .inr ⟨d, hty, ?_⟩⟩
                exact (if_pos rfl).trans hnil
            | some c =>
                obtain ⟨row', x', hlink, hlt⟩ := hrot.descend hxs hN hsort hty hc'
                exact .inl ⟨_, by simp only [hc, hy, if_true, hc'], row', x', hlink, hlt⟩
          · obtain ⟨row', x', hlink, hlt⟩ := h.descend hxs hN hsort ht hc
            exact .inl ⟨_, by simp only [hc, hy, if_false], row', x', hlink, hlt⟩

/-- The first loop of `splaytree_splay` ends with the key at the root, if it is in the tree. -/
theorem Inv.run (h : Inv start key i N xs s row x) (hxs : xs.Nodup) (hN : N ∉ xs)
    (hsort : Sorted key xs) (hi : Key i) (hkeys : ∀ a ∈ xs, Key (key a)) :
    ∃ s', Returns (fun fuel => Loop.run (splayTurn key i) fuel s) s' ∧
      ∃ row' x', Inv start key i N xs s' row' x' ∧ Reached key i s'.t x' := by
  -- every turn that goes on hangs a node to one of the spines
  induction hn : xs.length - (Row.numNodes (row .left) + Row.numNodes (row .right)) using
    Nat.strongRecOn generalizing s row x with
  | _ n ih =>
      rcases h.turn hxs hN hsort hi hkeys with ⟨s', hs, row', x', h', hlt⟩ | ⟨s', hs, hq⟩
      · have hrows := h'.rows_lt
        obtain ⟨r, hrun, hq⟩ := ih _ (by omega) h' rfl
        exact ⟨r, hrun.again hs, hq⟩
      · exact ⟨s', returns_leave hs, hq⟩

theorem resize {d : Side} {m : Cells α} {src e : α} {r : Row α} (h : Spine m d src r e)
    (hend : m.child d e = none) (hnodup : (walkBack d r).Nodup) (z : ℕ) :
    ∃ m', Returns (fun fuel => Loop.run (resizeTurn d) fuel
        (m, m.child d src, wrap (Row.numNodes r + z : ℕ))) m' ∧
      m'.child = m.child ∧ (∀ a ∉ tops r, m'.size a = m.size a) ∧ SpineSized m' z r := by
  induction r generalizing m src with
  | nil =>
      cases h
      rw [hend]
      exact ⟨m, returns_leave rfl, rfl, fun _ _ => rfl, trivial⟩
  | cons b r ih =>
      obtain ⟨hchild, hstored, hrest⟩ := h
      simp only [walkBack, List.nodup_append', List.nodup_cons, List.Disjoint, List.mem_cons,
        mem_walk] at hnodup
      obtain ⟨hr, ⟨hb, -⟩, hdisj⟩ := hnodup
      have hbr : b.1 ∉ walkBack d r := fun hmem => hdisj hmem (.inl rfl)
      let m₁ := m.setSize b.1 (wrap (Row.numNodes (b :: r) + z : ℕ))
      have hspine : Spine m₁ d b.1 r e := by
        have hsize (a : α) (ha : a ∈ walkBack d r) : m₁.size a = m.size a :=
          (m.setSize_size b.1 a _).trans (if_neg fun heq : a = b.1 => hbr (heq ▸ ha))
        exact hrest.of_agree hr rfl (fun _ _ _ => rfl) fun a ha _ => hsize a ha
      have hother : nodeSize m₁ (m₁.child d.other b.1) = wrap b.2.numNodes := by
        apply Stored.nodeSize
        exact hstored.congr fun a ha => m.agree_setSize _ fun heq => hb (heq ▸ ha)
      obtain ⟨m', hrun, hchild', hsize, hsized⟩ := ih hspine hend hr
      have hacc : wrap (wrap (Row.numNodes (b :: r) + z : ℕ) -
          (1 + nodeSize m₁ (m₁.child d.other b.1))) = wrap (Row.numNodes r + z : ℕ) := by
        rw [hother, wrap_sub_left, ← Int.sub_sub, wrap_sub_right]
        congr 1
        simp only [Row.numNodes]
        push_cast
        omega
      have htop : b.1 ∉ tops r := fun hmem => hbr (mem_walkBack.mpr (.inl hmem))
      refine ⟨m', ?_, hchild', ?_, ?_, hsized⟩
      · rw [hchild]
        apply hrun.again
        rw [← hacc]
        rfl
      · intro a ha
        rw [tops_cons, List.mem_cons, not_or] at ha
        rw [hsize a ha.2]
        exact (m.setSize_size b.1 a _).trans (if_neg ha.1)
      · rw [hsize b.1 htop]
        refine ((m.setSize_size b.1 b.1 _).trans (if_pos rfl)).trans ?_
        rw [wrap_wrap, Row.numNodes]

/-- The memory when both spines have been cut off. -/
def cut (s : Splaying α) (n : ℤ) : Cells α :=
  ((s.cells.setSize s.t n).setChild .left (s.tail .left) none).setChild .right (s.tail .right) none

theorem cut_child (s : Splaying α) (n : ℤ) (d : Side) (a : α) :
    (cut s n).child d a = if a = s.tail d then none else s.cells.child d a := by
  cases d <;> simp [cut, Cells.setChild_child]

def hang (s : Splaying α) (cells : Cells α) : Cells α :=
  let cells := cells.setChild .right (s.tail .right) (cells.child .left s.t)
  cells.setChild .left (s.tail .left) (cells.child .right s.t)

theorem hang_child {m : Cells α} (hroot : ∀ d, s.tail d ≠ s.t)
    (hm : ∀ d a, m.child d a = if a = s.tail d then none else s.cells.child d a) (d : Side)
    (a : α) : (hang s m).child d a =
      if a = s.tail d then s.cells.child d.other s.t else s.cells.child d a := by
  have hr := (hroot .right).symm
  have hl := (hroot .left).symm
  cases d
  · simp only [hang, Cells.setChild_child, hm, hr, Side.other, true_and, reduceCtorEq, false_and,
      and_false, if_false]
    split_ifs <;> rfl
  · simp only [hang, Cells.setChild_child, hm, hl, Side.other, true_and, reduceCtorEq, false_and,
      if_false]
    split_ifs <;> rfl

/-- Whatever hangs at the ends of the spines and whatever sizes their own cells have, the spines
are still there. -/
theorem Inv.respine (h : Inv start key i N xs s row x) (ha : Apart N s.t row x) {m : Cells α}
    {q : Side → Option α}
    (hm : ∀ d a, m.child d a = if a = s.tail d then q d else s.cells.child d a)
    (hsize : ∀ a, a ≠ s.t → (∀ e, a ∉ tops (row e)) → m.size a = s.cells.size a) (d : Side) :
    Spine m d N (row d) (s.tail d) := by
  have hspine := (h.spine d).setChild (ha.nodup_row d) (ha.stack_row d) (q d)
  have hsame (a : α) : m.child d a = (s.cells.setChild d (s.tail d) (q d)).child d a := by
    rw [hm, Cells.setChild_child]
    simp only [true_and]
  refine hspine.of_agree (ha.nodup_row d) (hsame N) (fun a hmem d' => ?_) fun a hmem htop => ?_
  · rcases d.eq_or_eq_other d' with rfl | rfl
    · exact hsame a
    · have hne : a ≠ s.tail d.other := by
        have := (h.tail_not_mem ha d.other).2.2
        rw [Side.other_other] at this
        exact fun heq => this (heq ▸ hmem)
      rw [hm, if_neg hne, Cells.setChild_of_side _ (Side.other_ne d)]
  · have hat : a ≠ s.t := fun heq => ha.root_row d (heq ▸ hmem)
    refine hsize a hat fun e htop' => ?_
    rcases d.eq_or_eq_other e with rfl | rfl
    · exact htop htop'
    · exact ha.row_row d a hmem (mem_walkBack.mpr (.inl htop'))

/-- Behind the corrections of the sizes each spine makes a tree with the inner tree at its end. -/
theorem Inv.hang_stored (h : Inv start key i N xs s row x) (ha : Apart N s.t row x) {m : Cells α}
    (hm : ∀ d a, m.child d a = if a = s.tail d then none else s.cells.child d a)
    (hsize : ∀ a, a ≠ s.t → (∀ e, a ∉ tops (row e)) → m.size a = s.cells.size a)
    (hsized : ∀ d, SpineSized m (x d.other).numNodes (row d)) (d : Side) :
    Stored (hang s m) ((hang s m).child d N) (glue d (row d) (x d.other)) := by
  have hchild := hang_child (fun d => (h.tail_not_mem ha d).1) hm
  refine (h.respine ha hchild hsize d).stored ((hsized d).congr fun _ _ => rfl) ?_
  rw [hchild, if_pos rfl]
  apply (h.child d.other).congr
  intro a hmem
  have htail (e : Side) : a ≠ s.tail e := fun heq => (h.tail_not_mem ha e).2.1 _ (heq ▸ hmem)
  refine ⟨fun d' => by rw [hchild, if_neg (htail d')], hsize a ?_ fun e htop => ?_⟩
  · exact fun heq => ha.root_tree d.other (heq ▸ hmem)
  · exact ha.tree_row d.other e a hmem (mem_walkBack.mpr (.inl htop))

omit [DecidableEq α] in
theorem mem_glue {d : Side} {r : Row α} {z : BinaryTree α} {a : α} :
    a ∈ inorder (glue d r z) ↔ a ∈ inorder z ∨ a ∈ walkBack d r := by
  rw [← mem_walk (d := d), walk_glue, List.mem_append, mem_walk]

theorem Inv.assemble (h : Inv start key i N xs s row x) (hxs : xs.Nodup) (hN : N ∉ xs) :
    ∃ m, Returns (fun fuel => SplayTree.assemble fuel N s) m ∧
      Stored m (some s.t) (.node s.t (glue .right (row .right) (x .left))
        (glue .left (row .left) (x .right))) ∧
      ∀ a ∉ xs, a ≠ N → start.Agree m a := by
  have ha := h.apart hxs hN
  have hl : wrap (s.acc .right + nodeSize s.cells (s.cells.child .left s.t)) =
      wrap (Row.numNodes (row .right) + (x .left).numNodes : ℕ) := by
    rw [h.acc, (h.child .left).nodeSize, wrap_add_left, wrap_add_right, Int.natCast_add]
  have hr : wrap (s.acc .left + nodeSize s.cells (s.cells.child .right s.t)) =
      wrap (Row.numNodes (row .left) + (x .right).numNodes : ℕ) := by
    rw [h.acc, (h.child .right).nodeSize, wrap_add_left, wrap_add_right, Int.natCast_add]
  let n : ℤ := wrap (Row.numNodes (row .right) + (x .left).numNodes : ℕ) +
    wrap (Row.numNodes (row .left) + (x .right).numNodes : ℕ) + 1
  have hcut (a : α) : (cut s n).size a = if a = s.t then wrap n else s.cells.size a :=
    s.cells.setSize_size _ _ _
  -- the right spine, then the left one
  obtain ⟨c₃, hrun₃, hchild₃, hsize₃, hsized₃⟩ := resize
    (h.respine ha (cut_child s n) (fun a hat _ => (hcut a).trans (if_neg hat)) .right)
    (by rw [cut_child, if_pos rfl]) (ha.nodup_row .right) (x .left).numNodes
  have hc₃ (d : Side) (a : α) :
      c₃.child d a = if a = s.tail d then none else s.cells.child d a := by
    rw [hchild₃, cut_child]
  obtain ⟨c₄, hrun₄, hchild₄, hsize₄, hsized₄⟩ := resize
    (h.respine ha hc₃ (fun a hat htop => (hsize₃ a (htop .right)).trans
      ((hcut a).trans (if_neg hat))) .left)
    (by rw [hc₃, if_pos rfl]) (ha.nodup_row .left) (x .right).numNodes
  have hc₄ (d : Side) (a : α) :
      c₄.child d a = if a = s.tail d then none else s.cells.child d a := by
    rw [hchild₄, hc₃]
  have hsize (a : α) (htop : ∀ e, a ∉ tops (row e)) : c₄.size a =
      if a = s.t then wrap n else s.cells.size a := by
    rw [hsize₄ a (htop .left), hsize₃ a (htop .right), hcut]
  have hsized : ∀ d, SpineSized c₄ (x d.other).numNodes (row d) := by
    intro d
    cases d with
    | left => exact hsized₄
    | right =>
        apply hsized₃.congr
        intro a htop
        have hmem : a ∈ walkBack .right (row .right) := mem_walkBack.mpr (.inl htop)
        exact hsize₄ a fun htop' => ha.row_row .right a hmem (mem_walkBack.mpr (.inl htop'))
  have hside := h.hang_stored ha hc₄ (fun a hat htop => (hsize a htop).trans (if_neg hat)) hsized
  let m := ((hang s c₄).setChild .left s.t ((hang s c₄).child .right N)).setChild .right s.t
    ((hang s c₄).child .left N)
  have hagree (a : α) (hat : a ≠ s.t) : (hang s c₄).Agree m a :=
    ((hang s c₄).agree_setChild .left _ hat).trans (Cells.agree_setChild _ .right _ hat)
  have hglue (d : Side) {a : α} (hmem : a ∈ inorder (glue d (row d) (x d.other))) : a ≠ s.t := by
    rintro rfl
    exact (mem_glue.mp hmem).elim (ha.root_tree _) (ha.root_row _)
  have htop (e : Side) : s.t ∉ tops (row e) :=
    fun hmem => ha.root_row e (mem_walkBack.mpr (.inl hmem))
  refine ⟨m, ?_, ⟨rfl, ?_, ?_, ?_⟩, ?_⟩
  · have hN : ((hang s c₄).setChild .left s.t ((hang s c₄).child .right N)).child .left N =
        (hang s c₄).child .left N := Cells.setChild_of_ne _ _ _ ha.stack_root _
    unfold SplayTree.assemble
    simp only [hl, hr]
    refine hrun₃.andThen (hrun₄.bind ?_)
    exact congrArg some (congrArg _ hN)
  · rw [show m.size s.t = c₄.size s.t from rfl, hsize _ htop, if_pos rfl, numNodes_glue,
      numNodes_glue, wrap_add_middle, Int.add_assoc, wrap_add_left]
    congr 1
    push_cast
    omega
  · rw [show m.child .left s.t = (hang s c₄).child .right N by
      simp [m, Cells.setChild_child]]
    exact (hside .right).congr fun a hmem => hagree a (hglue .right hmem)
  · rw [show m.child .right s.t = (hang s c₄).child .left N by
      simp [m, Cells.setChild_child]]
    exact (hside .left).congr fun a hmem => hagree a (hglue .left hmem)
  · intro a hax haN
    have hat : a ≠ s.t := fun heq => hax (heq ▸ (h.mem .left).1)
    have htail (d : Side) : a ≠ s.tail d := by
      rintro rfl
      exact (h.tail_cases d).elim haN fun hmem => hax (h.mem_row hmem)
    have hkeep : s.cells.Agree (hang s c₄) a := by
      refine ⟨fun d => ?_, (hsize a fun e htop => ?_).trans (if_neg hat)⟩
      · rw [hang_child (fun d => (h.tail_not_mem ha d).1) hc₄, if_neg (htail d)]
      · exact hax (h.mem_row (mem_walkBack.mpr (.inl htop)))
    exact ((h.frame a hax haN).trans hkeep).trans (hagree a hat)

end

/-- The root that a splay for `i` leaves: its key is `i`, or `i` lies between it and the nodes on
one of its sides. -/
def Splayed (key : α → ℤ) (i : ℤ) (t : α) (l r : BinaryTree α) : Prop :=
  i = key t ∨ i < key t ∧ (∀ a ∈ inorder l, key a < i) ∨ key t < i ∧ ∀ a ∈ inorder r, i < key a

theorem Sorted.nodup {key : α → ℤ} {xs : List α} (h : Sorted key xs) : xs.Nodup :=
  h.imp fun hlt heq => hlt.ne (congrArg key heq)

/-- The memory holds the tree, in the order of its keys, and not the node on the stack. -/
structure Holds (key : α → ℤ) (N : α) (m : Cells α) (p : Option α) (T : BinaryTree α) : Prop where
  stored : Stored m p T
  sorted : Sorted key (inorder T)
  keys : ∀ a ∈ inorder T, Key (key a)
  stack : N ∉ inorder T

variable [DecidableEq α]

/-- A splay of a tree that is not empty keeps the order of its nodes, and changes no others. -/
theorem Holds.splay {key : α → ℤ} {N : α} {m : Cells α} {t : α} {T : BinaryTree α}
    (h : Holds key N m (some t) T) {i : ℤ} (hi : Key i) :
    ∃ m' t' l r, Returns (fun fuel => splaytreeSplay fuel N key m (some t) i) (m', some t') ∧
      Holds key N m' (some t') (.node t' l r) ∧ inorder (.node t' l r) = inorder T ∧
      Splayed key i t' l r ∧ ∀ a ∉ inorder T, a ≠ N → m.Agree m' a := by
  obtain ⟨hstored, hsort, hkeys, hN⟩ := h
  obtain ⟨l₀, r₀, rfl⟩ := hstored.exists_join .left
  have hnodup := hsort.nodup
  let s : Splaying α :=
    ⟨(m.setChild .right N none).setChild .left N none, t, fun _ => N, fun _ => 0⟩
  have hzero (d : Side) : s.acc d = wrap (Row.numNodes ([] : Row α) : ℕ) :=
    (wrap_fits (v := 0) (by decide)).symm
  have hagree (a : α) (ha : a ≠ N) : m.Agree s.cells a :=
    (m.agree_setChild .right _ ha).trans (Cells.agree_setChild _ .left _ ha)
  have hinit : Inv m key i N (inorder (join .left t l₀ r₀)) s (fun _ => [])
      (fun d => if d = .left then l₀ else r₀) := by
    have hroot := stored_join.mp hstored
    have hchild (d : Side) : s.cells.child d t = m.child d t :=
      (hagree t fun heq => hN (heq ▸ mem_inorder_join.mpr (.inr (.inl rfl)))).1 d
    refine ⟨fun d => ?_, fun d => rfl, hzero, fun d => ?_, by simp [walkBack],
      fun a _ haN => hagree a haN⟩
    · rw [hchild]
      cases d
      · apply hroot.2.2.1.congr
        exact fun a ha => hagree a fun heq => hN (heq ▸ mem_inorder_join.mpr (.inl ha))
      · apply hroot.2.2.2.congr
        exact fun a ha => hagree a fun heq => hN (heq ▸ mem_inorder_join.mpr (.inr (.inr ha)))
    · cases d <;> simp [facing, walkBack, walk, middle, join, Side.other, s]
  obtain ⟨s', hrun, row, x, hinv, hreached⟩ := hinit.run hnodup hN hsort hi hkeys
  obtain ⟨m', hassemble, hstored', hframe⟩ := hinv.assemble hnodup hN
  have horder : inorder (.node s'.t (glue .right (row .right) (x .left))
      (glue .left (row .left) (x .right))) = inorder (join .left t l₀ r₀) := by
    have hright : inorder (glue .right (row .right) (x .left)) =
        (walkBack .right (row .right)).reverse ++ inorder (x .left) := by
      have := walk_glue .right (row .right) (x .left)
      rw [walk, walk, facing, facing, List.reverse_eq_iff] at this
      simpa using this
    have hleft := walk_glue .left (row .left) (x .right)
    have hall := hinv.order .left
    rw [middle, walk_join] at hall
    rw [inorder_node, hright, show inorder (glue .left (row .left) (x .right)) = _ from hleft]
    simpa [walk, facing, Side.other] using hall.symm
  refine ⟨m', s'.t, _, _, ?_, ⟨hstored', horder ▸ hsort, horder ▸ hkeys, horder ▸ hN⟩, horder, ?_,
    hframe⟩
  · exact hrun.andThen (hassemble.bind rfl)
  · rcases hreached with heq | ⟨d, hd, hnil⟩
    · exact .inl heq
    · cases d with
      | left =>
          refine .inr (.inl ⟨hd, fun a ha => ?_⟩)
          rw [mem_glue, hnil] at ha
          exact ha.elim (by simp) (hinv.beyond .right a)
      | right =>
          refine .inr (.inr ⟨hd, fun a ha => ?_⟩)
          rw [mem_glue, hnil] at ha
          exact ha.elim (by simp) (hinv.beyond .left a)

end EmbeddedCode.SplayTree
