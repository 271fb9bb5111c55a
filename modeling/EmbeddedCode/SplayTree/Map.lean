import EmbeddedCode.Library.Transition
import EmbeddedCode.SplayTree.Splay

/-!
# The tree as a map

Insertions and deletions splay first and then work at the root. What they make of the tree is
what the same operations make of a list of entries in the order of their keys.
-/
namespace EmbeddedCode.SplayTree

open CInt LinkedTree Loop SidedTrees Transition

variable {α D : Type} [DecidableEq α]

def Nodes.entry (nodes : Nodes α D) (a : α) : ℤ × D := (nodes.key a, nodes.data a)

def Nodes.entries (nodes : Nodes α D) (T : BinaryTree α) : List (ℤ × D) :=
  (inorder T).map nodes.entry

/-- An entry is put between the smaller and the larger keys, unless its key is there. -/
def insertEntry (i : ℤ) (data : D) (xs : List (ℤ × D)) : List (ℤ × D) :=
  if i ∈ xs.map Prod.fst then xs
  else xs.filter (fun e => e.1 < i) ++ (i, data) :: xs.filter fun e => i < e.1

def deleteEntry (i : ℤ) (xs : List (ℤ × D)) : List (ℤ × D) := xs.filter fun e => e.1 ≠ i

section
variable {key : α → ℤ} {N : α} {m m' : Cells α} {p : Option α} {T : BinaryTree α} {i : ℤ}
  {t : α} {l r : BinaryTree α} {nodes : Nodes α D}

omit [DecidableEq α] in
/-- The two sides of a root in the order of the keys. -/
theorem Holds.sides (h : Holds key N m p (.node t l r)) :
    (∀ a ∈ inorder l, key a < key t) ∧ ∀ a ∈ inorder r, key t < key a := by
  have hsort := h.sorted
  rw [Sorted, inorder_node, List.pairwise_append, List.pairwise_cons] at hsort
  exact ⟨fun a ha => hsort.2.2 a ha t (by simp), hsort.2.1.1⟩

omit [DecidableEq α] in
theorem filter_lt_append {xs ys : List (ℤ × D)} (hx : ∀ e ∈ xs, e.1 < i) (hy : ∀ e ∈ ys, i < e.1) :
    (xs ++ ys).filter (fun e => e.1 < i) = xs ∧ (xs ++ ys).filter (fun e => i < e.1) = ys := by
  have hxs : xs.filter (fun e => e.1 < i) = xs := List.filter_eq_self.mpr (by simpa using hx)
  have hys : ys.filter (fun e => i < e.1) = ys := List.filter_eq_self.mpr (by simpa using hy)
  have hxs' : xs.filter (fun e => i < e.1) = [] := by
    apply List.filter_eq_nil_iff.mpr
    intro e he
    simpa using (hx e he).le
  have hys' : ys.filter (fun e => e.1 < i) = [] := by
    apply List.filter_eq_nil_iff.mpr
    intro e he
    simpa using (hy e he).le
  rw [List.filter_append, List.filter_append, hxs, hys, hxs', hys']
  simp

omit [DecidableEq α] in
/-- A key that is between two parts of the entries is put between them. -/
theorem insertEntry_append {data : D} {xs ys : List (ℤ × D)} (hx : ∀ e ∈ xs, e.1 < i)
    (hy : ∀ e ∈ ys, i < e.1) : insertEntry i data (xs ++ ys) = xs ++ (i, data) :: ys := by
  obtain ⟨hxs, hys⟩ := filter_lt_append hx hy
  unfold insertEntry
  rw [if_neg, hxs, hys]
  rw [List.mem_map]
  rintro ⟨e, he, rfl⟩
  rcases List.mem_append.mp he with he | he
  · exact lt_irrefl _ (hx e he)
  · exact lt_irrefl _ (hy e he)

omit [DecidableEq α] in
theorem deleteEntry_append {xs ys : List (ℤ × D)} (hx : ∀ e ∈ xs, e.1 < i)
    (hy : ∀ e ∈ ys, i < e.1) : deleteEntry i (xs ++ ys) = xs ++ ys := by
  apply List.filter_eq_self.mpr
  intro e he
  simp only [decide_eq_true_eq]
  rcases List.mem_append.mp he with he | he
  · exact (hx e he).ne
  · exact (hy e he).ne'

omit [DecidableEq α] in
theorem deleteEntry_middle {data : D} {xs ys : List (ℤ × D)} (hx : ∀ e ∈ xs, e.1 < i)
    (hy : ∀ e ∈ ys, i < e.1) : deleteEntry i (xs ++ (i, data) :: ys) = xs ++ ys := by
  have := deleteEntry_append hx hy
  unfold deleteEntry at *
  rw [List.filter_append, List.filter_cons, if_neg (by simp), ← List.filter_append, this]

/-- The memory in which `new` is the root above `t`, on the side `d` of it. -/
def plant (m : Cells α) (d : Side) (new t : α) : Cells α :=
  let m := m.setChild d new (m.child d t)
  let m := (m.setChild d.other new (some t)).setChild d t none
  let m := m.setSize t (1 + nodeSize m (m.child d.other t))
  m.setSize new (1 + nodeSize m (m.child .left new) + nodeSize m (m.child .right new))

theorem plant_stored {d : Side} {new : α} {x y : BinaryTree α} (hx : Stored m (m.child d t) x)
    (hy : Stored m (m.child d.other t) y) (hnew : new ∉ inorder (join d t x y))
    (ht : t ∉ inorder x ∧ t ∉ inorder y) :
    Stored (plant m d new t) (some new) (join d new x (join d t .nil y)) := by
  rw [mem_inorder_join, not_or, not_or] at hnew
  obtain ⟨hnx, hnt, hny⟩ := hnew
  let m₁ := ((m.setChild d new (m.child d t)).setChild d.other new (some t)).setChild d t none
  have hagree (a : α) (han : a ≠ new) (hat : a ≠ t) : m.Agree m₁ a :=
    ((m.agree_setChild d _ han).trans (Cells.agree_setChild _ d.other _ han)).trans
      (Cells.agree_setChild _ d _ hat)
  have hkeep {q : Option α} {z : BinaryTree α} (hz : Stored m q z) (hnz : new ∉ inorder z)
      (htz : t ∉ inorder z) : Stored m₁ q z :=
    hz.congr fun a ha => hagree a (fun heq => hnz (heq ▸ ha)) fun heq => htz (heq ▸ ha)
  have hdn : m₁.child d new = m.child d t := by
    simp [m₁, Cells.setChild_child, hnt]
  have hdn' : m₁.child d.other new = some t := by
    simp [m₁, Cells.setChild_child]
  have hdt : m₁.child d t = none := Cells.setChild_self _ _ _ _
  have hdt' : m₁.child d.other t = m.child d.other t := by
    simp [m₁, Cells.setChild_child, Ne.symm hnt]
  -- the tree of the old root, with its size
  let m₂ := m₁.setSize t (1 + nodeSize m₁ (m₁.child d.other t))
  have hx₂ : Stored m₂ (m₂.child d new) x := by
    rw [show m₂.child d new = m.child d t from hdn]
    exact (hkeep hx hnx ht.1).congr fun a ha => m₁.agree_setSize _ fun heq => ht.1 (heq ▸ ha)
  have hy₁ : Stored m₁ (m₁.child d.other t) y := hdt' ▸ hkeep hy hny ht.2
  have ht₂ : Stored m₂ (m₂.child d.other new) (join d t .nil y) := by
    rw [show m₂.child d.other new = some t from hdn', stored_join]
    refine ⟨rfl, ?_, hdt, hy₁.congr fun a ha => m₁.agree_setSize _ fun heq => ht.2 (heq ▸ ha)⟩
    rw [show m₂.size t = wrap (1 + nodeSize m₁ (m₁.child d.other t)) from
      (m₁.setSize_size _ _ _).trans (if_pos rfl), hy₁.nodeSize, wrap_add_right]
    congr 1
    simp only [BinaryTree.numNodes]
    push_cast
    omega
  have hsize : wrap (1 + nodeSize m₂ (m₂.child .left new) + nodeSize m₂ (m₂.child .right new)) =
      wrap (x.numNodes + (join d t .nil y).numNodes + 1 : ℕ) := by
    rw [Int.add_assoc, Side.sum_sides (fun e => nodeSize m₂ (m₂.child e new)) d, hx₂.nodeSize,
      ht₂.nodeSize, ← Int.add_assoc, wrap_add_right, wrap_add_middle]
    congr 1
    push_cast
    omega
  have hnt₂ : new ∉ inorder (join d t .nil y) := by
    rw [mem_inorder_join]
    simp [hnt, hny]
  rw [stored_join]
  refine ⟨rfl, (Cells.setSize_size _ _ _ _).trans ((if_pos rfl).trans hsize), ?_, ?_⟩
  · exact hx₂.congr fun a ha => m₂.agree_setSize _ fun heq => hnx (heq ▸ ha)
  · exact ht₂.congr fun a ha => m₂.agree_setSize _ fun heq => hnt₂ (heq ▸ ha)

/-- Keys and data that a new node has changed for itself only. -/
theorem entries_update {xs : List α} {new : α} {data : D} (hnew : new ∉ xs) :
    xs.map (Nodes.entry ⟨m, Function.update nodes.key new i, Function.update nodes.data new data⟩) =
      xs.map nodes.entry := by
  apply List.map_congr_left
  intro a ha
  have hne : a ≠ new := fun heq => hnew (heq ▸ ha)
  simp [Nodes.entry, hne]

/-- A tree with the new node at its place in the order. -/
theorem holds_insert (data : D) {xs ys : List α} {new : α} {T' : BinaryTree α}
    (hsort : Sorted nodes.key (xs ++ ys)) (hkeys : ∀ a ∈ xs ++ ys, Key (nodes.key a))
    (hN : N ∉ xs ++ ys) (hi : Key i) (hnew : new ∉ xs ++ ys) (hnN : N ≠ new)
    (hx : ∀ a ∈ xs, nodes.key a < i) (hy : ∀ a ∈ ys, i < nodes.key a)
    (hstored : Stored m (some new) T') (hT' : inorder T' = xs ++ new :: ys) :
    Holds (Function.update nodes.key new i) N m (some new) T' ∧
      Nodes.entries ⟨m, Function.update nodes.key new i, Function.update nodes.data new data⟩ T' =
        insertEntry i data ((xs ++ ys).map nodes.entry) := by
  have hkey (a : α) (ha : a ∈ xs ++ ys) : Function.update nodes.key new i a = nodes.key a :=
    Function.update_of_ne (fun heq : a = new => hnew (heq ▸ ha)) _ _
  have hmem (a : α) : a ∈ inorder T' ↔ a = new ∨ a ∈ xs ++ ys := by
    rw [hT']
    simp only [List.mem_append, List.mem_cons]
    tauto
  refine ⟨⟨hstored, ?_, ?_, ?_⟩, ?_⟩
  · rw [hT']
    rw [Sorted, List.pairwise_append] at *
    simp only [List.mem_append] at hkey
    refine ⟨?_, ?_, ?_⟩
    · exact hsort.1.imp_of_mem fun ha hb hlt => by rwa [hkey _ (.inl ha), hkey _ (.inl hb)]
    · rw [List.pairwise_cons]
      refine ⟨fun b hb => ?_, ?_⟩
      · rw [Function.update_self, hkey b (.inr hb)]
        exact hy b hb
      · exact hsort.2.1.imp_of_mem fun ha hb hlt => by rwa [hkey _ (.inr ha), hkey _ (.inr hb)]
    · intro a ha b hb
      rw [hkey a (.inl ha)]
      rcases List.mem_cons.mp hb with rfl | hb
      · rw [Function.update_self]
        exact hx a ha
      · rw [hkey b (.inr hb)]
        exact hsort.2.2 a ha b hb
  · intro a ha
    rcases (hmem a).mp ha with rfl | ha
    · rwa [Function.update_self]
    · rw [hkey a ha]
      exact hkeys a ha
  · rw [hmem, not_or]
    exact ⟨hnN, hN⟩
  · rw [List.mem_append, not_or] at hnew
    rw [Nodes.entries, hT', List.map_append, List.map_cons, entries_update hnew.1,
      entries_update hnew.2, List.map_append, insertEntry_append]
    · simp [Nodes.entry]
    · simpa [Nodes.entry] using hx
    · simpa [Nodes.entry] using hy

theorem Holds.insert (h : Holds nodes.key N nodes.cells p T) (hi : Key i) (data : D) {new : α}
    (hnew : new ∉ inorder T) (hnN : N ≠ new) :
    ∃ nodes' p' T', Returns (fun fuel => splaytreeInsert fuel N nodes p i data new) (nodes', p') ∧
      Holds nodes'.key N nodes'.cells p' T' ∧
      nodes'.entries T' = insertEntry i data (nodes.entries T) ∧
      (i ∉ (nodes.entries T).map Prod.fst → new ∈ inorder T' ∧ nodes'.entry new = (i, data)) := by
  cases p with
  | none =>
      obtain rfl := h.stored.nil
      let m := (nodes.cells.setChild .right new none).setChild .left new none
      have hstored : Stored (m.setSize new (1 + nodeSize m (m.child .left new) +
          nodeSize m (m.child .right new))) (some new) (.node new .nil .nil) := by
        refine ⟨rfl, (Cells.setSize_size _ _ _ _).trans ((if_pos rfl).trans ?_), ?_, ?_⟩
        · simp [m, Cells.setChild_child, nodeSize, BinaryTree.numNodes]
        · simp [m, Stored, Cells.setChild_child]
        · simp [m, Stored, Cells.setChild_child]
      obtain ⟨hholds, hentries⟩ := holds_insert data
        (show Sorted nodes.key ([] ++ []) from h.sorted) h.keys h.stack hi hnew hnN (by simp)
        (by simp) hstored rfl
      exact ⟨_, some new, _, returns_const _, hholds, hentries,
        fun _ => ⟨by simp, by simp [Nodes.entry]⟩⟩
  | some t =>
      obtain ⟨m, t', l, r, hrun, hm, horder, hsplayed, -⟩ := h.splay hi
      obtain ⟨hl, hr⟩ := hm.sides
      have hkt : Key (nodes.key t') := hm.keys t' (by simp)
      have hcmp := compare_eq hi hkt
      have hnew' : new ∉ inorder (.node t' l r) := horder ▸ hnew
      have ht' : t' ∉ inorder l ∧ t' ∉ inorder r :=
        ⟨fun ha => lt_irrefl _ (hl t' ha), fun ha => lt_irrefl _ (hr t' ha)⟩
      have hchild := hm.stored
      obtain ⟨-, -, hleft, hright⟩ := hchild
      rw [show nodes.entries T = (inorder (.node t' l r)).map nodes.entry by rw [horder]; rfl]
      rcases lt_trichotomy i (nodes.key t') with hlt | heq | hgt
      · have hx : ∀ a ∈ inorder l, nodes.key a < i := by
          rcases hsplayed with heq | ⟨-, hx⟩ | ⟨hgt, -⟩
          · exact absurd heq hlt.ne
          · exact hx
          · exact absurd hgt hlt.asymm
        have hy : ∀ a ∈ t' :: inorder r, i < nodes.key a :=
          List.forall_mem_cons.mpr ⟨hlt, fun a ha => hlt.trans (hr a ha)⟩
        obtain ⟨hholds, hentries⟩ := holds_insert data hm.sorted hm.keys hm.stack hi hnew'
          hnN hx hy (plant_stored (d := .left) hleft hright hnew' ht') rfl
        refine ⟨_, some new, _, ?_, hholds, hentries,
          fun _ => ⟨by simp [mem_inorder_join], by simp [Nodes.entry]⟩⟩
        have hne : compare i (nodes.key t') ≠ 0 := by omega
        have hneg : compare i (nodes.key t') < 0 := by omega
        unfold splaytreeInsert
        refine hrun.bind ?_
        simp only [if_neg hne, if_pos hneg]
        rfl
      · have hmem : i ∈ ((inorder (.node t' l r)).map nodes.entry).map Prod.fst := by
          rw [List.map_map, List.mem_map]
          exact ⟨t', by simp, heq.symm⟩
        refine ⟨{nodes with cells := m}, some t', _, ?_, hm, ?_, fun hnot => absurd hmem hnot⟩
        · have hzero : compare i (nodes.key t') = 0 := by omega
          unfold splaytreeInsert
          refine hrun.bind ?_
          simp only [if_pos hzero]
          rfl
        · rw [insertEntry, if_pos hmem]
          rfl
      · have hy : ∀ a ∈ inorder r, i < nodes.key a := by
          rcases hsplayed with heq | ⟨hlt, -⟩ | ⟨-, hy⟩
          · exact absurd heq hgt.ne'
          · exact absurd hlt hgt.asymm
          · exact hy
        have hx : ∀ a ∈ inorder l ++ [t'], nodes.key a < i := by
          intro a ha
          rcases List.mem_append.mp ha with ha | ha
          · exact (hl a ha).trans hgt
          · exact List.mem_singleton.mp ha ▸ hgt
        have happend : inorder (.node t' l r) = (inorder l ++ [t']) ++ inorder r := by simp
        have hnew'' : new ∉ inorder (join .right t' r l) := by
          rw [inorder_node] at hnew'
          rw [mem_inorder_join]
          simp only [List.mem_append, List.mem_cons] at hnew'
          tauto
        obtain ⟨hholds, hentries⟩ := holds_insert data (happend ▸ hm.sorted)
          (happend ▸ hm.keys) (happend ▸ hm.stack) hi (happend ▸ hnew') hnN hx hy
          (plant_stored (d := .right) hright hleft hnew'' ht'.symm) (by simp [join])
        rw [happend]
        refine ⟨_, some new, _, ?_, hholds, hentries,
          fun _ => ⟨by simp [mem_inorder_join], by simp [Nodes.entry]⟩⟩
        have hne : compare i (nodes.key t') ≠ 0 := by omega
        have hneg : ¬ compare i (nodes.key t') < 0 := by omega
        unfold splaytreeInsert
        refine hrun.bind ?_
        simp only [if_neg hne, if_neg hneg]
        rfl

/-- The tree on the left of a node that has the key `i` is splayed to its last node, and takes
over the tree on the right. -/
theorem Holds.unlinkRoot (h : Holds key N m (some t) (.node t l r)) (hi : Key i) (hit : i = key t) :
    ∃ m' x T', Returns (fun fuel => unlinkRoot fuel N key m t i) (m', x) ∧
      inorder T' = inorder l ++ inorder r ∧ (x = none ∧ T' = .nil ∨
        ∃ a, x = some a ∧ Stored (m'.setSize a T'.numNodes) (some a) T') := by
  obtain ⟨hl, hr⟩ := h.sides
  obtain ⟨-, -, hleft, hright⟩ := h.stored
  cases hp : m.child .left t with
  | none =>
      rw [hp] at hleft
      obtain rfl := hleft.nil
      refine ⟨m, m.child .right t, r, ?_, rfl, ?_⟩
      · unfold SplayTree.unlinkRoot
        rw [hp]
        exact returns_const _
      · cases hq : m.child .right t with
        | none =>
            rw [hq] at hright
            exact .inl ⟨rfl, hright.nil⟩
        | some a =>
            rw [hq] at hright
            exact .inr ⟨a, rfl, hright.setSize⟩
  | some left =>
      have hsub : Holds key N m (some left) l := by
        refine ⟨hp ▸ hleft, ?_, fun a ha => h.keys a (by simp [ha]),
          fun ha => h.stack (by simp [ha])⟩
        have hsort := h.sorted
        rw [Sorted, inorder_node, List.pairwise_append] at hsort
        exact hsort.1
      obtain ⟨m', x, lx, rx, hrun, hm', horder, hsplayed, hframe⟩ := hsub.splay hi
      have hlast : ∀ a ∈ inorder (.node x lx rx), key a < i := by
        intro a ha
        rw [horder] at ha
        exact hit ▸ hl a ha
      -- every key on the left is smaller than `i`, so nothing is on the right of the last one
      have hrx : rx = .nil := by
        have hx : key x < i := hlast x (by simp)
        rcases hsplayed with heq | ⟨hlt, -⟩ | ⟨-, hbeyond⟩
        · exact absurd heq hx.ne'
        · exact absurd hlt hx.asymm
        · cases rx with
          | nil => rfl
          | node b _ _ => exact absurd (hbeyond b (by simp)) (hlast b (by simp)).asymm
      subst hrx
      have hagree (a : α) (ha : a ∉ inorder l) (hN : a ≠ N) : m.Agree m' a := hframe a ha hN
      have htl : t ∉ inorder l := fun hmem => lt_irrefl _ (hl t hmem)
      have htN : t ≠ N := fun heq => h.stack (by simp [heq])
      have hright' : Stored m' (m'.child .right t) r := by
        rw [(hagree t htl htN).1]
        apply hright.congr
        intro a ha
        apply hagree a
        · exact fun hmem => (hl a hmem).asymm (hr a ha)
        · exact fun heq => h.stack (by simp [← heq, ha])
      obtain ⟨-, -, hlx, -⟩ := hm'.stored
      have hxl : x ∈ inorder l := horder ▸ by simp
      have hxlx : x ∉ inorder lx := fun hmem => lt_irrefl _ (hm'.sides.1 x hmem)
      have hxr : x ∉ inorder r := fun hmem => (hl x hxl).asymm (hr x hmem)
      refine ⟨m'.setChild .right x (m'.child .right t), some x, .node x lx r, ?_, ?_,
        .inr ⟨x, rfl, ?_⟩⟩
      · unfold SplayTree.unlinkRoot
        rw [hp]
        exact hrun.bind rfl
      · rw [← horder]
        simp
      · have hkeep {q : Option α} {z : BinaryTree α} {n : ℤ} (hz : Stored m' q z)
            (hxz : x ∉ inorder z) :
            Stored ((m'.setChild .right x (m'.child .right t)).setSize x n) q z := by
          apply hz.congr
          intro a ha
          have hax : a ≠ x := fun heq => hxz (heq ▸ ha)
          exact (m'.agree_setChild .right _ hax).trans (Cells.agree_setSize _ _ hax)
        refine ⟨rfl, (Cells.setSize_size _ _ _ _).trans (if_pos rfl), ?_, ?_⟩
        · rw [Cells.setSize_child, Cells.setChild_of_side _ (by decide)]
          exact hkeep hlx hxlx
        · rw [Cells.setSize_child, Cells.setChild_self]
          exact hkeep hright' hxr

theorem Holds.delete (h : Holds nodes.key N nodes.cells p T) (hi : Key i) :
    ∃ nodes' p' T', Returns (fun fuel => splaytreeDelete fuel N nodes p i) (nodes', p') ∧
      Holds nodes'.key N nodes'.cells p' T' ∧
      nodes'.entries T' = deleteEntry i (nodes.entries T) := by
  cases p with
  | none =>
      obtain rfl := h.stored.nil
      exact ⟨nodes, none, .nil, returns_const _, h, rfl⟩
  | some t =>
      obtain ⟨m, t', l, r, hrun, hm, horder, hsplayed, -⟩ := h.splay hi
      obtain ⟨hl, hr⟩ := hm.sides
      have hcmp := compare_eq hi (hm.keys t' (by simp))
      have hsize : nodes.cells.size t = wrap (l.numNodes + r.numNodes + 1 : ℕ) := by
        have hlen := congrArg List.length horder
        rw [length_inorder, length_inorder, BinaryTree.numNodes] at hlen
        rw [hlen]
        exact h.stored.nodeSize
      rw [show nodes.entries T = (inorder (.node t' l r)).map nodes.entry by rw [horder]; rfl]
      by_cases hit : i = nodes.key t'
      · obtain ⟨m', x, T', hrun', horder', hx⟩ := hm.unlinkRoot hi hit
        have hzero : compare i (nodes.key t') = 0 := by omega
        have hmem (a : α) (ha : a ∈ inorder T') : a ∈ inorder (.node t' l r) := by
          rw [horder', List.mem_append] at ha
          rw [inorder_node, List.mem_append, List.mem_cons]
          tauto
        have hentries : (inorder T').map nodes.entry =
            deleteEntry i ((inorder (.node t' l r)).map nodes.entry) := by
          rw [horder', inorder_node, List.map_append, List.map_append, List.map_cons,
            show nodes.entry t' = (i, nodes.data t') from hit ▸ rfl, deleteEntry_middle]
          · simpa [Nodes.entry, hit] using hl
          · simpa [Nodes.entry, hit] using hr
        have hnumNodes : wrap T'.numNodes = wrap (nodes.cells.size t - 1) := by
          have hlen := congrArg List.length horder'
          rw [List.length_append, length_inorder, length_inorder, length_inorder] at hlen
          rw [hsize, wrap_sub_left, hlen]
          congr 1
          push_cast
          omega
        have hsort : Sorted nodes.key (inorder T') := by
          have hall := hm.sorted
          rw [Sorted, inorder_node, List.pairwise_append, List.pairwise_cons] at hall
          rw [Sorted, horder', List.pairwise_append]
          exact ⟨hall.1, hall.2.1.2, fun a ha b hb => (hl a ha).trans (hr b hb)⟩
        have hmem' (a : α) (ha : a ∈ inorder T') : a ∈ inorder T := horder ▸ hmem a ha
        rcases hx with ⟨rfl, rfl⟩ | ⟨a, rfl, hstored⟩
        · refine ⟨{nodes with cells := m'}, none, .nil, ?_, ⟨rfl, hsort, by simp, by simp⟩,
            hentries⟩
          unfold splaytreeDelete
          refine hrun.andThen ?_
          simp only [Option.bind_eq_bind, Option.bind_some, if_pos hzero]
          exact hrun'.bind rfl
        · rw [Cells.setSize, hnumNodes] at hstored
          refine ⟨{nodes with cells := m'.setSize a (nodes.cells.size t - 1)}, some a, T', ?_,
            ⟨hstored, hsort, fun b hb => h.keys b (hmem' b hb), fun hb => h.stack (hmem' N hb)⟩,
            hentries⟩
          unfold splaytreeDelete
          refine hrun.andThen ?_
          simp only [Option.bind_eq_bind, Option.bind_some, if_pos hzero]
          exact hrun'.bind rfl
      · have hne : compare i (nodes.key t') ≠ 0 := by omega
        refine ⟨{nodes with cells := m}, some t', _, ?_, hm, ?_⟩
        · unfold splaytreeDelete
          refine hrun.andThen ?_
          simp only [Option.bind_eq_bind, Option.bind_some, if_neg hne]
          exact returns_const _
        · have hall : ∀ a ∈ inorder (.node t' l r), nodes.key a ≠ i := by
            intro a ha heq
            rw [inorder_node, List.mem_append, List.mem_cons] at ha
            rcases hsplayed with hs | ⟨hlt, hs⟩ | ⟨hlt, hs⟩
            · exact hit hs
            · rcases ha with ha | rfl | ha
              · exact (hs a ha).ne heq
              · exact hit heq.symm
              · exact ((hlt.trans (hr a ha)).ne') heq
            · rcases ha with ha | rfl | ha
              · exact ((hl a ha).trans hlt).ne heq
              · exact hit heq.symm
              · exact (hs a ha).ne' heq
          symm
          apply List.filter_eq_self.mpr
          intro e he
          obtain ⟨a, ha, rfl⟩ := List.mem_map.mp he
          exact decide_eq_true (hall a ha)

end

/-- A splay for `i` brings the node of `i` to the root if there is one. -/
theorem Holds.locate {key : α → ℤ} {N : α} {m : Cells α} {p : Option α} {T : BinaryTree α} {i : ℤ}
    (h : Holds key N m p T) (hi : Key i) :
    ∃ m' p' T', Returns (fun fuel => splaytreeSplay fuel N key m p i) (m', p') ∧
      Holds key N m' p' T' ∧ inorder T' = inorder T ∧
      ((∃ t ∈ inorder T, p' = some t ∧ key t = i) ∨
        (∀ t, p' = some t → key t ≠ i) ∧ ∀ a ∈ inorder T, key a ≠ i) := by
  cases p with
  | none =>
      obtain rfl := h.stored.nil
      exact ⟨m, none, .nil, returns_const _, h, rfl, .inr ⟨nofun, by simp⟩⟩
  | some t =>
      obtain ⟨m', t', l, r, hrun, hm, horder, hsplayed, -⟩ := h.splay hi
      obtain ⟨hl, hr⟩ := hm.sides
      refine ⟨m', some t', .node t' l r, hrun, hm, horder, ?_⟩
      rw [← horder]
      by_cases hit : key t' = i
      · exact .inl ⟨t', by simp, rfl, hit⟩
      · refine .inr ⟨fun t ht => Option.some.inj ht ▸ hit, fun a ha heq => ?_⟩
        rw [inorder_node, List.mem_append, List.mem_cons] at ha
        rcases ha with ha | rfl | ha
        · have hlt : i < key t' := heq ▸ hl a ha
          rcases hsplayed with hs | ⟨-, hs⟩ | ⟨hgt, -⟩
          · exact hit hs.symm
          · exact (hs a ha).ne heq
          · exact hgt.asymm hlt
        · exact hit heq
        · have hgt : key t' < i := heq ▸ hr a ha
          rcases hsplayed with hs | ⟨hlt, -⟩ | ⟨-, hs⟩
          · exact hit hs.symm
          · exact hlt.asymm hgt
          · exact (hs a ha).ne' heq

/-- A lookup as its users write it: a splay, and a look at the key of the root. -/
def lookup (fuel : ℕ) (N : α) (nodes : Nodes α D) (t : Option α) (i : ℤ) : Option (Option D) := do
  let (_, t) ← splaytreeSplay fuel N nodes.key nodes.cells t i
  match t with
  | none => return none
  | some t => return if nodes.key t = i then some (nodes.data t) else none

omit [DecidableEq α] in
/-- In a list with its keys in order an entry is the one that a lookup finds. -/
theorem lookup_of_mem {xs : List (ℤ × D)} (hxs : xs.Pairwise fun e f => e.1 < f.1) {i : ℤ} {d : D}
    (h : (i, d) ∈ xs) : xs.lookup i = some d := by
  induction xs with
  | nil => cases h
  | cons e xs ih =>
      rw [List.pairwise_cons] at hxs
      rw [List.lookup_cons]
      rcases List.mem_cons.mp h with rfl | h
      · simp
      · have hne : (i == e.1) = false := beq_eq_false_iff_ne.mpr (hxs.1 _ h).ne'
        rw [hne]
        exact ih hxs.2 h

omit [DecidableEq α] in
theorem lookup_filter {xs : List (ℤ × D)} (hxs : xs.Pairwise fun e f => e.1 < f.1) (p : D → Bool)
    (i : ℤ) : (xs.filter fun e => p e.2).lookup i = (xs.lookup i).filter p := by
  cases hlookup : xs.lookup i with
  | none =>
      rw [List.lookup_eq_none_iff] at hlookup
      exact List.lookup_eq_none_iff.mpr fun e he => hlookup e (List.mem_of_mem_filter he)
  | some d =>
      have hmem : (i, d) ∈ xs := by
        obtain ⟨ys, zs, rfl, -⟩ := List.lookup_eq_some_iff.mp hlookup
        simp
      cases hp : p d with
      | true =>
          rw [lookup_of_mem (hxs.filter _) (List.mem_filter.mpr ⟨hmem, hp⟩)]
          rw [Option.filter_some, if_pos hp]
      | false =>
          rw [Option.filter_some, hp, if_neg Bool.false_ne_true, List.lookup_eq_none_iff]
          intro e he
          rw [List.mem_filter] at he
          apply bne_iff_ne.mpr
          rintro rfl
          have hd := lookup_of_mem hxs (show (e.1, e.2) ∈ xs from he.1)
          rw [Option.some.inj (hd.symm.trans hlookup), hp] at he
          exact Bool.false_ne_true he.2

omit [DecidableEq α] in
/-- A deletion of an entry makes the list shorter by one. -/
theorem length_deleteEntry {xs : List (ℤ × D)} (hxs : xs.Pairwise fun e f => e.1 < f.1) {i : ℤ}
    {d : D} (h : (i, d) ∈ xs) : (deleteEntry i xs).length + 1 = xs.length := by
  obtain ⟨ys, zs, rfl⟩ := List.append_of_mem h
  rw [List.pairwise_append, List.pairwise_cons] at hxs
  rw [deleteEntry_middle]
  · simp only [List.length_append, List.length_cons]
    omega
  · exact fun e he => hxs.2.2 e he (i, d) (by simp)
  · exact hxs.2.1.1

omit [DecidableEq α] in
theorem Holds.entries_sorted {nodes : Nodes α D} {N : α} {p : Option α} {T : BinaryTree α}
    (h : Holds nodes.key N nodes.cells p T) :
    (nodes.entries T).Pairwise fun e f => e.1 < f.1 := List.pairwise_map.mpr h.sorted

omit [DecidableEq α] in
theorem Holds.key_inj {key : α → ℤ} {N : α} {m : Cells α} {p : Option α} {T : BinaryTree α}
    (h : Holds key N m p T) {a b : α} (ha : a ∈ inorder T) (hb : b ∈ inorder T)
    (heq : key a = key b) : a = b := by
  have hnodup : ((inorder T).map key).Nodup :=
    (List.pairwise_map.mpr h.sorted).imp fun hlt heq => hlt.ne heq
  exact List.inj_on_of_nodup_map hnodup ha hb heq

/-- A lookup finds what is in the list of the entries. -/
theorem Holds.lookup {nodes : Nodes α D} {N : α} {p : Option α} {T : BinaryTree α} {i : ℤ}
    (h : Holds nodes.key N nodes.cells p T) (hi : Key i) :
    Returns (fun fuel => SplayTree.lookup fuel N nodes p i) ((nodes.entries T).lookup i) := by
  obtain ⟨m, p', T', hrun, -, -, hcases⟩ := h.locate hi
  refine hrun.bind ?_
  rcases hcases with ⟨t, ht, rfl, hit⟩ | ⟨hroot, hnot⟩
  · have hmem : (i, nodes.data t) ∈ nodes.entries T := List.mem_map.mpr ⟨t, ht, hit ▸ rfl⟩
    simp only [if_pos hit]
    exact congrArg some (lookup_of_mem h.entries_sorted hmem).symm
  · have hnone : (nodes.entries T).lookup i = none := by
      rw [List.lookup_eq_none_iff]
      intro e he
      obtain ⟨a, ha, rfl⟩ := List.mem_map.mp he
      simpa [Nodes.entry] using (hnot a ha).symm
    rw [hnone]
    cases p' with
    | none => rfl
    | some t => exact congrArg some (if_neg (hroot t rfl))

/-- A tree in use, with the entries that the operations on it should have left. -/
structure Tree (α D : Type) where
  nodes : Nodes α D
  root : Option α
  entries : List (ℤ × D)

inductive Op (α D : Type) where
  | insert (i : ℤ) (data : D) (new : α)
  | delete (i : ℤ)
  | splay (i : ℤ)

def Op.key : Op α D → ℤ
  | .insert i _ _ => i
  | .delete i => i
  | .splay i => i

def operate (N : α) (s : Tree α D) : ℕ × Op α D → Option (Tree α D)
  | (fuel, .insert i data new) => do
      let (nodes, root) ← splaytreeInsert fuel N s.nodes s.root i data new
      return ⟨nodes, root, insertEntry i data s.entries⟩
  | (fuel, .delete i) => do
      let (nodes, root) ← splaytreeDelete fuel N s.nodes s.root i
      return ⟨nodes, root, deleteEntry i s.entries⟩
  | (fuel, .splay i) => do
      let (cells, root) ← splaytreeSplay fuel N s.nodes.key s.nodes.cells s.root i
      return ⟨{s.nodes with cells := cells}, root, s.entries⟩

/-- The keys are hashes without their highest bit, and `malloc` gives no node of the tree. -/
def Proper (N : α) (s : Tree α D) (op : Op α D) : Prop :=
  Key op.key ∧ ∀ i data new, op = .insert i data new →
    N ≠ new ∧ ∀ T, Stored s.nodes.cells s.root T → new ∉ inorder T

def empty (nodes : Nodes α D) : Tree α D := ⟨nodes, none, []⟩

def Content (N : α) (s : Tree α D) : Prop :=
  ∃ T, Holds s.nodes.key N s.nodes.cells s.root T ∧ s.nodes.entries T = s.entries

theorem Content.operate {N : α} {s : Tree α D} (h : Content N s) {op : Op α D}
    (hop : Proper N s op) :
    ∃ s', Returns (fun fuel => SplayTree.operate N s (fuel, op)) s' ∧ Content N s' := by
  obtain ⟨T, hT, hentries⟩ := h
  obtain ⟨hi, hnew⟩ := hop
  cases op with
  | insert i data new =>
      obtain ⟨hN, hfresh⟩ := hnew i data new rfl
      obtain ⟨nodes', p', T', hrun, hT', hentries', -⟩ := hT.insert hi data (hfresh T hT.stored) hN
      exact ⟨_, hrun.bind rfl, T', hT', hentries'.trans (congrArg _ hentries)⟩
  | delete i =>
      obtain ⟨nodes', p', T', hrun, hT', hentries'⟩ := hT.delete hi
      exact ⟨_, hrun.bind rfl, T', hT', hentries'.trans (congrArg _ hentries)⟩
  | splay i =>
      obtain ⟨m, p', T', hrun, hT', horder, -⟩ := hT.locate hi
      refine ⟨⟨{s.nodes with cells := m}, p', s.entries⟩, hrun.bind rfl, T', hT', ?_⟩
      rw [← hentries, Nodes.entries, horder]
      rfl

theorem settles_splay (N : α) (key : α → ℤ) (m : Cells α) (p : Option α) (i : ℤ) :
    Settles fun fuel => splaytreeSplay fuel N key m p i := by
  cases p with
  | none => exact settles_const _
  | some t =>
      apply (settles_run _).andThen
      intro s
      refine Settles.andThen ?_ fun _ => settles_const _
      apply (settles_run _).andThen
      exact fun _ => (settles_run _).andThen fun _ => settles_const _

theorem settles_unlinkRoot (N : α) (key : α → ℤ) (m : Cells α) (t : α) (i : ℤ) :
    Settles fun fuel => unlinkRoot fuel N key m t i := by
  unfold unlinkRoot
  cases m.child .left t with
  | none => exact settles_const _
  | some left => exact (settles_splay N key m (some left) i).andThen fun _ => settles_const _

theorem settles_delete (N : α) (nodes : Nodes α D) (p : Option α) (i : ℤ) :
    Settles fun fuel => splaytreeDelete fuel N nodes p i := by
  cases p with
  | none => exact settles_const _
  | some t =>
      apply (settles_splay N nodes.key nodes.cells (some t) i).andThen
      rintro ⟨m, t'⟩
      cases t' with
      | none => exact settles_const _
      | some t' =>
          simp only [Option.bind_eq_bind, Option.bind_some]
          by_cases hit : compare i (nodes.key t') = 0
          · simp only [if_pos hit]
            exact (settles_unlinkRoot N nodes.key m t' i).andThen fun _ => settles_const _
          · simp only [if_neg hit]
            exact settles_const _

theorem settles_insert (N : α) (nodes : Nodes α D) (p : Option α) (i : ℤ) (data : D) (new : α) :
    Settles fun fuel => splaytreeInsert fuel N nodes p i data new :=
  (settles_splay N nodes.key nodes.cells p i).andThen fun _ => settles_const _

omit [DecidableEq α] in
theorem Content.nodeSize {N : α} {s : Tree α D} (h : Content N s) :
    nodeSize s.nodes.cells s.root = wrap s.entries.length := by
  obtain ⟨T, hT, hentries⟩ := h
  rw [hT.stored.nodeSize, ← hentries, Nodes.entries, List.length_map, length_inorder]

omit [DecidableEq α] in
theorem Content.sorted {N : α} {s : Tree α D} (h : Content N s) :
    s.entries.Pairwise fun e f => e.1 < f.1 := by
  obtain ⟨T, hT, hentries⟩ := h
  exact hentries ▸ hT.entries_sorted

end EmbeddedCode.SplayTree
