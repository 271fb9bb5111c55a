import EmbeddedCode.BTree.Build

/-!
# Deletion keeps the tree stored

The deleted node is split off as the root of a subtree at the end of a path. For
a node with two children the last node of its left subtree is taken out first,
along a longer path, and then replaces the deleted node. In each case the links
change below one path and at its hole.
-/
namespace EmbeddedCode.BTree

open LinkedTree LinkedTree.Path Loop

variable {α : Type} [DecidableEq α]

/-- The position of the hole of a path, as `del_node` finds it. -/
def idOf : Path α → EId
  | [] => .root
  | .left _ _ :: _ => .lchild
  | .right _ _ :: _ => .rchild

omit [DecidableEq α] in
theorem lchild_ne_of_right {node : Links α} {root q : Option α} {l : BinaryTree α} {a n : α}
    {c : Path α} (h : RepPath node root (.right l a :: c) q (some n))
    (hn : n ∉ before (.right l a :: c)) : node.lchild a ≠ some n := by
  intro he
  obtain ⟨_, _, hl, _⟩ := h
  rw [he] at hl
  exact hn (by simp [hl.root_mem])

theorem identify_path {node : Links α} {root q : Option α} {c : Path α} {n : α}
    (h : RepPath node root c q (some n)) (hq : node.parent n = q) (hn : n ∉ before c) :
    identify node n = some (idOf c) := by
  cases c with
  | nil => simp [identify, hq, h.1, idOf]
  | cons x c =>
      cases x with
      | left a r => simp [identify, hq, h.1, h.2.1, idOf]
      | right l a =>
          have hne := lchild_ne_of_right h hn
          simp [identify, hq, h.1, h.2.1, hne, idOf]

/-- The `switch (id)` fills the hole of the path. -/
theorem relink_path {t : Btree α} {root q : Option α} {m : Links α} {c : Path α} {n : α}
    {p : Option α} (h : RepPath m root c q p) (hq : t.node.parent n = q) (next : Option α) :
    relink t (idOf c) n next =
      some ⟨(fillHole t.node t.root c next).2, (fillHole t.node t.root c next).1⟩ := by
  cases c with
  | nil => rfl
  | cons x c => cases x <;> simp [relink, idOf, hq, h.1, fillHole]

theorem unlink_path {node : Links α} {root q : Option α} {x : Crumb α} {c : Path α} {n : α}
    (h : RepPath node root (x :: c) q (some n)) (hn : n ∉ before (x :: c)) (next : Option α) :
    ∃ parent, q = some parent ∧
      (if node.lchild parent = some n then node.setLchild parent next
        else node.setRchild parent next) = (fillHole node root (x :: c) next).1 ∧
      (fillHole node root (x :: c) next).2 = root := by
  cases x with
  | left a r => exact ⟨a, h.1, by simp [fillHole, h.2.1], rfl⟩
  | right l a => exact ⟨a, h.1, by simp [fillHole, lchild_ne_of_right h hn], rfl⟩

theorem setChildParent_agree (node : Links α) (child parent : Option α) {a : α}
    (h : child ≠ some a) : node.Agree (setChildParent node child parent) a := by
  cases child with
  | none => exact ⟨rfl, rfl, rfl⟩
  | some c =>
      have : a ≠ c := by rintro rfl; exact h rfl
      exact ⟨by simp [setChildParent, this], rfl, rfl⟩

theorem setChildParent_rep {node : Links α} {q p : Option α} {T : BinaryTree α}
    (h : Rep node q p T) (hn : (inorder T).Nodup) (q' : Option α) :
    Rep (setChildParent node p q') q' p T := by
  cases p with
  | none =>
      rw [rep_none h]
      rfl
  | some a => exact h.reparent hn q'

@[simp] theorem setChildParent_lchild (node : Links α) (child parent : Option α) :
    (setChildParent node child parent).lchild = node.lchild := by
  cases child <;> rfl

@[simp] theorem setChildParent_rchild (node : Links α) (child parent : Option α) :
    (setChildParent node child parent).rchild = node.rchild := by
  cases child <;> rfl

omit [DecidableEq α] in
/-- Walking right from the root of a stored subtree ends at its last node, which
has no right child; the path down to it takes no left turn. -/
theorem lastTurn_path {node : Links α} {root : Option α} {T : BinaryTree α} {c : Path α}
    {q : Option α} {a : α} (hp : RepPath node root c q (some a)) (hT : Rep node q (some a) T)
    {fuel : ℕ} (hf : T.numNodes ≤ fuel) :
    ∃ (d : Path α) (cur : α) (S : BinaryTree α) (q' : Option α),
      run (lastTurn node.rchild) fuel a = some cur ∧ T = plug d (.node cur S .nil) ∧
      after d = [] ∧ RepPath node root (d ++ c) q' (some cur) ∧
      Rep node q' (some cur) (.node cur S .nil) := by
  induction T generalizing c q a fuel with
  | nil => cases hT
  | node b l r _ ihr =>
      simp only [BinaryTree.numNodes] at hf
      obtain ⟨fuel, rfl⟩ : ∃ n, fuel = n + 1 := ⟨fuel - 1, by omega⟩
      obtain ⟨hb, hq, hl, hr⟩ := hT
      cases hb
      cases hc : node.rchild b with
      | none =>
          rw [hc] at hr
          rw [rep_none hr]
          exact ⟨[], b, l, q, run_leave (by simp [lastTurn, hc]) fuel, rfl, rfl, hp,
            rfl, hq, hl, hc⟩
      | some x =>
          rw [hc] at hr
          have hp' : RepPath node root (.right l b :: c) (some b) (some x) :=
            ⟨rfl, hc, hl, hq ▸ hp⟩
          obtain ⟨d, cur, S, q', hrun, hT, hd, hpath, hrep⟩ :=
            ihr hp' hr (show _ ≤ fuel by omega)
          refine ⟨d ++ [.right l b], cur, S, q', ?_, ?_, ?_, by simpa using hpath, hrep⟩
          · rw [run_again (t := x) (by simp [lastTurn, hc]), hrun]
          · rw [plug_append, ← hT]
            rfl
          · rw [after_append, hd]
            rfl

theorem takeLast_path {node : Links α} {root : Option α} {x : Crumb α} {c : Path α} {q : Option α}
    {a : α} {T : BinaryTree α} (hp : RepPath node root (x :: c) q (some a))
    (hT : Rep node q (some a) T) (hn : (inorder (plug (x :: c) T)).Nodup) {fuel : ℕ}
    (hf : T.numNodes ≤ fuel) :
    ∃ cur S m, takeLast fuel node a = some (cur, m) ∧ inorder T = inorder S ++ [cur] ∧
      Rep m none root (plug (x :: c) S) := by
  obtain ⟨d, cur, S, q', hrun, rfl, hd, hpath, _, hq, hS, _⟩ := lastTurn_path hp hT hf
  obtain ⟨y, e, he⟩ : ∃ y e, d ++ x :: c = y :: e := by cases d <;> simp
  rw [← plug_append, he, inorder_plug] at hn
  rw [he] at hpath
  have hnd : (before (y :: e) ++ after (y :: e)).Nodup ∧ cur ∉ before (y :: e) ++ after (y :: e) ∧
      (inorder S).Nodup ∧ ∀ b ∈ inorder S, b ∉ before (y :: e) ++ after (y :: e) := by
    simp only [inorder_node, inorder_nil, List.nodup_append, List.mem_append,
      List.nodup_cons] at hn ⊢
    grind
  obtain ⟨hye, hcur, hSn, hSd⟩ := hnd
  obtain ⟨parent, hparent, hm, hroot⟩ := unlink_path hpath
    (fun h => hcur (List.mem_append_left _ h)) (node.lchild cur)
  have hag := fillHole_agree node root (y :: e) (node.lchild cur) hcur
  have hfill := hpath.fill hye (node.lchild cur)
  have hSm := hS.congr fun b hb => fillHole_agree node root (y :: e) (node.lchild cur) (hSd b hb)
  rw [hroot] at hfill
  generalize (fillHole node root (y :: e) (node.lchild cur)).1 = m at hm hag hfill hSm
  refine ⟨cur, plug d S, setChildParent m (node.lchild cur) q', ?_, ?_, ?_⟩
  · rw [hparent] at hq
    simp [takeLast, hrun, hq, hm, hag.1, hag.2.1, hparent]
  · simp [inorder_plug, hd]
  · rw [← plug_append, he]
    refine rep_plug.mpr ⟨q', node.lchild cur, hfill.congr fun b hb => ?_,
      setChildParent_rep hSm hSn q'⟩
    exact setChildParent_agree _ _ _ (hS.root_ne fun h => hSd b h (List.mem_append.mpr hb))

section Inherit
variable {node : Links α} {cur n : α}

def copyLinks (node : Links α) (cur n : α) : Links α :=
  ((node.setParent cur (node.parent n)).setLchild cur (node.lchild n)).setRchild cur (node.rchild n)

theorem inherit_eq : inherit node cur n =
    setChildParent (setChildParent (copyLinks node cur n) (node.lchild n) (some cur))
      (node.rchild n) (some cur) := by
  simp [inherit, copyLinks]

theorem copyLinks_agree {b : α} (h : b ≠ cur) : node.Agree (copyLinks node cur n) b := by
  simp [Links.Agree, copyLinks, h]

theorem inherit_agree {b : α} (h : b ≠ cur) (hl : node.lchild n ≠ some b)
    (hr : node.rchild n ≠ some b) : node.Agree (inherit node cur n) b := by
  rw [inherit_eq]
  exact ((copyLinks_agree h).trans (setChildParent_agree _ _ _ hl)).trans
    (setChildParent_agree _ _ _ hr)

theorem inherit_cell (hl : node.lchild n ≠ some cur) (hr : node.rchild n ≠ some cur) :
    (inherit node cur n).parent cur = node.parent n ∧
      (inherit node cur n).lchild cur = node.lchild n ∧
      (inherit node cur n).rchild cur = node.rchild n := by
  rw [inherit_eq]
  obtain ⟨hp, hl', hr'⟩ := (setChildParent_agree (copyLinks node cur n) _ (some cur) hl).trans
    (setChildParent_agree _ _ (some cur) hr)
  exact ⟨hp.trans (by simp [copyLinks]), hl'.trans (by simp [copyLinks]),
    hr'.trans (by simp [copyLinks])⟩

variable {l r : BinaryTree α}

theorem inherit_left (h : Rep node (some n) (node.lchild n) l) (hn : (inorder l).Nodup)
    (hcur : cur ∉ inorder l) (hr : ∀ b ∈ inorder l, node.rchild n ≠ some b) :
    Rep (inherit node cur n) (some cur) (node.lchild n) l := by
  rw [inherit_eq]
  have hcopy := h.congr fun b hb => copyLinks_agree (n := n) (ne_of_mem_of_not_mem hb hcur)
  exact (setChildParent_rep hcopy hn (some cur)).congr fun b hb =>
    setChildParent_agree _ _ _ (hr b hb)

theorem inherit_right (h : Rep node (some n) (node.rchild n) r) (hn : (inorder r).Nodup)
    (hcur : cur ∉ inorder r) (hl : ∀ b ∈ inorder r, node.lchild n ≠ some b) :
    Rep (inherit node cur n) (some cur) (node.rchild n) r := by
  rw [inherit_eq]
  have hcopy := h.congr fun b hb => copyLinks_agree (n := n) (ne_of_mem_of_not_mem hb hcur)
  exact setChildParent_rep (hcopy.congr fun b hb => setChildParent_agree _ _ _ (hl b hb)) hn
    (some cur)

end Inherit

/-- A node outside the tree takes the place of a stored node. -/
theorem inherit_path {node : Links α} {root : Option α} {c : Path α} {n cur : α}
    {l r : BinaryTree α} (h : Rep node none root (plug c (.node n l r)))
    (hn : (inorder (plug c (.node n l r))).Nodup) (hcur : cur ∉ inorder (plug c (.node n l r))) :
    ∃ t', relink ⟨root, node⟩ (idOf c) n (some cur) = some t' ∧
      Stored ⟨t'.root, bnodeInit (inherit t'.node cur n) n⟩ (plug c (.node cur l r)) := by
  obtain ⟨q, p, hpath, rfl, hq, hl, hr⟩ := rep_plug.mp h
  rw [inorder_plug] at hn hcur
  simp only [inorder_node, List.nodup_append, List.mem_append, List.nodup_cons, List.mem_cons,
    not_or] at hn hcur
  have hcn : (before c ++ after c).Nodup := by
    simp only [List.nodup_append]
    grind
  have hfill := hpath.fill hcn (some cur)
  have hrel := relink_path (t := ⟨root, node⟩) hpath hq (some cur)
  have hagree : ∀ b, b = n ∨ b ∈ inorder l ∨ b ∈ inorder r →
      node.Agree (fillHole node root c (some cur)).1 b := fun b hb =>
    fillHole_agree _ _ _ _ (by simp only [List.mem_append]; grind)
  obtain ⟨hnp, hnl, hnr⟩ := hagree n (.inl rfl)
  have hl' := hl.congr fun b hb => hagree b (.inr (.inl hb))
  have hr' := hr.congr fun b hb => hagree b (.inr (.inr hb))
  have hne : n ≠ cur := fun he => hcur.2.1.2.1 he.symm
  have hlb : ∀ b, b ∉ inorder l → node.lchild n ≠ some b := fun b => hl.root_ne
  have hrb : ∀ b, b ∉ inorder r → node.rchild n ≠ some b := fun b => hr.root_ne
  refine ⟨_, hrel, rep_plug.mpr ?_⟩
  simp only
  generalize (fillHole node root c (some cur)).1 = m at *
  generalize (fillHole node root c (some cur)).2 = root' at *
  rw [← hnl] at hl' hlb
  rw [← hnr] at hr' hrb
  obtain ⟨hcp, hcl, hcr⟩ := inherit_cell (hlb cur (by grind)) (hrb cur (by grind))
  refine ⟨q, some cur, hfill.congr fun b hb => ?_, rfl, ?_, ?_, ?_⟩
  · exact (inherit_agree (by grind) (hlb b (by grind)) (hrb b (by grind))).trans
      (bnodeInit_agree _ (by grind))
  · rw [(bnodeInit_agree _ hne.symm).1, hcp, hnp, hq]
  · rw [(bnodeInit_agree _ hne.symm).2.1, hcl]
    exact (inherit_left hl' (by grind) (by grind) fun b hb => hrb b (by grind)).congr fun b hb =>
      bnodeInit_agree _ (by grind)
  · rw [(bnodeInit_agree _ hne.symm).2.2, hcr]
    exact (inherit_right hr' (by grind) (by grind) fun b hb => hlb b (by grind)).congr fun b hb =>
      bnodeInit_agree _ (by grind)

section Cases
variable {t : Btree α} {c : Path α} {q : Option α} {n : α}
  (hpath : RepPath t.node t.root c q (some n)) (hq : t.node.parent n = q)
include hpath hq

theorem delLeaf_path (hn : (before c ++ n :: after c).Nodup) :
    ∃ t', delLeaf t (idOf c) n = some t' ∧
      Stored ⟨t'.root, bnodeInit t'.node n⟩ (plug c .nil) := by
  have hnot : n ∉ before c ++ after c := (List.nodup_middle.mp hn).notMem
  have hfill := hpath.fill (List.nodup_middle.mp hn).of_cons none
  have hrel := relink_path hpath hq none
  have keep : ∀ m : Links α, (∀ b, b ≠ n → (fillHole t.node t.root c none).1.Agree m b) →
      Stored ⟨(fillHole t.node t.root c none).2, m⟩ (plug c .nil) := fun m hm =>
    rep_plug.mpr ⟨q, none, hfill.congr fun b hb => hm b (by
      rintro rfl
      exact hnot (List.mem_append.mpr hb)), rfl⟩
  cases hid : idOf c with
  | root =>
      refine ⟨_, by simp only [delLeaf, ← hid, hrel]; rfl, keep _ fun b hb => ?_⟩
      exact bnodeInit_agree _ hb
  | lchild =>
      refine ⟨_, by simp only [delLeaf, ← hid, hrel]; rfl, keep _ fun b hb => ?_⟩
      simp [Links.Agree, bnodeInit, hb]
  | rchild =>
      refine ⟨_, by simp only [delLeaf, ← hid, hrel]; rfl, keep _ fun b hb => ?_⟩
      simp [Links.Agree, bnodeInit, hb]

theorem delSingle_path {child : α} {S : BinaryTree α} (hS : Rep t.node (some n) (some child) S)
    (hn : (before c ++ (inorder S ++ n :: after c)).Nodup) :
    ∃ t', delSingle t (idOf c) n child = some t' ∧
      Stored ⟨t'.root, bnodeInit t'.node n⟩ (plug c S) := by
  have hd : (n :: (inorder S ++ (before c ++ after c))).Nodup := by
    simp only [List.nodup_append, List.nodup_cons, List.mem_append, List.mem_cons] at hn ⊢
    grind
  obtain ⟨hnot, hd⟩ := List.nodup_cons.mp hd
  obtain ⟨hSn, hcn, hdis⟩ := List.nodup_append.mp hd
  have hchild : child ∉ before c ++ after c := fun hc => hdis child hS.root_mem child hc rfl
  let m := t.node.setParent child q
  have hm : m.parent n = q := by
    have : n ≠ child := by
      rintro rfl
      exact hnot (by simp [hS.root_mem])
    simp [m, this, hq]
  have hpath' : RepPath m t.root c q (some n) := hpath.congr fun b hb => by
    have : b ≠ child := by
      rintro rfl
      exact hchild (List.mem_append.mpr hb)
    exact ⟨by simp [m, this], rfl, rfl⟩
  have hfill := hpath'.fill hcn (some child)
  have hrel := relink_path (t := ⟨t.root, m⟩) hpath' hm (some child)
  have hSm : Rep (fillHole m t.root c (some child)).1 q (some child) S :=
    (hS.reparent hSn q).congr fun b hb => fillHole_agree _ _ _ _ fun hc => hdis b hb b hc rfl
  have keep : ∀ m' : Links α, (∀ b, b ≠ n → (fillHole m t.root c (some child)).1.Agree m' b) →
      Stored ⟨(fillHole m t.root c (some child)).2, m'⟩ (plug c S) := fun m' hm' =>
    rep_plug.mpr ⟨q, some child,
      hfill.congr fun b hb => hm' b (by
        rintro rfl
        exact hnot (List.mem_append.mpr (.inr (List.mem_append.mpr hb)))),
      hSm.congr fun b hb => hm' b (by
        rintro rfl
        exact hnot (List.mem_append_left _ hb))⟩
  have hroot : idOf c = .root → q = none := by
    cases c with
    | nil => exact fun _ => hpath.1
    | cons x c => cases x <;> simp [idOf]
  cases hid : idOf c with
  | root =>
      have hq0 := hroot hid
      refine ⟨⟨_, (fillHole m t.root c (some child)).1⟩, ?_,
        keep _ fun b hb => bnodeInit_agree _ hb⟩
      rw [hid] at hrel
      simpa only [delSingle, m, hq0] using hrel
  | lchild | rchild =>
      rw [hid] at hrel
      refine ⟨⟨_, bnodeInit (fillHole m t.root c (some child)).1 n⟩, ?_, keep _ fun b hb => ?_⟩
      · simp only [delSingle, hq]
        rw [hrel]
        rfl
      · simp [Links.Agree, bnodeInit, hb]

theorem delDouble_path {lchild : α} {l r : BinaryTree α}
    (hl : Rep t.node (some n) (some lchild) l) (hlc : t.node.lchild n = some lchild)
    (hr : Rep t.node (some n) (t.node.rchild n) r)
    (hn : (inorder (plug c (.node n l r))).Nodup) {fuel : ℕ} (hf : l.numNodes ≤ fuel) :
    ∃ t' S, delDouble fuel t (idOf c) n lchild = some t' ∧
      Stored ⟨t'.root, bnodeInit t'.node n⟩ (plug c S) ∧ inorder S = inorder l ++ inorder r := by
  have hpath' : RepPath t.node t.root (.left n r :: c) (some n) (some lchild) :=
    ⟨rfl, hlc, hr, hq ▸ hpath⟩
  obtain ⟨cur, l', m, htake, hin, hrep⟩ := takeLast_path hpath' hl hn hf
  have hS : inorder (.node cur l' r) = inorder l ++ inorder r := by simp [hin]
  have hn' : (before c ++ ((inorder l' ++ cur :: n :: inorder r) ++ after c)).Nodup := by
    simpa only [inorder_plug, inorder_node, hin, List.append_assoc, List.singleton_append] using hn
  have hnd : (inorder (plug c (.node n l' r))).Nodup ∧ cur ∉ inorder (plug c (.node n l' r)) := by
    simp only [inorder_plug, inorder_node, List.nodup_append, List.mem_append, List.nodup_cons,
      List.mem_cons] at hn' ⊢
    grind
  obtain ⟨t', hrel, hst⟩ := inherit_path hrep hnd.1 hnd.2
  exact ⟨⟨t'.root, inherit t'.node cur n⟩, _, by simp [delDouble, htake, hrel], hst, hS⟩

end Cases

theorem delNode_spec {t : Btree α} {T : BinaryTree α} (ht : Stored t T) (hn : (inorder T).Nodup)
    {bnode : α} (hb : bnode ∈ inorder T) {fuel : ℕ} (hf : T.numNodes ≤ fuel) :
    ∃ t' T' xs ys, delNode fuel t bnode = some t' ∧ Stored t' T' ∧ Fresh t'.node bnode ∧
      inorder T = xs ++ bnode :: ys ∧ inorder T' = xs ++ ys := by
  obtain ⟨c, l, r, rfl⟩ := exists_path hb
  obtain ⟨q, p, hpath, rfl, hq, hl, hr⟩ := rep_plug.mp ht
  have hid : identify t.node bnode = some (idOf c) := by
    refine identify_path hpath hq fun h => ?_
    simp only [inorder_plug, inorder_node, List.nodup_append] at hn
    exact hn.2.2 _ h _ (by simp) rfl
  suffices H : ∃ (t' : Btree α) (S : BinaryTree α),
      delNode fuel t bnode = some ⟨t'.root, bnodeInit t'.node bnode⟩ ∧
      Stored ⟨t'.root, bnodeInit t'.node bnode⟩ (plug c S) ∧
      inorder S = inorder l ++ inorder r by
    obtain ⟨t', S, hdel, hst, hS⟩ := H
    exact ⟨_, _, before c ++ inorder l, inorder r ++ after c, hdel, hst, bnodeInit_fresh _ _,
      by simp [inorder_plug], by simp [inorder_plug, hS]⟩
  have hf' : l.numNodes ≤ fuel := by
    have := congrArg List.length (inorder_plug c (.node bnode l r))
    simp only [length_inorder, List.length_append, BinaryTree.numNodes] at this
    omega
  rw [inorder_plug] at hn
  cases hlc : t.node.lchild bnode with
  | none =>
      rw [hlc] at hl
      obtain rfl := rep_none hl
      cases hrc : t.node.rchild bnode with
      | none =>
          rw [hrc] at hr
          obtain rfl := rep_none hr
          obtain ⟨t', hdel, hst⟩ := delLeaf_path hpath hq (by simpa using hn)
          exact ⟨t', .nil, by simp [delNode, hid, hlc, hrc, hdel], hst, rfl⟩
      | some child =>
          rw [hrc] at hr
          obtain ⟨t', hdel, hst⟩ := delSingle_path hpath hq hr (by
            simp only [inorder_node, inorder_nil, List.nodup_append, List.nodup_cons] at hn ⊢
            grind)
          exact ⟨t', r, by simp [delNode, hid, hlc, hrc, hdel], hst, by simp⟩
  | some lchild =>
      rw [hlc] at hl
      cases hrc : t.node.rchild bnode with
      | none =>
          rw [hrc] at hr
          obtain rfl := rep_none hr
          obtain ⟨t', hdel, hst⟩ := delSingle_path hpath hq hl (by simpa using hn)
          exact ⟨t', l, by simp [delNode, hid, hlc, hrc, hdel], hst, by simp⟩
      | some rchild =>
          obtain ⟨t', S, hdel, hst, hS⟩ := delDouble_path hpath hq hl hlc hr
            (by rwa [inorder_plug]) hf'
          exact ⟨t', S, by simp [delNode, hid, hlc, hrc, hdel], hst, hS⟩

theorem delDouble_returns {t t' : Btree α} {id : EId} {bnode lchild : α} {fuel : ℕ}
    (h : delDouble fuel t id bnode lchild = some t') :
    Returns (fun fuel => delDouble fuel t id bnode lchild) t' := by
  obtain ⟨⟨cur, m⟩, htake, hg⟩ := Option.bind_eq_some_iff.mp h
  obtain ⟨x, hx, hg'⟩ := Option.bind_eq_some_iff.mp htake
  exact ((run_returns hx).bind hg').bind hg

theorem delNode_returns {t t' : Btree α} {bnode : α} {fuel : ℕ}
    (h : delNode fuel t bnode = some t') : Returns (fun fuel => delNode fuel t bnode) t' := by
  obtain ⟨id, hid, h⟩ := Option.bind_eq_some_iff.mp h
  cases hl : t.node.lchild bnode with
  | none => exact ⟨0, fun more _ => by
      cases hr : t.node.rchild bnode <;> simp_all [delNode]⟩
  | some lchild =>
      cases hr : t.node.rchild bnode with
      | none => exact ⟨0, fun more _ => by simp_all [delNode]⟩
      | some rchild =>
          simp only [hl, hr] at h
          obtain ⟨t₁, ht₁, h⟩ := Option.bind_eq_some_iff.mp h
          obtain ⟨n, hn⟩ := delDouble_returns ht₁
          exact ⟨n, fun more hm => by simp [delNode, hid, hl, hr, hn more hm, ← h]⟩

end EmbeddedCode.BTree
