import EmbeddedCode.BTree.Model
import EmbeddedCode.Library.SearchTree

/-!
# Insertion keeps the tree stored and sorted

`Stored t T` ties the memory to a mathematical tree. The loop of `build_tree` walks down
a path of that tree and hangs the new node into the hole at its end, where the insertion
into the mathematical tree puts it. That holds for every comparator; one that is an
order keeps the tree sorted.
-/
namespace EmbeddedCode.BTree

open LinkedTree LinkedTree.Path Loop SearchTree

variable {α : Type}

/-- What the tree needs of a comparator of nodes. Equal nodes may be different
addresses with the same key. -/
structure Comparator (cmp : α → α → ℤ) : Prop where
  antisymm : ∀ a b, cmp a b < 0 ↔ 0 < cmp b a
  trans : ∀ a b c, cmp a b < 0 → cmp b c < 0 → cmp a c < 0

namespace Comparator

variable {cmp : α → α → ℤ}

theorem irrefl (hc : Comparator cmp) (a : α) : ¬ cmp a a < 0 := by
  intro h
  have := (hc.antisymm a a).mp h
  omega

end Comparator

def Sorted (cmp : α → α → ℤ) (xs : List α) : Prop := xs.Pairwise fun a b => cmp a b < 0

theorem Sorted.nodup {cmp : α → α → ℤ} (hc : Comparator cmp) {xs : List α} (h : Sorted cmp xs) :
    xs.Nodup :=
  List.Pairwise.imp (fun hab => by rintro rfl; exact hc.irrefl _ hab) h

theorem Sorted.sublist {cmp : α → α → ℤ} {xs ys : List α} (h : Sorted cmp ys)
    (hs : xs.Sublist ys) : Sorted cmp xs := List.Pairwise.sublist hs h

/-- A node whose three pointers are NULL. -/
def Fresh (node : Links α) (bnode : α) : Prop :=
  node.parent bnode = none ∧ node.lchild bnode = none ∧ node.rchild bnode = none

/-- The tree object holds exactly the tree `T`, and the root has no parent. -/
def Stored (t : Btree α) (T : BinaryTree α) : Prop := Rep t.node none t.root T

/-- `parent` and `ret` after the walk to the hole of a path. -/
def Place : Path α → Option (α × ℤ) → Prop
  | [], at' => at' = none
  | .left a _ :: _, at' => ∃ ret, at' = some (a, ret) ∧ ret < 0
  | .right _ a :: _, at' => ∃ ret, at' = some (a, ret) ∧ 0 < ret

variable {cmp : α → α → ℤ}

/-- The walk of `build_tree` from any subtree either meets a node with an equal key, or ends in
the hole into which the node is inserted. -/
theorem buildTurn_run (cmp : α → α → ℤ) (bnode : α) {node : Links α} {root : Option α}
    {sub : BinaryTree α} {c : Path α} {q p : Option α} {at' : Option (α × ℤ)} {fuel : ℕ}
    (hpath : RepPath node root c q p) (hsub : Rep node q p sub) (hplace : Place c at')
    (hf : sub.numNodes < fuel) :
    (run (buildTurn cmp node bnode) fuel (p, at') = some none ∧ insert cmp bnode sub = sub) ∨
    ∃ c' q' at'', run (buildTurn cmp node bnode) fuel (p, at') = some (some at'') ∧
      plug c sub = plug c' .nil ∧ plug c (insert cmp bnode sub) = plug c' (.node bnode .nil .nil) ∧
      RepPath node root c' q' none ∧ Place c' at'' := by
  induction sub generalizing c q p at' fuel with
  | nil =>
      obtain ⟨fuel, rfl⟩ : ∃ n, fuel = n + 1 := ⟨fuel - 1, by omega⟩
      cases hsub
      exact .inr ⟨c, q, at', run_leave rfl fuel, rfl, rfl, hpath, hplace⟩
  | node a l r ihl ihr =>
      obtain ⟨fuel, rfl⟩ : ∃ n, fuel = n + 1 := ⟨fuel - 1, by omega⟩
      simp only [BinaryTree.numNodes] at hf
      obtain ⟨rfl, hq, hl, hr⟩ := hsub
      rw [← hq] at hpath
      rcases lt_trichotomy (cmp bnode a) 0 with hlt | heq | hgt
      · rw [run_again (t := (node.lchild a, some (a, cmp bnode a))) (by simp [buildTurn, hlt]),
          insert_lt hlt]
        rcases ihl (c := .left a r :: c) ⟨rfl, rfl, hr, hpath⟩ hl ⟨_, rfl, hlt⟩
          (show _ < fuel by omega) with ⟨hrun, hsame⟩ | h
        · exact .inl ⟨hrun, by rw [hsame]⟩
        · exact .inr h
      · exact .inl ⟨run_leave (by simp [buildTurn, heq]) fuel, insert_eq heq⟩
      · rw [run_again (t := (node.rchild a, some (a, cmp bnode a)))
          (by simp [buildTurn, hgt, not_lt.mpr hgt.le]), insert_gt hgt]
        rcases ihr (c := .right l a :: c) ⟨rfl, rfl, hl, hpath⟩ hr ⟨_, rfl, hgt⟩
          (show _ < fuel by omega) with ⟨hrun, hsame⟩ | h
        · exact .inl ⟨hrun, by rw [hsame]⟩
        · exact .inr h

variable [DecidableEq α]

theorem bnodeInit_fresh (node : Links α) (bnode : α) : Fresh (bnodeInit node bnode) bnode := by
  simp [Fresh, bnodeInit]

theorem bnodeInit_agree (node : Links α) {a bnode : α} (h : a ≠ bnode) :
    node.Agree (bnodeInit node bnode) a := by
  simp [Links.Agree, bnodeInit, h]

/-- `build_tree` inserts a node that is not linked yet, and changes nothing when there is a node
with an equal key. -/
theorem buildTree_insert {t : Btree α} {T : BinaryTree α} {bnode : α} (ht : Stored t T)
    (hd : (inorder T).Nodup) (hfresh : Fresh t.node bnode) (hnew : bnode ∉ inorder T)
    (hzero : cmp bnode bnode = 0) {fuel : ℕ} (hf : T.numNodes + 1 < fuel) :
    ∃ t', buildTree fuel cmp t bnode = some t' ∧ Stored t' (insert cmp bnode T) ∧
      (insert cmp bnode T = T → t' = t) := by
  obtain ⟨root, node⟩ := t
  cases T with
  | nil =>
      -- The first node becomes the root, and the walk meets it at once.
      cases ht
      obtain ⟨fuel, rfl⟩ : ∃ n, fuel = n + 1 := ⟨fuel - 1, by omega⟩
      refine ⟨⟨some bnode, node⟩, ?_, ⟨rfl, hfresh.1, hfresh.2.1, hfresh.2.2⟩, nofun⟩
      simp only [buildTree, Option.isNone_none, if_true]
      rw [run_leave (r := none) (by simp [buildTurn, hzero])]
      rfl
  | node a l r =>
      have hroot : root = some a := ht.1
      subst hroot
      rcases buildTurn_run cmp bnode (c := []) ⟨rfl, rfl⟩ ht
        (rfl : Place [] none) (show _ < fuel by omega) with
        ⟨hrun, hsame⟩ | ⟨c, q, at', hrun, hT, hT', hpath, hplace⟩
      · refine ⟨⟨some a, node⟩, ?_, ?_, fun _ => rfl⟩
        · simp [buildTree, hrun]
        · rwa [hsame]
      · have hin : inorder (.node a l r) = before c ++ after c := by
          have := congrArg inorder hT
          simpa only [inorder_plug, inorder_nil, List.nil_append, plug] using this
        have hnd : (before c ++ after c).Nodup := hin ▸ hd
        have hnot : bnode ∉ before c ++ after c := hin ▸ hnew
        let m := (fillHole node (some a) c (some bnode)).1
        have hfill := hpath.fill hnd (some bnode)
        have hq : buildTree fuel cmp ⟨some a, node⟩ bnode =
            some ⟨some a, m.setParent bnode q⟩ ∧
              (fillHole node (some a) c (some bnode)).2 = some a := by
          cases c with
          | nil => simp [plug] at hT
          | cons x c =>
              cases x with
              | left b s =>
                  obtain ⟨ret, rfl, hret⟩ := hplace
                  simp [buildTree, hrun, hret, m, fillHole, hpath.1]
              | right s b =>
                  obtain ⟨ret, rfl, hret⟩ := hplace
                  simp [buildTree, hrun, not_lt.mpr hret.le, m, fillHole, hpath.1]
        refine ⟨_, hq.1, ?_, fun hsame => ?_⟩
        · rw [hq.2] at hfill
          obtain ⟨hp, hl, hr⟩ := fillHole_agree node (some a) c (some bnode) hnot
          rw [plug] at hT'
          rw [hT']
          refine rep_plug.mpr ⟨q, some bnode, hfill.congr fun b hb => ?_, rfl, by simp, ?_, ?_⟩
          · have : b ≠ bnode := by
              rintro rfl
              exact hnot (List.mem_append.mpr hb)
            exact ⟨by simp [this, m], rfl, rfl⟩
          · exact hl.trans hfresh.2.1
          · exact hr.trans hfresh.2.2
        · -- The new node is in the tree, so the tree is not the same.
          have hmem : bnode ∈ inorder (plug c (.node bnode .nil .nil)) := by
            simp [inorder_plug]
          rw [← hT', plug, hsame] at hmem
          exact absurd hmem hnew

/-- The effect of an insertion: nothing when a node with an equal key is there,
and otherwise one new node at its place in the order. -/
inductive Inserted (cmp : α → α → ℤ) (bnode : α) (T T' : BinaryTree α) : Prop
  | present (y : α) : y ∈ inorder T → cmp bnode y = 0 → T' = T → Inserted cmp bnode T T'
  | linked (xs ys : List α) : inorder T = xs ++ ys → inorder T' = xs ++ bnode :: ys →
      (∀ a ∈ xs, cmp a bnode < 0) → (∀ a ∈ ys, cmp bnode a < 0) → Inserted cmp bnode T T'

omit [DecidableEq α] in
theorem inserted_insert (hc : Comparator cmp) {T : BinaryTree α} (hs : Sorted cmp (inorder T))
    (bnode : α) : Inserted cmp bnode T (insert cmp bnode T) := by
  induction T with
  | nil => exact .linked [] [] rfl rfl (by simp) (by simp)
  | node a l r hl hr =>
      obtain ⟨hsl, hsr, hsep⟩ := List.pairwise_append.mp hs
      obtain ⟨har, hsr⟩ := List.pairwise_cons.mp hsr
      rcases lt_trichotomy (cmp bnode a) 0 with hlt | heq | hgt
      · rw [insert_lt hlt]
        cases hl hsl with
        | present y hy hz hsame => exact .present y (by simp [hy]) hz (by rw [hsame])
        | linked xs ys hxs hins hbefore hafter =>
            refine .linked xs (ys ++ a :: inorder r) (by simp [hxs]) (by simp [hins]) hbefore
              fun b hb => ?_
            rcases List.mem_append.mp hb with hb | hb
            · exact hafter b hb
            · rcases List.mem_cons.mp hb with rfl | hb
              · exact hlt
              · exact hc.trans _ _ _ hlt (har b hb)
      · exact .present a (by simp) heq (insert_eq heq)
      · rw [insert_gt hgt]
        have hgt' : cmp a bnode < 0 := (hc.antisymm _ _).mpr hgt
        cases hr hsr with
        | present y hy hz hsame => exact .present y (by simp [hy]) hz (by rw [hsame])
        | linked xs ys hxs hins hbefore hafter =>
            refine .linked (inorder l ++ a :: xs) ys (by simp [hxs]) (by simp [hins])
              (fun b hb => ?_) hafter
            rcases List.mem_append.mp hb with hb | hb
            · exact hc.trans _ _ _ (hsep b hb a List.mem_cons_self) hgt'
            · rcases List.mem_cons.mp hb with rfl | hb
              · exact hgt'
              · exact hbefore b hb

theorem buildTree_returns {t t' : Btree α} {bnode : α} {fuel : ℕ}
    (h : buildTree fuel cmp t bnode = some t') :
    Returns (fun fuel => buildTree fuel cmp t bnode) t' := by
  obtain ⟨r, hr, hg⟩ := Option.bind_eq_some_iff.mp h
  exact (run_returns hr).bind hg

end EmbeddedCode.BTree
