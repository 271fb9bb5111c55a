import EmbeddedCode.BTree.Delete
import EmbeddedCode.BTree.Query
import Mathlib.Data.Set.Insert

/-!
# Whole runs of the sorted binary tree

A run starts at `btree_init` and takes any finite sequence of insertions of nodes
that are not linked and deletions of nodes that are. The reference is the set of
keys. One invariant, that the memory holds a tree sorted by key, is kept by every
operation and gives all results about the states reached.
-/
namespace EmbeddedCode.BTree

open LinkedTree LinkedTree.Path Loop

variable {α K : Type} [DecidableEq α]

/-- A comparator of keys that is a strict total order. -/
structure StrictTotal (cmp : K → K → ℤ) : Prop where
  eq_zero : ∀ a b, cmp a b = 0 ↔ a = b
  antisymm : ∀ a b, cmp a b < 0 ↔ 0 < cmp b a
  trans : ∀ a b c, cmp a b < 0 → cmp b c < 0 → cmp a c < 0

/-- The comparator of nodes reads the keys of the structures around them. -/
def byKey (cmp : K → K → ℤ) (data : α → K) (a b : α) : ℤ := cmp (data a) (data b)

/-- A node that the pointers lead to from the root. -/
inductive Linked (t : Btree α) : α → Prop
  | root {a : α} : t.root = some a → Linked t a
  | lchild {a c : α} : Linked t a → t.node.lchild a = some c → Linked t c
  | rchild {a c : α} : Linked t a → t.node.rchild a = some c → Linked t c

/-- The states of the runs, with the keys of the nodes and the reference set. -/
inductive Reached (cmp : K → K → ℤ) : Btree α → (α → K) → Set K → Prop
  | init (node : Links α) (data : α → K) : Reached cmp (btreeInit node) data ∅
  | build {t t' : Btree α} {data : α → K} {keys : Set K} (bnode : α) (key : K) :
      Reached cmp t data keys → ¬ Linked t bnode →
      Returns (fun fuel => buildTree fuel (byKey cmp (Function.update data bnode key))
        {t with node := bnodeInit t.node bnode} bnode) t' →
      Reached cmp t' (Function.update data bnode key) (insert key keys)
  | del {t t' : Btree α} {data : α → K} {keys : Set K} (bnode : α) :
      Reached cmp t data keys → Linked t bnode → Returns (fun fuel => delNode fuel t bnode) t' →
      Reached cmp t' data (keys \ {data bnode})

/-- The invariant: the memory holds a tree that is sorted by key, and the reference
holds its keys. -/
structure Holds (cmp : K → K → ℤ) (t : Btree α) (data : α → K) (keys : Set K)
    (T : BinaryTree α) : Prop where
  stored : Stored t T
  sorted : Sorted (byKey cmp data) (inorder T)
  keys : ∀ k, k ∈ keys ↔ ∃ a ∈ inorder T, data a = k

section
variable {cmp : K → K → ℤ} {t : Btree α} {data : α → K} {keys : Set K} {T : BinaryTree α}

omit [DecidableEq α] in
theorem StrictTotal.comparator (hc : StrictTotal cmp) (data : α → K) :
    Comparator (byKey cmp data) :=
  ⟨fun _ _ => hc.antisymm _ _, fun _ _ _ => hc.trans _ _ _⟩

omit [DecidableEq α] in
theorem Sorted.byKey_congr {data data' : α → K} {xs : List α} (h : Sorted (byKey cmp data) xs)
    (hd : ∀ a ∈ xs, data' a = data a) : Sorted (byKey cmp data') xs :=
  List.Pairwise.imp_of_mem (fun ha hb hab => by
    simpa only [byKey, hd _ ha, hd _ hb] using hab) h

omit [DecidableEq α] in
theorem linked_of_rep {q p : Option α} {S : BinaryTree α} (h : Rep t.node q p S)
    (hp : ∀ a, p = some a → Linked t a) {a : α} (ha : a ∈ inorder S) : Linked t a := by
  induction S generalizing q p with
  | nil => simp at ha
  | node b l r hl hr =>
      obtain ⟨hb, _, h₁, h₂⟩ := h
      have hlink := hp b hb
      rcases List.mem_append.mp ha with ha | ha
      · exact hl h₁ (fun c hc => .lchild hlink hc) ha
      · rcases List.mem_cons.mp ha with rfl | ha
        · exact hlink
        · exact hr h₂ (fun c hc => .rchild hlink hc) ha

omit [DecidableEq α] in
theorem linked_iff (h : Stored t T) (a : α) : Linked t a ↔ a ∈ inorder T := by
  constructor
  · intro hl
    induction hl with
    | root hr =>
        rw [Stored, hr] at h
        exact h.root_mem
    | lchild _ hc ih => exact (h.child_parent ih (.inl hc)).1
    | rchild _ hc ih => exact (h.child_parent ih (.inr hc)).1
  · exact linked_of_rep h fun _ => .root

theorem Holds.build (hc : StrictTotal cmp) (h : Holds cmp t data keys T) {bnode : α} (key : K)
    (hnew : ¬ Linked t bnode) :
    ∃ t' T', Returns (fun fuel => buildTree fuel (byKey cmp (Function.update data bnode key))
        {t with node := bnodeInit t.node bnode} bnode) t' ∧
      Holds cmp t' (Function.update data bnode key) (insert key keys) T' := by
  rw [linked_iff h.stored] at hnew
  have hd : ∀ a ∈ inorder T, Function.update data bnode key a = data a := fun a ha =>
    Function.update_of_ne (ne_of_mem_of_not_mem ha hnew) _ _
  have hs := h.sorted.byKey_congr hd
  have hst : Stored {t with node := bnodeInit t.node bnode} T :=
    Rep.congr h.stored fun a ha => bnodeInit_agree _ (ne_of_mem_of_not_mem ha hnew)
  have hcmp := hc.comparator (Function.update data bnode key)
  have hzero : byKey cmp (Function.update data bnode key) bnode bnode = 0 :=
    (hc.eq_zero _ _).mpr rfl
  obtain ⟨t', hrun, hst', -⟩ := buildTree_insert hst (hs.nodup hcmp) (bnodeInit_fresh _ _) hnew
    hzero (Nat.lt_succ_self _)
  have hins := inserted_insert hcmp hs bnode
  generalize SearchTree.insert _ bnode T = T' at hst' hins
  refine ⟨t', T', buildTree_returns hrun, ?_⟩
  cases hins with
  | present y hy hz hT =>
      subst hT
      have hkey : key = data y := by
        simpa [byKey, hd y hy] using (hc.eq_zero _ _).mp hz
      refine ⟨hst', hs, fun k => ?_⟩
      rw [Set.mem_insert_iff, h.keys k]
      constructor
      · rintro (rfl | ⟨a, ha, rfl⟩)
        · exact ⟨y, hy, by rw [hd y hy, hkey]⟩
        · exact ⟨a, ha, hd a ha⟩
      · rintro ⟨a, ha, rfl⟩
        exact .inr ⟨a, ha, (hd a ha).symm⟩
  | linked xs ys hT hT' hx hy =>
      rw [hT] at hs hd
      obtain ⟨hxs, hys, hxy⟩ := List.pairwise_append.mp hs
      refine ⟨hst', ?_, fun k => ?_⟩
      · rw [hT']
        refine List.pairwise_append.mpr ⟨hxs, List.pairwise_cons.mpr ⟨hy, hys⟩, fun a ha b hb => ?_⟩
        rcases List.mem_cons.mp hb with rfl | hb
        · exact hx a ha
        · exact hxy a ha b hb
      · rw [Set.mem_insert_iff, h.keys k, hT, hT']
        constructor
        · rintro (rfl | ⟨a, ha, rfl⟩)
          · exact ⟨bnode, by simp, by simp⟩
          · exact ⟨a, by simp only [List.mem_append, List.mem_cons] at ha ⊢; tauto, hd a ha⟩
        · rintro ⟨a, ha, rfl⟩
          rcases eq_or_ne a bnode with rfl | hne
          · exact .inl (by simp)
          · have ha' : a ∈ xs ++ ys := by
              simp only [List.mem_append, List.mem_cons] at ha ⊢
              tauto
            exact .inr ⟨a, ha', (hd a ha').symm⟩

omit [DecidableEq α] in
theorem Holds.inj (hc : StrictTotal cmp) (h : Holds cmp t data keys T) {a b : α}
    (ha : a ∈ inorder T) (hb : b ∈ inorder T) (hab : data a = data b) : a = b := by
  refine List.inj_on_of_nodup_map (List.Pairwise.map data ?_ h.sorted) ha hb hab
  intro x y hxy he
  have hz : cmp (data x) (data y) = 0 := (hc.eq_zero _ _).mpr he
  rw [byKey] at hxy
  omega

theorem Holds.del (hc : StrictTotal cmp) (h : Holds cmp t data keys T) {bnode : α}
    (hlink : Linked t bnode) :
    ∃ t' T', Returns (fun fuel => delNode fuel t bnode) t' ∧
      Holds cmp t' data (keys \ {data bnode}) T' := by
  rw [linked_iff h.stored] at hlink
  obtain ⟨t', T', xs, ys, hrun, hst', _, hT, hT'⟩ :=
    delNode_spec h.stored (h.sorted.nodup (hc.comparator data)) hlink le_rfl
  have hs := h.sorted
  rw [hT] at hs
  refine ⟨t', T', delNode_returns hrun, hst', ?_, fun k => ?_⟩
  · rw [hT']
    exact hs.sublist ((List.sublist_cons_self _ _).append_left _)
  · have hne : ∀ a ∈ xs ++ ys, data a ≠ data bnode := by
      intro a ha he
      have hnd := h.sorted.nodup (hc.comparator data)
      rw [hT] at hnd
      have hab : a = bnode := h.inj hc (by rw [hT]; simp only [List.mem_append] at ha; simp; tauto)
        (by simp [hT]) he
      exact (List.nodup_middle.mp hnd).notMem (hab ▸ ha)
    rw [Set.mem_sdiff, Set.mem_singleton_iff, h.keys k, hT, hT']
    constructor
    · rintro ⟨⟨a, ha, rfl⟩, hk⟩
      have : a ≠ bnode := by rintro rfl; exact hk rfl
      exact ⟨a, by simp only [List.mem_append, List.mem_cons] at ha ⊢; tauto, rfl⟩
    · rintro ⟨a, ha, rfl⟩
      exact ⟨⟨a, by simp only [List.mem_append, List.mem_cons] at ha ⊢; tauto, rfl⟩, hne a ha⟩

theorem Reached.holds (hc : StrictTotal cmp) (h : Reached cmp t data keys) :
    ∃ T, Holds cmp t data keys T := by
  induction h with
  | init node data => exact ⟨.nil, rfl, List.Pairwise.nil, by simp⟩
  | build bnode key _ hnew hret ih =>
      obtain ⟨T, hT⟩ := ih
      obtain ⟨t', T', hret', hT'⟩ := hT.build hc key hnew
      rw [hret.unique hret']
      exact ⟨T', hT'⟩
  | del bnode _ hlink hret ih =>
      obtain ⟨T, hT⟩ := ih
      obtain ⟨t', T', hret', hT'⟩ := hT.del hc hlink
      rw [hret.unique hret']
      exact ⟨T', hT'⟩

omit [DecidableEq α] in
/-- Searching by a node with key `data' probe` finds the linked node with that key. -/
theorem Holds.search_returns (hc : StrictTotal cmp) (h : Holds cmp t data keys T) {data' : α → K}
    (hd : ∀ n, Linked t n → data' n = data n) (probe : α) :
    ∃ res, Returns (fun fuel => search fuel (byKey cmp data') t probe) res ∧
      (∀ n, res = some n ↔ Linked t n ∧ data n = data' probe) ∧
      (res = none ↔ data' probe ∉ keys) := by
  have hd' : ∀ a ∈ inorder T, data' a = data a := fun a ha => hd a ((linked_iff h.stored a).mpr ha)
  have hrun := fun fuel (hf : T.numNodes < fuel) => search_stored h.stored (hc.comparator data')
    (h.sorted.byKey_congr hd') probe hf
  have hzero : ∀ a ∈ inorder T, byKey cmp data' probe a = 0 ↔ data a = data' probe := by
    intro a ha
    rw [byKey, hc.eq_zero, hd' a ha, eq_comm]
  by_cases hfound : ∃ y ∈ inorder T, data y = data' probe
  · obtain ⟨y, hy, hyk⟩ := hfound
    refine ⟨some y, ⟨T.numNodes + 1, fun fuel hf => ?_⟩, fun n => ?_, ?_⟩
    · rcases hrun fuel hf with ⟨z, hz, hz0, hres⟩ | ⟨hno, _⟩
      · have : z = y := h.inj hc hz hy (by rw [(hzero z hz).mp hz0, hyk])
        rw [← this]
        exact hres
      · exact absurd ((hzero y hy).mpr hyk) (hno y hy)
    · rw [linked_iff h.stored, Option.some.injEq]
      constructor
      · rintro rfl
        exact ⟨hy, hyk⟩
      · exact fun hn => h.inj hc hy hn.1 (hyk.trans hn.2.symm)
    · simp only [reduceCtorEq, false_iff, not_not, h.keys]
      exact ⟨y, hy, hyk⟩
  · push Not at hfound
    refine ⟨none, ⟨T.numNodes + 1, fun fuel hf => ?_⟩, fun n => ?_, ?_⟩
    · rcases hrun fuel hf with ⟨z, hz, hz0, _⟩ | ⟨_, hres⟩
      · exact absurd ((hzero z hz).mp hz0) (hfound z hz)
      · exact hres
    · simp only [reduceCtorEq, false_iff, linked_iff h.stored]
      exact fun hn => hfound n hn.1 hn.2
    · simp only [h.keys, true_iff]
      exact fun ⟨a, ha, hk⟩ => hfound a ha hk

/-- In every state of every run the pointers form a finite tree, an in-order walk
meets the linked nodes by increasing key, the linked keys are the reference set,
searches answer by it, and every further operation returns. -/
theorem reached_correct (hc : StrictTotal cmp) (h : Reached cmp t data keys) :
    ((∀ r, t.root = some r → t.node.parent r = none) ∧
      (∀ n c, Linked t n → t.node.lchild n = some c ∨ t.node.rchild n = some c →
        t.node.parent c = some n) ∧
      ∃ T, Stored t T ∧ (inorder T).Nodup ∧ ∀ n, Linked t n ↔ n ∈ inorder T) ∧
    (∃ xs, Returns (fun fuel => inOrder t.node fuel t.root) xs ∧
      xs.Pairwise (fun a b => cmp (data a) (data b) < 0) ∧ (∀ n, n ∈ xs ↔ Linked t n) ∧
      Returns (fun fuel => searchMin fuel t) xs.head? ∧
      Returns (fun fuel => searchMax fuel t) xs.getLast?) ∧
    (∀ k, k ∈ keys ↔ ∃ n, Linked t n ∧ data n = k) ∧
    (∀ data' : α → K, (∀ n, Linked t n → data' n = data n) → ∀ probe, ∃ res,
      Returns (fun fuel => search fuel (byKey cmp data') t probe) res ∧
        (∀ n, res = some n ↔ Linked t n ∧ data n = data' probe) ∧
        (res = none ↔ data' probe ∉ keys)) ∧
    (∀ bnode key, ¬ Linked t bnode → ∃ t', Returns (fun fuel =>
      buildTree fuel (byKey cmp (Function.update data bnode key))
        {t with node := bnodeInit t.node bnode} bnode) t') ∧
    (∀ bnode, Linked t bnode → ∃ t', Returns (fun fuel => delNode fuel t bnode) t') := by
  obtain ⟨T, hT⟩ := h.holds hc
  have hlink := linked_iff hT.stored
  refine ⟨⟨fun r hr => ?_, fun n c hn hcld => ?_, T, hT.stored,
    hT.sorted.nodup (hc.comparator data), hlink⟩, ⟨inorder T, inOrder_returns hT.stored.shaped,
    hT.sorted, fun n => (hlink n).symm, ⟨_, fun _ => searchMin_stored hT.stored⟩,
    ⟨_, fun _ => searchMax_stored hT.stored⟩⟩, fun k => ?_,
    fun data' hd probe => hT.search_returns hc hd probe, fun bnode key hnew => ?_,
    fun bnode hb => ?_⟩
  · have hst := hT.stored
    rw [Stored, hr] at hst
    obtain ⟨l, r', rfl⟩ := rep_some hst
    exact hst.2.1
  · exact (hT.stored.child_parent ((hlink n).mp hn) hcld).2
  · rw [hT.keys k]
    simp only [hlink]
  · obtain ⟨t', _, hret, _⟩ := hT.build hc key hnew
    exact ⟨t', hret⟩
  · obtain ⟨t', _, hret, _⟩ := hT.del hc hb
    exact ⟨t', hret⟩

end

/-- Subtraction of unbounded integers is such a comparator. -/
theorem sub_strictTotal : StrictTotal fun a b : ℤ => a - b where
  eq_zero _ _ := by omega
  antisymm _ _ := by omega
  trans _ _ _ := by omega

/-- Two insertions and the deletion of the root, which has one child then. -/
theorem reached_correct_delete_root : ∃ (t : Btree ℕ) (data : ℕ → ℤ),
    Reached (fun a b => a - b) t data (insert 3 (insert 5 ∅) \ {5}) ∧
    ∃ xs, Returns (fun fuel => inOrder t.node fuel t.root) xs ∧ ∀ n, n ∈ xs ↔ Linked t n := by
  let node : Links ℕ := ⟨fun _ => none, fun _ => none, fun _ => none⟩
  let t₁ : Btree ℕ := ⟨some 0, bnodeInit node 0⟩
  have h₁ : Reached (fun a b => a - b) t₁ _ _ := .build 0 5 (.init node fun _ => (0 : ℤ))
    (fun h => by
      have := (linked_iff (t := btreeInit node) (T := .nil) rfl 0).mp h
      simp at this)
    (buildTree_returns (show buildTree 3 _ _ _ = some _ from rfl))
  have s₁ : Stored t₁ (.node 0 .nil .nil) := ⟨rfl, rfl, rfl, rfl⟩
  have h₂ := Reached.build 1 3 h₁ (fun h => by
    have := (linked_iff s₁ 1).mp h
    simp at this) (buildTree_returns (show buildTree 3 _ _ _ = some _ from rfl))
  have h₃ := Reached.del 0 h₂ (.root rfl) (delNode_returns (show delNode 3 _ _ = some _ from rfl))
  obtain ⟨_, ⟨xs, hxs, _, hl, _⟩, _⟩ := reached_correct sub_strictTotal h₃
  exact ⟨_, _, h₃, xs, hxs, hl⟩

end EmbeddedCode.BTree
