import EmbeddedCode.Library.LinkedTree
import Mathlib.Data.Int.Order.Basic
import Mathlib.Data.List.Induction
import Mathlib.Order.Lattice

/-!
# Search trees with a comparator that need not be an order

Insertion and search follow the sign of a comparator, as C code does. Nothing is asked
of the comparator: the tree that a list of keys grows into is then given by the
comparisons with the first key. If the keys have a linear order of their own, the tree is
sorted exactly when the comparator agrees with it on the pairs of keys that are compared.
-/
namespace EmbeddedCode.SearchTree

open LinkedTree

variable {α : Type*} {cmp : α → α → ℤ} {a b : α} {T : BinaryTree α}

def insert (cmp : α → α → ℤ) (b : α) : BinaryTree α → BinaryTree α
  | .nil => .node b .nil .nil
  | .node a l r =>
      if cmp b a < 0 then .node a (insert cmp b l) r
      else if 0 < cmp b a then .node a l (insert cmp b r)
      else .node a l r

def find (cmp : α → α → ℤ) (b : α) : BinaryTree α → Option α
  | .nil => none
  | .node a l r =>
      if cmp b a = 0 then some a
      else if cmp b a < 0 then find cmp b l
      else find cmp b r

section
variable {l r : BinaryTree α}

theorem insert_lt (h : cmp b a < 0) :
    insert cmp b (.node a l r) = .node a (insert cmp b l) r := if_pos h

theorem insert_gt (h : 0 < cmp b a) :
    insert cmp b (.node a l r) = .node a l (insert cmp b r) := by
  rw [insert, if_neg (not_lt.mpr h.le), if_pos h]

theorem insert_eq (h : cmp b a = 0) : insert cmp b (.node a l r) = .node a l r := by
  simp [insert, h]

theorem find_lt (h : cmp b a < 0) : find cmp b (.node a l r) = find cmp b l := by
  rw [find, if_neg h.ne, if_pos h]

theorem find_gt (h : 0 < cmp b a) : find cmp b (.node a l r) = find cmp b r := by
  rw [find, if_neg h.ne', if_neg (not_lt.mpr h.le)]

theorem find_eq (h : cmp b a = 0) : find cmp b (.node a l r) = some a := if_pos h

end

/-- An insertion adds the node at one place of the in-order sequence, or finds an equal one. -/
theorem inorder_insert (cmp : α → α → ℤ) (b : α) (T : BinaryTree α) :
    (insert cmp b T = T ∧ ∃ y ∈ inorder T, cmp b y = 0) ∨
      ∃ xs ys, inorder T = xs ++ ys ∧ inorder (insert cmp b T) = xs ++ b :: ys := by
  induction T with
  | nil => exact .inr ⟨[], [], rfl, rfl⟩
  | node a l r hl hr =>
      rcases lt_trichotomy (cmp b a) 0 with hlt | heq | hgt
      · rw [insert_lt hlt]
        rcases hl with ⟨hsame, y, hy, hz⟩ | ⟨xs, ys, hxs, hins⟩
        · exact .inl ⟨by rw [hsame], y, by simp [hy], hz⟩
        · exact .inr ⟨xs, ys ++ a :: inorder r, by simp [hxs], by simp [hins]⟩
      · exact .inl ⟨insert_eq heq, a, by simp, heq⟩
      · rw [insert_gt hgt]
        rcases hr with ⟨hsame, y, hy, hz⟩ | ⟨xs, ys, hxs, hins⟩
        · exact .inl ⟨by rw [hsame], y, by simp [hy], hz⟩
        · exact .inr ⟨inorder l ++ a :: xs, ys, by simp [hxs], by simp [hins]⟩

theorem nodup_insert (hd : (inorder T).Nodup) (hb : b ∉ inorder T) :
    (inorder (insert cmp b T)).Nodup := by
  rcases inorder_insert cmp b T with ⟨hsame, -⟩ | ⟨xs, ys, hxs, hins⟩
  · rwa [hsame]
  · rw [hxs] at hd hb
    rw [hins]
    exact List.nodup_middle.mpr (List.nodup_cons.mpr ⟨hb, hd⟩)

theorem mem_insert (hb : a ∈ inorder (insert cmp b T)) : a = b ∨ a ∈ inorder T := by
  rcases inorder_insert cmp b T with ⟨hsame, -⟩ | ⟨xs, ys, hxs, hins⟩
  · exact .inr (hsame ▸ hb)
  · rw [hins] at hb
    rw [hxs]
    simp only [List.mem_append, List.mem_cons] at hb ⊢
    tauto

theorem find_zero (h : find cmp b T = some a) : a ∈ inorder T ∧ cmp b a = 0 := by
  induction T with
  | nil => cases h
  | node c l r hl hr =>
      rcases lt_trichotomy (cmp b c) 0 with hlt | heq | hgt
      · rw [find_lt hlt] at h
        exact ⟨by simp [(hl h).1], (hl h).2⟩
      · rw [find_eq heq] at h
        cases h
        exact ⟨by simp, heq⟩
      · rw [find_gt hgt] at h
        exact ⟨by simp [(hr h).1], (hr h).2⟩

theorem find_insert (h : find cmp a T ≠ none) : find cmp a (insert cmp b T) = find cmp a T := by
  induction T with
  | nil => exact absurd rfl h
  | node c l r hl hr =>
      rcases lt_trichotomy (cmp a c) 0 with hlt | heq | hgt
      · rw [find_lt hlt] at h ⊢
        rcases lt_trichotomy (cmp b c) 0 with hblt | hbeq | hbgt
        · rw [insert_lt hblt, find_lt hlt, hl h]
        · rw [insert_eq hbeq, find_lt hlt]
        · rw [insert_gt hbgt, find_lt hlt]
      · rcases lt_trichotomy (cmp b c) 0 with hblt | hbeq | hbgt
        · rw [insert_lt hblt, find_eq heq, find_eq heq]
        · rw [insert_eq hbeq]
        · rw [insert_gt hbgt, find_eq heq, find_eq heq]
      · rw [find_gt hgt] at h ⊢
        rcases lt_trichotomy (cmp b c) 0 with hblt | hbeq | hbgt
        · rw [insert_lt hblt, find_gt hgt]
        · rw [insert_eq hbeq, find_gt hgt]
        · rw [insert_gt hbgt, find_gt hgt, hr h]

theorem find_insert_self (hz : cmp b b = 0) : find cmp b (insert cmp b T) ≠ none := by
  induction T with
  | nil => simp [insert, find, hz]
  | node c l r hl hr =>
      rcases lt_trichotomy (cmp b c) 0 with hlt | heq | hgt
      · rwa [insert_lt hlt, find_lt hlt]
      · rw [insert_eq heq, find_eq heq]
        exact Option.some_ne_none c
      · rwa [insert_gt hgt, find_gt hgt]

section Map
variable {K : Type*} {cmp : K → K → ℤ} {data : α → K}

/-- Where the comparator reads the keys of the nodes, the keys form the tree of the keys. -/
theorem map_insert (b : α) (T : BinaryTree α) :
    (insert (fun a b => cmp (data a) (data b)) b T).map data =
      insert cmp (data b) (T.map data) := by
  induction T with
  | nil => rfl
  | node a l r hl hr =>
      simp only [insert, BinaryTree.map]
      split_ifs <;> simp [BinaryTree.map, hl, hr]

theorem map_find (b : α) (T : BinaryTree α) :
    (find (fun a b => cmp (data a) (data b)) b T).map data =
      find cmp (data b) (T.map data) := by
  induction T with
  | nil => rfl
  | node a l r hl hr =>
      simp only [find, BinaryTree.map]
      split_ifs <;> simp [hl, hr]

theorem inorder_map (T : BinaryTree α) : inorder (T.map data) = (inorder T).map data := by
  induction T with
  | nil => rfl
  | node a l r hl hr => simp [BinaryTree.map, hl, hr]

theorem map_congr {data' : α → K} {T : BinaryTree α} (h : ∀ a ∈ inorder T, data' a = data a) :
    T.map data' = T.map data := by
  induction T with
  | nil => rfl
  | node a l r hl hr =>
      rw [BinaryTree.map, BinaryTree.map, h a (by simp), hl fun b hb => h b (by simp [hb]),
        hr fun b hb => h b (by simp [hb])]

end Map

section Grow
variable {K : Type*} {cmp : K → K → ℤ} {ks : List K} {a b c : K}

/-- The tree after the insertion of the keys in their order. -/
def grow (cmp : K → K → ℤ) (ks : List K) : BinaryTree K :=
  ks.foldl (fun T k => insert cmp k T) .nil

theorem grow_concat : grow cmp (ks ++ [a]) = insert cmp a (grow cmp ks) := by
  rw [grow, List.foldl_append]
  rfl

theorem foldl_insert (l r : BinaryTree K) :
    ks.foldl (fun T k => insert cmp k T) (.node a l r) =
      .node a ((ks.filter fun k => cmp k a < 0).foldl (fun T k => insert cmp k T) l)
        ((ks.filter fun k => 0 < cmp k a).foldl (fun T k => insert cmp k T) r) := by
  induction ks generalizing l r with
  | nil => rfl
  | cons k ks ih =>
      rw [List.foldl_cons]
      rcases lt_trichotomy (cmp k a) 0 with hlt | heq | hgt
      · rw [insert_lt hlt, ih, List.filter_cons_of_pos (by simpa using hlt),
          List.filter_cons_of_neg (by simpa using hlt.le), List.foldl_cons]
      · rw [insert_eq heq, ih, List.filter_cons_of_neg (by simp [heq]),
          List.filter_cons_of_neg (by simp [heq])]
      · rw [insert_gt hgt, ih, List.filter_cons_of_neg (by simpa using hgt.le),
          List.filter_cons_of_pos (by simpa using hgt), List.foldl_cons]

/-- The first key is the root, and the others are parted by the comparison with it. -/
theorem grow_cons : grow cmp (a :: ks) =
    .node a (grow cmp (ks.filter fun k => cmp k a < 0))
      (grow cmp (ks.filter fun k => 0 < cmp k a)) := foldl_insert .nil .nil

theorem mem_grow (hz : ∀ a b, cmp a b = 0 ↔ a = b) : b ∈ inorder (grow cmp ks) ↔ b ∈ ks := by
  induction ks using List.reverseRecOn with
  | nil => rfl
  | append_singleton ks k ih =>
      rw [grow_concat, List.mem_append, List.mem_singleton, ← ih]
      rcases inorder_insert cmp k (grow cmp ks) with ⟨hsame, y, hy, hky⟩ | ⟨xs, ys, hxs, hins⟩
      · rw [hsame]
        constructor
        · exact .inl
        · rintro (hb | rfl)
          · exact hb
          · rwa [(hz _ _).mp hky]
      · rw [hxs, hins]
        simp only [List.mem_append, List.mem_cons]
        tauto

theorem find_grow (hz : ∀ a, cmp a a = 0) (hb : b ∈ ks) : find cmp b (grow cmp ks) ≠ none := by
  induction ks using List.reverseRecOn with
  | nil => simp at hb
  | append_singleton ks k ih =>
      rw [grow_concat]
      rcases List.mem_append.mp hb with hb | hb
      · rw [find_insert (ih hb)]
        exact ih hb
      · rw [List.mem_singleton.mp hb]
        exact find_insert_self (hz k)

/-- The key `b` is compared with `a` when it is inserted, as far as the order of the keys
decides that: `b` is new, and no key before `a` lies between the two. -/
def Compared [LT K] (ks : List K) (a b : K) : Prop :=
  ∃ pre mid post, ks = pre ++ a :: (mid ++ b :: post) ∧ b ∉ pre ++ a :: mid ∧
    ∀ c ∈ pre, ¬ (a < c ∧ c < b) ∧ ¬ (b < c ∧ c < a)

variable [LinearOrder K]

/-- The comparator is right about every key that is compared with an earlier one. -/
def Agrees (cmp : K → K → ℤ) (ks : List K) : Prop :=
  ∀ a b, Compared ks a b → (cmp b a < 0 ↔ b < a)

theorem compared_head (hb : b ∈ ks) (hne : b ≠ a) : Compared (a :: ks) a b := by
  obtain ⟨mid, post, rfl, hmid⟩ := List.eq_append_cons_of_mem hb
  exact ⟨[], mid, post, rfl, by simp [hne, hmid], by simp⟩

theorem compared_cons : Compared (c :: ks) a b ↔
    a = c ∧ b ∈ ks ∧ b ≠ c ∨
      Compared ks a b ∧ b ≠ c ∧ ¬ (a < c ∧ c < b) ∧ ¬ (b < c ∧ c < a) := by
  constructor
  · rintro ⟨pre, mid, post, hks, hb, hbetween⟩
    cases pre with
    | nil =>
        simp only [List.nil_append, List.cons.injEq] at hks
        obtain ⟨rfl, rfl⟩ := hks
        exact .inl ⟨rfl, by simp, fun h => hb (by simp [h])⟩
    | cons d pre =>
        simp only [List.cons_append, List.cons.injEq] at hks
        obtain ⟨rfl, rfl⟩ := hks
        rw [List.cons_append, List.mem_cons, not_or] at hb
        rw [List.forall_mem_cons] at hbetween
        exact .inr ⟨⟨pre, mid, post, rfl, hb.2, hbetween.2⟩, hb.1, hbetween.1⟩
  · rintro (⟨rfl, hb, hne⟩ | ⟨⟨pre, mid, post, rfl, hb, hbetween⟩, hne, hc⟩)
    · exact compared_head hb hne
    · refine ⟨c :: pre, mid, post, rfl, ?_, List.forall_mem_cons.mpr ⟨hc, hbetween⟩⟩
      simp only [List.cons_append, List.mem_cons, not_or]
      exact ⟨hne, hb⟩

/-- To leave out keys on the far side of some key does not change what is compared. -/
theorem compared_filter {p : K → Bool} (hp : ∀ c, p a = true → p b = true →
    a < c ∧ c < b ∨ b < c ∧ c < a → p c = true) :
    Compared (ks.filter p) a b ↔ Compared ks a b ∧ p a = true ∧ p b = true := by
  constructor
  · rintro ⟨pre, mid, post, hks, hb, hbetween⟩
    obtain ⟨ks₁, ks₂, rfl, rfl, h₂⟩ := List.filter_eq_append_iff.mp hks
    obtain ⟨gap, ks₃, rfl, hgap, hpa, h₃⟩ := List.filter_eq_cons_iff.mp h₂
    obtain ⟨ks₄, ks₅, rfl, rfl, h₅⟩ := List.filter_eq_append_iff.mp h₃
    obtain ⟨gap', ks₆, rfl, hgap', hpb, rfl⟩ := List.filter_eq_cons_iff.mp h₅
    refine ⟨⟨ks₁ ++ gap, ks₄ ++ gap', ks₆, by simp, ?_, ?_⟩, hpa, hpb⟩
    · simp only [List.mem_append, List.mem_cons, List.mem_filter, not_or, not_and] at hb ⊢
      exact ⟨⟨fun h => hb.1 h hpb, fun h => hgap b h hpb⟩, hb.2.1, fun h => hb.2.2 h hpb,
        fun h => hgap' b h hpb⟩
    · intro c hc
      rw [← not_or]
      intro hor
      have hpc := hp c hpa hpb hor
      rcases List.mem_append.mp hc with hc | hc
      · have hnot := hbetween c (List.mem_filter.mpr ⟨hc, hpc⟩)
        exact hor.elim hnot.1 hnot.2
      · exact hgap c hc hpc
  · rintro ⟨⟨pre, mid, post, rfl, hb, hbetween⟩, hpa, hpb⟩
    refine ⟨pre.filter p, mid.filter p, post.filter p, by simp [hpa, hpb], fun h => hb ?_,
      fun c hc => hbetween c (List.mem_filter.mp hc).1⟩
    simp only [List.mem_append, List.mem_cons, List.mem_filter] at h ⊢
    tauto

theorem agrees_cons : Agrees cmp (a :: ks) ↔
    (∀ b ∈ ks, b ≠ a → (cmp b a < 0 ↔ b < a)) ∧ Agrees cmp (ks.filter (· < a)) ∧
      Agrees cmp (ks.filter (a < ·)) := by
  have hlow : ∀ b c, Compared (ks.filter (· < a)) b c ↔ Compared ks b c ∧ b < a ∧ c < a := by
    intro b c
    rw [compared_filter (by grind)]
    simp
  have hhigh : ∀ b c, Compared (ks.filter (a < ·)) b c ↔ Compared ks b c ∧ a < b ∧ a < c := by
    intro b c
    rw [compared_filter (by grind)]
    simp
  constructor
  · intro h
    refine ⟨fun b hb hne => h a b (compared_head hb hne), fun b c hc => ?_, fun b c hc => ?_⟩
    · obtain ⟨hc, hba, hca⟩ := (hlow b c).mp hc
      exact h b c (compared_cons.mpr (.inr ⟨hc, hca.ne, fun h => absurd h.2 hca.not_gt,
        fun h => absurd h.2 hba.not_gt⟩))
    · obtain ⟨hc, hba, hca⟩ := (hhigh b c).mp hc
      exact h b c (compared_cons.mpr (.inr ⟨hc, hca.ne', fun h => absurd h.1 hba.not_gt,
        fun h => absurd h.1 hca.not_gt⟩))
  · rintro ⟨hroot, hleft, hright⟩ b c hc
    rcases compared_cons.mp hc with ⟨rfl, hc, hne⟩ | ⟨hc, hne, hout₁, hout₂⟩
    · exact hroot c hc hne
    · have hmem : c ∈ ks := by
        obtain ⟨pre, mid, post, rfl, -⟩ := hc
        simp
      rcases lt_trichotomy b a with hba | rfl | hba
      · have hca : c < a := lt_of_le_of_ne (not_lt.mp fun h => hout₁ ⟨hba, h⟩) hne
        exact hleft b c ((hlow b c).mpr ⟨hc, hba, hca⟩)
      · exact hroot c hmem hne
      · have hca : a < c := lt_of_le_of_ne (not_lt.mp fun h => hout₂ ⟨h, hba⟩) hne.symm
        exact hright b c ((hhigh b c).mpr ⟨hc, hba, hca⟩)

/-- The keys below the root are smaller, and those above it are greater, when the comparator is
right about the root. -/
theorem agrees_root (hz : ∀ a b, cmp a b = 0 ↔ a = b) :
    ((∀ x ∈ inorder (grow cmp (ks.filter fun k => cmp k a < 0)), x < a) ∧
      ∀ x ∈ inorder (grow cmp (ks.filter fun k => 0 < cmp k a)), a < x) ↔
    ∀ b ∈ ks, b ≠ a → (cmp b a < 0 ↔ b < a) := by
  simp only [mem_grow hz, List.mem_filter, decide_eq_true_eq]
  constructor
  · rintro ⟨hlow, hhigh⟩ b hb hne
    refine ⟨fun h => hlow b ⟨hb, h⟩, fun h => ?_⟩
    by_contra hnot
    have hzero : cmp b a ≠ 0 := fun h0 => hne ((hz b a).mp h0)
    exact lt_asymm h (hhigh b ⟨hb, by omega⟩)
  · intro h
    have hne : ∀ x, cmp x a ≠ 0 → x ≠ a := fun x hx heq => hx ((hz x a).mpr heq)
    refine ⟨fun x ⟨hx, hlt⟩ => (h x hx (hne x hlt.ne)).mp hlt, fun x ⟨hx, hgt⟩ => ?_⟩
    have hnot : ¬ x < a := fun hlt => lt_asymm hgt ((h x hx (hne x hgt.ne')).mpr hlt)
    exact lt_of_le_of_ne (not_lt.mp hnot) (hne x hgt.ne').symm

theorem filter_agrees (hz : ∀ a b, cmp a b = 0 ↔ a = b)
    (h : ∀ b ∈ ks, b ≠ a → (cmp b a < 0 ↔ b < a)) :
    (ks.filter fun k => cmp k a < 0) = ks.filter (· < a) ∧
      (ks.filter fun k => 0 < cmp k a) = ks.filter (a < ·) := by
  have hlow : ∀ b ∈ ks, cmp b a < 0 ↔ b < a := by
    intro b hb
    rcases eq_or_ne b a with rfl | hne
    · simp [(hz b b).mpr rfl]
    · exact h b hb hne
  refine ⟨List.filter_congr fun b hb => by simp [hlow b hb], List.filter_congr fun b hb => ?_⟩
  have hiff : 0 < cmp b a ↔ a < b := by
    have hzero := hz b a
    have hsign := hlow b hb
    constructor
    · intro hgt
      exact lt_of_le_of_ne (not_lt.mp fun hlt => lt_asymm hgt (hsign.mpr hlt))
        fun heq => hgt.ne' (hzero.mpr heq.symm)
    · intro hgt
      exact lt_of_le_of_ne (not_lt.mp fun hlt => lt_asymm hgt (hsign.mp hlt))
        fun heq => hgt.ne' (hzero.mp heq.symm)
  simp [hiff]

/-- The tree is sorted exactly when the comparator agrees with the order of the keys on the
pairs that are compared. -/
theorem sorted_grow (hz : ∀ a b, cmp a b = 0 ↔ a = b) :
    (inorder (grow cmp ks)).Pairwise (· < ·) ↔ Agrees cmp ks := by
  induction hn : ks.length using Nat.strong_induction_on generalizing ks with
  | _ n ih =>
    cases ks with
    | nil => simp [grow, Agrees, Compared]
    | cons a ks =>
        have hshort : ∀ p : K → Bool, (ks.filter p).length < n := fun p => by
          have := List.length_filter_le p ks
          rw [List.length_cons] at hn
          omega
        rw [grow_cons, agrees_cons, inorder_node, List.pairwise_append, List.pairwise_cons,
          ← agrees_root hz]
        constructor
        · rintro ⟨hleft, ⟨hhigh, hright⟩, hacross⟩
          have hlow := fun x hx => hacross x hx a List.mem_cons_self
          obtain ⟨hl, hr⟩ := filter_agrees hz ((agrees_root hz).mp ⟨hlow, hhigh⟩)
          rw [hl] at hleft
          rw [hr] at hright
          exact ⟨⟨hlow, hhigh⟩, (ih _ (hshort _) rfl).mp hleft, (ih _ (hshort _) rfl).mp hright⟩
        · rintro ⟨⟨hlow, hhigh⟩, hleft, hright⟩
          obtain ⟨hl, hr⟩ := filter_agrees hz ((agrees_root hz).mp ⟨hlow, hhigh⟩)
          refine ⟨?_, ⟨hhigh, ?_⟩, fun x hx y hy => ?_⟩
          · rw [hl]
            exact (ih _ (hshort _) rfl).mpr hleft
          · rw [hr]
            exact (ih _ (hshort _) rfl).mpr hright
          · rcases List.mem_cons.mp hy with rfl | hy
            · exact hlow x hx
            · exact (hlow x hx).trans (hhigh y hy)

end Grow

end EmbeddedCode.SearchTree
