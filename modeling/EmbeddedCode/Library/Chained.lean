import EmbeddedCode.Library.LinkedList
import Mathlib.Data.List.Nodup

/-!
# Hash tables with chaining

A table has a list of nodes for every value of the hash function. `Chained` says that
it stands for a map: every node is in the list of its key, no list has a key twice,
and the map has the keys and contents of the nodes. Insertion, change of a content
and deletion keep it.
-/
namespace EmbeddedCode.Chaining

open LinkedList Loop

variable {ι α K V : Type*}

structure Chained (hash : K → ι) (bucket : ι → List α) (key : α → K) (content : α → V)
    (m : K → Option V) : Prop where
  placed : ∀ i, ∀ a ∈ bucket i, hash (key a) = i
  distinct : ∀ i, ((bucket i).map key).Nodup
  lookup : ∀ k v, m k = some v ↔ ∃ a ∈ bucket (hash k), key a = k ∧ content a = v

namespace Chained

variable {hash : K → ι} {bucket bucket' : ι → List α} {key key' : α → K} {content content' : α → V}
  {m : K → Option V} {k : K} {v : V} {a : α}

theorem empty : Chained hash (fun _ => ([] : List α)) key content (fun _ => none) where
  placed := by simp
  distinct := by simp
  lookup := by simp

/-- Only the keys and contents of the nodes in the table matter. -/
theorem congr (h : Chained hash bucket key content m)
    (hk : ∀ i, ∀ a ∈ bucket i, key' a = key a) (hc : ∀ i, ∀ a ∈ bucket i, content' a = content a) :
    Chained hash bucket key' content' m := by
  refine ⟨fun i a ha => ?_, fun i => ?_, fun k v => ?_⟩
  · rw [hk i a ha]
    exact h.placed i a ha
  · rw [List.map_congr_left (hk i)]
    exact h.distinct i
  · rw [h.lookup k v]
    constructor
    · rintro ⟨a, ha, hak, hav⟩
      exact ⟨a, ha, (hk _ a ha).trans hak, (hc _ a ha).trans hav⟩
    · rintro ⟨a, ha, hak, hav⟩
      exact ⟨a, ha, (hk _ a ha).symm.trans hak, (hc _ a ha).symm.trans hav⟩

/-- A key occurs in at most one node of the whole table. -/
theorem inj (h : Chained hash bucket key content m) {i j : ι} {a b : α} (ha : a ∈ bucket i)
    (hb : b ∈ bucket j) (hab : key a = key b) : a = b := by
  have hij : i = j := by rw [← h.placed i a ha, hab, h.placed j b hb]
  subst hij
  exact List.inj_on_of_nodup_map (h.distinct i) ha hb hab

theorem absent (h : Chained hash bucket key content m) :
    m k = none ↔ ∀ a ∈ bucket (hash k), key a ≠ k := by
  rw [Option.eq_none_iff_forall_ne_some]
  constructor
  · intro hnone a ha hak
    exact hnone (content a) ((h.lookup k _).mpr ⟨a, ha, hak, rfl⟩)
  · rintro hall v hv
    obtain ⟨a, ha, hak, _⟩ := (h.lookup k v).mp hv
    exact hall a ha hak

theorem key_ne (h : Chained hash bucket key content m) (hk : m k = none) {i : ι}
    (ha : a ∈ bucket i) : key a ≠ k := by
  rintro rfl
  refine h.absent.mp hk a ?_ rfl
  rwa [h.placed i a ha]

/-- A key that is present is in one node, and the nodes before and behind have other keys. -/
theorem split (h : Chained hash bucket key content m) (hk : m k ≠ none) :
    ∃ us a vs, bucket (hash k) = us ++ a :: vs ∧ key a = k ∧ m k = some (content a) ∧
      ∀ b ∈ us ++ vs, key b ≠ k := by
  obtain ⟨v, hv⟩ := Option.ne_none_iff_exists'.mp hk
  obtain ⟨a, ha, hak, hav⟩ := (h.lookup k v).mp hv
  obtain ⟨us, vs, hsplit⟩ := List.append_of_mem ha
  refine ⟨us, a, vs, hsplit, hak, hav ▸ hv, fun b hb hbk => ?_⟩
  have hnodup := h.distinct (hash k)
  rw [hsplit] at hnodup
  have hperm : (us ++ a :: vs).map key |>.Perm ((a :: (us ++ vs)).map key) :=
    List.perm_middle.map key
  have hcons := List.nodup_cons.mp (hperm.nodup_iff.mp hnodup)
  exact hcons.1 (List.mem_map.mpr ⟨b, hb, hbk.trans hak.symm⟩)

/-- A loop along the list of a key that stops at the node with this key. -/
theorem find (h : Chained hash bucket key content m) {σ P : Type*} {ref : α → P} {next : α → P}
    {p q : P} (pos : P → σ) (turn : σ → Option (Turn σ (Option α)))
    (hlist : Segment ref next p (bucket (hash k)) q)
    (hpass : ∀ a ∈ bucket (hash k), key a ≠ k →
      turn (pos (ref a)) = some (.again (pos (next a))))
    (hstop : ∀ a ∈ bucket (hash k), key a = k → turn (pos (ref a)) = some (.leave (some a)))
    (hend : turn (pos q) = some (.leave none)) :
    (m k = none ∧ Returns (fun fuel => run turn fuel (pos p)) none) ∨
      ∃ a ∈ bucket (hash k), key a = k ∧ m k = some (content a) ∧
        Returns (fun fuel => run turn fuel (pos p)) (some a) := by
  by_cases hk : m k = none
  · refine .inl ⟨hk, run_returns (?_ : run turn (1 + (bucket (hash k)).length) _ = _)⟩
    rw [hlist.run_skip pos fun a ha => hpass a ha (h.absent.mp hk a ha)]
    exact run_leave hend 0
  · obtain ⟨us, a, vs, hsplit, hak, hm, hother⟩ := h.split hk
    have hmem : ∀ {b}, b ∈ us ++ a :: vs → b ∈ bucket (hash k) := fun hb => hsplit ▸ hb
    have ha : a ∈ bucket (hash k) := hmem (by simp)
    rw [hsplit] at hlist
    obtain ⟨q', hus, hq', _⟩ := segment_append.mp hlist
    refine .inr ⟨a, ha, hak, hm, run_returns (?_ : run turn (1 + us.length) _ = _)⟩
    rw [hus.run_skip pos fun b hb => hpass b (hmem (by simp [hb])) (hother b (by simp [hb])), hq']
    exact run_leave (hstop a ha hak) 0

variable [DecidableEq ι] [DecidableEq α] [DecidableEq K]

omit [DecidableEq α] [DecidableEq K] in
theorem mem_update {i j : ι} {xs : List α} :
    a ∈ Function.update bucket i xs j ↔ j = i ∧ a ∈ xs ∨ j ≠ i ∧ a ∈ bucket j := by
  rw [Function.update_apply]
  split_ifs with h <;> simp [h]

omit [DecidableEq α] [DecidableEq K] in
theorem mem_of_mem_insert {i j : ι} {b : α}
    (hb : b ∈ Function.update bucket i (a :: bucket i) j) : b = a ∨ b ∈ bucket j := by
  rcases mem_update.mp hb with ⟨rfl, hmem⟩ | ⟨_, hmem⟩
  · exact List.mem_cons.mp hmem
  · exact .inr hmem

omit [DecidableEq α] [DecidableEq K] in
theorem forall_insert {P : α → Prop} {i : ι} (ha : P a) (h : ∀ j, ∀ b ∈ bucket j, P b) (j : ι) :
    ∀ b ∈ Function.update bucket i (a :: bucket i) j, P b := by
  intro b hb
  rcases mem_of_mem_insert hb with rfl | hb
  · exact ha
  · exact h j b hb

omit [DecidableEq α] [DecidableEq K] in
/-- What no two elements have in common the new element has for itself. -/
theorem own_insert {β : Type*} {f : α → β} {i : ι} (ha : ∀ j, ∀ b ∈ bucket j, f b ≠ f a)
    (h : ∀ j j', ∀ b ∈ bucket j, ∀ b' ∈ bucket j', f b = f b' → b = b') (j j' : ι) :
    ∀ b ∈ Function.update bucket i (a :: bucket i) j,
      ∀ b' ∈ Function.update bucket i (a :: bucket i) j', f b = f b' → b = b' := by
  intro b hb b' hb' heq
  rcases mem_of_mem_insert hb with rfl | hmem
  · rcases mem_of_mem_insert hb' with rfl | hmem'
    · rfl
    · exact absurd heq.symm (ha j' b' hmem')
  · rcases mem_of_mem_insert hb' with rfl | hmem'
    · exact absurd heq (ha j b hmem)
    · exact h j j' b hmem b' hmem' heq

omit [DecidableEq α] [DecidableEq K] in
theorem mem_of_mem_erase {i j : ι} {b : α} {us vs : List α} (hi : bucket i = us ++ a :: vs)
    (hb : b ∈ Function.update bucket i (us ++ vs) j) : b ∈ bucket j := by
  rcases mem_update.mp hb with ⟨rfl, hmem⟩ | ⟨_, hmem⟩
  · rw [hi]
    exact ((List.Sublist.refl us).append (List.sublist_cons_self a vs)).subset hmem
  · exact hmem

theorem insert (h : Chained hash bucket key content m) (ha : ∀ i, a ∉ bucket i) (hk : m k = none) :
    Chained hash (Function.update bucket (hash k) (a :: bucket (hash k)))
      (Function.update key a k) (Function.update content a v) (Function.update m k (some v)) := by
  have hne : ∀ {i b}, b ∈ bucket i → b ≠ a := fun hb => ne_of_mem_of_not_mem hb (ha _)
  have hkey : ∀ {i b}, b ∈ bucket i → Function.update key a k b = key b := fun hb =>
    Function.update_of_ne (hne hb) _ _
  have hcontent : ∀ {i b}, b ∈ bucket i → Function.update content a v b = content b := fun hb =>
    Function.update_of_ne (hne hb) _ _
  have hmem : ∀ {i b}, b ∈ Function.update bucket (hash k) (a :: bucket (hash k)) i ↔
      i = hash k ∧ b = a ∨ b ∈ bucket i := by
    intro i b
    rw [mem_update, List.mem_cons]
    by_cases hi : i = hash k <;> simp [hi]
  refine ⟨fun i b hb => ?_, fun i => ?_, fun k' v' => ?_⟩
  · rcases hmem.mp hb with ⟨hi, hba⟩ | hb
    · rw [hba, Function.update_self, hi]
    · rw [hkey hb]
      exact h.placed i b hb
  · have hold : ∀ j, (bucket j).map (Function.update key a k) = (bucket j).map key :=
      fun j => List.map_congr_left fun b hb => hkey hb
    rcases eq_or_ne i (hash k) with hi | hi
    · rw [hi, Function.update_self, List.map_cons, Function.update_self, hold, List.nodup_cons]
      refine ⟨fun hmap => ?_, h.distinct _⟩
      obtain ⟨b, hb, hbk⟩ := List.mem_map.mp hmap
      exact h.absent.mp hk b hb hbk
    · rw [Function.update_of_ne hi, hold]
      exact h.distinct i
  · rcases eq_or_ne k' k with hkk | hkk
    · rw [hkk, Function.update_self, Option.some.injEq]
      constructor
      · intro hv
        exact ⟨a, hmem.mpr (.inl ⟨rfl, rfl⟩), Function.update_self .., by simp [hv]⟩
      · rintro ⟨b, hb, hbk, hbv⟩
        rcases hmem.mp hb with ⟨_, hba⟩ | hb
        · rwa [hba, Function.update_self] at hbv
        · exact absurd ((hkey hb).symm.trans hbk) (h.absent.mp hk b hb)
    · rw [Function.update_of_ne hkk, h.lookup k' v']
      constructor
      · rintro ⟨b, hb, hbk, hbv⟩
        exact ⟨b, hmem.mpr (.inr hb), (hkey hb).trans hbk, (hcontent hb).trans hbv⟩
      · rintro ⟨b, hb, hbk, hbv⟩
        rcases hmem.mp hb with ⟨_, hba⟩ | hb
        · rw [hba, Function.update_self] at hbk
          exact absurd hbk.symm hkk
        · exact ⟨b, hb, (hkey hb).symm.trans hbk, (hcontent hb).symm.trans hbv⟩

omit [DecidableEq ι] in
theorem modify (h : Chained hash bucket key content m) (ha : a ∈ bucket (hash k))
    (hk : key a = k) :
    Chained hash bucket key (Function.update content a v) (Function.update m k (some v)) := by
  refine ⟨h.placed, h.distinct, fun k' v' => ?_⟩
  rcases eq_or_ne k' k with hkk | hkk
  · rw [hkk, Function.update_self, Option.some.injEq]
    constructor
    · intro hv
      exact ⟨a, ha, hk, by simp [hv]⟩
    · rintro ⟨b, hb, hbk, hbv⟩
      rwa [h.inj hb ha (hbk.trans hk.symm), Function.update_self] at hbv
  · rw [Function.update_of_ne hkk, h.lookup k' v']
    have hne : ∀ b, key b = k' → b ≠ a := fun b hbk hba => hkk (by rw [← hbk, hba, hk])
    constructor
    · rintro ⟨b, hb, hbk, hbv⟩
      exact ⟨b, hb, hbk, (Function.update_of_ne (hne b hbk) _ _).trans hbv⟩
    · rintro ⟨b, hb, hbk, hbv⟩
      exact ⟨b, hb, hbk, (Function.update_of_ne (hne b hbk) _ _).symm.trans hbv⟩

omit [DecidableEq α] in
theorem erase (h : Chained hash bucket key content m) {us vs : List α}
    (hb : bucket (hash k) = us ++ a :: vs) (hk : key a = k)
    (hother : ∀ b ∈ us ++ vs, key b ≠ k) :
    Chained hash (Function.update bucket (hash k) (us ++ vs)) key content
      (Function.update m k none) := by
  have hsub : (us ++ vs).Sublist (bucket (hash k)) := by
    rw [hb]
    exact (List.Sublist.refl us).append (List.sublist_cons_self a vs)
  have hmem : ∀ {i b}, b ∈ Function.update bucket (hash k) (us ++ vs) i ↔
      b ∈ bucket i ∧ key b ≠ k := by
    intro i b
    rw [mem_update]
    constructor
    · rintro (⟨hi, hbi⟩ | ⟨hi, hbi⟩)
      · exact ⟨hi ▸ hsub.subset hbi, hother b hbi⟩
      · exact ⟨hbi, fun hbk => hi ((h.placed i b hbi).symm.trans (congrArg hash hbk))⟩
    · rintro ⟨hbi, hbk⟩
      rcases eq_or_ne i (hash k) with hi | hi
      · rw [hi, hb, List.mem_append, List.mem_cons] at hbi
        have hba : b ≠ a := fun hba => hbk (hba ▸ hk)
        exact .inl ⟨hi, List.mem_append.mpr (hbi.imp_right fun h => h.resolve_left hba)⟩
      · exact .inr ⟨hi, hbi⟩
  refine ⟨fun i b hbi => h.placed i b (hmem.mp hbi).1, fun i => ?_, fun k' v' => ?_⟩
  · rcases eq_or_ne i (hash k) with hi | hi
    · rw [hi, Function.update_self]
      exact (h.distinct _).sublist (hsub.map key)
    · rw [Function.update_of_ne hi]
      exact h.distinct i
  · rcases eq_or_ne k' k with hkk | hkk
    · rw [hkk, Function.update_self]
      constructor
      · intro hv
        cases hv
      · rintro ⟨b, hbi, hbk, _⟩
        exact absurd hbk (hmem.mp hbi).2
    · rw [Function.update_of_ne hkk, h.lookup k' v']
      constructor
      · rintro ⟨b, hbi, hbk, hbv⟩
        exact ⟨b, hmem.mpr ⟨hbi, fun he => hkk (hbk.symm.trans he)⟩, hbk, hbv⟩
      · rintro ⟨b, hbi, hbk, hbv⟩
        exact ⟨b, (hmem.mp hbi).1, hbk, hbv⟩

end Chained

end EmbeddedCode.Chaining
