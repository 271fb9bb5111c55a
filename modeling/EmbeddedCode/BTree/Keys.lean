import EmbeddedCode.BTree.Runs
import EmbeddedCode.Library.CInt

/-!
# The tree of `main.c`

The comparator of `main.c` subtracts two `int`s, and the difference wraps. It is no order of
the keys, but every tree that is built with it is one that the library describes: every key
is found again, and the keys are sorted exactly when no difference that was computed
overflowed.
-/
namespace EmbeddedCode.BTree

open LinkedTree Loop CInt SearchTree

/-- `elem_t`, an `int`. -/
abbrev Elem := {v : ℤ // Fits v}

def cmpKey (a b : Elem) : ℤ := wrap (a.1 - b.1)

/-- `cmp_data`, for nodes in structures with the given members `data`. -/
def cmpData {α : Type} (data : α → Elem) (a b : α) : ℤ := cmpKey (data a) (data b)

/-- The loop of `main`, from the element `ps + i` on. -/
def buildAll (fuel : ℕ) : List Elem → ℕ → Btree ℕ → (ℕ → Elem) → Option (Btree ℕ × (ℕ → Elem))
  | [], _, t, data => some (t, data)
  | key :: keys, i, t, data => do
      let data := Function.update data i key
      let t ← buildTree fuel (cmpData data) {t with node := bnodeInit t.node i} i
      buildAll fuel keys (i + 1) t data

theorem cmpKey_zero (a b : Elem) : cmpKey a b = 0 ↔ a = b := by
  have ha := a.2
  have hb := b.2
  simp only [Fits, intMin, intMax] at ha hb
  rw [Subtype.ext_iff, cmpKey, wrap, Int.bmod_def]
  split <;> omega

/-- The comparator is right about two keys exactly when their difference is an `int`. -/
theorem cmpKey_neg (a b : Elem) : (cmpKey b a < 0 ↔ b < a) ↔ Fits (b.1 - a.1) := by
  have ha := a.2
  have hb := b.2
  simp only [Fits, intMin, intMax] at ha hb ⊢
  rw [← Subtype.coe_lt_coe, cmpKey, wrap, Int.bmod_def]
  split <;> omega

/-- The nodes before `ps + i` are built, and the tree holds the keys as they were inserted. -/
structure Grown (i : ℕ) (t : Btree ℕ) (data : ℕ → Elem) (keys : List Elem) (T : BinaryTree ℕ) :
    Prop where
  stored : Stored t T
  nodup : (inorder T).Nodup
  bound : ∀ a ∈ inorder T, a < i
  keys : T.map data = grow cmpKey keys

section
variable {i : ℕ} {t : Btree ℕ} {data : ℕ → Elem} {keys : List Elem} {T : BinaryTree ℕ}

theorem Grown.build (h : Grown i t data keys T) (key : Elem) :
    ∃ t' T', Returns (fun fuel => buildTree fuel (cmpData (Function.update data i key))
        {t with node := bnodeInit t.node i} i) t' ∧
      Grown (i + 1) t' (Function.update data i key) (keys ++ [key]) T' := by
  have hnew : i ∉ inorder T := fun hmem => Nat.lt_irrefl i (h.bound i hmem)
  have hdata : ∀ a ∈ inorder T, Function.update data i key a = data a := fun a ha =>
    Function.update_of_ne (ne_of_mem_of_not_mem ha hnew) _ _
  have hst : Stored {t with node := bnodeInit t.node i} T :=
    Rep.congr h.stored fun a ha => bnodeInit_agree _ (ne_of_mem_of_not_mem ha hnew)
  have hzero : cmpData (Function.update data i key) i i = 0 := (cmpKey_zero _ _).mpr rfl
  obtain ⟨t', hrun, hst', -⟩ := buildTree_insert hst h.nodup (bnodeInit_fresh _ _) hnew hzero
    (Nat.lt_succ_self _)
  refine ⟨t', _, buildTree_returns hrun, hst', nodup_insert h.nodup hnew, fun a ha => ?_, ?_⟩
  · rcases mem_insert ha with rfl | ha
    · exact Nat.lt_succ_self a
    · exact (h.bound a ha).trans (Nat.lt_succ_self i)
  · have hmap : (insert (cmpData (Function.update data i key)) i T).map _ = insert cmpKey _ _ :=
      map_insert i T
    rw [map_congr hdata, h.keys, Function.update_self, ← grow_concat] at hmap
    exact hmap

theorem Grown.buildAll (h : Grown i t data keys T) (keys' : List Elem) :
    ∃ t' data' T', Returns (fun fuel => buildAll fuel keys' i t data) (t', data') ∧
      Grown (i + keys'.length) t' data' (keys ++ keys') T' := by
  induction keys' generalizing i t data keys T with
  | nil => exact ⟨t, data, T, returns_const _, by simpa using h⟩
  | cons key keys' ih =>
      obtain ⟨t₁, T₁, hbuild, h₁⟩ := h.build key
      obtain ⟨t', data', T', hrest, h'⟩ := ih h₁
      refine ⟨t', data', T', hbuild.andThen hrest, ?_⟩
      have hlength : i + 1 + keys'.length = i + (key :: keys').length := by
        rw [List.length_cons]
        omega
      rwa [hlength, List.append_assoc, List.singleton_append] at h'

theorem grown_init (node : Links ℕ) (data : ℕ → Elem) :
    Grown 0 (btreeInit node) data [] .nil := ⟨rfl, List.nodup_nil, by simp, rfl⟩

/-- Whatever the order in the tree, a search finds each key that was built. -/
theorem Grown.search (h : Grown i t data keys T) {data' : ℕ → Elem} {probe : ℕ}
    (hdata : ∀ a ∈ inorder T, data' a = data a) (hkey : data' probe ∈ keys) :
    ∃ a ∈ inorder T, Returns (fun fuel => search fuel (cmpData data') t probe) (some a) ∧
      data' a = data' probe := by
  have hgrow : T.map data' = grow cmpKey keys := (map_congr hdata).trans h.keys
  have hmap : (find (cmpData data') probe T).map data' = find cmpKey (data' probe) (T.map data') :=
    map_find probe T
  have hsome : find cmpKey (data' probe) (T.map data') ≠ none := by
    rw [hgrow]
    exact find_grow (fun a => (cmpKey_zero a a).mpr rfl) hkey
  obtain ⟨a, ha⟩ : ∃ a, find (cmpData data') probe T = some a := by
    cases hfind : find (cmpData data') probe T with
    | none => exact absurd (by rw [← hmap, hfind]; rfl) hsome
    | some a => exact ⟨a, rfl⟩
  obtain ⟨hmem, hzero⟩ := find_zero ha
  refine ⟨a, hmem, ⟨T.numNodes + 1, fun fuel hf => ?_⟩, ((cmpKey_zero _ _).mp hzero).symm⟩
  exact (search_find h.stored _ _ hf).trans (congrArg some ha)

theorem Grown.inOrder (h : Grown i t data keys T) :
    Returns (fun fuel => inOrder t.node fuel t.root) (inorder T) ∧
      (inorder T).map data = inorder (grow cmpKey keys) := by
  rw [← h.keys, inorder_map]
  exact ⟨inOrder_returns h.stored.shaped, rfl⟩

end

/-- What a sorted tree is for: the in-order walk meets the keys that were built once each, in
increasing order, and a search finds each of them. -/
structure Sorts (keys : List Elem) (t : Btree ℕ) (data : ℕ → Elem) : Prop where
  inOrder : ∃ xs, Returns (fun fuel => inOrder t.node fuel t.root) xs ∧
    (xs.map data).Pairwise (· < ·) ∧ ∀ k, k ∈ xs.map data ↔ k ∈ keys
  search : ∀ (probe : ℕ) (data' : ℕ → Elem), (∀ n, Linked t n → data' n = data n) →
    data' probe ∈ keys → ∃ n, Returns (fun fuel => search fuel (cmpData data') t probe) (some n) ∧
      Linked t n ∧ data' n = data' probe

/-- No key is so far from an earlier one that their difference overflows, unless a key before
both lies between them. -/
def Close (keys : List Elem) : Prop := ∀ a b, Compared keys a b → Fits (b.1 - a.1)

theorem close_iff (keys : List Elem) : Close keys ↔ Agrees cmpKey keys := by
  simp only [Close, Agrees, cmpKey_neg]

theorem Grown.sorts {i : ℕ} {t : Btree ℕ} {data : ℕ → Elem} {keys : List Elem}
    {T : BinaryTree ℕ} (h : Grown i t data keys T) : Sorts keys t data ↔ Close keys := by
  obtain ⟨hwalk, hmap⟩ := h.inOrder
  rw [close_iff, ← sorted_grow cmpKey_zero, ← hmap]
  constructor
  · rintro ⟨⟨xs, hxs, hsorted, -⟩, -⟩
    rwa [hwalk.unique hxs]
  · intro hsorted
    refine ⟨⟨_, hwalk, hsorted, fun k => ?_⟩, fun probe data' hdata hkey => ?_⟩
    · rw [hmap, mem_grow cmpKey_zero]
    · have hlinked : ∀ a ∈ inorder T, data' a = data a := fun a ha =>
        hdata a ((linked_iff h.stored a).mpr ha)
      obtain ⟨a, ha, hsearch, heq⟩ := h.search hlinked hkey
      exact ⟨a, hsearch, (linked_iff h.stored a).mpr ha, heq⟩

/-- The keys form a sorted tree exactly when no difference that counts overflows. -/
theorem search_tree_iff (keys : List Elem) (node : Links ℕ) (data : ℕ → Elem) :
    (∃ t data', Returns (fun fuel => buildAll fuel keys 0 (btreeInit node) data) (t, data') ∧
      Sorts keys t data') ↔ Close keys := by
  obtain ⟨t, data', T, hbuild, h⟩ := (grown_init node data).buildAll keys
  constructor
  · rintro ⟨t', data'', hbuild', hsorts⟩
    cases hbuild.unique hbuild'
    exact h.sorts.mp hsorts
  · intro hclose
    exact ⟨t, data', hbuild, h.sorts.mpr hclose⟩

/-- With -2147483648 and then 1, the difference wraps to -2147483647, and 1 comes first. -/
theorem search_tree_wraps : ∃ (keys : List Elem) (t : Btree ℕ) (data : ℕ → Elem) (xs : List ℕ),
    keys.map Subtype.val = [-2147483648, 1] ∧
      Returns (fun fuel => buildAll fuel keys 0 (btreeInit ⟨fun _ => none, fun _ => none,
        fun _ => none⟩) fun _ => ⟨0, by decide⟩) (t, data) ∧
      Returns (fun fuel => inOrder t.node fuel t.root) xs ∧
      (xs.map data).map Subtype.val = [1, -2147483648] ∧ ¬ Sorts keys t data := by
  let keys : List Elem := [⟨-2147483648, by decide⟩, ⟨1, by decide⟩]
  obtain ⟨t, data, T, hbuild, h⟩ := (grown_init _ _).buildAll keys
  obtain ⟨hwalk, hmap⟩ := h.inOrder
  have hgrow : (inorder (grow cmpKey keys)).map Subtype.val = [1, -2147483648] := by decide
  have hval : ((inorder T).map data).map Subtype.val = [1, -2147483648] := by
    rw [hmap]
    exact hgrow
  refine ⟨keys, t, data, inorder T, rfl, hbuild, hwalk, hval, ?_⟩
  rintro ⟨⟨xs, hxs, hsorted, -⟩, -⟩
  rw [← hwalk.unique hxs] at hsorted
  have hpair := List.pairwise_map.mpr (hsorted.imp fun h => Subtype.coe_lt_coe.mpr h)
  rw [hval] at hpair
  exact absurd hpair (by decide)

end EmbeddedCode.BTree
