import EmbeddedCode.DataArray.Model
import Mathlib.Data.List.Basic
import Mathlib.Data.List.Nodup
import Mathlib.Data.List.Range

/-!
# The array is a map

The indices in `sorted` stay in the order of the keys whatever comes in, so that the search by
halved steps finds every key that is there and the place of every key that is not.
-/
namespace EmbeddedCode.DataArray

open Loop SteppedSearch Transition

section
variable {α : Type*} [LinearOrder α] {xs pre post : List α} {k : α}

/-- A key divides a list that is in order. -/
theorem exists_split (hs : xs.Pairwise (· < ·)) (k : α) :
    ∃ pre post, xs = pre ++ post ∧ (∀ y ∈ pre, y < k) ∧ ∀ y ∈ post, k ≤ y := by
  induction xs with
  | nil => exact ⟨[], [], rfl, by simp, by simp⟩
  | cons x xs ih =>
      rw [List.pairwise_cons] at hs
      rcases lt_or_ge x k with hlt | hge
      · obtain ⟨pre, post, rfl, hpre, hpost⟩ := ih hs.2
        exact ⟨x :: pre, post, rfl, List.forall_mem_cons.mpr ⟨hlt, hpre⟩, hpost⟩
      · refine ⟨[], x :: xs, rfl, by simp, List.forall_mem_cons.mpr ⟨hge, fun y hy => ?_⟩⟩
        exact hge.trans (hs.1 y hy).le

/-- Of the keys behind it only the first one can be the key itself. -/
theorem lt_of_behind (hs : (pre ++ post).Pairwise (· < ·)) (hpost : ∀ y ∈ post, k ≤ y) {i : ℕ}
    (hi : 0 < i) {y : α} (hy : post[i]? = some y) : k < y := by
  cases post with
  | nil => simp at hy
  | cons x post =>
      obtain ⟨j, rfl⟩ : ∃ j, i = j + 1 := ⟨i - 1, by omega⟩
      rw [List.getElem?_cons_succ] at hy
      have hmem := List.mem_of_getElem? hy
      have hcons := (List.pairwise_append.mp hs).2.1
      rw [List.pairwise_cons] at hcons
      exact (hpost x (by simp)).trans_lt (hcons.1 y hmem)

theorem head_of_mem (hs : (pre ++ post).Pairwise (· < ·)) (hpre : ∀ y ∈ pre, y < k)
    (hpost : ∀ y ∈ post, k ≤ y) (hk : k ∈ pre ++ post) : post[0]? = some k := by
  rcases List.mem_append.mp hk with hmem | hmem
  · exact absurd (hpre k hmem) (lt_irrefl k)
  · obtain ⟨i, hi⟩ := List.mem_iff_getElem?.mp hmem
    cases i with
    | zero => exact hi
    | succ i => exact absurd (lt_of_behind hs hpost (Nat.succ_pos i) hi) (lt_irrefl k)

end

variable {V : Type} {a : Arr V} (aligned : List UInt8 → List UInt8 → Bool)

def keyAt (data : List (Data V)) (i : ℕ) : List ℤ :=
  (data[i]?.map fun du => fold du.key).getD []

namespace Arr

/-- The keys in the order of `sorted`. -/
def keys (a : Arr V) : List (List ℤ) := a.sorted.map (keyAt a.data)

structure Inv (a : Arr V) : Prop where
  perm : a.sorted.Perm (List.range a.data.length)
  sorted : a.keys.Pairwise (· < ·)
  pow : ∃ k ≤ 30, a.nextPowerOf2 = 2 ^ k ∧ a.data.length ≤ 2 ^ k
  short : ∀ du ∈ a.data, du.key.length < 2 ^ 31

theorem Inv.length_sorted (h : Inv a) : a.sorted.length = a.data.length := by
  rw [h.perm.length_eq, List.length_range]

theorem Inv.lt_of_mem (h : Inv a) {i : ℕ} (hi : i ∈ a.sorted) : i < a.data.length :=
  List.mem_range.mp (h.perm.mem_iff.mp hi)

theorem Inv.compareAt (h : Inv a) {key : List UInt8} (hlen : key.length < 2 ^ 31) {pos : ℕ}
    {y : List ℤ} (hy : a.keys[pos]? = some y) : ∃ c, a.compareAt aligned key pos = some c ∧
      (c < 0 ↔ fold key < y) ∧ (c = 0 ↔ fold key = y) := by
  unfold keys at hy
  rw [List.getElem?_map, Option.map_eq_some_iff] at hy
  obtain ⟨ndx, hndx, rfl⟩ := hy
  have hlt := h.lt_of_mem (List.mem_of_getElem? hndx)
  have hkey : keyAt a.data ndx = fold a.data[ndx].key := by
    rw [keyAt, List.getElem?_eq_getElem hlt]
    rfl
  obtain ⟨hneg, hzero⟩ := caselessCompare_compares (aligned key a.data[ndx].key) hlen
    (h.short _ (List.getElem_mem hlt))
  refine ⟨caselessCompare (aligned key a.data[ndx].key) key a.data[ndx].key, ?_, hkey ▸ hneg,
    hkey ▸ hzero⟩
  unfold Arr.compareAt
  rw [hndx]
  simp only [Option.bind_eq_bind, Option.bind_some, List.getElem?_eq_getElem hlt]
  rfl

theorem Inv.length_keys (h : Inv a) : a.keys.length = a.data.length := by
  rw [keys, List.length_map, h.length_sorted]

theorem Inv.located (h : Inv a) {key : List UInt8} (hlen : key.length < 2 ^ 31)
    {pre post : List (List ℤ)}
    (hkeys : a.keys = pre ++ post) (hpre : ∀ y ∈ pre, y < fold key)
    (hpost : ∀ y ∈ post, fold key ≤ y) :
    Located (a.compareAt aligned key) a.data.length pre.length (decide (fold key ∈ a.keys)) := by
  have hs := h.sorted
  have hlength := h.length_keys
  rw [hkeys] at hs
  rw [hkeys, List.length_append] at hlength
  have hget (i : ℕ) : a.keys[pre.length + i]? = post[i]? := by
    rw [hkeys, List.getElem?_append_right (Nat.le_add_right _ _), Nat.add_sub_cancel_left]
  refine ⟨by omega, fun i hi => ?_, fun i hi hlt => ?_, fun hfound => ?_, fun hmissing hlt => ?_⟩
  · have hy : a.keys[i]? = some pre[i] := by
      rw [hkeys, List.getElem?_append_left hi, List.getElem?_eq_getElem hi]
    obtain ⟨c, hc, hneg, hzero⟩ := h.compareAt aligned hlen hy
    have hkey := hpre pre[i] (List.getElem_mem hi)
    refine ⟨c, hc, ?_⟩
    have hnotneg : ¬ c < 0 := fun hc => lt_asymm (hneg.mp hc) hkey
    have hnotzero : c ≠ 0 := fun hc => ne_of_gt hkey (hzero.mp hc)
    omega
  · obtain ⟨j, rfl⟩ : ∃ j, i = pre.length + j := ⟨i - pre.length, by omega⟩
    have hj : j < post.length := by omega
    have hy := List.getElem?_eq_getElem hj
    obtain ⟨c, hc, hneg, -⟩ := h.compareAt aligned hlen ((hget j).trans hy)
    exact ⟨c, hc, hneg.mpr (lt_of_behind hs hpost (by omega) hy)⟩
  · have hmem := of_decide_eq_true hfound
    rw [hkeys] at hmem
    have hhead := head_of_mem hs hpre hpost hmem
    obtain ⟨c, hc, -, hzero⟩ := h.compareAt aligned hlen ((hget 0).trans hhead)
    obtain rfl := hzero.mpr rfl
    have hpos := (List.getElem?_eq_some_iff.mp hhead).choose
    exact ⟨by omega, hc⟩
  · have hmem := of_decide_eq_false hmissing
    have hpos : 0 < post.length := by omega
    have hy := List.getElem?_eq_getElem hpos
    obtain ⟨c, hc, hneg, -⟩ := h.compareAt aligned hlen ((hget 0).trans hy)
    refine ⟨c, hc, hneg.mpr (lt_of_le_of_ne (hpost _ (List.getElem_mem hpos)) fun heq => ?_)⟩
    exact hmem (heq ▸ List.mem_of_getElem? ((hget 0).trans hy))

theorem keyAt_of_getElem? {data : List (Data V)} {i : ℕ} {du : Data V} (h : data[i]? = some du) :
    keyAt data i = fold du.key := by
  rw [keyAt, h]
  rfl

theorem Inv.mem_keys (h : Inv a) {i : ℕ} {du : Data V} (hi : a.data[i]? = some du) :
    i ∈ a.sorted ∧ fold du.key ∈ a.keys := by
  have hlt := (List.getElem?_eq_some_iff.mp hi).choose
  have hmem : i ∈ a.sorted := h.perm.mem_iff.mpr (List.mem_range.mpr hlt)
  exact ⟨hmem, keyAt_of_getElem? hi ▸ List.mem_map_of_mem hmem⟩

theorem Inv.inj (h : Inv a) {i j : ℕ} {du du' : Data V} (hi : a.data[i]? = some du)
    (hj : a.data[j]? = some du') (heq : fold du.key = fold du'.key) : i = j := by
  have hnodup : (a.sorted.map (keyAt a.data)).Nodup := h.sorted.imp fun hlt => ne_of_lt hlt
  refine List.inj_on_of_nodup_map hnodup (h.mem_keys hi).1 (h.mem_keys hj).1 ?_
  rw [keyAt_of_getElem? hi, keyAt_of_getElem? hj, heq]

/-- The entries that an array stands for. -/
def view (a : Arr V) : Entries V := ⟨a.data, a.uniqueNdx⟩

theorem Inv.find_eq_some (h : Inv a) {key : List UInt8} {i : ℕ} {du : Data V}
    (hi : a.data[i]? = some du) (hkey : fold du.key = fold key) : a.view.find key = some i := by
  unfold Entries.find view
  rw [List.findIdx?_eq_some_iff_getElem]
  obtain ⟨hlt, hget⟩ := List.getElem?_eq_some_iff.mp hi
  refine ⟨hlt, by simpa [hget] using hkey, fun j hj => ?_⟩
  simp only [decide_eq_true_eq]
  intro heq
  have hjlt : j < a.data.length := Nat.lt_trans hj hlt
  have := h.inj (List.getElem?_eq_getElem hjlt) hi (heq.trans hkey.symm)
  omega

theorem Inv.find_eq_none (h : Inv a) {key : List UInt8} (hkey : fold key ∉ a.keys) :
    a.view.find key = none := by
  unfold Entries.find view
  rw [List.findIdx?_eq_none_iff]
  intro du hdu
  obtain ⟨i, hi⟩ := List.mem_iff_getElem?.mp hdu
  simp only [decide_eq_false_iff_not]
  exact fun heq => hkey (heq ▸ (h.mem_keys hi).2)

theorem Inv.not_mem_keys (h : Inv a) {key : List UInt8} (hnone : a.view.find key = none) :
    fold key ∉ a.keys := by
  intro hmem
  obtain ⟨ndx, hndx, hkey⟩ := List.mem_map.mp hmem
  have hdu := List.getElem?_eq_getElem (h.lt_of_mem hndx)
  rw [h.find_eq_some hdu ((keyAt_of_getElem? hdu).symm.trans hkey)] at hnone
  exact Option.some_ne_none _ hnone

/-- The search finds what is there, or the place for it. -/
theorem Inv.getIndex (h : Inv a) {key : List UInt8} (hlen : key.length < 2 ^ 31) :
    ∃ pos, a.getIndex aligned key = some (a.view.find key, pos) ∧
      (a.view.find key = none → ∃ pre post, a.keys = pre ++ post ∧ (∀ y ∈ pre, y < fold key) ∧
        (∀ y ∈ post, fold key < y) ∧ (pos = pre.length ∨ pos = pre.length - 1)) := by
  obtain ⟨pre, post, hkeys, hpre, hpost⟩ := exists_split h.sorted (fold key)
  obtain ⟨k, hmax, hk, hle⟩ := h.pow
  obtain ⟨⟨found, pos⟩, hrun, hresult⟩ :=
    search_result (h.located aligned hlen hkeys hpre hpost) hmax hle
  unfold Arr.getIndex
  rw [hk, hrun]
  refine ⟨pos, ?_, fun hnone => ?_⟩
  · by_cases hmem : fold key ∈ a.keys
    · have hfound : found = some pre.length := by simpa [Result, hmem] using hresult
      have hsorted := h.sorted
      have hin := hmem
      rw [hkeys] at hsorted hin
      have hhead := head_of_mem hsorted hpre hpost hin
      have hkey : a.keys[pre.length]? = some (fold key) := by
        rw [hkeys, List.getElem?_append_right (Nat.le_refl _), Nat.sub_self, hhead]
      unfold keys at hkey
      rw [List.getElem?_map, Option.map_eq_some_iff] at hkey
      obtain ⟨ndx, hndx, hkeyAt⟩ := hkey
      have hdu := List.getElem?_eq_getElem (h.lt_of_mem (List.mem_of_getElem? hndx))
      rw [h.find_eq_some hdu ((keyAt_of_getElem? hdu).symm.trans hkeyAt), hfound]
      simp [hndx]
    · have hfound : found = none := by
        have := hresult
        simp only [Result, hmem, decide_false, Bool.false_eq_true, if_false] at this
        exact this.1
      rw [h.find_eq_none hmem, hfound]
      rfl
  · have hmem := h.not_mem_keys hnone
    have hresult' := hresult
    simp only [Result, hmem, decide_false, Bool.false_eq_true, if_false] at hresult'
    refine ⟨pre, post, hkeys, hpre, fun y hy => ?_, hresult'.2⟩
    refine lt_of_le_of_ne (hpost y hy) fun heq => hmem ?_
    rw [hkeys, heq]
    exact List.mem_append_right pre hy

theorem Inv.place (h : Inv a) {key : List UInt8} (hlen : key.length < 2 ^ 31)
    {pre post : List (List ℤ)} (hkeys : a.keys = pre ++ post) (hpre : ∀ y ∈ pre, y < fold key)
    (hpost : ∀ y ∈ post, fold key < y) {pos : ℤ} (hpos : pos = pre.length ∨ pos = pre.length - 1) :
    a.place aligned key pos = some (pre.length : ℤ) := by
  have hlength := h.length_keys
  rw [hkeys, List.length_append] at hlength
  unfold Arr.place
  rcases hpos with rfl | rfl
  · split_ifs with hend hneg
    · rfl
    · omega
    · have hlt : 0 < post.length := by omega
      have hy : a.keys[pre.length]? = some post[0] := by
        rw [hkeys, List.getElem?_append_right (Nat.le_refl _), Nat.sub_self,
          List.getElem?_eq_getElem hlt]
      obtain ⟨c, hc, hcneg, -⟩ := h.compareAt aligned hlen hy
      have hneg := hcneg.mpr (hpost _ (List.getElem_mem hlt))
      rw [Int.toNat_natCast, hc]
      simp only [Option.bind_eq_bind, Option.bind_some, Option.pure_def, Option.some.injEq]
      exact if_neg (by omega)
  · split_ifs with hend hneg
    · omega
    · congr 1
      omega
    · have hlt : pre.length - 1 < pre.length := by omega
      have hy : a.keys[pre.length - 1]? = some pre[pre.length - 1] := by
        rw [hkeys, List.getElem?_append_left hlt, List.getElem?_eq_getElem hlt]
      obtain ⟨c, hc, hcneg, hczero⟩ := h.compareAt aligned hlen hy
      have hkey := hpre _ (List.getElem_mem hlt)
      have hnotneg : ¬ c < 0 := fun hc => lt_asymm (hcneg.mp hc) hkey
      have hnotzero : c ≠ 0 := fun hc => ne_of_gt hkey (hczero.mp hc)
      have hnat : ((pre.length : ℤ) - 1).toNat = pre.length - 1 := by omega
      rw [hnat, hc]
      simp only [Option.bind_eq_bind, Option.bind_some, Option.pure_def, Option.some.injEq]
      rw [if_pos (by omega)]
      omega

theorem keyAt_append {data : List (Data V)} {i : ℕ} (str : Data V) (h : i < data.length) :
    keyAt (data ++ [str]) i = keyAt data i := by
  rw [keyAt, List.getElem?_append_left h, keyAt]

/-- A new datum at the place of its key leaves the keys in order. -/
theorem Inv.store (h : Inv a) {str : Data V} (hstr : str.key.length < 2 ^ 31)
    (hmax : a.data.length + 1 ≤ 2 ^ 30) {pre post : List (List ℤ)}
    (hkeys : a.keys = pre ++ post) (hpre : ∀ y ∈ pre, y < fold str.key)
    (hpost : ∀ y ∈ post, fold str.key < y) :
    ∃ a', a.store str pre.length = some a' ∧ Inv a' ∧ a'.view = ⟨a.data ++ [str], a.uniqueNdx⟩ := by
  have hlength := h.length_keys
  rw [hkeys, List.length_append] at hlength
  have hold : a.sorted.map (keyAt (a.data ++ [str])) = pre ++ post := by
    rw [← hkeys]
    exact List.map_congr_left fun i hi => keyAt_append str (h.lt_of_mem hi)
  have hnew : keyAt (a.data ++ [str]) a.data.length = fold str.key :=
    keyAt_of_getElem? List.getElem?_concat_length
  refine ⟨_, if_pos ⟨by omega, by omega⟩, ⟨?_, ?_, ?_, ?_⟩, rfl⟩
  · simp only [Int.toNat_natCast, List.length_append, List.length_singleton]
    refine List.perm_middle.trans ?_
    rw [List.take_append_drop, List.range_succ]
    exact (h.perm.cons _).trans (List.perm_append_singleton _ _).symm
  · simp only [Arr.keys, Int.toNat_natCast, List.map_append, List.map_cons, List.map_take,
      List.map_drop, hold, hnew, List.take_left, List.drop_left]
    have hsorted := h.sorted
    rw [hkeys, List.pairwise_append] at hsorted
    rw [List.pairwise_append, List.pairwise_cons]
    refine ⟨hsorted.1, ⟨hpost, hsorted.2.1⟩, fun x hx => List.forall_mem_cons.mpr ⟨hpre x hx, ?_⟩⟩
    exact hsorted.2.2 x hx
  · obtain ⟨k, hk30, hk, hle⟩ := h.pow
    simp only [List.length_append, List.length_singleton]
    split_ifs with hfull
    · have hlt : 2 ^ k < 2 ^ 30 := by omega
      refine ⟨k + 1, (Nat.pow_lt_pow_iff_right (by decide)).mp hlt,
        by rw [hk, Nat.shiftLeft_eq, Nat.pow_one, Nat.pow_succ], ?_⟩
      have hpos := Nat.two_pow_pos k
      rw [Nat.pow_succ]
      omega
    · exact ⟨k, hk30, hk, by omega⟩
  · intro du hdu
    rcases List.mem_append.mp hdu with hdu | hdu
    · exact h.short du hdu
    · rw [List.mem_singleton.mp hdu]
      exact hstr

theorem Inv.set (h : Inv a) {i : ℕ} {old du : Data V} (hi : a.data[i]? = some old)
    (hkey : fold du.key = fold old.key) : Inv {a with data := a.data.set i du} := by
  have hlength : du.key.length = old.key.length := by
    simpa [fold] using congrArg List.length hkey
  have hkeyAt : keyAt (a.data.set i du) = keyAt a.data := by
    funext j
    by_cases hj : i = j
    · subst hj
      have hlt := (List.getElem?_eq_some_iff.mp hi).choose
      rw [keyAt_of_getElem? (List.getElem?_set_self hlt), keyAt_of_getElem? hi, hkey]
    · rw [keyAt, List.getElem?_set_ne hj, keyAt]
  refine ⟨?_, ?_, ?_, fun du' hdu' => ?_⟩
  · rw [List.length_set]
    exact h.perm
  · unfold keys
    rw [hkeyAt]
    exact h.sorted
  · rw [List.length_set]
    exact h.pow
  · rcases List.mem_or_eq_of_mem_set hdu' with hdu' | rfl
    · exact h.short du' hdu'
    · rw [hlength]
      exact h.short old (List.mem_of_getElem? hi)

/-- What an operation of the array leaves is what the operation of the entries leaves. -/
def Agrees (a' : Option (Arr V)) (e : Option (Entries V)) : Prop :=
  a'.map view = e ∧ ∀ b, a' = some b → Inv b

theorem Agrees.some {b : Arr V} (h : Inv b) : Agrees (some b) (some b.view) :=
  ⟨rfl, fun _ heq => Option.some.inj heq ▸ h⟩

theorem agrees_none : Agrees (none : Option (Arr V)) none := ⟨rfl, by simp⟩

variable (insertDup : Data V → Data V → V)

/-- The key under which a datum is stored is short. -/
theorem length_named {str : Data V} (hstr : str.key.length < 2 ^ 31) {ndx : ℕ}
    (hndx : ndx < 2 ^ 63) : (str.named ndx).1.key.length < 2 ^ 31 := by
  unfold Data.named
  split_ifs
  · have hdigits : (Nat.toDigits 10 ndx).length ≤ 19 :=
      (Nat.length_toDigits_le_iff (by decide) (by decide)).mpr (by omega)
    simp only [copyLong, List.length_append, List.length_map, List.length_singleton]
    omega
  · exact hstr

theorem Inv.insertUnique (h : Inv a) {str : Data V} (hstr : str.key.length < 2 ^ 31)
    (hndx : a.uniqueNdx < 2 ^ 63)
    (hsmall : ∀ e, a.view.insertUnique insertDup str = some e → e.Small) :
    Agrees ((a.insertUnique aligned insertDup str).map Prod.fst)
      (a.view.insertUnique insertDup str) := by
  obtain ⟨named, ndx, hnamed⟩ : ∃ named ndx, str.named a.uniqueNdx = (named, ndx) := ⟨_, _, rfl⟩
  have hb : Inv {a with uniqueNdx := ndx} := ⟨h.perm, h.sorted, h.pow, h.short⟩
  have hlen : named.key.length < 2 ^ 31 := by
    have := length_named hstr hndx
    rwa [hnamed] at this
  obtain ⟨pos, hget, hplace⟩ := hb.getIndex aligned hlen
  unfold Arr.insertUnique
  unfold Entries.insertUnique at hsmall ⊢
  simp only [view, hnamed] at *
  generalize hfind : Entries.find ⟨a.data, ndx⟩ named.key = found at *
  simp only [hget, Option.bind_eq_bind, Option.bind_some]
  cases found with
  | some i =>
      obtain ⟨hlt, hkey, -⟩ := List.findIdx?_eq_some_iff_getElem.mp hfind
      have hi := List.getElem?_eq_getElem hlt
      simp only [hi, Option.bind_some]
      split_ifs with htype
      · exact Agrees.some (hb.set hi rfl)
      · exact agrees_none
  | none =>
      simp only
      split_ifs with hmax
      · exact Agrees.some hb
      · obtain ⟨pre, post, hkeys, hpre, hpost, hpos⟩ := hplace rfl
        rw [if_neg hmax] at hsmall
        have hfew := (hsmall _ rfl).1
        rw [List.length_append, List.length_singleton] at hfew
        obtain ⟨b, hstore, hinv, hview⟩ := hb.store hlen hfew hkeys hpre hpost
        rw [hb.place aligned hlen hkeys hpre hpost hpos, Option.bind_some, hstore]
        exact hview ▸ Agrees.some hinv

theorem Inv.step (h : Inv a) {op : Op V} (hop : op.Short) (hndx : a.uniqueNdx < 2 ^ 63)
    (hsmall : ∀ e, Entries.step insertDup a.view op = some e → e.Small) :
    Agrees (Arr.step aligned insertDup a op) (Entries.step insertDup a.view op) := by
  cases op with
  | insertUnique str => exact h.insertUnique aligned insertDup hop hndx hsmall
  | replace du =>
      obtain ⟨pos, hget, -⟩ := h.getIndex aligned (show du.key.length < 2 ^ 31 from hop)
      unfold Arr.step Arr.replace
      unfold Entries.step at hsmall ⊢
      simp only [hget, Option.bind_eq_bind, Option.bind_some]
      cases hfind : a.view.find du.key with
      | some i =>
          obtain ⟨hlt, hkey, -⟩ := List.findIdx?_eq_some_iff_getElem.mp hfind
          have hi := List.getElem?_eq_getElem hlt
          simp only [view] at hi
          simp only [hi, Option.bind_some]
          exact Agrees.some (h.set hi (of_decide_eq_true hkey).symm)
      | none =>
          simp only [hfind] at hsmall
          have hinsert := h.insertUnique aligned insertDup hop hndx hsmall
          rw [Option.map_bind]
          simpa [Function.comp_def, Option.map_eq_bind] using hinsert
  | reset =>
      obtain ⟨k, hk30, hk, -⟩ := h.pow
      exact Agrees.some ⟨List.Perm.refl _, List.Pairwise.nil, ⟨k, hk30, hk, Nat.zero_le _⟩,
        by simp [reset]⟩

theorem Inv.run (h : Inv a) {ops : List (Op V)} (hops : ∀ op ∈ ops, op.Short)
    (hsmall : ∀ k e, (entries insertDup).run a.view (ops.take k) = some e → e.Small) :
    Agrees ((arrays aligned insertDup).run a ops) ((entries insertDup).run a.view ops) := by
  induction ops generalizing a with
  | nil => exact Agrees.some h
  | cons op ops ih =>
      rw [List.forall_mem_cons] at hops
      have hnow : a.view.Small := hsmall 0 _ rfl
      have hstep := h.step aligned insertDup hops.1 hnow.2 fun e he => hsmall 1 e (by
        rw [List.take_succ_cons, List.take_zero, Machine.run_cons]
        exact Option.bind_eq_some_iff.mpr ⟨e, he, rfl⟩)
      rw [Machine.run_cons, Machine.run_cons]
      unfold arrays entries at *
      simp only at *
      cases hop : Arr.step aligned insertDup a op with
      | none =>
          rw [hop] at hstep
          rw [← hstep.1]
          exact agrees_none
      | some b =>
          rw [hop] at hstep
          rw [← hstep.1]
          refine ih (hstep.2 b rfl) hops.2 fun k e he => hsmall (k + 1) e ?_
          rw [List.take_succ_cons, Machine.run_cons]
          exact Option.bind_eq_some_iff.mpr ⟨b.view, hstep.1.symm, he⟩

theorem inv_init : Inv (Arr.init : Arr V) :=
  ⟨List.Perm.refl _, List.Pairwise.nil, ⟨0, by decide, rfl, Nat.zero_le _⟩, by simp [Arr.init]⟩

theorem Inv.pairwise (h : Inv a) : a.data.Pairwise fun du du' => fold du.key ≠ fold du'.key := by
  rw [List.pairwise_iff_getElem]
  intro i j hi hj hlt heq
  exact Nat.ne_of_lt hlt (h.inj (List.getElem?_eq_getElem hi) (List.getElem?_eq_getElem hj) heq)

theorem Inv.getElement (h : Inv a) {key : List UInt8} (hlen : key.length + 1 < 2 ^ 31) :
    a.getElement aligned key =
      some (a.data.find? fun du => fold du.key = fold (key ++ [0])) := by
  have hkey : (key ++ [0]).length < 2 ^ 31 := by simpa using hlen
  obtain ⟨pos, hget, -⟩ := h.getIndex aligned hkey
  unfold Arr.getElement
  rw [hget]
  simp only [Option.bind_eq_bind, Option.bind_some]
  cases hfind : a.view.find (key ++ [0]) with
  | none =>
      refine congrArg some (List.find?_eq_none.mpr fun du hdu => ?_).symm
      have := List.findIdx?_eq_none_iff.mp hfind du hdu
      rw [this]
      decide
  | some i =>
      obtain ⟨hlt, hkey, hbefore⟩ := List.findIdx?_eq_some_iff_getElem.mp hfind
      have hi := List.getElem?_eq_getElem hlt
      simp only [view] at hi
      simp only [hi, Option.bind_some, Option.pure_def, Option.some.injEq]
      rw [eq_comm, List.find?_eq_some_iff_getElem]
      refine ⟨hkey, i, hlt, rfl, fun j hj => ?_⟩
      rw [Bool.not_eq_true']
      exact Bool.eq_false_iff.mpr (hbefore j hj)

end Arr

theorem named_le (str : Data V) (ndx : ℕ) : (str.named ndx).2 ≤ ndx + 1 := by
  unfold Data.named
  split_ifs
  · exact Nat.le_refl _
  · exact Nat.le_succ ndx

namespace Entries

variable {insertDup : Data V → Data V → V} {e e' : Entries V}

theorem insertUnique_grows {str : Data V} (h : e.insertUnique insertDup str = some e') :
    e'.list.length ≤ e.list.length + 1 ∧ e'.uniqueNdx ≤ e.uniqueNdx + 1 := by
  have hndx := named_le str e.uniqueNdx
  unfold Entries.insertUnique at h
  simp only at h
  split at h
  · obtain ⟨dst, -, h⟩ := Option.bind_eq_some_iff.mp h
    split_ifs at h
    cases h
    exact ⟨by simp, hndx⟩
  · split_ifs at h
    · cases h
      exact ⟨Nat.le_succ _, hndx⟩
    · cases h
      exact ⟨by simp, hndx⟩

/-- An operation adds at most one entry and uses at most one index for a name. -/
theorem step_grows {op : Op V} (h : e.step insertDup op = some e') :
    e'.list.length ≤ e.list.length + 1 ∧ e'.uniqueNdx ≤ e.uniqueNdx + 1 := by
  cases op with
  | insertUnique str => exact insertUnique_grows h
  | replace du =>
      unfold Entries.step at h
      cases hfind : e.find du.key with
      | some i =>
          simp only [hfind, Option.some.injEq] at h
          subst h
          simp
      | none =>
          simp only [hfind] at h
          exact insertUnique_grows h
  | reset =>
      cases h
      simp

/-- So a run of few operations stays small. -/
theorem small_of_length {ops : List (Op V)}
    (h : (entries insertDup).run e ops = some e') (hlist : e.list.length + ops.length ≤ 2 ^ 30)
    (hndx : e.uniqueNdx + ops.length < 2 ^ 63) : e'.Small := by
  induction ops generalizing e with
  | nil =>
      cases h
      exact ⟨hlist, hndx⟩
  | cons op ops ih =>
      rw [Machine.run_cons] at h
      obtain ⟨e₁, hstep, h⟩ := Option.bind_eq_some_iff.mp h
      obtain ⟨hgrow, hgrow'⟩ := step_grows hstep
      rw [List.length_cons] at hlist hndx
      exact ih h (by omega) (by omega)

end Entries

/-- An array is a map whose keys do not tell cases apart, whatever is put into it, as long as there
are not more than `2 ^ 30` entries at a time. -/
theorem array_is_map (aligned : List UInt8 → List UInt8 → Bool) (insertDup : Data V → Data V → V)
    {ops : List (Op V)} (hops : ∀ op ∈ ops, op.Short)
    (hsmall : ∀ k e, (entries insertDup).run ⟨[], 0⟩ (ops.take k) = some e → e.Small) :
    ((arrays aligned insertDup).run Arr.init ops).map Arr.view =
        (entries insertDup).run ⟨[], 0⟩ ops ∧
      ∀ a, (arrays aligned insertDup).run Arr.init ops = some a →
        (a.data.Pairwise fun du du' => fold du.key ≠ fold du'.key) ∧
        ∀ key : List UInt8, key.length + 1 < 2 ^ 31 → a.getElement aligned key =
          some (a.data.find? fun du => fold du.key = fold (key ++ [0])) := by
  obtain ⟨hrun, hinv⟩ := Arr.inv_init.run aligned insertDup hops hsmall
  exact ⟨hrun, fun a ha => ⟨(hinv a ha).pairwise, fun _ => (hinv a ha).getElement aligned⟩⟩

/-- A key in another case finds the datum, and what comes under it is added to its value. -/
theorem array_is_map_cases :
    ∃ a, (arrays (fun _ _ => false) fun dst src : Data ℕ => dst.value + src.value).run Arr.init
        [.insertUnique ⟨.count, [66, 0], false, 1⟩, .insertUnique ⟨.count, [97, 0], false, 2⟩,
          .insertUnique ⟨.count, [98, 0], false, 3⟩] = some a ∧
      a.sorted = [1, 0] ∧
      a.getElement (fun _ _ => false) [98] = some (some ⟨.count, [66, 0], false, 4⟩) := by
  let ops : List (Op ℕ) := [.insertUnique ⟨.count, [66, 0], false, 1⟩,
    .insertUnique ⟨.count, [97, 0], false, 2⟩, .insertUnique ⟨.count, [98, 0], false, 3⟩]
  have hrun : (arrays (fun _ _ => false) fun dst src : Data ℕ => dst.value + src.value).run Arr.init
      ops = some ⟨[⟨.count, [66, 0], false, 4⟩, ⟨.count, [97, 0], false, 2⟩], [1, 0], 0, 2⟩ := by
    decide +kernel
  have hops : ∀ op ∈ ops, op.Short := by simp [ops, Op.Short]
  obtain ⟨-, hmap⟩ := array_is_map (fun _ _ => false)
    (fun dst src : Data ℕ => dst.value + src.value) hops fun k e he => by
      have hlen : (ops.take k).length ≤ 3 := List.length_take_le' k ops
      exact Entries.small_of_length he (by simp only [List.length_nil]; omega) (by simp only; omega)
  refine ⟨_, hrun, rfl, ?_⟩
  rw [(hmap _ hrun).2 [98] (by decide)]
  decide +kernel

end EmbeddedCode.DataArray
