import EmbeddedCode.ArraySort.Sorted

/-!
# Merge sort

The merge of the two halves is the merge of two lists: what it has put into the local
array, followed by the merge of what is left of the halves, is always the merge of the
halves. `1227/sort.c` sorts the halves only from four elements on. A part of three elements
is merged from one element and two that nobody has sorted.
-/
namespace EmbeddedCode.ArraySort

open CInt Loop Rearrange

section Halves
variable {below : ℤ → ℤ → Bool} {a : ℤ} {n mid : ℕ} {mem : Mem} {b : Temp} {xs : List ℤ}

def Filled (b : Temp) (xs : List ℤ) : Prop := ∀ t : ℕ, t < xs.length → b t = xs[t]?

theorem filled_nil (b : Temp) : Filled b [] := fun t ht => absurd ht (Nat.not_lt_zero t)

theorem Filled.concat (h : Filled b xs) (x : ℤ) :
    Filled (Function.update b xs.length (some x)) (xs ++ [x]) := by
  intro t ht
  rw [List.length_append, List.length_singleton] at ht
  rcases eq_or_ne t xs.length with rfl | hne
  · rw [Function.update_self, List.getElem?_concat_length]
  · rw [Function.update_of_ne (by omega), List.getElem?_append_left (by omega)]
    exact h t (by omega)

theorem put_eq (h : xs.length < n) (x : ℤ) :
    b.put n xs.length x = some (Function.update b xs.length (some x)) :=
  if_pos ⟨by omega, by omega⟩

/-- What is in the local array, and what is left of the halves. -/
structure Merging (mem : Mem) (a : ℤ) (mid n : ℕ) (s : Merge) (done : List ℤ) (l r : ℕ) :
    Prop where
  left : s.l = l
  right : s.r = r
  index : s.i = done.length
  filled : Filled s.b done
  low : l ≤ mid
  high : r ≤ n
  length : done.length + mid = l + r
  merged : done ++ (slice mem (a + l) (mid - l)).merge (slice mem (a + r) (n - r)) =
    (slice mem a mid).merge (slice mem (a + mid) (n - mid))

theorem Merging.takeLeft {s : Merge} {done : List ℤ} {l r : ℕ} (h : Merging mem a mid n s done l r)
    (hl : l < mid) (hr : r < n) (hle : mem (a + l) ≤ mem (a + r)) :
    Merging mem a mid n {s with
      i := s.i + 1
      l := s.l + 1
      b := Function.update s.b s.i (some (mem (a + l)))} (done ++ [mem (a + l)]) (l + 1) r where
  left := by simp [h.left]
  right := h.right
  index := by simp [h.index]
  filled := h.index ▸ h.filled.concat _
  low := hl
  high := h.high
  length := by
    have := h.length
    simp only [List.length_append, List.length_singleton]
    omega
  merged := by
    rw [← h.merged, slice_next mem a hl, slice_next mem a hr,
      List.cons_merge_cons_pos _ _ _ (decide_eq_true hle), List.append_assoc,
      List.singleton_append]

theorem Merging.takeRight {s : Merge} {done : List ℤ} {l r : ℕ} (h : Merging mem a mid n s done l r)
    (hl : l < mid) (hr : r < n) (hlt : ¬ mem (a + l) ≤ mem (a + r)) :
    Merging mem a mid n {s with
      i := s.i + 1
      r := s.r + 1
      b := Function.update s.b s.i (some (mem (a + r)))} (done ++ [mem (a + r)]) l (r + 1) where
  left := h.left
  right := by simp [h.right]
  index := by simp [h.index]
  filled := h.index ▸ h.filled.concat _
  low := h.low
  high := hr
  length := by
    have := h.length
    simp only [List.length_append, List.length_singleton]
    omega
  merged := by
    rw [← h.merged, slice_next mem a hl, slice_next mem a hr,
      List.cons_merge_cons_neg _ _ _ (by simpa using hlt), List.append_assoc,
      List.singleton_append]

section Turns
variable {w : Arr} {m : ℤ} {s : Merge} {b' : Temp}

theorem mergeTurn_left (hl : s.l < m) (hr : below s.r w.n = true) (hp : w.Has (w.a + s.l))
    (hq : w.Has (w.a + s.r)) (hle : mem (w.a + s.l) ≤ mem (w.a + s.r))
    (hput : s.b.put w.n s.i (mem (w.a + s.l)) = some b') (hi : checked (s.i + 1) = some (s.i + 1))
    (hnext : checked (s.l + 1) = some (s.l + 1)) :
    mergeTurn below w mem m s = some (.again {s with i := s.i + 1, l := s.l + 1, b := b'}) := by
  have hcond : (decide (s.l < m) && below s.r w.n) = true := by simp [hl, hr]
  simp only [mergeTurn, hcond, if_true, Arr.load_eq hp, Arr.load_eq hq, hput, hi, hnext,
    if_pos hle, Option.bind_eq_bind, Option.bind_some]

theorem mergeTurn_right (hl : s.l < m) (hr : below s.r w.n = true) (hp : w.Has (w.a + s.l))
    (hq : w.Has (w.a + s.r)) (hlt : ¬ mem (w.a + s.l) ≤ mem (w.a + s.r))
    (hput : s.b.put w.n s.i (mem (w.a + s.r)) = some b') (hi : checked (s.i + 1) = some (s.i + 1))
    (hnext : checked (s.r + 1) = some (s.r + 1)) :
    mergeTurn below w mem m s = some (.again {s with i := s.i + 1, r := s.r + 1, b := b'}) := by
  have hcond : (decide (s.l < m) && below s.r w.n) = true := by simp [hl, hr]
  simp only [mergeTurn, hcond, if_true, Arr.load_eq hp, Arr.load_eq hq, hput, hi, hnext,
    if_neg hlt, Option.bind_eq_bind, Option.bind_some]

end Turns

theorem merge_returns (hbelow : ∀ i : ℤ, 0 ≤ i → i ≤ n → below i n = decide (i < n))
    (hfit : (n : ℤ) ≤ intMax) (hmid : mid ≤ n) (mem : Mem) (a : ℤ) :
    ∃ s, Returns (fun fuel =>
        run (mergeTurn below ⟨a, n⟩ mem mid) fuel ⟨0, mid, 0, fun _ => none⟩) s ∧
      ∃ done l r, Merging mem a mid n s done l r ∧ (l = mid ∨ r = n) := by
  apply run_of_measure (I := fun s => ∃ done l r, Merging mem a mid n s done l r)
    (fun s => ((mid : ℤ) + n - s.l - s.r).toNat)
  · rintro ⟨l', r', i', b⟩ ⟨done, l, r, h⟩
    obtain rfl : l' = l := h.left
    obtain rfl : r' = r := h.right
    obtain rfl : i' = done.length := h.index
    have hlow := h.low
    have hhigh := h.high
    have hlength := h.length
    have hbelow := hbelow r (by omega) (by omega)
    by_cases hmore : l < mid ∧ r < n
    · obtain ⟨hlm, hrn⟩ := hmore
      have hmore : below r n = true := by simp [hbelow, hrn]
      have hp : (Arr.mk a n).Has (a + l) := Arr.has_index (by omega) (by omega)
      have hq : (Arr.mk a n).Has (a + r) := Arr.has_index (by omega) (by omega)
      have hput : ∀ x, b.put n done.length x = some (Function.update b done.length (some x)) :=
        put_eq (by omega)
      have hi : checked ((done.length : ℤ) + 1) = some ((done.length : ℤ) + 1) :=
        checked_of_le (by omega) (by omega) hfit
      by_cases hle : mem (a + l) ≤ mem (a + r)
      · have hnext : checked ((l : ℤ) + 1) = some ((l : ℤ) + 1) :=
          checked_of_le (by omega) (by omega) hfit
        refine .inl ⟨_, ?_, ⟨_, _, _, h.takeLeft hlm hrn hle⟩, by simp only; omega⟩
        exact mergeTurn_left (Int.ofNat_lt.mpr hlm) hmore hp hq hle (hput _) hi hnext
      · have hnext : checked ((r : ℤ) + 1) = some ((r : ℤ) + 1) :=
          checked_of_le (by omega) (by omega) hfit
        refine .inl ⟨_, ?_, ⟨_, _, _, h.takeRight hlm hrn hle⟩, by simp only; omega⟩
        exact mergeTurn_right (Int.ofNat_lt.mpr hlm) hmore hp hq hle (hput _) hi hnext
    · have hcond : ¬ (decide ((l : ℤ) < mid) && below r n) = true := by
        simp only [hbelow, Bool.and_eq_true, decide_eq_true_eq]
        omega
      exact .inr ⟨_, if_neg hcond, done, l, r, h, by omega⟩
  · refine ⟨[], 0, mid, ?_⟩
    exact {
      left := rfl
      right := rfl
      index := rfl
      filled := filled_nil _
      low := Nat.zero_le mid
      high := hmid
      length := rfl
      merged := by simp }

theorem copy_returns (more : ℤ → Bool) {l hi : ℕ}
    (hmore : ∀ i : ℕ, i ≤ hi → more i = decide (i < hi))
    (hfit : (n : ℤ) ≤ intMax) (hhi : hi ≤ n) (hl : l ≤ hi) (hroom : xs.length + (hi - l) ≤ n)
    (hb : Filled b xs) (mem : Mem) (a : ℤ) :
    ∃ r, Returns (fun fuel => run (copyTurn more ⟨a, n⟩ mem) fuel (l, xs.length, b)) r ∧
      r.1 = ((xs ++ slice mem (a + l) (hi - l)).length : ℤ) ∧
      Filled r.2 (xs ++ slice mem (a + l) (hi - l)) := by
  apply run_of_measure (fun s => ((hi : ℤ) - s.1).toNat) (I := fun s => ∃ (l' : ℕ) (ys : List ℤ),
    s.1 = (l' : ℤ) ∧ s.2.1 = (ys.length : ℤ) ∧ Filled s.2.2 ys ∧ l' ≤ hi ∧
      ys.length + (hi - l') ≤ n ∧
      ys ++ slice mem (a + l') (hi - l') = xs ++ slice mem (a + l) (hi - l))
  · rintro ⟨_, _, b⟩ ⟨l', ys, rfl, rfl, hfilled, hlow, hroom, heq⟩
    simp only at hfilled
    rcases Nat.lt_or_ge l' hi with hlt | hge
    · have hcond : more l' = true := by simp [hmore l' hlow, hlt]
      have hp : (Arr.mk a n).Has (a + l') := Arr.has_index (by omega) (by omega)
      have hi : checked ((ys.length : ℤ) + 1) = some ((ys.length : ℤ) + 1) :=
        checked_of_le (by omega) (by omega) hfit
      have hnext : checked ((l' : ℤ) + 1) = some ((l' : ℤ) + 1) :=
        checked_of_le (by omega) (by omega) hfit
      refine .inl ⟨(l' + 1, ys.length + 1, Function.update b ys.length (some (mem (a + l')))), ?_,
        ⟨l' + 1, ys ++ [mem (a + l')], ?_, ?_, hfilled.concat _, hlt, ?_, ?_⟩, ?_⟩
      · simp only [copyTurn, hcond, if_true, Arr.load_eq hp, put_eq (show ys.length < n by omega),
          hi, hnext, Option.bind_eq_bind, Option.bind_some]
      · simp
      · simp
      · simp only [List.length_append, List.length_singleton]
        omega
      · rw [← heq, slice_next mem a hlt, List.append_assoc, List.singleton_append]
      · simp only
        omega
    · obtain rfl : l' = hi := by omega
      have hcond : ¬ more l' = true := by simp [hmore l' hlow]
      rw [Nat.sub_self, slice_zero, List.append_nil] at heq
      refine .inr ⟨(ys.length, b), ?_, by rw [← heq], heq ▸ hfilled⟩
      simp only [copyTurn, if_neg hcond]
  · exact ⟨l, xs, rfl, rfl, hb, hl, hroom, rfl⟩

theorem copyBack_returns (hbelow : ∀ i : ℤ, 0 ≤ i → i ≤ n → below i n = decide (i < n))
    (hfit : (n : ℤ) ≤ intMax) (hb : Filled b xs) (hxs : xs.length = n) (mem : Mem) (a : ℤ) :
    ∃ mem', Returns (fun fuel => run (copyBackTurn below ⟨a, n⟩ b) fuel (mem, 0)) mem' ∧
      slice mem' a n = xs ∧ ∀ p, ¬ (Arr.mk a n).Has p → mem' p = mem p := by
  apply run_of_measure (fun s => ((n : ℤ) - s.2).toNat) (I := fun s => ∃ i : ℕ, s.2 = (i : ℤ) ∧
    i ≤ n ∧ slice s.1 a i = xs.take i ∧ ∀ p, ¬ (Arr.mk a n).Has p → s.1 p = mem p)
  · rintro ⟨mem', _⟩ ⟨i, rfl, hle, hslice, hframe⟩
    simp only at hslice hframe
    have hbelow := hbelow i (by omega) (by omega)
    rcases Nat.lt_or_ge i n with hlt | hge
    · have hcond : below i n = true := by simp [hbelow, hlt]
      have hp : (Arr.mk a n).Has (a + i) := Arr.has_index (by omega) (by omega)
      have hlength : i < xs.length := hxs ▸ hlt
      have hget : b.get n i = some xs[i] := by
        rw [Temp.get, if_pos ⟨by omega, by omega⟩, hb i hlength, List.getElem?_eq_getElem]
      have hnext : checked ((i : ℤ) + 1) = some ((i : ℤ) + 1) :=
        checked_of_le (by omega) (by omega) hfit
      refine .inl ⟨(Function.update mem' (a + i) xs[i], i + 1), ?_,
        ⟨i + 1, ?_, hlt, ?_, fun p hp' => ?_⟩, ?_⟩
      · simp only [copyBackTurn, hcond, if_true, hget, Arr.store_eq hp, hnext, Option.bind_eq_bind,
          Option.bind_some]
      · simp
      · have hslice' : slice (Function.update mem' (a + i) xs[i]) a i =
            slice mem' a i := slice_congr fun q _ hq => Function.update_of_ne (by omega) _ _
        simp only
        rw [slice_succ, Function.update_self, List.take_succ_eq_append_getElem hlength,
          ← hslice, hslice']
      · have hne : p ≠ a + i := by
          rintro rfl
          exact hp' hp
        simp only
        rw [Function.update_of_ne hne, hframe p hp']
      · simp only
        omega
    · obtain rfl : i = n := by omega
      have hcond : ¬ below i i = true := by simp [hbelow]
      exact .inr ⟨mem', if_neg hcond, by rw [hslice, ← hxs, List.take_length], hframe⟩
  · exact ⟨0, rfl, Nat.zero_le n, rfl, fun _ _ => rfl⟩

/-- When one of the halves is used up, what is left of the other one follows. -/
theorem Merging.rest {s : Merge} {done : List ℤ} {l r : ℕ} (h : Merging mem a mid n s done l r)
    (hdone : l = mid ∨ r = n) :
    (done ++ slice mem (a + l) (mid - l)) ++ slice mem (a + r) (n - r) =
      (slice mem a mid).merge (slice mem (a + mid) (n - mid)) := by
  rw [← h.merged, List.append_assoc]
  rcases hdone with rfl | rfl <;> simp

/-- What the array holds afterwards is the merge of the two lists it held before. -/
theorem mergeHalves_returns (below : ℤ → ℤ → Bool)
    (hbelow : ∀ i : ℤ, 0 ≤ i → i ≤ n → below i n = decide (i < n))
    (hfit : (n : ℤ) ≤ intMax) (hmid : mid ≤ n) (mem : Mem) (a : ℤ) :
    ∃ mem', Returns (fun fuel => mergeHalves below fuel mem ⟨a, n⟩ mid) mem' ∧
      slice mem' a n = (slice mem a mid).merge (slice mem (a + mid) (n - mid)) ∧
      ∀ p, ¬ (Arr.mk a n).Has p → mem' p = mem p := by
  obtain ⟨⟨_, _, _, b⟩, hmerge, done, l, r, h, hdone⟩ := merge_returns hbelow hfit hmid mem a
  have hfilled : Filled b done := h.filled
  have hlow := h.low
  have hhigh := h.high
  have hlength := h.length
  obtain ⟨⟨_, b₁⟩, hleft, rfl, hfilled₁⟩ := copy_returns (fun l => l < mid) (n := n)
    (by simp) hfit hmid hlow (by omega) hfilled mem a
  obtain ⟨⟨_, b₂⟩, hright, rfl, hfilled₂⟩ := copy_returns (fun r => below r n) (n := n)
    (fun i hi => by simp [hbelow i (by omega) (by omega)]) hfit le_rfl hhigh
    (by simp only [List.length_append, length_slice]; omega) hfilled₁ mem a
  simp only at hfilled₁ hfilled₂
  rw [h.rest hdone] at hfilled₂
  obtain ⟨mem', hback, hslice, hframe⟩ :=
    copyBack_returns hbelow hfit hfilled₂ (by simp; omega) mem a
  refine ⟨mem', ?_, hslice, hframe⟩
  obtain rfl := h.left
  obtain rfl := h.right
  obtain rfl := h.index
  exact hmerge.andThen (hleft.andThen (hright.andThen hback))

end Halves

section Permutes
variable {mem m₁ m₂ m' : Mem} {a : ℤ} {n mid : ℕ}

/-- A permutation of the array, with nothing else changed. -/
structure Permutes (mem : Mem) (a : ℤ) (n : ℕ) (m' : Mem) : Prop where
  perm : (slice m' a n).Perm (slice mem a n)
  frame : ∀ p, ¬ (Arr.mk a n).Has p → m' p = mem p

theorem Permutes.refl (mem : Mem) (a : ℤ) (n : ℕ) : Permutes mem a n mem :=
  ⟨.refl _, fun _ _ => rfl⟩

theorem Permutes.slice_before (h : Permutes m₁ (a + mid) (n - mid) m₂) :
    slice m₂ a mid = slice m₁ a mid :=
  slice_congr fun q _ hlt => h.frame q fun hq => by have := hq.1; simp only at this; omega

theorem Permutes.slice_behind (h : Permutes mem a mid m₁) :
    slice m₁ (a + mid) (n - mid) = slice mem (a + mid) (n - mid) :=
  slice_congr fun q hle _ => h.frame q fun hq => by have := hq.2; simp only at this; omega

theorem Permutes.merged (h₁ : Permutes mem a mid m₁) (h₂ : Permutes m₁ (a + mid) (n - mid) m₂)
    (hmid : mid ≤ n)
    (hslice : slice m' a n = (slice m₂ a mid).merge (slice m₂ (a + mid) (n - mid)))
    (hframe : ∀ p, ¬ (Arr.mk a n).Has p → m' p = m₂ p) : Permutes mem a n m' where
  perm := by
    have hsplit : slice mem a n = slice mem a mid ++ slice mem (a + mid) (n - mid) := by
      rw [← slice_add, Nat.add_sub_cancel' hmid]
    rw [hslice, hsplit, h₂.slice_before, ← h₁.slice_behind (n := n)]
    exact (List.merge_perm_append _).trans (h₁.perm.append h₂.perm)
  frame := by
    intro p hp
    have hright : ¬ (Arr.mk (a + mid) (n - mid : ℕ)).Has p := fun h => by
      have hlow := h.1
      have hhigh := h.2
      simp only at hlow hhigh
      exact hp ⟨by simp only; omega, by simp only; omega⟩
    have hleft : ¬ (Arr.mk a mid).Has p := fun h => by
      have hhigh := h.2
      simp only at hhigh
      exact hp ⟨h.1, by simp only; omega⟩
    rw [hframe p hp, h₂.frame p hright, h₁.frame p hleft]

theorem Permutes.mergeHalves (h₁ : Permutes mem a mid m₁) (h₂ : Permutes m₁ (a + mid) (n - mid) m₂)
    (below : ℤ → ℤ → Bool) (hbelow : ∀ i : ℤ, 0 ≤ i → i ≤ n → below i n = decide (i < n))
    (hfit : (n : ℤ) ≤ intMax) (hmid : mid ≤ n) :
    ∃ m', Returns (fun fuel => mergeHalves below fuel m₂ ⟨a, n⟩ mid) m' ∧ Permutes mem a n m' ∧
      ((slice m' a n).Pairwise (· ≤ ·) ↔ (slice m₁ a mid).Pairwise (· ≤ ·) ∧
        (slice m₂ (a + mid) (n - mid)).Pairwise (· ≤ ·)) := by
  obtain ⟨m', hreturns, hslice, hframe⟩ := mergeHalves_returns below hbelow hfit hmid m₂ a
  refine ⟨m', hreturns, h₁.merged h₂ hmid hslice hframe, ?_⟩
  rw [hslice, pairwise_merge_iff, h₂.slice_before]

theorem Permutes.calls (h₁ : Permutes mem a mid m₁) (h₂ : Permutes m₁ (a + mid) (n - mid) m₂)
    (left right : ℕ → Mem → Option Mem) (hleft : Returns (fun fuel => left fuel mem) m₁)
    (hright : Returns (fun fuel => right fuel m₁) m₂) (below : ℤ → ℤ → Bool)
    (hbelow : ∀ i : ℤ, 0 ≤ i → i ≤ n → below i n = decide (i < n))
    (hfit : (n : ℤ) ≤ intMax) (hmid : mid ≤ n) :
    ∃ m', Returns (fun fuel => (left fuel mem).bind fun mem =>
        (right fuel mem).bind fun mem => ArraySort.mergeHalves below fuel mem ⟨a, n⟩ mid) m' ∧
      Permutes mem a n m' ∧
      ((slice m' a n).Pairwise (· ≤ ·) ↔ (slice m₁ a mid).Pairwise (· ≤ ·) ∧
        (slice m₂ (a + mid) (n - mid)).Pairwise (· ≤ ·)) := by
  obtain ⟨m', hmerge, hresult⟩ := h₁.mergeHalves h₂ below hbelow hfit hmid
  refine ⟨m', hleft.andThen ?_, hresult⟩
  exact hright.andThen hmerge

end Permutes

section Zy

theorem zyMergeSort_returns (mem : Mem) (a : ℤ) (n : ℕ) (hn : (n : ℤ) ≤ intMax) :
    ∃ m', Returns (fun fuel => zyMergeSort fuel mem a n) m' ∧ Permutes mem a n m' ∧
      (slice m' a n).Pairwise (· ≤ ·) := by
  induction n using Nat.strong_induction_on generalizing mem a with
  | _ n ih =>
  have hmid : n / 2 ≤ n := Nat.div_le_self n 2
  have hhalf : (n : ℤ) / 2 = (n / 2 : ℕ) := by omega
  have hbelow : ∀ i : ℤ, 0 ≤ i → i ≤ n → decide (i < n) = decide (i < n) := fun _ _ _ => rfl
  rcases Nat.lt_or_ge 1 n with hlarge | hsmall
  · obtain ⟨m₁, hleft, hperm₁, hsorted₁⟩ := ih (n / 2) (by omega) mem a (by omega)
    obtain ⟨m₂, hright, hperm₂, hsorted₂⟩ :=
      ih (n - n / 2) (by omega) m₁ (a + (n / 2 : ℕ)) (by omega)
    obtain ⟨m', hcalls, hperm, hsorted⟩ :=
      hperm₁.calls hperm₂ (fun fuel mem => zyMergeSort fuel mem a (n / 2 : ℕ))
        (fun fuel mem => zyMergeSort fuel mem (a + (n / 2 : ℕ)) (n - n / 2 : ℕ)) hleft hright
        (fun i n => i < n) hbelow hn hmid
    refine ⟨m', Returns.of_succ (hcalls.congr 0 fun fuel _ => ?_), hperm,
      hsorted.mpr ⟨hsorted₁, hsorted₂⟩⟩
    have hpos : (0 : ℤ) < (n / 2 : ℕ) := by omega
    have hrest : checked ((n : ℤ) - (n / 2 : ℕ)) = some ((n - n / 2 : ℕ) : ℤ) := by
      rw [Int.ofNat_sub hmid]
      exact checked_of_le (by omega) (by omega) hn
    simp only [zyMergeSort, hhalf, if_pos hpos, hrest, Option.bind_eq_bind, Option.bind_some]
  · obtain ⟨m', hmerge, hperm, -⟩ := Permutes.mergeHalves (.refl mem _ _) (.refl _ _ _)
      (fun i n => i < n) hbelow hn hmid
    refine ⟨m', Returns.of_succ (hmerge.congr 0 fun fuel _ => ?_), hperm, ?_⟩
    · have hzero : ¬ (0 : ℤ) < (n / 2 : ℕ) := by omega
      simp only [zyMergeSort, hhalf, if_neg hzero, Option.bind_eq_bind, Option.bind_some]
    · exact pairwise_slice.mpr fun i j hi hij hj => by omega

/-- `merge_sort` returns for every array and sorts it. It accesses the array and its local
array, and nothing else. -/
theorem zyMergeSort_sorts (mem : Mem) (a : ℤ) (n : ℕ) (hn : (n : ℤ) ≤ intMax) :
    ∃ m', Returns (fun fuel => zyMergeSort fuel mem a n) m' ∧ Sorts mem a n m' := by
  obtain ⟨m', hreturns, hperm, hsorted⟩ := zyMergeSort_returns mem a n hn
  exact ⟨m', hreturns, hsorted, hperm.perm, hperm.frame⟩

theorem zyMergeSort_sorts_five : ∃ m',
    Returns (fun fuel => zyMergeSort fuel (ofList [3, -1, 3, 2, 0]) 0 (5 : ℕ)) m' ∧
      Sorts (ofList [3, -1, 3, 2, 0]) 0 5 m' :=
  zyMergeSort_sorts _ 0 5 (by decide)

end Zy

section Cutoff

/-- The places of the parts of three elements that an array of `n` elements is split into. -/
def threes (n : ℕ) : List ℕ :=
  if n ≤ 2 then []
  else if n = 3 then [0]
  else threes (n / 2) ++ (threes (n - n / 2)).map (n / 2 + ·)

theorem threes_of_lt {n : ℕ} (h : 3 < n) :
    threes n = threes (n / 2) ++ (threes (n - n / 2)).map (n / 2 + ·) := by
  rw [threes, if_neg (by omega), if_neg (by omega)]

/-- Up to three elements nothing is sorted before the merge. -/
theorem pairwise_halves_iff {mem : Mem} {a : ℤ} {n : ℕ} (hn : n ≤ 3) :
    (slice mem a (n / 2)).Pairwise (· ≤ ·) ∧
      (slice mem (a + (n / 2 : ℕ)) (n - n / 2)).Pairwise (· ≤ ·) ↔
        ∀ s ∈ threes n, mem (a + s + 1) ≤ mem (a + s + 2) := by
  rw [threes]
  obtain rfl | hlt : n = 3 ∨ n ≤ 2 := by omega
  · simp [slice, List.range_succ, add_assoc]
  · rw [if_pos hlt]
    have hleft : (slice mem a (n / 2)).Pairwise (· ≤ ·) :=
      pairwise_slice.mpr fun i j hi hij hj => by omega
    have hright : (slice mem (a + (n / 2 : ℕ)) (n - n / 2)).Pairwise (· ≤ ·) :=
      pairwise_slice.mpr fun i j hi hij hj => by omega
    exact iff_of_true ⟨hleft, hright⟩ (List.forall_mem_nil _)

theorem mergeSort_returns (mem : Mem) (a : ℤ) (n : ℕ) (hn : (n : ℤ) ≤ intMax) :
    ∃ m', Returns (fun fuel => mergeSort fuel mem a n) m' ∧ Permutes mem a n m' ∧
      ((slice m' a n).Pairwise (· ≤ ·) ↔
        ∀ s ∈ threes n, mem (a + s + 1) ≤ mem (a + s + 2)) := by
  induction n using Nat.strong_induction_on generalizing mem a with
  | _ n ih =>
  have hmid : n / 2 ≤ n := Nat.div_le_self n 2
  have hhalf : wrap ((n : ℤ) / 2) = (n / 2 : ℕ) := by
    rw [wrap_fits (by simp only [Fits, intMin, intMax] at *; omega)]
    omega
  have hbelow : ∀ i : ℤ, 0 ≤ i → i ≤ n → decide (sizeT i < n) = decide (i < n) := by
    intro i hlow hle
    rw [sizeT_of_lt hlow (by simp only [intMax] at hn; omega)]
  rcases Nat.lt_or_ge 3 n with hlarge | hsmall
  · obtain ⟨m₁, hleft, hperm₁, hsorted₁⟩ := ih (n / 2) (by omega) mem a (by omega)
    obtain ⟨m₂, hright, hperm₂, hsorted₂⟩ :=
      ih (n - n / 2) (by omega) m₁ (a + (n / 2 : ℕ)) (by omega)
    obtain ⟨m', hcalls, hperm, hsorted⟩ :=
      hperm₁.calls hperm₂ (fun fuel mem => mergeSort fuel mem a (n / 2 : ℕ))
        (fun fuel mem => mergeSort fuel mem (a + (n / 2 : ℕ)) (n - n / 2 : ℕ)) hleft hright
        (fun i n => sizeT i < n) hbelow hn hmid
    refine ⟨m', Returns.of_succ (hcalls.congr 0 fun fuel _ => ?_), hperm, hsorted.trans ?_⟩
    · have hpos : (1 : ℤ) < (n / 2 : ℕ) := by omega
      have hfit : ∀ k : ℕ, k ≤ n → sizeT k = k := fun k hk =>
        sizeT_of_lt (by omega) (by simp only [intMax] at hn; omega)
      simp only [mergeSort, hhalf, if_pos hpos, hfit _ hmid, ← Int.ofNat_sub hmid,
        hfit _ (Nat.sub_le n (n / 2)), Option.bind_eq_bind]
    · have hbehind : ∀ (s : ℕ) (k : ℤ), 0 ≤ k →
          m₁ (a + (n / 2 : ℕ) + s + k) = mem (a + (n / 2 + s : ℕ) + k) := by
        intro s k hk
        rw [Int.natCast_add, ← add_assoc]
        exact hperm₁.frame _ fun h => by have := h.2; simp only at this; omega
      rw [hsorted₁, hsorted₂, threes_of_lt hlarge, List.forall_mem_append, List.forall_mem_map]
      apply and_congr_right'
      apply forall₂_congr
      intro s _
      rw [hbehind s 1 (by omega), hbehind s 2 (by omega)]
  · obtain ⟨m', hmerge, hperm, hsorted⟩ := Permutes.mergeHalves (.refl mem _ _) (.refl _ _ _)
      (fun i n => sizeT i < n) hbelow hn hmid
    refine ⟨m', Returns.of_succ (hmerge.congr 0 fun fuel _ => ?_), hperm,
      hsorted.trans (pairwise_halves_iff hsmall)⟩
    have hzero : ¬ (1 : ℤ) < (n / 2 : ℕ) := by omega
    simp only [mergeSort, hhalf, if_neg hzero, Option.bind_eq_bind, Option.bind_some]

/-- The last loop does not end: `i` overflows before it gets to `n`. -/
theorem copyBack_none {w : Arr} (hn : intMax < w.n) (b : Temp) (fuel : ℕ) (mem : Mem) :
    run (copyBackTurn (fun i n => sizeT i < n) w b) fuel (mem, 0) = none := by
  cases hrun : run (copyBackTurn (fun i n => sizeT i < n) w b) fuel (mem, 0) with
  | none => rfl
  | some mem' =>
      exfalso
      have hbelow : ∀ i, 0 ≤ i ∧ i ≤ intMax → decide (sizeT i < w.n) = true := by
        rintro i ⟨hlow, hle⟩
        rw [sizeT_of_lt hlow (by simp only [intMax] at hle; omega), decide_eq_true_eq]
        omega
      apply run_some (I := fun s : Mem × ℤ => 0 ≤ s.2 ∧ s.2 ≤ intMax) (Q := fun _ => False)
        _ _ _ hrun
      · rintro ⟨mem, i⟩ ⟨mem', i'⟩ hi hturn
        simp only [copyBackTurn, hbelow i hi, if_true, Option.bind_eq_bind, Option.bind_eq_some_iff,
          checked_eq_some, Option.some.injEq, Turn.again.injEq, Prod.mk.injEq] at hturn
        obtain ⟨-, -, -, -, -, ⟨hfits, rfl⟩, -, rfl⟩ := hturn
        exact ⟨by have := hi.1; simp only at *; omega, hfits.2⟩
      · rintro ⟨mem, i⟩ r hi hturn
        simp only [copyBackTurn, hbelow i hi, if_true, Option.bind_eq_bind,
          Option.bind_eq_some_iff] at hturn
        obtain ⟨_, _, _, _, _, _, hturn⟩ := hturn
        cases hturn
      · exact ⟨le_rfl, show 0 ≤ intMax by decide⟩

theorem mergeSort_none {n : ℤ} (hn : intMax < n) (fuel : ℕ) (mem : Mem) (a : ℤ) :
    mergeSort fuel mem a n = none := by
  cases fuel with
  | zero => rfl
  | succ fuel =>
      have hhalves : ∀ mem m, mergeHalves (fun i n => sizeT i < n) fuel mem ⟨a, n⟩ m = none := by
        intro mem m
        simp only [mergeHalves, copyBack_none (w := ⟨a, n⟩) hn, Option.bind_eq_bind,
          Option.bind_fun_none]
      simp only [mergeSort, hhalves, Option.bind_eq_bind, Option.bind_fun_none, ite_self]

/-- `merge_sort` sorts just the arrays whose parts of three elements have their last two elements
in order, as long as an `int` counts the elements. Whatever it returns is a permutation. -/
theorem mergeSort_iff (mem : Mem) (a : ℤ) (n : ℕ) :
    (∃ m', Returns (fun fuel => mergeSort fuel mem a n) m' ∧ Sorts mem a n m') ↔
      (n : ℤ) ≤ intMax ∧ ∀ s ∈ threes n, mem (a + s + 1) ≤ mem (a + s + 2) := by
  constructor
  · rintro ⟨m', hreturns, hsorts⟩
    rcases le_or_gt (n : ℤ) intMax with hfit | hlarge
    · obtain ⟨m₁, hreturns₁, -, hsorted⟩ := mergeSort_returns mem a n hfit
      obtain rfl := hreturns.unique hreturns₁
      exact ⟨hfit, hsorted.mp hsorts.sorted⟩
    · obtain ⟨k, hk⟩ := hreturns
      have hnone : mergeSort k mem a n = some m' := hk k le_rfl
      rw [mergeSort_none hlarge] at hnone
      cases hnone
  · rintro ⟨hfit, hthrees⟩
    obtain ⟨m', hreturns, hperm, hsorted⟩ := mergeSort_returns mem a n hfit
    exact ⟨m', hreturns, hsorted.mpr hthrees, hperm.perm, hperm.frame⟩

/-- Nobody sorts the right half of three elements. -/
theorem mergeSort_unsorted :
    (mergeSort 5 (ofList [1, 3, 2]) 0 3).map (slice · 0 3) = some [1, 3, 2] ∧
      ¬ ∃ m', Returns (fun fuel => mergeSort fuel (ofList [1, 3, 2]) 0 3) m' ∧
        Sorts (ofList [1, 3, 2]) 0 3 m' := by
  refine ⟨by decide, ?_⟩
  rintro ⟨m', hreturns, hsorts⟩
  obtain ⟨m₁, hreturns₁, -, hsorted⟩ := mergeSort_returns (ofList [1, 3, 2]) 0 3 (by decide)
  obtain rfl := hreturns.unique hreturns₁
  have hthrees : ∀ s ∈ threes 3, _ := hsorted.mp hsorts.sorted
  have hfalse := hthrees 0 (by simp [threes])
  revert hfalse
  decide

end Cutoff

end EmbeddedCode.ArraySort
