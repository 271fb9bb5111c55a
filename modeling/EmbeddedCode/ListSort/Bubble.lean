import EmbeddedCode.ListSort.Circle
import Mathlib.Data.List.Induction

/-!
# Bubble sort of a list

The cursor stands at the last of the nodes that are in their places, or at the head. A pass
of `tmp` comes from the end of the list and brings the least of the other nodes to the one
behind the cursor.
-/
namespace EmbeddedCode.ListSort

open IntrusiveList Loop StableSort

section
variable {Λ : Type} [DecidableEq Λ] {cmp : Λ → Λ → ℤ} {m : Heads Λ} {stack head y : Λ}
  {fs us vs xs : List Λ}

theorem bubbleInner_returns (cmp : Λ → Λ → ℤ) (hstack : m.live stack = false)
    (h : Circular m head (fs ++ (us ++ y :: vs))) :
    ∃ m', Returns (fun fuel => run (bubbleInner cmp stack (fs.getLastD head)) fuel
        (m, (fs ++ us).getLastD head)) m' ∧
      Circular m' head (fs ++ us.foldr (exchange cmp) (y :: vs)) ∧
      Relinked (stack :: head :: (fs ++ (us ++ y :: vs))) m m' := by
  induction us using List.reverseRecOn generalizing m y vs with
  | nil =>
      rw [List.append_nil]
      exact ⟨m, returns_leave (by simp [bubbleInner]), h, .refl _ m⟩
  | append_singleton us t ih =>
      have hsplit : Circular m head (fs ++ (us ++ t :: (y :: vs))) := by simpa using h
      have hnode : Circular m head (fs ++ us ++ t :: ([] ++ y :: vs)) := by simpa using h
      have ht : t ≠ fs.getLastD head := hsplit.ne_before
      have hnext : m.readNext t = some y := hnode.readNext
      rw [← List.append_assoc, List.getLastD_concat, List.foldr_append, List.foldr_cons,
        List.foldr_nil, exchange]
      by_cases hlt : cmp y t < 0
      · obtain ⟨m₁, hswap, h₁, hr₁⟩ := hnode.swap_forward hstack
        have hmoved : Circular m₁ head (fs ++ (us ++ y :: (t :: vs))) := by simpa using h₁
        have hback : Circular m₁ head ((fs ++ us ++ [y]) ++ t :: vs) := by simpa using h₁
        have hprev : m₁.readPrev t = some y := by rw [hback.readPrev, List.getLastD_concat]
        obtain ⟨m', hreturns, h', hr'⟩ := ih (hr₁.live ▸ hstack) hmoved
        rw [if_pos hlt]
        refine ⟨m', hreturns.again ?_, h', (hr₁.mono ?_).trans (hr'.mono ?_)⟩
        · simp only [bubbleInner, if_neg ht, if_pos hlt, hnext, hswap, hprev, h₁.readPrev,
            Option.bind_eq_bind, Option.bind_some]
        · intro l hl
          grind
        · intro l hl
          grind
      · obtain ⟨m', hreturns, h', hr'⟩ := ih hstack hsplit
        rw [if_neg hlt]
        refine ⟨m', hreturns.again ?_, h', hr'.mono ?_⟩
        · simp only [bubbleInner, if_neg ht, if_neg hlt, hnext, hnode.readPrev,
            Option.bind_eq_bind, Option.bind_some]
        · intro l hl
          grind

theorem visit_returns (h : Circular m head (us ++ vs)) (visited : List Λ) :
    Returns (fun fuel => run (visitTurn head m) fuel (vs.headD head, visited)) (visited ++ vs) := by
  induction vs generalizing us visited with
  | nil =>
      rw [List.append_nil]
      exact returns_leave (by simp [visitTurn])
  | cons k vs ih =>
      have hsplit : Circular m head ((us ++ [k]) ++ vs) := by simpa using h
      have hk : k ≠ head := h.ne_head (by simp)
      have hrest := ih hsplit (visited ++ [k])
      rw [List.append_assoc, List.singleton_append] at hrest
      refine hrest.again ?_
      simp only [List.headD_cons, visitTurn, if_neg hk, h.readNext,
        Option.bind_eq_bind, Option.bind_some]

theorem bubbleOuter_returns (hc : TotalPreorder cmp) (hstack : m.live stack = false)
    (hsettled : Settled cmp fs (us ++ [y])) (h : Circular m head (fs ++ (us ++ [y])))
    (visited : List Λ) :
    ∃ m' z zs visited', Returns
        (fun fuel => bubbleOuter cmp stack head fuel (m, fs.getLastD head, visited))
        (.again (m', z, visited')) ∧
      Circular m' head (fs ++ z :: zs) ∧ SameOrder cmp (fs ++ (us ++ [y])) (fs ++ z :: zs) ∧
      Settled cmp (fs ++ [z]) zs ∧ Relinked (stack :: head :: (fs ++ (us ++ [y]))) m m' := by
  obtain ⟨m', ⟨n, hinner⟩, h', hr⟩ := bubbleInner_returns cmp hstack h
  have hsame := sameOrder_exchanges hc us [y]
  obtain ⟨z, zs, heq, hz⟩ :=
    Led.exchanges hc ⟨y, [], rfl, fun _ hmem => absurd hmem List.not_mem_nil⟩ us
  rw [heq] at hsame h'
  have hall : Circular m' head ([] ++ (fs ++ z :: zs)) := h'
  obtain ⟨n', hvisit⟩ := visit_returns hall visited
  refine ⟨m', z, zs, visited ++ (fs ++ z :: zs), ⟨max n n', fun fuel hf => ?_⟩, h',
    hsame.append_left fs, hsettled.next (hsame.perm hc) hz, hr⟩
  have hlast : Circular m head ((fs ++ us) ++ y :: []) := by simpa using h
  have hne : fs.getLastD head ≠ y := h.ne_before.symm
  have hend : m.readPrev head = some y := by
    rw [hlast.readPrev_head, List.getLastD_concat]
  simp only [bubbleOuter, hend, if_neg hne, hlast.readPrev, hinner fuel (by omega),
    h'.readNext_head, hvisit fuel (by omega), h'.readNext_last, List.headD_cons,
    Option.bind_eq_bind, Option.bind_some]

theorem bubbleOuter_exits (hc : TotalPreorder cmp) (hstack : m.live stack = false)
    (hsettled : Settled cmp fs us) (h : Circular m head (fs ++ us)) (visited : List Λ) :
    ∃ m' ys visited', Exits (bubbleOuter cmp stack head) (m, fs.getLastD head, visited)
        (m', visited') ∧
      Circular m' head ys ∧ StablySorted cmp (fs ++ us) ys ∧
      Relinked (stack :: head :: (fs ++ us)) m m' := by
  induction hlength : us.length generalizing m fs us visited with
  | zero =>
      obtain rfl := List.length_eq_zero_iff.mp hlength
      rw [List.append_nil] at h ⊢
      refine ⟨m, fs, visited, .single ⟨0, fun fuel _ => ?_⟩, h, ⟨hsettled.ordered, .refl _ fs⟩,
        .refl _ m⟩
      simp only [bubbleOuter, h.readPrev_head, if_true, Option.bind_eq_bind, Option.bind_some]
  | succ k ih =>
      obtain ⟨us, y, rfl⟩ : ∃ vs y, us = vs ++ [y] := by
        rcases List.eq_nil_or_concat' us with rfl | ⟨vs, y, rfl⟩
        · cases hlength
        · exact ⟨vs, y, rfl⟩
      obtain ⟨m₁, z, zs, visited₁, hturn, h₁, hsame, hsettled₁, hr₁⟩ :=
        bubbleOuter_returns hc hstack hsettled h visited
      have hperm := hsame.perm hc
      have hlength₁ : zs.length = k := by
        have hcount := hperm.length_eq
        simp only [List.length_append, List.length_cons, List.length_nil] at hcount hlength
        omega
      have hnext : Circular m₁ head ((fs ++ [z]) ++ zs) := by simpa using h₁
      obtain ⟨m', ys, visited', hexits, h', hys, hr'⟩ :=
        ih (hr₁.live ▸ hstack) hsettled₁ hnext visited₁ hlength₁
      rw [List.getLastD_concat] at hexits
      rw [← List.append_cons] at hys hr'
      refine ⟨m', ys, visited', (Leads.single hturn).exits hexits, h',
        ⟨hys.ordered, hsame.trans hys.sameOrder⟩, hr₁.trans (hr'.mono ?_)⟩
      exact ((hperm.cons head).cons stack).subset

/-- `bubble_sort` returns for every list and every comparator, and sorts the list stably. It
writes to the list and to the node on its stack, and to nothing else. -/
theorem bubbleSort_sorts (hc : TotalPreorder cmp) (hstack : m.live stack = false)
    (h : Circular m head xs) :
    ∃ m' ys visited, Returns (fun fuel => bubbleSort cmp stack head fuel m) (m', visited) ∧
      Circular m' head ys ∧ ys.Perm xs ∧ StablySorted cmp xs ys ∧
      Relinked (stack :: head :: xs) m m' := by
  have hstart : Circular m head ([] ++ xs) := h
  obtain ⟨m', ys, visited, hexits, h', hys, hr⟩ :=
    bubbleOuter_exits hc hstack (settled_nil cmp xs) hstart []
  exact ⟨m', ys, visited, hexits.returns, h', hys.sameOrder.perm hc, hys, hr⟩

theorem bubbleSort_sorts_three : ∃ m' ys visited,
    Returns (fun fuel => bubbleSort (fun a b => keyOf a - keyOf b) 4 0 fuel three) (m', visited) ∧
      Circular m' 0 ys ∧ ys.Perm [1, 2, 3] ∧
      StablySorted (fun a b => keyOf a - keyOf b) [1, 2, 3] ys ∧
      Relinked [4, 0, 1, 2, 3] three m' :=
  bubbleSort_sorts (totalPreorder_sub keyOf) (by decide) circular_three

end

end EmbeddedCode.ListSort
