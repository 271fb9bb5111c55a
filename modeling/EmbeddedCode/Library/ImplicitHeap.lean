import Mathlib.Data.Int.Order.Basic
import Mathlib.Logic.Function.Basic
import Mathlib.Order.Lattice
import Mathlib.Tactic.TypeStar

/-!
# Heaps in an array

The elements of an array are the nodes of a binary tree: the children of `k` are `2k + 1`
and `2k + 2`. Below a node the tree is a heap when no child is greater than its parent.
An element that is too small for its place sinks, and the element that takes its place
is the greatest below it.
-/
namespace EmbeddedCode.ImplicitHeap

variable {α : Type*} {i j k c n : ℤ}

def Child (k c : ℤ) : Prop := c = 2 * k + 1 ∨ c = 2 * k + 2

theorem Child.lt (h : Child k c) (hk : 0 ≤ k) : k < c := by
  unfold Child at h
  omega

theorem Child.unique (h : Child k c) (h' : Child j c) : k = j := by
  unfold Child at h h'
  omega

inductive Below (i : ℤ) : ℤ → Prop
  | self : Below i i
  | child {k c : ℤ} : Below i k → Child k c → Below i c

theorem Below.le (h : Below i k) (hi : 0 ≤ i) : i ≤ k := by
  induction h with
  | self => exact le_rfl
  | child _ hc ih => exact ih.trans (hc.lt (hi.trans ih)).le

/-- A node of a subtree is its root, or a node below a child of the root. -/
theorem Below.cases_root (h : Below i k) : k = i ∨ ∃ c, Child i c ∧ Below c k := by
  induction h with
  | self => exact .inl rfl
  | child _ hc ih =>
      rcases ih with rfl | ⟨d, hd, hbelow⟩
      · exact .inr ⟨_, hc, .self⟩
      · exact .inr ⟨d, hd, hbelow.child hc⟩

/-- The parent of a node of a subtree is in the subtree, but for the root. -/
theorem Below.parent (h : Below i c) (hne : c ≠ i) (hc : Child k c) : Below i k := by
  cases h with
  | self => exact absurd rfl hne
  | child hk hc' =>
      rw [hc.unique hc']
      exact hk

theorem below_zero {k : ℕ} : Below 0 k := by
  induction k using Nat.strongRecOn with
  | _ k ih =>
  rcases Nat.eq_zero_or_pos k with rfl | hpos
  · exact .self
  · refine (ih ((k - 1) / 2) (by omega)).child ?_
    unfold Child
    omega

section
variable [LinearOrder α] {h : ℤ → α}

def Heaped (h : ℤ → α) (n k : ℤ) : Prop := ∀ c, Child k c → c < n → h c ≤ h k

theorem Heaped.congr {h' : ℤ → α} {n' : ℤ} (hk : Heaped h n k) (hn : n' ≤ n)
    (heq : ∀ c, c = k ∨ Child k c → c < n' → h' c = h c) (hkn : 0 ≤ k) : Heaped h' n' k := by
  intro c hc hcn
  rw [heq c (.inr hc) hcn, heq k (.inl rfl) ((hc.lt hkn).trans hcn)]
  exact hk c hc (hcn.trans_le hn)

theorem le_root (hh : ∀ k, 0 ≤ k → Heaped h n k) {k : ℕ} (hk : (k : ℤ) < n) : h k ≤ h 0 := by
  induction k using Nat.strongRecOn with
  | _ k ih =>
  rcases Nat.eq_zero_or_pos k with rfl | hpos
  · exact le_rfl
  · have hchild : Child ((k - 1) / 2 : ℕ) k := by
      unfold Child
      omega
    exact (hh _ (by omega) k hchild hk).trans (ih _ (by omega) (by omega))

/-- The element at `j` may be too small. Its children are not greater than its parent. -/
structure Sinking (h : ℤ → α) (n i j : ℤ) : Prop where
  below : Below i j
  heaped : ∀ k, Below i k → k ≠ j → Heaped h n k
  across : ∀ k, Below i k → Child k j → ∀ c, Child j c → c < n → h c ≤ h k

theorem sinking_start (hi : 0 ≤ i) (hc : ∀ c, Child i c → ∀ k, Below c k → Heaped h n k) :
    Sinking h n i i where
  below := .self
  heaped k hk hne := by
    obtain ⟨c, hchild, hbelow⟩ := hk.cases_root.resolve_left hne
    exact hc c hchild k hbelow
  across k hk hchild := by
    have hle := hk.le hi
    have hlt := hchild.lt (hi.trans hle)
    omega

/-- The greater child of a node. -/
def greaterChild (h : ℤ → α) (n j : ℤ) : ℤ :=
  if 2 * j + 2 < n ∧ h (2 * j + 1) < h (2 * j + 2) then 2 * j + 2 else 2 * j + 1

theorem child_greaterChild (h : ℤ → α) (n j : ℤ) : Child j (greaterChild h n j) := by
  unfold greaterChild Child
  split <;> omega

theorem greaterChild_lt (hj : 2 * j + 1 < n) : greaterChild h n j < n := by
  unfold greaterChild
  split <;> omega

theorem le_greaterChild (hc : Child j c) (hcn : c < n) : h c ≤ h (greaterChild h n j) := by
  unfold greaterChild
  split
  · rename_i hright
    rcases hc with rfl | rfl
    · exact hright.2.le
    · exact le_rfl
  · rename_i hleft
    rcases hc with rfl | rfl
    · exact le_rfl
    · exact not_lt.mp fun hlt => hleft ⟨hcn, hlt⟩

/-- The element is exchanged with its greater child. -/
theorem Sinking.next (hs : Sinking h n i j) (hi : 0 ≤ i) (hc : c = greaterChild h n j)
    (hcn : c < n) (hless : h j < h c) :
    Sinking (Function.update (Function.update h j (h c)) c (h j)) n i c := by
  have hchild : Child j c := hc ▸ child_greaterChild h n j
  have hj : 0 ≤ j := hi.trans (hs.below.le hi)
  have hjc : j < c := hchild.lt hj
  have hgreat : ∀ d, Child j d → d < n → h d ≤ h c := fun d hd hdn => hc ▸ le_greaterChild hd hdn
  refine ⟨hs.below.child hchild, fun k hk hne d hd hdn => ?_, fun k hk hkc d hd hdn => ?_⟩
  · have hkd : k < d := hd.lt (hi.trans (hk.le hi))
    rcases eq_or_ne k j with rfl | hkj
    · rw [Function.update_of_ne hne, Function.update_self]
      rcases eq_or_ne d c with rfl | hdc
      · rw [Function.update_self]
        exact hless.le
      · rw [Function.update_of_ne hdc, Function.update_of_ne hkd.ne']
        exact hgreat d hd hdn
    · have hdc : d ≠ c := by
        rintro rfl
        exact hkj (hd.unique hchild)
      rw [Function.update_of_ne hne, Function.update_of_ne hkj, Function.update_of_ne hdc]
      rcases eq_or_ne d j with rfl | hdj
      · rw [Function.update_self]
        exact hs.across k hk hd c hchild hcn
      · rw [Function.update_of_ne hdj]
        exact hs.heaped k hk hkj d hd hdn
  · obtain rfl : k = j := hkc.unique hchild
    have hcd : c < d := hd.lt (by omega)
    rw [Function.update_of_ne hcd.ne', Function.update_of_ne (hjc.trans hcd).ne',
      Function.update_of_ne hjc.ne, Function.update_self]
    exact hs.heaped c (hs.below.child hchild) hjc.ne' d hd hdn

/-- No child is greater than the element. -/
theorem Sinking.done (hs : Sinking h n i j) (hj : Heaped h n j) (k : ℤ) (hk : Below i k) :
    Heaped h n k := by
  rcases eq_or_ne k j with rfl | hne
  · exact hj
  · exact hs.heaped k hk hne

end

end EmbeddedCode.ImplicitHeap
