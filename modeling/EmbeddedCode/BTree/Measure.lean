import EmbeddedCode.BTree.Model
import EmbeddedCode.Library.BinaryTrees
import EmbeddedCode.Library.CInt
import Mathlib.Data.Fintype.Card
import Mathlib.Data.Fintype.Fin

/-!
# Balance and depth of a tree

`__balance` reports a height only for a balanced tree. Such a tree has exponentially many
nodes, and so its height is an `int` wherever the nodes have different addresses.
`__depth` has no `return` for NULL, and every other result is computed from that one.
-/
namespace EmbeddedCode.BTree

open LinkedTree Loop CInt

/-- A pointer has 64 bits. -/
abbrev Address := Fin (2 ^ 64)

section
variable {α : Type}

/-- `__balance`: the returned value, and what is stored through `depth`, if anything. -/
def balanceRec (node : Links α) : ℕ → Option α → Option (ℤ × Option ℤ)
  | _, none => some (1, some 0)
  | 0, some _ => none
  | fuel + 1, some bnode => do
      let (ret, ldepth) ← balanceRec node fuel (node.lchild bnode)
      if ret = 0 then some (0, none)
      else do
        let (ret, rdepth) ← balanceRec node fuel (node.rchild bnode)
        if ret = 0 then some (0, none)
        else do
          let ldepth := ldepth.getD 0
          let rdepth := rdepth.getD 0
          let tmp ← checked (ldepth - rdepth)
          if tmp ≤ 1 ∧ -1 ≤ tmp then do
            let depth ← checked (if rdepth ≤ ldepth then ldepth + 1 else rdepth + 1)
            some (1, some depth)
          else some (0, none)

def isBalance (fuel : ℕ) (t : Btree α) : Option ℤ := (balanceRec t.node fuel t.root).map Prod.fst

/-- `__depth`. Its end is reached without a `return` when the node is NULL, and then `atEnd`
is what the caller finds in the place of the value. An operation on no value has none. -/
def depthRec (atEnd : Option ℤ) (node : Links α) : ℕ → Option α → Option (Option ℤ)
  | _, none => some atEnd
  | 0, some _ => none
  | fuel + 1, some bnode => do
      let lDepth ← depthRec atEnd node fuel (node.lchild bnode)
      let rDepth ← depthRec atEnd node fuel (node.rchild bnode)
      some do
        let l ← lDepth
        let r ← rDepth
        checked (if r ≤ l then l + 1 else r + 1)

/-- In C there is no value at the end of such a call. -/
def depth (fuel : ℕ) (t : Btree α) : Option (Option ℤ) := depthRec none t.node fuel t.root

variable {node : Links α} {p : Option α} {T : BinaryTree α}

def balanceOf (T : BinaryTree α) : ℤ × Option ℤ :=
  if HeightBalanced T then (1, some T.height) else (0, none)

theorem fits_height (h : HeightBalanced T) (hsize : T.numNodes ≤ 2 ^ 64) : Fits T.height := by
  have hpow := h.two_pow_le
  have hheight : T.height / 2 < 65 := by
    by_contra hge
    have hmono : 2 ^ 65 ≤ 2 ^ (T.height / 2) := Nat.pow_le_pow_right (by omega) (by omega)
    have hlt : 2 ^ 64 + 1 < 2 ^ 65 := by decide
    omega
  simp only [Fits, intMin, intMax]
  omega

theorem balanceRec_returns (h : Shaped node p T) (hsize : T.numNodes ≤ 2 ^ 64) :
    Returns (fun fuel => balanceRec node fuel p) (balanceOf T) := by
  refine Shaped.returns (P := fun S => S.numNodes ≤ 2 ^ 64) ?_ ?_ ?_ h hsize
  · intro a l r hsize
    simp only [BinaryTree.numNodes] at hsize
    exact ⟨by omega, by omega⟩
  · intro fuel
    cases fuel <;> rfl
  · intro fuel a l r hsize hleft hright
    have hsize' : l.numNodes + r.numNodes + 1 ≤ 2 ^ 64 := hsize
    by_cases hbl : HeightBalanced l
    · by_cases hbr : HeightBalanced r
      · have hdiff : checked ((l.height : ℤ) - r.height) = some ((l.height : ℤ) - r.height) := by
          obtain ⟨-, hfl⟩ := fits_height hbl (by omega)
          obtain ⟨-, hfr⟩ := fits_height hbr (by omega)
          refine checked_eq_some.mpr ⟨?_, rfl⟩
          simp only [Fits, intMin, intMax] at hfl hfr ⊢
          omega
        by_cases hclose : l.height ≤ r.height + 1 ∧ r.height ≤ l.height + 1
        · have hb : HeightBalanced (.node a l r) := ⟨hclose, hbl, hbr⟩
          have htmp : (l.height : ℤ) - r.height ≤ 1 ∧ -1 ≤ (l.height : ℤ) - r.height := by omega
          have hdepth : (if (r.height : ℤ) ≤ l.height then (l.height : ℤ) + 1
              else r.height + 1) = (BinaryTree.node a l r).height := by
            simp only [BinaryTree.height]
            split <;> omega
          have hfit : checked ((BinaryTree.node a l r).height : ℤ) =
              some ((BinaryTree.node a l r).height : ℤ) :=
            checked_eq_some.mpr ⟨fits_height hb hsize, rfl⟩
          simp only [balanceRec, hleft, hright, balanceOf, if_pos hbl, if_pos hbr, if_pos hb,
            Option.bind_eq_bind, Option.bind_some, Option.getD_some, hdiff, if_pos htmp, hdepth,
            hfit, one_ne_zero, if_false]
        · have hb : ¬ HeightBalanced (.node a l r) := fun hb => hclose hb.1
          have htmp : ¬ ((l.height : ℤ) - r.height ≤ 1 ∧ -1 ≤ (l.height : ℤ) - r.height) := by
            omega
          simp only [balanceRec, hleft, hright, balanceOf, if_pos hbl, if_pos hbr, if_neg hb,
            Option.bind_eq_bind, Option.bind_some, Option.getD_some, hdiff, if_neg htmp,
            one_ne_zero, if_false]
      · simp [balanceRec, hleft, hright, balanceOf, hbl, hbr, HeightBalanced]
    · simp [balanceRec, hleft, balanceOf, hbl, HeightBalanced]

/-- Where a value is found at the end of the calls for NULL, it is added to the depth. -/
theorem depthRec_some (h : Shaped node p T) {v : ℤ} (hv : Fits v) (hfit : Fits (v + T.height)) :
    Returns (fun fuel => depthRec (some v) node fuel p) (some (v + T.height)) := by
  refine Shaped.returns (f := depthRec (some v) node) (g := fun S => some (v + S.height))
    (P := fun S => Fits (v + S.height)) ?_ ?_ ?_ h hfit
  · intro a l r hfit
    have hle : l.height ≤ (BinaryTree.node a l r).height ∧
        r.height ≤ (BinaryTree.node a l r).height := by
      simp only [BinaryTree.height]
      omega
    have hlow := hv.1
    have hhigh := hfit.2
    exact ⟨⟨by omega, by omega⟩, by omega, by omega⟩
  · intro fuel
    cases fuel <;> simp [depthRec]
  · intro fuel a l r hfit hleft hright
    have hdepth : (if v + r.height ≤ v + l.height then v + l.height + 1
        else v + r.height + 1) = v + (BinaryTree.node a l r).height := by
      simp only [BinaryTree.height]
      split <;> omega
    simp only [depthRec, hleft, hright, Option.bind_eq_bind, Option.bind_some, hdepth,
      checked_eq_some.mpr ⟨hfit, rfl⟩]

/-- In C no call of `__depth` has a value, since none has one for NULL. -/
theorem depthRec_none (h : Shaped node p T) :
    Returns (fun fuel => depthRec none node fuel p) none := by
  refine Shaped.returns (f := depthRec none node) (g := fun _ => none) (P := fun _ => True)
    (fun _ _ _ _ => ⟨trivial, trivial⟩) ?_ ?_ h trivial
  · intro fuel
    cases fuel <;> rfl
  · intro fuel a l r _ hl hr
    simp [depthRec, hl, hr]

end

section Balance
variable {t : Btree Address} {T : BinaryTree Address}

theorem numNodes_le {T : BinaryTree Address} (hd : (inorder T).Nodup) :
    T.numNodes ≤ 2 ^ 64 := by
  have hcard := hd.length_le_card
  rwa [length_inorder, Fintype.card_fin] at hcard

/-- `is_balance` says whether the tree is balanced, and `__balance` reports the height of every
tree of which it says so. -/
theorem isBalance_iff (h : Shaped t.node t.root T) (hd : (inorder T).Nodup) :
    (∃ ret, Returns (fun fuel => isBalance fuel t) ret ∧ (ret = 1 ↔ HeightBalanced T)) ∧
    ∀ (p : Option Address) (S : BinaryTree Address), Shaped t.node p S → (inorder S).Nodup →
      ∃ ret store, Returns (fun fuel => balanceRec t.node fuel p) (ret, store) ∧
        (ret = 1 ↔ HeightBalanced S) ∧ (ret = 1 → store = some (S.height : ℤ)) := by
  have hall : ∀ (p : Option Address) (S : BinaryTree Address), Shaped t.node p S →
      (inorder S).Nodup → ∃ ret store, Returns (fun fuel => balanceRec t.node fuel p) (ret, store) ∧
        (ret = 1 ↔ HeightBalanced S) ∧ (ret = 1 → store = some (S.height : ℤ)) := by
    intro p S hs hds
    refine ⟨(balanceOf S).1, (balanceOf S).2, balanceRec_returns hs (numNodes_le hds), ?_, ?_⟩
    · unfold balanceOf
      split <;> simp_all
    · unfold balanceOf
      split <;> simp
  obtain ⟨ret, store, hreturns, hret, -⟩ := hall t.root T h hd
  refine ⟨⟨ret, ?_, hret⟩, hall⟩
  obtain ⟨n, hn⟩ := hreturns
  exact ⟨n, fun fuel hf => by simp [isBalance, hn fuel hf]⟩

end Balance

/-- A root whose left child has a left child, and whose right child is missing. -/
theorem isBalance_iff_chain : ∃ t : Btree Address, t.root = some 0 ∧ t.node.lchild 0 = some 1 ∧
    ∃ ret, Returns (fun fuel => isBalance fuel t) ret ∧ ret ≠ 1 := by
  let t : Btree Address := ⟨some 0, fun _ => none,
    fun a => if a = 0 then some 1 else if a = 1 then some 2 else none, fun _ => none⟩
  let T : BinaryTree Address := .node 0 (.node 1 (.node 2 .nil .nil) .nil) .nil
  have h : Shaped t.node t.root T := ⟨rfl, ⟨rfl, ⟨rfl, rfl, rfl⟩, rfl⟩, rfl⟩
  have hb : ¬ HeightBalanced T := by simp [T, HeightBalanced]
  obtain ⟨ret, hreturns, hret⟩ := (isBalance_iff h (by simp [T])).1
  exact ⟨t, rfl, rfl, ret, hreturns, fun h1 => hb (hret.mp h1)⟩

/-- `depth` comes to its end without a value, on every tree. The number that a machine returns
is wrong by what it happens to leave where `__depth` ends for NULL. -/
theorem depth_undefined {α : Type} {t : Btree α} {T : BinaryTree α} (h : Shaped t.node t.root T) :
    (Returns (fun fuel => depth fuel t) none ∧
      ¬ Returns (fun fuel => depth fuel t) (some (T.height : ℤ))) ∧
    ∀ v, Fits v → Fits (v + T.height) →
      Returns (fun fuel => depthRec (some v) t.node fuel t.root) (some (v + T.height)) := by
  have hnone : Returns (fun fuel => depth fuel t) none := depthRec_none h
  refine ⟨⟨hnone, fun hsome => ?_⟩, fun v hv hfit => depthRec_some h hv hfit⟩
  cases hnone.unique hsome

theorem depth_undefined_single : ∃ t : Btree ℕ, t.root = some 0 ∧
    Returns (fun fuel => depth fuel t) none ∧
      Returns (fun fuel => depthRec (some 0) t.node fuel t.root) (some 1) := by
  let t : Btree ℕ := ⟨some 0, fun _ => none, fun _ => none, fun _ => none⟩
  obtain ⟨⟨hnone, -⟩, hsome⟩ := depth_undefined (t := t) (T := .node 0 .nil .nil) ⟨rfl, rfl, rfl⟩
  exact ⟨t, rfl, hnone, hsome 0 (by decide) (by decide)⟩

/-- The tree that was just initialized has depth 0, and `depth` has no value. -/
theorem depth_init : ¬ ∃ v, Returns (fun fuel => depth fuel (btreeInit
    (⟨fun _ => none, fun _ => none, fun _ => none⟩ : Links ℕ))) (some v) := by
  rintro ⟨v, hsome⟩
  have hnone := depthRec_none (T := .nil) (show Shaped
    (⟨fun _ => none, fun _ => none, fun _ => none⟩ : Links ℕ) none .nil from rfl)
  cases hnone.unique hsome

end EmbeddedCode.BTree
