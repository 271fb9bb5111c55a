import EmbeddedCode.Library.TwoWayList
import EmbeddedCode.SinglyLinked.Model

/-!
# The nodes of a list

What the two implementations have in common: a chain of allocated nodes, which is walked
and searched, gets new nodes at either end and loses nodes at any place.
-/
namespace EmbeddedCode.SinglyLinked

open LinkedList Loop

variable {α D : Type} {heap heap' : Heap α D} {first first' : Option α} {us vs xs : List α}
  {a node : α} {data : D}

structure Holds (heap : Heap α D) (first : Option α) (xs : List α) : Prop where
  chain : Chain heap.next first xs
  live : ∀ a ∈ xs, heap.live a = true

/-- The list stands for these values. -/
def Represents (heap : Heap α D) (first : Option α) (ds : List D) : Prop :=
  ∃ xs, Holds heap first xs ∧ xs.map heap.data = ds

theorem readData_eq (ha : heap.live a = true) : heap.readData a = some (heap.data a) := if_pos ha

theorem readNext_eq (ha : heap.live a = true) : heap.readNext a = some (heap.next a) := if_pos ha

/-- The pointers of a list, the one to its first node included. -/
def links (heap : Heap α D) (first : Option α) : Ptr α → Option α
  | .head => first
  | .node a => heap.next a

theorem holds_nil (heap : Heap α D) : Holds heap none [] := ⟨rfl, by simp⟩

namespace Holds

theorem listed (h : Holds heap first xs) :
    Listed some Ptr.node (links heap first) .head xs none := h.chain

theorem distinct (h : Holds heap first xs) : (Ptr.head :: xs.map Ptr.node).Nodup := by
  have hinj : Function.Injective (Ptr.node : α → Ptr α) := fun _ _ => Ptr.node.inj
  refine List.nodup_cons.mpr ⟨by simp, (List.nodup_map_iff hinj).mpr h.chain.nodup⟩

theorem next_eq (h : Holds heap first (us ++ a :: vs)) : heap.next a = vs.head? := by
  obtain ⟨p, -, -, hvs⟩ := segment_append.mp h.chain
  exact Chain.head_eq hvs

theorem forEach (h : Holds heap first xs) :
    Returns (fun fuel => heap.forEach fuel first) xs := by
  obtain ⟨hchain, hlive⟩ := h
  refine ⟨xs.length + 1, fun fuel hf => ?_⟩
  induction xs generalizing first fuel with
  | nil =>
      obtain ⟨fuel, rfl⟩ : ∃ n, fuel = n + 1 := ⟨fuel - 1, by omega⟩
      rw [show first = none from hchain]
      rfl
  | cons a xs ih =>
      obtain ⟨fuel, rfl⟩ : ∃ n, fuel = n + 1 := ⟨fuel - 1, by omega⟩
      obtain ⟨rfl, hrest⟩ := hchain
      rw [List.forall_mem_cons] at hlive
      rw [List.length_cons] at hf
      have hnodes := ih hrest hlive.2 fuel (by omega)
      simp [Heap.forEach, readNext_eq hlive.1, hnodes]

theorem search [DecidableEq D] (h : Holds heap first xs) (data : D) :
    ∃ found, Returns (fun fuel => run (heap.searchTurn data) fuel first) found ∧
      (found.isSome ↔ data ∈ xs.map heap.data) ∧ ∀ a ∈ found, a ∈ xs ∧ heap.data a = data := by
  obtain ⟨hchain, hlive⟩ := h
  induction xs generalizing first with
  | nil =>
      rw [show first = none from hchain]
      exact ⟨none, returns_leave rfl, by simp, nofun⟩
  | cons a xs ih =>
      obtain ⟨rfl, hrest⟩ := hchain
      rw [List.forall_mem_cons] at hlive
      by_cases hdata : heap.data a = data
      · have hturn : heap.searchTurn data (some a) = some (.leave (some a)) := by
          simp [Heap.searchTurn, readData_eq hlive.1, hdata]
        refine ⟨some a, returns_leave hturn, by simp [hdata], ?_⟩
        rintro b ⟨⟩
        exact ⟨List.mem_cons_self, hdata⟩
      · have hturn : heap.searchTurn data (some a) = some (.again (heap.next a)) := by
          simp [Heap.searchTurn, readData_eq hlive.1, readNext_eq hlive.1, hdata]
        obtain ⟨found, hreturns, hiff, hfound⟩ := ih hrest hlive.2
        refine ⟨found, hreturns.again hturn, ?_, fun b hb => ?_⟩
        · rw [hiff, List.map_cons, List.mem_cons, or_iff_right (Ne.symm hdata)]
        · exact ⟨List.mem_cons_of_mem _ (hfound b hb).1, (hfound b hb).2⟩

variable [DecidableEq α]

theorem newNode (h : Holds heap first xs) (data : D) (hnode : heap.live node = false) :
    ∃ heap', heap.newNode data node = some heap' ∧ Holds heap' first xs ∧ node ∉ xs ∧
      heap'.live node = true ∧ heap'.next node = none ∧ heap'.data node = data ∧
      xs.map heap'.data = xs.map heap.data := by
  have hout : node ∉ xs := by
    intro hmem
    rw [h.live node hmem] at hnode
    cases hnode
  have hne : ∀ a ∈ xs, a ≠ node := fun a ha => ne_of_mem_of_not_mem ha hout
  have hnew : heap.newNode data node = some {heap with
      live := Function.update heap.live node true
      data := Function.update heap.data node data
      next := Function.update heap.next node none} := by
    simp [Heap.newNode, hnode]
  refine ⟨_, hnew, ⟨?_, fun a ha => ?_⟩, hout, Function.update_self .., Function.update_self ..,
    Function.update_self .., List.map_congr_left fun a ha => Function.update_of_ne (hne a ha) _ _⟩
  · exact h.chain.congr fun a ha => Function.update_of_ne (hne a ha) _ _
  · exact (Function.update_of_ne (hne a ha) _ _).trans (h.live a ha)

theorem push (h : Holds heap first xs) (hout : node ∉ xs) (hlive : heap.live node = true) :
    Holds {heap with next := Function.update heap.next node first} (some node) (node :: xs) := by
  refine ⟨⟨rfl, ?_⟩, List.forall_mem_cons.mpr ⟨hlive, h.live⟩⟩
  simp only [Function.update_self]
  exact Segment.update h.chain hout _

theorem concat (h : Holds heap first xs) (hout : node ∉ xs) (hlive : heap.live node = true)
    (hnull : heap.next node = none) (hsame : heap'.live = heap.live)
    (hlinks : links heap' first' =
      Function.update (links heap first) (lastCell Ptr.node .head xs) (some node)) :
    Holds heap' first' (xs ++ [node]) := by
  have hempty : Listed some Ptr.node (links heap first) .head (xs ++ []) none := by
    rw [List.append_nil]
    exact h.listed
  have hdistinct : (Ptr.head :: (xs ++ [node]).map Ptr.node).Nodup := by
    have hnot : Ptr.node node ∉ Ptr.head :: xs.map Ptr.node := by simpa using hout
    have hnodup := List.nodup_cons.mpr ⟨hnot, h.distinct⟩
    rw [List.map_append, ← List.cons_append]
    exact List.nodup_middle.mpr (by simpa using hnodup)
  have hlisted : Listed some Ptr.node (links heap' first') .head (xs ++ [node]) none := by
    rw [hlinks]
    apply (Listed.insert xs [] hempty hdistinct).congr
    intro c _
    by_cases hc : c = .node node
    · rw [hc, Function.update_self, Function.update_of_ne (lastCell_ne_node hdistinct).symm,
        h.listed.last]
      exact hnull
    · rw [Function.update_of_ne hc]
  refine ⟨hlisted, fun b hb => ?_⟩
  rw [hsame]
  rcases List.mem_append.mp hb with hb | hb
  · exact h.live b hb
  · rw [List.mem_singleton.mp hb]
    exact hlive

theorem erase (h : Holds heap first (us ++ a :: vs))
    (hlinks : ∀ c, c ≠ .node a → links heap' first' c =
      Function.update (links heap first) (lastCell Ptr.node .head us) (heap.next a) c)
    (hlive : ∀ b, b ≠ a → heap'.live b = heap.live b) : Holds heap' first' (us ++ vs) := by
  have hgone : a ∉ us ++ vs := (List.nodup_cons.mp (List.nodup_middle.mp h.chain.nodup)).1
  have hlisted : Listed some Ptr.node (links heap' first') .head (us ++ vs) none := by
    apply (h.listed.erase h.distinct).congr
    intro c hc
    apply hlinks
    rintro rfl
    simp only [List.mem_cons, reduceCtorEq, List.mem_map, Ptr.node.injEq, exists_eq_right,
      false_or] at hc
    exact hgone hc
  refine ⟨hlisted, fun b hb => ?_⟩
  rw [hlive b (ne_of_mem_of_not_mem hb hgone)]
  apply h.live
  simp only [List.mem_append, List.mem_cons] at hb ⊢
  tauto

end Holds

end EmbeddedCode.SinglyLinked
