import EmbeddedCode.SinglyLinked.Headed
import EmbeddedCode.SinglyLinked.Headless
import Mathlib.Data.Int.Notation

/-!
# Both lists stand for the same values

A run starts at `list_init` and takes any finite sequence of calls. Every call returns,
whatever addresses the two lists get for their nodes, and both lists hold the values of
the reference, in its order.
-/
namespace EmbeddedCode.SinglyLinked

open Loop

/-- The walk of `list_for_each` meets nodes with these values. -/
def Values {α D : Type} (forEach : ℕ → Option (List α)) (data : α → D) (ds : List D) : Prop :=
  ∃ nodes, Returns forEach nodes ∧ nodes.map data = ds

section
variable {α α' D : Type} [DecidableEq α] [DecidableEq α'] [DecidableEq D] {ds : List D}
  {list : Headless.SList α D} {list' : Headed.SList α' D} {calls : List (Call D)}

omit [DecidableEq α] [DecidableEq D] in
theorem Headless.values (h : Represents list.heap list.head ds) :
    Values (fun fuel => list.forEach fuel) list.heap.data ds := by
  obtain ⟨xs, h, hds⟩ := h
  exact ⟨xs, h.forEach, hds⟩

omit [DecidableEq α'] [DecidableEq D] in
theorem Headed.values (h : Headed.Shows list' ds) :
    Values (fun fuel => list'.forEach fuel) list'.heap.data ds := by
  obtain ⟨hlist, xs, h, hds⟩ := h
  have hread : list'.readNext .head = some list'.next := if_pos hlist
  refine ⟨xs, ?_, hds⟩
  simpa only [Headed.SList.forEach, hread, Option.bind_eq_bind, Option.bind_some] using h.forEach

/-- After any calls both lists hold the values of the reference, every further call returns, a
search finds what is there, and `destroy` empties the list. -/
theorem lists_agree (h : Headless.Reached calls list) (h' : Headed.Reached calls list') :
    Values (fun fuel => list.forEach fuel) list.heap.data (reference calls) ∧
    Values (fun fuel => list'.forEach fuel) list'.heap.data (reference calls) ∧
    (∀ call, Headless.Succeeds list call ∧ Headed.Succeeds list' call) ∧
    (∀ data, ∃ found found', Returns (fun fuel => list.search fuel data) found ∧
      Returns (fun fuel => list'.search fuel data) found' ∧
      (found.isSome ↔ data ∈ reference calls) ∧ (found'.isSome ↔ data ∈ reference calls) ∧
      (∀ a ∈ found, list.heap.data a = data) ∧ ∀ a ∈ found', list'.heap.data a = data) ∧
    (∃ list₁, Returns (fun fuel => list.destroy fuel) list₁ ∧ list₁.head = none) ∧
    ∃ list₁', Returns (fun fuel => list'.destroy fuel) list₁' ∧ list₁'.next = none := by
  refine ⟨Headless.values h.represents, Headed.values h'.shows,
    fun call => ⟨h.succeeds call, h'.succeeds call⟩, fun data => ?_,
    Headless.destroy_represents h.represents, ?_⟩
  · obtain ⟨found, hreturns, hiff, hfound⟩ := Headless.search_represents h.represents data
    obtain ⟨found', hreturns', hiff', hfound'⟩ := Headed.search_shows h'.shows data
    exact ⟨found, found', hreturns, hreturns', hiff, hiff', hfound, hfound'⟩
  · obtain ⟨list₁', hreturns, hnone, -⟩ := Headed.destroy_shows h'.shows
    exact ⟨list₁', hreturns, hnone⟩

end

/-- The value 0 is added at both ends and deleted, with 7 between. -/
theorem lists_agree_del : ∃ (list : Headless.SList ℕ ℤ) (list' : Headed.SList ℕ ℤ),
    Values (fun fuel => list.forEach fuel) list.heap.data [7] ∧
      Values (fun fuel => list'.forEach fuel) list'.heap.data [7] := by
  let heap : Heap ℕ ℤ := ⟨fun _ => false, fun _ => 0, fun _ => none⟩
  have hadd : Headless.Reached [.add (0 : ℤ)] _ := .add 0 (.init heap) rfl rfl
  have hadd₂ : Headless.Reached [.add 7, .add (0 : ℤ)] _ := .add 1 hadd rfl rfl
  have hadd₃ : Headless.Reached [.add 0, .add 7, .add (0 : ℤ)] _ := .add 2 hadd₂ rfl rfl
  obtain ⟨list, hdel⟩ := hadd₃.succeeds (.del 0)
  have hadd' : Headed.Reached [.add (0 : ℤ)] _ := .add 0 (.init heap) rfl rfl
  have hadd₂' : Headed.Reached [.add 7, .add (0 : ℤ)] _ := .add 1 hadd' rfl rfl
  have hadd₃' : Headed.Reached [.add 0, .add 7, .add (0 : ℤ)] _ := .add 2 hadd₂' rfl rfl
  obtain ⟨⟨list', flag⟩, hdel'⟩ := hadd₃'.succeeds (.del 0)
  have hagree := lists_agree (hadd₃.del hdel) (hadd₃'.del hdel')
  exact ⟨list, list', hagree.1, hagree.2.1⟩

end EmbeddedCode.SinglyLinked
