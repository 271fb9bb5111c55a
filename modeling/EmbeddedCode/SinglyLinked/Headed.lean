import EmbeddedCode.SinglyLinked.Chains

/-!
# The list with a header node

`1207/02slist/list.c`. The pointer `tmp` of `del` is in the cell before `cur`, which may be
the header node, so that the first node is no special case.
-/
namespace EmbeddedCode.SinglyLinked.Headed

open LinkedList Loop

variable {α D : Type} {list : SList α D} {us vs xs : List α} {ds : List D} {node : α}
  {calls : List (Call D)} {call : Call D} {c : Ptr α}

/-- The pointers lead from the header node to allocated nodes only. -/
structure Linked (list : SList α D) (xs : List α) : Prop where
  live : list.live = true
  holds : Holds list.heap list.next xs

/-- The list object is allocated, and the list stands for these values. -/
def Shows (list : SList α D) (ds : List D) : Prop :=
  list.live = true ∧ Represents list.heap list.next ds

theorem lastCell_mem_append (us vs : List α) :
    lastCell Ptr.node .head us ∈ Ptr.head :: (us ++ vs).map Ptr.node := by
  rw [List.map_append]
  exact List.mem_append_left _ (lastCell_mem Ptr.node .head us)

namespace Linked

theorem readNext_eq (h : Linked list xs) (hc : c ∈ Ptr.head :: xs.map Ptr.node) :
    list.readNext c = some (links list.heap list.next c) := by
  cases c with
  | head => exact if_pos h.live
  | node a => exact if_pos (h.holds.live a (by simpa using hc))

theorem readFirst_eq (h : Linked list xs) : list.readNext .head = some list.next :=
  h.readNext_eq List.mem_cons_self

theorem readLast_eq (h : Linked list (us ++ vs)) :
    list.readNext (lastCell Ptr.node .head us) = some vs.head? := by
  rw [h.readNext_eq (lastCell_mem_append us vs), (Listed.append h.holds.listed).head_eq]

variable [DecidableEq α]

theorem writeNext_eq (h : Linked list xs) (hc : c ∈ Ptr.head :: xs.map Ptr.node) (p : Option α) :
    ∃ list', list.writeNext c p = some list' ∧ list'.live = list.live ∧
      list'.heap.live = list.heap.live ∧ list'.heap.data = list.heap.data ∧
      links list'.heap list'.next = Function.update (links list.heap list.next) c p := by
  cases c with
  | head =>
      refine ⟨{list with next := p}, if_pos h.live, rfl, rfl, rfl, funext fun c => ?_⟩
      cases c <;> simp [links]
  | node a =>
      have ha : list.heap.live a = true := h.holds.live a (by simpa using hc)
      refine ⟨{list with heap := {list.heap with next := Function.update list.heap.next a p}}, ?_,
        rfl, rfl, rfl, funext fun c => ?_⟩
      · simp [SList.writeNext, Heap.writeNext, ha]
      · cases c <;> simp [links, Function.update_apply]

end Linked

section
variable [DecidableEq α]

theorem listAdd_shows (h : Shows list ds) (data : D) (hnode : list.heap.live node = false) :
    ∃ list', list.listAdd data node = some list' ∧ Shows list' (data :: ds) := by
  obtain ⟨hlist, xs, h, hds⟩ := h
  obtain ⟨heap, hnew, h', hout, hlive, -, hdata, hxs⟩ := h.newNode data hnode
  refine ⟨⟨{heap with next := Function.update heap.next node list.next}, true, some node⟩, ?_,
    rfl, node :: xs, h'.push hout hlive, ?_⟩
  · simp [SList.listAdd, hnew, SList.readNext, SList.writeNext, Heap.writeNext, hlist, hlive]
  · rw [List.map_cons, hdata, hxs, hds]

omit [DecidableEq α] in
theorem run_lastTurn (h : Linked list (us ++ vs)) :
    Returns (fun fuel => run list.lastTurn fuel (lastCell Ptr.node .head us))
      (lastCell Ptr.node .head (us ++ vs)) := by
  induction vs generalizing us with
  | nil =>
      have hread := h.readLast_eq
      rw [List.append_nil]
      exact returns_leave (by simp [SList.lastTurn, hread])
  | cons a vs ih =>
      have hread := h.readLast_eq
      have hturn : list.lastTurn (lastCell Ptr.node .head us) = some (.again (.node a)) := by
        simp [SList.lastTurn, hread]
      rw [List.append_cons] at h ⊢
      have hrest := ih h
      rw [lastCell_concat] at hrest
      exact hrest.again hturn

theorem listAddTail_shows (h : Shows list ds) (data : D) (hnode : list.heap.live node = false) :
    ∃ list', Returns (fun fuel => list.listAddTail fuel data node) list' ∧
      Shows list' (ds ++ [data]) := by
  obtain ⟨hlist, xs, h, hds⟩ := h
  obtain ⟨heap, hnew, h', hout, hlive, hnull, hdata, hxs⟩ := h.newNode data hnode
  have hlinked : Linked {list with heap} xs := ⟨hlist, h'⟩
  have hlast := run_lastTurn (show Linked {list with heap} ([] ++ xs) from hlinked)
  have hmap : (xs ++ [node]).map heap.data = ds ++ [data] := by
    rw [List.map_append, hxs, hds, List.map_singleton, hdata]
  obtain ⟨list', hwrite, hlist', hlive', hdata', hlinks⟩ :=
    hlinked.writeNext_eq (lastCell_mem Ptr.node .head xs) (some node)
  refine ⟨list', ?_, hlist'.trans hlist, xs ++ [node],
    h'.concat hout hlive hnull hlive' hlinks, ?_⟩
  · simp only [SList.listAddTail, hnew, Option.bind_eq_bind, Option.bind_some]
    exact hlast.bind hwrite
  · rw [hdata']
    exact hmap

variable [DecidableEq D]

/-- A turn of `del` at a node with the value takes it out of the list. -/
theorem delTurn_unlink {a : α} (h : Linked list (us ++ a :: vs)) (flag : Bool) :
    ∃ list', SList.delTurn (list.heap.data a) (list, lastCell Ptr.node .head us, some a, flag) =
        some (.again (list', lastCell Ptr.node .head us, vs.head?, true)) ∧
      Linked list' (us ++ vs) ∧ list'.heap.data = list.heap.data := by
  have ha : list.heap.live a = true := h.holds.live a (by simp)
  obtain ⟨list₁, hwrite, hlive, hheap, hdata, hlinks⟩ :=
    h.writeNext_eq (lastCell_mem_append us (a :: vs)) (list.heap.next a)
  let heap : Heap α D := {list₁.heap with live := Function.update list₁.heap.live a false}
  have hfree : list₁.heap.free a = some heap := if_pos (hheap ▸ ha)
  have hlinked : Linked {list₁ with heap} (us ++ vs) := by
    refine ⟨hlive.trans h.live, h.holds.erase (fun c _ => ?_) fun b hb => ?_⟩
    · rw [← hlinks]
      rfl
    · rw [← hheap]
      exact Function.update_of_ne hb _ _
  refine ⟨{list₁ with heap}, ?_, hlinked, hdata⟩
  simp [SList.delTurn, readData_eq ha, SinglyLinked.readNext_eq ha, hwrite, hfree,
    hlinked.readLast_eq]

theorem run_delTurn (data : D) (h : Linked list (us ++ vs)) (flag : Bool) :
    ∃ list' flag', Returns (fun fuel => run (SList.delTurn data) fuel
        (list, lastCell Ptr.node .head us, vs.head?, flag)) (list', flag') ∧
      Linked list' (us ++ vs.filter fun a => list.heap.data a ≠ data) ∧
      list'.heap.data = list.heap.data ∧
      (flag' = true ↔ flag = true ∨ data ∈ vs.map list.heap.data) := by
  induction vs generalizing us list flag with
  | nil => exact ⟨list, flag, returns_leave rfl, by simpa using h, rfl, by simp⟩
  | cons a vs ih =>
      by_cases hdata : list.heap.data a = data
      · obtain ⟨list₁, hturn, h₁, hdata₁⟩ := delTurn_unlink h flag
        obtain ⟨list', flag', hreturns, h', hdata', hflag⟩ := ih h₁ true
        rw [hdata] at hturn
        refine ⟨list', flag', hreturns.again hturn, ?_, hdata'.trans hdata₁, ?_⟩
        · rw [List.filter_cons_of_neg (by simp [hdata]), ← hdata₁]
          exact h'
        · simp [hflag, hdata]
      · have ha : list.heap.live a = true := h.holds.live a (by simp)
        have hturn : SList.delTurn data (list, lastCell Ptr.node .head us, (a :: vs).head?, flag) =
            some (.again (list, lastCell Ptr.node .head (us ++ [a]), vs.head?, flag)) := by
          simp [SList.delTurn, readData_eq ha, SinglyLinked.readNext_eq ha, hdata,
            h.holds.next_eq, lastCell_concat]
        rw [List.append_cons] at h
        obtain ⟨list', flag', hreturns, h', hdata', hflag⟩ := ih h flag
        refine ⟨list', flag', hreturns.again hturn, ?_, hdata', ?_⟩
        · rw [List.filter_cons_of_pos (by simp [hdata]), List.append_cons]
          exact h'
        · rw [hflag, List.map_cons, List.mem_cons, or_iff_right (Ne.symm hdata)]

theorem del_shows (h : Shows list ds) (data : D) :
    ∃ list' flag, Returns (fun fuel => list.del fuel data) (list', flag) ∧
      Shows list' (ds.filter (· ≠ data)) ∧ (flag = true ↔ data ∈ ds) := by
  obtain ⟨hlist, xs, h, rfl⟩ := h
  have hlinked : Linked list ([] ++ xs) := ⟨hlist, h⟩
  obtain ⟨list', flag, hreturns, h', hdata, hflag⟩ := run_delTurn data hlinked false
  rw [List.nil_append] at h'
  refine ⟨list', flag, ?_, ⟨h'.live, _, h'.holds, ?_⟩, ?_⟩
  · simp only [SList.del, hlinked.readFirst_eq, Option.bind_eq_bind, Option.bind_some]
    rwa [h.chain.head_eq]
  · rw [hdata, List.filter_map]
    rfl
  · simpa using hflag

omit [DecidableEq α] in
theorem search_shows (h : Shows list ds) (data : D) :
    ∃ found, Returns (fun fuel => list.search fuel data) found ∧ (found.isSome ↔ data ∈ ds) ∧
      ∀ a ∈ found, list.heap.data a = data := by
  obtain ⟨hlist, xs, h, rfl⟩ := h
  have hlinked : Linked list xs := ⟨hlist, h⟩
  obtain ⟨found, hreturns, hiff, hfound⟩ := h.search data
  refine ⟨found, ?_, hiff, fun a ha => (hfound a ha).2⟩
  simpa only [SList.search, hlinked.readFirst_eq, Option.bind_eq_bind, Option.bind_some]
    using hreturns

/-- The loop of `destroy` comes to its end, since the first value is deleted in each turn. -/
theorem exits_destroyTurn (h : Shows list ds) :
    ∃ list', Exits SList.destroyTurn list list' ∧ list'.live = true ∧ list'.next = none := by
  induction hn : ds.length using Nat.strongRecOn generalizing list ds with
  | _ n ih =>
    have hshows := h
    obtain ⟨hlist, xs, hxs, hds⟩ := h
    have hread : list.readNext .head = some list.next := if_pos hlist
    have hfirst : list.next = xs.head? := hxs.chain.head_eq
    cases xs with
    | nil =>
        have hnone : list.next = none := hfirst
        have hturn : ∀ fuel, list.destroyTurn fuel = some (.leave list) := fun fuel => by
          simp [SList.destroyTurn, SList.listIsEmpty, hread, hnone]
        exact ⟨list, Exits.single ⟨0, fun fuel _ => hturn fuel⟩, hlist, hnone⟩
    | cons a xs =>
        have hnext : list.next = some a := hfirst
        have hvalue := readData_eq (hxs.live a List.mem_cons_self)
        obtain ⟨list₁, flag, hdel, hshows₁, -⟩ := del_shows hshows (list.heap.data a)
        have hturn : Returns (fun fuel => list.destroyTurn fuel) (.again list₁) := by
          simp only [SList.destroyTurn, SList.listIsEmpty, hread, hnext, hvalue,
            Option.bind_eq_bind, Option.bind_some]
          exact hdel.bind rfl
        have hlt : (ds.filter (· ≠ list.heap.data a)).length < n := by
          rw [← hn, ← hds, List.map_cons, List.filter_cons_of_neg (by simp), List.length_cons]
          exact Nat.lt_succ_of_le (List.length_filter_le _ _)
        obtain ⟨list', hexits, hend⟩ := ih _ hlt hshows₁ rfl
        exact ⟨list', (Leads.single hturn).exits hexits, hend⟩

theorem destroy_shows (h : Shows list ds) :
    ∃ list', Returns (fun fuel => list.destroy fuel) list' ∧ list'.next = none ∧
      list'.live = false := by
  obtain ⟨list', hexits, hlive, hnone⟩ := exits_destroyTurn h
  exact ⟨{list' with live := false}, hexits.returns.bind (if_pos hlive), hnone, rfl⟩

theorem Reached.shows (h : Reached calls list) : Shows list (reference calls) := by
  induction h with
  | init heap => exact ⟨rfl, [], holds_nil heap, rfl⟩
  | add node _ hnode hadd ih =>
      obtain ⟨_, hadd', h'⟩ := listAdd_shows ih _ hnode
      cases hadd'.symm.trans hadd
      exact h'
  | addTail node _ hnode hadd ih =>
      obtain ⟨_, hadd', h'⟩ := listAddTail_shows ih _ hnode
      exact hadd.unique hadd' ▸ h'
  | del _ hdel ih =>
      obtain ⟨_, _, hdel', h', -⟩ := del_shows ih _
      cases hdel.unique hdel'
      exact h'
  | search _ _ ih => exact ih

theorem Reached.succeeds (h : Reached calls list) (call : Call D) : Succeeds list call := by
  have hshows := h.shows
  cases call with
  | add data =>
      intro node hnode
      obtain ⟨list', hadd, -⟩ := listAdd_shows hshows data hnode
      exact ⟨list', hadd⟩
  | addTail data =>
      intro node hnode
      obtain ⟨list', hadd, -⟩ := listAddTail_shows hshows data hnode
      exact ⟨list', hadd⟩
  | del data =>
      obtain ⟨list', flag, hdel, -⟩ := del_shows hshows data
      exact ⟨(list', flag), hdel⟩
  | search data =>
      obtain ⟨found, hsearch, -⟩ := search_shows hshows data
      exact ⟨found, hsearch⟩

end

end EmbeddedCode.SinglyLinked.Headed
