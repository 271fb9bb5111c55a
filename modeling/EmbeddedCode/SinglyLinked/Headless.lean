import EmbeddedCode.SinglyLinked.Chains

/-!
# The list without a header node

`1122/02list/list.c`. The loop of `del` has passed nodes without the value, of which the
last one is `tmp`, and is in front of the others.
-/
namespace EmbeddedCode.SinglyLinked.Headless

open LinkedList Loop

variable {α D : Type} [DecidableEq α] {list : SList α D} {us vs xs : List α} {ds : List D}
  {node : α} {calls : List (Call D)} {call : Call D}

theorem add_represents (h : Represents list.heap list.head ds) (data : D)
    (hnode : list.heap.live node = false) :
    ∃ list', list.add data node = some list' ∧
      Represents list'.heap list'.head (data :: ds) := by
  obtain ⟨xs, h, hds⟩ := h
  obtain ⟨heap, hnew, h', hout, hlive, hnull, hdata, hxs⟩ := h.newNode data hnode
  have hpush := h'.push hout hlive
  have hmap : (node :: xs).map heap.data = data :: ds := by
    rw [List.map_cons, hdata, hxs, hds]
  cases hhead : list.head with
  | none =>
      -- The pointer of the new node is NULL already.
      rw [hhead] at hpush
      have hsame : Function.update heap.next node none = heap.next := by
        rw [← hnull, Function.update_eq_self]
      rw [hsame] at hpush
      exact ⟨⟨heap, some node⟩, by simp [SList.add, hnew, hhead], node :: xs, hpush, hmap⟩
  | some head =>
      rw [hhead] at hpush
      refine ⟨⟨{heap with next := Function.update heap.next node (some head)}, some node⟩, ?_,
        node :: xs, hpush, hmap⟩
      simp [SList.add, hnew, hhead, Heap.writeNext, hlive]

omit [DecidableEq α] in
theorem run_lastTurn {heap : Heap α D} {z head : α} (h : Holds heap (some head) (xs ++ [z])) :
    Returns (fun fuel => run (SList.lastTurn heap) fuel head) z := by
  obtain ⟨hchain, hlive⟩ := h
  induction xs generalizing head with
  | nil =>
      obtain ⟨hhead, hnext⟩ := hchain
      obtain rfl : head = z := Option.some.inj hhead
      have hz : heap.next head = none := hnext
      have hread := readNext_eq (hlive head (by simp))
      exact returns_leave (by simp [SList.lastTurn, hread, hz])
  | cons a xs ih =>
      obtain ⟨hhead, hrest⟩ := hchain
      obtain rfl : head = a := Option.some.inj hhead
      rw [List.cons_append, List.forall_mem_cons] at hlive
      have hread := readNext_eq hlive.1
      cases hnext : heap.next head with
      | none =>
          rw [hnext] at hrest
          cases xs <;> cases hrest.1
      | some b =>
          rw [hnext] at hrest
          exact (ih hrest hlive.2).again (by simp [SList.lastTurn, hread, hnext])

theorem addTail_represents (h : Represents list.heap list.head ds) (data : D)
    (hnode : list.heap.live node = false) :
    ∃ list', Returns (fun fuel => list.addTail fuel data node) list' ∧
      Represents list'.heap list'.head (ds ++ [data]) := by
  obtain ⟨xs, h, hds⟩ := h
  obtain ⟨heap, hnew, h', hout, hlive, hnull, hdata, hxs⟩ := h.newNode data hnode
  have hmap : (xs ++ [node]).map heap.data = ds ++ [data] := by
    rw [List.map_append, hxs, hds, List.map_singleton, hdata]
  rcases List.eq_nil_or_concat xs with rfl | ⟨xs, z, rfl⟩
  · have hhead : list.head = none := h.chain
    refine ⟨⟨heap, some node⟩, ?_, [node], h'.concat hout hlive hnull rfl ?_, hmap⟩
    · simp only [SList.addTail, hnew, hhead, Option.bind_eq_bind, Option.bind_some]
      exact returns_const _
    · funext c
      cases c <;> simp [links, lastCell]
  · rw [List.concat_eq_append] at h' hout hmap
    have hz : heap.live z = true := h'.live z (by simp)
    cases hhead : list.head with
    | none =>
        have hfirst := Chain.head_eq h'.chain
        rw [hhead] at hfirst
        simp at hfirst
    | some head =>
        rw [hhead] at h'
        have hlast := run_lastTurn h'
        refine ⟨⟨{heap with next := Function.update heap.next z (some node)}, some head⟩, ?_,
          xs ++ [z] ++ [node], h'.concat hout hlive hnull rfl ?_, hmap⟩
        · simp only [SList.addTail, hnew, hhead, Option.bind_eq_bind, Option.bind_some]
          exact hlast.bind (by simp [Heap.writeNext, hz])
        · funext c
          rw [lastCell_concat]
          cases c <;> simp [links, Function.update_apply]

variable [DecidableEq D]

/-- A turn of `del` at the first node, if that has the value, moves the head pointer. -/
theorem delTurn_first {a : α} {tmp : Option α} (h : Holds list.heap list.head (a :: vs)) :
    ∃ list', SList.delTurn (list.heap.data a) (list, tmp, some a) =
        some (.again (list', tmp, vs.head?)) ∧
      Holds list'.heap list'.head vs ∧ list'.heap.data = list.heap.data := by
  obtain ⟨heap, head⟩ := list
  have hempty : Holds heap head ([] ++ a :: vs) := h
  have ha : heap.live a = true := h.live a List.mem_cons_self
  have hnext : heap.next a = vs.head? := hempty.next_eq
  have hhead : head = some a := h.chain.1
  let heap' : Heap α D := {heap with
    next := Function.update heap.next a none
    live := Function.update heap.live a false}
  have hturn : SList.delTurn (heap.data a) (⟨heap, head⟩, tmp, some a) =
      some (.again (⟨heap', heap.next a⟩, tmp, heap.next a)) := by
    simp [SList.delTurn, readData_eq ha, readNext_eq ha, Heap.writeNext, Heap.free, ha, hhead,
      heap']
  rw [hnext] at hturn
  refine ⟨⟨heap', vs.head?⟩, hturn, hempty.erase ?_ ?_, rfl⟩
  · intro c hc
    cases c with
    | head => simp [links, lastCell, hnext]
    | node b =>
        have hb : b ≠ a := fun heq => hc (by rw [heq])
        simp [links, lastCell, heap', hb]
  · exact fun b hb => Function.update_of_ne hb _ _

/-- A turn of `del` at a later node with the value moves the pointer of `tmp`. -/
theorem delTurn_later {a t : α} (h : Holds list.heap list.head (us ++ [t] ++ a :: vs)) :
    ∃ list', SList.delTurn (list.heap.data a) (list, some t, some a) =
        some (.again (list', some t, vs.head?)) ∧
      Holds list'.heap list'.head (us ++ [t] ++ vs) ∧ list'.heap.data = list.heap.data := by
  obtain ⟨heap, head⟩ := list
  have ha : heap.live a = true := h.live a (by simp)
  have ht : heap.live t = true := h.live t (by simp)
  have hnext : heap.next a = vs.head? := h.next_eq
  have hpassed : ∀ b ∈ us ++ [t], b ≠ a := fun b hb =>
    (List.nodup_append.mp h.chain.nodup).2.2 b hb a List.mem_cons_self
  have hta : t ≠ a := hpassed t (by simp)
  have hhead : some a ≠ head := by
    -- The first node is one of those that were passed.
    have hfirst : head = (us ++ [t] ++ a :: vs).head? := h.chain.head_eq
    rw [List.head?_append_of_ne_nil _ (by simp)] at hfirst
    rw [hfirst]
    exact fun heq => hpassed a (List.mem_of_head? heq.symm) rfl
  let heap' : Heap α D := {heap with
    next := Function.update (Function.update heap.next t (heap.next a)) a none
    live := Function.update heap.live a false}
  have hturn : SList.delTurn (heap.data a) (⟨heap, head⟩, some t, some a) =
      some (.again (⟨heap', head⟩, some t, heap.next a)) := by
    simp [SList.delTurn, readData_eq ha, Heap.readNext, Heap.writeNext, Heap.free, ha, ht, hhead,
      hta, heap']
  rw [hnext] at hturn
  refine ⟨⟨heap', head⟩, hturn, h.erase ?_ ?_, rfl⟩
  · intro c hc
    rw [lastCell_concat]
    cases c with
    | head => simp [links]
    | node b =>
        have hb : b ≠ a := fun heq => hc (by rw [heq])
        simp [links, heap', hb, Function.update_apply]
  · exact fun b hb => Function.update_of_ne hb _ _

theorem delTurn_unlink {a : α} (h : Holds list.heap list.head (us ++ a :: vs)) :
    ∃ list', SList.delTurn (list.heap.data a) (list, us.getLast?, some a) =
        some (.again (list', us.getLast?, vs.head?)) ∧
      Holds list'.heap list'.head (us ++ vs) ∧ list'.heap.data = list.heap.data := by
  rcases List.eq_nil_or_concat us with rfl | ⟨us, t, rfl⟩
  · exact delTurn_first h
  · rw [List.concat_eq_append] at h ⊢
    rw [List.getLast?_concat]
    exact delTurn_later h

theorem run_delTurn (data : D) (h : Holds list.heap list.head (us ++ vs)) :
    ∃ list', Returns (fun fuel => run (SList.delTurn data) fuel (list, us.getLast?, vs.head?))
        list' ∧
      Holds list'.heap list'.head (us ++ vs.filter fun a => list.heap.data a ≠ data) ∧
      list'.heap.data = list.heap.data := by
  induction vs generalizing us list with
  | nil => exact ⟨list, returns_leave rfl, by simpa using h, rfl⟩
  | cons a vs ih =>
      by_cases hdata : list.heap.data a = data
      · obtain ⟨list₁, hturn, h₁, hdata₁⟩ := delTurn_unlink h
        obtain ⟨list', hreturns, h', hdata'⟩ := ih h₁
        rw [hdata] at hturn
        refine ⟨list', hreturns.again hturn, ?_, hdata'.trans hdata₁⟩
        rw [List.filter_cons_of_neg (by simp [hdata]), ← hdata₁]
        exact h'
      · have ha : list.heap.live a = true := h.live a (by simp)
        have hturn : SList.delTurn data (list, us.getLast?, (a :: vs).head?) =
            some (.again (list, (us ++ [a]).getLast?, vs.head?)) := by
          simp [SList.delTurn, readData_eq ha, readNext_eq ha, hdata, h.next_eq]
        rw [← List.singleton_append, ← List.append_assoc] at h
        obtain ⟨list', hreturns, h', hdata'⟩ := ih h
        refine ⟨list', hreturns.again hturn, ?_, hdata'⟩
        rw [List.filter_cons_of_pos (by simp [hdata])]
        rwa [List.append_assoc, List.singleton_append] at h'

theorem del_holds (h : Holds list.heap list.head xs) (data : D) :
    ∃ list', Returns (fun fuel => list.del fuel data) list' ∧
      Holds list'.heap list'.head (xs.filter fun a => list.heap.data a ≠ data) ∧
      list'.heap.data = list.heap.data := by
  have hfirst : list.head = xs.head? := h.chain.head_eq
  have hempty : Holds list.heap list.head ([] ++ xs) := h
  have hloop := run_delTurn data hempty
  rw [List.nil_append, List.getLast?_nil, ← hfirst] at hloop
  cases hhead : list.head with
  | none =>
      rw [hfirst, List.head?_eq_none_iff] at hhead
      subst hhead
      refine ⟨list, ?_, h, rfl⟩
      have hnone : list.head = none := hfirst
      simp only [SList.del, hnone]
      exact returns_const list
  | some head =>
      rw [hhead] at hloop
      simpa only [SList.del, hhead] using hloop

theorem del_represents (h : Represents list.heap list.head ds) (data : D) :
    ∃ list', Returns (fun fuel => list.del fuel data) list' ∧
      Represents list'.heap list'.head (ds.filter (· ≠ data)) := by
  obtain ⟨xs, h, rfl⟩ := h
  obtain ⟨list', hreturns, h', hdata⟩ := del_holds h data
  refine ⟨list', hreturns, _, h', ?_⟩
  rw [hdata, List.filter_map]
  rfl

omit [DecidableEq α] in
theorem search_represents (h : Represents list.heap list.head ds) (data : D) :
    ∃ found, Returns (fun fuel => list.search fuel data) found ∧ (found.isSome ↔ data ∈ ds) ∧
      ∀ a ∈ found, list.heap.data a = data := by
  obtain ⟨xs, h, rfl⟩ := h
  obtain ⟨found, hreturns, hiff, hfound⟩ := h.search data
  refine ⟨found, ?_, hiff, fun a ha => (hfound a ha).2⟩
  cases hhead : list.head with
  | none =>
      rw [hhead] at hreturns
      have hnone : found = none := hreturns.unique (returns_leave rfl)
      simp only [SList.search, hhead, hnone]
      exact returns_const none
  | some head =>
      rw [hhead] at hreturns
      simpa only [SList.search, hhead] using hreturns

/-- `destroy` comes to its end, since the first value is deleted in each turn. -/
theorem destroy_represents (h : Represents list.heap list.head ds) :
    ∃ list', Returns (fun fuel => list.destroy fuel) list' ∧ list'.head = none := by
  suffices hexits : ∃ list', Exits SList.destroyTurn list list' ∧ list'.head = none by
    obtain ⟨list', hexits, hnone⟩ := hexits
    exact ⟨list', hexits.returns, hnone⟩
  induction hn : ds.length using Nat.strongRecOn generalizing list ds with
  | _ n ih =>
    have hrep := h
    obtain ⟨xs, hxs, hds⟩ := h
    have hfirst : list.head = xs.head? := hxs.chain.head_eq
    cases xs with
    | nil =>
        have hnone : list.head = none := hfirst
        exact ⟨list, Exits.single ⟨0, fun fuel _ => by simp [SList.destroyTurn, hnone]⟩, hnone⟩
    | cons a xs =>
        have hhead : list.head = some a := hfirst
        have hread := readData_eq (hxs.live a List.mem_cons_self)
        obtain ⟨list₁, hdel, hrep₁⟩ := del_represents hrep (list.heap.data a)
        have hturn : Returns (fun fuel => list.destroyTurn fuel) (.again list₁) := by
          simp only [SList.destroyTurn, hhead, hread, Option.bind_eq_bind, Option.bind_some]
          exact hdel.bind rfl
        have hlt : (ds.filter (· ≠ list.heap.data a)).length < n := by
          rw [← hn, ← hds, List.map_cons, List.filter_cons_of_neg (by simp), List.length_cons]
          exact Nat.lt_succ_of_le (List.length_filter_le _ _)
        obtain ⟨list', hexits, hnone⟩ := ih _ hlt hrep₁ rfl
        exact ⟨list', (Leads.single hturn).exits hexits, hnone⟩

theorem Reached.represents (h : Reached calls list) :
    Represents list.heap list.head (reference calls) := by
  induction h with
  | init heap => exact ⟨[], holds_nil heap, rfl⟩
  | add node _ hnode hadd ih =>
      obtain ⟨_, hadd', h'⟩ := add_represents ih _ hnode
      cases hadd'.symm.trans hadd
      exact h'
  | addTail node _ hnode hadd ih =>
      obtain ⟨_, hadd', h'⟩ := addTail_represents ih _ hnode
      exact hadd.unique hadd' ▸ h'
  | del _ hdel ih =>
      obtain ⟨_, hdel', h'⟩ := del_represents ih _
      exact hdel.unique hdel' ▸ h'
  | search _ _ ih => exact ih

theorem Reached.succeeds (h : Reached calls list) (call : Call D) : Succeeds list call := by
  have hrep := h.represents
  cases call with
  | add data =>
      intro node hnode
      obtain ⟨list', hadd, -⟩ := add_represents hrep data hnode
      exact ⟨list', hadd⟩
  | addTail data =>
      intro node hnode
      obtain ⟨list', hadd, -⟩ := addTail_represents hrep data hnode
      exact ⟨list', hadd⟩
  | del data =>
      obtain ⟨list', hdel, -⟩ := del_represents hrep data
      exact ⟨list', hdel⟩
  | search data =>
      obtain ⟨found, hsearch, -⟩ := search_represents hrep data
      exact ⟨found, hsearch⟩

end EmbeddedCode.SinglyLinked.Headless
