import EmbeddedCode.PayloadList.Model

/-!
# Forward and backward links

`add` and `add_tail` keep both directions of the list. `del` follows and mends the
forward links only: the structure behind the deleted node still refers back to it.
-/
namespace EmbeddedCode.PayloadList

open LinkedList Loop

variable {α D : Type} [DecidableEq α] {list list' : PList α D} {a : α} {us vs xs : List α} {d : D}

omit [DecidableEq α] in
@[simp] theorem valid_mk (par : α → D) (prev next : Ptr α → Ptr α) (p : Ptr α) :
    PList.valid ⟨list.live, par, prev, next⟩ p = list.valid p := by
  cases p <;> rfl

/-- The invariant of the forward links. -/
structure Forward (list : PList α D) (xs : List α) : Prop where
  distinct : (Ptr.head :: xs.map Ptr.node).Nodup
  forward : Listed Ptr.node Ptr.node list.next .head xs .head
  live : ∀ a ∈ xs, list.live a = true

/-- The list after `del` of the node behind `us`. -/
def PList.without (list : PList α D) (c : Ptr α) (us : List α) (a : α) : PList α D :=
  {list with
    live := Function.update list.live a false
    next := Function.update (Function.update list.next (lastCell Ptr.node c us)
      (list.next (.node a))) (.node a) (.node a)}

/-- The loop of `del` passes nodes other than the one to delete. -/
theorem run_pass {c : Ptr α} (hc : list.valid c = true)
    (h : Listed Ptr.node Ptr.node list.next c xs .head) (hlive : ∀ b ∈ xs, list.live b = true)
    (ha : a ∉ xs) : run (PList.delTurn a) (xs.length + 1) (list, c) = some list := by
  induction xs generalizing c with
  | nil =>
      have hnext : list.next c = .head := h
      apply run_leave
      simp [PList.delTurn, PList.readNext, hc, hnext]
  | cons b xs ih =>
      obtain ⟨hnext, hrest⟩ := listed_cons.mp h
      rw [List.forall_mem_cons] at hlive
      rw [List.mem_cons, not_or] at ha
      have hturn : PList.delTurn a (list, c) = some (.again (list, .node b)) := by
        simp [PList.delTurn, PList.readNext, hc, hnext, Ne.symm ha.1]
      rw [List.length_cons, run_again hturn]
      exact ih hlive.1 hrest hlive.2 ha.2

/-- Once the node is deleted, the loop of `del` goes on to the end of the list. -/
theorem run_delete {c : Ptr α} (hc : list.valid c = true)
    (h : Listed Ptr.node Ptr.node list.next c (us ++ a :: vs) .head)
    (hn : (c :: (us ++ a :: vs).map Ptr.node).Nodup)
    (hlive : ∀ b ∈ us ++ a :: vs, list.live b = true) :
    run (PList.delTurn a) (us.length + vs.length + 2) (list, c) = some (list.without c us a) := by
  induction us generalizing c with
  | nil =>
      have hnext : list.next c = .node a := (listed_cons.mp h).1
      have hne : c ≠ .node a := fun heq => (List.nodup_cons.mp hn).1 (by simp [heq])
      have hturn : PList.delTurn a (list, c) = some (if c = .head then
          .leave (list.without c [] a) else .again (list.without c [] a, c)) := by
        have ha : list.live a = true := hlive a (by simp)
        have hva : list.valid (.node a) = true := ha
        simp only [PList.delTurn, PList.readNext, PList.writeNext, hc, hva, hnext, valid_mk,
          PList.without, PList.free, lastCell, if_true, Option.bind_eq_bind, Option.bind_some]
        split_ifs <;> rfl
      rcases eq_or_ne c .head with rfl | hhead
      · exact run_leave hturn _
      · rw [if_neg hhead] at hturn
        rw [run_again hturn]
        have hfree := (List.nodup_cons.mp (List.nodup_cons.mp hn).2)
        have hpass : ∀ l ∈ c :: vs.map Ptr.node, l ≠ .node a := by
          rintro l hl rfl
          rcases List.mem_cons.mp hl with heq | hmem
          · exact hne heq.symm
          · exact hfree.1 hmem
        have havs : a ∉ vs := fun hmem => hfree.1 (List.mem_map_of_mem hmem)
        refine run_mono (run_pass ?_ ?_ ?_ havs) (by simp)
        · cases c with
          | head => rfl
          | node b =>
              have hb : b ≠ a := fun heq => hne (by rw [heq])
              exact (Function.update_of_ne hb _ _).trans hc
        · apply (Listed.erase h hn).congr
          exact fun l hl => Function.update_of_ne (hpass l hl) _ _
        · intro b hb
          have hb' : b ≠ a := ne_of_mem_of_not_mem hb havs
          exact (Function.update_of_ne hb' _ _).trans (hlive b (by simp [hb]))
  | cons b us ih =>
      obtain ⟨hnext, hrest⟩ := listed_cons.mp h
      have hlive' := List.forall_mem_cons.mp hlive
      have hn' := (List.nodup_cons.mp hn).2
      have hb : b ≠ a := by
        rintro rfl
        simp at hn'
      have hturn : PList.delTurn a (list, c) = some (.again (list, .node b)) := by
        simp [PList.delTurn, PList.readNext, hc, hnext, hb]
      have hfuel : (b :: us).length + vs.length + 2 = us.length + vs.length + 2 + 1 := by
        rw [List.length_cons]
        omega
      rw [hfuel, run_again hturn]
      exact ih hlive'.1 hrest hn' hlive'.2

theorem Forward.del (h : Forward list (us ++ a :: vs)) :
    Returns (fun fuel => list.del fuel a) (list.without .head us a) ∧
      Forward (list.without .head us a) (us ++ vs) := by
  refine ⟨run_returns (run_delete rfl h.forward h.distinct h.live), ?_, ?_, ?_⟩
  · refine h.distinct.sublist (List.Sublist.cons_cons _ (List.Sublist.map _ ?_))
    exact (List.Sublist.refl us).append (List.sublist_cons_self a vs)
  · apply (Listed.erase h.forward h.distinct).congr
    rintro l hl
    apply Function.update_of_ne
    rintro rfl
    have hmid := List.nodup_middle.mp (List.nodup_cons.mp h.distinct).2.of_map
    simp only [List.mem_cons, reduceCtorEq, false_or, List.mem_map, Ptr.node.injEq,
      exists_eq_right] at hl
    exact (List.nodup_cons.mp hmid).1 hl
  · intro b hb
    have hmid := List.nodup_middle.mp (List.nodup_cons.mp h.distinct).2.of_map
    have hne : b ≠ a := ne_of_mem_of_not_mem hb (List.nodup_cons.mp hmid).1
    refine (Function.update_of_ne hne _ _).trans (h.live b ?_)
    simp only [List.mem_append, List.mem_cons] at hb ⊢
    tauto

theorem Forward.isEmpty (h : Forward list xs) : list.isEmpty = some xs.isEmpty := by
  cases xs with
  | nil =>
      have hnext : list.next .head = .head := h.forward
      simp [PList.isEmpty, PList.readNext, PList.valid, hnext]
  | cons a xs =>
      have hnext : list.next .head = .node a := h.forward.1
      simp [PList.isEmpty, PList.readNext, PList.valid, hnext]

theorem Forward.listDestroy (h : Forward list xs) :
    ∃ list', Returns (fun fuel => list.listDestroy fuel) list' ∧ Forward list' [] := by
  suffices hexits : ∃ list', Exits PList.destroyTurn list list' ∧ Forward list' [] by
    obtain ⟨list', hlist', hforward⟩ := hexits
    exact ⟨list', hlist'.returns, hforward⟩
  induction xs generalizing list with
  | nil =>
      refine ⟨list, Exits.single ?_, h⟩
      simpa [PList.destroyTurn, h.isEmpty] using returns_const _
  | cons a xs ih =>
      have hsplit : Forward list ([] ++ a :: xs) := h
      obtain ⟨hdel, hforward⟩ := hsplit.del
      obtain ⟨list', hexits, hempty⟩ := ih hforward
      have hnext : list.next .head = .node a := h.forward.1
      refine ⟨list', (Leads.single ?_).exits hexits, hempty⟩
      simpa [PList.destroyTurn, h.isEmpty, PList.readNext, PList.valid, hnext] using
        hdel.bind (g := fun list => some (Turn.again list)) rfl

/-- The invariant of both directions. -/
structure Linked (list : PList α D) (es : List (α × D)) : Prop where
  ring : Ring Ptr.node list.next list.prev .head (es.map Prod.fst)
  live : ∀ a, list.live a = true ↔ a ∈ es.map Prod.fst
  par : ∀ e ∈ es, list.par e.1 = e.2

section
variable {es es' : List (α × D)} {p q : Ptr α}

omit [DecidableEq α] in
theorem map_node : (es.map Prod.fst).map Ptr.node = cells es := by
  simp [cells]

omit [DecidableEq α] in
theorem Linked.valid (h : Linked list es) (hp : p ∈ Ptr.head :: cells es) :
    list.valid p = true := by
  cases p with
  | head => rfl
  | node a => exact (h.live a).mpr (by simpa [cells] using hp)

omit [DecidableEq α] in
theorem Linked.next_mem (h : Linked list es) (hp : p ∈ Ptr.head :: cells es) :
    list.next p ∈ Ptr.head :: cells es := by
  rw [← map_node] at hp ⊢
  exact h.ring.next_mem hp

omit [DecidableEq α] in
theorem Linked.prev_mem (h : Linked list es) (hp : p ∈ Ptr.head :: cells es) :
    list.prev p ∈ Ptr.head :: cells es := by
  rw [← map_node] at hp ⊢
  exact h.ring.prev_mem hp

theorem Linked.wellFormed (h : Linked list es) : WellFormed list es where
  links p hp := by
    rw [← map_node] at hp
    exact ⟨h.ring.prev_next hp, h.ring.next_prev hp⟩
  valid p hp := ⟨h.valid hp, h.valid (h.next_mem hp), h.valid (h.prev_mem hp)⟩
  forward := by
    rw [← map_node]
    exact h.ring.walk
  par := h.par

theorem linkAdd_eq (ha : list.valid (.node a) = true) (hp : list.valid p = true)
    (hq : list.valid q = true) (hpa : p ≠ .node a) (hqa : q ≠ .node a) :
    list.linkAdd (.node a) p q = some {list with
      next := Function.update (Function.update list.next p (.node a)) (.node a) q
      prev := Function.update (Function.update list.prev q (.node a)) (.node a) p} := by
  simp only [PList.linkAdd, PList.writeNext, PList.writePrev, valid_mk, ha, hp, hq, if_true,
    Option.bind_eq_bind, Option.bind_some]
  rw [Function.update_comm hpa, Function.update_comm hqa]

/-- The list with the memory for a new node. -/
def PList.withNode (list : PList α D) (src : D) (pnode : α) : PList α D :=
  {list with
    live := Function.update list.live pnode true
    par := Function.update list.par pnode src}

theorem malloc_eq (ha : list.live a = false) : list.malloc d a = some (list.withNode d a) := by
  simp [PList.malloc, ha, PList.withNode]

/-- A new node between two structures of the list. -/
theorem Linked.insert (h : Linked list es) (ha : a ∉ es.map Prod.fst)
    (hp : p ∈ Ptr.head :: cells es) (hq : q ∈ Ptr.head :: cells es)
    (hmem : ∀ e, e ∈ es' ↔ e = (a, d) ∨ e ∈ es)
    (hring : Ring Ptr.node (Function.update (Function.update list.next p (.node a)) (.node a) q)
      (Function.update (Function.update list.prev q (.node a)) (.node a) p) .head
      (es'.map Prod.fst)) :
    ∃ list', (list.withNode d a).linkAdd (.node a) p q = some list' ∧ Linked list' es' := by
  have hne : ∀ r ∈ Ptr.head :: cells es, r ≠ .node a := by
    rintro r hr rfl
    exact ha (by simpa [cells] using hr)
  have hself : (list.withNode d a).valid (.node a) = true := Function.update_self ..
  have hvalid : ∀ r ∈ Ptr.head :: cells es, (list.withNode d a).valid r = true := by
    intro r hr
    cases r with
    | head => rfl
    | node b =>
        have hb : b ≠ a := fun heq => hne _ hr (by rw [heq])
        exact (Function.update_of_ne hb _ _).trans (h.valid hr)
  have hlink := linkAdd_eq hself (hvalid p hp) (hvalid q hq) (hne p hp) (hne q hq)
  refine ⟨_, hlink, ⟨hring, fun b => ?_, fun e he => ?_⟩⟩
  · have hlb := h.live b
    rcases eq_or_ne b a with rfl | hb
    · simp [PList.withNode, hmem]
    · simp only [List.mem_map] at hlb
      simp [PList.withNode, hb, Ne.symm hb, hlb, hmem, Prod.exists]
  · rcases (hmem e).mp he with rfl | he
    · exact Function.update_self ..
    · have hea : e.1 ≠ a := fun heq => ha (heq ▸ List.mem_map_of_mem he)
      exact (Function.update_of_ne hea _ _).trans (h.par e he)

omit [DecidableEq α] in
theorem Linked.free_of_not_mem (h : Linked list es) (ha : a ∉ es.map Prod.fst) :
    list.live a = false := by
  rw [← Bool.not_eq_true, h.live]
  exact ha

theorem Linked.add (h : Linked list es) (ha : a ∉ es.map Prod.fst) :
    ∃ list', list.add d a = some list' ∧ Linked list' ((a, d) :: es) := by
  have hout : Ptr.node a ∉ Ptr.head :: (es.map Prod.fst).map Ptr.node := by simpa using ha
  have hmem : ∀ e, e ∈ (a, d) :: es ↔ e = (a, d) ∨ e ∈ es := fun _ => List.mem_cons
  obtain ⟨list', hlist', hlinked⟩ := h.insert ha List.mem_cons_self
    (h.next_mem List.mem_cons_self) hmem (h.ring.insert hout)
  refine ⟨list', ?_, hlinked⟩
  have hread : (list.withNode d a).readNext .head = some (list.next .head) := rfl
  simp [PList.add, malloc_eq (h.free_of_not_mem ha), hread, hlist']

theorem Linked.addTail (h : Linked list es) (ha : a ∉ es.map Prod.fst) :
    ∃ list', list.addTail d a = some list' ∧ Linked list' (es ++ [(a, d)]) := by
  have hout : Ptr.node a ∉ Ptr.head :: (es.map Prod.fst).map Ptr.node := by simpa using ha
  have hring := h.ring.insertTail hout
  have hmem : ∀ e, e ∈ es ++ [(a, d)] ↔ e = (a, d) ∨ e ∈ es := fun e => by simp [or_comm]
  obtain ⟨list', hlist', hlinked⟩ := h.insert ha (h.prev_mem List.mem_cons_self)
    List.mem_cons_self hmem (by simpa using hring)
  refine ⟨list', ?_, hlinked⟩
  have hread : (list.withNode d a).readPrev .head = some (list.prev .head) := rfl
  simp [PList.addTail, malloc_eq (h.free_of_not_mem ha), hread, hlist']

theorem Linked.del (h : Linked list es) (ha : a ∈ es.map Prod.fst) :
    ∃ list', Returns (fun fuel => list.del fuel a) list' ∧
      ¬ WellFormed list' (es.filter fun e => e.1 ≠ a) := by
  obtain ⟨us, vs, hsplit⟩ := List.append_of_mem ha
  have hring := h.ring
  rw [hsplit] at hring
  have hforward : Forward list (us ++ a :: vs) :=
    ⟨hring.distinct, hring.forward, fun b hb => (h.live b).mpr (hsplit ▸ hb)⟩
  refine ⟨_, hforward.del.1, fun hwf => ?_⟩
  have hcell : Ptr.node a ∈ Ptr.head :: cells es := by
    rw [← map_node]
    exact List.mem_cons_of_mem _ (List.mem_map_of_mem ha)
  have hback : list.prev (list.next (.node a)) = .node a := by
    rw [← map_node] at hcell
    exact h.ring.prev_next hcell
  have hne : list.next (.node a) ≠ .node a := fun heq => by
    rw [heq] at hback
    exact hring.prev_ne hback.symm
  have hmem : list.next (.node a) ∈ Ptr.head :: cells (es.filter fun e => e.1 ≠ a) := by
    have hnext := h.next_mem hcell
    cases hc : list.next (.node a) with
    | head => exact List.mem_cons_self
    | node b =>
        rw [hc] at hnext hne
        have hb : b ≠ a := fun heq => hne (by rw [heq])
        simpa [cells, hb] using hnext
  have hvalid := (hwf.valid _ hmem).2.2
  -- `del` does not write to the backward links.
  have hprev : (list.without .head us a).prev (list.next (.node a)) = .node a := hback
  rw [hprev] at hvalid
  exact absurd hvalid (by simp [PList.valid, PList.without])

/-- After `del` of the last node, `add_tail` writes to the freed node, unless `malloc` has
returned its address again. -/
theorem Linked.addTail_del_last (h : Linked list (es ++ [(a, d)])) :
    ∃ list', Returns (fun fuel => list.del fuel a) list' ∧
      ∀ src pnode, pnode ≠ a → list'.addTail src pnode = none := by
  have hring := h.ring
  rw [List.map_append, List.map_singleton] at hring
  have hforward : Forward list (es.map Prod.fst ++ [a]) :=
    ⟨hring.distinct, hring.forward, fun b hb => (h.live b).mpr (by simpa using hb)⟩
  refine ⟨_, hforward.del.1, fun src pnode hne => ?_⟩
  have hback : list.prev .head = .node a := by
    rw [hring.backward.start, List.reverse_reverse, lastCell_concat]
  have hprev : (list.without .head (es.map Prod.fst) a).prev .head = .node a := hback
  generalize hlist' : list.without .head (es.map Prod.fst) a = list' at hprev
  have hlive : list'.live a = false := by
    rw [← hlist']
    exact Function.update_self ..
  rcases Bool.eq_false_or_eq_true (list'.live pnode) with hused | hfresh
  · simp [PList.addTail, PList.malloc, hused]
  · have hread : (list'.withNode src pnode).readPrev .head = some (.node a) := by
      rw [← hprev]
      rfl
    have hdead : (list'.withNode src pnode).live a = false :=
      (Function.update_of_ne hne.symm _ _).trans hlive
    have hself : (list'.withNode src pnode).live pnode = true := Function.update_self ..
    simp [PList.addTail, malloc_eq hfresh, hread, PList.linkAdd, PList.writeNext, PList.writePrev,
      PList.valid, hself, hdead]

end

section
variable {start : PList α D} {ops : List (Op α D)}

theorem Reached.unique (h : Reached start ops list) (h' : Reached start ops list') :
    list = list' := by
  induction h generalizing list' with
  | init =>
      cases h'
      rfl
  | next _ hexec ih =>
      cases h' with
      | next hreached hexec' =>
          cases ih hreached
          exact hexec.unique hexec'

variable (par : α → D) (prev next : Ptr α → Ptr α)

/-- Without `del` every call succeeds and keeps both directions. -/
theorem reached_linked (hv : Valid ops) (hdel : ∀ node, Op.del node ∉ ops) :
    ∃ list, Reached (PList.listInit par prev next) ops list ∧ Linked list (reference ops) := by
  induction ops with
  | nil =>
      refine ⟨_, .init, ring_nil ?_ ?_, ?_, nofun⟩
      · exact Function.update_self Ptr.head Ptr.head next
      · exact Function.update_self Ptr.head Ptr.head prev
      · simp [PList.listInit, reference]
  | cons op ops ih =>
      have hrest : ∀ node, Op.del node ∉ ops := fun node hmem =>
        hdel node (List.mem_cons_of_mem _ hmem)
      cases op with
      | add src pnode =>
          obtain ⟨list, hreached, hlinked⟩ := ih hv.2 hrest
          obtain ⟨list', hadd, hlinked'⟩ := hlinked.add (d := src) hv.1
          refine ⟨list', hreached.next ?_, hlinked'⟩
          simpa only [PList.exec, hadd] using returns_const _
      | addTail src pnode =>
          obtain ⟨list, hreached, hlinked⟩ := ih hv.2 hrest
          obtain ⟨list', hadd, hlinked'⟩ := hlinked.addTail (d := src) hv.1
          refine ⟨list', hreached.next ?_, hlinked'⟩
          simpa only [PList.exec, hadd] using returns_const _
      | del node => exact absurd List.mem_cons_self (hdel node)

/-- No call of `del` leaves a list in order that was in order before. -/
theorem not_wellFormed_del {node : α} (hv : Valid (.del node :: ops))
    (hdel : ∀ node, Op.del node ∉ ops)
    (h : Reached (PList.listInit par prev next) (.del node :: ops) list) :
    ¬ WellFormed list (reference (.del node :: ops)) := by
  obtain ⟨list₁, hreached₁, hlinked⟩ := reached_linked par prev next hv.2 hdel
  obtain ⟨list₂, hreturns, hnot⟩ := hlinked.del hv.1
  cases h with
  | next hreached hexec =>
      cases hreached.unique hreached₁
      cases hexec.unique hreturns
      exact hnot

/-- Every state of a run is well formed exactly if nothing is deleted in the run. -/
theorem wellFormed_iff (hv : Valid ops) :
    (∀ ops', ops' <:+ ops → ∃ list, Reached (PList.listInit par prev next) ops' list ∧
      WellFormed list (reference ops')) ↔ ∀ node, Op.del node ∉ ops := by
  constructor
  · intro hall
    induction ops with
    | nil => simp
    | cons op ops ih =>
        have hv' : Valid ops := by
          cases op <;> exact hv.2
        have hrest := ih hv' fun ops' hsuffix => hall ops' (hsuffix.trans (List.suffix_cons op ops))
        obtain ⟨list, hreached, hwf⟩ := hall (op :: ops) (List.suffix_refl _)
        rintro node (_ | ⟨_, hmem⟩)
        · exact not_wellFormed_del par prev next hv hrest hreached hwf
        · exact hrest node hmem
  · intro hdel ops' hsuffix
    have hv' : Valid ops' := by
      clear hdel
      induction ops with
      | nil => rwa [List.suffix_nil.mp hsuffix]
      | cons op ops ih =>
          rcases List.suffix_cons_iff.mp hsuffix with rfl | hsuffix
          · exact hv
          · exact ih (by cases op <;> exact hv.2) hsuffix
    obtain ⟨list, hreached, hlinked⟩ :=
      reached_linked par prev next hv' fun node hmem => hdel node (hsuffix.mem hmem)
    exact ⟨list, hreached, hlinked.wellFormed⟩

end

theorem wellFormed_iff_two : Valid [Op.add 7 1, .addTail 5 0] ∧
    ∀ ops', ops' <:+ [Op.add 7 1, .addTail 5 0] →
      ∃ list, Reached (PList.listInit (fun _ => 0) id id) ops' list ∧
        WellFormed list (reference ops') := by
  have hv : Valid [Op.add 7 1, .addTail 5 0] := ⟨by decide, by decide, trivial⟩
  exact ⟨hv, (wellFormed_iff (fun _ => 0) id id hv).mpr (by simp)⟩

/-- One node is added and deleted. -/
theorem not_wellFormed : ¬ ∀ ops : List (Op ℕ ℕ), Valid ops →
    ∃ list, Reached (PList.listInit (fun _ => 0) id id) ops list ∧
      WellFormed list (reference ops) := by
  intro hall
  have hv : Valid [Op.del 0, .addTail 5 0] := ⟨by decide, by decide, trivial⟩
  obtain ⟨list, hreached, hwf⟩ := hall _ hv
  exact not_wellFormed_del (fun _ => 0) id id hv (by simp) hreached hwf

end EmbeddedCode.PayloadList
