import EmbeddedCode.Hlist.Model

/-!
# The lists as chains

The invariant of the lists with `pprev`: every head has a chain of allocated nodes that
ends with NULL, each node knows the cell that refers to it, and no node is in two chains.
Each function changes one chain.
-/
namespace EmbeddedCode.Hlist

open LinkedList Loop

variable {H α : Type} {m m' : Memory H α} {lists : Lists H α} {head : H} {node base : α}
  {us vs xs : List α} {c : Cell H α}

@[simp] theorem valid_mk (cell : Cell H α → Option α) (pprev : α → Option (Cell H α)) :
    Memory.valid ⟨m.liveHead, m.liveNode, cell, pprev⟩ c = m.valid c := by
  cases c <;> rfl

def cells (head : H) (xs : List α) : List (Cell H α) := .first head :: xs.map .next

theorem first_mem : Cell.first head ∈ cells head xs := List.mem_cons_self

theorem next_mem : Cell.next node ∈ cells head xs ↔ node ∈ xs := by simp [cells]

theorem lastCell_cells (head : H) (us vs : List α) :
    lastCell Cell.next (.first head) us ∈ cells head (us ++ vs) := by
  rw [cells, List.map_append]
  exact List.mem_append_left _ (lastCell_mem Cell.next (.first head) us)

structure Chains (m : Memory H α) (lists : Lists H α) : Prop where
  list : ∀ {head xs}, lists head = some xs → OwnedList Cell.next m.cell m.pprev (.first head) xs
  valid : ∀ {head xs}, lists head = some xs → ∀ c ∈ cells head xs, m.valid c = true
  apart : Apart cells lists

/-- The lists of the other heads keep their cells, and their nodes keep `pprev`. -/
def Frame (m m' : Memory H α) (lists : Lists H α) (head : H) : Prop :=
  ∀ head' xs, head' ≠ head → lists head' = some xs →
    (∀ c ∈ cells head' xs, m'.cell c = m.cell c) ∧ ∀ a ∈ xs, m'.pprev a = m.pprev a

/-- No other list than that of the head has one of the nodes. -/
def Exclusive (lists : Lists H α) (head : H) (zs : List α) : Prop :=
  ∀ head' ys, head' ≠ head → lists head' = some ys → ∀ a ∈ zs, a ∉ ys

theorem Exclusive.cells {zs : List α} (h : Exclusive lists head zs) {head' : H} {ys : List α}
    (hne : head' ≠ head) (hy : lists head' = some ys) (hc : c ∈ cells head' ys) :
    c ∉ cells head zs := by
  cases c with
  | first head'' => simp_all [Hlist.cells]
  | next a => exact fun hmem => h head' ys hne hy a (next_mem.mp hmem) (next_mem.mp hc)

namespace Chains

theorem exclusive (h : Chains m lists) (hx : lists head = some xs) : Exclusive lists head xs := by
  intro head' ys hne hy a ha hmem
  exact hne (h.apart hy hx _ (next_mem.mpr hmem) (next_mem.mpr ha))

theorem exclusive_insert (h : Chains m lists) (hx : lists head = some (us ++ vs))
    (hout : ¬ lists.Linked node) : Exclusive lists head (us ++ node :: vs) := by
  intro head' ys hne hy a ha hmem
  rw [List.mem_append, List.mem_cons] at ha
  rcases ha with ha | rfl | ha
  · exact h.exclusive hx head' ys hne hy a (List.mem_append_left _ ha) hmem
  · exact hout ⟨head', ys, hy, hmem⟩
  · exact h.exclusive hx head' ys hne hy a (List.mem_append_right _ ha) hmem

theorem linked_live (h : Chains m lists) (ha : lists.Linked node) : m.liveNode node = true := by
  obtain ⟨head, xs, hx, hmem⟩ := ha
  exact h.valid hx (.next node) (next_mem.mpr hmem)

theorem mem_of_cell (h : Chains m lists) (hx : lists head = some xs) (hc : c ∈ cells head xs)
    {a : α} (ha : m.cell c = some a) : a ∈ xs := (h.list hx).forward.mem_of_some hc ha

end Chains

/-- What every function does to the lists: `m'` is the memory after it. -/
structure Does [DecidableEq H] (m m' : Memory H α) (lists : Lists H α) (head : H) (xs : List α) :
    Prop where
  chains : Chains m' (Function.update lists head (some xs))
  liveHead : m'.liveHead = m.liveHead
  liveNode : m'.liveNode = m.liveNode
  frame : Frame m m' lists head

section
variable [DecidableEq H]

/-- One list changes, and the cells outside it and outside the nodes `zs` stay. -/
theorem Chains.change (h : Chains m lists) {zs : List α} (hzs : Exclusive lists head zs)
    (hsub : ∀ a ∈ xs, a ∈ zs) (hlist : OwnedList Cell.next m'.cell m'.pprev (.first head) xs)
    (hhead : m'.liveHead = m.liveHead) (hnode : m'.liveNode = m.liveNode)
    (hvalid : ∀ c ∈ cells head xs, m.valid c = true)
    (hcell : ∀ c ∉ cells head zs, m'.cell c = m.cell c)
    (hpprev : ∀ a ∉ zs, m'.pprev a = m.pprev a) : Does m m' lists head xs := by
  have hframe : Frame m m' lists head := fun head' ys hne hy =>
    ⟨fun c hc => hcell c (hzs.cells hne hy hc),
      fun a ha => hpprev a fun hmem => hzs head' ys hne hy a hmem ha⟩
  have hsame : ∀ c, m'.valid c = m.valid c := by
    intro c
    cases c with
    | first head' => exact congrFun hhead head'
    | next a => exact congrFun hnode a
  have hxs : Exclusive lists head xs := fun head' ys hne hy a ha =>
    hzs head' ys hne hy a (hsub a ha)
  refine ⟨⟨fun {head' ys} hy => ?_, fun {head' ys} hy c hc => ?_,
    h.apart.update fun head' ys hne hy c hc => hxs.cells hne hy hc⟩, hhead, hnode, hframe⟩
  · rcases eq_or_ne head' head with rfl | hne
    · rw [Function.update_self] at hy
      cases hy
      exact hlist
    · rw [Function.update_of_ne hne] at hy
      obtain ⟨hcells, hpprevs⟩ := hframe head' ys hne hy
      exact (h.list hy).congr hcells hpprevs
  · rw [hsame]
    rcases eq_or_ne head' head with rfl | hne
    · rw [Function.update_self] at hy
      cases hy
      exact hvalid c hc
    · rw [Function.update_of_ne hne] at hy
      exact h.valid hy c hc

variable [DecidableEq α]

theorem listAdd_eq (hhead : m.valid (.first head) = true) (hnode : m.liveNode node = true)
    (hfirst : ∀ a, m.cell (.first head) = some a → m.liveNode a = true) :
    m.listAdd head node = some {m with
      cell := Function.update (Function.update m.cell (.next node) (m.cell (.first head)))
        (.first head) (some node)
      pprev := setOwner (Function.update m.pprev node (some (.first head)))
        (m.cell (.first head)) (some (.next node))} := by
  have hvalid : m.valid (.next node) = true := hnode
  cases hc : m.cell (.first head) with
  | none =>
      simp [Memory.listAdd, Memory.readCell, Memory.writeCell, Memory.writePprev, hvalid, hhead,
        hnode, hc, setOwner]
  | some a =>
      simp [Memory.listAdd, Memory.readCell, Memory.writeCell, Memory.writePprev, hvalid, hhead,
        hnode, hc, setOwner, hfirst a hc]

theorem listAddBefore_eq (hnode : m.liveNode node = true) (hbase : m.liveNode base = true)
    (hc : m.valid c = true) (hpprev : m.pprev base = some c) :
    m.listAddBefore node base = some {m with
      cell := Function.update (Function.update m.cell (.next node) (some base)) c (some node)
      pprev := Function.update (Function.update m.pprev node (some c)) base
        (some (.next node))} := by
  have hvalid : m.valid (.next node) = true := hnode
  simp [Memory.listAddBefore, Memory.readPprev, Memory.writeCell, Memory.writePprev, hvalid, hnode,
    hbase, hc, hpprev]

theorem listDel_eq (hnode : m.liveNode node = true) (hc : m.valid c = true)
    (hpprev : m.pprev node = some c) (hne : c ≠ .next node)
    (hnext : ∀ a, m.cell (.next node) = some a → m.liveNode a = true) :
    m.listDel node = some {m with
      cell := Function.update (Function.update m.cell c (m.cell (.next node))) (.next node) none
      pprev := Function.update (setOwner m.pprev (m.cell (.next node)) (some c)) node none} := by
  have hvalid : m.valid (.next node) = true := hnode
  cases hcell : m.cell (.next node) with
  | none =>
      simp [Memory.listDel, Memory.initHlistNode, Memory.readCell, Memory.writeCell,
        Memory.readPprev, Memory.writePprev, hvalid, hnode, hc, hpprev, hcell, hne.symm, setOwner]
  | some a =>
      simp [Memory.listDel, Memory.initHlistNode, Memory.readCell, Memory.writeCell,
        Memory.readPprev, Memory.writePprev, hvalid, hnode, hc, hpprev, hcell, hne.symm, setOwner,
        hnext a hcell]

namespace Chains

theorem initHlistHead (h : Chains m lists) (hlive : m.liveHead head = true) :
    ∃ m', m.initHlistHead head = some m' ∧ Does m m' lists head [] := by
  have hvalid : m.valid (.first head) = true := hlive
  have hempty : Exclusive lists head [] := fun _ _ _ _ _ ha => nomatch ha
  refine ⟨_, if_pos hvalid, h.change hempty (fun _ => id)
    ⟨List.nodup_singleton _, Function.update_self .., trivial⟩ rfl rfl ?_ ?_ fun _ _ => rfl⟩
  · simpa [cells] using hvalid
  · exact fun c hc => Function.update_of_ne (ne_of_mem_of_not_mem first_mem hc).symm _ _

/-- A node is put behind the nodes `us`, with the writes that its new place asks for. -/
theorem insertAt (h : Chains m lists) (hx : lists head = some (us ++ vs))
    (hnode : m.liveNode node = true) (hout : ¬ lists.Linked node)
    (hc : lastCell .next (.first head) us = c) :
    Does m {m with
        cell := Function.update (Function.update m.cell (.next node) (m.cell c)) c (some node)
        pprev := setOwner (Function.update m.pprev node (some c)) (m.cell c)
          (some (.next node))} lists head (us ++ node :: vs) := by
  subst hc
  have hmem : node ∉ us ++ vs := fun hmem => hout ⟨head, _, hx, hmem⟩
  have hlast : lastCell Cell.next (.first head) us ∈ cells head (us ++ vs) :=
    lastCell_cells head us vs
  have hsub : ∀ c ∈ cells head (us ++ vs), c ∈ cells head (us ++ node :: vs) := by
    intro c hc
    simp only [cells, List.map_append, List.map_cons, List.mem_cons, List.mem_append] at hc ⊢
    tauto
  apply h.change (h.exclusive_insert hx hout) (fun _ => id)
  · exact (h.list hx).insertAt us vs fun hc => hmem (next_mem.mp hc)
  · rfl
  · rfl
  · intro c hc
    by_cases hself : c = .next node
    · rw [hself]
      exact hnode
    · apply h.valid hx c
      simp only [cells, List.map_append, List.map_cons, List.mem_cons, List.mem_append] at hc ⊢
      tauto
  · intro c hc
    have hne : c ≠ .next node := by
      rintro rfl
      exact hc (next_mem.mpr (by simp))
    have hne' := (ne_of_mem_of_not_mem (hsub _ hlast) hc).symm
    exact (Function.update_of_ne hne' _ _).trans (Function.update_of_ne hne _ _)
  · intro a ha
    have hne : a ≠ node := by
      rintro rfl
      exact ha (by simp)
    refine (setOwner_of_ne (fun hcell => ?_) _).trans (Function.update_of_ne hne _ _)
    exact ha (next_mem.mp (hsub _ (next_mem.mpr (h.mem_of_cell hx hlast hcell))))

theorem listAdd (h : Chains m lists) (hx : lists head = some xs) (hnode : m.liveNode node = true)
    (hout : ¬ lists.Linked node) :
    ∃ m', m.listAdd head node = some m' ∧ Does m m' lists head (node :: xs) := by
  have hfirst : ∀ a, m.cell (.first head) = some a → m.liveNode a = true := fun a ha =>
    h.valid hx (.next a) (next_mem.mpr (h.mem_of_cell hx first_mem ha))
  have hempty : lists head = some ([] ++ xs) := hx
  exact ⟨_, listAdd_eq (h.valid hx _ first_mem) hnode hfirst, h.insertAt hempty hnode hout rfl⟩

theorem listAddBefore (h : Chains m lists) (hx : lists head = some (us ++ base :: vs))
    (hnode : m.liveNode node = true) (hout : ¬ lists.Linked node) :
    ∃ m', m.listAddBefore node base = some m' ∧
      Does m m' lists head (us ++ node :: base :: vs) := by
  have hlist := h.list hx
  have hbase : m.liveNode base = true := h.linked_live ⟨head, _, hx, by simp⟩
  have hvalid := h.valid hx _ (lastCell_cells head us (base :: vs))
  have hcell : m.cell (lastCell .next (.first head) us) = some base :=
    (listed_cons.mp hlist.forward.append).1
  have hdoes := h.insertAt hx hnode hout rfl
  rw [hcell] at hdoes
  exact ⟨_, listAddBefore_eq hnode hbase hvalid hlist.owner_eq, hdoes⟩

theorem listDel (h : Chains m lists) (hx : lists head = some (us ++ node :: vs)) :
    ∃ m', m.listDel node = some m' ∧ Does m m' lists head (us ++ vs) ∧
      m'.cell (.next node) = none ∧ m'.pprev node = none := by
  have hlist := h.list hx
  have hmem : node ∈ us ++ node :: vs := by simp
  have hlast := lastCell_cells head us (node :: vs)
  have hnodup : (us ++ node :: vs).Nodup := (List.nodup_cons.mp hlist.distinct).2.of_map
  have hgone : node ∉ us ++ vs := (List.nodup_cons.mp (List.nodup_middle.mp hnodup)).1
  have hsub : ∀ a ∈ us ++ vs, a ∈ us ++ node :: vs := by
    intro a ha
    simp only [List.mem_append, List.mem_cons] at ha ⊢
    tauto
  have hnext : ∀ a, m.cell (.next node) = some a → a ∈ us ++ node :: vs := fun a ha =>
    h.mem_of_cell hx (next_mem.mpr hmem) ha
  refine ⟨_, listDel_eq (h.linked_live ⟨head, _, hx, hmem⟩) (h.valid hx _ hlast) hlist.owner_eq
    (lastCell_ne_node hlist.distinct) fun a ha => h.linked_live ⟨head, _, hx, hnext a ha⟩, ?_,
    Function.update_self .., Function.update_self ..⟩
  apply h.change (h.exclusive hx) hsub
  · -- The node itself is no longer part of the chain.
    apply hlist.erase.congr
    · intro c hc
      exact Function.update_of_ne (ne_of_mem_of_not_mem hc (by simpa using hgone)) _ _
    · exact fun a ha => Function.update_of_ne (ne_of_mem_of_not_mem ha hgone) _ _
  · rfl
  · rfl
  · intro c hc
    apply h.valid hx
    simp only [cells, List.map_append, List.map_cons, List.mem_cons, List.mem_append] at hc ⊢
    tauto
  · intro c hc
    have hne := (ne_of_mem_of_not_mem (next_mem.mpr hmem) hc).symm
    have hne' := (ne_of_mem_of_not_mem hlast hc).symm
    exact (Function.update_of_ne hne _ _).trans (Function.update_of_ne hne' _ _)
  · intro a ha
    refine (Function.update_of_ne (ne_of_mem_of_not_mem hmem ha).symm _ _).trans
      (setOwner_of_ne (fun hcell => ?_) _)
    exact ha (hnext a hcell)

end Chains

omit [DecidableEq H] in
theorem insertBefore_split (hus : base ∉ us) :
    insertBefore node base (us ++ base :: vs) = us ++ node :: base :: vs := by
  induction us with
  | nil => exact if_pos rfl
  | cons a us ih =>
      rw [List.mem_cons, not_or] at hus
      simp [insertBefore, Ne.symm hus.1, ih hus.2]

omit [DecidableEq H] in
theorem insertBefore_of_notMem (h : base ∉ xs) : insertBefore node base xs = xs := by
  induction xs with
  | nil => rfl
  | cons a xs ih =>
      rw [List.mem_cons, not_or] at h
      simp [insertBefore, Ne.symm h.1, ih h.2]

/-- What a call is meant to do to the list of one head. -/
inductive Changes : Op H α → H → Option (List α) → List α → Prop
  | init (head : H) : Changes (.init head) head none []
  | listAdd (head : H) (node : α) (xs : List α) :
      Changes (.listAdd head node) head (some xs) (node :: xs)
  | listAddBefore (head : H) (node base : α) (us vs : List α) :
      Changes (.listAddBefore node base) head (some (us ++ base :: vs)) (us ++ node :: base :: vs)
  | listDel (head : H) (node : α) (us vs : List α) :
      Changes (.listDel node) head (some (us ++ node :: vs)) (us ++ vs)

omit [DecidableEq α] in
/-- Where only one list has the node, to change all lists is to change that one. -/
theorem Chains.map_eq (h : Chains m lists) (hx : lists head = some xs) (hnode : node ∈ xs)
    {f : List α → List α} (hf : ∀ ys, node ∉ ys → f ys = ys) :
    (fun head => (lists head).map f) = Function.update lists head (some (f xs)) := by
  funext head'
  rcases eq_or_ne head' head with rfl | hne
  · rw [Function.update_self, hx, Option.map_some]
  · rw [Function.update_of_ne hne]
    cases hy : lists head' with
    | none => rfl
    | some ys => rw [Option.map_some, hf ys (h.exclusive hx head' ys hne hy node hnode)]

/-- A call that is allowed succeeds, and changes the list of one head as it is meant to. -/
theorem Chains.exec (h : Chains m lists) {op : Op H α} (ha : lists.Allows m op) :
    ∃ m' head xs, m.exec op = some m' ∧ Changes op head (lists head) xs ∧
      lists.apply op = Function.update lists head (some xs) ∧ Does m m' lists head xs := by
  cases op with
  | init head =>
      obtain ⟨hlive, hnone⟩ := ha
      obtain ⟨m', hm', hdoes⟩ := h.initHlistHead hlive
      refine ⟨m', head, [], hm', ?_, rfl, hdoes⟩
      rw [hnone]
      exact .init head
  | listAdd head node =>
      obtain ⟨hsome, hnode, hout⟩ := ha
      obtain ⟨xs, hx⟩ := Option.ne_none_iff_exists'.mp hsome
      obtain ⟨m', hm', hdoes⟩ := h.listAdd hx hnode hout
      refine ⟨m', head, node :: xs, hm', ?_, ?_, hdoes⟩
      · rw [hx]
        exact .listAdd head node xs
      · simp [Lists.apply, hx]
  | listAddBefore node base =>
      obtain ⟨hnode, hout, head, xs, hx, hbase⟩ := ha
      obtain ⟨us, vs, rfl, hus⟩ := List.eq_append_cons_of_mem hbase
      obtain ⟨m', hm', hdoes⟩ := h.listAddBefore hx hnode hout
      refine ⟨m', head, us ++ node :: base :: vs, hm', ?_, ?_, hdoes⟩
      · rw [hx]
        exact .listAddBefore head node base us vs
      · rw [← insertBefore_split hus]
        exact h.map_eq hx hbase fun _ => insertBefore_of_notMem
  | listDel node =>
      obtain ⟨head, xs, hx, hnode⟩ := ha
      obtain ⟨us, vs, rfl, hus⟩ := List.eq_append_cons_of_mem hnode
      obtain ⟨m', hm', hdoes, -⟩ := h.listDel hx
      refine ⟨m', head, us ++ vs, hm', ?_, ?_, hdoes⟩
      · rw [hx]
        exact .listDel head node us vs
      · have herase : (us ++ node :: vs).erase node = us ++ vs := by
          rw [List.erase_append_right _ hus, List.erase_cons_head]
        rw [← herase]
        exact h.map_eq hx hnode fun _ => List.erase_of_not_mem

theorem Reached.chains {ops : List (Op H α)} (h : Reached ops m) : Chains m (reference ops) := by
  induction h with
  | start m => exact ⟨nofun, nofun, nofun⟩
  | next _ ha hexec ih =>
      obtain ⟨_, head, xs, hm', -, happly, hdoes⟩ := ih.exec ha
      cases hm'.symm.trans hexec
      rw [reference, happly]
      exact hdoes.chains

omit [DecidableEq H] [DecidableEq α] in
theorem hlistForEach_returns (h : Listed some Cell.next m.cell c xs none)
    (hvalid : ∀ a ∈ xs, m.valid (.next a) = true) :
    Returns (fun fuel => m.hlistForEach fuel (m.cell c)) xs := by
  refine ⟨xs.length + 1, fun fuel hf => ?_⟩
  induction xs generalizing c fuel with
  | nil =>
      obtain ⟨fuel, rfl⟩ : ∃ n, fuel = n + 1 := ⟨fuel - 1, by omega⟩
      have hc : m.cell c = none := h
      simp only [hc, Memory.hlistForEach]
  | cons a xs ih =>
      obtain ⟨fuel, rfl⟩ : ∃ n, fuel = n + 1 := ⟨fuel - 1, by omega⟩
      obtain ⟨hc, hrest⟩ := listed_cons.mp h
      rw [List.forall_mem_cons] at hvalid
      rw [List.length_cons] at hf
      have hread : m.readCell (.next a) = some (m.cell (.next a)) := if_pos hvalid.1
      have hnodes := ih hrest hvalid.2 fuel (by omega)
      simp only [hc, Memory.hlistForEach, hread, Option.bind_eq_bind, Option.bind_some] at hnodes ⊢
      rw [hnodes, Option.bind_some]

/-- Each list is walked to its end, no node is met twice, and every node knows the one cell that
refers to it. -/
structure WellFormed (m : Memory H α) (lists : Lists H α) : Prop where
  walk : ∀ head xs, lists head = some xs → ∃ first, m.readCell (.first head) = some first ∧
    Returns (fun fuel => m.hlistForEach fuel first) xs
  nodup : ∀ head xs, lists head = some xs → xs.Nodup
  disjoint : ∀ head head' xs xs', head ≠ head' → lists head = some xs →
    lists head' = some xs' → xs.Disjoint xs'
  pprev : ∀ node, lists.Linked node → ∃ c, m.pprev node = some c ∧ m.cell c = some node
  first : ∀ head node xs, lists head = some (node :: xs) → m.pprev node = some (.first head)
  later : ∀ head us a node vs, lists head = some (us ++ a :: node :: vs) →
    m.pprev node = some (.next a)

omit [DecidableEq H] [DecidableEq α] in
theorem Chains.wellFormed (h : Chains m lists) : WellFormed m lists where
  walk head xs hx := by
    refine ⟨m.cell (.first head), if_pos (h.valid hx _ first_mem), ?_⟩
    exact hlistForEach_returns (h.list hx).forward fun a ha => h.valid hx _ (next_mem.mpr ha)
  nodup _ _ hx := (List.nodup_cons.mp (h.list hx).distinct).2.of_map
  disjoint _ _ _ _ hne hx hx' _ ha ha' :=
    hne (h.apart hx hx' _ (next_mem.mpr ha) (next_mem.mpr ha'))
  pprev node := by
    rintro ⟨head, xs, hx, hmem⟩
    obtain ⟨us, vs, rfl⟩ := List.append_of_mem hmem
    exact ⟨_, (h.list hx).owner_eq, (listed_cons.mp (h.list hx).forward.append).1⟩
  first _ _ _ hx := (h.list hx).backward.1
  later head us a node vs hx := by
    rw [← List.singleton_append, ← List.append_assoc] at hx
    rw [(h.list hx).owner_eq, lastCell_concat]

omit [DecidableEq H] [DecidableEq α] in
theorem Chains.isEmpty (h : Chains m lists) (hx : lists head = some xs) :
    m.listIsEmpty head = some xs.isEmpty := by
  have hread : m.readCell (.first head) = some (m.cell (.first head)) :=
    if_pos (h.valid hx _ first_mem)
  simp only [Memory.listIsEmpty, hread, (h.list hx).forward.head_eq, Option.bind_eq_bind,
    Option.bind_some]
  cases xs <;> rfl

/-- In every state of a run the lists are well formed, and a call that is allowed succeeds,
changes the list of one head as it is meant to, and leaves the cells of the others alone. -/
theorem reached_lists {ops : List (Op H α)} (h : Reached ops m) :
    WellFormed m (reference ops) ∧ ∀ op, (reference ops).Allows m op →
      ∃ m' head xs, m.exec op = some m' ∧ Changes op head (reference ops head) xs ∧
        reference (op :: ops) = Function.update (reference ops) head (some xs) ∧
        WellFormed m' (reference (op :: ops)) ∧ Frame m m' (reference ops) head := by
  refine ⟨h.chains.wellFormed, fun op ha => ?_⟩
  obtain ⟨m', head, xs, hm', hchanges, happly, hdoes⟩ := h.chains.exec ha
  refine ⟨m', head, xs, hm', hchanges, happly, ?_, hdoes.frame⟩
  rw [reference, happly]
  exact hdoes.chains.wellFormed

/-- A node is added to an empty list, and another one before it. -/
theorem reached_lists_before : ∃ (ops : List (Op Unit ℕ)) (m : Memory Unit ℕ),
    Reached ops m ∧ WellFormed m (reference ops) ∧ reference ops () = some [1, 0] := by
  let m : Memory Unit ℕ := ⟨fun _ => true, fun _ => true, fun _ => some 5, fun _ => none⟩
  have hempty : ∀ {lists : Lists Unit ℕ} {node : ℕ}, lists () = some [] → ¬ lists.Linked node := by
    rintro lists node hx ⟨head, xs, hx', hmem⟩
    cases hx.symm.trans hx'
    cases hmem
  have hinit : Reached [.init ()] _ := .next (.start m) ⟨rfl, rfl⟩ rfl
  have hadd : Reached [.listAdd () 0, .init ()] _ :=
    .next hinit ⟨nofun, rfl, hempty rfl⟩ rfl
  have hout : ¬ Lists.Linked (reference [.listAdd () 0, .init ()]) 1 := by
    rintro ⟨head, xs, hx, hmem⟩
    have hxs : xs = [0] := (Option.some.inj hx).symm
    subst hxs
    cases List.mem_singleton.mp hmem
  have hbefore : Reached [.listAddBefore 1 0, .listAdd () 0, .init ()] _ :=
    .next hadd ⟨rfl, hout, (), [0], rfl, List.mem_singleton_self 0⟩ rfl
  exact ⟨_, _, hbefore, (reached_lists hbefore).1, rfl⟩

end

end EmbeddedCode.Hlist
