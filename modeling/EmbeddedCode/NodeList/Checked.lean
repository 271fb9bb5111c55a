import EmbeddedCode.IntrusiveList.Circles

/-!
# Deletions that are checked

`1207/04dlist/list.c`. The nodes are linked like the structures `list_head` of the intrusive list,
and a list has its header on the heap. `del` looks for the node in the list before it unlinks it,
so it may be called with any pointer. A computation without a result stands for an invalid access
or for fuel that is spent.
-/
namespace EmbeddedCode.NodeList

open IntrusiveList LinkedList Loop

/-- `struct list`, with the functions that `list_init` puts into it. -/
structure DList (Λ : Type) where
  head : Λ

section
variable {Λ : Type} [DecidableEq Λ]

def nodeInit (m : Heads Λ) (node : Λ) : Option (Heads Λ) := do
  let m ← m.writePrev node node
  m.writeNext node node

def link (m : Heads Λ) (node prev next : Λ) : Option (Heads Λ) := do
  let m ← m.writeNext prev node
  let m ← m.writePrev next node
  let m ← m.writeNext node next
  m.writePrev node prev

def add (m : Heads Λ) (list : DList Λ) (node : Λ) : Option (Heads Λ) := do
  let next ← m.readNext list.head
  link m node list.head next

def addTail (m : Heads Λ) (list : DList Λ) (node : Λ) : Option (Heads Λ) := do
  let prev ← m.readPrev list.head
  link m node prev list.head

def searchTurn (m : Heads Λ) (list : DList Λ) (node cur : Λ) : Option (Turn Λ Bool) := do
  if cur = list.head then some (.leave false)
  else if cur = node then some (.leave true)
  else do
    let cur ← m.readNext cur
    some (.again cur)

def search (fuel : ℕ) (m : Heads Λ) (list : DList Λ) (node : Λ) : Option Bool := do
  let cur ← m.readNext list.head
  run (searchTurn m list node) fuel cur

/-- The loop of `del`, which leaves with `cur`. -/
def delTurn (m : Heads Λ) (list : DList Λ) (node cur : Λ) : Option (Turn Λ Λ) :=
  if cur ≠ list.head ∧ cur ≠ node then do
    let cur ← m.readNext cur
    some (.again cur)
  else some (.leave cur)

def unlink (m : Heads Λ) (node : Λ) : Option (Heads Λ) := do
  let prev ← m.readPrev node
  let next ← m.readNext node
  let m ← m.writeNext prev next
  let next ← m.readNext node
  let prev ← m.readPrev node
  let m ← m.writePrev next prev
  nodeInit m node

def del (fuel : ℕ) (m : Heads Λ) (list : DList Λ) (node : Λ) : Option (Heads Λ) := do
  let cur ← m.readNext list.head
  let cur ← run (delTurn m list node) fuel cur
  if cur = list.head then some m else unlink m node

def listIsEmpty (m : Heads Λ) (list : DList Λ) : Option Bool := do
  let next ← m.readNext list.head
  some (next == list.head)

/-- `malloc` returns the address `head`, which nothing occupies. -/
def listInit (m : Heads Λ) (head : Λ) : Option (Heads Λ × DList Λ) :=
  if m.live head then none
  else do
    let m ← nodeInit {m with live := Function.update m.live head true} head
    some (m, ⟨head⟩)

def destroyTurn (list : DList Λ) (fuel : ℕ) (m : Heads Λ) :
    Option (Turn (Heads Λ) (Heads Λ)) := do
  if ← listIsEmpty m list then some (.leave m)
  else do
    let next ← m.readNext list.head
    let m ← del fuel m list next
    some (.again m)

/-- The header is freed at the end. -/
def listDestroy (fuel : ℕ) (m : Heads Λ) (list : DList Λ) : Option (Heads Λ) := do
  let m ← run (destroyTurn list fuel) fuel m
  some {m with live := Function.update m.live list.head false}

/-- A call of one of the functions that build and change lists. -/
inductive Op (Λ : Type) where
  | init (head : Λ)
  | add (list : DList Λ) (node : Λ)
  | addTail (list : DList Λ) (node : Λ)
  | del (list : DList Λ) (node : Λ)

def exec (fuel : ℕ) (m : Heads Λ) : Op Λ → Option (Heads Λ)
  | .init head => (listInit m head).map Prod.fst
  | .add list node => add m list node
  | .addTail list node => addTail m list node
  | .del list node => del fuel m list node

/-- What a call is meant to do to the sequences of nodes. -/
def apply (lists : IntrusiveList.Lists Λ) : Op Λ → IntrusiveList.Lists Λ
  | .init head => Function.update lists head (some [])
  | .add list node => Function.update lists list.head ((lists list.head).map (node :: ·))
  | .addTail list node => Function.update lists list.head ((lists list.head).map (· ++ [node]))
  | .del list node => Function.update lists list.head ((lists list.head).map (·.erase node))

/-- Only nodes that are in no list are added. Any pointer may be deleted. -/
def Allows (lists : IntrusiveList.Lists Λ) (m : Heads Λ) : Op Λ → Prop
  | .init head => m.live head = false
  | .add list node | .addTail list node =>
      lists list.head ≠ none ∧ m.live node = true ∧ ¬ lists.Linked node
  | .del list _ => lists list.head ≠ none

def reference : List (Op Λ) → IntrusiveList.Lists Λ
  | [] => fun _ => none
  | op :: ops => apply (reference ops) op

inductive Reached : List (Op Λ) → Heads Λ → Prop
  | start (m : Heads Λ) : Reached [] m
  | next {ops : List (Op Λ)} {m m' : Heads Λ} {op : Op Λ} : Reached ops m →
      Allows (reference ops) m op → Returns (fun fuel => exec fuel m op) m' → Reached (op :: ops) m'

variable {m m' : Heads Λ} {lists : IntrusiveList.Lists Λ} {head node : Λ} {xs : List Λ}
  {list : DList Λ}

/-- A walk along a list that stops at a node. -/
theorem find {ρ : Type*} {turn : Λ → Option (Turn Λ ρ)} {found absent : ρ}
    (h : Circular m head xs)
    (hpass : ∀ cur ∈ xs, cur ≠ node → turn cur = some (.again (m.next cur)))
    (hfound : node ∈ xs → turn node = some (.leave found))
    (habsent : turn head = some (.leave absent)) :
    Returns (fun fuel => run turn fuel (m.next head)) (if node ∈ xs then found else absent) := by
  have hforward := h.ring.forward
  split_ifs with hmem
  · obtain ⟨us, vs, rfl, hus⟩ := List.eq_append_cons_of_mem hmem
    obtain ⟨q, hbefore, hq, -⟩ := segment_append.mp hforward
    have hskip : ∀ cur ∈ us, turn cur = some (.again (m.next cur)) := fun cur hcur =>
      hpass cur (by simp [hcur]) (ne_of_mem_of_not_mem hcur hus)
    have hleave : run turn 1 q = some found := hq ▸ run_leave (hfound hmem) 0
    exact run_returns ((hbefore.run_skip id hskip 1).trans hleave)
  · have hskip : ∀ cur ∈ xs, turn cur = some (.again (m.next cur)) := fun cur hcur =>
      hpass cur hcur (ne_of_mem_of_not_mem hcur hmem)
    exact run_returns ((hforward.run_skip id hskip 1).trans (run_leave habsent 0))

theorem search_returns (h : Circular m list.head xs) (node : Λ) :
    Returns (fun fuel => search fuel m list node) (decide (node ∈ xs)) := by
  have hwalk : Returns (fun fuel => run (searchTurn m list node) fuel (m.next list.head))
      (if node ∈ xs then true else false) := by
    apply find h
    · intro cur hcur hne
      have hhead : cur ≠ list.head := h.ne_head hcur
      have hlive : m.live cur = true := h.live cur (List.mem_cons_of_mem _ hcur)
      simp [searchTurn, hhead, hne, Heads.readNext, hlive]
    · intro hmem
      have hhead : node ≠ list.head := h.ne_head hmem
      simp [searchTurn, hhead]
    · simp [searchTurn]
  have hlive : m.live list.head = true := h.live list.head List.mem_cons_self
  simpa [search, Heads.readNext, hlive] using hwalk

/-- The walk of `del` ends at the node if it is in the list, and at the header otherwise. -/
theorem run_delTurn (h : Circular m list.head xs) (node : Λ) :
    Returns (fun fuel => run (delTurn m list node) fuel (m.next list.head))
      (if node ∈ xs then node else list.head) := by
  apply find h
  · intro cur hcur hne
    have hhead : cur ≠ list.head := h.ne_head hcur
    have hlive : m.live cur = true := h.live cur (List.mem_cons_of_mem _ hcur)
    simp [delTurn, hhead, hne, Heads.readNext, hlive]
  · simp [delTurn]
  · simp [delTurn]

theorem del_returns (h : Circular m list.head xs) (hmem : node ∈ xs) (hdel : m.del node = some m') :
    Returns (fun fuel => del fuel m list node) m' := by
  have hlive : m.live list.head = true := h.live list.head List.mem_cons_self
  have hhead : node ≠ list.head := h.ne_head hmem
  have hwalk := run_delTurn h node
  rw [if_pos hmem] at hwalk
  have hrest := hwalk.bind (g := fun cur => if cur = list.head then some m else unlink m node)
    ((if_neg hhead).trans hdel)
  simpa only [del, Heads.readNext, hlive, if_true, Option.bind_eq_bind, Option.bind_some]
    using hrest

/-- Nothing is written when the node is not found. -/
theorem del_absent (h : Circular m list.head xs) (hmem : node ∉ xs) :
    Returns (fun fuel => del fuel m list node) m := by
  have hlive : m.live list.head = true := h.live list.head List.mem_cons_self
  have hwalk := run_delTurn h node
  rw [if_neg hmem] at hwalk
  have hrest := hwalk.bind (g := fun cur => if cur = list.head then some m else unlink m node)
    (if_pos rfl)
  simpa only [del, Heads.readNext, hlive, if_true, Option.bind_eq_bind, Option.bind_some]
    using hrest

theorem listInit_does (h : Circles m lists) (hfree : m.live head = false) :
    ∃ m', listInit m head = some (m', ⟨head⟩) ∧
      Circles m' (Function.update lists head (some [])) ∧ Frame m m' lists head := by
  have hout : ¬ lists.Linked head := fun hl => by simp [h.linked_live hl] at hfree
  have hkept : ∀ l, lists.Linked l → Function.update m.live head true l = true := by
    intro l hl
    rw [Function.update_of_ne]
    · exact h.linked_live hl
    · rintro rfl
      exact hout hl
  have hcircles : Circles {m with live := Function.update m.live head true} lists :=
    h.congr fun l hl => ⟨hkept l hl, rfl, rfl⟩
  obtain ⟨m', hinit, hdoes⟩ := hcircles.listInit (Function.update_self ..) hout
  have hnode : nodeInit {m with live := Function.update m.live head true} head = some m' := hinit
  refine ⟨m', ?_, hdoes.circles, hdoes.frame⟩
  simp [listInit, hfree, hnode]

theorem del_does (h : Circles m lists) (hx : lists list.head = some xs) (hmem : node ∈ xs) :
    ∃ m', Returns (fun fuel => del fuel m list node) m' ∧
      Does m m' lists list.head (xs.erase node) ∧ m'.next node = node ∧ m'.prev node = node := by
  obtain ⟨m', hdel, hdoes, hself⟩ := h.del hx hmem
  exact ⟨m', del_returns (h.circular hx) hmem hdel, hdoes, hself⟩

theorem listIsEmpty_eq (h : Circles m lists) (hx : lists list.head = some xs) :
    listIsEmpty m list = some xs.isEmpty := h.isEmpty hx

/-- `list_destroy` takes the nodes out of a list, one after the other. -/
theorem destroyTurn_exits (h : Circles m lists) (hx : lists list.head = some xs) :
    ∃ m', Exits (destroyTurn list) m m' ∧ Does m m' lists list.head [] := by
  induction xs generalizing m lists with
  | nil =>
      have hturn : ∀ fuel, destroyTurn list fuel m = some (.leave m) := fun fuel => by
        simp [destroyTurn, listIsEmpty_eq h hx]
      exact ⟨m, .single ⟨0, fun fuel _ => hturn fuel⟩, .refl h hx⟩
  | cons a xs ih =>
      have hnext : m.next list.head = a := (h.ring hx).forward.1
      have hlive := h.live hx list.head List.mem_cons_self
      obtain ⟨m₁, hdel, hdoes, -⟩ := del_does h hx List.mem_cons_self
      rw [List.erase_cons_head] at hdoes
      obtain ⟨m', hexits, hdoes'⟩ := ih hdoes.circles (Function.update_self ..)
      have hturn : Returns (fun fuel => destroyTurn list fuel m) (.again m₁) := by
        have hagain := hdel.bind (g := fun m => some (Turn.again (ρ := Heads Λ) m)) rfl
        simpa [destroyTurn, listIsEmpty_eq h hx, Heads.readNext, hlive, hnext] using hagain
      exact ⟨m', (Leads.single hturn).exits hexits, hdoes.trans hdoes'⟩

theorem listDestroy_returns (h : Circles m lists) (hx : lists list.head = some xs) :
    ∃ m', Returns (fun fuel => listDestroy fuel m list) m' ∧ m'.live list.head = false ∧
      Circles m' (Function.update lists list.head none) ∧ Frame m m' lists list.head := by
  obtain ⟨m', hexits, hdoes⟩ := destroyTurn_exits h hx
  have hlists : ∀ {head xs}, Function.update lists list.head none head = some xs →
      head ≠ list.head ∧ Function.update lists list.head (some []) head = some xs := by
    intro head xs hy
    rcases eq_or_ne head list.head with rfl | hne
    · rw [Function.update_self] at hy
      cases hy
    · rw [Function.update_of_ne hne] at hy ⊢
      exact ⟨hne, hy⟩
  have hcircles := hdoes.circles
  refine ⟨{m' with live := Function.update m'.live list.head false}, hexits.returns.bind rfl,
    Function.update_self .., ⟨fun hy => ?_, fun {head xs} hy l hl => ?_, fun hy hy' => ?_⟩,
    hdoes.frame⟩
  · exact hcircles.ring (hlists hy).2
  · obtain ⟨hne, hy⟩ := hlists hy
    have hhead : l ≠ list.head :=
      hcircles.ne_of_mem hne hy hl (Function.update_self ..) List.mem_cons_self
    exact (Function.update_of_ne hhead _ _).trans (hcircles.live hy l hl)
  · exact hcircles.apart (hlists hy).2 (hlists hy').2

theorem exec_does (h : Circles m lists) {op : Op Λ} (ha : Allows lists m op) :
    ∃ m', Returns (fun fuel => exec fuel m op) m' ∧ Circles m' (apply lists op) ∧
      Kept m m' lists (apply lists op) := by
  cases op with
  | init head =>
      obtain ⟨m', hinit, hcircles, hframe⟩ := listInit_does h ha
      have hexec : exec 0 m (.init head) = some m' := by simp [exec, hinit]
      refine ⟨m', ⟨0, fun _ _ => hexec⟩, hcircles, hframe.kept fun xs hx => ?_⟩
      have hlive := h.linked_live ⟨head, xs, hx, List.mem_cons_self⟩
      rw [show m.live head = false from ha] at hlive
      cases hlive
  | add list node =>
      obtain ⟨hsome, hlive, hout⟩ := ha
      obtain ⟨xs, hx⟩ := Option.ne_none_iff_exists'.mp hsome
      obtain ⟨m', hadd, hdoes⟩ := h.listAdd hx hlive hout
      have happly : apply lists (.add list node) =
          Function.update lists list.head (some (node :: xs)) := by
        simp [apply, hx]
      rw [happly]
      exact ⟨m', ⟨0, fun _ _ => hadd⟩, hdoes.circles, hdoes.kept hx (by simp)⟩
  | addTail list node =>
      obtain ⟨hsome, hlive, hout⟩ := ha
      obtain ⟨xs, hx⟩ := Option.ne_none_iff_exists'.mp hsome
      obtain ⟨m', hadd, hdoes⟩ := h.listAddTail hx hlive hout
      have happly : apply lists (.addTail list node) =
          Function.update lists list.head (some (xs ++ [node])) := by
        simp [apply, hx]
      rw [happly]
      exact ⟨m', ⟨0, fun _ _ => hadd⟩, hdoes.circles, hdoes.kept hx (by simp)⟩
  | del list node =>
      obtain ⟨xs, hx⟩ := Option.ne_none_iff_exists'.mp ha
      have happly : apply lists (.del list node) =
          Function.update lists list.head (some (xs.erase node)) := by
        simp [apply, hx]
      rw [happly]
      by_cases hmem : node ∈ xs
      · obtain ⟨m', hdel, hdoes, -⟩ := del_does h hx hmem
        have hne : xs.erase node ≠ xs := fun heq => List.erase_eq_self_iff.mp heq hmem
        exact ⟨m', hdel, hdoes.circles, hdoes.kept hx hne⟩
      · refine ⟨m, del_absent (h.circular hx) hmem, ?_, fun _ _ _ _ _ _ => ⟨rfl, rfl⟩⟩
        rwa [List.erase_of_not_mem hmem, ← hx, Function.update_eq_self]

theorem Reached.circles {ops : List (Op Λ)} (h : Reached ops m) : Circles m (reference ops) := by
  induction h with
  | start m => exact ⟨nofun, nofun, nofun⟩
  | next _ ha hexec ih =>
      obtain ⟨_, hexec', hcircles, -⟩ := exec_does ih ha
      rwa [hexec.unique hexec']

/-- After any calls the lists are circles, the next call does what it is meant to do, and `search`
and `del` tell the nodes of a list from all other pointers. -/
theorem checked_deletion {ops : List (Op Λ)} (h : Reached ops m) :
    WellFormed m (reference ops) ∧
    (∀ op, Allows (reference ops) m op →
      ∃ m', Returns (fun fuel => exec fuel m op) m' ∧ WellFormed m' (reference (op :: ops)) ∧
        Kept m m' (reference ops) (reference (op :: ops))) ∧
    ∀ list xs, reference ops list.head = some xs → ∀ node,
      Returns (fun fuel => search fuel m list node) (decide (node ∈ xs)) ∧
      (node ∈ xs →
        ∃ m', Returns (fun fuel => del fuel m list node) m' ∧
          WellFormed m' (Function.update (reference ops) list.head (some (xs.erase node))) ∧
          Frame m m' (reference ops) list.head ∧ m'.next node = node ∧ m'.prev node = node) ∧
      (node ∉ xs → Returns (fun fuel => del fuel m list node) m) := by
  have hcircles := h.circles
  refine ⟨hcircles.wellFormed, fun op ha => ?_, fun list xs hx node => ⟨?_, fun hmem => ?_, ?_⟩⟩
  · obtain ⟨m', hexec, hcircles', hkept⟩ := exec_does hcircles ha
    exact ⟨m', hexec, hcircles'.wellFormed, hkept⟩
  · exact search_returns (hcircles.circular hx) node
  · obtain ⟨m', hdel, hdoes, hself⟩ := del_does hcircles hx hmem
    exact ⟨m', hdel, hdoes.circles.wellFormed, hdoes.frame, hself⟩
  · exact del_absent (hcircles.circular hx)

end

section Two

def twoNodes : Heads ℕ where
  live l := l == 1 || l == 2
  prev := id
  next := id

def twoLists : List (Op ℕ) := [.addTail ⟨20⟩ 2, .add ⟨10⟩ 1, .init 20, .init 10]

/-- The node 2 of the second list is not found in the first one, and stays where it is. -/
theorem checked_deletion_two : ∃ m : Heads ℕ, Reached twoLists m ∧
    Returns (fun fuel => search fuel m ⟨10⟩ 2) false ∧
    Returns (fun fuel => del fuel m ⟨10⟩ 2) m := by
  have h₁ := (Reached.start twoNodes).next (show Allows _ _ (.init 10) from rfl)
    ⟨0, fun _ _ => rfl⟩
  have h₂ := h₁.next (show Allows _ _ (.init 20) from rfl) ⟨0, fun _ _ => rfl⟩
  have hone : ¬ (reference [.init 20, .init 10]).Linked 1 := by
    rintro ⟨head, xs, hx, hmem⟩
    simp only [reference, apply, Function.update_apply] at hx
    split_ifs at hx with h20 h10 <;> cases hx <;> simp_all
  have h₃ := h₂.next (show Allows _ _ (.add ⟨10⟩ 1) from ⟨nofun, rfl, hone⟩)
    ⟨0, fun _ _ => rfl⟩
  have htwo : ¬ (reference [.add ⟨10⟩ 1, .init 20, .init 10]).Linked 2 := by
    rintro ⟨head, xs, hx, hmem⟩
    simp only [reference, apply, Function.update_apply] at hx
    split_ifs at hx with h10 h20 <;> cases hx <;> simp_all
  have h₄ := h₃.next (show Allows _ _ (.addTail ⟨20⟩ 2) from ⟨nofun, rfl, htwo⟩)
    ⟨0, fun _ _ => rfl⟩
  obtain ⟨hsearch, -, habsent⟩ := (checked_deletion h₄).2.2 ⟨10⟩ [1] rfl 2
  exact ⟨_, h₄, hsearch, habsent (by decide)⟩

end Two

end EmbeddedCode.NodeList
