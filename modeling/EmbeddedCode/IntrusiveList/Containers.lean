import EmbeddedCode.IntrusiveList.Circles

/-!
# Queue and stack

`1220/03btree/queue.c` and `stack.c`, which differ in one call: `push` links the new
node at the tail of the list in the queue, and at its front in the stack.
-/
namespace EmbeddedCode.IntrusiveList

open LinkedList Loop

/-- The address of a structure `list_head`: that of the container, or that of a node. -/
inductive Ptr (α : Type) where
  | head
  | node (a : α)
  deriving DecidableEq, Repr

/-- The memory around one queue or stack: the lists, and the member `data` of the nodes. -/
structure Container (α D : Type) where
  list : Heads (Ptr α)
  data : α → D

section
variable {α D : Type} [DecidableEq α]

namespace Container

def init (this : Container α D) : Option (Container α D) := do
  let list ← this.list.listInit .head
  some {this with list := list}

def isEmpty (this : Container α D) : Option Bool := this.list.listIsEmpty .head

/-- `container_of`, for a node whose members are accessed next. -/
def entry (this : Container α D) : Ptr α → Option α
  | .head => none
  | .node a => if this.list.live (.node a) then some a else none

/-- `push`, with the function that links the new node. `malloc` returns the address `node`. -/
def push (link : Heads (Ptr α) → Ptr α → Ptr α → Option (Heads (Ptr α)))
    (this : Container α D) (data : D) (node : α) : Option (Container α D) :=
  if this.list.live (.node node) then none
  else do
    let list := {this.list with live := Function.update this.list.live (.node node) true}
    let list ← list.listInit (.node node)
    let list ← link list .head (.node node)
    some ⟨list, Function.update this.data node data⟩

def free (this : Container α D) (node : α) : Container α D :=
  {this with
    list := {this.list with live := Function.update this.list.live (.node node) false}}

/-- The element and the container without it, or nothing if `pop` exits the process. -/
def pop (this : Container α D) : Option (Option (D × Container α D)) := do
  if ← this.isEmpty then some none
  else do
    let first ← this.list.readNext .head
    let pnode ← this.entry first
    let first ← this.list.readNext .head
    let list ← this.list.del first
    some (some (this.data pnode, free {this with list := list} pnode))

/-- The element, or nothing if `top` ends without a `return`. -/
def top (this : Container α D) : Option (Option D) := do
  if ← this.isEmpty then some none
  else do
    let first ← this.list.readNext .head
    let pnode ← this.entry first
    some (some (this.data pnode))

/-- The loop of `queue_destroy` and `stack_destroy`. The process exits in a `pop` that finds
nothing. -/
def destroyTurn (this : Container α D) :
    Option (Turn (Container α D) (Option (Container α D))) := do
  if ← this.isEmpty then some (.leave (some this))
  else
    match ← this.pop with
    | none => some (.leave none)
    | some (_, this) => some (.again this)

def destroy (fuel : ℕ) (this : Container α D) : Option (Option (Container α D)) :=
  run destroyTurn fuel this

end Container

def Queue.push : Container α D → D → α → Option (Container α D) :=
  Container.push Heads.listAddTail

def Stack.push : Container α D → D → α → Option (Container α D) :=
  Container.push Heads.listAdd

end

inductive Call (D : Type) where
  | push (data : D)
  | pop

namespace Call
variable {D : Type}

/-- What the calls return, and the elements that wait, where `insert` gives the place of a new
element. There is no result if an element is wanted and none waits. -/
def serve (insert : List D → D → List D) : List (Call D) → List D → Option (List D × List D)
  | [], waiting => some ([], waiting)
  | .push d :: calls, waiting => serve insert calls (insert waiting d)
  | .pop :: _, [] => none
  | .pop :: calls, d :: waiting => (serve insert calls waiting).map fun r => (d :: r.1, r.2)

def fifo (calls : List (Call D)) : Option (List D × List D) :=
  serve (fun waiting d => waiting ++ [d]) calls []

def lifo (calls : List (Call D)) : Option (List D × List D) :=
  serve (fun waiting d => d :: waiting) calls []

/-- The elements that were pushed, in their order. -/
def pushed (calls : List (Call D)) : List D :=
  calls.filterMap fun
    | .push d => some d
    | .pop => none

end Call

section
variable {α D : Type} [DecidableEq α]

/-- A container after some calls, in their order, and what the calls returned. -/
inductive Run (push : Container α D → D → α → Option (Container α D)) :
    List (Call D) → Container α D → List D → Prop
  | init {this this' : Container α D} : this.list.live .head = true →
      this.init = some this' → Run push [] this' []
  | push {calls : List (Call D)} {this this' : Container α D} {out : List D} {data : D}
      (node : α) : Run push calls this out →
      push this data node = some this' → Run push (calls ++ [.push data]) this' out
  | pop {calls : List (Call D)} {this this' : Container α D} {out : List D} {data : D} :
      Run push calls this out → this.pop = some (some (data, this')) →
      Run push (calls ++ [.pop]) this' (out ++ [data])

/-- The lists of a memory with one list. -/
def only (xs : List (Ptr α)) : Lists (Ptr α) := Function.update (fun _ => none) .head (some xs)

/-- The invariant: the list of the container has the nodes `as`. -/
def Holds (this : Container α D) (as : List α) : Prop :=
  Circles this.list (only (as.map Ptr.node))

variable {this this' : Container α D} {as : List α} {a : α} {d : D}

theorem only_head (xs : List (Ptr α)) : only xs .head = some xs := Function.update_self ..

theorem linked_only {xs : List (Ptr α)} {l : Ptr α} :
    (only xs).Linked l ↔ l = .head ∨ l ∈ xs := by
  constructor
  · rintro ⟨l₀, ys, hy, hl⟩
    cases l₀ with
    | head =>
        cases (only_head xs).symm.trans hy
        exact List.mem_cons.mp hl
    | node a => simp [only] at hy
  · exact fun hl => ⟨.head, xs, only_head xs, List.mem_cons.mpr hl⟩

theorem mem_of_linked (h : (only (as.map Ptr.node)).Linked (.node a)) : a ∈ as := by
  simpa using linked_only.mp h

theorem Does.only {m m' : Heads (Ptr α)} {xs ys : List (Ptr α)}
    (h : Does m m' (only xs) .head ys) : Circles m' (only ys) := by
  have hcircles := h.circles
  rwa [IntrusiveList.only, Function.update_idem] at hcircles

/-- A function that links a new node to a list, at the place that `insert` gives. -/
structure Linking (α : Type) [DecidableEq α]
    (link : Heads (Ptr α) → Ptr α → Ptr α → Option (Heads (Ptr α)))
    (insert : {β : Type} → List β → β → List β) : Prop where
  link : ∀ {m : Heads (Ptr α)} {xs : List (Ptr α)} {l : Ptr α}, Circles m (only xs) →
    m.live l = true → ¬ (only xs).Linked l →
    ∃ m', link m .head l = some m' ∧ Does m m' (only xs) .head (insert xs l)
  map : ∀ {β γ : Type} (f : β → γ) (xs : List β) (b : β),
    (insert xs b).map f = insert (xs.map f) (f b)

theorem linking_listAddTail : Linking α Heads.listAddTail fun xs a => xs ++ [a] :=
  ⟨fun h hlive hout => h.listAddTail (only_head _) hlive hout, by simp⟩

theorem linking_listAdd : Linking α Heads.listAdd fun xs a => a :: xs :=
  ⟨fun h hlive hout => h.listAdd (only_head _) hlive hout, by simp⟩

section
variable {link : Heads (Ptr α) → Ptr α → Ptr α → Option (Heads (Ptr α))}
  {insert : {β : Type} → List β → β → List β}

theorem holds_init (hlive : this.list.live .head = true) :
    ∃ this', this.init = some this' ∧ Holds this' [] ∧ this'.list.live = this.list.live := by
  have hempty : Circles this.list fun _ => none := ⟨nofun, nofun, nofun⟩
  obtain ⟨list, hlist, hdoes⟩ := hempty.listInit hlive nofun
  exact ⟨{this with list := list}, by simp [Container.init, hlist], hdoes.circles, hdoes.live⟩

theorem Holds.newNode (h : Holds this as) (ha : this.list.live (.node a) = false) :
    ∃ list, Heads.listInit {this.list with
        live := Function.update this.list.live (.node a) true} (.node a) = some list ∧
      Circles list (only (as.map Ptr.node)) ∧
      list.live = Function.update this.list.live (.node a) true := by
  refine ⟨_, Circular.listInit_eq (Function.update_self ..), ?_, rfl⟩
  apply Circles.congr h
  intro l hl
  have hlive := h.linked_live hl
  have hne : l ≠ .node a := by
    rintro rfl
    simp [ha] at hlive
  simp [hne, hlive]

theorem Holds.push (hlink : Linking α link insert) (h : Holds this as)
    (ha : this.list.live (.node a) = false) :
    ∃ this', Container.push link this d a = some this' ∧ Holds this' (insert as a) ∧
      (insert as a).map this'.data = insert (as.map this.data) d ∧
      this'.list.live = Function.update this.list.live (.node a) true := by
  have hout : a ∉ as := fun hmem => by
    have hlive := h.linked_live (linked_only.mpr (.inr (List.mem_map_of_mem hmem)))
    simp [ha] at hlive
  obtain ⟨list, hlist, hcircles, hlive⟩ := h.newNode ha
  have ha' : list.live (.node a) = true := by rw [hlive, Function.update_self]
  obtain ⟨list', hlist', hdoes⟩ :=
    hlink.link hcircles ha' fun hl => hout (mem_of_linked hl)
  refine ⟨⟨list', Function.update this.data a d⟩, ?_, ?_, ?_, hdoes.live.trans hlive⟩
  · simp [Container.push, ha, hlist, hlist']
  · have honly := hdoes.only
    rwa [← hlink.map Ptr.node] at honly
  · have hdata : as.map (Function.update this.data a d) = as.map this.data :=
      List.map_congr_left fun b hb => Function.update_of_ne (ne_of_mem_of_not_mem hb hout) _ _
    have hself : Function.update this.data a d a = d := Function.update_self ..
    simp only [hlink.map, hdata, hself]

theorem Holds.isEmpty (h : Holds this as) : this.isEmpty = some as.isEmpty := by
  have hempty := Circles.isEmpty h (only_head _)
  rw [Container.isEmpty, hempty]
  cases as <;> rfl

theorem Holds.pop_nil (h : Holds this []) : this.pop = some none := by
  simp [Container.pop, h.isEmpty]

theorem Holds.first (h : Holds this (a :: as)) :
    this.list.readNext .head = some (.node a) ∧ this.list.live (.node a) = true := by
  have hnext : this.list.next .head = .node a := (Circles.ring h (only_head _)).forward.1
  have hlive := Circles.live h (only_head _)
  have hhead := hlive .head List.mem_cons_self
  refine ⟨?_, hlive _ (by simp)⟩
  rw [Heads.readNext, if_pos hhead, hnext]

theorem Holds.pop (h : Holds this (a :: as)) :
    ∃ this', this.pop = some (some (this.data a, this')) ∧ Holds this' as ∧
      this'.data = this.data ∧
      this'.list.live = Function.update this.list.live (.node a) false := by
  obtain ⟨hread, hlive⟩ := h.first
  obtain ⟨list, hdel, hdoes, -⟩ := Circles.del h (only_head _) List.mem_cons_self
  have hcircles := hdoes.only
  rw [List.map_cons, List.erase_cons_head] at hcircles
  have hnodup := Circles.nodup h (only_head _)
  have hout : a ∉ as := by
    simpa using (List.nodup_cons.mp (List.nodup_cons.mp hnodup).2).1
  have hlive' : (Container.free ⟨list, this.data⟩ a).list.live =
      Function.update this.list.live (.node a) false := by rw [Container.free, hdoes.live]
  refine ⟨Container.free ⟨list, this.data⟩ a, ?_, ?_, rfl, hlive'⟩
  · simp [Container.pop, h.isEmpty, hread, Container.entry, hlive, hdel]
  · apply Circles.congr hcircles
    intro l hl
    have hne : l ≠ .node a := by
      rintro rfl
      exact hout (mem_of_linked hl)
    refine ⟨?_, rfl, rfl⟩
    exact (Function.update_of_ne hne _ _).trans (hcircles.linked_live hl)

theorem Holds.top (h : Holds this as) : this.top = some ((as.map this.data).head?) := by
  cases as with
  | nil => simp [Container.top, h.isEmpty]
  | cons a as =>
      obtain ⟨hread, hlive⟩ := h.first
      simp [Container.top, h.isEmpty, hread, Container.entry, hlive]

theorem Holds.destroy (h : Holds this as) :
    ∃ this', Returns (fun fuel => this.destroy fuel) (some this') ∧ Holds this' [] := by
  induction as generalizing this with
  | nil =>
      refine ⟨this, returns_leave ?_, h⟩
      simp [Container.destroyTurn, h.isEmpty]
  | cons a as ih =>
      obtain ⟨this₁, hpop, hholds, -⟩ := h.pop
      obtain ⟨this', hreturns, hempty⟩ := ih hholds
      have hturn : this.destroyTurn = some (.again this₁) := by
        simp [Container.destroyTurn, h.isEmpty, hpop]
      exact ⟨this', hreturns.again hturn, hempty⟩

theorem Call.serve_append (f : List D → D → List D) (calls calls' : List (Call D))
    (waiting : List D) : serve f (calls ++ calls') waiting =
      (serve f calls waiting).bind fun r =>
        (serve f calls' r.2).map fun r' => (r.1 ++ r'.1, r'.2) := by
  induction calls generalizing waiting with
  | nil => simp [serve]
  | cons call calls ih =>
      cases call with
      | push d => simpa [serve] using ih (f waiting d)
      | pop =>
          cases waiting with
          | nil => simp [serve]
          | cons d waiting =>
              simp only [List.cons_append, serve, ih]
              cases serve f calls waiting <;> simp [Function.comp_def]

theorem Run.holds (hlink : Linking α link insert) {calls : List (Call D)} {out : List D}
    (h : Run (Container.push link) calls this out) :
    ∃ as, Holds this as ∧ Call.serve insert calls [] = some (out, as.map this.data) := by
  induction h with
  | @init this this' hlive hinit =>
      obtain ⟨this'', hinit', hholds, -⟩ := holds_init hlive
      cases hinit'.symm.trans hinit
      exact ⟨[], hholds, rfl⟩
  | @push calls this this' out d node _ hpush ih =>
      obtain ⟨as, hholds, hserve⟩ := ih
      have hfresh : this.list.live (.node node) = false := by
        by_contra hlive
        simp [Container.push, hlive] at hpush
      obtain ⟨this'', hpush', hholds', hdata, -⟩ := hholds.push hlink hfresh
      cases hpush'.symm.trans hpush
      refine ⟨_, hholds', ?_⟩
      simp [Call.serve_append, hserve, Call.serve, hdata]
  | @pop calls this this' out d _ hpop ih =>
      obtain ⟨as, hholds, hserve⟩ := ih
      cases as with
      | nil => simp [hholds.pop_nil] at hpop
      | cons a as =>
          obtain ⟨this'', hpop', hholds', hdata, -⟩ := hholds.pop
          cases hpop'.symm.trans hpop
          refine ⟨as, hholds', ?_⟩
          simp [Call.serve_append, hserve, Call.serve, hdata]

/-- After any calls the container has returned what the reference says, it takes a further
element, and `pop` gives the element that is next in the reference or exits if there is none. -/
def Serves (push : Container α D → D → α → Option (Container α D))
    (reference : List (Call D) → Option (List D × List D)) : Prop :=
  ∀ calls this out, Run push calls this out →
    ∃ waiting, reference calls = some (out, waiting) ∧
      (∀ data node, this.list.live (.node node) = false →
        ∃ this', push this data node = some this') ∧
      (waiting = [] → this.pop = some none) ∧
      ∀ data rest, waiting = data :: rest → ∃ this', this.pop = some (some (data, this'))

theorem Linking.serves (hlink : Linking α link insert) :
    Serves (D := D) (Container.push link) fun calls => Call.serve insert calls [] := by
  intro calls this out hrun
  obtain ⟨as, hholds, hserve⟩ := hrun.holds hlink
  refine ⟨as.map this.data, hserve, fun d node hfresh => ?_, fun hnil => ?_, ?_⟩
  · obtain ⟨this', hpush, -⟩ := hholds.push hlink hfresh
    exact ⟨this', hpush⟩
  · rw [List.map_eq_nil_iff] at hnil
    subst hnil
    exact hholds.pop_nil
  · intro d rest hwait
    cases as with
    | nil => cases hwait
    | cons a as =>
        obtain ⟨this', hpop, -⟩ := hholds.pop
        cases hwait
        exact ⟨this', hpop⟩

end

omit [DecidableEq α] in
/-- In the order of the queue the elements come out as they were pushed. -/
theorem Call.serve_fifo {calls : List (Call D)} {waiting out rest : List D}
    (h : serve (fun waiting d => waiting ++ [d]) calls waiting = some (out, rest)) :
    out ++ rest = waiting ++ pushed calls := by
  induction calls generalizing waiting out with
  | nil =>
      cases h
      simp [pushed]
  | cons call calls ih =>
      cases call with
      | push d =>
          rw [ih h]
          simp [pushed]
      | pop =>
          cases waiting with
          | nil => cases h
          | cons d waiting =>
              simp only [serve, Option.map_eq_some_iff] at h
              obtain ⟨⟨out', rest'⟩, hserve, heq⟩ := h
              cases heq
              rw [List.cons_append, ih hserve]
              rfl

/-- The intrusive lists are sequences, the queue on them is first in, first out, and the stack
is last in, first out. -/
theorem lists_are_sequences (Λ α D : Type) [DecidableEq Λ] [DecidableEq α] :
    (∀ (ops : List (Op Λ)) (m : Heads Λ), Reached ops m →
      WellFormed m (reference ops) ∧
      ∀ op, (reference ops).Allows m.live op →
        ∃ m', m.exec op = some m' ∧ WellFormed m' (reference (op :: ops)) ∧
          Kept m m' (reference ops) (reference (op :: ops)) ∧
          ∀ list, op = .del list → m'.next list = list ∧ m'.prev list = list) ∧
    (Serves (Queue.push (α := α)) (Call.fifo (D := D)) ∧
      ∀ (calls : List (Call D)) (out waiting : List D), Call.fifo calls = some (out, waiting) →
        out ++ waiting = Call.pushed calls) ∧
    Serves (Stack.push (α := α)) (Call.lifo (D := D)) := by
  refine ⟨fun ops m hreached => ?_, ⟨?_, fun calls out waiting hfifo => ?_⟩, ?_⟩
  · have hcircles := hreached.circles
    refine ⟨hcircles.wellFormed, fun op hallows => ?_⟩
    obtain ⟨m', hexec, hcircles', hrest⟩ := hcircles.exec hallows
    exact ⟨m', hexec, hcircles'.wellFormed, hrest⟩
  · exact linking_listAddTail.serves
  · exact Call.serve_fifo hfifo
  · exact linking_listAdd.serves

end

end EmbeddedCode.IntrusiveList
