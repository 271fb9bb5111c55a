import EmbeddedCode.HashTable.Reference
import EmbeddedCode.Library.TwoWayList

/-!
# The table with circular lists

`01hash_list/hash.c` and `list.h`. A `struct list_head` is one of the heads in `parr`
or the member `list` of a node. Every access goes through a test that the memory is
allocated, so a computation without a result stands for an invalid access, for a copy
beyond the end of a buffer, or for fuel that is spent.
-/
namespace EmbeddedCode.HashTable.HashList

open LinkedList Chaining Loop

/-- A pointer to a `struct list_head`. -/
inductive ListHead (α : Type) where
  | parr (i : ℕ)
  | node (a : α)
  deriving DecidableEq, Repr

structure Hash (α : Type) where
  live : α → Bool
  key : α → CString
  content : α → CString
  prev : ListHead α → ListHead α
  next : ListHead α → ListHead α

section
variable {α : Type} [DecidableEq α]

namespace Hash

def valid (this : Hash α) : ListHead α → Bool
  | .parr i => decide (i < arrSize)
  | .node a => this.live a

def readPrev (this : Hash α) (list : ListHead α) : Option (ListHead α) :=
  if this.valid list then some (this.prev list) else none

def readNext (this : Hash α) (list : ListHead α) : Option (ListHead α) :=
  if this.valid list then some (this.next list) else none

def writePrev (this : Hash α) (list p : ListHead α) : Option (Hash α) :=
  if this.valid list then some {this with prev := Function.update this.prev list p} else none

def writeNext (this : Hash α) (list p : ListHead α) : Option (Hash α) :=
  if this.valid list then some {this with next := Function.update this.next list p} else none

/-- `hlist_entry`, for a node whose members are accessed next. -/
def entry (this : Hash α) : ListHead α → Option α
  | .parr _ => none
  | .node a => if this.live a then some a else none

def listInit (this : Hash α) (list : ListHead α) : Option (Hash α) := do
  let this ← this.writePrev list list
  this.writeNext list list

def add (this : Hash α) (list prev next : ListHead α) : Option (Hash α) := do
  let this ← this.writeNext prev list
  let this ← this.writePrev next list
  let this ← this.writeNext list next
  this.writePrev list prev

def listAdd (this : Hash α) (head list : ListHead α) : Option (Hash α) := do
  let next ← this.readNext head
  this.add list head next

/-- `del` of `list.h` -/
def unlink (this : Hash α) (list : ListHead α) : Option (Hash α) := do
  let prev ← this.readPrev list
  let next ← this.readNext list
  let this ← this.writeNext prev next
  let next ← this.readNext list
  let prev ← this.readPrev list
  let this ← this.writePrev next prev
  this.listInit list

/-- The loop of `hash_init` over the heads. -/
def init (this : Hash α) : Option (Hash α) :=
  (List.range arrSize).foldlM (fun this i => this.listInit (.parr i)) this

/-- `malloc` returns the address `a`, which nothing occupies, and the strings are copied. -/
def newNode (this : Hash α) (key content : CString) (a : α) : Option (Hash α) :=
  if this.live a then none
  else do
    let key ← key.strcpy nameLen
    let content ← content.strcpy contLen
    some {this with
      live := Function.update this.live a true
      key := Function.update this.key a key
      content := Function.update this.content a content}

def free (this : Hash α) (a : α) : Hash α :=
  {this with live := Function.update this.live a false}

/-- `list_for_each` in `build_list`, up to the node with the same key. -/
def buildTurn (this : Hash α) (key : CString) (head cur : ListHead α) :
    Option (Turn (ListHead α) (Option α)) :=
  if cur = head then some (.leave none)
  else do
    let pnode ← this.entry cur
    if key.strcmp (this.key pnode) = 0 then some (.leave (some pnode))
    else do
      let cur ← this.readNext cur
      some (.again cur)

/-- The node with the same key keeps its content or gets the new one appended. -/
def merge (this : Hash α) (pnode : α) (content : CString) : Option (Hash α) :=
  if content.strcmp (this.content pnode) = 0 then some this
  else do
    let content ← (this.content pnode).strcat contLen content
    some {this with content := Function.update this.content pnode content}

def build (fuel : ℕ) (this : Hash α) (key content : CString) (node : α) : Option (Hash α) := do
  let head := ListHead.parr (hashAlg key)
  let cur ← this.readNext head
  match ← run (this.buildTurn key head) fuel cur with
  | some pnode => this.merge pnode content
  | none => do
      let this ← this.newNode key content node
      this.listAdd head (.node node)

/-- `list_for_each_entry_safe` in `del_node`: the table, `&ptr->list` and `tmp`. -/
def delTurn (key : CString) (head : ListHead α) :
    Hash α × ListHead α × ListHead α → Option (Turn (Hash α × ListHead α × ListHead α) (Hash α))
  | (this, ptr, tmp) =>
      if ptr = head then some (.leave this)
      else do
        let node ← this.entry ptr
        let this ← if (this.key node).strcmp key = 0 then do
            let this ← this.unlink ptr
            some (this.free node)
          else some this
        let tmp' ← this.readNext tmp
        some (.again (this, tmp, tmp'))

def del (fuel : ℕ) (this : Hash α) (key : CString) : Option (Hash α) := do
  let head := ListHead.parr (hashAlg key)
  let ptr ← this.readNext head
  let tmp ← this.readNext ptr
  run (Hash.delTurn key head) fuel (this, ptr, tmp)

/-- `list_for_each_safe` in `search`: `cur` and `tmp`. -/
def searchTurn (this : Hash α) (key : CString) (head : ListHead α) :
    ListHead α × ListHead α → Option (Turn (ListHead α × ListHead α) (Option α))
  | (cur, tmp) =>
      if cur = head then some (.leave none)
      else do
        let ptr ← this.entry cur
        if (this.key ptr).strcmp key = 0 then some (.leave (some ptr))
        else do
          let tmp' ← this.readNext tmp
          some (.again (tmp, tmp'))

def search (fuel : ℕ) (this : Hash α) (key : CString) : Option (Option α) := do
  let head := ListHead.parr (hashAlg key)
  let cur ← this.readNext head
  let tmp ← this.readNext cur
  run (this.searchTurn key head) fuel (cur, tmp)

end Hash

end

variable {α : Type}

/-- The nodes that the pointers lead to from the head of a list. -/
inductive InBucket (this : Hash α) (i : ℕ) : α → Prop
  | first {a : α} : this.next (.parr i) = .node a → InBucket this i a
  | next {a b : α} : InBucket this i a → this.next (.node a) = .node b → InBucket this i b

/-- The tables after some calls, of which the last comes first in the list. -/
inductive Reached [DecidableEq α] : List Call → Hash α → Prop
  | init {this this' : Hash α} : this.init = some this' → Reached [] this'
  | build {calls : List Call} {this this' : Hash α} {key content : CString} (node : α) :
      Reached calls this → this.live node = false →
      Returns (fun fuel => this.build fuel key content node) this' →
      Reached (.build key content :: calls) this'
  | del {calls : List Call} {this this' : Hash α} {key : CString} : Reached calls this →
      Returns (fun fuel => this.del fuel key) this' → Reached (.del key :: calls) this'

/-- The invariant: the heads in `parr` have rings of allocated nodes, which stand for the map. -/
structure Holds (this : Hash α) (bucket : ℕ → List α) (m : CString → Option CString) : Prop where
  ring : ∀ i < arrSize, Ring ListHead.node this.next this.prev (.parr i) (bucket i)
  live : ∀ i, ∀ a ∈ bucket i, this.live a = true
  table : Chained hashAlg bucket this.key this.content m

section
variable {this this' : Hash α} {bucket : ℕ → List α} {m : CString → Option CString}
  {l l' : ListHead α} {i : ℕ} {k : CString} {a : α}

theorem readNext_eq (hl : this.valid l = true) : this.readNext l = some (this.next l) := if_pos hl

@[simp] theorem valid_mk (key content : α → CString) (prev next : ListHead α → ListHead α) :
    Hash.valid ⟨this.live, key, content, prev, next⟩ l = this.valid l := by
  cases l <;> rfl

theorem entry_eq (ha : this.live a = true) : this.entry (.node a) = some a := if_pos ha

def cells (bucket : ℕ → List α) (i : ℕ) : List (ListHead α) := .parr i :: (bucket i).map .node

theorem head_mem : ListHead.parr i ∈ cells bucket i := List.mem_cons_self

theorem node_mem (ha : a ∈ bucket i) : ListHead.node a ∈ cells bucket i :=
  List.mem_cons_of_mem _ (List.mem_map_of_mem ha)

theorem mem_of_node_mem (ha : ListHead.node a ∈ cells bucket i) : a ∈ bucket i := by
  simpa [cells] using ha

namespace Holds

theorem valid (h : Holds this bucket m) (hi : i < arrSize) (hl : l ∈ cells bucket i) :
    this.valid l = true := by
  rcases List.mem_cons.mp hl with rfl | hl
  · exact decide_eq_true hi
  · obtain ⟨a, ha, rfl⟩ := List.mem_map.mp hl
    exact h.live i a ha

theorem next_mem (h : Holds this bucket m) (hi : i < arrSize) (hl : l ∈ cells bucket i) :
    this.next l ∈ cells bucket i := (h.ring i hi).next_mem hl

theorem prev_mem (h : Holds this bucket m) (hi : i < arrSize) (hl : l ∈ cells bucket i) :
    this.prev l ∈ cells bucket i := (h.ring i hi).prev_mem hl

/-- Two lists of the table have no cell in common. -/
theorem cells_disjoint (h : Holds this bucket m) {j : ℕ} (hi : l ∈ cells bucket i)
    (hj : l ∈ cells bucket j) : i = j := by
  cases l with
  | parr _ => simp_all [cells]
  | node a =>
    rw [← h.table.placed i a (mem_of_node_mem hi), h.table.placed j a (mem_of_node_mem hj)]

end Holds

variable [DecidableEq α]

theorem Holds.build_find (h : Holds this bucket m) (k : CString) :
    (m k = none ∧ Returns (fun fuel => run (this.buildTurn k (.parr (hashAlg k))) fuel
        (this.next (.parr (hashAlg k)))) none) ∨
      ∃ a ∈ bucket (hashAlg k), this.key a = k ∧ m k = some (this.content a) ∧
        Returns (fun fuel => run (this.buildTurn k (.parr (hashAlg k))) fuel
          (this.next (.parr (hashAlg k)))) (some a) := by
  have hlt := hashAlg_lt k
  apply h.table.find id _ (h.ring _ hlt).forward
  · intro a ha hak
    have hstrcmp : k.strcmp (this.key a) ≠ 0 := fun he => hak (CString.strcmp_eq_zero.mp he).symm
    simp [Hash.buildTurn, entry_eq (h.live _ a ha), hstrcmp,
      readNext_eq (h.valid hlt (node_mem ha))]
  · intro a ha hak
    have hstrcmp : k.strcmp (this.key a) = 0 := CString.strcmp_eq_zero.mpr hak.symm
    simp [Hash.buildTurn, entry_eq (h.live _ a ha), hstrcmp]
  · simp [Hash.buildTurn]

theorem listAdd_eq (hhead : this.valid l = true) (hnext : this.valid (this.next l) = true)
    (hlist : this.valid l' = true) :
    this.listAdd l l' = some {this with
      next := Function.update (Function.update this.next l l') l' (this.next l)
      prev := Function.update (Function.update this.prev (this.next l) l') l' l} := by
  simp [Hash.listAdd, Hash.add, Hash.readNext, Hash.writeNext, Hash.writePrev, hhead, hnext, hlist]

theorem unlink_eq (hlist : this.valid l = true) (hnext : this.valid (this.next l) = true)
    (hprev : this.valid (this.prev l) = true) (hne : l ≠ this.prev l) :
    this.unlink l = some {this with
      next := Function.update (Function.update this.next (this.prev l) (this.next l)) l l
      prev := Function.update (Function.update this.prev (this.next l) (this.prev l)) l l} := by
  simp [Hash.unlink, Hash.listInit, Hash.readNext, Hash.readPrev, Hash.writeNext, Hash.writePrev,
    hlist, hnext, hprev, hne]

/-- A node that is allocated but not in the table, with a key that is not there yet, is linked
behind the head of its list. -/
theorem Holds.link (h : Holds this bucket m) (ha : this.live a = true) (hout : ∀ i, a ∉ bucket i)
    (hk : m (this.key a) = none) :
    ∃ this', this.listAdd (.parr (hashAlg (this.key a))) (.node a) = some this' ∧
      this'.live = this.live ∧ Holds this' (Function.update bucket (hashAlg (this.key a))
        (a :: bucket (hashAlg (this.key a)))) (Function.update m (this.key a)
          (some (this.content a))) := by
  have hlt := hashAlg_lt (this.key a)
  generalize hi : hashAlg (this.key a) = i at hlt ⊢
  have hnode : ∀ j, ListHead.node a ∉ cells bucket j := fun j hj => hout j (mem_of_node_mem hj)
  have hnext := h.next_mem hlt head_mem
  refine ⟨_, listAdd_eq (h.valid hlt head_mem) (h.valid hlt hnext) ha, rfl, ?_, ?_, ?_⟩
  · intro j hj
    rcases eq_or_ne j i with hji | hji
    · rw [hji, Function.update_self]
      exact (h.ring i hlt).insert (hnode i)
    · rw [Function.update_of_ne hji]
      have hother : ∀ l ∈ cells bucket j, ∀ l' ∈ cells bucket i, l ≠ l' := by
        intro l hl l' hl' heq
        exact hji (h.cells_disjoint hl (heq ▸ hl'))
      have hself : ∀ l ∈ cells bucket j, l ≠ .node a := fun l hl =>
        ne_of_mem_of_not_mem hl (hnode j)
      apply (h.ring j hj).congr
      · intro l hl
        simp [hself l hl, hother l hl _ head_mem]
      · intro l hl
        simp [hself l hl, hother l hl _ hnext]
  · exact Chained.forall_insert ha h.live
  · have hinsert := h.table.insert (v := this.content a) hout hk
    rw [Function.update_eq_self, Function.update_eq_self, hi] at hinsert
    exact hinsert

theorem Holds.unlink (h : Holds this bucket m) {us vs : List α}
    (hb : bucket (hashAlg (this.key a)) = us ++ a :: vs)
    (hother : ∀ b ∈ us ++ vs, this.key b ≠ this.key a) :
    ∃ this', this.unlink (.node a) = some this' ∧ this'.live = this.live ∧
      this'.next (lastCell .node (.parr (hashAlg (this.key a))) us) = this.next (.node a) ∧
      this.next (.node a) ∈ ListHead.parr (hashAlg (this.key a)) :: vs.map .node ∧
      Holds (this'.free a) (Function.update bucket (hashAlg (this.key a)) (us ++ vs))
        (Function.update m (this.key a) none) := by
  have hlt := hashAlg_lt (this.key a)
  have hring := h.ring _ hlt
  have htable := h.table.erase hb rfl hother
  generalize hashAlg (this.key a) = i at hlt hring hb htable ⊢
  have ha : a ∈ bucket i := by simp [hb]
  have hnext := h.next_mem hlt (node_mem ha)
  have hprev := h.prev_mem hlt (node_mem ha)
  rw [hb] at hring
  have hgone : a ∉ us ++ vs := fun hmem => hother a hmem rfl
  refine ⟨_, unlink_eq (h.valid hlt (node_mem ha)) (h.valid hlt hnext) (h.valid hlt hprev)
    hring.prev_ne, rfl, ?_, ?_, ?_, ?_, htable⟩
  · rw [← hring.prev_eq]
    exact (Function.update_of_ne hring.prev_ne.symm _ _).trans (Function.update_self ..)
  · rw [hring.next_eq]
    simpa using lastCell_mem ListHead.node (.parr i) vs.reverse
  · intro j hj
    rcases eq_or_ne j i with hji | hji
    · rw [hji, Function.update_self]
      have hself : ∀ l ∈ ListHead.parr i :: (us ++ vs).map .node, l ≠ .node a :=
        fun l hl => ne_of_mem_of_not_mem hl (by simpa using hgone)
      apply hring.erase.congr
      · exact fun l hl => Function.update_of_ne (hself l hl) _ _
      · exact fun l hl => Function.update_of_ne (hself l hl) _ _
    · rw [Function.update_of_ne hji]
      have hcell : ∀ l ∈ cells bucket j, ∀ l' ∈ cells bucket i, l ≠ l' := by
        intro l hl l' hl' heq
        exact hji (h.cells_disjoint hl (heq ▸ hl'))
      apply (h.ring j hj).congr
      · intro l hl
        simp [Hash.free, hcell l hl _ (node_mem ha), hcell l hl _ hprev]
      · intro l hl
        simp [Hash.free, hcell l hl _ (node_mem ha), hcell l hl _ hnext]
  · intro j b hbj
    have hne : b ≠ a := by
      rintro rfl
      exact htable.key_ne (Function.update_self ..) hbj rfl
    have hbi : b ∈ bucket j := Chained.mem_of_mem_erase hb hbj
    exact (Function.update_of_ne hne _ _).trans (h.live j b hbi)

theorem listInit_eq (hl : this.valid l = true) :
    this.listInit l = some {this with
      prev := Function.update this.prev l l
      next := Function.update this.next l l} := by
  simp [Hash.listInit, Hash.writePrev, Hash.writeNext, hl]

/-- The heads before the one that is next are rings without a node. -/
theorem foldlM_listInit (this : Hash α) (n : ℕ) (hn : n ≤ arrSize) :
    ∃ this', (List.range n).foldlM (fun this i => this.listInit (.parr i)) this = some this' ∧
      this'.live = this.live ∧
      ∀ i < n, this'.next (.parr i) = .parr i ∧ this'.prev (.parr i) = .parr i := by
  induction n with
  | zero => exact ⟨this, rfl, rfl, by simp⟩
  | succ n ih =>
      obtain ⟨this₁, hrun, hlive, hinit⟩ := ih (by omega)
      have hvalid : this₁.valid (.parr n) = true := decide_eq_true hn
      refine ⟨{this₁ with
        prev := Function.update this₁.prev (.parr n) (.parr n)
        next := Function.update this₁.next (.parr n) (.parr n)}, ?_, hlive, fun i hi => ?_⟩
      · simp [List.range_succ, hrun, listInit_eq hvalid]
      · rcases Nat.lt_succ_iff_lt_or_eq.mp hi with hlt | rfl
        · have hne : ListHead.parr (α := α) i ≠ .parr n := by
            rintro ⟨⟩
            exact Nat.lt_irrefl _ hlt
          simp [hne, hinit i hlt]
        · simp

theorem init_holds (this : Hash α) : ∃ this', this.init = some this' ∧ this'.live = this.live ∧
    Holds this' (fun _ => []) (fun _ => none) := by
  obtain ⟨this', hrun, hlive, hinit⟩ := foldlM_listInit this arrSize (Nat.le_refl _)
  refine ⟨this', hrun, hlive, fun i hi => ?_, by simp, Chained.empty⟩
  exact ring_nil (hinit i hi).1 (hinit i hi).2

theorem newNode_eq {key content : CString} (hkey : key.strlen < nameLen)
    (hcontent : content.strlen < contLen) (ha : this.live a = false) :
    this.newNode key content a = some {this with
      live := Function.update this.live a true
      key := Function.update this.key a key
      content := Function.update this.content a content} := by
  simp [Hash.newNode, ha, CString.strcpy_eq hkey, CString.strcpy_eq hcontent]

theorem Holds.newNode (h : Holds this bucket m) {key content : CString}
    (hkey : key.strlen < nameLen) (hcontent : content.strlen < contLen)
    (ha : this.live a = false) :
    ∃ this', this.newNode key content a = some this' ∧ Holds this' bucket m ∧
      this'.live = Function.update this.live a true ∧ this'.key a = key ∧
      this'.content a = content ∧ ∀ i, a ∉ bucket i := by
  have hne : ∀ i, ∀ b ∈ bucket i, b ≠ a := by
    rintro i b hb rfl
    rw [h.live i b hb] at ha
    cases ha
  refine ⟨_, newNode_eq hkey hcontent ha, ?_, rfl, Function.update_self .., Function.update_self ..,
    fun i hi => hne i a hi rfl⟩
  refine ⟨h.ring, fun i b hb => ?_, ?_⟩
  · exact (Function.update_of_ne (hne i b hb) _ _).trans (h.live i b hb)
  · apply h.table.congr
    · exact fun i b hb => Function.update_of_ne (hne i b hb) _ _
    · exact fun i b hb => Function.update_of_ne (hne i b hb) _ _

theorem Holds.merge (h : Holds this bucket m) (ha : a ∈ bucket (hashAlg k)) (hak : this.key a = k)
    (hm : m k = some (this.content a)) {content : CString}
    (hfit : ∀ v, (Call.build k content).apply m k = some v → v.strlen < contLen) :
    ∃ this', this.merge a content = some this' ∧ this'.live = this.live ∧
      Holds this' bucket ((Call.build k content).apply m) := by
  simp only [Call.apply, hm] at hfit ⊢
  by_cases hc : content = this.content a
  · refine ⟨this, by simp [Hash.merge, CString.strcmp_eq_zero, hc], rfl, ?_⟩
    rwa [if_pos hc, ← hm, Function.update_eq_self]
  · rw [if_neg hc] at hfit ⊢
    have hstrcat := CString.strcat_eq (hfit _ (Function.update_self ..))
    have hmerge : this.merge a content = some {this with
        content := Function.update this.content a ((this.content a).append content)} := by
      simp [Hash.merge, CString.strcmp_eq_zero, hc, hstrcat]
    exact ⟨_, hmerge, rfl, h.ring, h.live, h.table.modify ha hak⟩

/-- `build` returns and does to the table what the call does to the map. At most the address from
`malloc` gets occupied. -/
theorem Holds.build (h : Holds this bucket m) {content : CString} (hkey : k.strlen < nameLen)
    (hfit : ∀ v, (Call.build k content).apply m k = some v → v.strlen < contLen)
    (ha : this.live a = false) :
    ∃ this' bucket', Returns (fun fuel => this.build fuel k content a) this' ∧
      Holds this' bucket' ((Call.build k content).apply m) ∧
      ∀ b, this'.live b = true → b = a ∨ this.live b = true := by
  have hread := readNext_eq (h.valid (hashAlg_lt k) head_mem)
  simp only [Hash.build, hread, Option.bind_eq_bind, Option.bind_some]
  rcases h.build_find k with ⟨hm, hfind⟩ | ⟨b, hb, hbk, hm, hfind⟩
  · have hcontent : content.strlen < contLen := by
      apply hfit
      simp [Call.apply, hm]
    obtain ⟨this₁, hnew, h₁, hlive, hk, hc, hout⟩ := h.newNode hkey hcontent ha
    have hself : this₁.live a = true := hlive ▸ Function.update_self ..
    obtain ⟨this₂, hlink, hlive₂, h₂⟩ := h₁.link hself hout (hk ▸ hm)
    rw [hk] at hlink h₂
    refine ⟨this₂, Function.update bucket (hashAlg k) (a :: bucket (hashAlg k)),
      hfind.bind (by simp [hnew, hlink]), ?_, fun b hb => ?_⟩
    · simpa only [Call.apply, hm, hc] using h₂
    · rw [hlive₂, hlive, Function.update_apply] at hb
      split_ifs at hb with hba
      · exact .inl hba
      · exact .inr hb
  · obtain ⟨this₁, hmerge, hlive, h₁⟩ := h.merge hb hbk hm hfit
    exact ⟨this₁, _, hfind.bind hmerge, h₁, fun c hc => .inr (hlive ▸ hc)⟩

theorem Holds.search (h : Holds this bucket m) (k : CString) :
    ∃ r, Returns (fun fuel => this.search fuel k) r ∧ r.map this.content = m k ∧
      ∀ a ∈ r, a ∈ bucket (hashAlg k) ∧ this.key a = k := by
  have hlt := hashAlg_lt k
  have hnext := h.next_mem hlt head_mem
  simp only [Hash.search, readNext_eq (h.valid hlt head_mem), readNext_eq (h.valid hlt hnext),
    Option.bind_eq_bind, Option.bind_some]
  have hfind := h.table.find (k := k) (fun p => (p, this.next p))
    (this.searchTurn k (.parr (hashAlg k))) (h.ring _ hlt).forward
    (by
      intro a ha hak
      have hstrcmp : (this.key a).strcmp k ≠ 0 := fun he => hak (CString.strcmp_eq_zero.mp he)
      have htmp := h.valid hlt (h.next_mem hlt (node_mem ha))
      simp [Hash.searchTurn, entry_eq (h.live _ a ha), hstrcmp, readNext_eq htmp])
    (by
      intro a ha hak
      have hstrcmp : (this.key a).strcmp k = 0 := CString.strcmp_eq_zero.mpr hak
      simp [Hash.searchTurn, entry_eq (h.live _ a ha), hstrcmp])
    (by simp [Hash.searchTurn])
  rcases hfind with ⟨hm, hfind⟩ | ⟨a, ha, hak, hm, hfind⟩
  · exact ⟨none, hfind, by simp [hm], by simp⟩
  · refine ⟨some a, hfind, by simp [hm], ?_⟩
    rintro b ⟨⟩
    exact ⟨ha, hak⟩

theorem Holds.run_delTurn (h : Holds this bucket m) {i : ℕ} (hi : i < arrSize) {k : CString}
    {p q : ListHead α} {xs : List α} (hxs : ∀ b ∈ xs, b ∈ bucket i ∧ this.key b ≠ k)
    (hlist : Segment ListHead.node (this.next ∘ ListHead.node) p xs q) (fuel : ℕ) :
    run (Hash.delTurn k (.parr i)) (fuel + xs.length) (this, p, this.next p) =
      run (Hash.delTurn k (.parr i)) fuel (this, q, this.next q) := by
  apply hlist.run_skip fun p => (this, p, this.next p)
  intro b hb
  obtain ⟨hmem, hbk⟩ := hxs b hb
  have hstrcmp : (this.key b).strcmp k ≠ 0 := fun he => hbk (CString.strcmp_eq_zero.mp he)
  have htmp := h.valid hi (h.next_mem hi (node_mem hmem))
  simp [Hash.delTurn, entry_eq (h.live i b hmem), hstrcmp, readNext_eq htmp]

theorem Holds.del (h : Holds this bucket m) (k : CString) :
    ∃ this' bucket', Returns (fun fuel => this.del fuel k) this' ∧
      Holds this' bucket' ((Call.del k).apply m) ∧
      ∀ b, this'.live b = true → this.live b = true := by
  have hlt := hashAlg_lt k
  have hnext := h.next_mem hlt head_mem
  simp only [Hash.del, readNext_eq (h.valid hlt head_mem), readNext_eq (h.valid hlt hnext),
    Option.bind_eq_bind, Option.bind_some]
  have hend : ∀ (this : Hash α) tmp, Hash.delTurn k (.parr (hashAlg k))
      (this, .parr (hashAlg k), tmp) = some (.leave this) := by
    intro this tmp
    simp [Hash.delTurn]
  by_cases hm : m k = none
  · have hskip := h.run_delTurn hlt (fun b hb => ⟨hb, h.table.absent.mp hm b hb⟩)
      (h.ring _ hlt).forward 1
    rw [run_leave (hend _ _)] at hskip
    refine ⟨this, bucket, run_returns hskip, ?_, fun _ => id⟩
    rwa [Call.apply, ← hm, Function.update_eq_self]
  · obtain ⟨us, a, vs, hsplit, rfl, _, hother⟩ := h.table.split hm
    have ha : a ∈ bucket (hashAlg (this.key a)) := by simp [hsplit]
    have hforward := (h.ring _ hlt).forward
    rw [hsplit] at hforward
    obtain ⟨p, hus, hp, _⟩ := segment_append.mp hforward
    obtain ⟨this₁, hunlink, hlive, hlast, htmp, h₂⟩ := h.unlink hsplit hother
    have hus' : ∀ b ∈ us, b ∈ bucket (hashAlg (this.key a)) ∧ this.key b ≠ this.key a :=
      fun b hb => ⟨by simp [hsplit, hb], hother b (by simp [hb])⟩
    have hskip := fun fuel => h.run_delTurn hlt hus' hus fuel
    generalize hi : hashAlg (this.key a) = i at hlt ha hlast htmp h₂ hskip hend ⊢
    have hring := h₂.ring i hlt
    rw [Function.update_self] at hring
    -- The rest of the list is the same in the memory without the node.
    have hvs : Segment ListHead.node ((this₁.free a).next ∘ ListHead.node)
        (this.next (.node a)) vs (.parr i) := hlast ▸ hring.forward.append
    have hvs' : ∀ b ∈ vs, b ∈ Function.update bucket i (us ++ vs) i ∧
        (this₁.free a).key b ≠ this.key a := by
      intro b hb
      have hmem : b ∈ Function.update bucket i (us ++ vs) i := by simp [hb]
      exact ⟨hmem, h₂.table.absent.mp (Function.update_self ..) b (hi ▸ hmem)⟩
    have htmp' : this.next (.node a) ∈ cells (Function.update bucket i (us ++ vs)) i := by
      rw [cells, Function.update_self, List.map_append]
      rcases List.mem_cons.mp htmp with he | hmem
      · rw [he]
        exact List.mem_cons_self
      · exact List.mem_cons_of_mem _ (List.mem_append_right _ hmem)
    have hturn : Hash.delTurn (this.key a) (.parr i) (this, .node a, this.next (.node a)) =
        some (.again (this₁.free a, this.next (.node a),
          (this₁.free a).next (this.next (.node a)))) := by
      simp [Hash.delTurn, entry_eq (h.live i a ha), CString.strcmp_eq_zero, hunlink,
        readNext_eq (h₂.valid hlt htmp')]
    refine ⟨this₁.free a, Function.update bucket i (us ++ vs),
      run_returns (?_ : run _ (1 + vs.length + 1 + us.length) _ = _), h₂, fun b hb => ?_⟩
    · rw [hskip, hp, run_again hturn, h₂.run_delTurn hlt hvs' hvs 1]
      exact run_leave (hend _ _) 0
    · simp only [Hash.free, hlive, Function.update_apply] at hb
      split_ifs at hb
      exact hb

omit [DecidableEq α] in
theorem Holds.inBucket_iff (h : Holds this bucket m) (hi : i < arrSize) :
    InBucket this i a ↔ a ∈ bucket i := by
  constructor
  · intro ha
    induction ha with
    | first hnext =>
        have hmem := h.next_mem hi head_mem
        rw [hnext] at hmem
        exact mem_of_node_mem hmem
    | next _ hnext ih =>
        have hmem := h.next_mem hi (node_mem ih)
        rw [hnext] at hmem
        exact mem_of_node_mem hmem
  · exact (h.ring i hi).forward.forall_mem (fun _ => .first) (fun _ _ => .next) a

theorem Reached.holds_of {P : List Call → Prop}
    (htail : ∀ {call calls}, P (call :: calls) → P calls)
    (hbuild : ∀ {key content calls}, P (.build key content :: calls) → key.strlen < nameLen ∧
      ∀ v, reference (.build key content :: calls) key = some v → v.strlen < contLen)
    {calls : List Call} (h : Reached calls this) (hp : P calls) :
    ∃ bucket, Holds this bucket (reference calls) := by
  induction h with
  | @init this₀ _ hinit =>
      obtain ⟨this', hinit', -, hholds⟩ := init_holds this₀
      cases hinit.symm.trans hinit'
      exact ⟨_, hholds⟩
  | build node _ hlive hret ih =>
      obtain ⟨bucket, hholds⟩ := ih (htail hp)
      obtain ⟨hkey, hfit⟩ := hbuild hp
      obtain ⟨this', bucket', hret', hholds', -⟩ := hholds.build hkey hfit hlive
      exact ⟨bucket', hret.unique hret' ▸ hholds'⟩
  | del _ hret ih =>
      obtain ⟨bucket, hholds⟩ := ih (htail hp)
      obtain ⟨this', bucket', hret', hholds', -⟩ := hholds.del _
      exact ⟨bucket', hret.unique hret' ▸ hholds'⟩

theorem Reached.holds {calls : List Call} (h : Reached calls this) (hfit : Fits calls) :
    ∃ bucket, Holds this bucket (reference calls) :=
  h.holds_of (P := Fits) (fun hp => hp.2.2) (fun hp => ⟨hp.1, fun v hv => hp.2.1 _ v hv⟩) hfit

theorem Holds.answers (h : Holds this bucket m) :
    Answers (fun i a => i < arrSize ∧ InBucket this i a) this.key this.content
      (fun fuel k => this.search fuel k) m :=
  answers_of_chained h.table (fun _ hi _ => h.inBucket_iff hi) h.search

end

end EmbeddedCode.HashTable.HashList
