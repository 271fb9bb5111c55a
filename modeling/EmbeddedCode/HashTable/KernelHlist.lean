import EmbeddedCode.HashTable.Reference
import EmbeddedCode.Library.TwoWayList

/-!
# The table with `pprev` lists

`02kernel_hlist/hlist.c` and `list.h`. A node knows the cell that refers to it, the
member `first` of a head or the member `next` of another node. Its strings are in
blocks of their own. As for the other table, a computation without a result stands for
an invalid access, a copy beyond the end of a block, or fuel that is spent.
-/
namespace EmbeddedCode.HashTable.KernelHlist

open LinkedList Chaining Loop

/-- What a `struct hlist_node **` points to. -/
inductive Cell (α : Type) where
  | first (i : ℕ)
  | next (a : α)
  deriving DecidableEq, Repr

/-- The nodes have addresses of type `α` and the strings of type `β`. -/
structure Hlist (α β : Type) where
  arrSize : UInt64
  live : α → Bool
  key : α → β
  content : α → β
  /-- The pointers `first` of the heads in `parr` and `next` of the nodes. -/
  cell : Cell α → Option α
  pprev : α → Option (Cell α)
  /-- The sizes of the blocks that are allocated. -/
  size : β → Option ℕ
  text : β → CString

section
variable {α β : Type} [DecidableEq α] [DecidableEq β]

namespace Hlist

def hlistAlg (this : Hlist α β) (key : CString) : ℕ := hashMod this.arrSize key

def valid (this : Hlist α β) : Cell α → Bool
  | .first i => decide (i < this.arrSize.toNat)
  | .next a => this.live a

def readCell (this : Hlist α β) (c : Cell α) : Option (Option α) :=
  if this.valid c then some (this.cell c) else none

def writeCell (this : Hlist α β) (c : Cell α) (p : Option α) : Option (Hlist α β) :=
  if this.valid c then some {this with cell := Function.update this.cell c p} else none

def readPprev (this : Hlist α β) (node : α) : Option (Option (Cell α)) :=
  if this.live node then some (this.pprev node) else none

def writePprev (this : Hlist α β) (node : α) (c : Option (Cell α)) : Option (Hlist α β) :=
  if this.live node then some {this with pprev := Function.update this.pprev node c} else none

/-- The string behind the member `key` of a node. -/
def readKey (this : Hlist α β) (node : α) : Option CString :=
  if this.live node ∧ (this.size (this.key node)).isSome then some (this.text (this.key node))
  else none

/-- The string behind the member `content` of a node. -/
def readContent (this : Hlist α β) (node : α) : Option CString :=
  if this.live node ∧ (this.size (this.content node)).isSome then
    some (this.text (this.content node))
  else none

/-- `malloc` of a block for a string, at an address that nothing occupies. -/
def mallocText (this : Hlist α β) (block : β) (size : ℕ) : Option (Hlist α β) :=
  if (this.size block).isSome then none
  else some {this with size := Function.update this.size block (some size)}

def freeText (this : Hlist α β) (block : β) : Option (Hlist α β) :=
  if (this.size block).isSome then
    some {this with size := Function.update this.size block none}
  else none

def strcpy (this : Hlist α β) (block : β) (s : CString) : Option (Hlist α β) := do
  let size ← this.size block
  let s ← s.strcpy size
  some {this with text := Function.update this.text block s}

def strcat (this : Hlist α β) (block : β) (s : CString) : Option (Hlist α β) := do
  let size ← this.size block
  let s ← (this.text block).strcat size s
  some {this with text := Function.update this.text block s}

def listAdd (this : Hlist α β) (head : Cell α) (node : α) : Option (Hlist α β) := do
  let first ← this.readCell head
  let this ← this.writeCell (.next node) first
  let this ← this.writeCell head (some node)
  let this ← this.writePprev node (some head)
  match ← this.readCell (.next node) with
  | none => some this
  | some next => this.writePprev next (some (.next node))

def listDel (this : Hlist α β) (node : α) : Option (Hlist α β) := do
  let pprev ← this.readPprev node
  let next ← this.readCell (.next node)
  let this ← this.writeCell (← pprev) next
  let this ← match ← this.readCell (.next node) with
    | none => some this
    | some next => do
        let pprev ← this.readPprev node
        this.writePprev next pprev
  let this ← this.writeCell (.next node) none
  this.writePprev node none

def init (this : Hlist α β) : Option (Hlist α β) :=
  let this := {this with arrSize := 3}
  (List.range this.arrSize.toNat).foldlM (fun this i => this.writeCell (.first i) none) this

def newNode (this : Hlist α β) (key content : CString) (node : α) (keyBlock contentBlock : β) :
    Option (Hlist α β) :=
  if this.live node then none
  else do
    let this := {this with live := Function.update this.live node true}
    let this ← this.mallocText keyBlock nameLen
    let this := {this with key := Function.update this.key node keyBlock}
    let this ← this.strcpy keyBlock key
    let this ← this.mallocText contentBlock contLen
    let this := {this with content := Function.update this.content node contentBlock}
    this.strcpy contentBlock content

def free (this : Hlist α β) (node : α) : Option (Hlist α β) := do
  let this ← this.freeText (this.key node)
  let this ← this.freeText (this.content node)
  some {this with live := Function.update this.live node false}

/-- `hlist_for_each` in `build_list`, up to the node with the same key. -/
def buildTurn (this : Hlist α β) (key : CString) :
    Option α → Option (Turn (Option α) (Option α))
  | none => some (.leave none)
  | some cur => do
      let text ← this.readKey cur
      if key.strcmp text = 0 then some (.leave (some cur))
      else do
        let next ← this.readCell (.next cur)
        some (.again next)

/-- The node with the same key keeps its content or gets the new one appended. -/
def merge (this : Hlist α β) (pnode : α) (content : CString) : Option (Hlist α β) := do
  let text ← this.readContent pnode
  if content.strcmp text = 0 then some this
  else this.strcat (this.content pnode) content

def build (fuel : ℕ) (this : Hlist α β) (key content : CString) (node : α)
    (keyBlock contentBlock : β) : Option (Hlist α β) := do
  let head := Cell.first (this.hlistAlg key)
  let cur ← this.readCell head
  match ← run (this.buildTurn key) fuel cur with
  | some pnode => this.merge pnode content
  | none => do
      let this ← this.newNode key content node keyBlock contentBlock
      this.listAdd head node

/-- `hlist_for_each_entry_safe` in `del_node`. The successor is read before the node is freed. -/
def delTurn (key : CString) :
    Hlist α β × Option α → Option (Turn (Hlist α β × Option α) (Hlist α β))
  | (this, none) => some (.leave this)
  | (this, some cur) => do
      let tmp ← this.readCell (.next cur)
      let text ← this.readKey cur
      let this ← if text.strcmp key = 0 then do
          let this ← this.listDel cur
          this.free cur
        else some this
      some (.again (this, tmp))

def del (fuel : ℕ) (this : Hlist α β) (key : CString) : Option (Hlist α β) := do
  let cur ← this.readCell (.first (this.hlistAlg key))
  run (delTurn key) fuel (this, cur)

/-- `hlist_for_each_safe` in `search`. -/
def searchTurn (this : Hlist α β) (key : CString) :
    Option α → Option (Turn (Option α) (Option α))
  | none => some (.leave none)
  | some cur => do
      let tmp ← this.readCell (.next cur)
      let text ← this.readKey cur
      if text.strcmp key = 0 then some (.leave (some cur)) else some (.again tmp)

def search (fuel : ℕ) (this : Hlist α β) (key : CString) : Option (Option α) := do
  let cur ← this.readCell (.first (this.hlistAlg key))
  run (this.searchTurn key) fuel cur

end Hlist

end

variable {α β : Type}

/-- The nodes that the pointers lead to from the head of a list. -/
inductive InBucket (this : Hlist α β) (i : ℕ) : α → Prop
  | first {a : α} : this.cell (.first i) = some a → InBucket this i a
  | next {a b : α} : InBucket this i a → this.cell (.next a) = some b → InBucket this i b

/-- The tables after some calls, of which the last comes first in the list. -/
inductive Reached [DecidableEq α] [DecidableEq β] : List Call → Hlist α β → Prop
  | init {this this' : Hlist α β} : this.init = some this' → Reached [] this'
  | build {calls : List Call} {this this' : Hlist α β} {key content : CString} (node : α)
      (keyBlock contentBlock : β) : Reached calls this → this.live node = false →
      this.size keyBlock = none → this.size contentBlock = none → keyBlock ≠ contentBlock →
      Returns (fun fuel => this.build fuel key content node keyBlock contentBlock) this' →
      Reached (.build key content :: calls) this'
  | del {calls : List Call} {this this' : Hlist α β} {key : CString} : Reached calls this →
      Returns (fun fuel => this.del fuel key) this' → Reached (.del key :: calls) this'

/-- The invariant: the heads have lists of allocated nodes with blocks of their own, which
stand for the map. -/
structure Holds (this : Hlist α β) (bucket : ℕ → List α) (m : CString → Option CString) : Prop where
  arr : this.arrSize = 3
  list : ∀ i < arrSize, OwnedList Cell.next this.cell this.pprev (.first i) (bucket i)
  live : ∀ i, ∀ a ∈ bucket i, this.live a = true
  keySize : ∀ i, ∀ a ∈ bucket i, this.size (this.key a) = some nameLen
  contentSize : ∀ i, ∀ a ∈ bucket i, this.size (this.content a) = some contLen
  contentOwn : ∀ i j, ∀ a ∈ bucket i, ∀ b ∈ bucket j, this.content a = this.content b → a = b
  keyOwn : ∀ i j, ∀ a ∈ bucket i, ∀ b ∈ bucket j, this.key a = this.key b → a = b
  table : Chained hashAlg bucket (fun a => this.text (this.key a))
    (fun a => this.text (this.content a)) m

section
variable {this this' : Hlist α β} {bucket : ℕ → List α} {m : CString → Option CString}
  {c : Cell α} {i : ℕ} {k : CString} {a : α} {b : β}

theorem readCell_eq (hc : this.valid c = true) : this.readCell c = some (this.cell c) := if_pos hc

@[simp] theorem valid_mk (key content : α → β) (cell : Cell α → Option α)
    (pprev : α → Option (Cell α)) (size : β → Option ℕ) (text : β → CString) :
    Hlist.valid ⟨this.arrSize, this.live, key, content, cell, pprev, size, text⟩ c =
      this.valid c := by
  cases c <;> rfl

def cells (bucket : ℕ → List α) (i : ℕ) : List (Cell α) := .first i :: (bucket i).map .next

theorem head_mem : Cell.first i ∈ cells bucket i := List.mem_cons_self

theorem next_mem (ha : a ∈ bucket i) : Cell.next a ∈ cells bucket i :=
  List.mem_cons_of_mem _ (List.mem_map_of_mem ha)

theorem mem_of_next_mem (ha : Cell.next a ∈ cells bucket i) : a ∈ bucket i := by
  simpa [cells] using ha

namespace Holds

theorem valid (h : Holds this bucket m) (hi : i < arrSize) (hc : c ∈ cells bucket i) :
    this.valid c = true := by
  rcases List.mem_cons.mp hc with rfl | hc
  · simp only [Hlist.valid, h.arr]
    exact decide_eq_true hi
  · obtain ⟨a, ha, rfl⟩ := List.mem_map.mp hc
    exact h.live i a ha

theorem mem_of_cell (h : Holds this bucket m) (hi : i < arrSize) (hc : c ∈ cells bucket i)
    (ha : this.cell c = some a) : a ∈ bucket i := (h.list i hi).forward.mem_of_some hc ha

/-- Two lists of the table have no cell in common. -/
theorem cells_disjoint (h : Holds this bucket m) {j : ℕ} (hi : c ∈ cells bucket i)
    (hj : c ∈ cells bucket j) : i = j := by
  cases c with
  | first _ => simp_all [cells]
  | next a =>
    rw [← h.table.placed i a (mem_of_next_mem hi), h.table.placed j a (mem_of_next_mem hj)]

theorem hlistAlg_eq (h : Holds this bucket m) (k : CString) : this.hlistAlg k = hashAlg k := by
  rw [Hlist.hlistAlg, h.arr, hashAlg]

theorem readKey_eq (h : Holds this bucket m) (ha : a ∈ bucket i) :
    this.readKey a = some (this.text (this.key a)) :=
  if_pos ⟨h.live i a ha, by rw [h.keySize i a ha, Option.isSome_some]⟩

theorem readContent_eq (h : Holds this bucket m) (ha : a ∈ bucket i) :
    this.readContent a = some (this.text (this.content a)) :=
  if_pos ⟨h.live i a ha, by rw [h.contentSize i a ha, Option.isSome_some]⟩

/-- The blocks for keys and for contents have different sizes. -/
theorem key_ne_content (h : Holds this bucket m) {j : ℕ} {a' : α} (ha : a ∈ bucket i)
    (ha' : a' ∈ bucket j) : this.key a ≠ this.content a' := by
  intro heq
  have hsize := h.keySize i a ha
  rw [heq, h.contentSize j a' ha'] at hsize
  cases hsize

end Holds

theorem Holds.build_find (h : Holds this bucket m) (k : CString) :
    (m k = none ∧
        Returns (fun fuel => run (this.buildTurn k) fuel (this.cell (.first (hashAlg k)))) none) ∨
      ∃ a ∈ bucket (hashAlg k), this.text (this.key a) = k ∧
        m k = some (this.text (this.content a)) ∧
        Returns (fun fuel => run (this.buildTurn k) fuel (this.cell (.first (hashAlg k))))
          (some a) := by
  have hlt := hashAlg_lt k
  apply h.table.find id _ (h.list _ hlt).forward
  · intro a ha hak
    have hstrcmp : k.strcmp (this.text (this.key a)) ≠ 0 :=
      fun he => hak (CString.strcmp_eq_zero.mp he).symm
    simp [Hlist.buildTurn, h.readKey_eq ha, hstrcmp, readCell_eq (h.valid hlt (next_mem ha))]
  · intro a ha hak
    have hstrcmp : k.strcmp (this.text (this.key a)) = 0 := CString.strcmp_eq_zero.mpr hak.symm
    simp [Hlist.buildTurn, h.readKey_eq ha, hstrcmp]
  · simp [Hlist.buildTurn]

theorem Holds.search (h : Holds this bucket m) (k : CString) :
    ∃ r, Returns (fun fuel => this.search fuel k) r ∧
      r.map (fun a => this.text (this.content a)) = m k ∧
      ∀ a ∈ r, a ∈ bucket (hashAlg k) ∧ this.text (this.key a) = k := by
  have hlt := hashAlg_lt k
  simp only [Hlist.search, h.hlistAlg_eq, readCell_eq (h.valid hlt head_mem), Option.bind_eq_bind,
    Option.bind_some]
  have hfind := h.table.find (k := k) id (this.searchTurn k) (h.list _ hlt).forward
    (by
      intro a ha hak
      have hstrcmp : (this.text (this.key a)).strcmp k ≠ 0 :=
        fun he => hak (CString.strcmp_eq_zero.mp he)
      simp [Hlist.searchTurn, h.readKey_eq ha, hstrcmp, readCell_eq (h.valid hlt (next_mem ha))])
    (by
      intro a ha hak
      have hstrcmp : (this.text (this.key a)).strcmp k = 0 := CString.strcmp_eq_zero.mpr hak
      simp [Hlist.searchTurn, h.readKey_eq ha, hstrcmp, readCell_eq (h.valid hlt (next_mem ha))])
    (by simp [Hlist.searchTurn])
  rcases hfind with ⟨hm, hfind⟩ | ⟨a, ha, hak, hm, hfind⟩
  · exact ⟨none, hfind, by simp [hm], by simp⟩
  · refine ⟨some a, hfind, by simp [hm], ?_⟩
    rintro b ⟨⟩
    exact ⟨ha, hak⟩

variable [DecidableEq α]

theorem listAdd_eq (hhead : this.valid c = true) (ha : this.live a = true) (hne : c ≠ .next a)
    (hfirst : ∀ b, this.cell c = some b → this.live b = true) :
    this.listAdd c a = some {this with
      cell := Function.update (Function.update this.cell (.next a) (this.cell c)) c (some a)
      pprev := setOwner (Function.update this.pprev a (some c)) (this.cell c)
        (some (.next a))} := by
  have hnext : this.valid (.next a) = true := ha
  cases hc : this.cell c with
  | none =>
      simp [Hlist.listAdd, Hlist.readCell, Hlist.writeCell, Hlist.writePprev, hhead, hnext, ha, hc,
        hne.symm, setOwner]
  | some b =>
      simp [Hlist.listAdd, Hlist.readCell, Hlist.writeCell, Hlist.writePprev, hhead, hnext, ha, hc,
        hne.symm, setOwner, hfirst b hc]

theorem listDel_eq (ha : this.live a = true) (hpprev : this.pprev a = some c)
    (hc : this.valid c = true) (hne : c ≠ .next a)
    (hnext : ∀ b, this.cell (.next a) = some b → this.live b = true) :
    this.listDel a = some {this with
      cell := Function.update (Function.update this.cell c (this.cell (.next a))) (.next a) none
      pprev := Function.update (setOwner this.pprev (this.cell (.next a)) (some c)) a none} := by
  have hvalid : this.valid (.next a) = true := ha
  cases hb : this.cell (.next a) with
  | none =>
      simp [Hlist.listDel, Hlist.readCell, Hlist.writeCell, Hlist.readPprev, Hlist.writePprev,
        hvalid, ha, hc, hpprev, hb, hne.symm, setOwner]
  | some b =>
      simp [Hlist.listDel, Hlist.readCell, Hlist.writeCell, Hlist.readPprev, Hlist.writePprev,
        hvalid, ha, hc, hpprev, hb, hne.symm, setOwner, hnext b hb]

/-- A node that is allocated but not in the table, with blocks of its own and a key that is not
there yet, is linked behind the head of its list. -/
theorem Holds.link (h : Holds this bucket m) (ha : this.live a = true) (hout : ∀ i, a ∉ bucket i)
    (hk : m (this.text (this.key a)) = none) (hkeySize : this.size (this.key a) = some nameLen)
    (hcontentSize : this.size (this.content a) = some contLen)
    (hown : ∀ i, ∀ b ∈ bucket i, this.key b ≠ this.key a ∧ this.content b ≠ this.content a) :
    ∃ this' bucket', this.listAdd (.first (hashAlg (this.text (this.key a)))) a = some this' ∧
      Holds this' bucket' (Function.update m (this.text (this.key a))
        (some (this.text (this.content a)))) := by
  have hlt := hashAlg_lt (this.text (this.key a))
  have htable := h.table.insert (v := this.text (this.content a)) hout hk
  generalize hashAlg (this.text (this.key a)) = i at hlt htable ⊢
  have hnext : ∀ j, Cell.next a ∉ cells bucket j := fun j hj => hout j (mem_of_next_mem hj)
  refine ⟨_, Function.update bucket i (a :: bucket i), listAdd_eq (h.valid hlt head_mem) ha
    (by simp) (fun b hb => h.live i b (h.mem_of_cell hlt head_mem hb)), h.arr, ?_, ?_, ?_, ?_, ?_,
    ?_, ?_⟩
  · intro j hj
    rcases eq_or_ne j i with hji | hji
    · rw [hji, Function.update_self]
      exact (h.list i hlt).insert (hnext i)
    · rw [Function.update_of_ne hji]
      apply (h.list j hj).congr
      · intro c hc
        have hfirst : c ≠ .first i := fun heq => hji (h.cells_disjoint hc (heq ▸ head_mem))
        have hself : c ≠ .next a := ne_of_mem_of_not_mem hc (hnext j)
        simp [hfirst, hself]
      · intro b hb
        have hself : b ≠ a := ne_of_mem_of_not_mem hb (hout j)
        refine (setOwner_of_ne (fun hfirst => ?_) _).trans (Function.update_of_ne hself _ _)
        have hbi := h.mem_of_cell hlt head_mem hfirst
        exact hji (h.cells_disjoint (next_mem hb) (next_mem hbi))
  · exact Chained.forall_insert ha h.live
  · exact Chained.forall_insert hkeySize h.keySize
  · exact Chained.forall_insert hcontentSize h.contentSize
  · exact Chained.own_insert (fun j b hb => (hown j b hb).2) h.contentOwn
  · exact Chained.own_insert (fun j b hb => (hown j b hb).1) h.keyOwn
  · have hkey := Function.update_eq_self a fun a => this.text (this.key a)
    have hcontent := Function.update_eq_self a fun a => this.text (this.content a)
    rwa [hkey, hcontent] at htable

theorem Holds.listDel (h : Holds this bucket m) {us vs : List α}
    (hb : bucket (hashAlg (this.text (this.key a))) = us ++ a :: vs)
    (hother : ∀ b ∈ us ++ vs, this.text (this.key b) ≠ this.text (this.key a)) :
    ∃ cell pprev, this.listDel a = some {this with
        cell := cell
        pprev := pprev} ∧
      cell (lastCell .next (.first (hashAlg (this.text (this.key a)))) us) =
        this.cell (.next a) ∧
      Holds {this with
        cell := cell
        pprev := pprev} (Function.update bucket (hashAlg (this.text (this.key a))) (us ++ vs))
        (Function.update m (this.text (this.key a)) none) := by
  have hlt := hashAlg_lt (this.text (this.key a))
  have hlist := h.list _ hlt
  have htable := h.table.erase hb rfl hother
  generalize hashAlg (this.text (this.key a)) = i at hlt hlist hb htable ⊢
  have ha : a ∈ bucket i := by simp [hb]
  rw [hb] at hlist
  have hgone : a ∉ us ++ vs := fun hmem => hother a hmem rfl
  have hne : lastCell Cell.next (.first i) us ≠ .next a := lastCell_ne_node hlist.distinct
  have hlast : lastCell Cell.next (.first i) us ∈ cells bucket i := by
    rw [cells, hb, List.map_append]
    exact List.mem_append_left _ (lastCell_mem Cell.next (.first i) us)
  have hmem : ∀ {j b}, b ∈ Function.update bucket i (us ++ vs) j → b ∈ bucket j :=
    Chained.mem_of_mem_erase hb
  refine ⟨_, _, listDel_eq (h.live i a ha) hlist.owner_eq (h.valid hlt hlast) hne
    (fun b hb' => h.live i b (h.mem_of_cell hlt (next_mem ha) hb')), ?_, h.arr, ?_, ?_, ?_, ?_, ?_,
    ?_, htable⟩
  · rw [Function.update_of_ne hne, Function.update_self]
  · intro j hj
    rcases eq_or_ne j i with hji | hji
    · rw [hji, Function.update_self]
      apply hlist.erase.congr
      · intro c hc
        exact Function.update_of_ne (ne_of_mem_of_not_mem hc (by simpa using hgone)) _ _
      · intro b hb'
        exact Function.update_of_ne (ne_of_mem_of_not_mem hb' hgone) _ _
    · rw [Function.update_of_ne hji]
      have hcell : ∀ c ∈ cells bucket j, ∀ c' ∈ cells bucket i, c ≠ c' := by
        intro c hc c' hc' heq
        exact hji (h.cells_disjoint hc (heq ▸ hc'))
      apply (h.list j hj).congr
      · intro c hc
        simp [hcell c hc _ (next_mem ha), hcell c hc _ hlast]
      · intro b hb'
        have hnode : ∀ {b'}, b' ∈ bucket i → b ≠ b' := by
          rintro b' hmem' rfl
          exact hcell _ (next_mem hb') _ (next_mem hmem') rfl
        refine (Function.update_of_ne (hnode ha) _ _).trans (setOwner_of_ne (fun hsucc => ?_) _)
        exact hnode (h.mem_of_cell hlt (next_mem ha) hsucc) rfl
  · exact fun j b hbj => h.live j b (hmem hbj)
  · exact fun j b hbj => h.keySize j b (hmem hbj)
  · exact fun j b hbj => h.contentSize j b (hmem hbj)
  · exact fun j j' b hbj b' hbj' => h.contentOwn j j' b (hmem hbj) b' (hmem hbj')
  · exact fun j j' b hbj b' hbj' => h.keyOwn j j' b (hmem hbj) b' (hmem hbj')

/-- The heads before the one that is next have no node. -/
theorem foldlM_writeCell (this : Hlist α β) (n : ℕ) (hn : n ≤ this.arrSize.toNat) :
    ∃ cell, (List.range n).foldlM (fun this i => this.writeCell (.first i) none) this =
      some {this with cell := cell} ∧ ∀ i < n, cell (.first i) = none := by
  induction n with
  | zero => exact ⟨this.cell, rfl, by simp⟩
  | succ n ih =>
      obtain ⟨cell, hrun, hinit⟩ := ih (by omega)
      have hvalid : this.valid (.first n) = true := decide_eq_true hn
      refine ⟨Function.update cell (.first n) none, ?_, fun i hi => ?_⟩
      · have hwrite : ({this with cell := cell} : Hlist α β).writeCell (.first n) none =
            some {this with cell := Function.update cell (.first n) none} := if_pos hvalid
        simp [List.range_succ, hrun, hwrite]
      · rcases Nat.lt_succ_iff_lt_or_eq.mp hi with hlt | rfl
        · have hne : Cell.first (α := α) i ≠ .first n := by
            rintro ⟨⟩
            exact Nat.lt_irrefl _ hlt
          rw [Function.update_of_ne hne, hinit i hlt]
        · exact Function.update_self ..

theorem init_holds (this : Hlist α β) : ∃ this', this.init = some this' ∧
    Holds this' (fun _ => []) (fun _ => none) := by
  obtain ⟨cell, hrun, hinit⟩ := foldlM_writeCell {this with arrSize := 3} arrSize (Nat.le_refl _)
  refine ⟨_, hrun, rfl, fun i hi => ?_, by simp, by simp, by simp, by simp, by simp, Chained.empty⟩
  exact ⟨List.nodup_singleton _, hinit i hi, trivial⟩

variable [DecidableEq β]

theorem newNode_eq {key content : CString} {keyBlock contentBlock : β}
    (hkey : key.strlen < nameLen) (hcontent : content.strlen < contLen)
    (ha : this.live a = false) (hkb : this.size keyBlock = none)
    (hcb : this.size contentBlock = none) (hne : keyBlock ≠ contentBlock) :
    this.newNode key content a keyBlock contentBlock = some {this with
      live := Function.update this.live a true
      key := Function.update this.key a keyBlock
      content := Function.update this.content a contentBlock
      size := Function.update (Function.update this.size keyBlock (some nameLen)) contentBlock
        (some contLen)
      text := Function.update (Function.update this.text keyBlock key) contentBlock content} := by
  simp [Hlist.newNode, Hlist.mallocText, Hlist.strcpy, ha, hkb, hcb, hne.symm,
    CString.strcpy_eq hkey, CString.strcpy_eq hcontent]

theorem Holds.newNode (h : Holds this bucket m) {key content : CString} {keyBlock contentBlock : β}
    (hkey : key.strlen < nameLen) (hcontent : content.strlen < contLen)
    (ha : this.live a = false) (hkb : this.size keyBlock = none)
    (hcb : this.size contentBlock = none) (hne : keyBlock ≠ contentBlock) :
    ∃ this', this.newNode key content a keyBlock contentBlock = some this' ∧
      Holds this' bucket m ∧ this'.live a = true ∧ (∀ i, a ∉ bucket i) ∧
      this'.text (this'.key a) = key ∧ this'.text (this'.content a) = content ∧
      this'.size (this'.key a) = some nameLen ∧ this'.size (this'.content a) = some contLen ∧
      ∀ i, ∀ b ∈ bucket i, this'.key b ≠ this'.key a ∧ this'.content b ≠ this'.content a := by
  have hnode : ∀ {i b}, b ∈ bucket i → b ≠ a := by
    rintro i b hb rfl
    rw [h.live i b hb] at ha
    cases ha
  have hused : ∀ {x s}, this.size x = some s → x ≠ keyBlock ∧ x ≠ contentBlock := by
    intro x s hx
    refine ⟨fun he => ?_, fun he => ?_⟩
    · rw [he, hkb] at hx
      cases hx
    · rw [he, hcb] at hx
      cases hx
  have hkey' : ∀ {i b}, b ∈ bucket i → Function.update this.key a keyBlock b = this.key b :=
    fun hb => Function.update_of_ne (hnode hb) _ _
  have hcontent' : ∀ {i b}, b ∈ bucket i →
      Function.update this.content a contentBlock b = this.content b :=
    fun hb => Function.update_of_ne (hnode hb) _ _
  have hsize : ∀ {x s}, this.size x = some s → Function.update (Function.update this.size keyBlock
      (some nameLen)) contentBlock (some contLen) x = some s := by
    intro x s hx
    rw [Function.update_of_ne (hused hx).2, Function.update_of_ne (hused hx).1, hx]
  have htext : ∀ {x s}, this.size x = some s → Function.update (Function.update this.text keyBlock
      key) contentBlock content x = this.text x := by
    intro x s hx
    rw [Function.update_of_ne (hused hx).2, Function.update_of_ne (hused hx).1]
  refine ⟨_, newNode_eq hkey hcontent ha hkb hcb hne, ?_, Function.update_self ..,
    fun i hi => hnode hi rfl, ?_, ?_, ?_, ?_, fun i b hb => ?_⟩
  · refine ⟨h.arr, h.list, fun i b hb => ?_, fun i b hb => ?_, fun i b hb => ?_,
      fun i j b hb b' hb' heq => ?_, fun i j b hb b' hb' heq => ?_, ?_⟩
    · exact (Function.update_of_ne (hnode hb) _ _).trans (h.live i b hb)
    · simp only [hkey' hb]
      exact hsize (h.keySize i b hb)
    · simp only [hcontent' hb]
      exact hsize (h.contentSize i b hb)
    · simp only [hcontent' hb, hcontent' hb'] at heq
      exact h.contentOwn i j b hb b' hb' heq
    · simp only [hkey' hb, hkey' hb'] at heq
      exact h.keyOwn i j b hb b' hb' heq
    · apply h.table.congr
      · intro i b hb
        simp only [hkey' hb]
        exact htext (h.keySize i b hb)
      · intro i b hb
        simp only [hcontent' hb]
        exact htext (h.contentSize i b hb)
  · simp [hne]
  · simp
  · simp [hne]
  · simp
  · simp only [hkey' hb, hcontent' hb, Function.update_self]
    exact ⟨(hused (h.keySize i b hb)).1, (hused (h.contentSize i b hb)).2⟩

theorem Holds.merge (h : Holds this bucket m) (ha : a ∈ bucket (hashAlg k))
    (hak : this.text (this.key a) = k) (hm : m k = some (this.text (this.content a)))
    {content : CString}
    (hfit : ∀ v, (Call.build k content).apply m k = some v → v.strlen < contLen) :
    ∃ this', this.merge a content = some this' ∧
      Holds this' bucket ((Call.build k content).apply m) := by
  simp only [Call.apply, hm] at hfit ⊢
  by_cases hc : content = this.text (this.content a)
  · refine ⟨this, by simp [Hlist.merge, h.readContent_eq ha, CString.strcmp_eq_zero, hc], ?_⟩
    rwa [if_pos hc, ← hm, Function.update_eq_self]
  · rw [if_neg hc] at hfit ⊢
    have hstrcat := CString.strcat_eq (hfit _ (Function.update_self ..))
    have hmerge : this.merge a content = some {this with
        text := Function.update this.text (this.content a)
          ((this.text (this.content a)).append content)} := by
      simp [Hlist.merge, Hlist.strcat, h.readContent_eq ha, CString.strcmp_eq_zero, hc, hstrcat,
        h.contentSize _ a ha]
    refine ⟨_, hmerge, h.arr, h.list, h.live, h.keySize, h.contentSize, h.contentOwn, h.keyOwn, ?_⟩
    apply (h.table.modify ha hak).congr
    · intro i b hb
      exact Function.update_of_ne (h.key_ne_content hb ha) _ _
    · intro i b hb
      simp only [Function.update_apply]
      by_cases hba : b = a
      · simp [hba]
      · have hne : this.content b ≠ this.content a := fun he => hba (h.contentOwn _ _ b hb a ha he)
        simp [hba, hne]

omit [DecidableEq α] [DecidableEq β] in
/-- Blocks of different sizes are different. -/
theorem ne_of_size {b b' : β} (hb : this.size b = some nameLen)
    (hb' : this.size b' = some contLen) : b ≠ b' := by
  rintro rfl
  cases hb.symm.trans hb'

theorem Holds.free (h : Holds this bucket m) (hout : ∀ i, a ∉ bucket i)
    (hkeySize : this.size (this.key a) = some nameLen)
    (hcontentSize : this.size (this.content a) = some contLen)
    (hown : ∀ i, ∀ b ∈ bucket i, this.key b ≠ this.key a ∧ this.content b ≠ this.content a) :
    ∃ live size, this.free a = some {this with
        live := live
        size := size} ∧
      Holds {this with
        live := live
        size := size} bucket m := by
  have hne := ne_of_size hkeySize hcontentSize
  have hfree : this.free a = some {this with
      live := Function.update this.live a false
      size := Function.update (Function.update this.size (this.key a) none)
        (this.content a) none} := by
    simp [Hlist.free, Hlist.freeText, hkeySize, hcontentSize, hne.symm]
  refine ⟨_, _, hfree, h.arr, h.list, fun i b hb => ?_, fun i b hb => ?_, fun i b hb => ?_,
    h.contentOwn, h.keyOwn, h.table⟩
  · exact (Function.update_of_ne (ne_of_mem_of_not_mem hb (hout i)) _ _).trans (h.live i b hb)
  · have hkc := ne_of_size (h.keySize i b hb) hcontentSize
    simp only [Function.update_of_ne hkc, Function.update_of_ne (hown i b hb).1]
    exact h.keySize i b hb
  · have hkc := ne_of_size hkeySize (h.contentSize i b hb)
    simp only [Function.update_of_ne (hown i b hb).2, Function.update_of_ne hkc.symm]
    exact h.contentSize i b hb

theorem Holds.build (h : Holds this bucket m) {content : CString} {keyBlock contentBlock : β}
    (hkey : k.strlen < nameLen)
    (hfit : ∀ v, (Call.build k content).apply m k = some v → v.strlen < contLen)
    (ha : this.live a = false) (hkb : this.size keyBlock = none)
    (hcb : this.size contentBlock = none) (hne : keyBlock ≠ contentBlock) :
    ∃ this' bucket',
      Returns (fun fuel => this.build fuel k content a keyBlock contentBlock) this' ∧
      Holds this' bucket' ((Call.build k content).apply m) := by
  have hread := readCell_eq (h.valid (hashAlg_lt k) head_mem)
  simp only [Hlist.build, h.hlistAlg_eq, hread, Option.bind_eq_bind, Option.bind_some]
  rcases h.build_find k with ⟨hm, hfind⟩ | ⟨b, hb, hbk, hm, hfind⟩
  · have hcontent : content.strlen < contLen := by
      apply hfit
      simp [Call.apply, hm]
    obtain ⟨this₁, hnew, h₁, hlive, hout, hk, hc, hkeySize, hcontentSize, hown⟩ :=
      h.newNode hkey hcontent ha hkb hcb hne
    obtain ⟨this₂, bucket₂, hlink, h₂⟩ :=
      h₁.link hlive hout (hk ▸ hm) hkeySize hcontentSize hown
    rw [hk] at hlink h₂
    refine ⟨this₂, bucket₂, hfind.bind (by simp [hnew, hlink]), ?_⟩
    simpa only [Call.apply, hm, hc] using h₂
  · obtain ⟨this₁, hmerge, h₁⟩ := h.merge hb hbk hm hfit
    exact ⟨this₁, bucket, hfind.bind hmerge, h₁⟩

theorem Holds.run_delTurn (h : Holds this bucket m) {i : ℕ} (hi : i < arrSize) {k : CString}
    {p q : Option α} {xs : List α} (hxs : ∀ b ∈ xs, b ∈ bucket i ∧ this.text (this.key b) ≠ k)
    (hlist : Segment some (this.cell ∘ Cell.next) p xs q) (fuel : ℕ) :
    run (Hlist.delTurn k) (fuel + xs.length) (this, p) =
      run (Hlist.delTurn k) fuel (this, q) := by
  apply hlist.run_skip fun p => (this, p)
  intro b hb
  obtain ⟨hmem, hbk⟩ := hxs b hb
  have hstrcmp : (this.text (this.key b)).strcmp k ≠ 0 := fun he =>
    hbk (CString.strcmp_eq_zero.mp he)
  simp [Hlist.delTurn, readCell_eq (h.valid hi (next_mem hmem)), h.readKey_eq hmem, hstrcmp]

theorem Holds.del (h : Holds this bucket m) (k : CString) :
    ∃ this' bucket', Returns (fun fuel => this.del fuel k) this' ∧
      Holds this' bucket' ((Call.del k).apply m) := by
  have hlt := hashAlg_lt k
  simp only [Hlist.del, h.hlistAlg_eq, readCell_eq (h.valid hlt head_mem), Option.bind_eq_bind,
    Option.bind_some]
  have hend : ∀ this : Hlist α β, Hlist.delTurn k (this, none) = some (.leave this) := fun _ => rfl
  by_cases hm : m k = none
  · have hskip := h.run_delTurn hlt (fun b hb => ⟨hb, h.table.absent.mp hm b hb⟩)
      (h.list _ hlt).forward 1
    rw [run_leave (hend _)] at hskip
    refine ⟨this, bucket, run_returns hskip, ?_⟩
    rwa [Call.apply, ← hm, Function.update_eq_self]
  · obtain ⟨us, a, vs, hsplit, rfl, _, hother⟩ := h.table.split hm
    have ha : a ∈ bucket (hashAlg (this.text (this.key a))) := by simp [hsplit]
    have hforward := (h.list _ hlt).forward
    rw [hsplit] at hforward
    obtain ⟨p, hus, hp, _⟩ := segment_append.mp hforward
    obtain ⟨cell, pprev, hdel, hlast, h₁⟩ := h.listDel hsplit hother
    have hold : ∀ {j b}, b ∈ Function.update bucket (hashAlg (this.text (this.key a)))
        (us ++ vs) j → b ∈ bucket j ∧ b ≠ a := by
      intro j b hb
      refine ⟨Chained.mem_of_mem_erase hsplit hb, ?_⟩
      rintro rfl
      exact h₁.table.key_ne (Function.update_self ..) hb rfl
    obtain ⟨live, size, hfree, h₂⟩ := h₁.free (fun j hj => (hold hj).2 rfl) (h.keySize _ a ha)
      (h.contentSize _ a ha) fun j b hb =>
        ⟨fun he => (hold hb).2 (h.keyOwn _ _ b (hold hb).1 a ha he),
          fun he => (hold hb).2 (h.contentOwn _ _ b (hold hb).1 a ha he)⟩
    have hus' : ∀ b ∈ us, b ∈ bucket (hashAlg (this.text (this.key a))) ∧
        this.text (this.key b) ≠ this.text (this.key a) :=
      fun b hb => ⟨by simp [hsplit, hb], hother b (by simp [hb])⟩
    have hskip := fun fuel => h.run_delTurn hlt hus' hus fuel
    generalize hashAlg (this.text (this.key a)) = i at hlt ha hlast h₂ hskip ⊢
    have hlist := h₂.list i hlt
    rw [Function.update_self] at hlist
    -- The rest of the list is the same in the memory without the node.
    have hvs : Segment some (cell ∘ Cell.next) (this.cell (.next a)) vs none :=
      hlast ▸ hlist.forward.append
    have hvs' : ∀ b ∈ vs, b ∈ Function.update bucket i (us ++ vs) i ∧
        this.text (this.key b) ≠ this.text (this.key a) :=
      fun b hb => ⟨by simp [hb], hother b (by simp [hb])⟩
    have hturn : Hlist.delTurn (this.text (this.key a)) (this, some a) =
        some (.again ({this with
          cell := cell
          pprev := pprev
          live := live
          size := size}, this.cell (.next a))) := by
      simp [Hlist.delTurn, readCell_eq (h.valid hlt (next_mem ha)), h.readKey_eq ha,
        CString.strcmp_eq_zero, hdel, hfree]
    refine ⟨_, _, run_returns (?_ : run _ (1 + vs.length + 1 + us.length) _ = _), h₂⟩
    rw [hskip, hp, run_again hturn, h₂.run_delTurn hlt hvs' hvs 1]
    exact run_leave (hend _) 0

omit [DecidableEq α] [DecidableEq β] in
theorem Holds.inBucket_iff (h : Holds this bucket m) (hi : i < arrSize) :
    InBucket this i a ↔ a ∈ bucket i := by
  constructor
  · intro ha
    induction ha with
    | first hfirst => exact h.mem_of_cell hi head_mem hfirst
    | next _ hnext ih => exact h.mem_of_cell hi (next_mem ih) hnext
  · exact (h.list i hi).forward.forall_mem (fun _ => .first) (fun _ _ => .next) a

theorem Reached.holds {calls : List Call} (h : Reached calls this) (hfit : Fits calls) :
    ∃ bucket, Holds this bucket (reference calls) := by
  induction h with
  | @init this₀ _ hinit =>
      obtain ⟨this', hinit', hholds⟩ := init_holds this₀
      cases hinit.symm.trans hinit'
      exact ⟨_, hholds⟩
  | build node keyBlock contentBlock _ hlive hkb hcb hne hret ih =>
      obtain ⟨bucket, hholds⟩ := ih hfit.2.2
      obtain ⟨this', bucket', hret', hholds'⟩ :=
        hholds.build hfit.1 (fun v hv => hfit.2.1 _ v hv) hlive hkb hcb hne
      exact ⟨bucket', hret.unique hret' ▸ hholds'⟩
  | del _ hret ih =>
      obtain ⟨bucket, hholds⟩ := ih hfit.2.2
      obtain ⟨this', bucket', hret', hholds'⟩ := hholds.del _
      exact ⟨bucket', hret.unique hret' ▸ hholds'⟩

omit [DecidableEq α] [DecidableEq β] in
theorem Holds.answers (h : Holds this bucket m) :
    Answers (fun i a => i < arrSize ∧ InBucket this i a) (fun a => this.text (this.key a))
      (fun a => this.text (this.content a)) (fun fuel k => this.search fuel k) m :=
  answers_of_chained h.table (fun _ hi _ => h.inBucket_iff hi) h.search

end

end EmbeddedCode.HashTable.KernelHlist
