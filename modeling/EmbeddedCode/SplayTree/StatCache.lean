import EmbeddedCode.SplayTree.Map

/-!
# The stat cache of `lighttpd-1.4.32/src/stat_cache.c`

The cache keeps what `stat` said about a file under a hash of its name, in a splay tree. This is
the code without FAM. What the file system answers is part of a request. Of an entry the model
has the name, the answer of `stat` and its time.
-/
namespace EmbeddedCode.SplayTree.StatCache

open CInt LinkedTree Loop SidedTrees Transition

variable {α S : Type} [DecidableEq α]

structure Entry (S : Type) where
  name : List UInt8
  st : S
  statTs : ℤ
  deriving DecidableEq

structure Files (α S : Type) where
  nodes : Nodes α (Entry S)
  root : Option α

/-- The arguments of `stat_cache_get_entry`, with what `stat` and `open` answer for the name. -/
structure Request (S : Type) where
  name : List UInt8
  followSymlink : Bool
  curTs : ℤ
  stat : Option S
  opened : Bool

def hashme (str : List UInt8) : UInt32 :=
  (str.takeWhile (· ≠ 0)).foldl
    (fun (hash : UInt32) s => (hash <<< 5 + hash) + s.toInt8.toInt32.toUInt32) 5381 &&&
      ~~~((1 : UInt32) <<< 31)

/-- `hash_key` is the name and the number of the flag behind it. -/
def Request.fileNdx (q : Request S) : ℤ :=
  (hashme (q.name ++ [if q.followSymlink then 49 else 48])).toNat

/-- A name that can be used now: `stat` finds it, and a regular file has no slash at its end and
can be opened. -/
def Request.usable (isReg : S → Bool) (q : Request S) : Option S := do
  let st ← q.stat
  if isReg st then
    if q.name.getLast? = some 47 then none
    else if q.opened then some st else none
  else some st

/-- The entry of this name that the simple engine has looked at in this second. -/
def seen (simple : Bool) (nodes : Nodes α (Entry S)) (found : Option α) (q : Request S) :
    Option (Entry S) := do
  let sce := nodes.data (← found)
  if q.name = sce.name ∧ simple ∧ sce.statTs = q.curTs then some sce else none

/-- The three ways in which `stat_cache_get_entry` returns: with an entry that was looked at in
this second, with `HANDLER_ERROR`, and with an entry for which the file has been looked at. -/
inductive Outcome (S : Type) where
  | seen (sce : Entry S)
  | error
  | looked (sce : Entry S)
  deriving DecidableEq

/-- The node of the entry that is found, or a new one for the name. -/
def place [Inhabited S] (N : α) (fuel : ℕ) (sc : Files α S) (found : Option α) (q : Request S)
    (new : α) : Option (Files α S × α) :=
  match found with
  | some t => some (sc, t)
  | none => do
      let (nodes, root) ← splaytreeInsert fuel N sc.nodes sc.root q.fileNdx ⟨q.name, default, 0⟩ new
      return (⟨nodes, root⟩, new)

/-- What `stat_cache_get_entry` does behind its splay. -/
def answer [Inhabited S] (simple : Bool) (isReg : S → Bool) (N : α) (fuel : ℕ) (sc : Files α S)
    (found : Option α) (q : Request S) (new : α) : Option (Files α S × Outcome S) :=
  match seen simple sc.nodes found q with
  | some sce => some (sc, .seen sce)
  | none =>
      match q.usable isReg with
      | none => some (sc, .error)
      | some st => do
          let (sc, t) ← place N fuel sc found q new
          let sce := {sc.nodes.data t with st := st, statTs := q.curTs}
          let nodes := {sc.nodes with data := Function.update sc.nodes.data t sce}
          return (⟨nodes, sc.root⟩, .looked sce)

def getEntry [Inhabited S] (simple : Bool) (isReg : S → Bool) (N : α) (fuel : ℕ) (sc : Files α S)
    (q : Request S) (new : α) : Option (Files α S × Outcome S) := do
  let (cells, root) ← splaytreeSplay fuel N sc.nodes.key sc.nodes.cells sc.root q.fileNdx
  let sc : Files α S := ⟨{sc.nodes with cells := cells}, root⟩
  answer simple isReg N fuel sc (root.filter fun t => sc.nodes.key t = q.fileNdx) q new

/-- More than two seconds have passed since the look. -/
def Old (curTs : ℤ) (sce : Entry S) : Prop := curTs - sce.statTs > 2

instance (curTs : ℤ) (sce : Entry S) : Decidable (Old curTs sce) :=
  inferInstanceAs (Decidable (_ > _))

/-- The keys are stored into an array with room for at least `size` of them, and for none if
`size` is negative: `calloc` is then asked for more than there is. -/
def tagOldEntries (nodes : Nodes α (Entry S)) (curTs size : ℤ) :
    ℕ → Option α → List ℤ → Option (List ℤ)
  | _, none, keys => some keys
  | 0, some _, _ => none
  | fuel + 1, some t, keys => do
      let keys ← tagOldEntries nodes curTs size fuel (nodes.cells.child .left t) keys
      let keys ← tagOldEntries nodes curTs size fuel (nodes.cells.child .right t) keys
      if Old curTs (nodes.data t) then
        if keys.length < size then some (keys ++ [nodes.key t]) else none
      else some keys

/-- One turn of the second loop of the cleanup. -/
def removeOld (N : α) (fuel : ℕ) (sc : Files α S) (ndx : ℤ) : Option (Files α S) := do
  let (cells, root) ← splaytreeSplay fuel N sc.nodes.key sc.nodes.cells sc.root ndx
  let nodes := {sc.nodes with cells := cells}
  if (root.filter fun t => nodes.key t = ndx).isSome then
    let (nodes, root) ← splaytreeDelete fuel N nodes root ndx
    return ⟨nodes, root⟩
  else return ⟨nodes, root⟩

def triggerCleanup (N : α) (fuel : ℕ) (sc : Files α S) (curTs : ℤ) : Option (Files α S) :=
  match sc.root with
  | none => some sc
  | some t => do
      let keys ← tagOldEntries sc.nodes curTs (sc.nodes.cells.size t) fuel sc.root []
      keys.foldlM (removeOld N fuel) sc

/-- One turn of `stat_cache_free`, which fails if its assertion does. -/
def freeTurn (N : α) (fuel : ℕ) (sc : Files α S) : Option (Turn (Files α S) (Files α S)) :=
  match sc.root with
  | none => some (.leave sc)
  | some t => do
      let osize := sc.nodes.cells.size t
      let (nodes, root) ← splaytreeDelete fuel N sc.nodes sc.root (sc.nodes.key t)
      if wrap (osize - 1) = nodeSize nodes.cells root then some (.again ⟨nodes, root⟩) else none

def statCacheFree (N : α) (fuel : ℕ) (sc : Files α S) : Option (Files α S) :=
  run (freeTurn N fuel) fuel sc

/-- A successful look at a file. -/
structure Look (S : Type) where
  ndx : ℤ
  name : List UInt8
  st : S
  ts : ℤ

/-- The cache in use, with the successful looks at files from the last one back. -/
structure Cache (α S : Type) where
  files : Files α S
  looks : List (Look S)

inductive Action (α S : Type) where
  | get (q : Request S) (new : α)
  | cleanup (curTs : ℤ)

/-- The looks behind a request. -/
def Outcome.record (q : Request S) (looks : List (Look S)) : Outcome S → List (Look S)
  | .looked sce => ⟨q.fileNdx, q.name, sce.st, sce.statTs⟩ :: looks
  | _ => looks

def act [Inhabited S] (simple : Bool) (isReg : S → Bool) (N : α) (s : Cache α S) :
    ℕ × Action α S → Option (Cache α S)
  | (fuel, .get q new) => do
      let (files, outcome) ← getEntry simple isReg N fuel s.files q new
      return ⟨files, outcome.record q s.looks⟩
  | (fuel, .cleanup curTs) => do
      let files ← triggerCleanup N fuel s.files curTs
      return {s with files := files}

/-- `malloc` gives no node of the tree. -/
def Fresh (N : α) (sc : Files α S) (new : α) : Prop :=
  N ≠ new ∧ ∀ T, Stored sc.nodes.cells sc.root T → new ∉ inorder T

/-- The cache from its first, empty tree on. -/
def caches [Inhabited S] (simple : Bool) (isReg : S → Bool) (N : α) (nodes : Nodes α (Entry S)) :
    Machine (Cache α S) (ℕ × Action α S) where
  init := ⟨⟨nodes, none⟩, []⟩
  step := act simple isReg N

def Guard (N : α) (s : Cache α S) (a : ℕ × Action α S) : Prop :=
  ∀ q new, a.2 = .get q new → Fresh N s.files new

/-- The name of an entry is one that was looked at, and the rest of it is from the last look at
its hash. -/
def FromLooks (looks : List (Look S)) (ndx : ℤ) (sce : Entry S) : Prop :=
  (∃ name, looks.find? (fun look => look.ndx = ndx) = some ⟨ndx, name, sce.st, sce.statTs⟩) ∧
    ∃ look ∈ looks, look.ndx = ndx ∧ look.name = sce.name

def Inv (N : α) (s : Cache α S) : Prop :=
  ∃ T, Holds s.files.nodes.key N s.files.nodes.cells s.files.root T ∧
    ∀ a ∈ inorder T, FromLooks s.looks (s.files.nodes.key a) (s.files.nodes.data a)

theorem key_fileNdx (q : Request S) : Key q.fileNdx := by
  refine ⟨Int.natCast_nonneg _, ?_⟩
  have hle : q.fileNdx ≤ ((~~~((1 : UInt32) <<< 31)).toNat : ℤ) := by
    unfold Request.fileNdx hashme
    rw [UInt32.toNat_and]
    exact Int.ofNat_le.mpr Nat.and_le_right
  exact hle.trans (by decide)

/-- A look at another hash changes nothing for an entry. -/
theorem FromLooks.cons_of_ne {looks : List (Look S)} {ndx : ℤ} {sce : Entry S} {look : Look S}
    (h : FromLooks looks ndx sce) (hne : look.ndx ≠ ndx) : FromLooks (look :: looks) ndx sce := by
  obtain ⟨⟨name, hfind⟩, look', hmem, hlook⟩ := h
  refine ⟨⟨name, ?_⟩, look', by simp [hmem], hlook⟩
  rw [List.find?_cons_of_neg (by simpa using hne), hfind]

theorem FromLooks.cons_self {looks : List (Look S)} {q : Request S} {sce : Entry S}
    (hname : sce.name = q.name ∨ ∃ look ∈ looks, look.ndx = q.fileNdx ∧ look.name = sce.name) :
    FromLooks (⟨q.fileNdx, q.name, sce.st, sce.statTs⟩ :: looks) q.fileNdx sce := by
  refine ⟨⟨q.name, by simp⟩, ?_⟩
  rcases hname with hname | ⟨look, hmem, hlook⟩
  · exact ⟨_, List.mem_cons_self, rfl, hname.symm⟩
  · exact ⟨look, by simp [hmem], hlook⟩

/-- What an answer says about its request when these looks came before it. -/
def Answers (simple : Bool) (isReg : S → Bool) (looks : List (Look S)) (q : Request S) :
    Outcome S → Prop
  | .seen sce => simple ∧ sce.name = q.name ∧ sce.statTs = q.curTs ∧ FromLooks looks q.fileNdx sce
  | .error => q.usable isReg = none
  | .looked sce => q.usable isReg = some sce.st ∧ sce.statTs = q.curTs ∧
      (sce.name = q.name ∨ ∃ look ∈ looks, look.ndx = q.fileNdx ∧ look.name = sce.name)

omit [DecidableEq α] in
theorem seen_eq_some {simple : Bool} {nodes : Nodes α (Entry S)} {found : Option α} {q : Request S}
    {sce : Entry S} (h : seen simple nodes found q = some sce) :
    ∃ t, found = some t ∧ nodes.data t = sce ∧ q.name = sce.name ∧ simple ∧
      sce.statTs = q.curTs := by
  cases found with
  | none => cases h
  | some t =>
      simp only [seen, Option.bind_eq_bind, Option.bind_some] at h
      split_ifs at h with hc
      cases h
      exact ⟨t, rfl, rfl, hc⟩

/-- The entry of one node is replaced by what a look has said. -/
theorem Inv.look {N : α} {nodes : Nodes α (Entry S)} {p : Option α}
    {T : BinaryTree α} {looks : List (Look S)} {q : Request S} {t : α} {sce : Entry S}
    (hT : Holds nodes.key N nodes.cells p T) (ht : t ∈ inorder T) (hkey : nodes.key t = q.fileNdx)
    (hlooks : ∀ a ∈ inorder T, nodes.key a ≠ q.fileNdx →
      FromLooks looks (nodes.key a) (nodes.data a))
    (hname : sce.name = q.name ∨ ∃ look ∈ looks, look.ndx = q.fileNdx ∧ look.name = sce.name) :
    Inv N ⟨⟨{nodes with data := Function.update nodes.data t sce}, p⟩,
      ⟨q.fileNdx, q.name, sce.st, sce.statTs⟩ :: looks⟩ := by
  refine ⟨T, hT, fun a ha => ?_⟩
  by_cases heq : a = t
  · subst heq
    simp only [Function.update_self, hkey]
    exact FromLooks.cons_self hname
  · have hne : nodes.key a ≠ q.fileNdx := fun hk => heq (hT.key_inj ha ht (hk.trans hkey.symm))
    simp only [Function.update_of_ne heq]
    exact (hlooks a ha hne).cons_of_ne hne.symm

/-- What `place` returns is a tree with a node for the request, in which the other entries are
from the looks as before. -/
theorem exists_place [Inhabited S] {N : α} {sc : Files α S} {T : BinaryTree α}
    {looks : List (Look S)} {q : Request S} {found : Option α} {new : α}
    (hT : Holds sc.nodes.key N sc.nodes.cells sc.root T)
    (hlooks : ∀ a ∈ inorder T, FromLooks looks (sc.nodes.key a) (sc.nodes.data a))
    (hN : N ≠ new) (hnew : new ∉ inorder T)
    (hsome : ∀ t, found = some t → t ∈ inorder T ∧ sc.nodes.key t = q.fileNdx)
    (hnone : found = none → ∀ a ∈ inorder T, sc.nodes.key a ≠ q.fileNdx) :
    ∃ sc' t T', Returns (fun fuel => place N fuel sc found q new) (sc', t) ∧
      Holds sc'.nodes.key N sc'.nodes.cells sc'.root T' ∧ t ∈ inorder T' ∧
      sc'.nodes.key t = q.fileNdx ∧
      (∀ a ∈ inorder T', sc'.nodes.key a ≠ q.fileNdx →
        FromLooks looks (sc'.nodes.key a) (sc'.nodes.data a)) ∧
      ((sc'.nodes.data t).name = q.name ∨
        ∃ look ∈ looks, look.ndx = q.fileNdx ∧ look.name = (sc'.nodes.data t).name) := by
  cases found with
  | some t =>
      obtain ⟨ht, hkey⟩ := hsome t rfl
      exact ⟨sc, t, T, returns_const _, hT, ht, hkey, fun a ha _ => hlooks a ha,
        .inr (hkey ▸ (hlooks t ht).2)⟩
  | none =>
      obtain ⟨nodes', p', T', hrun, hT', hentries, hentry⟩ :=
        hT.insert (key_fileNdx q) ⟨q.name, default, 0⟩ hnew hN
      have hndx : q.fileNdx ∉ (sc.nodes.entries T).map Prod.fst := by
        rw [Nodes.entries, List.map_map, List.mem_map]
        rintro ⟨a, ha, hkey⟩
        exact hnone rfl a ha hkey
      obtain ⟨hmem, hentry⟩ := hentry hndx
      obtain ⟨hkey, hdata⟩ := Prod.mk.inj hentry
      refine ⟨⟨nodes', p'⟩, new, T', hrun.bind rfl, hT', hmem, hkey, fun a ha hne => ?_,
        .inl (by rw [hdata])⟩
      have hin : nodes'.entry a ∈ nodes'.entries T' := List.mem_map_of_mem ha
      rw [hentries, insertEntry, if_neg hndx, List.mem_append, List.mem_cons, List.mem_filter,
        List.mem_filter] at hin
      -- the entry has another key, so it was in the tree before
      have hold : nodes'.entry a ∈ sc.nodes.entries T := by
        rcases hin with hin | heq | hin
        · exact hin.1
        · exact absurd (congrArg Prod.fst heq) hne
        · exact hin.1
      obtain ⟨b, hb, heq⟩ := List.mem_map.mp hold
      obtain ⟨hk, hd⟩ := Prod.mk.inj heq
      show FromLooks looks (nodes'.key a) (nodes'.data a)
      exact hk ▸ hd ▸ hlooks b hb

/-- The answer when the node that is found is that of the hash, if there is one. -/
theorem exists_answer [Inhabited S] {N : α} {sc : Files α S} {T : BinaryTree α}
    {looks : List (Look S)} {q : Request S} {found : Option α} {new : α}
    (hT : Holds sc.nodes.key N sc.nodes.cells sc.root T)
    (hlooks : ∀ a ∈ inorder T, FromLooks looks (sc.nodes.key a) (sc.nodes.data a))
    (hN : N ≠ new) (hnew : new ∉ inorder T)
    (hsome : ∀ t, found = some t → t ∈ inorder T ∧ sc.nodes.key t = q.fileNdx)
    (hnone : found = none → ∀ a ∈ inorder T, sc.nodes.key a ≠ q.fileNdx) (simple : Bool)
    (isReg : S → Bool) :
    ∃ sc' outcome, Returns (fun fuel => answer simple isReg N fuel sc found q new) (sc', outcome) ∧
      Inv N ⟨sc', outcome.record q looks⟩ ∧ Answers simple isReg looks q outcome := by
  unfold answer
  have hkeep : Inv N ⟨sc, looks⟩ := ⟨T, hT, hlooks⟩
  cases hseen : seen simple sc.nodes found q with
  | some sce =>
      obtain ⟨t, ht, rfl, hname, hsimple, hts⟩ := seen_eq_some hseen
      obtain ⟨hmem, hkey⟩ := hsome t ht
      exact ⟨sc, .seen _, returns_const _, hkeep, hsimple, hname.symm, hts, hkey ▸ hlooks t hmem⟩
  | none =>
      cases husable : q.usable isReg with
      | none => exact ⟨sc, .error, returns_const _, hkeep, husable⟩
      | some st =>
          obtain ⟨sc', t, T', hplace, hT', ht, hkey, hothers, hname⟩ :=
            exists_place hT hlooks hN hnew hsome hnone
          exact ⟨_, .looked {sc'.nodes.data t with st := st, statTs := q.curTs}, hplace.bind rfl,
            Inv.look hT' ht hkey hothers hname, husable, rfl, hname⟩

/-- A request is answered, and the entries are still from the looks. -/
theorem Inv.getEntry [Inhabited S] {N : α} {s : Cache α S} (h : Inv N s) (simple : Bool)
    (isReg : S → Bool) (q : Request S) {new : α} (hnew : Fresh N s.files new) :
    ∃ sc outcome, Returns (fun fuel => getEntry simple isReg N fuel s.files q new) (sc, outcome) ∧
      Inv N ⟨sc, outcome.record q s.looks⟩ ∧ Answers simple isReg s.looks q outcome := by
  obtain ⟨T, hT, hlooks⟩ := h
  obtain ⟨m, p, T', hrun, hT', horder, hcases⟩ := hT.locate (key_fileNdx q)
  let sc : Files α S := ⟨{s.files.nodes with cells := m}, p⟩
  let found := p.filter fun t => sc.nodes.key t = q.fileNdx
  have hsc : Holds sc.nodes.key N sc.nodes.cells sc.root T' := hT'
  have hfresh : new ∉ inorder T' := horder ▸ hnew.2 T hT.stored
  rw [← horder] at hlooks hcases
  have hsome : ∀ t, found = some t → t ∈ inorder T' ∧ sc.nodes.key t = q.fileNdx := by
    intro t ht
    obtain ⟨hp, hkey⟩ : p = some t ∧ sc.nodes.key t = q.fileNdx := by
      simpa [found, Option.filter_eq_some_iff] using ht
    rcases hcases with ⟨t', ht', hp', -⟩ | ⟨hroot, -⟩
    · exact ⟨Option.some.inj (hp'.symm.trans hp) ▸ ht', hkey⟩
    · exact absurd hkey (hroot t hp)
  have hnone : found = none → ∀ a ∈ inorder T', sc.nodes.key a ≠ q.fileNdx := by
    intro hf
    rcases hcases with ⟨t, -, rfl, hkey⟩ | ⟨-, hnot⟩
    · simp [found, sc, hkey] at hf
    · exact hnot
  obtain ⟨sc', outcome, hanswer, hinv, hout⟩ :=
    exists_answer hsc hlooks hnew.1 hfresh hsome hnone simple isReg
  exact ⟨sc', outcome, hrun.andThen hanswer, hinv, hout⟩

omit [DecidableEq α] in
/-- The keys of the old entries are collected, and there is room for them. -/
theorem tagOldEntries_returns {nodes : Nodes α (Entry S)} {p : Option α}
    {T : BinaryTree α} (hT : Stored nodes.cells p T) (curTs size : ℤ) (keys : List ℤ)
    (hroom : (keys.length + T.numNodes : ℕ) ≤ size) :
    ∃ old, Returns (fun fuel => tagOldEntries nodes curTs size fuel p keys) (keys ++ old) ∧
      old.length ≤ T.numNodes ∧
      ∀ k, k ∈ old ↔ ∃ a ∈ inorder T, nodes.key a = k ∧ Old curTs (nodes.data a) := by
  induction T generalizing p keys with
  | nil =>
      cases hT
      refine ⟨[], ?_, Nat.le_refl _, by simp⟩
      rw [List.append_nil]
      exact (returns_const keys).congr 0 fun fuel _ => by cases fuel <;> rfl
  | node t l r ihl ihr =>
      obtain ⟨rfl, -, hl, hr⟩ := hT
      simp only [BinaryTree.numNodes] at hroom ⊢
      obtain ⟨old₁, hrun₁, hlen₁, hmem₁⟩ := ihl hl keys (by push_cast at *; omega)
      obtain ⟨old₂, hrun₂, hlen₂, hmem₂⟩ := ihr hr (keys ++ old₁) (by
        rw [List.length_append]
        push_cast at *
        omega)
      have hroom' : ((keys ++ old₁ ++ old₂).length : ℤ) < size := by
        simp only [List.length_append]
        push_cast at *
        omega
      by_cases hold : Old curTs (nodes.data t)
      · refine ⟨old₁ ++ old₂ ++ [nodes.key t], ?_, by simp; omega, fun k => ?_⟩
        · apply Returns.of_succ
          refine hrun₁.andThen (hrun₂.bind ?_)
          rw [if_pos hold, if_pos hroom']
          simp
        · simp only [List.mem_append, hmem₁, hmem₂, inorder_node, List.mem_cons,
            List.not_mem_nil, or_false]
          constructor
          · rintro ((⟨a, ha, h⟩ | ⟨a, ha, h⟩) | rfl)
            · exact ⟨a, .inl ha, h⟩
            · exact ⟨a, .inr (.inr ha), h⟩
            · exact ⟨t, .inr (.inl rfl), rfl, hold⟩
          · rintro ⟨a, ha | rfl | ha, h⟩
            · exact .inl (.inl ⟨a, ha, h⟩)
            · exact .inr h.1.symm
            · exact .inl (.inr ⟨a, ha, h⟩)
      · refine ⟨old₁ ++ old₂, ?_, by simp; omega, fun k => ?_⟩
        · apply Returns.of_succ
          refine hrun₁.andThen (hrun₂.bind ?_)
          rw [if_neg hold, List.append_assoc]
        · simp only [List.mem_append, hmem₁, hmem₂, inorder_node, List.mem_cons]
          constructor
          · rintro (⟨a, ha, h⟩ | ⟨a, ha, h⟩)
            · exact ⟨a, .inl ha, h⟩
            · exact ⟨a, .inr (.inr ha), h⟩
          · rintro ⟨a, ha | rfl | ha, h⟩
            · exact .inl ⟨a, ha, h⟩
            · exact absurd h.2 hold
            · exact .inr ⟨a, ha, h⟩

def Files.Content (N : α) (sc : Files α S) (xs : List (ℤ × Entry S)) : Prop :=
  ∃ T, Holds sc.nodes.key N sc.nodes.cells sc.root T ∧ sc.nodes.entries T = xs

theorem Files.Content.removeOld {N : α} {sc : Files α S} {xs : List (ℤ × Entry S)}
    (h : sc.Content N xs) {ndx : ℤ} (hndx : Key ndx) :
    ∃ sc' : Files α S, Returns (fun fuel => removeOld N fuel sc ndx) sc' ∧
      sc'.Content N (deleteEntry ndx xs) := by
  obtain ⟨T, hT, rfl⟩ := h
  obtain ⟨m, p, T', hrun, hT', horder, hcases⟩ := hT.locate hndx
  let nodes : Nodes α (Entry S) := {sc.nodes with cells := m}
  have hentries : nodes.entries T' = sc.nodes.entries T := by
    rw [Nodes.entries, horder]
    rfl
  have hnodes : Holds nodes.key N nodes.cells p T' := hT'
  by_cases hfound : (p.filter fun t => sc.nodes.key t = ndx).isSome
  · obtain ⟨nodes', p', T'', hdelete, hT'', hentries'⟩ := hnodes.delete hndx
    refine ⟨⟨nodes', p'⟩, hrun.andThen ?_, T'', hT'', hentries'.trans (congrArg _ hentries)⟩
    simp only [if_pos hfound]
    exact hdelete.bind rfl
  · refine ⟨⟨nodes, p⟩, hrun.andThen ?_, T', hT', hentries.trans ?_⟩
    · simp only [if_neg hfound]
      exact returns_const _
    · rcases hcases with ⟨t, -, rfl, hkey⟩ | ⟨-, hnot⟩
      · simp [hkey] at hfound
      · symm
        apply List.filter_eq_self.mpr
        intro e he
        obtain ⟨a, ha, rfl⟩ := List.mem_map.mp he
        exact decide_eq_true (hnot a ha)

theorem Files.Content.removeAll {N : α} (keys : List ℤ) {sc : Files α S} {xs : List (ℤ × Entry S)}
    (h : sc.Content N xs) (hkeys : ∀ k ∈ keys, Key k) :
    ∃ sc' : Files α S, Returns (fun fuel => keys.foldlM (StatCache.removeOld N fuel) sc) sc' ∧
      sc'.Content N (xs.filter fun e => e.1 ∉ keys) := by
  induction keys generalizing sc xs with
  | nil => exact ⟨sc, returns_const _, by simpa using h⟩
  | cons k keys ih =>
      rw [List.forall_mem_cons] at hkeys
      obtain ⟨sc₁, hrun₁, h₁⟩ := h.removeOld hkeys.1
      obtain ⟨sc₂, hrun₂, h₂⟩ := ih h₁ hkeys.2
      refine ⟨sc₂, hrun₁.andThen hrun₂, ?_⟩
      rw [deleteEntry, List.filter_filter] at h₂
      convert h₂ using 2
      funext e
      simp [Bool.and_comm]

theorem Files.Content.cleanup {N : α} {sc : Files α S} {xs : List (ℤ × Entry S)}
    (h : sc.Content N xs) (hlen : xs.length ≤ intMax) (curTs : ℤ) :
    ∃ sc' : Files α S, Returns (fun fuel => triggerCleanup N fuel sc curTs) sc' ∧
      sc'.Content N (xs.filter fun e => ¬ Old curTs e.2) := by
  obtain ⟨T, hT, hxs⟩ := id h
  unfold triggerCleanup
  cases hp : sc.root with
  | none =>
      rw [hp] at hT
      obtain rfl := hT.stored.nil
      refine ⟨sc, returns_const _, ?_⟩
      subst hxs
      exact h
  | some t =>
      rw [hp] at hT
      have hsize : sc.nodes.cells.size t = T.numNodes := by
        rw [← hxs, Nodes.entries, List.length_map, length_inorder] at hlen
        refine (hT.stored.nodeSize).trans (wrap_fits ⟨?_, hlen⟩)
        unfold intMin
        omega
      obtain ⟨old, hrun, -, hold⟩ := tagOldEntries_returns hT.stored curTs
        (sc.nodes.cells.size t) [] (by simp [hsize])
      obtain ⟨sc', hrun', h'⟩ := h.removeAll old fun k hk => by
        obtain ⟨a, ha, rfl, -⟩ := (hold k).mp hk
        exact hT.keys a ha
      refine ⟨sc', hrun.andThen hrun', ?_⟩
      convert h' using 1
      apply List.filter_congr
      intro e he
      rw [← hxs] at he
      obtain ⟨a, ha, rfl⟩ := List.mem_map.mp he
      have hiff : sc.nodes.key a ∈ old ↔ Old curTs (sc.nodes.data a) := by
        rw [hold]
        constructor
        · rintro ⟨b, hb, heq, h⟩
          exact hT.key_inj hb ha heq ▸ h
        · exact fun h => ⟨a, ha, rfl, h⟩
      exact decide_eq_decide.mpr (not_congr hiff.symm)

/-- `stat_cache_free` takes one entry at a time out of the tree until there is none. -/
theorem Files.Content.free {N : α} {sc : Files α S} {xs : List (ℤ × Entry S)}
    (h : sc.Content N xs) : ∃ sc' : Files α S, Exits (freeTurn N) sc sc' ∧ sc'.root = none := by
  induction hn : xs.length using Nat.strongRecOn generalizing sc xs with
  | _ n ih =>
      obtain ⟨T, hT, rfl⟩ := h
      cases hp : sc.root with
      | none =>
          refine ⟨sc, .single ?_, hp⟩
          unfold freeTurn
          rw [hp]
          exact returns_const _
      | some t =>
          rw [hp] at hT
          have ht : t ∈ inorder T := by
            obtain ⟨x, y, rfl⟩ := hT.stored.exists_join .left
            exact mem_inorder_join.mpr (.inr (.inl rfl))
          obtain ⟨nodes', p', T', hdelete, hT', hentries⟩ := hT.delete (hT.keys t ht)
          have hlen : (nodes'.entries T').length + 1 = (sc.nodes.entries T).length := by
            rw [hentries]
            exact length_deleteEntry hT.entries_sorted (List.mem_map_of_mem ht)
          have hlt : (nodes'.entries T').length < n := hn ▸ Nat.lt_of_succ_le (Nat.le_of_eq hlen)
          have hcontent : (Files.mk nodes' p').Content N (nodes'.entries T') := ⟨T', hT', rfl⟩
          obtain ⟨sc', hexits, hnone⟩ := ih _ hlt hcontent rfl
          refine ⟨sc', (Leads.single ?_).exits hexits, hnone⟩
          have hsize : sc.nodes.cells.size t = wrap T.numNodes := hT.stored.nodeSize
          simp only [Nodes.entries, List.length_map, length_inorder] at hlen
          unfold freeTurn
          rw [hp]
          refine hdelete.bind ?_
          simp only [hsize, hT'.stored.nodeSize, wrap_sub_left, ← hlen]
          rw [Int.natCast_add, Int.natCast_one, Int.add_sub_cancel, if_pos rfl]

omit [DecidableEq α] in
/-- With more fuel and more room the same keys are stored. -/
theorem tagOldEntries_mono (nodes : Nodes α (Entry S)) (curTs : ℤ) {size size' : ℤ}
    (hle : size ≤ size') {n m : ℕ} (hnm : n ≤ m) {p : Option α} {keys old : List ℤ}
    (h : tagOldEntries nodes curTs size n p keys = some old) :
    tagOldEntries nodes curTs size' m p keys = some old := by
  induction n generalizing m p keys old with
  | zero =>
      cases p with
      | none => cases m <;> exact h
      | some t => cases h
  | succ n ih =>
      cases p with
      | none => cases m <;> exact h
      | some t =>
          obtain ⟨m, rfl⟩ : ∃ m', m = m' + 1 := ⟨m - 1, by omega⟩
          obtain ⟨keys₁, h₁, h⟩ := Option.bind_eq_some_iff.mp h
          obtain ⟨keys₂, h₂, h⟩ := Option.bind_eq_some_iff.mp h
          have hm : n ≤ m := Nat.le_of_succ_le_succ hnm
          refine Option.bind_eq_some_iff.mpr ⟨keys₁, ih hm h₁,
            Option.bind_eq_some_iff.mpr ⟨keys₂, ih hm h₂, ?_⟩⟩
          split_ifs at h ⊢ with hold hroom hroom'
          · exact h
          · omega
          · exact h

omit [DecidableEq α] in
theorem settles_tagOldEntries (nodes : Nodes α (Entry S)) (curTs size : ℤ) (p : Option α)
    (keys : List ℤ) : Settles fun fuel => tagOldEntries nodes curTs size fuel p keys :=
  fun _ _ _ hnm h => tagOldEntries_mono nodes curTs (Int.le_refl size) hnm h

theorem settles_removeAll (N : α) (keys : List ℤ) (sc : Files α S) :
    Settles fun fuel => keys.foldlM (removeOld N fuel) sc := by
  induction keys generalizing sc with
  | nil => exact settles_const _
  | cons k keys ih =>
      refine Settles.andThen ?_ ih
      apply (settles_splay N sc.nodes.key sc.nodes.cells sc.root k).andThen
      rintro ⟨m, p⟩
      by_cases hfound : (p.filter fun t => sc.nodes.key t = k).isSome
      · simp only [if_pos hfound]
        exact (settles_delete N _ p k).andThen fun _ => settles_const _
      · simp only [if_neg hfound]
        exact settles_const _

theorem settles_answer [Inhabited S] (simple : Bool) (isReg : S → Bool) (N : α) (sc : Files α S)
    (found : Option α) (q : Request S) (new : α) :
    Settles fun fuel => answer simple isReg N fuel sc found q new := by
  unfold answer
  cases seen simple sc.nodes found q with
  | some sce => exact settles_const _
  | none =>
      cases q.usable isReg with
      | none => exact settles_const _
      | some st =>
          refine Settles.andThen ?_ fun _ => settles_const _
          cases found with
          | some t => exact settles_const _
          | none => exact (settles_insert N _ _ _ _ _).andThen fun _ => settles_const _

theorem settles_getEntry [Inhabited S] (simple : Bool) (isReg : S → Bool) (N : α) (sc : Files α S)
    (q : Request S) (new : α) : Settles fun fuel => getEntry simple isReg N fuel sc q new :=
  (settles_splay N _ _ _ _).andThen fun _ => settles_answer simple isReg N _ _ q new

theorem settles_act [Inhabited S] (simple : Bool) (isReg : S → Bool) (N : α) (s : Cache α S)
    (a : Action α S) : Settles fun fuel => act simple isReg N s (fuel, a) := by
  cases a with
  | get q new =>
      exact (settles_getEntry simple isReg N s.files q new).andThen fun _ => settles_const _
  | cleanup curTs =>
      refine Settles.andThen ?_ fun _ => settles_const _
      unfold triggerCleanup
      split
      · exact settles_const _
      · exact (settles_tagOldEntries _ _ _ _ _).andThen fun keys => settles_removeAll N keys _

/-- A cleanup that returns leaves entries that are from the looks. -/
theorem Inv.cleanup {N : α} {s : Cache α S} (h : Inv N s) {curTs : ℤ} {fuel : ℕ}
    {sc : Files α S} (hsc : triggerCleanup N fuel s.files curTs = some sc) :
    Inv N ⟨sc, s.looks⟩ := by
  obtain ⟨T, hT, hlooks⟩ := h
  have hcontent : s.files.Content N (s.files.nodes.entries T) := ⟨T, hT, rfl⟩
  unfold triggerCleanup at hsc
  cases hp : s.files.root with
  | none =>
      rw [hp] at hsc
      cases hsc
      exact ⟨T, hT, hlooks⟩
  | some t =>
      rw [hp] at hsc
      obtain ⟨old, htag, hfold⟩ := Option.bind_eq_some_iff.mp hsc
      -- the keys are those of the tree, whatever room there is for them
      have hroom : (([] : List ℤ).length + T.numNodes : ℕ) ≤
          max (s.files.nodes.cells.size t) T.numNodes := by
        rw [List.length_nil, Nat.zero_add]
        exact Int.le_max_right _ _
      obtain ⟨old', hrun, -, hold⟩ := tagOldEntries_returns hT.stored curTs _ [] hroom
      rw [← hp] at htag
      obtain rfl := hrun.unique ((settles_tagOldEntries _ _ _ _ _).returns
        (tagOldEntries_mono _ _ (Int.le_max_left _ _) (Nat.le_refl _) htag))
      obtain ⟨sc', hrun', T', hT', hentries⟩ := hcontent.removeAll old' fun k hk => by
        obtain ⟨a, ha, rfl, -⟩ := (hold k).mp hk
        exact hT.keys a ha
      obtain rfl := hrun'.unique ((settles_removeAll N _ _).returns hfold)
      refine ⟨T', hT', fun a ha => ?_⟩
      have hmem : sc'.nodes.entry a ∈ sc'.nodes.entries T' := List.mem_map_of_mem ha
      rw [hentries, List.mem_filter] at hmem
      obtain ⟨b, hb, heq⟩ := List.mem_map.mp hmem.1
      obtain ⟨hkey, hdata⟩ := Prod.mk.inj heq
      show FromLooks s.looks (sc'.nodes.key a) (sc'.nodes.data a)
      exact hkey ▸ hdata ▸ hlooks b hb

theorem inv_of_reachable [Inhabited S] {simple : Bool} {isReg : S → Bool} {N : α}
    {nodes : Nodes α (Entry S)} {s : Cache α S}
    (h : (caches simple isReg N nodes).ReachableBy (Guard N) s) : Inv N s := by
  induction h with
  | start => exact ⟨.nil, ⟨rfl, List.Pairwise.nil, by simp, by simp⟩, by simp⟩
  | @next s t a _ hguard hs ih =>
      obtain ⟨fuel, a⟩ := a
      cases a with
      | get q new =>
          have ht := (settles_act simple isReg N s (.get q new)).returns hs
          obtain ⟨sc, outcome, hrun, hinv, -⟩ := ih.getEntry simple isReg q (hguard q new rfl)
          have hact : Returns (fun fuel => act simple isReg N s (fuel, .get q new))
              ⟨sc, outcome.record q s.looks⟩ := hrun.bind rfl
          exact hact.unique ht ▸ hinv
      | cleanup curTs =>
          obtain ⟨sc, hsc, hs⟩ := Option.bind_eq_some_iff.mp hs
          cases hs
          exact ih.cleanup hsc

/-- Whatever requests and cleanups came before, a request is answered. An entry that is given
without a look at the file has its name and is of this second, but what it says is from the last
look at the hash of the name: it is from the file of the request if all looks at this hash were. -/
theorem answer_from_last_look [Inhabited S] (simple : Bool) (isReg : S → Bool) (N : α)
    (nodes : Nodes α (Entry S)) {s : Cache α S}
    (h : (caches simple isReg N nodes).ReachableBy (Guard N) s) (q : Request S) {new : α}
    (hnew : Fresh N s.files new) :
    ∃ sc outcome, Returns (fun fuel => getEntry simple isReg N fuel s.files q new) (sc, outcome) ∧
      match outcome with
      | .seen sce => simple ∧ sce.name = q.name ∧ sce.statTs = q.curTs ∧ ∃ name,
          s.looks.find? (fun look => look.ndx = q.fileNdx) =
            some ⟨q.fileNdx, name, sce.st, q.curTs⟩ ∧
          ((∀ look ∈ s.looks, look.ndx = q.fileNdx → look.name = q.name) → name = q.name)
      | .error => q.usable isReg = none
      | .looked sce => q.usable isReg = some sce.st ∧ sce.statTs = q.curTs ∧
          ((∀ look ∈ s.looks, look.ndx = q.fileNdx → look.name = q.name) → sce.name = q.name) := by
  obtain ⟨sc, outcome, hrun, -, hanswers⟩ := (inv_of_reachable h).getEntry simple isReg q hnew
  refine ⟨sc, outcome, hrun, ?_⟩
  cases outcome with
  | seen sce =>
      obtain ⟨hsimple, hname, hts, ⟨name, hfind⟩, -⟩ := hanswers
      rw [hts] at hfind
      refine ⟨hsimple, hname, hts, name, hfind, fun hall => ?_⟩
      exact hall _ (List.mem_of_find?_eq_some hfind) rfl
  | error => exact hanswers
  | looked sce =>
      obtain ⟨husable, hts, hname⟩ := hanswers
      refine ⟨husable, hts, fun hall => ?_⟩
      rcases hname with hname | ⟨look, hmem, hndx, hname⟩
      · exact hname
      · exact hname.symm.trans (hall look hmem hndx)

/-- A file that `stat` finds with this answer. -/
def plain (name : List UInt8) (st : ℕ) : Request ℕ := ⟨name, true, 100, some st, true⟩

theorem fresh_of_leaf {sc : Files ℕ ℕ} {t new : ℕ} (hroot : sc.root = some t)
    (hleaf : ∀ d, sc.nodes.cells.child d t = none) (hnew : 0 < new ∧ t < new) : Fresh 0 sc new := by
  refine ⟨Nat.ne_of_lt hnew.1, fun T hT => ?_⟩
  rw [hroot] at hT
  obtain ⟨x, y, rfl⟩ := hT.exists_join .left
  obtain ⟨-, -, hx, hy⟩ := hT
  rw [hleaf] at hx hy
  rw [hx.nil, hy.nil]
  simpa [join] using (Nat.ne_of_lt hnew.2).symm

/-- The names `Az` and `BY` have one hash. A second request for `Az` in one second is answered
with what `stat` said about `BY`. -/
theorem answer_from_last_look_collision :
    let nodes : Nodes ℕ (Entry ℕ) :=
      ⟨⟨fun _ _ => none, fun _ => 0⟩, fun _ => 0, fun _ => ⟨[], 0, 0⟩⟩
    ∃ s, (caches true (fun _ => false) 0 nodes).ReachableBy (Guard 0) s ∧ ∃ sc,
      Returns (fun fuel => getEntry true (fun _ => false) 0 fuel s.files (plain [65, 122] 1) 3)
        (sc, .seen ⟨[65, 122], 2, 100⟩) ∧
      ∃ name, s.looks.find? (fun look => look.ndx = (plain [65, 122] 1).fileNdx) =
        some ⟨(plain [65, 122] 1).fileNdx, name, 2, 100⟩ := by
  intro nodes
  let M := caches true (fun _ => false) 0 nodes
  let q₁ := plain [65, 122] 1
  let q₂ := plain [66, 89] 2
  let s₁ := (M.step M.init (3, .get q₁ 1)).get (by decide +kernel)
  let s₂ := (M.step s₁ (3, .get q₂ 2)).get (by decide +kernel)
  have hfresh : ∀ new, 1 < new → Fresh 0 s₁.files new ∧ Fresh 0 s₂.files new := by
    intro new hnew
    have hnew : 0 < new ∧ 1 < new := ⟨by omega, hnew⟩
    refine ⟨fresh_of_leaf (t := 1) (by decide +kernel) (fun d => ?_) hnew,
      fresh_of_leaf (t := 1) (by decide +kernel) (fun d => ?_) hnew⟩
    · cases d <;> decide +kernel
    · cases d <;> decide +kernel
  have h₁ : M.ReachableBy (Guard 0) s₁ := by
    refine .next (a := (3, .get q₁ 1)) .start (fun q new heq => ?_) (Option.some_get _).symm
    cases heq
    refine ⟨by decide, fun T hT => ?_⟩
    rw [Stored.nil hT]
    decide
  have h₂ : M.ReachableBy (Guard 0) s₂ := by
    refine h₁.next (a := (3, .get q₂ 2)) (fun q new heq => ?_) (Option.some_get _).symm
    cases heq
    exact (hfresh 2 (by decide)).1
  obtain ⟨sc, outcome, hrun, hlook⟩ := answer_from_last_look true (fun _ => false) 0 nodes h₂ q₁
    (hfresh 3 (by decide)).2
  have hseen : (getEntry true (fun _ => false) 0 3 s₂.files q₁ 3).map Prod.snd =
      some (.seen ⟨[65, 122], 2, 100⟩) := by decide +kernel
  obtain ⟨⟨sc', _⟩, hsc, rfl⟩ := Option.map_eq_some_iff.mp hseen
  have hrun' := (settles_getEntry true (fun _ => false) 0 s₂.files q₁ 3).returns hsc
  obtain ⟨rfl, rfl⟩ := Prod.mk.inj (hrun.unique hrun')
  obtain ⟨-, -, -, name, hfind, -⟩ := hlook
  exact ⟨s₂, h₂, sc, hrun, name, hfind⟩

/-- The number of the entries is an `int`. -/
def Counted (sc : Files α S) : Prop :=
  ∀ T, Stored sc.nodes.cells sc.root T → T.numNodes ≤ intMax

/-- Whatever requests and cleanups came before, a cleanup keeps just the entries that are not
more than two seconds old as long as their number is an `int`, and the end of the cache takes all
of them without a failed assertion. -/
theorem cleanup_keeps_young [Inhabited S] (simple : Bool) (isReg : S → Bool) (N : α)
    (nodes : Nodes α (Entry S)) {s : Cache α S}
    (h : (caches simple isReg N nodes).ReachableBy (Guard N) s) (curTs : ℤ) :
    (Counted s.files →
      ∃ sc : Files α S, Returns (fun fuel => triggerCleanup N fuel s.files curTs) sc ∧
        ∀ i, Key i → ∃ found,
          Returns (fun fuel => lookup fuel N s.files.nodes s.files.root i) found ∧
          Returns (fun fuel => lookup fuel N sc.nodes sc.root i)
            (found.filter fun sce => ¬ Old curTs sce)) ∧
      ∃ sc : Files α S, Returns (fun fuel => statCacheFree N fuel s.files) sc ∧ sc.root = none := by
  obtain ⟨T, hT, -⟩ := inv_of_reachable h
  have hcontent : s.files.Content N (s.files.nodes.entries T) := ⟨T, hT, rfl⟩
  obtain ⟨empty, hexits, hnone⟩ := hcontent.free
  refine ⟨fun hcounted => ?_, empty, hexits.returns, hnone⟩
  have hlen : ((s.files.nodes.entries T).length : ℤ) ≤ intMax := by
    rw [Nodes.entries, List.length_map, length_inorder]
    exact hcounted T hT.stored
  obtain ⟨sc, hrun, T', hT', hentries⟩ := hcontent.cleanup hlen curTs
  refine ⟨sc, hrun, fun i hi => ⟨_, hT.lookup hi, ?_⟩⟩
  have hlookup := hT'.lookup hi
  rw [hentries, lookup_filter hT.entries_sorted fun sce => ¬ Old curTs sce] at hlookup
  exact hlookup

theorem settles_lookup {D : Type} (N : α) (nodes : Nodes α D) (p : Option α) (i : ℤ) :
    Settles fun fuel => lookup fuel N nodes p i :=
  (settles_splay N nodes.key nodes.cells p i).andThen fun _ => settles_const _

/-- An entry that is there after one request is gone three seconds later. -/
theorem cleanup_keeps_young_gone :
    let nodes : Nodes ℕ (Entry ℕ) :=
      ⟨⟨fun _ _ => none, fun _ => 0⟩, fun _ => 0, fun _ => ⟨[], 0, 0⟩⟩
    let i := (plain [65, 122] 1).fileNdx
    ∃ s, (caches true (fun _ => false) 0 nodes).ReachableBy (Guard 0) s ∧
      Returns (fun fuel => lookup fuel 0 s.files.nodes s.files.root i)
        (some ⟨[65, 122], 1, 100⟩) ∧
      ∃ sc : Files ℕ ℕ, Returns (fun fuel => triggerCleanup 0 fuel s.files 103) sc ∧
        Returns (fun fuel => lookup fuel 0 sc.nodes sc.root i) none := by
  intro nodes i
  let M := caches true (fun _ => false) 0 nodes
  let q := plain [65, 122] 1
  let s := (M.step M.init (3, .get q 1)).get (by decide +kernel)
  have hs : M.ReachableBy (Guard 0) s := by
    refine .next (a := (3, .get q 1)) .start (fun q new heq => ?_) (Option.some_get _).symm
    cases heq
    refine ⟨by decide, fun T hT => ?_⟩
    rw [Stored.nil hT]
    decide
  have hcounted : Counted s.files := by
    intro T hT
    have hroot : s.files.root = some 1 := by decide +kernel
    have hleaf (d : Side) : s.files.nodes.cells.child d 1 = none := by cases d <;> decide +kernel
    rw [hroot] at hT
    obtain ⟨x, y, rfl⟩ := hT.exists_join .left
    obtain ⟨-, -, hx, hy⟩ := hT
    rw [hleaf] at hx hy
    rw [hx.nil, hy.nil]
    decide
  obtain ⟨hcleanup, -⟩ := cleanup_keeps_young true (fun _ => false) 0 nodes hs 103
  obtain ⟨sc, hrun, hfound⟩ := hcleanup hcounted
  obtain ⟨found, hbefore, hafter⟩ := hfound i (key_fileNdx q)
  have hlookup : lookup 3 0 s.files.nodes s.files.root i = some (some ⟨[65, 122], 1, 100⟩) := by
    decide +kernel
  obtain rfl := hbefore.unique ((settles_lookup 0 _ _ i).returns hlookup)
  exact ⟨s, hs, hbefore, sc, hrun, hafter⟩

end EmbeddedCode.SplayTree.StatCache
