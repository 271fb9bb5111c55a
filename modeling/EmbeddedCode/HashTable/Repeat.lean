import EmbeddedCode.HashTable.Agreement

/-!
# Insertions that are made again

`build_list` compares a content with all that was appended under its key, and not with what was
given last. So a call that is made again at once appends the content a second time, unless the
first one stored it alone or there is nothing to append.
-/
namespace EmbeddedCode.HashTable

open Loop

theorem append_eq_self {s t : CString} : s.append t = s ↔ t.bytes = [] := by
  constructor
  · intro h
    have hbytes : s.bytes ++ t.bytes = s.bytes := congrArg CString.bytes h
    simpa using hbytes
  · intro h
    cases s
    simp [CString.append, h]

theorem append_eq_right {s t : CString} : s.append t = t ↔ s.bytes = [] := by
  constructor
  · intro h
    have hbytes : s.bytes ++ t.bytes = t.bytes := congrArg CString.bytes h
    simpa using hbytes
  · intro h
    cases t
    simp [CString.append, h]

/-- The content is new, or it is all that the key has, or one of the two is the empty string. -/
def Settled (old : Option CString) (content : CString) : Prop :=
  content.bytes = [] ∨ ∀ text, old = some text → text = content ∨ text.bytes = []

/-- What the first of two equal calls stores. -/
theorem settled_iff {m : CString → Option CString} {key content text : CString}
    (h : (Call.build key content).apply m key = some text) :
    Settled (m key) content ↔ content = text ∨ content.bytes = [] := by
  simp only [Call.apply, Function.update_self, Option.some.injEq] at h
  subst h
  cases hold : m key with
  | none => simp [Settled]
  | some old =>
      simp only [Settled, Option.some.injEq, forall_eq']
      split_ifs with hsame
      · simp [hsame]
      · rw [eq_comm (b := old.append content), append_eq_right]
        have hne : old ≠ content := fun heq => hsame heq.symm
        simp only [hne, false_or]
        exact or_comm

theorem Call.apply_of_some {m : CString → Option CString} {key content text : CString}
    (hm : m key = some text) : (Call.build key content).apply m =
      Function.update m key (some (if content = text then text else text.append content)) := by
  simp only [Call.apply, hm]

theorem Call.apply_of_none {m : CString → Option CString} {key content : CString}
    (hm : m key = none) :
    (Call.build key content).apply m = Function.update m key (some content) := by
  simp only [Call.apply, hm]

/-- A content that is stored for a new key fits as it is. -/
theorem Call.fits_of_none {m : CString → Option CString} {key content : CString}
    (hm : m key = none) (h : content.strlen < contLen) :
    ∀ v, (Call.build key content).apply m key = some v → v.strlen < contLen := by
  intro v hv
  rw [Call.apply_of_none hm, Function.update_self] at hv
  exact Option.some.inj hv ▸ h

theorem Call.fits_of_some {m : CString → Option CString} {key content text : CString}
    (hm : m key = some text) (hne : content ≠ text)
    (h : (text.append content).strlen < contLen) :
    ∀ v, (Call.build key content).apply m key = some v → v.strlen < contLen := by
  intro v hv
  rw [Call.apply_of_some hm, if_neg hne, Function.update_self] at hv
  exact Option.some.inj hv ▸ h

namespace HashList

section
variable {α : Type} [DecidableEq α] {this this' : Hash α} {bucket : ℕ → List α}
  {m : CString → Option CString} {key content text : CString} {a node : α} {calls : List Call}

/-- A merge keeps the content, or appends to it what fits behind it. -/
theorem merge_cases (h : this.merge a content = some this') :
    (content = this.content a ∧ this' = this) ∨
      (content ≠ this.content a ∧ ((this.content a).append content).strlen < contLen ∧
        this' = {this with
          content := Function.update this.content a ((this.content a).append content)}) := by
  simp only [Hash.merge, CString.strcmp_eq_zero] at h
  split_ifs at h with hc
  · exact .inl ⟨hc, (Option.some.inj h).symm⟩
  · simp only [CString.strcat, CString.strcpy, Option.bind_eq_bind, Option.bind_eq_some_iff,
      Option.ite_none_right_eq_some] at h
    obtain ⟨_, ⟨hlt, ⟨⟩⟩, ⟨⟩⟩ := h
    exact .inr ⟨hc, hlt, rfl⟩

/-- What a call does that returns. The key is new, or its node is merged with the content. -/
theorem Holds.build_cases (h : Holds this bucket m)
    (hret : Returns (fun fuel => this.build fuel key content node) this') :
    (m key = none ∧ ∃ this₁, this.newNode key content node = some this₁) ∨
      ∃ a ∈ bucket (hashAlg key), this.key a = key ∧ m key = some (this.content a) ∧
        this.merge a content = some this' := by
  have hread := readNext_eq (h.valid (hashAlg_lt key) head_mem)
  simp only [Hash.build, hread, Option.bind_eq_bind, Option.bind_some] at hret
  rcases h.build_find key with ⟨hm, hfind⟩ | ⟨a, ha, hak, hm, hfind⟩
  · obtain ⟨this₁, hnew, -⟩ := Option.bind_eq_some_iff.mp (hfind.of_bind hret)
    exact .inl ⟨hm, this₁, hnew⟩
  · exact .inr ⟨a, ha, hak, hm, hfind.of_bind hret⟩

theorem Holds.of_build (h : Holds this bucket m) (hlive : this.live node = false)
    (hret : Returns (fun fuel => this.build fuel key content node) this') :
    ∃ bucket', Holds this' bucket' ((Call.build key content).apply m) := by
  rcases h.build_cases hret with ⟨hm, this₁, hnew⟩ | ⟨a, ha, hak, hm, hmerge⟩
  · simp only [Hash.newNode, hlive, Bool.false_eq_true, if_false, Option.bind_eq_bind,
      Option.bind_eq_some_iff, CString.strcpy, Option.ite_none_right_eq_some] at hnew
    obtain ⟨_, ⟨hkey, -⟩, _, ⟨hcontent, -⟩, -⟩ := hnew
    have hfit := Call.fits_of_none hm hcontent
    obtain ⟨this₂, bucket', hret₂, h₂, -⟩ := h.build hkey hfit hlive
    exact ⟨bucket', hret.unique hret₂ ▸ h₂⟩
  · rw [Call.apply_of_some hm]
    rcases merge_cases hmerge with ⟨hc, rfl⟩ | ⟨hc, -, rfl⟩
    · refine ⟨bucket, ?_⟩
      rwa [if_pos hc, ← hm, Function.update_eq_self]
    · rw [if_neg hc]
      exact ⟨bucket, h.ring, h.live, h.table.modify ha hak⟩

/-- The table stands for the reference map in any run, as no call that returns overflows. -/
theorem Reached.stands (h : Reached calls this) :
    ∃ bucket, Holds this bucket (reference calls) := by
  induction h with
  | @init this₀ _ hinit =>
      obtain ⟨this', hinit', -, hholds⟩ := init_holds this₀
      cases hinit.symm.trans hinit'
      exact ⟨_, hholds⟩
  | build node _ hlive hret ih =>
      obtain ⟨bucket, hholds⟩ := ih
      exact hholds.of_build hlive hret
  | del _ hret ih =>
      obtain ⟨bucket, hholds⟩ := ih
      obtain ⟨this', bucket', hret', hholds', -⟩ := hholds.del _
      exact ⟨bucket', hret.unique hret' ▸ hholds'⟩

theorem Holds.build_same (h : Holds this bucket m) (hm : m key = some text)
    (hret : Returns (fun fuel => this.build fuel key content node) this') :
    this' = this ↔ content = text ∨ content.bytes = [] := by
  rcases h.build_cases hret with ⟨hnone, -⟩ | ⟨a, -, -, hm', hmerge⟩
  · cases hnone.symm.trans hm
  · obtain rfl : this.content a = text := Option.some.inj (hm'.symm.trans hm)
    rcases merge_cases hmerge with ⟨hc, rfl⟩ | ⟨hc, -, rfl⟩
    · exact iff_of_true rfl (.inl hc)
    · rw [or_iff_right hc, ← append_eq_self (s := this.content a)]
      constructor
      · intro hsame
        have hcontent := congrFun (congrArg Hash.content hsame) a
        simpa using hcontent
      · intro hsame
        rw [hsame, Function.update_eq_self]

/-- `malloc` is not called for a key that is in the table. -/
theorem Holds.build_merges (h : Holds this bucket m) (hm : m key = some text)
    (hfit : (text.append content).strlen < contLen) (hne : content ≠ text) (node : α) :
    ∃ this', Returns (fun fuel => this.build fuel key content node) this' ∧
      Holds this' bucket (Function.update m key (some (text.append content))) := by
  have hread := readNext_eq (h.valid (hashAlg_lt key) head_mem)
  simp only [Hash.build, hread, Option.bind_eq_bind, Option.bind_some]
  rcases h.build_find key with ⟨hnone, -⟩ | ⟨a, ha, hak, hm', hfind⟩
  · cases hnone.symm.trans hm
  · obtain rfl : this.content a = text := Option.some.inj (hm'.symm.trans hm)
    have hmerge : this.merge a content = some {this with
        content := Function.update this.content a ((this.content a).append content)} := by
      simp [Hash.merge, CString.strcmp_eq_zero, hne, CString.strcat_eq hfit]
    exact ⟨_, hfind.bind hmerge, h.ring, h.live, h.table.modify ha hak⟩

end

end HashList

namespace KernelHlist

section
variable {α β : Type} [DecidableEq α] [DecidableEq β] {this this' : Hlist α β}
  {bucket : ℕ → List α} {m : CString → Option CString} {key content text : CString}
  {a node : α} {keyBlock contentBlock : β} {calls : List Call} {i : ℕ}

omit [DecidableEq α] in
theorem Holds.merge_cases (h : Holds this bucket m) (ha : a ∈ bucket i)
    (hmerge : this.merge a content = some this') :
    (content = this.text (this.content a) ∧ this' = this) ∨
      (content ≠ this.text (this.content a) ∧
        ((this.text (this.content a)).append content).strlen < contLen ∧
        this' = {this with
          text := Function.update this.text (this.content a)
            ((this.text (this.content a)).append content)}) := by
  simp only [Hlist.merge, h.readContent_eq ha, CString.strcmp_eq_zero, Option.bind_eq_bind,
    Option.bind_some] at hmerge
  split_ifs at hmerge with hc
  · exact .inl ⟨hc, (Option.some.inj hmerge).symm⟩
  · simp only [Hlist.strcat, h.contentSize i a ha, CString.strcat, CString.strcpy,
      Option.bind_eq_bind, Option.bind_some, Option.bind_eq_some_iff,
      Option.ite_none_right_eq_some] at hmerge
    obtain ⟨_, ⟨hlt, ⟨⟩⟩, ⟨⟩⟩ := hmerge
    exact .inr ⟨hc, hlt, rfl⟩

theorem Holds.build_cases (h : Holds this bucket m)
    (hret : Returns (fun fuel => this.build fuel key content node keyBlock contentBlock) this') :
    (m key = none ∧ ∃ this₁, this.newNode key content node keyBlock contentBlock = some this₁) ∨
      ∃ a ∈ bucket (hashAlg key), this.text (this.key a) = key ∧
        m key = some (this.text (this.content a)) ∧ this.merge a content = some this' := by
  have hread := readCell_eq (h.valid (hashAlg_lt key) head_mem)
  simp only [Hlist.build, h.hlistAlg_eq, hread, Option.bind_eq_bind, Option.bind_some] at hret
  rcases h.build_find key with ⟨hm, hfind⟩ | ⟨a, ha, hak, hm, hfind⟩
  · obtain ⟨this₁, hnew, -⟩ := Option.bind_eq_some_iff.mp (hfind.of_bind hret)
    exact .inl ⟨hm, this₁, hnew⟩
  · exact .inr ⟨a, ha, hak, hm, hfind.of_bind hret⟩

/-- The strings fit into their blocks whenever a call returns. -/
theorem Holds.of_build (h : Holds this bucket m) (hlive : this.live node = false)
    (hkb : this.size keyBlock = none) (hcb : this.size contentBlock = none)
    (hne : keyBlock ≠ contentBlock)
    (hret : Returns (fun fuel => this.build fuel key content node keyBlock contentBlock) this') :
    ∃ bucket', Holds this' bucket' ((Call.build key content).apply m) := by
  rcases h.build_cases hret with ⟨hm, this₁, hnew⟩ | ⟨a, ha, hak, hm, hmerge⟩
  · have hkey : key.strlen < nameLen := by
      by_contra hlong
      simp [Hlist.newNode, Hlist.mallocText, Hlist.strcpy, CString.strcpy, hlive, hkb,
        hlong] at hnew
    have hcontent : content.strlen < contLen := by
      by_contra hlong
      simp [Hlist.newNode, Hlist.mallocText, Hlist.strcpy, CString.strcpy, hlive, hkb, hcb,
        hne.symm, hkey, hlong] at hnew
    have hfit := Call.fits_of_none hm hcontent
    obtain ⟨this₂, bucket', hret₂, h₂⟩ := h.build hkey hfit hlive hkb hcb hne
    exact ⟨bucket', hret.unique hret₂ ▸ h₂⟩
  · rcases h.merge_cases ha hmerge with ⟨hc, rfl⟩ | ⟨hc, hlt, -⟩
    · refine ⟨bucket, ?_⟩
      rwa [Call.apply_of_some hm, if_pos hc, ← hm, Function.update_eq_self]
    · obtain ⟨this₂, hmerge₂, h₂⟩ := h.merge ha hak hm (Call.fits_of_some hm hc hlt)
      cases hmerge.symm.trans hmerge₂
      exact ⟨bucket, h₂⟩

theorem Reached.stands (h : Reached calls this) :
    ∃ bucket, Holds this bucket (reference calls) := by
  induction h with
  | @init this₀ _ hinit =>
      obtain ⟨this', hinit', hholds⟩ := init_holds this₀
      cases hinit.symm.trans hinit'
      exact ⟨_, hholds⟩
  | build node keyBlock contentBlock _ hlive hkb hcb hne hret ih =>
      obtain ⟨bucket, hholds⟩ := ih
      exact hholds.of_build hlive hkb hcb hne hret
  | del _ hret ih =>
      obtain ⟨bucket, hholds⟩ := ih
      obtain ⟨this', bucket', hret', hholds'⟩ := hholds.del _
      exact ⟨bucket', hret.unique hret' ▸ hholds'⟩

/-- A call with a key that is in the table. -/
theorem Holds.build_same (h : Holds this bucket m) (hm : m key = some text)
    (hret : Returns (fun fuel => this.build fuel key content node keyBlock contentBlock) this') :
    this' = this ↔ content = text ∨ content.bytes = [] := by
  rcases h.build_cases hret with ⟨hnone, -⟩ | ⟨a, ha, -, hm', hmerge⟩
  · cases hnone.symm.trans hm
  · obtain rfl : this.text (this.content a) = text := Option.some.inj (hm'.symm.trans hm)
    rcases h.merge_cases ha hmerge with ⟨hc, rfl⟩ | ⟨hc, -, rfl⟩
    · exact iff_of_true rfl (.inl hc)
    · rw [or_iff_right hc, ← append_eq_self (s := this.text (this.content a))]
      constructor
      · intro hsame
        have htext := congrFun (congrArg Hlist.text hsame) (this.content a)
        simpa using htext
      · intro hsame
        rw [hsame, Function.update_eq_self]

/-- `malloc` is not called for a key that is in the table. -/
theorem Holds.build_merges (h : Holds this bucket m) (hm : m key = some text)
    (hfit : (text.append content).strlen < contLen) (hne : content ≠ text) (node : α)
    (keyBlock contentBlock : β) : ∃ this',
      Returns (fun fuel => this.build fuel key content node keyBlock contentBlock) this' ∧
      Holds this' bucket (Function.update m key (some (text.append content))) := by
  have hread := readCell_eq (h.valid (hashAlg_lt key) head_mem)
  simp only [Hlist.build, h.hlistAlg_eq, hread, Option.bind_eq_bind, Option.bind_some]
  have happly : (Call.build key content).apply m = _ := Call.apply_of_some hm
  rw [if_neg hne] at happly
  rcases h.build_find key with ⟨hnone, -⟩ | ⟨a, ha, hak, hm', hfind⟩
  · cases hnone.symm.trans hm
  · obtain ⟨this', hmerge, h'⟩ := h.merge ha hak hm' (Call.fits_of_some hm hne hfit)
    exact ⟨this', hfind.bind hmerge, happly ▸ h'⟩

end

end KernelHlist

theorem apply_build (m : CString → Option CString) (key content : CString) :
    ∃ text, (Call.build key content).apply m key = some text := by
  simp only [Call.apply, Function.update_self]
  exact ⟨_, rfl⟩

/-- After any run that overflows no buffer, two equal calls in a row leave what the first one
leaves, in memory and in the map, exactly when the content is settled by the first one. -/
theorem build_twice_iff (calls : List Call) (key content : CString) :
    (∀ {α : Type} [DecidableEq α] (this this₁ this₂ : HashList.Hash α) (node node' : α),
      HashList.Reached calls this → this.live node = false →
      Returns (fun fuel => this.build fuel key content node) this₁ →
      Returns (fun fuel => this₁.build fuel key content node') this₂ →
      (this₂ = this₁ ↔ Settled (reference calls key) content)) ∧
    (∀ {α β : Type} [DecidableEq α] [DecidableEq β] (this this₁ this₂ : KernelHlist.Hlist α β)
      (node node' : α) (keyBlock keyBlock' contentBlock contentBlock' : β),
      KernelHlist.Reached calls this → this.live node = false → this.size keyBlock = none →
      this.size contentBlock = none → keyBlock ≠ contentBlock →
      Returns (fun fuel => this.build fuel key content node keyBlock contentBlock) this₁ →
      Returns (fun fuel => this₁.build fuel key content node' keyBlock' contentBlock') this₂ →
      (this₂ = this₁ ↔ Settled (reference calls key) content)) ∧
    (reference (.build key content :: .build key content :: calls) =
      reference (.build key content :: calls) ↔ Settled (reference calls key) content) := by
  obtain ⟨text, htext⟩ := apply_build (reference calls) key content
  rw [settled_iff htext]
  refine ⟨?_, ?_, ?_⟩
  · intro α _ this this₁ this₂ node node' h hlive hret₁ hret₂
    obtain ⟨bucket, hholds⟩ := h.stands
    obtain ⟨bucket₁, hholds₁⟩ := hholds.of_build hlive hret₁
    exact hholds₁.build_same htext hret₂
  · intro α β _ _ this this₁ this₂ node node' keyBlock keyBlock' contentBlock contentBlock' h hlive
      hkb hcb hne hret₁ hret₂
    obtain ⟨bucket, hholds⟩ := h.stands
    obtain ⟨bucket₁, hholds₁⟩ := hholds.of_build hlive hkb hcb hne hret₁
    exact hholds₁.build_same htext hret₂
  · have hfirst : reference (.build key content :: calls) key = some text := htext
    have hsecond : reference (.build key content :: .build key content :: calls) =
        Function.update (reference (.build key content :: calls)) key
          (some (if content = text then text else text.append content)) :=
      Call.apply_of_some htext
    rw [hsecond, Function.update_eq_self_iff, hfirst, Option.some.injEq]
    by_cases hc : content = text
    · simp [hc]
    · rw [if_neg hc, append_eq_self, or_iff_right hc]

/-- One content, and then another one twice: the table changes at every call. -/
theorem build_twice_xy : ∃ key x y : CString, x ≠ y ∧
    (∃ this : HashList.Hash ℕ, HashList.Reached [.build key x] this ∧ ∀ node, ∃ this₁,
      Returns (fun fuel => this.build fuel key y node) this₁ ∧ ∀ node', ∃ this₂,
      Returns (fun fuel => this₁.build fuel key y node') this₂ ∧ this₂ ≠ this₁) ∧
    ∃ this : KernelHlist.Hlist ℕ ℕ, KernelHlist.Reached [.build key x] this ∧
      ∀ node keyBlock contentBlock, ∃ this₁,
      Returns (fun fuel => this.build fuel key y node keyBlock contentBlock) this₁ ∧
      ∀ node' keyBlock' contentBlock', ∃ this₂,
      Returns (fun fuel => this₁.build fuel key y node' keyBlock' contentBlock') this₂ ∧
      this₂ ≠ this₁ := by
  let key : CString := ⟨[0x6b], by decide⟩
  let x : CString := ⟨[0x78], by decide⟩
  let y : CString := ⟨[0x79], by decide⟩
  let memory : HashList.Hash ℕ := ⟨fun _ => false, fun _ => x, fun _ => x, id, id⟩
  let memory' : KernelHlist.Hlist ℕ ℕ := ⟨0, fun _ => false, id, id, fun _ => none, fun _ => none,
    fun _ => none, fun _ => x⟩
  have hx : reference [.build key x] key = some x := by simp [reference, Call.apply]
  have hxy : ∀ m : CString → Option CString,
      Function.update m key (some (x.append y)) key = some (x.append y) :=
    fun m => Function.update_self ..
  have hshort : (x.append y).strlen < contLen := by decide
  have hshort' : ((x.append y).append y).strlen < contLen := by decide
  have hne : y ≠ x := by decide
  have hne' : y ≠ x.append y := by decide
  have hchange : ¬ (y = x.append y ∨ y.bytes = []) := by decide
  have hfits : Fits [.build key x] := by
    refine ⟨by decide, fun k v hv => ?_, trivial⟩
    simp only [reference, Call.apply, Function.update_apply] at hv
    split_ifs at hv
    cases hv
    decide
  refine ⟨key, x, y, hne.symm, ?_, ?_⟩
  · have h₀ : HashList.Reached [] _ := .init (show memory.init = some _ from rfl)
    obtain ⟨this, hret⟩ := h₀.succeeds hfits 0 rfl
    have h := h₀.build 0 rfl hret
    obtain ⟨bucket, hholds⟩ := h.stands
    refine ⟨this, h, fun node => ?_⟩
    obtain ⟨this₁, hret₁, hholds₁⟩ := hholds.build_merges hx hshort hne node
    refine ⟨this₁, hret₁, fun node' => ?_⟩
    obtain ⟨this₂, hret₂, -⟩ := hholds₁.build_merges (hxy _) hshort' hne' node'
    exact ⟨this₂, hret₂, fun hsame => hchange ((hholds₁.build_same (hxy _) hret₂).mp hsame)⟩
  · have h₀ : KernelHlist.Reached [] _ := .init (show memory'.init = some _ from rfl)
    obtain ⟨this, hret⟩ := h₀.succeeds hfits 0 0 1 rfl rfl rfl (by decide)
    have h := h₀.build 0 0 1 rfl rfl rfl (by decide) hret
    obtain ⟨bucket, hholds⟩ := h.stands
    refine ⟨this, h, fun node keyBlock contentBlock => ?_⟩
    obtain ⟨this₁, hret₁, hholds₁⟩ :=
      hholds.build_merges hx hshort hne node keyBlock contentBlock
    refine ⟨this₁, hret₁, fun node' keyBlock' contentBlock' => ?_⟩
    obtain ⟨this₂, hret₂, -⟩ :=
      hholds₁.build_merges (hxy _) hshort' hne' node' keyBlock' contentBlock'
    exact ⟨this₂, hret₂, fun hsame => hchange ((hholds₁.build_same (hxy _) hret₂).mp hsame)⟩

end EmbeddedCode.HashTable
