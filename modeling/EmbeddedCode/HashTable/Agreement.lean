import EmbeddedCode.HashTable.HashList
import EmbeddedCode.HashTable.KernelHlist

/-!
# Both tables stand for the same map

A run starts at the initialization and takes any finite sequence of calls of `build`
and `del`. As long as keys and contents fit into their buffers, every call returns,
and both tables answer every `search` as the reference map does.
-/
namespace EmbeddedCode.HashTable

open Loop HashList KernelHlist

/-- A call of a function of `hash.c` returns, whatever address `malloc` gives. -/
def HashList.Succeeds {α : Type} [DecidableEq α] (this : Hash α) : Call → Prop
  | .build key content => ∀ node, this.live node = false →
      ∃ this', Returns (fun fuel => this.build fuel key content node) this'
  | .del key => ∃ this', Returns (fun fuel => this.del fuel key) this'

/-- A call of a function of `hlist.c` returns, whatever addresses `malloc` gives. -/
def KernelHlist.Succeeds {α β : Type} [DecidableEq α] [DecidableEq β] (this : Hlist α β) :
    Call → Prop
  | .build key content => ∀ node keyBlock contentBlock, this.live node = false →
      this.size keyBlock = none → this.size contentBlock = none → keyBlock ≠ contentBlock →
      ∃ this', Returns (fun fuel => this.build fuel key content node keyBlock contentBlock) this'
  | .del key => ∃ this', Returns (fun fuel => this.del fuel key) this'

section
variable {α α' β : Type} [DecidableEq α] [DecidableEq α'] [DecidableEq β] {hash : Hash α}
  {hlist : Hlist α' β} {calls : List Call} {call : Call}

theorem HashList.Reached.succeeds (h : HashList.Reached calls hash) (hfit : Fits (call :: calls)) :
    HashList.Succeeds hash call := by
  obtain ⟨bucket, hholds⟩ := h.holds hfit.2.2
  cases call with
  | build key content =>
      intro node hlive
      obtain ⟨this', _, hret, _⟩ := hholds.build hfit.1 (fun v hv => hfit.2.1 _ v hv) hlive
      exact ⟨this', hret⟩
  | del key =>
      obtain ⟨this', _, hret, _⟩ := hholds.del key
      exact ⟨this', hret⟩

theorem KernelHlist.Reached.succeeds (h : KernelHlist.Reached calls hlist)
    (hfit : Fits (call :: calls)) : KernelHlist.Succeeds hlist call := by
  obtain ⟨bucket, hholds⟩ := h.holds hfit.2.2
  cases call with
  | build key content =>
      intro node keyBlock contentBlock hlive hkb hcb hne
      obtain ⟨this', _, hret, _⟩ :=
        hholds.build hfit.1 (fun v hv => hfit.2.1 _ v hv) hlive hkb hcb hne
      exact ⟨this', hret⟩
  | del key =>
      obtain ⟨this', _, hret, _⟩ := hholds.del key
      exact ⟨this', hret⟩

/-- Every call succeeds, and the two tables answer as the reference map and so alike. -/
theorem tables_agree (hhash : HashList.Reached calls hash)
    (hhlist : KernelHlist.Reached calls hlist) (hfit : Fits calls) :
    (∀ key, hashAlg key < arrSize) ∧
    (∀ call, Fits (call :: calls) →
      HashList.Succeeds hash call ∧ KernelHlist.Succeeds hlist call) ∧
    Answers (fun i a => i < arrSize ∧ HashList.InBucket hash i a) hash.key hash.content
      (fun fuel key => hash.search fuel key) (reference calls) ∧
    Answers (fun i a => i < arrSize ∧ KernelHlist.InBucket hlist i a)
      (fun a => hlist.text (hlist.key a)) (fun a => hlist.text (hlist.content a))
      (fun fuel key => hlist.search fuel key) (reference calls) ∧
    ∀ key, ∃ r r', Returns (fun fuel => hash.search fuel key) r ∧
      Returns (fun fuel => hlist.search fuel key) r' ∧
      r.map hash.content = r'.map fun a => hlist.text (hlist.content a) := by
  obtain ⟨bucket, hholds⟩ := hhash.holds hfit
  obtain ⟨bucket', hholds'⟩ := hhlist.holds hfit
  refine ⟨hashAlg_lt, fun call hcall => ⟨hhash.succeeds hcall, hhlist.succeeds hcall⟩,
    hholds.answers, hholds'.answers, fun key => ?_⟩
  obtain ⟨r, hr, hcontent, _⟩ := hholds.search key
  obtain ⟨r', hr', hcontent', _⟩ := hholds'.search key
  exact ⟨r, r', hr, hr', hcontent.trans hcontent'.symm⟩

end

/-- One key is built and another one deleted, in memories where nothing was allocated. -/
theorem tables_agree_build_del : ∃ (hash : Hash ℕ) (hlist : Hlist ℕ ℕ) (a b x : CString),
    reference [.del b, .build a x] a = some x ∧
    ∃ r r', Returns (fun fuel => hash.search fuel a) r ∧
      Returns (fun fuel => hlist.search fuel a) r' ∧
      r.map hash.content = r'.map fun node => hlist.text (hlist.content node) := by
  let a : CString := ⟨[0x61], by decide⟩
  let b : CString := ⟨[0x62], by decide⟩
  let x : CString := ⟨[0x78], by decide⟩
  let memory : Hash ℕ := ⟨fun _ => false, fun _ => x, fun _ => x, id, id⟩
  let memory' : Hlist ℕ ℕ := ⟨0, fun _ => false, id, id, fun _ => none, fun _ => none,
    fun _ => none, fun _ => x⟩
  have hbuild : Fits [.build a x] := by
    refine ⟨by decide, fun key v hv => ?_, trivial⟩
    simp only [reference, Call.apply, Function.update_apply] at hv
    split_ifs at hv
    cases hv
    decide
  have hdel : Fits [.del b, .build a x] := fits_del hbuild (by decide) hbuild.2.1
  have h₀ : HashList.Reached [] _ := .init (show memory.init = some _ from rfl)
  obtain ⟨_, hret₁⟩ := h₀.succeeds hbuild 0 rfl
  have h₁ := h₀.build 0 rfl hret₁
  obtain ⟨_, hret₂⟩ := h₁.succeeds hdel
  have h₀' : KernelHlist.Reached [] _ := .init (show memory'.init = some _ from rfl)
  obtain ⟨_, hret₁'⟩ := h₀'.succeeds hbuild 0 0 1 rfl rfl rfl (by decide)
  have h₁' := h₀'.build 0 0 1 rfl rfl rfl (by decide) hret₁'
  obtain ⟨_, hret₂'⟩ := h₁'.succeeds hdel
  refine ⟨_, _, a, b, x, ?_, (tables_agree (h₁.del hret₂) (h₁'.del hret₂') hdel).2.2.2.2 a⟩
  simp [reference, Call.apply, a, b]

end EmbeddedCode.HashTable
