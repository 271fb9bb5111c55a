import EmbeddedCode.HashTable.Agreement
import Mathlib.Data.Set.Finite.Basic

/-!
# The arrays of the nodes

`build_list` of `01hash_list/hash.c` bounds neither of its copies. A key and a content
below the limits are safe in a new node, but `strcat` appends to a content that is there
already. The arrays suffice for a run exactly when every content that is appended fits
behind the one before it.
-/
namespace EmbeddedCode.HashTable.HashList

open Loop

/-- The limits for the strings of one call. -/
def Within : Call → Prop
  | .build key content => key.strlen < nameLen ∧ content.strlen < contLen
  | .del _ => True

/-- A content that is appended to an older one leaves room for the NUL. -/
def MergesFit : List Call → Prop
  | [] => True
  | .build key content :: calls =>
      (∀ old, reference calls key = some old → content ≠ old →
        old.strlen + content.strlen < contLen) ∧ MergesFit calls
  | .del _ :: calls => MergesFit calls

def Short {α : Type} (this : Hash α) : Prop :=
  ∀ i < arrSize, ∀ a, InBucket this i a →
    (this.key a).strlen < nameLen ∧ (this.content a).strlen < contLen

/-- No state of a run has a string that is too long, and no call of it writes beyond an array. -/
def Safe (α : Type) [DecidableEq α] (calls : List Call) : Prop :=
  ∀ earlier, earlier <:+ calls → ∀ this : Hash α, Reached earlier this →
    Short this ∧ ∀ call, call :: earlier <:+ calls → Succeeds this call

theorem strlen_append (s t : CString) : (s.append t).strlen = s.strlen + t.strlen :=
  List.length_append

/-- What is known of the calls of a run. -/
def Fitting (calls : List Call) : Prop := (∀ call ∈ calls, Within call) ∧ MergesFit calls

section
variable {calls : List Call} {call : Call} {key content : CString}

theorem Fitting.tail (h : Fitting (call :: calls)) : Fitting calls := by
  refine ⟨fun c hc => h.1 c (List.mem_cons_of_mem _ hc), ?_⟩
  cases call with
  | build key content => exact h.2.2
  | del key => exact h.2

theorem Fitting.suffix {earlier : List Call} (h : Fitting calls) (hsuffix : earlier <:+ calls) :
    Fitting earlier := by
  obtain ⟨later, rfl⟩ := hsuffix
  induction later with
  | nil => exact h
  | cons call later ih => exact ih h.tail

/-- The strings of the map are as short as the calls and the merges make them. -/
theorem Fitting.short (h : Fitting calls) {v : CString} (hv : reference calls key = some v) :
    key.strlen < nameLen ∧ v.strlen < contLen := by
  induction calls generalizing key v with
  | nil => cases hv
  | cons call calls ih =>
      have hwithin := h.1 call List.mem_cons_self
      cases call with
      | del key' =>
          simp only [reference, Call.apply, Function.update_apply] at hv
          split_ifs at hv
          exact ih h.tail hv
      | build key' content =>
          simp only [reference, Call.apply, Function.update_apply] at hv
          split_ifs at hv with hkey
          · rw [hkey]
            refine ⟨hwithin.1, ?_⟩
            rw [← Option.some.inj hv]
            cases hold : reference calls key' with
            | none => exact hwithin.2
            | some old =>
                simp only
                split_ifs with hsame
                · exact (ih h.tail hold).2
                · rw [strlen_append]
                  exact h.2.1 old hold hsame
          · exact ih h.tail hv

theorem Fitting.build (h : Fitting (.build key content :: calls)) : key.strlen < nameLen ∧
    ∀ v, reference (.build key content :: calls) key = some v → v.strlen < contLen :=
  ⟨(h.1 _ List.mem_cons_self).1, fun _ hv => (h.short hv).2⟩

variable {α : Type} [DecidableEq α] {this : Hash α}

theorem Fitting.holds (hfit : Fitting calls) (h : Reached calls this) :
    ∃ bucket, Holds this bucket (reference calls) :=
  h.holds_of (P := Fitting) Fitting.tail Fitting.build hfit

theorem Fitting.succeeds (hfit : Fitting (call :: calls)) (h : Reached calls this) :
    Succeeds this call := by
  obtain ⟨bucket, hholds⟩ := hfit.tail.holds h
  cases call with
  | build key content =>
      intro node hlive
      obtain ⟨this', _, hret, -⟩ := hholds.build hfit.build.1 hfit.build.2 hlive
      exact ⟨this', hret⟩
  | del key =>
      obtain ⟨this', _, hret, -⟩ := hholds.del key
      exact ⟨this', hret⟩

theorem Fitting.safe (hfit : Fitting calls) : Safe α calls := by
  intro earlier hsuffix this h
  have hearlier := hfit.suffix hsuffix
  obtain ⟨bucket, hholds⟩ := hearlier.holds h
  refine ⟨fun i hi a ha => ?_, fun call hcall => (hfit.suffix hcall).succeeds h⟩
  have hmem := (hholds.inBucket_iff hi).mp ha
  apply hearlier.short
  refine (hholds.table.lookup _ _).mpr ⟨a, ?_, rfl, rfl⟩
  rwa [hholds.table.placed i a hmem]

/-- Some run takes the calls, and occupies finitely many addresses. -/
theorem Fitting.reached [Infinite α] (hfit : Fitting calls) :
    ∃ this : Hash α, Reached calls this ∧ {a | this.live a = true}.Finite := by
  induction calls with
  | nil =>
      let memory : Hash α := ⟨fun _ => false, fun _ => ⟨[], by simp⟩, fun _ => ⟨[], by simp⟩,
        id, id⟩
      obtain ⟨this, hinit, hlive, -⟩ := init_holds memory
      refine ⟨this, .init hinit, ?_⟩
      simp [hlive, memory]
  | cons call calls ih =>
      obtain ⟨this, h, hfinite⟩ := ih hfit.tail
      obtain ⟨bucket, hholds⟩ := hfit.tail.holds h
      cases call with
      | build key content =>
          obtain ⟨node, hnode⟩ := hfinite.exists_notMem
          have hlive : this.live node = false := Bool.eq_false_iff.mpr hnode
          obtain ⟨this', _, hret, -, hnew⟩ := hholds.build hfit.build.1 hfit.build.2 hlive
          exact ⟨this', .build node h hlive hret, (hfinite.insert node).subset hnew⟩
      | del key =>
          obtain ⟨this', _, hret, -, hnew⟩ := hholds.del key
          exact ⟨this', .del h hret, hfinite.subset hnew⟩

/-- A content that does not fit behind the one before it is written beyond the array. -/
theorem Holds.build_overflow {bucket : ℕ → List α} {m : CString → Option CString}
    (h : Holds this bucket m) {old : CString} (hold : m key = some old) (hne : content ≠ old)
    (hlong : contLen ≤ old.strlen + content.strlen) (node : α) :
    ¬ ∃ this', Returns (fun fuel => this.build fuel key content node) this' := by
  rcases h.build_find key with ⟨hnone, -⟩ | ⟨a, -, -, ha, hfind⟩
  · cases hnone.symm.trans hold
  · obtain rfl : this.content a = old := Option.some.inj (ha.symm.trans hold)
    have hmerge : this.merge a content = none := by
      have hlong' : ¬ ((this.content a).append content).strlen < contLen := by
        rw [strlen_append]
        omega
      simp [Hash.merge, CString.strcmp_eq_zero, hne, CString.strcat, CString.strcpy, hlong']
    have hread := readNext_eq (h.valid (hashAlg_lt key) head_mem)
    rintro ⟨this', n, hn⟩
    obtain ⟨n', hfind⟩ := hfind
    have hrun := hn (max n n') (Nat.le_max_left _ _)
    have hfound := hfind (max n n') (Nat.le_max_right _ _)
    simp only [Hash.build, hread, hfound, Option.bind_eq_bind, Option.bind_some] at hrun
    cases hmerge.symm.trans hrun

theorem Safe.mergesFit [Infinite α] (hwithin : ∀ call ∈ calls, Within call)
    (h : Safe α calls) : MergesFit calls := by
  induction calls with
  | nil => trivial
  | cons call calls ih =>
      have hsafe : Safe α calls := by
        intro earlier hsuffix this hreached
        obtain ⟨hshort, hnext⟩ := h earlier (hsuffix.trans (List.suffix_cons _ _)) this hreached
        exact ⟨hshort, fun c hc => hnext c (hc.trans (List.suffix_cons _ _))⟩
      have hfit : Fitting calls := ⟨fun c hc => hwithin c (List.mem_cons_of_mem _ hc),
        ih (fun c hc => hwithin c (List.mem_cons_of_mem _ hc)) hsafe⟩
      cases call with
      | del key => exact hfit.2
      | build key content =>
          refine ⟨fun old hold hne => ?_, hfit.2⟩
          by_contra hlong
          obtain ⟨this, hreached, hfinite⟩ := hfit.reached (α := α)
          obtain ⟨bucket, hholds⟩ := hfit.holds hreached
          obtain ⟨node, hnode⟩ := hfinite.exists_notMem
          have hlive : this.live node = false := Bool.eq_false_iff.mpr hnode
          have hsucceeds := (h calls (List.suffix_cons _ _) this hreached).2 _ List.suffix_rfl
          exact hholds.build_overflow hold hne (not_lt.mp hlong) node (hsucceeds node hlive)

/-- In a run of calls below the limits nothing is written beyond an array, exactly when every
content that is appended fits behind the one before it. -/
theorem safe_iff [Infinite α] (hwithin : ∀ call ∈ calls, Within call) :
    Safe α calls ↔ MergesFit calls :=
  ⟨Safe.mergesFit hwithin, fun hmerges => Fitting.safe ⟨hwithin, hmerges⟩⟩

end

/-- The string of `n` equal characters. -/
def repeated (n : ℕ) (c : UInt8) (hc : c ≠ 0) : CString :=
  ⟨List.replicate n c, fun hmem => hc (List.eq_of_mem_replicate hmem).symm⟩

theorem strlen_repeated (n : ℕ) (c : UInt8) (hc : c ≠ 0) : (repeated n c hc).strlen = n :=
  List.length_replicate

theorem repeated_ne {n : ℕ} {c d : UInt8} {hc : c ≠ 0} {hd : d ≠ 0} (hcd : c ≠ d) :
    repeated (n + 1) c hc ≠ repeated (n + 1) d hd := by
  intro heq
  have hbytes := congrArg CString.bytes heq
  simp only [repeated, List.replicate_succ, List.cons.injEq] at hbytes
  exact hcd hbytes.1

/-- Two contents of 30 bytes for one key. -/
theorem safe_iff_short : ∃ key x y : CString, x.strlen = 30 ∧ y.strlen = 30 ∧
    Safe ℕ [.build key y, .build key x] := by
  let key := repeated 1 0x6b (by decide)
  let x := repeated 30 0x61 (by decide)
  let y := repeated 30 0x62 (by decide)
  have hx : x.strlen = 30 := strlen_repeated 30 _ _
  have hy : y.strlen = 30 := strlen_repeated 30 _ _
  refine ⟨key, x, y, hx, hy, (safe_iff ?_).mpr ⟨fun old hold _ => ?_, ?_, trivial⟩⟩
  · simp [Within, hx, hy, key, strlen_repeated, nameLen, contLen]
  · simp only [reference, Call.apply, Function.update_self, Option.some.injEq] at hold
    rw [← hold, hx, hy]
    decide
  · intro old hold
    cases hold

/-- Two contents of 60 bytes for one key: the second one is written beyond the array. -/
theorem safe_overflow : ∃ key x y : CString, key.strlen = 1 ∧ x.strlen = 60 ∧ y.strlen = 60 ∧
    (∀ call ∈ [.build key y, .build key x], Within call) ∧ ¬ Safe ℕ [.build key y, .build key x] ∧
    ∃ this : Hash ℕ, Reached [.build key x] this ∧
      ∀ node, ¬ ∃ this', Returns (fun fuel => this.build fuel key y node) this' := by
  let key := repeated 1 0x6b (by decide)
  let x := repeated 60 0x61 (by decide)
  let y := repeated 60 0x62 (by decide)
  have hkey : key.strlen = 1 := strlen_repeated 1 _ _
  have hx : x.strlen = 60 := strlen_repeated 60 _ _
  have hy : y.strlen = 60 := strlen_repeated 60 _ _
  have hyx : y ≠ x := repeated_ne (by decide)
  have hwithin : ∀ call ∈ [.build key y, .build key x], Within call := by
    simp [Within, hkey, hx, hy, nameLen, contLen]
  have hold : reference [.build key x] key = some x := by
    simp [reference, Call.apply]
  have hlong : contLen ≤ x.strlen + y.strlen := by
    rw [hx, hy]
    decide
  have hfit : Fitting [.build key x] := by
    refine ⟨fun call hcall => hwithin call (List.mem_cons_of_mem _ hcall), ?_, trivial⟩
    intro old hold
    cases hold
  obtain ⟨this, hreached, -⟩ := hfit.reached (α := ℕ)
  obtain ⟨bucket, hholds⟩ := hfit.holds hreached
  refine ⟨key, x, y, hkey, hx, hy, hwithin, fun hsafe => ?_, this, hreached,
    hholds.build_overflow hold hyx hlong⟩
  have hmerge := (hsafe.mergesFit hwithin).1 x hold hyx
  omega

end EmbeddedCode.HashTable.HashList
