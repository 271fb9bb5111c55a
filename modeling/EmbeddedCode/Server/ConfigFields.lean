import EmbeddedCode.Server.ConfigBounds
import Mathlib.Data.Bool.AllAny

/-!
# What a configuration file means

A file of empty lines, comments and assignments. Each field of `up_conf` becomes what the last
assignment to its name says, and keeps its value when there is none.
-/
namespace EmbeddedCode.Server

open Loop
open CString (front)

def isBlank (ch : UInt8) : Bool := isSpace ch && ch != carriage && ch != newline

/-- The names whose values are copied into the arrays. -/
def paths : List CString := [literal "doc_root", literal "conf_file", literal "log_file"]

/-- A line without its newline, and the name and the value that it assigns. -/
inductive Written : Text → Option (Text × Text) → Prop
  | empty : Written [] none
  | carriageReturn : Written [carriage] none
  | comment (blanks text : Text) : (∀ c ∈ blanks, isSpace c = true ∧ c ≠ newline) →
      newline ∉ text → Written (blanks ++ hash :: text) none
  | assignment (lead name gap gap' value trail : Text) : (∀ c ∈ lead, isBlank c = true) →
      name ≠ [] → name.head? ≠ some hash → (∀ c ∈ name, inName c = true) →
      (∀ c ∈ gap, isBlank c = true) → (∀ c ∈ gap', isBlank c = true) →
      value ≠ [] → value.head? ≠ some equals → (∀ c ∈ value, isSpace c = false) →
      (∀ c ∈ trail, isSpace c = true ∧ c ≠ newline) →
      (front name ∈ paths → value.length < pathSize) →
      Written (lead ++ (name ++ (gap ++ equals :: (gap' ++ (value ++ trail))))) (some (name, value))

/-- The value of the last assignment to a name. Both end at a NUL, as strings do. -/
def lastValue (assignments : List (Text × Text)) (name : CString) : Option CString :=
  (assignments.filter fun a => front a.1 = name).getLast?.map fun a => front a.2

/-- A path in its array. -/
def padded (val : CString) : Text := val.bytes ++ List.replicate (pathSize - val.strlen) 0

def isTrue (val : CString) : Bool := val.bytes.map tolower = bytes "true"

/-- `up_conf` after some assignments. A port is brought into the range of `long` first. -/
def outcome (upConf : UpCfgInfo) (assignments : List (Text × Text)) : UpCfgInfo :=
  let last (s : CString) := lastValue assignments s
  { listenPort := ((last (literal "port")).map fun val =>
      max longMin (min longMax (decimal val.bytes)) % 65536).getD upConf.listenPort
    docRootPath := ((last (literal "doc_root")).map padded).getD upConf.docRootPath
    confFile := ((last (literal "conf_file")).map padded).getD upConf.confFile
    logFile := ((last (literal "log_file")).map padded).getD upConf.logFile
    runAsDaemon := ((last (literal "daemon")).map fun val => if isTrue val then 1 else 0).getD
      upConf.runAsDaemon
    verbose := ((last (literal "verbose")).map fun val => if isTrue val then 1 else 0).getD
      upConf.verbose }

section
variable {name val : CString} {assignments : List (Text × Text)} {upConf : UpCfgInfo}

theorem ushort_atoi (s : CString) :
    ushort (atoi s) = max longMin (min longMax (decimal s.bytes)) % 65536 := by
  have hwrap : atoi s % 4294967296 = strtol s % 4294967296 := Int.bmod_emod
  change atoi s % 65536 = strtol s % 65536
  omega

theorem tolower_ne_zero {ch : UInt8} (h : ch ≠ 0) : tolower ch ≠ 0 := by
  simp only [tolower]
  split_ifs with hupper
  · intro hzero
    simp only [Bool.and_eq_true, decide_eq_true_eq, UInt8.le_iff_toNat_le] at hupper
    have hsum := congrArg UInt8.toNat hzero
    rw [UInt8.toNat_add] at hsum
    have hle : ch.toNat ≤ 90 := hupper.2
    change (ch.toNat + 32) % 256 = 0 at hsum
    omega
  · exact h

theorem strcasecmp_true (s : CString) : strcasecmp s (literal "true") = 0 ↔ isTrue s = true := by
  have hnul : 0 ∉ s.bytes.map tolower := by
    intro hmem
    obtain ⟨ch, hch, hzero⟩ := List.mem_map.mp hmem
    exact tolower_ne_zero (ne_of_mem_of_not_mem hch s.noNul) hzero
  simp only [strcasecmp, isTrue, decide_eq_true_eq]
  rw [CString.compareBytes_eq_zero hnul (by decide)]
  rfl

theorem assign_eq (upConf : UpCfgInfo) (name val : CString) :
    assign upConf name val =
      { listenPort := if name = literal "port" then ushort (atoi val) else upConf.listenPort
        docRootPath := if name = literal "doc_root" then CString.strncpy pathSize val.bytes
          else upConf.docRootPath
        confFile := if name = literal "conf_file" then CString.strncpy pathSize val.bytes
          else upConf.confFile
        logFile := if name = literal "log_file" then CString.strncpy pathSize val.bytes
          else upConf.logFile
        runAsDaemon := if name = literal "daemon" then if isTrue val then 1 else 0
          else upConf.runAsDaemon
        verbose := if name = literal "verbose" then if isTrue val then 1 else 0
          else upConf.verbose } := by
  have hfields : ∀ u : UpCfgInfo, u =
      ⟨u.listenPort, u.docRootPath, u.confFile, u.logFile, u.runAsDaemon, u.verbose⟩ :=
    fun _ => rfl
  rw [hfields (assign upConf name val)]
  simp only [assign, apply_ite UpCfgInfo.listenPort, apply_ite UpCfgInfo.docRootPath,
    apply_ite UpCfgInfo.confFile, apply_ite UpCfgInfo.logFile, apply_ite UpCfgInfo.runAsDaemon,
    apply_ite UpCfgInfo.verbose, ite_self, CString.strcmp_eq_zero, strcasecmp_true]

theorem strncpy_front {name value : Text} (h : front name ∈ paths → value.length < pathSize)
    (hname : front name ∈ paths) :
    CString.strncpy pathSize (front value).bytes = padded (front value) := by
  apply CString.strncpy_of_noNul (front value).noNul
  have hprefix := (List.takeWhile_prefix (l := value) (· != 0)).length_le
  exact Nat.le_of_lt (Nat.lt_of_le_of_lt hprefix (h hname))

theorem lastValue_append (assignments : List (Text × Text)) (a : Text × Text) (s : CString) :
    lastValue (assignments ++ [a]) s =
      if front a.1 = s then some (front a.2) else lastValue assignments s := by
  simp only [lastValue, List.filter_append, List.filter_cons, List.filter_nil, decide_eq_true_eq]
  split_ifs with h
  · simp
  · simp

/-- One more assignment changes the field of its name only. -/
theorem outcome_append (upConf : UpCfgInfo) (assignments : List (Text × Text)) {name value : Text}
    (h : front name ∈ paths → value.length < pathSize) :
    outcome upConf (assignments ++ [(name, value)]) =
      assign (outcome upConf assignments) (front name) (front value) := by
  have hpath := strncpy_front h
  simp only [paths, List.mem_cons, List.not_mem_nil, or_false] at hpath
  simp only [outcome, lastValue_append, assign_eq, ushort_atoi, UpCfgInfo.mk.injEq]
  refine ⟨?_, ?_, ?_, ?_, ?_, ?_⟩ <;> split_ifs with hname <;> simp_all

theorem outcome_nil (upConf : UpCfgInfo) : outcome upConf [] = upConf := rfl

/-- The assignments one after the other, where the paths fit into their arrays. -/
theorem foldl_assign (upConf : UpCfgInfo)
    (h : ∀ a ∈ assignments, front a.1 ∈ paths → a.2.length < pathSize) :
    assignments.foldl (fun upConf a => assign upConf (front a.1) (front a.2)) upConf =
      outcome upConf assignments := by
  induction assignments using List.reverseRecOn with
  | nil => exact (outcome_nil upConf).symm
  | append_singleton assignments a ih =>
      rw [List.foldl_append, ih fun b hb => h b (List.mem_append_left _ hb),
        outcome_append upConf assignments (h a (by simp))]
      rfl

/-! ## The lines -/

theorem isGap_of_isBlank {ch : UInt8} (h : isBlank ch = true) : isGap ch = true := by
  simp only [isBlank] at h
  simp [isGap, h]

theorem isBlank_ne {ch : UInt8} (h : isBlank ch = true) :
    isSpace ch = true ∧ ch ≠ carriage ∧ ch ≠ newline := by
  simpa [isBlank, and_assoc] using h

theorem inName_iff {ch : UInt8} : inName ch = true ↔ isSpace ch = false ∧ ch ≠ equals := by
  simp [inName]

theorem ne_newline_of_isSpace {ch : UInt8} (h : isSpace ch = false) :
    ch ≠ carriage ∧ ch ≠ newline := by
  constructor <;> rintro rfl <;> cases h

variable {text : Text} {entry : Option (Text × Text)}

theorem Written.newline_notMem (h : Written text entry) : newline ∉ text := by
  cases h with
  | empty => simp
  | carriageReturn => decide
  | comment blanks text hblanks htext =>
      intro hmem
      rcases List.mem_append.mp hmem with hmem | hmem
      · exact (hblanks _ hmem).2 rfl
      · rcases List.mem_cons.mp hmem with heq | hmem
        · cases heq
        · exact htext hmem
  | assignment lead name gap gap' value trail hlead _ _ hname hgap hgap' _ _ hvalue htrail _ =>
      simp only [List.mem_append, List.mem_cons, not_or]
      refine ⟨fun hmem => ?_, fun hmem => ?_, fun hmem => ?_, by decide, fun hmem => ?_,
        fun hmem => ?_, fun hmem => ?_⟩
      · exact (isBlank_ne (hlead _ hmem)).2.2 rfl
      · exact (ne_newline_of_isSpace (inName_iff.mp (hname _ hmem)).1).2 rfl
      · exact (isBlank_ne (hgap _ hmem)).2.2 rfl
      · exact (isBlank_ne (hgap' _ hmem)).2.2 rfl
      · exact (ne_newline_of_isSpace (hvalue _ hmem)).2 rfl
      · exact (htrail _ hmem).2 rfl

/-- The blanks and the `=` between a name and its value end the name, and are skipped. -/
theorem exists_gap {gap gap' : Text} (hgap : ∀ c ∈ gap, isBlank c = true)
    (hgap' : ∀ c ∈ gap', isBlank c = true) : ∃ sep gapAll,
    gap ++ equals :: gap' = sep :: gapAll ∧ inName sep = false ∧ ∀ c ∈ gapAll, isGap c = true := by
  cases gap with
  | nil => exact ⟨equals, gap', rfl, by decide, fun c hc => isGap_of_isBlank (hgap' c hc)⟩
  | cons sep gap =>
      refine ⟨sep, gap ++ equals :: gap', rfl, ?_, fun c hc => ?_⟩
      · simp [inName, (isBlank_ne (hgap sep (by simp))).1]
      · simp only [List.mem_append, List.mem_cons] at hc
        rcases hc with hc | rfl | hc
        · exact isGap_of_isBlank (hgap c (by simp [hc]))
        · decide
        · exact isGap_of_isBlank (hgap' c hc)

/-- The text behind a value starts with white space. -/
theorem exists_end {trail : Text} (htrail : ∀ c ∈ trail, isSpace c = true ∧ c ≠ newline) :
    ∃ last tail, trail ++ [newline] = last :: tail ∧ isSpace last = true := by
  cases trail with
  | nil => exact ⟨newline, [], rfl, by decide⟩
  | cons last trail => exact ⟨last, trail ++ [newline], rfl, (htrail last (by simp)).1⟩

theorem exists_fields {lead name gap gap' value trail : Text}
    (hlead : ∀ c ∈ lead, isBlank c = true) (hne : name ≠ []) (hhash : name.head? ≠ some hash)
    (hname : ∀ c ∈ name, inName c = true) (hgap : ∀ c ∈ gap, isBlank c = true)
    (hgap' : ∀ c ∈ gap', isBlank c = true) (hne' : value ≠ []) (heq : value.head? ≠ some equals)
    (hvalue : ∀ c ∈ value, isSpace c = false)
    (htrail : ∀ c ∈ trail, isSpace c = true ∧ c ≠ newline) :
    ∃ f : Fields, f.line =
        lead ++ (name ++ (gap ++ equals :: (gap' ++ (value ++ trail)))) ++ [newline] ∧
      f.name = name ∧ f.value = value := by
  obtain ⟨sep, gapAll, hsplit, hsep, hgapAll⟩ := exists_gap hgap hgap'
  obtain ⟨last, tail, hend, hlast⟩ := exists_end htrail
  obtain ⟨ch, name', rfl⟩ := List.exists_cons_of_ne_nil hne
  obtain ⟨ch', value', rfl⟩ := List.exists_cons_of_ne_nil hne'
  have hch := inName_iff.mp (hname ch (by simp))
  have hch' := hvalue ch' (by simp)
  refine ⟨⟨lead, ch :: name', sep, gapAll, ch' :: value', last, tail,
    fun c hc => (isBlank_ne (hlead c hc)).1, hname, hsep, hgapAll, hvalue, hlast,
    fun c hc => ?_, fun c hc => ?_, fun c hc => ?_⟩, ?_, rfl, rfl⟩
  · obtain rfl : ch = c := by simpa using hc
    exact ⟨hch.1, by simpa using hhash⟩
  · obtain rfl : ch' = c := by simpa using hc
    have hne'' : ch' ≠ equals := by simpa using heq
    simp [isGap, hch', hne'']
  · cases lead with
    | nil =>
        obtain rfl : ch = c := by simpa using hc
        exact ne_newline_of_isSpace hch.1
    | cons d lead =>
        obtain rfl : d = c := by simpa using hc
        exact (isBlank_ne (hlead d (by simp))).2
  · simp only [Fields.line, Fields.valuePart]
    have hparts : sep :: (gapAll ++ (ch' :: value' ++ last :: tail)) =
        gap ++ equals :: (gap' ++ (ch' :: value' ++ (trail ++ [newline]))) := by
      rw [← List.cons_append, ← hsplit, hend]
      simp
    rw [hparts]
    simp

theorem Written.effect (h : Written text entry) (upConf : UpCfgInfo) :
    Effect (text ++ [newline]) upConf
      (entry.toList.foldl (fun upConf a => assign upConf (front a.1) (front a.2)) upConf) := by
  cases h with
  | empty => exact .skip (.inl (by simp))
  | carriageReturn => exact .skip (.inl (by simp))
  | comment blanks text hblanks _ =>
      refine .skip (.inr ?_)
      have hspace : ∀ c ∈ blanks, isSpace c = true := fun c hc => (hblanks c hc).1
      rw [List.append_assoc, List.dropWhile_append_of_pos hspace, List.cons_append,
        List.dropWhile_cons_of_neg (by decide), List.head?_cons]
  | assignment lead name gap gap' value trail hlead hne hhash hname hgap hgap' hne' heq hvalue
      htrail _ =>
      obtain ⟨f, hline, rfl, rfl⟩ :=
        exists_fields hlead hne hhash hname hgap hgap' hne' heq hvalue htrail
      exact .assign f hline

theorem takeLine_line {size : ℕ} (h : newline ∉ text) (hlt : text.length < size) (rest : Text) :
    takeLine size (text ++ newline :: rest) = text ++ [newline] := by
  induction text generalizing size with
  | nil =>
      obtain ⟨size, rfl⟩ : ∃ n, size = n + 1 := ⟨size - 1, by simp at hlt; omega⟩
      simp [takeLine]
  | cons c text ih =>
      obtain ⟨size, rfl⟩ : ∃ n, size = n + 1 := ⟨size - 1, by simp at hlt; omega⟩
      have hc : c ≠ newline := fun heq => h (by simp [heq])
      have hrest : newline ∉ text := fun hmem => h (by simp [hmem])
      simp only [List.cons_append, takeLine, if_neg hc]
      rw [ih hrest (by simpa using hlt)]

theorem drop_line (text rest : Text) :
    (text ++ newline :: rest).drop (text ++ [newline]).length = rest := by
  have hsplit : text ++ newline :: rest = (text ++ [newline]) ++ rest := List.append_cons ..
  rw [hsplit, List.drop_left]

theorem parsed_lines {lines : List (Text × Option (Text × Text))}
    (hwritten : ∀ line ∈ lines, Written line.1 line.2)
    (hshort : ∀ line ∈ lines, line.1.length ≤ bufSize - 2) (upConf : UpCfgInfo) :
    Parsed (lines.flatMap fun line => line.1 ++ [newline]) upConf
      ((lines.filterMap Prod.snd).foldl
        (fun upConf a => assign upConf (front a.1) (front a.2)) upConf) := by
  induction lines generalizing upConf with
  | nil => exact .nil upConf
  | cons line lines ih =>
      have hline := hwritten line List.mem_cons_self
      have hlt : line.1.length < bufSize - 1 :=
        Nat.lt_of_le_of_lt (hshort line List.mem_cons_self) (by decide)
      have htake := takeLine_line hline.newline_notMem hlt
        (lines.flatMap fun line => line.1 ++ [newline])
      have hrest := ih (fun l hl => hwritten l (List.mem_cons_of_mem _ hl))
        (fun l hl => hshort l (List.mem_cons_of_mem _ hl))
        (line.2.toList.foldl (fun upConf a => assign upConf (front a.1) (front a.2)) upConf)
      have heffect := hline.effect upConf
      rw [← htake] at heffect
      have hentries : (line :: lines).filterMap Prod.snd =
          line.2.toList ++ lines.filterMap Prod.snd := by
        cases hentry : line.2 <;> simp [hentry]
      rw [List.flatMap_cons, ← List.append_cons, hentries, List.foldl_append]
      refine .line (by simp) heffect ?_
      rwa [htake, drop_line]

end

/-- A file as it should be written: its lines, each with what it assigns. -/
structure Source where
  lines : List (Text × Option (Text × Text))
  written : ∀ line ∈ lines, Written line.1 line.2
  short : ∀ line ∈ lines, line.1.length ≤ bufSize - 2

def Source.content (source : Source) : Text := source.lines.flatMap fun line => line.1 ++ [newline]

def Source.assignments (source : Source) : List (Text × Text) := source.lines.filterMap Prod.snd

theorem Source.parsed (source : Source) (upConf : UpCfgInfo) :
    Parsed source.content upConf (outcome upConf source.assignments) := by
  have hpaths : ∀ a ∈ source.assignments, front a.1 ∈ paths → a.2.length < pathSize := by
    intro a ha hpath
    obtain ⟨⟨text, entry⟩, hline, rfl⟩ := List.mem_filterMap.mp ha
    cases source.written _ hline with
    | assignment _ _ _ _ _ _ _ _ _ _ _ _ _ _ _ _ hshort => exact hshort hpath
  rw [← foldl_assign upConf hpaths]
  exact parsed_lines source.written source.short upConf

theorem fileParse_source (source : Source) (upConf : UpCfgInfo) :
    Returns (fun fuel => fileParse (fun _ => bufSize) fuel (some source.content) upConf)
      (0, outcome upConf source.assignments) :=
  (source.parsed upConf).returns fun _ hn => hn

/-- A file of one line, with a port beyond the range of `long`. -/
def hugePort : Source where
  lines := [(bytes "port=9223372036854775808", some (bytes "port", bytes "9223372036854775808"))]
  written line h := by
    rw [List.mem_singleton.mp h]
    exact .assignment [] (bytes "port") [] [] (bytes "9223372036854775808") [] nofun
      (by decide) (by decide) (List.all_eq_true.mp (by decide)) nofun nofun (by decide)
      (by decide) (List.all_iff_forall_prop.mp (by decide)) nofun (by decide)
  short line h := by
    rw [List.mem_singleton.mp h]
    decide

/-- Such a port is not taken modulo 65536. -/
theorem fileParse_hugePort : ∃ upConf upConf' : UpCfgInfo,
    Returns (fun fuel => fileParse (fun _ => bufSize) fuel (some hugePort.content) upConf)
      (0, upConf') ∧
    hugePort.assignments = [(bytes "port", bytes "9223372036854775808")] ∧
    upConf'.listenPort = 65535 ∧ decimal (bytes "9223372036854775808") % 65536 = 0 :=
  ⟨⟨0, [], [], [], 0, 0⟩, _, (hugePort.parsed _).returns fun _ hn => hn, rfl, by decide, by decide⟩

end EmbeddedCode.Server
