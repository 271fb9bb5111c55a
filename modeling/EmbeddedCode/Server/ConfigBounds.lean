import EmbeddedCode.Server.Config

/-!
# How far the configuration parser goes

Three of the scanning loops end at the NUL of a line at the latest. The other two pass it when the
line has nothing that stops them, as in a name without a value. A line that stops them is split
into its fields, wherever the accesses end behind its NUL.
-/
namespace EmbeddedCode.Server

open Loop
open CString (front front_append)

/-- The lines that `fgets` returns. -/
inductive IsLine : Text → Text → Prop
  | first {content : Text} : content ≠ [] → IsLine content (takeLine (bufSize - 1) content)
  | later {content line : Text} :
      IsLine (content.drop (takeLine (bufSize - 1) content).length) line → IsLine content line

/-- The parser goes on with the next line at once. -/
def Skipped (line : Text) : Prop :=
  line.head? ∈ [some carriage, some newline, some hash] ∨
    (line.dropWhile isSpace).head? = some hash

/-- What the loop over the value starts with: the text behind the name and the gap. -/
def behindGap (line : Text) : Text :=
  ((line.dropWhile isSpace).dropWhile inName).tail.dropWhile isGap

/-- The line is skipped, or its value ends within it. -/
def Inside (line : Text) : Prop := Skipped line ∨ ∃ c ∈ behindGap line, isSpace c = true

instance decidableSkipped (line : Text) : Decidable (Skipped line) :=
  inferInstanceAs (Decidable (_ ∈ _ ∨ _ = _))

instance decidableInside (line : Text) : Decidable (Inside line) :=
  decidable_of_iff (Skipped line ∨ (behindGap line).any isSpace = true)
    (or_congr_right List.any_eq_true)

/-- Lines of blanks, names without a value and values at the end of the file are not inside. -/
example : Inside (bytes " port = 8080\n") ∧ ¬ Inside (bytes "  \n") ∧ ¬ Inside (bytes "port\n") ∧
    ¬ Inside (bytes "port = 8080") := by decide

/-- A line as the scan takes it apart. Every part goes as far as possible. -/
structure Fields where
  lead : Text
  name : Text
  sep : UInt8
  gap : Text
  value : Text
  last : UInt8
  tail : Text
  lead_space : ∀ c ∈ lead, isSpace c = true
  name_in : ∀ c ∈ name, inName c = true
  sep_out : inName sep = false
  gap_in : ∀ c ∈ gap, isGap c = true
  value_in : ∀ c ∈ value, isSpace c = false
  last_space : isSpace last = true
  start : ∀ c ∈ (name ++ [sep]).head?, isSpace c = false ∧ c ≠ hash
  stop : ∀ c ∈ (value ++ [last]).head?, isGap c = false
  first : ∀ c ∈ (lead ++ name ++ [sep]).head?, c ≠ carriage ∧ c ≠ newline

namespace Fields

def valuePart (f : Fields) : Text := f.value ++ f.last :: f.tail

def line (f : Fields) : Text := f.lead ++ (f.name ++ f.sep :: (f.gap ++ f.valuePart))

end Fields

section
variable {window : ℕ} {buf line xs ys rest : Text} {c d : UInt8} {p : ℕ}

theorem write_eq (h : (access window buf).drop p = d :: ys) :
    write window buf p c = some (buf.set p c) := by
  apply if_pos
  have hpos : 0 < ((access window buf).drop p).length := by simp [h]
  rw [List.length_drop] at hpos
  omega

theorem drop_write (h : (access window buf).drop p = xs ++ d :: ys) :
    (access window (buf.set (p + xs.length) c)).drop p = xs ++ c :: ys := by
  have hset : access window (buf.set (p + xs.length) c) =
      (access window buf).set (p + xs.length) c := List.take_set ..
  rw [hset, List.drop_set, if_neg (by omega), h, Nat.add_sub_cancel_left,
    List.set_append_right _ _ (Nat.le_refl _), Nat.sub_self, List.set_cons_zero]

theorem string_eq (h : (access window buf).drop p = xs ++ 0 :: rest) :
    string window buf p = some (front xs) := by
  have hmem : 0 ∈ xs ++ 0 :: rest := by simp
  simp only [string, h, if_pos hmem, front_append]

theorem scanLine_skipped (h : access window buf = line ++ 0 :: rest) (hskip : Skipped line) :
    Returns (fun fuel => scanLine window fuel buf) (buf, none) := by
  cases line with
  | nil => simp [Skipped] at hskip
  | cons c line =>
      have hfirst : (access window buf)[0]? = some c := by simp [h]
      simp only [scanLine, hfirst, Option.bind_eq_bind, Option.bind_some]
      split_ifs with hc
      · exact returns_const _
      · obtain hhash : ((c :: line).dropWhile isSpace).head? = some hash := by
          rcases hskip with hskip | hskip
          · simp only [List.head?_cons, List.mem_cons, Option.some.injEq, List.not_mem_nil,
              or_false] at hskip
            exact absurd hskip hc
          · exact hskip
        have hdrop : (access window buf).drop 0 =
            (c :: line).takeWhile isSpace ++ ((c :: line).dropWhile isSpace ++ 0 :: rest) := by
          rw [List.drop_zero, h, ← List.append_assoc, List.takeWhile_append_dropWhile]
        have hhead : ((c :: line).dropWhile isSpace ++ 0 :: rest).head? = some hash := by
          rw [List.head?_append, hhash, Option.some_or]
        have hlead := Scan.run_turn hdrop (fun x hx => List.mem_takeWhile_imp hx) hhead rfl
        refine hlead.andThen ?_
        have hp := Scan.drop_add hdrop
        rw [← List.head?_drop, hp, hhead]
        exact returns_const _

end

namespace Fields

variable {window : ℕ} {buf rest : Text}

theorem head_line (f : Fields) : ∃ c, f.line.head? = some c ∧
    ¬ (c = carriage ∨ c = newline ∨ c = hash) := by
  have hhead : f.line.head? = (f.lead ++ f.name ++ [f.sep]).head? := by
    simp [line, List.head?_append]
  cases hc : (f.lead ++ f.name ++ [f.sep]).head? with
  | none => simp at hc
  | some c =>
      have hfirst := f.first c hc
      have hhash : c ≠ hash := by
        cases hlead : f.lead with
        | nil =>
            rw [hlead, List.nil_append] at hc
            exact (f.start c hc).2
        | cons d lead =>
            rw [hlead] at hc
            obtain rfl : d = c := by simpa using hc
            have hspace := f.lead_space d (by simp [hlead])
            rintro rfl
            cases hspace
      exact ⟨c, hhead.trans hc, by tauto⟩

/-- The scan finds the name and the value of a line, whatever stands in `buf` behind the line. -/
theorem scanLine_eq (f : Fields) (h : access window buf = f.line ++ 0 :: rest) :
    ∃ buf' p q, Returns (fun fuel => scanLine window fuel buf) (buf', some (p, q)) ∧
      string window buf' p = some (front f.name) ∧
      string window buf' q = some (front f.value) := by
  obtain ⟨c, hc, hnot⟩ := f.head_line
  have hfirst : (access window buf)[0]? = some c := by
    rw [h, ← List.head?_eq_getElem?, List.head?_append, hc, Option.some_or]
  obtain ⟨start, hstart⟩ : ∃ start, (f.name ++ [f.sep]).head? = some start :=
    Option.isSome_iff_exists.mp (by simp)
  obtain ⟨stop, hstop⟩ : ∃ stop, (f.value ++ [f.last]).head? = some stop :=
    Option.isSome_iff_exists.mp (by simp)
  have hlead : (access window buf).drop 0 =
      f.lead ++ (f.name ++ f.sep :: (f.gap ++ (f.value ++ f.last :: (f.tail ++ 0 :: rest)))) := by
    simp [h, line, valuePart]
  have hname := Scan.drop_add hlead
  have hsep := Scan.drop_add hname
  -- The first NUL ends the name.
  have hname₁ := drop_write (c := 0) hname
  set buf₁ := buf.set (0 + f.lead.length + f.name.length) 0 with hbuf₁
  have hgap := Scan.drop_succ (Scan.drop_add hname₁)
  have hvalue := Scan.drop_add hgap
  have hlast := Scan.drop_add hvalue
  -- The second NUL ends the value, and keeps the name.
  have hvalue₂ := drop_write (c := 0) hvalue
  have hname₂ : (access window (buf₁.set (0 + f.lead.length + f.name.length + 1 + f.gap.length +
      f.value.length) 0)).drop (0 + f.lead.length) =
      f.name ++ 0 :: (f.gap ++ f.value) ++ 0 :: (f.tail ++ 0 :: rest) := by
    have hparts : (access window buf₁).drop (0 + f.lead.length) =
        f.name ++ 0 :: (f.gap ++ f.value) ++ f.last :: (f.tail ++ 0 :: rest) :=
      hname₁.trans (by simp)
    have hposition : 0 + f.lead.length + f.name.length + 1 + f.gap.length + f.value.length =
        0 + f.lead.length + (f.name ++ 0 :: (f.gap ++ f.value)).length := by
      simp only [List.length_append, List.length_cons]
      omega
    rw [hposition]
    exact drop_write hparts
  rw [List.append_assoc, List.cons_append] at hname₂
  refine ⟨_, _, _, ?_, string_eq hname₂, string_eq hvalue₂⟩
  · have hstart' : (access window buf)[0 + f.lead.length]? = some start := by
      rw [← List.head?_drop, hname]
      simpa [List.head?_append] using hstart
    have hstop' : (f.value ++ f.last :: (f.tail ++ 0 :: rest)).head? = some stop := by
      simpa [List.head?_append] using hstop
    simp only [scanLine, hfirst, Option.bind_eq_bind, Option.bind_some, if_neg hnot]
    refine (Scan.run_turn hlead f.lead_space ?_ (f.start start hstart).1).andThen ?_
    · rw [← hname, List.head?_drop, hstart']
    simp only [hstart', Option.bind_some, if_neg (f.start start hstart).2]
    refine (Scan.run_turn hname f.name_in rfl f.sep_out).andThen ?_
    simp only [write_eq hsep, ← hbuf₁, Option.bind_some]
    refine (Scan.run_turn hgap f.gap_in hstop' (f.stop stop hstop)).andThen ?_
    have hend : ∀ c ∈ f.value, (!isSpace c) = true := fun c hc => by simp [f.value_in c hc]
    refine (Scan.run_turn hvalue hend rfl (by simp [f.last_space])).andThen ?_
    simp only [write_eq hlast, Option.bind_some]
    exact returns_const _

/-- A line that is not skipped and ends its value has fields. -/
theorem exists_line_eq {line : Text} (hskip : ¬ Skipped line)
    (h : ∃ c ∈ behindGap line, isSpace c = true) : ∃ f : Fields, f.line = line := by
  obtain ⟨c, hc, hspace⟩ := h
  have hne : (line.dropWhile isSpace).dropWhile inName ≠ [] := by
    intro hnil
    simp [behindGap, hnil] at hc
  obtain ⟨sep, behind, hsep⟩ := List.exists_cons_of_ne_nil hne
  have hgap : behindGap line = behind.dropWhile isGap := by rw [behindGap, hsep, List.tail_cons]
  rw [hgap] at hc
  have hlast : (behind.dropWhile isGap).dropWhile (!isSpace ·) ≠ [] := by
    intro hnil
    simpa [hspace] using List.dropWhile_eq_nil_iff.mp hnil c hc
  obtain ⟨last, tail, hlast⟩ := List.exists_cons_of_ne_nil hlast
  have hvalue : (behind.dropWhile isGap).takeWhile (!isSpace ·) ++ last :: tail =
      behind.dropWhile isGap := by
    rw [← hlast, List.takeWhile_append_dropWhile]
  have hname : (line.dropWhile isSpace).takeWhile inName ++ sep :: behind =
      line.dropWhile isSpace := by
    rw [← hsep, List.takeWhile_append_dropWhile]
  have hstart : ((line.dropWhile isSpace).takeWhile inName ++ [sep]).head? =
      (line.dropWhile isSpace).head? := by
    conv_rhs => rw [← hname]
    simp [List.head?_append]
  have hline : line.takeWhile isSpace ++ ((line.dropWhile isSpace).takeWhile inName ++
      sep :: (behind.takeWhile isGap ++ ((behind.dropWhile isGap).takeWhile (!isSpace ·) ++
        last :: tail))) = line := by
    rw [hvalue, List.takeWhile_append_dropWhile, hname, List.takeWhile_append_dropWhile]
  refine ⟨⟨line.takeWhile isSpace, (line.dropWhile isSpace).takeWhile inName, sep,
    behind.takeWhile isGap, (behind.dropWhile isGap).takeWhile (!isSpace ·), last, tail,
    fun _ => List.mem_takeWhile_imp, fun _ => List.mem_takeWhile_imp, Scan.go_of_dropWhile hsep,
    fun _ => List.mem_takeWhile_imp, fun d hd => by simpa using List.mem_takeWhile_imp hd,
    by simpa using Scan.go_of_dropWhile hlast, fun d hd => ⟨?_, ?_⟩, fun d hd => ?_,
    fun d hd => ?_⟩, hline⟩
  · exact Scan.go_of_head? (hstart ▸ hd)
  · rintro rfl
    exact hskip (.inr (hstart ▸ hd))
  · have hstop : (behind.dropWhile isGap).head? = some d := by
      rw [← hvalue]
      simpa [List.head?_append] using hd
    exact Scan.go_of_head? hstop
  · have hfirst : line.head? = some d := by
      rw [← hline]
      simpa [List.head?_append] using hd
    constructor
    · rintro rfl
      exact hskip (.inl (by simp [hfirst]))
    · rintro rfl
      exact hskip (.inl (by simp [hfirst]))

end Fields

section
variable {window fuel : ℕ} {buf line ys : Text} {go : UInt8 → Bool} {p q : ℕ}

theorem skip_stops (h : (access window buf).drop p = ys ++ [0])
    (hrun : skip window fuel buf go p = some q) :
    (go 0 = true → ∃ c ∈ ys, go c = false) ∧
      (access window buf).drop q = ys.dropWhile go ++ [0] := by
  obtain ⟨⟨c, hc, hgo⟩, hdrop⟩ := Scan.drop_of_run hrun
  rw [h] at hc hdrop
  have hstop : go 0 = true → ∃ c ∈ ys, go c = false := by
    intro hnul
    rcases List.mem_append.mp hc with hc | hc
    · exact ⟨c, hc, hgo⟩
    · rw [List.mem_singleton.mp hc, hnul] at hgo
      cases hgo
  refine ⟨hstop, hdrop.trans ?_⟩
  rw [List.dropWhile_append]
  split_ifs with hempty
  · have hall := List.dropWhile_eq_nil_iff.mp (List.isEmpty_iff.mp hempty)
    cases hnul : go 0 with
    | false => simp [hnul, List.isEmpty_iff.mp hempty]
    | true =>
        obtain ⟨d, hd, hgo⟩ := hstop hnul
        simp [hall d hd] at hgo
  · rfl

theorem head?_of_drop {c : UInt8} (h : (access window buf).drop p = ys ++ [0])
    (hc : (access window buf)[p]? = some c) (hne : c ≠ 0) : ys.head? = some c := by
  rw [← List.head?_drop, h, List.head?_append] at hc
  cases hhead : ys.head? with
  | none =>
      rw [hhead] at hc
      exact absurd (Option.some.inj hc).symm hne
  | some d =>
      rw [hhead] at hc
      exact hc

theorem inside_of_scanLine {result : Text × Option (ℕ × ℕ)} (h : access window buf = line ++ [0])
    (hscan : scanLine window fuel buf = some result) : Inside line := by
  have hstart : (access window buf).drop 0 = line ++ [0] := h
  simp only [scanLine, Option.bind_eq_bind] at hscan
  obtain ⟨c, hc, hscan⟩ := Option.bind_eq_some_iff.mp hscan
  split_ifs at hscan with hfirst
  · have hne : c ≠ 0 := by rcases hfirst with rfl | rfl | rfl <;> decide
    have hhead := head?_of_drop hstart hc hne
    exact .inl (.inl (by simpa [hhead] using hfirst))
  · obtain ⟨p, hp, hscan⟩ := Option.bind_eq_some_iff.mp hscan
    obtain ⟨-, hfields⟩ := skip_stops hstart hp
    obtain ⟨c, hc, hscan⟩ := Option.bind_eq_some_iff.mp hscan
    split_ifs at hscan with hhash
    · exact .inl (.inr (hhash ▸ head?_of_drop hfields hc (hhash ▸ by decide)))
    · obtain ⟨s, hs, hscan⟩ := Option.bind_eq_some_iff.mp hscan
      obtain ⟨hsep, hname⟩ := skip_stops hfields hs
      have hne : (line.dropWhile isSpace).dropWhile inName ≠ [] := by
        intro hnil
        obtain ⟨d, hd, hout⟩ := hsep rfl
        simp [List.dropWhile_eq_nil_iff.mp hnil d hd] at hout
      obtain ⟨sep, behind, hsplit⟩ := List.exists_cons_of_ne_nil hne
      rw [hsplit] at hname
      rw [write_eq hname, Option.bind_some] at hscan
      have hcut : (access window buf).drop s = [] ++ sep :: (behind ++ [0]) := hname
      have hbehind := Scan.drop_succ (drop_write (c := 0) hcut)
      obtain ⟨v, hv, hscan⟩ := Option.bind_eq_some_iff.mp hscan
      obtain ⟨-, hvalue⟩ := skip_stops hbehind hv
      obtain ⟨e, he, hscan⟩ := Option.bind_eq_some_iff.mp hscan
      obtain ⟨hlast, -⟩ := skip_stops hvalue he
      obtain ⟨d, hd, hspace⟩ := hlast rfl
      refine .inr ⟨d, ?_, by simpa using hspace⟩
      simpa [behindGap, hsplit] using hd

end

theorem length_takeLine (size : ℕ) (content : Text) : (takeLine size content).length ≤ size := by
  induction size generalizing content with
  | zero => exact Nat.le_refl 0
  | succ size ih =>
      cases content with
      | nil => exact Nat.zero_le _
      | cons c content =>
          simp only [takeLine]
          split_ifs
          · simp
          · simpa using ih content

theorem takeLine_ne_nil {size : ℕ} {content : Text} (h : content ≠ []) :
    takeLine (size + 1) content ≠ [] := by
  cases content with
  | nil => exact absurd rfl h
  | cons c content =>
      simp only [takeLine]
      split_ifs <;> exact List.cons_ne_nil _ _

/-- A line that is short and has no newline is the last one. -/
theorem takeLine_eq_self {size : ℕ} {content : Text} (hlt : (takeLine size content).length < size)
    (hlast : (takeLine size content).getLast? ≠ some newline) :
    takeLine size content = content := by
  induction size generalizing content with
  | zero => exact absurd hlt (Nat.not_lt_zero _)
  | succ size ih =>
      cases content with
      | nil => rfl
      | cons c content =>
          simp only [takeLine] at hlt hlast ⊢
          split_ifs at hlt hlast ⊢ with hc
          · exact absurd (by simp [hc]) hlast
          · rw [ih (by simpa using hlt)]
            intro hmem
            apply hlast
            rw [List.getLast?_cons, hmem]
            rfl

/-- What a line does to `up_conf`. -/
inductive Effect (line : Text) (upConf : UpCfgInfo) : UpCfgInfo → Prop
  | skip : Skipped line → Effect line upConf upConf
  | assign (f : Fields) : f.line = line →
      Effect line upConf (assign upConf (front f.name) (front f.value))

/-- What the lines of a file do, one after the other. -/
inductive Parsed : Text → UpCfgInfo → UpCfgInfo → Prop
  | nil (upConf : UpCfgInfo) : Parsed [] upConf upConf
  | line {content : Text} {upConf upConf' upConf'' : UpCfgInfo} : content ≠ [] →
      Effect (takeLine (bufSize - 1) content) upConf upConf' →
      Parsed (content.drop (takeLine (bufSize - 1) content).length) upConf' upConf'' →
      Parsed content upConf upConf''

theorem Inside.effect {line : Text} (h : Inside line) (upConf : UpCfgInfo) :
    ∃ upConf', Effect line upConf upConf' := by
  by_cases hskip : Skipped line
  · exact ⟨upConf, .skip hskip⟩
  · obtain ⟨f, hf⟩ := Fields.exists_line_eq hskip (h.resolve_left hskip)
    exact ⟨_, .assign f hf⟩

def File.next (content : Text) : File where
  rest := content.drop (takeLine (bufSize - 1) content).length
  eof := (takeLine (bufSize - 1) content).length < bufSize - 1 &&
    (takeLine (bufSize - 1) content).getLast? != some newline

theorem File.next_eof {content : Text} (h : (File.next content).eof = true) :
    (File.next content).rest = [] := by
  simp only [File.next, Bool.and_eq_true, decide_eq_true_eq, bne_iff_ne] at h
  simp only [File.next, takeLine_eq_self h.1 h.2, List.drop_length]

section
variable {window : ℕ → ℕ} {content buf line : Text} {upConf upConf' : UpCfgInfo} {eof : Bool}
  {fuel : ℕ}

theorem fgets_eq (h : content ≠ []) (eof : Bool) :
    fgets ⟨content, eof⟩ = some (takeLine (bufSize - 1) content, .next content) := if_neg h

/-- `fgets` puts a NUL behind the line and leaves the rest of `buf`. -/
theorem access_line (hwindow : line.length < window line.length) (buf : Text) :
    ∃ rest, access (window line.length) (line ++ 0 :: buf) = line ++ 0 :: rest := by
  obtain ⟨k, hk⟩ : ∃ k, window line.length - line.length = k + 1 :=
    ⟨window line.length - line.length - 1, by omega⟩
  refine ⟨buf.take k, ?_⟩
  rw [access, List.take_append, List.take_of_length_le (by omega), hk, List.take_succ_cons]

theorem access_lineWindow (line buf : Text) :
    access (lineWindow line.length) (line ++ 0 :: buf) = line ++ [0] := by
  simp [access, lineWindow, List.take_append]

/-- A turn of the loop gets a line and does what the line does. -/
theorem Effect.parseTurn (h : Effect (takeLine (bufSize - 1) content) upConf upConf')
    (hwindow : ∀ n < bufSize, n < window n) (hne : content ≠ []) (buf : Text) :
    ∃ buf', Returns (fun fuel => parseTurn window fuel (⟨content, false⟩, buf, upConf))
      (.again (.next content, buf', upConf')) := by
  simp only [Server.parseTurn, fgets_eq hne]
  have hlength : (takeLine (bufSize - 1) content).length < bufSize :=
    Nat.lt_of_le_of_lt (length_takeLine _ content) (by decide)
  obtain ⟨rest, hbuf⟩ := access_line (hwindow _ hlength)
    (buf.drop ((takeLine (bufSize - 1) content).length + 1))
  cases h with
  | skip hskip => exact ⟨_, (scanLine_skipped hbuf hskip).andThen (returns_const _)⟩
  | assign f hf =>
      have hline := hbuf
      rw [← hf] at hline
      obtain ⟨buf', p, q, hscan, hname, hvalue⟩ := f.scanLine_eq hline
      rw [hf] at hscan hname hvalue
      refine ⟨buf', hscan.andThen ?_⟩
      simp only [hname, hvalue, Option.bind_eq_bind, Option.bind_some]
      exact returns_const _

theorem Parsed.exits (h : Parsed content upConf upConf') (hwindow : ∀ n < bufSize, n < window n)
    (heof : eof = true → content = []) (buf : Text) :
    Exits (parseTurn window) (⟨content, eof⟩, buf, upConf) upConf' := by
  induction h generalizing eof buf with
  | nil upConf =>
      apply Exits.single
      cases eof <;> exact returns_const _
  | line hne heffect _ ih =>
      cases eof with
      | true => exact absurd (heof rfl) hne
      | false =>
          obtain ⟨buf', hturn⟩ := heffect.parseTurn hwindow hne buf
          exact (Leads.single hturn).exits (ih File.next_eof buf')

theorem Parsed.returns (h : Parsed content upConf upConf') (hwindow : ∀ n < bufSize, n < window n) :
    Returns (fun fuel => fileParse window fuel (some content) upConf) (0, upConf') := by
  have hexits : Exits (parseTurn window)
      (⟨content, false⟩, List.replicate bufSize 0, upConf) upConf' := h.exits hwindow (by simp) _
  exact hexits.returns.bind rfl

/-- Every line of the file is shorter than the file. -/
theorem length_next (h : content ≠ []) : (File.next content).rest.length < content.length := by
  have hline : (takeLine (bufSize - 1) content).length ≠ 0 :=
    fun hzero => takeLine_ne_nil h (List.length_eq_zero_iff.mp hzero)
  have hcontent : content.length ≠ 0 := fun hzero => h (List.length_eq_zero_iff.mp hzero)
  simp only [File.next, List.length_drop]
  omega

theorem exists_parsed (h : ∀ line, IsLine content line → Inside line) (upConf : UpCfgInfo) :
    ∃ upConf', Parsed content upConf upConf' := by
  induction hn : content.length using Nat.strong_induction_on generalizing content upConf with
  | _ n ih =>
      by_cases hne : content = []
      · exact ⟨upConf, hne ▸ .nil upConf⟩
      · obtain ⟨upConf₁, heffect⟩ := (h _ (.first hne)).effect upConf
        obtain ⟨upConf₂, hrest⟩ := ih _ (hn ▸ length_next hne)
          (fun line hline => h line hline.later) upConf₁ rfl
        exact ⟨upConf₂, .line hne heffect hrest⟩

theorem IsLine.ne_nil (h : IsLine content line) : content ≠ [] := by
  induction h with
  | first hne => exact hne
  | later _ ih =>
      rintro rfl
      exact ih List.drop_nil

/-- A turn that gives a result has stayed inside of its line. -/
theorem inside_of_parseTurn {result : Turn (File × Text × UpCfgInfo) UpCfgInfo}
    (hne : content ≠ [])
    (hturn : parseTurn lineWindow fuel (⟨content, false⟩, buf, upConf) = some result) :
    Inside (takeLine (bufSize - 1) content) ∧
      ∃ buf' upConf', result = .again (.next content, buf', upConf') := by
  simp only [parseTurn, fgets_eq hne] at hturn
  obtain ⟨⟨buf', fields⟩, hscan, hturn⟩ := Option.bind_eq_some_iff.mp hturn
  refine ⟨inside_of_scanLine (access_lineWindow _ _) hscan, buf', ?_⟩
  cases fields with
  | none => exact ⟨upConf, (Option.some.inj hturn).symm⟩
  | some fields =>
      obtain ⟨name, -, hturn⟩ := Option.bind_eq_some_iff.mp hturn
      obtain ⟨val, -, hturn⟩ := Option.bind_eq_some_iff.mp hturn
      exact ⟨_, (Option.some.inj hturn).symm⟩

theorem inside_of_run {k : ℕ} (heof : eof = true → content = [])
    (hrun : run (parseTurn lineWindow fuel) k (⟨content, eof⟩, buf, upConf) = some upConf') :
    ∀ line, IsLine content line → Inside line := by
  induction k generalizing content eof buf upConf with
  | zero => cases hrun
  | succ k ih =>
      intro line hline
      cases eof with
      | true => exact absurd (heof rfl) hline.ne_nil
      | false =>
          rcases run_cases hrun with hturn | ⟨t, hturn, hrest⟩
          · obtain ⟨-, _, _, ⟨⟩⟩ := inside_of_parseTurn hline.ne_nil hturn
          · obtain ⟨hinside, _, _, ⟨⟩⟩ := inside_of_parseTurn hline.ne_nil hturn
            cases hline with
            | first => exact hinside
            | later hline => exact ih File.next_eof hrest line hline

/-- The parser ends without an access behind the NUL of a line, exactly when every line that it
does not skip has a blank behind its value. -/
theorem fileParse_inside_iff (content : Text) (upConf : UpCfgInfo) :
    (∃ result, Returns (fun fuel => fileParse lineWindow fuel (some content) upConf) result) ↔
      ∀ line, IsLine content line → Inside line := by
  constructor
  · rintro ⟨⟨_, upConf'⟩, n, hn⟩
    obtain ⟨_, hrun, -⟩ := Option.bind_eq_some_iff.mp (hn n (Nat.le_refl n))
    exact inside_of_run (by simp) hrun
  · intro h
    obtain ⟨upConf', hparsed⟩ := exists_parsed h upConf
    exact ⟨_, hparsed.returns fun n _ => Nat.lt_succ_self n⟩

end

/-- A name without a value: the loop over the value passes the NUL of the line. -/
theorem fileParse_inside_foo : ∃ content upConf, content = bytes "foo\n" ∧
    ¬ ∃ result, Returns (fun fuel => fileParse lineWindow fuel (some content) upConf) result := by
  refine ⟨bytes "foo\n", ⟨0, [], [], [], 0, 0⟩, rfl, ?_⟩
  rintro ⟨⟨_, upConf'⟩, n, hn⟩
  obtain ⟨_, hrun, -⟩ := Option.bind_eq_some_iff.mp (hn n (Nat.le_refl n))
  have hline : IsLine (bytes "foo\n") (bytes "foo\n") := .first (by decide)
  have hinside := inside_of_run (by simp) hrun _ hline
  revert hinside
  decide

end EmbeddedCode.Server
