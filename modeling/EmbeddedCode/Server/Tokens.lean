import EmbeddedCode.Server.Config
import EmbeddedCode.Server.Request
import Mathlib.Data.Bool.AllAny

/-!
# The words of the request line

`sscanf(iobuffer.buf, "%s %s %s", ..)` in `client_handler2`, byte by byte. The buffer is filled
with zeros before the request is read into it, and each array has `PATH_SIZE` bytes. An access
beyond the buffer or an array gives no result.
-/
namespace EmbeddedCode.Server

open Loop Paths
open CString (front front_append)

/-- `iobuffer.buf` after `read` has delivered some bytes. -/
def ioBuffer (received : Text) : Text :=
  received ++ List.replicate (ioBufSize - received.length) 0

def put (dest : Text) (i : ℕ) (c : UInt8) : Option Text :=
  if i < dest.length then some (dest.set i c) else none

/-- One byte of a word at `p` becomes the byte `i` of its array. A NUL ends the array. -/
def storeTurn (text : Text) : ℕ × ℕ × Text → Option (Turn (ℕ × ℕ × Text) (ℕ × Text))
  | (p, i, dest) => do
      let c ← text[p]?
      if c = 0 ∨ isSpace c = true then do
        let dest ← put dest i 0
        some (.leave (p, dest))
      else do
        let dest ← put dest i c
        some (.again (p + 1, i + 1, dest))

/-- `%s` at `p`: the position behind the word and the array, if there is a word. -/
def scanString (fuel : ℕ) (text : Text) (p : ℕ) : Option (Option (ℕ × Text)) := do
  let p ← run (Scan.turn text isSpace) fuel p
  let c ← text[p]?
  if c = 0 then some none
  else do
    let stored ← run (storeTurn text) fuel (p, 0, List.replicate pathSize 0)
    some (some stored)

/-- A number of `%s` from `p` on, and the arrays for them. Without a word the scan ends, and the
arrays that are left stay empty. -/
def scanStrings (fuel : ℕ) (text : Text) : ℕ → ℕ → Option (List Text)
  | 0, _ => some []
  | n + 1, p => do
      match ← scanString fuel text p with
      | none => some (List.replicate (n + 1) (List.replicate pathSize 0))
      | some (p, array) => do
          let arrays ← scanStrings fuel text n p
          some (array :: arrays)

/-- The arrays `method`, `uri` and `http_ver`. The scan needs the NUL behind the text. -/
def sscanf (fuel : ℕ) (text : Text) : Option (List Text) := do
  let _ ← run (Scan.turn text (· != 0)) fuel 0
  scanStrings fuel text 3 0

def words (text : Text) : List Text := (text.splitOnP isSpace).filter (· ≠ [])

/-- The words that are stored fit into their arrays with a NUL, and the text ends in the buffer. -/
def WordsFit (received : Text) : Prop :=
  (received.length < ioBufSize ∨ 0 ∈ received) ∧
    ∀ word ∈ (words (received.takeWhile (· != 0))).take 3, word.length < pathSize

section
variable {text word ys rest dest : Text} {p i : ℕ}

theorem words_cons_space {c : UInt8} (hc : isSpace c = true) (text : Text) :
    words (c :: text) = words text := by
  simp [words, List.splitOnP_cons_eq_if_modifyHead, hc]

theorem words_dropWhile (text : Text) : words (text.dropWhile isSpace) = words text := by
  induction text with
  | nil => rfl
  | cons c text ih =>
      by_cases hc : isSpace c = true
      · rw [List.dropWhile_cons_of_pos hc, ih, words_cons_space hc]
      · rw [List.dropWhile_cons_of_neg hc]

/-- A word goes up to the next blank. -/
theorem words_append (hne : word ≠ []) (hword : ∀ c ∈ word, isSpace c = false)
    (hrest : ∀ c ∈ rest.head?, isSpace c = true) : words (word ++ rest) = word :: words rest := by
  cases rest with
  | nil =>
      simp [words, List.splitOnP_eq_singleton hword, hne]
  | cons c rest =>
      have hc : isSpace c = true := hrest c rfl
      rw [words_cons_space hc, words, List.splitOnP_append_cons_of_forall_mem hword c hc]
      simp [words, hne]

/-- What `%s` takes from a text, and what it leaves. -/
def firstWord (text : Text) : Text := (text.dropWhile isSpace).takeWhile (!isSpace ·)

def behindWord (text : Text) : Text := (text.dropWhile isSpace).dropWhile (!isSpace ·)

theorem firstWord_append (text : Text) :
    firstWord text ++ behindWord text = text.dropWhile isSpace := List.takeWhile_append_dropWhile

theorem firstWord_subset (text : Text) : firstWord text ⊆ text :=
  List.Subset.trans (List.takeWhile_prefix _).subset (List.dropWhile_suffix _).subset

theorem behindWord_subset (text : Text) : behindWord text ⊆ text :=
  List.Subset.trans (List.dropWhile_suffix _).subset (List.dropWhile_suffix _).subset

theorem isSpace_firstWord {c : UInt8} (hc : c ∈ firstWord text) : isSpace c = false := by
  simpa using List.mem_takeWhile_imp hc

theorem isSpace_behindWord {c : UInt8} (hc : c ∈ (behindWord text).head?) : isSpace c = true := by
  simpa using Scan.go_of_head? hc

theorem dropWhile_eq_nil (h : firstWord text = []) : text.dropWhile isSpace = [] := by
  cases hdrop : text.dropWhile isSpace with
  | nil => rfl
  | cons c rest => simp [firstWord, hdrop, Scan.go_of_dropWhile hdrop] at h

theorem behindWord_nil (h : firstWord text = []) : behindWord text = [] := by
  rw [behindWord, dropWhile_eq_nil h, List.dropWhile_nil]

theorem words_nil (h : firstWord text = []) : words text = [] := by
  rw [← words_dropWhile, dropWhile_eq_nil h]
  rfl

theorem words_eq (h : firstWord text ≠ []) :
    words text = firstWord text :: words (behindWord text) := by
  rw [← words_dropWhile, ← firstWord_append]
  exact words_append h (fun _ => isSpace_firstWord) (fun _ => isSpace_behindWord)

/-! ## One word -/

variable {stored tail : Text} {c t : UInt8}

theorem put_eq : put (stored ++ t :: tail) stored.length c = some (stored ++ c :: tail) := by
  simp [put]

theorem put_full (stored : Text) (c : UInt8) : put stored stored.length c = none := by
  simp [put]

def isInner (c : UInt8) : Bool := c != 0 && !isSpace c

theorem not_isInner : ¬ isInner c = true ↔ c = 0 ∨ isSpace c = true := by
  simp [isInner, Classical.or_iff_not_imp_left]

theorem storeTurn_inner (h : text.drop p = c :: rest) (hc : isInner c = true) :
    storeTurn text (p, stored.length, stored ++ t :: tail) =
      some (.again (p + 1, (stored ++ [c]).length, stored ++ [c] ++ tail)) := by
  have hnot : ¬ (c = 0 ∨ isSpace c = true) := fun hor => not_isInner.mpr hor hc
  simp [storeTurn, Scan.getElem?_of_drop h, hnot, put_eq]

theorem run_storeTurn (h : text.drop p = word ++ c :: rest)
    (hword : ∀ b ∈ word, isInner b = true) (hc : ¬ isInner c = true)
    (hlt : word.length < tail.length) :
    Returns (fun fuel => run (storeTurn text) fuel (p, stored.length, stored ++ tail))
      (p + word.length, stored ++ (word ++ 0 :: tail.drop (word.length + 1))) := by
  induction word generalizing p stored tail with
  | nil =>
      obtain ⟨t, tail, rfl⟩ := List.exists_cons_of_ne_nil (List.ne_nil_of_length_pos hlt)
      apply returns_leave
      simp [storeTurn, Scan.getElem?_of_drop h, not_isInner.mp hc, put_eq]
  | cons b word ih =>
      obtain ⟨t, tail, rfl⟩ :=
        List.exists_cons_of_ne_nil (List.ne_nil_of_length_pos (Nat.zero_lt_of_lt hlt))
      have hturn : storeTurn text (p, stored.length, stored ++ t :: tail) =
          some (.again (p + 1, (stored ++ [b]).length, stored ++ [b] ++ tail)) :=
        storeTurn_inner h (hword b List.mem_cons_self)
      have hrest : Returns (fun fuel => run (storeTurn text) fuel
          (p + 1, (stored ++ [b]).length, stored ++ [b] ++ tail)) _ :=
        ih (Scan.drop_succ h) (fun d hd => hword d (List.mem_cons_of_mem _ hd)) (by simpa using hlt)
      have hagain := hrest.again hturn
      simpa [Nat.add_assoc, Nat.add_comm 1] using hagain

/-- A word without room for its NUL is written beyond the array. -/
theorem run_storeTurn_none (h : text.drop p = word ++ c :: rest)
    (hword : ∀ b ∈ word, isInner b = true) (hle : tail.length ≤ word.length) (fuel : ℕ) :
    run (storeTurn text) fuel (p, stored.length, stored ++ tail) = none := by
  induction fuel generalizing p stored tail word with
  | zero => rfl
  | succ fuel ih =>
      cases tail with
      | nil =>
          obtain ⟨d, hd⟩ : ∃ d, text[p]? = some d := by
            rw [← List.head?_drop, h]
            cases word <;> exact ⟨_, rfl⟩
          have hturn : storeTurn text (p, stored.length, stored ++ []) = none := by
            simp [storeTurn, hd, put_full]
          simp only [run, hturn]
      | cons t tail =>
          obtain ⟨b, word, rfl⟩ := List.exists_cons_of_ne_nil
            (List.ne_nil_of_length_pos (Nat.lt_of_lt_of_le (Nat.succ_pos tail.length) hle))
          have hturn : storeTurn text (p, stored.length, stored ++ t :: tail) =
              some (.again (p + 1, (stored ++ [b]).length, stored ++ [b] ++ tail)) :=
            storeTurn_inner h (hword b List.mem_cons_self)
          rw [run_again hturn]
          exact ih (Scan.drop_succ h) (fun d hd => hword d (List.mem_cons_of_mem _ hd))
            (by simpa using hle)

/-- An array with a word. -/
def filled (word : Text) : Text := word ++ 0 :: List.replicate (pathSize - word.length - 1) 0

/-- White space in front of a string is skipped. -/
theorem dropWhile_string (ys rest : Text) : (ys ++ 0 :: rest).dropWhile isSpace =
    firstWord ys ++ (behindWord ys ++ 0 :: rest) := by
  rw [← List.append_assoc, firstWord_append, List.dropWhile_append]
  split_ifs with hempty
  · rw [List.isEmpty_iff.mp hempty]
    rfl
  · rfl

theorem isInner_firstWord (hnul : 0 ∉ ys) (hc : c ∈ firstWord ys) : isInner c = true := by
  have hne : c ≠ 0 := ne_of_mem_of_not_mem (firstWord_subset ys hc) hnul
  simp [isInner, isSpace_firstWord hc, hne]

/-- A word ends with white space or with its string. -/
theorem exists_behindWord (ys rest : Text) : ∃ c rest',
    behindWord ys ++ 0 :: rest = c :: rest' ∧ ¬ isInner c = true := by
  cases hbehind : behindWord ys with
  | nil => exact ⟨0, rest, rfl, by decide⟩
  | cons c rest' =>
      have hhead : c ∈ (behindWord ys).head? := by simp [hbehind]
      exact ⟨c, _, rfl, not_isInner.mpr (.inr (isSpace_behindWord hhead))⟩

/-- There is no word left, or the next one is stored, or it does not fit. -/
theorem scanString_cases (h : text.drop p = ys ++ 0 :: rest) (hnul : 0 ∉ ys) :
    (firstWord ys = [] ∧ Returns (fun fuel => scanString fuel text p) none) ∨
      (firstWord ys ≠ [] ∧ (firstWord ys).length < pathSize ∧
        ∃ q, Returns (fun fuel => scanString fuel text p) (some (q, filled (firstWord ys))) ∧
          text.drop q = behindWord ys ++ 0 :: rest) ∨
      (pathSize ≤ (firstWord ys).length ∧ ∀ fuel, scanString fuel text p = none) := by
  have hstop : ∃ c ∈ text.drop p, isSpace c = false := ⟨0, by rw [h]; simp, rfl⟩
  obtain ⟨q, hq, hdrop⟩ := Scan.returns_drop hstop
  rw [h, dropWhile_string] at hdrop
  have hinner : ∀ b ∈ firstWord ys, isInner b = true := fun b hb => isInner_firstWord hnul hb
  obtain ⟨c, rest', hc, hend⟩ := exists_behindWord ys rest
  by_cases hword : firstWord ys = []
  · refine .inl ⟨hword, hq.andThen ?_⟩
    rw [hword, behindWord_nil hword] at hdrop
    simp only [Scan.getElem?_of_drop hdrop, Option.bind_eq_bind, Option.bind_some, if_true]
    exact returns_const _
  · obtain ⟨b, word, hsplit⟩ := List.exists_cons_of_ne_nil hword
    have hb : text[q]? = some b := by
      rw [← List.head?_drop, hdrop, hsplit]
      rfl
    have hb0 : b ≠ 0 := by
      have hbinner := hinner b (by simp [hsplit])
      rintro rfl
      cases hbinner
    have hstored := hdrop
    rw [hc] at hstored
    by_cases hlt : (firstWord ys).length < pathSize
    · refine .inr (.inl ⟨hword, hlt, q + (firstWord ys).length, hq.andThen ?_, Scan.drop_add hdrop⟩)
      have hrun : Returns (fun fuel => run (storeTurn text) fuel
          (q, ([] : Text).length, [] ++ List.replicate pathSize 0)) _ :=
        run_storeTurn hstored hinner hend (by simpa using hlt)
      have hfilled : [] ++ (firstWord ys ++ 0 :: (List.replicate pathSize (0 : UInt8)).drop
          ((firstWord ys).length + 1)) = filled (firstWord ys) := by
        simp [filled, List.drop_replicate, Nat.sub_sub]
      rw [hfilled] at hrun
      simp only [hb, hb0, Option.bind_eq_bind, Option.bind_some, if_false]
      exact hrun.bind rfl
    · refine .inr (.inr ⟨not_lt.mp hlt, fun fuel => ?_⟩)
      cases hrun : run (Scan.turn text isSpace) fuel p with
      | none => simp [scanString, hrun]
      | some q' =>
          obtain rfl := (run_returns hrun).unique hq
          have hnone : run (storeTurn text) fuel
              (q', ([] : Text).length, [] ++ List.replicate pathSize 0) = none :=
            run_storeTurn_none hstored hinner (by simpa using hlt) fuel
          simp only [List.length_nil, List.nil_append] at hnone
          simp [scanString, hrun, hb, hb0, hnone]

/-- A result does not depend on the fuel. -/
theorem scanString_returns {fuel : ℕ} {result : Option (ℕ × Text)}
    (h : scanString fuel text p = some result) :
    Returns (fun fuel => scanString fuel text p) result := by
  obtain ⟨q, hq, h⟩ := Option.bind_eq_some_iff.mp h
  refine (run_returns hq).andThen ?_
  obtain ⟨c, hc, h⟩ := Option.bind_eq_some_iff.mp h
  simp only [hc, Option.bind_eq_bind, Option.bind_some]
  split_ifs at h ⊢
  · exact h ▸ returns_const _
  · obtain ⟨stored, hstored, h⟩ := Option.bind_eq_some_iff.mp h
    exact (run_returns hstored).bind h

theorem filled_nil : filled [] = List.replicate pathSize 0 := rfl

def arrays : ℕ → List Text → List Text
  | 0, _ => []
  | n + 1, ws => filled (ws.headD []) :: arrays n ws.tail

theorem arrays_nil (n : ℕ) : arrays n [] = List.replicate n (List.replicate pathSize 0) := by
  induction n with
  | zero => rfl
  | succ n ih => rw [arrays, List.tail_nil, ih, List.replicate_succ, List.headD_nil, filled_nil]

/-- The words are stored, or one of them does not fit. -/
theorem scanStrings_cases (n : ℕ) (h : text.drop p = ys ++ 0 :: rest) (hnul : 0 ∉ ys) :
    ((∀ w ∈ (words ys).take n, w.length < pathSize) ∧
      Returns (fun fuel => scanStrings fuel text n p) (arrays n (words ys))) ∨
    ((∃ w ∈ (words ys).take n, pathSize ≤ w.length) ∧
      ∀ fuel, scanStrings fuel text n p = none) := by
  induction n generalizing p ys with
  | zero => exact .inl ⟨by simp, returns_const _⟩
  | succ n ih =>
      rcases scanString_cases h hnul with ⟨hword, hret⟩ | ⟨hword, hlt, q, hret, hq⟩ | ⟨hle, hnone⟩
      · rw [words_nil hword, arrays_nil]
        exact .inl ⟨by simp, hret.andThen (returns_const _)⟩
      · have hbehind : 0 ∉ behindWord ys := fun hmem => hnul (behindWord_subset ys hmem)
        rw [words_eq hword, List.take_succ_cons]
        rcases ih hq hbehind with ⟨hfit, hrest⟩ | ⟨⟨w, hw, hle⟩, hnone⟩
        · exact .inl ⟨by simpa using ⟨hlt, hfit⟩, hret.andThen (hrest.bind rfl)⟩
        · refine .inr ⟨⟨w, List.mem_cons_of_mem _ hw, hle⟩, fun fuel => ?_⟩
          cases hrun : scanString fuel text p with
          | none => simp [scanStrings, hrun]
          | some result =>
              obtain rfl := (scanString_returns hrun).unique hret
              simp [scanStrings, hrun, hnone]
      · have hword : firstWord ys ≠ [] := by
          rintro hnil
          rw [hnil] at hle
          cases hle
        rw [words_eq hword, List.take_succ_cons]
        exact .inr ⟨⟨_, List.mem_cons_self, hle⟩, fun fuel => by simp [scanStrings, hnone]⟩

variable {received : Text}

theorem mem_ioBuffer : 0 ∈ ioBuffer received ↔ received.length < ioBufSize ∨ 0 ∈ received := by
  rw [ioBuffer, List.mem_append, List.mem_replicate, or_comm]
  have hpos : ioBufSize - received.length ≠ 0 ↔ received.length < ioBufSize := by omega
  simp [hpos]

/-- The text in the buffer ends before the first NUL in it. -/
theorem ioBuffer_split (h : received.length < ioBufSize ∨ 0 ∈ received) :
    ∃ rest, ioBuffer received = received.takeWhile (· != 0) ++ 0 :: rest := by
  by_cases hmem : 0 ∈ received
  · obtain ⟨us, vs, rfl, hus⟩ := List.eq_append_cons_of_mem hmem
    have htake : (us ++ 0 :: vs).takeWhile (· != 0) = us := by
      rw [List.takeWhile_append_of_pos fun b hb => by simpa using ne_of_mem_of_not_mem hb hus]
      simp
    exact ⟨_, by rw [htake, ioBuffer, List.append_assoc, List.cons_append]⟩
  · obtain ⟨n, hn⟩ : ∃ n, ioBufSize - received.length = n + 1 :=
      ⟨ioBufSize - received.length - 1, by have hlt := h.resolve_right hmem; omega⟩
    refine ⟨List.replicate n 0, ?_⟩
    rw [CString.takeWhile_of_noNul hmem, ioBuffer, hn, List.replicate_succ]

theorem notMem_takeWhile (text : Text) : 0 ∉ text.takeWhile (· != 0) := (front text).noNul

theorem sscanf_cases (received : Text) :
    (WordsFit received ∧ Returns (fun fuel => sscanf fuel (ioBuffer received))
        (arrays 3 (words (received.takeWhile (· != 0))))) ∨
      (¬ WordsFit received ∧ ∀ fuel, sscanf fuel (ioBuffer received) = none) := by
  by_cases hends : received.length < ioBufSize ∨ 0 ∈ received
  · obtain ⟨rest, hrest⟩ := ioBuffer_split hends
    have hstop : ∃ c ∈ (ioBuffer received).drop 0, (c != 0) = false :=
      ⟨0, mem_ioBuffer.mpr hends, rfl⟩
    obtain ⟨q, hq, -⟩ := Scan.returns_drop hstop
    have hstart : (ioBuffer received).drop 0 = received.takeWhile (· != 0) ++ 0 :: rest := hrest
    rcases scanStrings_cases 3 hstart (notMem_takeWhile received) with
      ⟨hfit, hret⟩ | ⟨⟨w, hw, hle⟩, hnone⟩
    · exact .inl ⟨⟨hends, hfit⟩, hq.andThen hret⟩
    · refine .inr ⟨fun hwords => absurd (hwords.2 w hw) (not_lt.mpr hle), fun fuel => ?_⟩
      simp [sscanf, hnone]
  · refine .inr ⟨fun hwords => hends hwords.1, fun fuel => ?_⟩
    have hgo : ∀ c ∈ (ioBuffer received).drop 0, (c != 0) = true := by
      intro c hc
      have hne := ne_of_mem_of_not_mem (List.mem_of_mem_drop hc) (mt mem_ioBuffer.mp hends)
      simpa using hne
    simp [sscanf, Scan.run_none hgo fuel]

theorem words_headD (text : Text) : (words text).headD [] = firstWord text := by
  by_cases h : firstWord text = []
  · rw [words_nil h, h, List.headD_nil]
  · rw [words_eq h, List.headD_cons]

theorem words_tail (text : Text) : (words text).tail = words (behindWord text) := by
  by_cases h : firstWord text = []
  · rw [words_nil h, behindWord_nil h]
    rfl
  · rw [words_eq h, List.tail_cons]

theorem front_filled (h : 0 ∉ word) : (front (filled word)).bytes = word := by
  rw [filled, front_append]
  exact CString.takeWhile_of_noNul h

theorem scanWord_eq (h : (firstWord text).length < pathSize) :
    scanWord text = some (firstWord text, behindWord text) := if_pos h

theorem fit_behind {n : ℕ} (h : ∀ w ∈ (words text).take (n + 1), w.length < pathSize) :
    (firstWord text).length < pathSize ∧
      ∀ w ∈ (words (behindWord text)).take n, w.length < pathSize := by
  rw [← words_tail, ← words_headD]
  cases hwords : words text with
  | nil => exact ⟨by decide, by simp⟩
  | cons w ws =>
      rw [hwords, List.take_succ_cons] at h
      exact ⟨h w List.mem_cons_self, fun v hv => h v (List.mem_cons_of_mem _ hv)⟩

/-- The array `uri` holds what `up_sendfile` is given. -/
theorem sscanf_uri {result : List Text}
    (h : Returns (fun fuel => sscanf fuel (ioBuffer received)) result) :
    ∃ uri, result[1]? = some uri ∧ uriParameter received = some ((front uri).bytes.drop 1) := by
  rcases sscanf_cases received with ⟨⟨hends, hfit⟩, hret⟩ | ⟨-, hnone⟩
  · obtain rfl := h.unique hret
    have hnul := notMem_takeWhile received
    have huri : uriParameter received =
        (scanWord (received.takeWhile (· != 0))).bind fun method =>
          (scanWord method.2).bind fun uri => (scanWord uri.2).map fun _ => uri.1.drop 1 :=
      if_pos hends
    rw [huri]
    clear hends huri hret
    generalize received.takeWhile (· != 0) = ys at hfit hnul ⊢
    obtain ⟨hmethod, hfit⟩ := fit_behind hfit
    obtain ⟨hsecond, hfit⟩ := fit_behind hfit
    obtain ⟨hthird, -⟩ := fit_behind hfit
    refine ⟨filled (firstWord (behindWord ys)), ?_, ?_⟩
    · simp only [arrays, words_tail, words_headD]
      rfl
    · have hnul' : 0 ∉ firstWord (behindWord ys) :=
        fun hmem => hnul (behindWord_subset _ (firstWord_subset _ hmem))
      simp only [scanWord_eq hmethod, scanWord_eq hsecond, scanWord_eq hthird, Option.bind_some,
        Option.map_some, front_filled hnul']
  · obtain ⟨n, hn⟩ := h
    cases (hnone n).symm.trans (hn n (Nat.le_refl n))

/-- The scan of a request stays inside of the buffer and the arrays, exactly when the text ends in
the buffer and none of its first three words fills an array. -/
theorem sscanf_returns_iff (request : Text) :
    (∃ result, Returns (fun fuel => sscanf fuel (ioBuffer (request.take ioBufSize))) result) ↔
      WordsFit (request.take ioBufSize) := by
  rcases sscanf_cases (request.take ioBufSize) with ⟨hfit, hret⟩ | ⟨hfit, hnone⟩
  · exact iff_of_true ⟨_, hret⟩ hfit
  · refine iff_of_false ?_ hfit
    rintro ⟨result, n, hn⟩
    cases (hnone n).symm.trans (hn n (Nat.le_refl n))

end

/-- A URI of 128 bytes. -/
def longUri : Text := slash :: List.replicate 127 0x61

def longRequest : Text := bytes "GET" ++ 32 :: (longUri ++ bytes " HTTP/1.0\r\n\r\n")

theorem mem_longUri {c : UInt8} (hc : c ∈ longUri) : c = slash ∨ c = 0x61 := by
  simpa [longUri] using hc

theorem words_longRequest : longUri ∈ (words longRequest).take 3 := by
  have hget : words longRequest =
      bytes "GET" :: words (32 :: (longUri ++ bytes " HTTP/1.0\r\n\r\n")) := by
    refine words_append (by decide) (List.all_iff_forall_prop.mp (by decide)) fun c hc => ?_
    cases hc
    rfl
  have huri : words (longUri ++ bytes " HTTP/1.0\r\n\r\n") =
      longUri :: words (bytes " HTTP/1.0\r\n\r\n") := by
    refine words_append (List.cons_ne_nil _ _) (fun c hc => ?_) fun c hc => ?_
    · rcases mem_longUri hc with rfl | rfl <;> rfl
    · cases hc
      rfl
  rw [hget, words_cons_space rfl, huri]
  simp

/-- The request fits into the buffer, and its URI does not fit into the array. -/
theorem sscanf_longRequest : longRequest.length ≤ ioBufSize ∧
    ¬ ∃ result, Returns (fun fuel => sscanf fuel (ioBuffer (longRequest.take ioBufSize)))
      result := by
  have hlength : longRequest.length ≤ ioBufSize := by
    simp only [longRequest, longUri, List.length_append, List.length_cons, List.length_replicate]
    decide
  have hnul : 0 ∉ longRequest := by
    simp only [longRequest, List.mem_append, List.mem_cons, not_or]
    refine ⟨by decide, by decide, fun hmem => ?_, by decide⟩
    rcases mem_longUri hmem with h | h <;> cases h
  refine ⟨hlength, ?_⟩
  rw [List.take_of_length_le hlength]
  rintro ⟨result, n, hn⟩
  rcases sscanf_cases longRequest with ⟨⟨-, hfit⟩, -⟩ | ⟨-, hnone⟩
  · rw [CString.takeWhile_of_noNul hnul] at hfit
    have hlt := hfit longUri words_longRequest
    simp [longUri, pathSize] at hlt
  · cases (hnone n).symm.trans (hn n (Nat.le_refl n))

end EmbeddedCode.Server
