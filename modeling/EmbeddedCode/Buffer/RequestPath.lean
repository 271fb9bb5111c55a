import EmbeddedCode.Buffer.PathSimplify

/-!
# The path of a request

`http_response_prepare` of `lighttpd-1.4.32/src/response.c` decodes the path of a request and
simplifies it before a file name is made of it.
-/
namespace EmbeddedCode.Buffer

open ByteMemory Loop

/-- A path that starts with a slash and has no segment "." or "..". Only its last segment may be
empty. -/
structure Normal (text : List UInt8) : Prop where
  slash : text.head? = some (ascii '/')
  named : ∀ segment ∈ text.tail.splitOn (ascii '/'), segment ≠ dot ∧ segment ≠ dotdot
  inner : [] ∉ (text.tail.splitOn (ascii '/')).dropLast

/-- The segments of a path in the order in which they are written. -/
theorem path_eq_intercalate (stack : List Segment) (hne : stack ≠ []) :
    path stack = ascii '/' :: [ascii '/'].intercalate stack.reverse := by
  unfold path
  generalize hsegments : stack.reverse = segments
  have hcons : segments ≠ [] := by
    rw [← hsegments]
    simpa using hne
  clear hsegments hne
  induction segments with
  | nil => exact absurd rfl hcons
  | cons segment segments ih =>
      cases segments with
      | nil => simp
      | cons next segments =>
          rw [List.flatMap_cons, ih (by simp), List.intercalate_cons_cons]
          simp

/-- A stack of segments that a path can be made of. -/
structure Clean (stack : List Segment) : Prop where
  slash : ∀ segment ∈ stack, ascii '/' ∉ segment
  plain : ∀ segment ∈ stack, ¬ Special segment

theorem Clean.enter {stack : List Segment} (h : Clean stack) {segment : Segment}
    (hslash : ascii '/' ∉ segment) : Clean (enter stack segment) := by
  unfold Buffer.enter
  split_ifs with hempty hdd
  · exact h
  · exact ⟨fun s hs => h.slash s (List.mem_of_mem_tail hs),
      fun s hs => h.plain s (List.mem_of_mem_tail hs)⟩
  · have hplain : ¬ Special segment := by
      simp only [Special, not_or] at hempty ⊢
      exact ⟨hempty.1, hempty.2, hdd⟩
    exact ⟨List.forall_mem_cons.mpr ⟨hslash, h.slash⟩, List.forall_mem_cons.mpr ⟨hplain, h.plain⟩⟩

/-- A path of clean segments with a last one is normal. -/
theorem Clean.normal {stack : List Segment} (h : Clean stack) {last : Segment}
    (hslash : ascii '/' ∉ last) (hdot : last ≠ dot) (hdotdot : last ≠ dotdot) :
    Normal (path (last :: stack)) := by
  have hsegments : (path (last :: stack)).tail.splitOn (ascii '/') = (last :: stack).reverse := by
    rw [path_eq_intercalate _ (by simp), List.tail_cons]
    apply List.splitOn_intercalate
    · intro segment hsegment
      rcases List.mem_cons.mp (List.mem_reverse.mp hsegment) with rfl | hsegment
      · exact hslash
      · exact h.slash segment hsegment
    · simp
  refine ⟨?_, ?_, ?_⟩
  · rw [path_eq_intercalate _ (by simp)]
    rfl
  · rw [hsegments]
    intro segment hsegment
    rcases List.mem_cons.mp (List.mem_reverse.mp hsegment) with rfl | hsegment
    · exact ⟨hdot, hdotdot⟩
    · have hplain := h.plain segment hsegment
      simp only [Special, not_or] at hplain
      exact hplain.2
  · rw [hsegments, List.reverse_cons, List.dropLast_concat, List.mem_reverse]
    exact fun hnil => h.plain [] hnil (.inl rfl)

theorem Clean.finish_normal {stack : List Segment} (h : Clean stack) {segment : Segment}
    (hslash : ascii '/' ∉ segment) : Normal (finish stack segment) := by
  unfold finish
  split_ifs with hspecial
  · rw [← path_cons]
    exact (h.enter hslash).normal (by simp) (by decide) (by decide)
  · rw [← path_cons]
    simp only [Special, not_or] at hspecial
    exact h.normal hslash hspecial.2.1 hspecial.2.2

theorem Clean.resolve_normal {segments : List Segment} (hne : segments ≠ [])
    (hslash : ∀ segment ∈ segments, ascii '/' ∉ segment) {stack : List Segment}
    (h : Clean stack) : Normal (resolve stack segments) := by
  induction segments generalizing stack with
  | nil => exact absurd rfl hne
  | cons segment segments ih =>
      rw [List.forall_mem_cons] at hslash
      cases segments with
      | nil => exact h.finish_normal hslash.1
      | cons next segments => exact ih (by simp) hslash.2 (h.enter hslash.1)

theorem slash_not_mem_splitOn (text : List UInt8) :
    ∀ segment ∈ text.splitOn (ascii '/'), ascii '/' ∉ segment := by
  induction text with
  | nil => simp
  | cons c text ih =>
      rw [List.splitOn_cons_eq_if_modifyHead]
      split_ifs with hc
      · exact List.forall_mem_cons.mpr ⟨by simp, ih⟩
      · have hne : ascii '/' ≠ c := fun he => hc (by simp [he])
        cases hsplit : text.splitOn (ascii '/') with
        | nil => simp
        | cons segment segments =>
            rw [hsplit, List.forall_mem_cons] at ih
            exact List.forall_mem_cons.mpr ⟨by simp [hne, ih.1], ih.2⟩

theorem simplified_normal (text : List UInt8) : Normal (simplified text) :=
  Clean.resolve_normal (List.splitOn_ne_nil _ _) (slash_not_mem_splitOn _) ⟨by simp, by simp⟩

theorem resolve_plain {segments : List Segment} (stack : List Segment) (last : Segment)
    (hplain : ∀ segment ∈ segments, ¬ Special segment) (hdot : last ≠ dot)
    (hdotdot : last ≠ dotdot) :
    resolve stack (segments ++ [last]) = path (last :: (segments.reverse ++ stack)) := by
  induction segments generalizing stack with
  | nil =>
      rw [List.nil_append, List.reverse_nil, List.nil_append, path_cons]
      show finish stack last = _
      unfold finish
      split_ifs with hspecial
      · have hnil : last = [] := by
          rcases hspecial with h | h | h
          · exact h
          · exact absurd h hdot
          · exact absurd h hdotdot
        rw [hnil, enter, if_pos (.inl rfl)]
      · rfl
  | cons segment segments ih =>
      rw [List.forall_mem_cons] at hplain
      rw [List.cons_append, resolve_cons _ _ (by simp), Simplifying.enter_plain hplain.1,
        ih _ hplain.2, List.reverse_cons, List.append_assoc, List.singleton_append]

theorem Normal.simplified_eq {text : List UInt8} (h : Normal text) : simplified text = text := by
  obtain ⟨hslash, hnamed, hinner⟩ := h
  cases text with
  | nil => cases hslash
  | cons c text =>
      obtain rfl : c = ascii '/' := Option.some.inj hslash
      rw [List.tail_cons] at hnamed hinner
      have hne := List.splitOn_ne_nil (ascii '/') text
      have hsplit := List.dropLast_concat_getLast hne
      have hlast := hnamed _ (List.getLast_mem hne)
      have hplain : ∀ segment ∈ (text.splitOn (ascii '/')).dropLast, ¬ Special segment := by
        intro segment hsegment hspecial
        have hname := hnamed segment (List.dropLast_subset _ hsegment)
        rcases hspecial with rfl | rfl | rfl
        · exact hinner hsegment
        · exact hname.1 rfl
        · exact hname.2 rfl
      have hresolve := resolve_plain [] _ hplain hlast.1 hlast.2
      rw [hsplit, List.append_nil, path_eq_intercalate _ (by simp), List.reverse_cons,
        List.reverse_reverse, hsplit, List.intercalate_splitOn] at hresolve
      exact hresolve

/-- A text of less than 2 GiB is simplified, in its place or before or behind it, to the normal path
that its segments lead to. A text that is a normal path already is left as it is. -/
theorem pathSimplify_normal {mem : Memory} (start : ℕ) {src : ℕ} {text : List UInt8}
    (h : Bytes mem src (text ++ [0])) (hnul : 0 ∉ text) (hlen : text.length < 2 ^ 31)
    (hplace : start ≤ src ∨ src + text.length < start) :
    ∃ mem', Returns (fun fuel => pathSimplify fuel mem start src)
        (mem', (simplified text).length + if text.all (· == ascii ' ') then 2 else 1) ∧
      Bytes mem' start (simplified text ++ [0]) ∧ Normal (simplified text) ∧
      (Normal text → simplified text = text) ∧
      ∀ a, a < start ∨ start + text.length + 1 < a → mem' a = mem a := by
  obtain ⟨mem', hrun, hbytes, hframe⟩ := pathSimplify_eq h hnul hlen hplace
  exact ⟨mem', hrun, hbytes, simplified_normal text, Normal.simplified_eq, hframe⟩

/-- " a/..//b/./c" in its place. -/
theorem pathSimplify_normal_dots :
    let text := " a/..//b/./c".toList.map ascii
    let mem : Memory := fun a => text.getD a 0
    ∃ mem', Returns (fun fuel => pathSimplify fuel mem 0 0) (mem', 5) ∧
      Bytes mem' 0 ("/b/c".toList.map ascii ++ [0]) := by
  intro text mem
  obtain ⟨mem', hrun, hbytes, -⟩ := pathSimplify_normal 0
    (show Bytes mem 0 (text ++ [0]) by simp [mem, text]) (by decide) (by decide)
    (.inl (Nat.le_refl 0))
  have hsimplified : simplified text = "/b/c".toList.map ascii := by decide +kernel
  rw [hsimplified] at hrun hbytes
  exact ⟨mem', hrun, hbytes⟩

/-- `buffer_copy_string_len`, where the buffer has room. -/
def copyStringLen (mem : Memory) (b s len : ℕ) : Memory := fun a =>
  if b ≤ a ∧ a < b + len then mem (s + (a - b)) else if a = b + len then 0 else mem a

/-- What is done about the path: `pathRaw`, `tmpBuf` and `path` are the places of the three
buffers, and `used` is that of the first one. -/
def requestPath (fuel : ℕ) (options : Bool) (mem : Memory) (path tmpBuf pathRaw used : ℕ) :
    Option (Memory × ℕ) :=
  if options ∧ mem pathRaw = ascii '*' ∧ mem (pathRaw + 1) = 0 then
    some (copyStringLen mem path pathRaw (used - 1), used)
  else do
    let mem := copyStringLen mem tmpBuf pathRaw (used - 1)
    let (mem, _) ← urldecodeInternal fuel mem tmpBuf false
    pathSimplify fuel mem path tmpBuf

theorem copyStringLen_of_ne {mem : Memory} {b s len a : ℕ} (h : a < b ∨ b + len < a) :
    copyStringLen mem b s len a = mem a := by
  unfold copyStringLen
  rw [if_neg (by omega), if_neg (by omega)]

theorem copyStringLen_bytes {mem : Memory} {b s : ℕ} {text : List UInt8} (h : Bytes mem s text) :
    Bytes (copyStringLen mem b s text.length) b (text ++ [0]) := by
  refine bytes_append.mpr ⟨h.move fun i hi => ?_, ?_, trivial⟩
  · unfold copyStringLen
    rw [if_pos (by omega), Nat.add_sub_cancel_left]
  · unfold copyStringLen
    rw [if_neg (by omega), if_pos rfl]

theorem printable_ne_zero (b : UInt8) : 0 ≠ printable b :=
  forall_byte (P := fun b => 0 ≠ printable b) (by decide +kernel) b

/-- What is decoded holds no NUL, and is no longer than before. -/
theorem decode_text (isQuery : Bool) {text : List UInt8} (h : 0 ∉ text) :
    0 ∉ decode isQuery text ∧ (decode isQuery text).length ≤ text.length := by
  induction text using decode.induct isQuery with
  | case1 => exact ⟨h, Nat.le_refl _⟩
  | case2 b bs hplus ih =>
      rw [List.mem_cons, not_or] at h
      obtain ⟨hnul, hle⟩ := ih h.2
      rw [decode_plus hplus, List.mem_cons, not_or]
      exact ⟨⟨by decide, hnul⟩, Nat.succ_le_succ hle⟩
  | case3 x y rest hdigits hplus ih =>
      obtain ⟨hnul, hle⟩ := ih fun hmem => h (by simp [hmem])
      rw [decode, if_neg hplus, if_pos rfl, if_pos hdigits, List.mem_cons, not_or]
      refine ⟨⟨printable_ne_zero _, hnul⟩, ?_⟩
      simp only [List.length_cons]
      omega
  | case4 x y rest hdigits hplus ih =>
      rw [List.mem_cons, not_or] at h
      obtain ⟨hnul, hle⟩ := ih h.2
      rw [decode, if_neg hplus, if_pos rfl, if_neg hdigits, List.mem_cons, not_or]
      exact ⟨⟨h.1, hnul⟩, Nat.succ_le_succ hle⟩
  | case5 x hplus ih =>
      rw [List.mem_cons, not_or] at h
      obtain ⟨hnul, hle⟩ := ih h.2
      rw [decode, if_neg hplus, if_pos rfl, List.mem_cons, not_or]
      exact ⟨⟨h.1, hnul⟩, Nat.succ_le_succ hle⟩
  | case6 hplus =>
      rw [decode, if_neg hplus, if_pos rfl]
      exact ⟨h, Nat.le_refl _⟩
  | case7 b bs hplus hpercent ih =>
      rw [List.mem_cons, not_or] at h
      obtain ⟨hnul, hle⟩ := ih h.2
      rw [decode_plain hplus hpercent, List.mem_cons, not_or]
      exact ⟨⟨h.1, hnul⟩, Nat.succ_le_succ hle⟩

theorem asterisk_iff {mem : Memory} {p : ℕ} {text : List UInt8} (h : Bytes mem p (text ++ [0]))
    (hnul : 0 ∉ text) :
    (mem p = ascii '*' ∧ mem (p + 1) = 0) ↔ text = [ascii '*'] := by
  have hne : ascii '*' ≠ 0 := by decide
  match text with
  | [] => simp [h.1, hne.symm]
  | [c] => simp [h.1, h.2.1]
  | c :: d :: text =>
      have hd : mem (p + 1) = d := h.2.1
      have hnul : d ≠ 0 := fun he => hnul (by simp [he])
      simp [hd, hnul]

/-- However it is written and encoded, the path of a request becomes a normal one, so that no
segment of it leads up, but for the asterisk of the method OPTIONS. The three buffers lie apart, and
the server takes no request with a header of more than 64 KiB. -/
theorem requestPath_normal (options : Bool) {mem : Memory} {path tmpBuf pathRaw : ℕ}
    {text : List UInt8} (h : Bytes mem pathRaw (text ++ [0])) (hnul : 0 ∉ text)
    (hlen : text.length < 2 ^ 31)
    (htmp : tmpBuf + text.length < path ∨ path + text.length + 1 < tmpBuf)
    (hraw : pathRaw + text.length < path ∨ path + text.length + 1 < pathRaw)
    (hrawTmp : pathRaw + text.length < tmpBuf ∨ tmpBuf + text.length < pathRaw) :
    ∃ mem' used p, Returns
        (fun fuel => requestPath fuel options mem path tmpBuf pathRaw (text.length + 1))
        (mem', used) ∧
      Bytes mem' path (p ++ [0]) ∧ Bytes mem' pathRaw (text ++ [0]) ∧
      if options ∧ text = [ascii '*'] then p = text
      else p = simplified (decode false text) ∧ Normal p := by
  have htext := (bytes_append.mp h).1
  unfold requestPath
  simp only [asterisk_iff h hnul, Nat.add_sub_cancel]
  by_cases hstar : options ∧ text = [ascii '*']
  · simp only [if_pos hstar]
    refine ⟨_, _, text, returns_const _, copyStringLen_bytes htext,
      h.congr fun a hle hlt => ?_, rfl⟩
    rw [List.length_append, List.length_singleton] at hlt
    exact copyStringLen_of_ne (by omega)
  · simp only [if_neg hstar]
    obtain ⟨hdecoded, hlength⟩ := decode_text false hnul
    obtain ⟨mem₁, hrun₁, hbytes₁, hframe₁⟩ :=
      urldecodeInternal_eq false (copyStringLen_bytes (b := tmpBuf) htext) hnul
    obtain ⟨mem₂, hrun₂, hbytes₂, hframe₂⟩ :=
      pathSimplify_eq hbytes₁ hdecoded (by omega) (show path ≤ tmpBuf ∨ _ by omega)
    refine ⟨mem₂, _, _, hrun₁.andThen hrun₂, hbytes₂, h.congr fun a hle hlt => ?_, rfl,
      simplified_normal _⟩
    rw [List.length_append, List.length_singleton] at hlt
    rw [hframe₂ a (by omega), hframe₁ a (by omega), copyStringLen_of_ne (by omega)]

/-- "/%2e%2e/%2E./etc" asks for "/etc". -/
theorem requestPath_normal_encoded :
    let text := "/%2e%2e/%2E./etc".toList.map ascii
    let mem : Memory := fun a => text.getD (a - 100) 0
    ∃ mem' used, Returns (fun fuel => requestPath fuel false mem 0 50 100 17) (mem', used) ∧
      Bytes mem' 0 ("/etc".toList.map ascii ++ [0]) := by
  intro text mem
  obtain ⟨mem', used, p, hrun, hbytes, -, hp⟩ := requestPath_normal false
    (show Bytes mem 100 (text ++ [0]) by simp [mem, text]) (by decide) (by decide)
    (show 50 + text.length < 0 ∨ 0 + text.length + 1 < 50 from .inr (by decide))
    (.inr (by decide)) (.inr (by decide))
  have hsimplified : simplified (decode false text) = "/etc".toList.map ascii := by decide +kernel
  rw [if_neg (by decide), hsimplified] at hp
  rw [hp.1] at hbytes
  exact ⟨mem', used, hrun, hbytes⟩

end EmbeddedCode.Buffer
