import EmbeddedCode.Printk.Numerals

/-!
# The expansion of a format

What `printk` is to print is said without a state: the format is read two characters at a time,
and each conversion takes the next argument. `printk` prints this expansion, and its result is
the number of characters as far as an `int` can hold it.
-/
namespace EmbeddedCode.Printk

open CInt Loop

inductive Conversion where
  | char
  | string
  | decimal
  | unsigned
  | binary
  | hexadecimal
  deriving DecidableEq, Repr

def conversion (ch : UInt8) : Option Conversion :=
  if ch = ascii 'c' then some .char
  else if ch = ascii 's' then some .string
  else if ch = ascii 'd' then some .decimal
  else if ch = ascii 'u' then some .unsigned
  else if ch = ascii 'b' then some .binary
  else if ch = ascii 'x' then some .hexadecimal
  else none

def signedNumeral (n : Word) : List UInt8 :=
  (if n.toInt < 0 then [ascii '-'] else []) ++ numeral 10 n.toInt.natAbs

/-- The text of an argument of the right type. -/
def Conversion.text : Conversion → Arg → Option (List UInt8)
  | .char, .int n => some [n.toNat.toUInt8]
  | .string, .str s => some s.bytes
  | .decimal, .int n => some (signedNumeral n)
  | .unsigned, .int n => some (numeral 10 n.toNat)
  | .binary, .int n => some (numeral 2 n.toNat)
  | .hexadecimal, .int n => some (numeral 16 n.toNat)
  | _, _ => none

def prepend (text : List UInt8) (r : Option (List UInt8 × List Arg)) :
    Option (List UInt8 × List Arg) := r.map fun (out, args) => (text ++ out, args)

/-- The expansion of a format with the arguments that are left. There is none if an argument is
missing or of the wrong type. -/
def expand : List UInt8 → List Arg → Option (List UInt8 × List Arg)
  | [], args => some ([], args)
  | [ch], args => some (if ch = ascii '%' then [] else [ch], args)
  | ch :: next :: fmt, args =>
      if ch = ascii '%' then
        if next = ascii '%' then prepend [next] (expand fmt args)
        else
          match conversion next, args with
          | none, args => expand fmt args
          | some _, [] => none
          | some conv, arg :: args =>
              (conv.text arg).bind fun text => prepend text (expand fmt args)
      else prepend [ch] (expand (next :: fmt) args)

variable {s : State} {ch : UInt8} {fmt text out : List UInt8} {arg : Arg} {ap args rest : List Arg}
  {conv : Conversion}

theorem prepend_eq_some {r : Option (List UInt8 × List Arg)}
    (h : prepend text r = some (out, rest)) :
    ∃ tail, r = some (tail, rest) ∧ out = text ++ tail := by
  obtain ⟨⟨tail, rest'⟩, hr, heq⟩ := Option.map_eq_some_iff.mp h
  cases heq
  exact ⟨tail, hr, rfl⟩

theorem toNat_of_nonneg {n : Word} (hn : ¬ n.toInt < 0) : n.toNat = n.toInt.natAbs := by
  have hlt := n.isLt
  rw [BitVec.toInt_eq_toNat_cond] at hn ⊢
  split_ifs at hn ⊢ <;> omega

theorem signedNumeral_eq (n : Word) :
    sign n 10 true ++ numeral 10 (magnitude n 10 true).toNat = signedNumeral n := by
  unfold sign magnitude signedNumeral
  by_cases hn : n.toInt < 0
  · rw [if_pos ⟨rfl, rfl, hn⟩, if_pos ⟨rfl, rfl, hn⟩, if_pos hn, neg_toNat hn]
  · rw [if_neg (fun h => hn h.2.2), if_neg (fun h => hn h.2.2), if_neg hn, toNat_of_nonneg hn]

theorem unsignedNumeral_eq (n : Word) {base : ℕ} {isSigned : Bool}
    (h : ¬ (base = 10 ∧ isSigned = true)) :
    sign n base isSigned ++ numeral base (magnitude n base isSigned).toNat =
      numeral base n.toNat := by
  have hpositive : ¬ (base = 10 ∧ isSigned = true ∧ n.toInt < 0) := fun h' => h ⟨h'.1, h'.2.1⟩
  rw [sign, magnitude, if_neg hpositive, if_neg hpositive, List.nil_append]

theorem number_returns {base : ℕ} {isSigned : Bool} {n : Word} (hb : 1 < base) (hb' : base ≤ 16)
    (hlen : s.str.length = bufLen) (hap : s.ap = .int n :: ap)
    (htext : sign n base isSigned ++ numeral base (magnitude n base isSigned).toNat = text) :
    ∃ str, str.length = bufLen ∧ Returns (fun fuel => s.number fuel base isSigned)
      ⟨.normal, ap, str, s.out ++ text, wrap (s.count + text.length)⟩ := by
  obtain ⟨hfits, hitoa⟩ := itoa_returns hb hb' hlen n isSigned
  rw [htext] at hfits hitoa
  refine ⟨written s.str text, (written_length (hlen ▸ hfits)).trans hlen, ?_⟩
  simp only [State.number, hap, Option.map_eq_bind]
  exact hitoa.bind rfl

/-- The conversions to a number differ in the base and in the sign only. -/
theorem number_converts {base : ℕ} {isSigned : Bool} (hb : 1 < base) (hb' : base ≤ 16)
    (hlen : s.str.length = bufLen) (hap : s.ap = arg :: ap) (htext : conv.text arg = some text)
    (hint : ∀ n, conv.text (.int n) =
      some (sign n base isSigned ++ numeral base (magnitude n base isSigned).toNat))
    (hstr : ∀ t, conv.text (.str t) = none) :
    ∃ str, str.length = bufLen ∧ Returns (fun fuel => s.number fuel base isSigned)
      ⟨.normal, ap, str, s.out ++ text, wrap (s.count + text.length)⟩ := by
  cases arg with
  | str t =>
      rw [hstr] at htext
      cases htext
  | int n =>
      rw [hint] at htext
      exact number_returns hb hb' hlen hap (Option.some.inj htext)

/-- A character behind a `%` that is no conversion is skipped. -/
theorem convert_skipped (hconv : conversion ch = none) (fuel : ℕ) :
    s.convert fuel ch = some {s with flag := .normal} := by
  unfold conversion at hconv
  split_ifs at hconv with hc hs hd hu hb hx
  rw [State.convert, if_neg hc, if_neg hs, if_neg hd, if_neg hu, if_neg hb, if_neg hx]

theorem convert_returns (hconv : conversion ch = some conv) (hap : s.ap = arg :: ap)
    (htext : conv.text arg = some text) (hlen : s.str.length = bufLen) :
    ∃ str, str.length = bufLen ∧ Returns (fun fuel => s.convert fuel ch)
      ⟨.normal, ap, str, s.out ++ text, wrap (s.count + text.length)⟩ := by
  unfold State.convert
  unfold conversion at hconv
  split_ifs at hconv ⊢
  · cases hconv
    cases arg with
    | str t => cases htext
    | int n =>
        cases htext
        simp only [hap]
        exact ⟨s.str, hlen, returns_const _⟩
  · cases hconv
    cases arg with
    | int n => cases htext
    | str t =>
        cases htext
        simp only [hap]
        exact ⟨s.str, hlen, returns_const _⟩
  · cases hconv
    exact number_converts (by decide) (by decide) hlen hap htext
      (fun n => congrArg some (signedNumeral_eq n).symm) fun _ => rfl
  · cases hconv
    exact number_converts (by decide) (by decide) hlen hap htext
      (fun n => congrArg some (unsignedNumeral_eq n (by decide)).symm) fun _ => rfl
  · cases hconv
    exact number_converts (by decide) (by decide) hlen hap htext
      (fun n => congrArg some (unsignedNumeral_eq n (by decide)).symm) fun _ => rfl
  · cases hconv
    exact number_converts (by decide) (by decide) hlen hap htext
      (fun n => congrArg some (unsignedNumeral_eq n (by decide)).symm) fun _ => rfl

theorem step_normal (hflag : s.flag = .normal) (fuel : ℕ) (ch : UInt8) :
    s.step fuel ch = some (if ch = ascii '%' then {s with flag := .fmt} else s.literal ch) := by
  simp only [State.step, hflag]

theorem step_fmt (hflag : s.flag = .fmt) (fuel : ℕ) (ch : UInt8) :
    s.step fuel ch = if ch = ascii '%' then some {s.literal ch with flag := .normal}
      else s.convert fuel ch := by
  simp only [State.step, hflag]

/-- What a call does from the state `s` on: it prints `text` and uses the arguments up to
`rest`. -/
def Prints (s : State) (fmt : List UInt8) (text : List UInt8) (rest : List Arg) : Prop :=
  ∃ t : State, Returns (fun fuel => fmt.foldlM (State.step fuel) s) t ∧
    t.out = s.out ++ text ∧ t.ap = rest ∧ t.count = wrap (s.count + text.length)

/-- The characters that a step prints stand in front of what the rest of the format prints. -/
theorem Prints.step {t : State} (h : Prints t fmt text rest) {first : List UInt8}
    (hstep : Returns (fun fuel => s.step fuel ch) t) (hout : t.out = s.out ++ first)
    (hcount : t.count = wrap (s.count + first.length)) :
    Prints s (ch :: fmt) (first ++ text) rest := by
  obtain ⟨u, hu, hout', hap, hcount'⟩ := h
  refine ⟨u, hstep.andThen hu, ?_, hap, ?_⟩
  · rw [hout', hout, List.append_assoc]
  · rw [hcount', hcount, wrap_add_left, List.length_append, Nat.cast_add, add_assoc]

theorem Prints.nil (hap : s.ap = args) (hcount : wrap s.count = s.count) :
    Prints s [] [] args :=
  ⟨s, returns_const s, (List.append_nil s.out).symm, hap, by simpa using hcount.symm⟩

theorem Prints.percent (h : Prints {s with flag := .fmt} fmt text rest)
    (hflag : s.flag = .normal) : Prints s (ascii '%' :: fmt) text rest := by
  obtain ⟨u, hu, hout, hap, hcount⟩ := h
  have hstep : Returns (fun fuel => s.step fuel (ascii '%')) {s with flag := .fmt} :=
    ⟨0, fun fuel _ => step_normal hflag fuel (ascii '%')⟩
  exact ⟨u, hstep.andThen hu, hout, hap, hcount⟩

theorem Prints.literal (h : Prints (s.literal ch) fmt text rest) (hflag : s.flag = .normal)
    (hch : ch ≠ ascii '%') : Prints s (ch :: fmt) (ch :: text) rest := by
  have hstep : ∀ fuel, s.step fuel ch = some (s.literal ch) := by
    intro fuel
    rw [step_normal hflag, if_neg hch]
  have hout : (s.literal ch).out = s.out ++ [ch] := rfl
  exact h.step ⟨0, fun fuel _ => hstep fuel⟩ hout rfl

theorem Prints.percent_percent
    (h : Prints {s.literal (ascii '%') with flag := .normal} fmt text rest)
    (hflag : s.flag = .normal) :
    Prints s (ascii '%' :: ascii '%' :: fmt) (ascii '%' :: text) rest := by
  have hstep : ∀ fuel, State.step fuel {s with flag := .fmt} (ascii '%') =
      some {s.literal (ascii '%') with flag := .normal} := by
    intro fuel
    rw [step_fmt rfl, if_pos rfl]
    rfl
  have hsecond : Prints {s with flag := .fmt} (ascii '%' :: fmt) ([ascii '%'] ++ text) rest :=
    h.step ⟨0, fun fuel _ => hstep fuel⟩ rfl rfl
  exact hsecond.percent hflag

theorem Prints.skipped (h : Prints {s with flag := .normal} fmt text rest)
    (hflag : s.flag = .normal) (hcount : wrap s.count = s.count) (hch : ch ≠ ascii '%')
    (hconv : conversion ch = none) : Prints s (ascii '%' :: ch :: fmt) text rest := by
  have hstep : ∀ fuel, State.step fuel {s with flag := .fmt} ch =
      some {s with flag := .normal} := by
    intro fuel
    rw [step_fmt rfl, if_neg hch, convert_skipped hconv]
  have hsecond : Prints {s with flag := .fmt} (ch :: fmt) ([] ++ text) rest :=
    h.step ⟨0, fun fuel _ => hstep fuel⟩ (List.append_nil _).symm (by simpa using hcount.symm)
  exact hsecond.percent hflag

/-- Whatever the conversion leaves in the buffer, the rest of the format is printed. -/
theorem Prints.converted {first : List UInt8} (hflag : s.flag = .normal)
    (hlen : s.str.length = bufLen) (hap : s.ap = arg :: ap) (hch : ch ≠ ascii '%')
    (hconv : conversion ch = some conv) (hfirst : conv.text arg = some first)
    (h : ∀ str : List UInt8, str.length = bufLen →
      Prints ⟨.normal, ap, str, s.out ++ first, wrap (s.count + first.length)⟩ fmt text rest) :
    Prints s (ascii '%' :: ch :: fmt) (first ++ text) rest := by
  obtain ⟨str, hstr, hreturns⟩ :=
    convert_returns (s := {s with flag := .fmt}) hconv hap hfirst hlen
  have hstep : ∀ fuel, State.step fuel {s with flag := .fmt} ch =
      State.convert fuel {s with flag := .fmt} ch := by
    intro fuel
    rw [step_fmt rfl, if_neg hch]
  have hsecond : Prints {s with flag := .fmt} (ch :: fmt) (first ++ text) rest :=
    (h str hstr).step (by simpa only [hstep] using hreturns) rfl rfl
  exact hsecond.percent hflag

/-- The induction is on the format, two characters at a time where the first one is a `%`. -/
theorem expand_prints (h : expand fmt args = some (text, rest)) (hflag : s.flag = .normal)
    (hap : s.ap = args) (hlen : s.str.length = bufLen) (hcount : wrap s.count = s.count) :
    Prints s fmt text rest := by
  induction fmt, args using expand.induct generalizing s text rest with
  | case1 args =>
      cases h
      exact .nil hap hcount
  | case2 ch args =>
      by_cases hch : ch = ascii '%'
      · subst hch
        cases h
        have hnil : Prints {s with flag := .fmt} [] [] args := .nil hap hcount
        exact hnil.percent hflag
      · rw [expand, if_neg hch] at h
        cases h
        have hnil : Prints (s.literal ch) [] [] args := .nil hap (wrap_wrap _)
        exact hnil.literal hflag hch
  | case3 fmt args ih =>
      rw [expand.eq_def] at h
      simp only [if_pos] at h
      obtain ⟨tail, htail, rfl⟩ := prepend_eq_some h
      exact Prints.percent_percent (ih htail rfl hap hlen (wrap_wrap _)) hflag
  | case4 next fmt hnext args hconv ih =>
      rw [expand.eq_def] at h
      simp only [if_pos, if_neg hnext, hconv] at h
      exact Prints.skipped (ih h rfl hap hlen hcount) hflag hcount hnext hconv
  | case5 next fmt hnext conv hconv =>
      rw [expand.eq_def] at h
      simp only [if_pos, if_neg hnext, hconv] at h
      cases h
  | case6 next fmt hnext conv arg args hconv ih =>
      rw [expand.eq_def] at h
      simp only [if_pos, if_neg hnext, hconv] at h
      obtain ⟨first, hfirst, h⟩ := Option.bind_eq_some_iff.mp h
      obtain ⟨tail, htail, rfl⟩ := prepend_eq_some h
      exact Prints.converted hflag hlen hap hnext hconv hfirst
        fun str hstr => ih htail rfl rfl hstr (wrap_wrap _)
  | case7 ch next fmt args hch ih =>
      rw [expand.eq_def] at h
      simp only [if_neg hch] at h
      obtain ⟨tail, htail, rfl⟩ := prepend_eq_some h
      have hrest : Prints (s.literal ch) (next :: fmt) tail rest :=
        ih htail hflag hap hlen (wrap_wrap _)
      exact hrest.literal hflag hch

/-- `printk` prints the expansion, and uses the arguments that the expansion uses. Its result is
the number of characters, brought into the range of `int`. -/
theorem printk_expands (str : List UInt8) (hlen : str.length = bufLen) (fmt : CString)
    (args : List Arg) (text : List UInt8) (rest : List Arg)
    (h : expand fmt.bytes args = some (text, rest)) :
    ∃ s : State, Returns (fun fuel => printk fuel str fmt args) s ∧
      s.out = text ∧ s.ap = rest ∧ s.count = wrap text.length := by
  obtain ⟨s, hreturns, hout, hap, hcount⟩ :=
    expand_prints (s := ⟨.normal, args, str, [], 0⟩) h rfl rfl hlen rfl
  exact ⟨s, hreturns, hout, hap, by simpa using hcount⟩

def numberFmt : CString := ⟨[ascii '%', ascii 'd', ascii '%', ascii '%'], by decide⟩

theorem printk_expands_minusOne :
    ∃ s : State, Returns (fun fuel => printk fuel (List.replicate bufLen 0) numberFmt
        [.int 0xffffffff]) s ∧
      s.out = [ascii '-', ascii '1', ascii '%'] ∧ s.ap = [] ∧ s.count = 3 := by
  have hexpand : expand numberFmt.bytes [.int 0xffffffff] =
      some ([ascii '-', ascii '1', ascii '%'], []) := by decide
  obtain ⟨s, hreturns, hout, hap, hcount⟩ :=
    printk_expands (List.replicate bufLen 0) rfl numberFmt [.int 0xffffffff] _ _ hexpand
  exact ⟨s, hreturns, hout, hap, hcount.trans (by decide)⟩

def fourStrings : CString :=
  ⟨[ascii '%', ascii 's', ascii '%', ascii 's', ascii '%', ascii 's', ascii '%', ascii 's'],
    by decide⟩

theorem fourStrings_prints (s : CString) :
    ∃ t : State, Returns (fun fuel => printk fuel (List.replicate bufLen 0) fourStrings
        [.str s, .str s, .str s, .str s]) t ∧
      t.out.length = 4 * s.strlen ∧ t.count = wrap (4 * s.strlen : ℕ) := by
  have hexpand : expand fourStrings.bytes [.str s, .str s, .str s, .str s] =
      some (s.bytes ++ (s.bytes ++ (s.bytes ++ (s.bytes ++ []))), []) := rfl
  obtain ⟨t, hreturns, hout, -, hcount⟩ :=
    expand_prints (s := ⟨.normal, [.str s, .str s, .str s, .str s],
      List.replicate bufLen 0, [], 0⟩) hexpand rfl rfl rfl rfl
  have hlength : (s.bytes ++ (s.bytes ++ (s.bytes ++ (s.bytes ++ [])))).length =
      4 * s.strlen := by
    simp only [List.length_append, List.length_nil, CString.strlen]
    omega
  refine ⟨t, hreturns, ?_, ?_⟩
  · rw [hout, List.nil_append, hlength]
  · rw [hcount, hlength, zero_add]

/-- A string of half a gigabyte. -/
def long : CString :=
  ⟨List.replicate 536870912 (ascii 'a'), fun h => absurd (List.eq_of_mem_replicate h) (by decide)⟩

theorem long_strlen : long.strlen = 536870912 := by
  unfold CString.strlen long
  exact List.length_replicate

/-- The count overflows where the expansion has 2 ^ 31 characters. -/
theorem count_overflows :
    ∃ s : State, Returns (fun fuel => printk fuel (List.replicate bufLen 0) fourStrings
        [.str long, .str long, .str long, .str long]) s ∧
      s.out.length = 2147483648 ∧ s.count = -2147483648 := by
  obtain ⟨s, hreturns, hlength, hcount⟩ := fourStrings_prints long
  rw [long_strlen] at hlength hcount
  have hwrap : wrap (4 * 536870912 : ℕ) = -2147483648 := by decide
  exact ⟨s, hreturns, hlength, hcount.trans hwrap⟩

end EmbeddedCode.Printk
