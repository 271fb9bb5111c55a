import EmbeddedCode.Conversion.Printf

/-!
# `m_sprintf`

`m_sprintf` of `c_zy/1122_4.c` has the loop of `m_printf`, but each part goes to the array by other
string functions. Its `itoa` writes no NUL behind the digits, a `%%` copies the rest of the format,
and behind the last part no NUL is written.
-/
namespace EmbeddedCode.Conversion

open CInt Loop Printk

namespace Sprintf

/-- The NUL behind the digits is commented out. -/
def itoa (fuel : ℕ) (s : Cells) (n : Word) : Option (Cells × ℕ) :=
  itoaWith (fun s _ => some s) fuel s n

structure State where
  ap : List Arg
  /-- The cells in front of `arr`. -/
  front : Cells
  /-- The cells from `arr` on. -/
  arr : Cells
  count : ℤ

namespace State

/-- The pointer and the count go on by `d` characters. -/
def advance (st : State) (ap : List Arg) (arr : Cells) (d : ℕ) : State :=
  ⟨ap, st.front ++ arr.take d, arr.drop d, wrap (st.count + d)⟩

/-- The `switch` over the character behind a `%`, with the bytes behind it. -/
def convert (fuel : ℕ) (st : State) (ch : UInt8) (fmt : List UInt8) : Option State :=
  if ch = ascii 'd' then
    match st.ap with
    | .int n :: ap => (itoa fuel st.arr n).map fun r => st.advance ap r.1 r.2
    | _ => none
  else if ch = ascii 'c' then
    match st.ap with
    | .int n :: ap => (put st.arr 0 (UInt8.ofInt n.toInt)).map fun arr => st.advance ap arr 1
    | _ => none
  else if ch = ascii 's' then
    match st.ap with
    | .str str :: ap =>
        (strcpy st.arr (str.bytes ++ [0])).map fun arr => st.advance ap arr str.strlen
    | _ => none
  else if ch = ascii '%' then
    (strcpy st.arr (ch :: fmt)).map fun arr => st.advance st.ap arr 1
  else (strcpy st.arr [ascii '%', 0]).map fun arr => st.advance st.ap arr 1

def loop (fuel : ℕ) : List UInt8 → State → Option State
  | [], _ => none
  | ch :: fmt, st =>
      if ch = 0 then some st
      else if ch = ascii '%' then
        match fmt with
        | [] => none
        | conv :: fmt => (st.convert fuel conv fmt).bind (loop fuel fmt)
      else (put st.arr 0 ch).bind fun arr => loop fuel fmt (st.advance st.ap arr 1)

end State

end Sprintf

/-- The state at the end, with the array and the result `count`. -/
def mSprintf (fuel : ℕ) (arr : Cells) (fmt : CString) (args : List Arg) : Option Sprintf.State :=
  Sprintf.State.loop fuel (fmt.bytes ++ [0]) ⟨args, [], arr, 0⟩

/-! ## What lies behind a part -/

/-- The bytes behind the digits of a number, up to the next NUL. -/
def stale (r : List UInt8) (n : Word) : List UInt8 := beforeZero (r.drop ((digits n).length + 1))

namespace Piece

/-- What the array holds behind a part, when it held `r` from the place of the part on. -/
def behind (r : List UInt8) : Piece → List UInt8
  | .lit _ | .chr _ => r.drop 1
  | .dec n =>
      ((stale r n).reverse ++ digits n).drop (digits n).length ++
        fromZero (r.drop ((digits n).length + 1))
  | .str s => 0 :: r.drop (s.strlen + 1)
  | .percent fmt => fmt.drop 1 ++ 0 :: r.drop (fmt.length + 1)
  | .other _ | .lone => 0 :: r.drop 2

/-- The digits of a number are turned around with the bytes behind them, and come first even so. -/
def Clean (r : List UInt8) : Piece → Prop
  | .dec n => 0 ∈ r.drop ((digits n).length + 1) ∧ digits n <+: (stale r n).reverse ++ digits n
  | _ => True

instance (r : List UInt8) : DecidablePred (Clean r)
  | .dec _ => inferInstanceAs (Decidable (_ ∧ _))
  | .lit _ | .chr _ | .str _ | .percent _ | .other _ | .lone => isTrue trivial

/-- The number of cells that a part writes to, but for a number. -/
def room : Piece → ℕ
  | .lit _ | .chr _ => 1
  | .dec n => (digits n).length + 1
  | .str s => s.strlen + 1
  | .percent fmt => fmt.length + 1
  | .other _ | .lone => 2

end Piece

/-- No number is spoilt by what lies behind it, and at the end there is a NUL. -/
def Clean : List UInt8 → List Piece → Prop
  | r, [] => r.head? = some 0
  | r, p :: ps => p.Clean r ∧ Clean (p.behind r) ps

instance decidableClean : (r : List UInt8) → (ps : List Piece) → Decidable (Clean r ps)
  | _, [] => inferInstanceAs (Decidable (_ = _))
  | r, p :: ps =>
      have := decidableClean (p.behind r) ps
      inferInstanceAs (Decidable (_ ∧ _))

section
variable {r m : List UInt8} {n : Word}

theorem strcpy_eq (hm : 0 ∉ m) (hlen : m.length < r.length) :
    strcpy (r.map some) (m ++ [0]) = some ((m ++ 0 :: r.drop (m.length + 1)).map some) := by
  induction m generalizing r with
  | nil =>
      cases r with
      | nil => cases hlen
      | cons x r => rfl
  | cons ch m ih =>
      rw [List.mem_cons, not_or] at hm
      cases r with
      | nil => cases hlen
      | cons x r =>
          rw [List.cons_append, List.map_cons, strcpy, if_neg (Ne.symm hm.1),
            ih hm.2 (Nat.lt_of_succ_lt_succ hlen)]
          rfl

theorem stale_no_nul (r : List UInt8) (n : Word) : 0 ∉ stale r n := beforeZero_no_nul _

/-- The bytes behind the digits are turned around with them. -/
theorem sprintf_itoa (hnul : 0 ∈ r.drop ((digits n).length + 1)) (hn : n.toInt < 0) :
    Returns (fun fuel => Sprintf.itoa fuel (r.map some) n)
      ((minus n ++ ((stale r n).reverse ++ digits n) ++
        fromZero (r.drop ((digits n).length + 1))).map some, (image n).length) := by
  obtain ⟨x, B, rfl⟩ : ∃ x B, r = x :: B := by
    cases r with
    | nil => simp at hnul
    | cons x B => exact ⟨x, B, rfl⟩
  rw [List.drop_succ_cons] at hnul
  obtain ⟨C, hC⟩ := fromZero_eq hnul
  have hB : B.drop (digits n).length = stale (x :: B) n ++ 0 :: C := by
    rw [stale, List.drop_succ_cons, ← hC]
    exact (beforeZero_append _).symm
  have hlen : (digits n).length ≤ B.length := by
    have hpos := List.length_pos_of_mem hnul
    rw [List.length_drop] at hpos
    omega
  obtain ⟨a, m, ham⟩ : ∃ a m, (digits n).reverse = a :: m :=
    List.exists_cons_of_ne_nil (mt List.reverse_eq_nil_iff.mp (digits_ne_nil hn.ne))
  have hmem : 0 ∉ a :: m := by
    rw [← ham, List.mem_reverse]
    exact digits_no_nul n
  have hturned : (a :: (m ++ stale (x :: B) n)).reverse =
      (stale (x :: B) n).reverse ++ digits n := by
    rw [← List.cons_append, ← ham, List.reverse_append, List.reverse_reverse]
  rw [List.drop_succ_cons, hC]
  refine (itoaWith_returns_iff (a := a) (m := m ++ stale (x :: B) n) (C := C.map some) ?_ ?_ ?_
    _).mpr ?_
  · rwa [List.length_map]
  · rw [← List.map_drop, hB, ham]
    simp
  · rw [List.mem_append, not_or]
    exact ⟨List.not_mem_of_not_mem_cons hmem, stale_no_nul _ _⟩
  · rw [hturned, move_neg hn, ending, if_pos hn]
    simp

/-- Without a NUL behind the digits the search for their end leaves the array. -/
theorem nul_of_itoa {fuel : ℕ} {result : Cells × ℕ} (hlen : (digits n).length < r.length)
    (h : Sprintf.itoa fuel (r.map some) n = some result) :
    0 ∈ r.drop ((digits n).length + 1) := by
  obtain ⟨x, B, rfl⟩ : ∃ x B, r = x :: B := List.exists_cons_of_length_pos (by omega)
  have hmarks : marks (factor n) n.toInt.natAbs = (digits n).reverse := by
    rw [digits, List.reverse_reverse]
  have hput : put ((x :: B).map some) 0 (if n.toInt < 0 then ascii '-' else ascii ' ') =
      some (signCell n :: B.map some) := put_mid (A := []) (some x) _
  have hdigits := digits_returns (factor_or n) (k := n.toInt.natAbs) (A := [signCell n])
    (B := B.map some) (c := if n.toInt < 0 then 1 else 0) (by
      rw [hmarks, List.length_reverse, List.length_map]
      exact Nat.lt_succ_iff.mp hlen)
  rw [hmarks, List.length_reverse, List.singleton_append, List.singleton_append] at hdigits
  simp only [Sprintf.itoa, itoaWith, hput, Option.bind_some, magnitude_eq] at h
  obtain ⟨ended, hrun, h⟩ := Option.bind_eq_some_iff.mp h
  obtain ⟨turned, hreverse, -⟩ := Option.bind_eq_some_iff.mp h
  obtain ⟨tail, htail, -⟩ := Option.bind_eq_some_iff.mp hreverse
  have hstop := Reverse.tail_stops htail
  rw [(run_returns hrun).unique hdigits, List.getElem?_cons_succ, ← List.map_drop,
    ← List.map_append, List.getElem?_map] at hstop
  obtain ⟨cell, hcell, hzero⟩ := Option.bind_eq_some_iff.mp hstop
  obtain ⟨ch, hch, rfl⟩ := Option.map_eq_some_iff.mp hcell
  obtain rfl : ch = 0 := Option.some.inj hzero
  have hmem := List.mem_of_getElem? hch
  rw [List.drop_succ_cons]
  refine (List.mem_append.mp hmem).resolve_left fun hdigit => ?_
  exact digits_no_nul n (List.mem_reverse.mp hdigit)

end

section
variable {r text rest : List UInt8} {p : Piece} {st : Sprintf.State} {ch : UInt8} {fmt : List UInt8}
variable {ap : List Arg}

theorem behind_length (hnum : ∀ n, p = .dec n → n.toInt < 0) (hroom : p.room ≤ r.length) :
    r.length ≤ (p.behind r).length + p.text.length := by
  cases p with
  | dec n =>
      have hsplit := congrArg List.length (beforeZero_append (r.drop ((digits n).length + 1)))
      have hlen := image_length n
      rw [if_pos (hnum n rfl)] at hlen
      rw [List.length_append, List.length_drop] at hsplit
      simp only [Piece.behind, Piece.text, stale, List.length_append, List.length_drop,
        List.length_reverse, Piece.room] at hroom ⊢
      omega
  | str s =>
      simp only [Piece.behind, Piece.text, CString.strlen, List.length_cons, List.length_drop,
        Piece.room] at hroom ⊢
      omega
  | _ =>
      simp only [Piece.behind, Piece.text, List.length_append, List.length_cons, List.length_nil,
        List.length_drop, Piece.room] at hroom ⊢
      omega

theorem advance_eq (st : Sprintf.State) (ap : List Arg) (text rest : List UInt8) :
    st.advance ap ((text ++ rest).map some) text.length =
      ⟨ap, st.front ++ text.map some, rest.map some, wrap (st.count + text.length)⟩ := by
  rw [Sprintf.State.advance, List.map_append, List.take_left' (List.length_map some),
    List.drop_left' (List.length_map some)]

theorem behind_clean {n : Word} (hclean : (Piece.dec n).Clean r) :
    minus n ++ ((stale r n).reverse ++ digits n) ++ fromZero (r.drop ((digits n).length + 1)) =
      image n ++ (Piece.dec n).behind r := by
  nth_rewrite 1 [← List.prefix_iff_eq_append.mp hclean.2]
  simp only [Piece.behind, image, List.append_assoc]

/-- A conversion that nothing spoils puts its text in the array. -/
theorem sprintf_convert_returns (hs : st.arr = r.map some) (hnul : 0 ∉ ch :: fmt)
    (hp : Piece.conversion ch fmt st.ap = some (p, ap)) (hnum : ∀ n, p = .dec n → n.toInt < 0)
    (hclean : p.Clean r) (hroom : p.room ≤ r.length) :
    Returns (fun fuel => st.convert fuel ch (fmt ++ [0])) ⟨ap, st.front ++ p.text.map some,
      (p.behind r).map some, wrap (st.count + p.text.length)⟩ := by
  rcases conversion_cases hp with ⟨n, rfl, hap, rfl⟩ | ⟨n, rfl, hap, rfl⟩ | ⟨str, rfl, hap, rfl⟩ |
    ⟨rfl, hap, rfl⟩ | ⟨⟨hd, hc, hstr, hpercent⟩, hap, rfl⟩
  · have hn := hnum n rfl
    have hitoa := sprintf_itoa hclean.1 hn
    rw [behind_clean hclean] at hitoa
    simp only [Sprintf.State.convert, if_true, hap, hs, Option.map_eq_bind]
    refine hitoa.bind ?_
    exact congrArg some (advance_eq st ap (image n) _)
  · have hd : ascii 'c' ≠ ascii 'd' := by decide
    obtain ⟨x, B, rfl⟩ : ∃ x B, r = x :: B := List.exists_cons_of_length_pos hroom
    have hput : put ((x :: B).map some) 0 (UInt8.ofInt n.toInt) =
        some (([UInt8.ofInt n.toInt] ++ B).map some) := put_mid (A := []) (some x) _
    simp only [Sprintf.State.convert, if_true, if_neg hd, hap, hs, hput]
    rw [Option.map_some]
    exact (advance_eq st ap [UInt8.ofInt n.toInt] B) ▸ returns_const _
  · have hd : ascii 's' ≠ ascii 'd' := by decide
    have hc : ascii 's' ≠ ascii 'c' := by decide
    have hcopy := strcpy_eq str.noNul hroom
    simp only [Sprintf.State.convert, if_true, if_neg hd, if_neg hc, hap, hs, hcopy]
    rw [Option.map_some]
    exact (advance_eq st ap str.bytes _) ▸ returns_const _
  · have hd : ascii '%' ≠ ascii 'd' := by decide
    have hc : ascii '%' ≠ ascii 'c' := by decide
    have hstr : ascii '%' ≠ ascii 's' := by decide
    have hcopy := strcpy_eq hnul hroom
    rw [List.cons_append] at hcopy
    simp only [Sprintf.State.convert, if_true, if_neg hd, if_neg hc, if_neg hstr, ← hap, hs, hcopy]
    rw [Option.map_some]
    exact (advance_eq st st.ap [ascii '%'] _) ▸ returns_const _
  · have hcopy := strcpy_eq (m := [ascii '%']) (by decide) hroom
    rw [List.singleton_append] at hcopy
    simp only [Sprintf.State.convert, if_neg hd, if_neg hc, if_neg hstr, if_neg hpercent, ← hap, hs,
      hcopy]
    rw [Option.map_some]
    exact (advance_eq st st.ap [ascii '%'] _) ▸ returns_const _

end

/-! ## The whole format -/

namespace Sprintf

variable {st t : State} {ch : UInt8} {fmt : List UInt8} {fuel : ℕ}

theorem loop_nul (fuel : ℕ) (st : State) : State.loop fuel [0] st = some st := by
  rw [State.loop.eq_def]
  rfl

theorem loop_percent (fuel : ℕ) (conv : UInt8) (fmt : List UInt8) (st : State) :
    State.loop fuel (ascii '%' :: conv :: fmt) st =
      (st.convert fuel conv fmt).bind (State.loop fuel fmt) := by
  rw [State.loop.eq_def]
  rfl

theorem loop_lit (hnul : ch ≠ 0) (hch : ch ≠ ascii '%') (fuel : ℕ) (fmt : List UInt8) (st : State) :
    State.loop fuel (ch :: fmt) st =
      (put st.arr 0 ch).bind fun arr => State.loop fuel fmt (st.advance st.ap arr 1) := by
  rw [State.loop.eq_def]
  simp only [if_neg hnul, if_neg hch]

theorem advance_front (st : State) (ap : List Arg) (arr : Cells) (d : ℕ) :
    st.front <+: (st.advance ap arr d).front := List.prefix_append _ _

theorem convert_front (h : st.convert fuel ch fmt = some t) : st.front <+: t.front := by
  unfold State.convert at h
  split_ifs at h
  · split at h
    · obtain ⟨r, -, rfl⟩ := Option.map_eq_some_iff.mp h
      exact advance_front ..
    · cases h
  · split at h
    · obtain ⟨arr, -, rfl⟩ := Option.map_eq_some_iff.mp h
      exact advance_front ..
    · cases h
  · split at h
    · obtain ⟨arr, -, rfl⟩ := Option.map_eq_some_iff.mp h
      exact advance_front ..
    · cases h
  · obtain ⟨arr, -, rfl⟩ := Option.map_eq_some_iff.mp h
    exact advance_front ..
  · obtain ⟨arr, -, rfl⟩ := Option.map_eq_some_iff.mp h
    exact advance_front ..

theorem loop_front (h : State.loop fuel fmt st = some t) : st.front <+: t.front := by
  induction fmt using fmt_induction generalizing st with
  | nil =>
      rw [State.loop.eq_def] at h
      cases h
  | lone =>
      rw [State.loop.eq_def] at h
      cases h
  | conversion conv fmt ih =>
      rw [loop_percent] at h
      obtain ⟨st', hconvert, hrest⟩ := Option.bind_eq_some_iff.mp h
      exact (convert_front hconvert).trans (ih hrest)
  | lit ch fmt hch ih =>
      by_cases hnul : ch = 0
      · subst hnul
        rw [State.loop.eq_def] at h
        cases h
        exact List.prefix_rfl
      · rw [loop_lit hnul hch] at h
        obtain ⟨arr, -, hrest⟩ := Option.bind_eq_some_iff.mp h
        exact (advance_front ..).trans (ih hrest)

/-- What the loop does from the state `st` on: it leaves `text` and a NUL at the pointer, and adds
the length of `text` to the count. -/
def Stores (st : State) (fmt text : List UInt8) : Prop :=
  ∃ t, Returns (fun fuel => State.loop fuel (fmt ++ [0]) st) t ∧
    st.front ++ (text ++ [0]).map some <+: t.front ++ t.arr ∧
    t.count = wrap (st.count + text.length)

theorem stores_nul {r : List UInt8} (hs : st.arr = r.map some) (hcount : wrap st.count = st.count) :
    Stores st [] [] ↔ r.head? = some 0 := by
  have hprefix : st.front ++ (([] : List UInt8) ++ [0]).map some <+: st.front ++ st.arr ↔
      r.head? = some 0 := by
    rw [hs, List.prefix_append_right_inj]
    cases r <;> simp [eq_comm]
  constructor
  · rintro ⟨t, ⟨n, hn⟩, hstored, -⟩
    obtain rfl : st = t := Option.some.inj ((loop_nul n st).symm.trans (hn n (Nat.le_refl n)))
    exact hprefix.mp hstored
  · intro hend
    exact ⟨st, ⟨0, fun fuel _ => loop_nul fuel st⟩, hprefix.mpr hend, by simpa using hcount.symm⟩

theorem stores_step {st' : State} {fmt' text text' : List UInt8}
    (hloop : ∀ t, Returns (fun fuel => State.loop fuel (fmt ++ [0]) st) t ↔
      Returns (fun fuel => State.loop fuel (fmt' ++ [0]) st') t)
    (hfront : st'.front = st.front ++ text.map some)
    (hcount : st'.count = wrap (st.count + text.length)) :
    Stores st fmt (text ++ text') ↔ Stores st' fmt' text' := by
  refine exists_congr fun t => and_congr (hloop t) (and_congr ?_ ?_)
  · rw [hfront, List.append_assoc, List.append_assoc, List.map_append]
  · rw [hcount, wrap_add_left, List.length_append, Nat.cast_add, add_assoc]

theorem stores_conversion {st' : State} {text text' : List UInt8}
    (hconvert : Returns (fun fuel => st.convert fuel ch (fmt ++ [0])) st')
    (hfront : st'.front = st.front ++ text.map some)
    (hcount : st'.count = wrap (st.count + text.length)) :
    Stores st (ascii '%' :: ch :: fmt) (text ++ text') ↔ Stores st' fmt text' := by
  refine stores_step (fun t => ?_) hfront hcount
  simp only [List.cons_append, loop_percent]
  exact ⟨hconvert.of_andThen, hconvert.andThen⟩

theorem stores_lit {r text : List UInt8} {x : UInt8} (hs : st.arr = (x :: r).map some)
    (hnul : ch ≠ 0) (hch : ch ≠ ascii '%') :
    Stores st (ch :: fmt) ([ch] ++ text) ↔
      Stores (st.advance st.ap (([ch] ++ r).map some) 1) fmt text := by
  have hput : put ((x :: r).map some) 0 ch = some (([ch] ++ r).map some) :=
    put_mid (A := []) (some x) _
  refine stores_step (fun t => ?_) rfl rfl
  simp only [List.cons_append, loop_lit hnul hch, hs, hput, Option.bind_some]

theorem eq_of_prefix {α : Type*} {A L M X : List α} (hL : A ++ L <+: X) (hM : A ++ M <+: X)
    (hlen : L.length = M.length) : L = M := by
  have hlength : (A ++ L).length = (A ++ M).length := by
    rw [List.length_append, List.length_append, hlen]
  exact List.append_cancel_left
    ((List.prefix_of_prefix_length_le hL hM (Nat.le_of_eq hlength)).eq_of_length hlength)

theorem digits_prefix {n : Word} {S E : List UInt8}
    (h : image n = (minus n ++ (S ++ digits n) ++ E).take (image n).length) :
    digits n <+: S ++ digits n := by
  rw [image, List.length_append, List.append_assoc, List.take_length_add_append] at h
  have hdigits := List.append_cancel_left h
  rw [List.take_append_of_le_length (by simp)] at hdigits
  exact List.prefix_iff_eq_take.mpr hdigits

/-- A number that is not clean does not get into the array. -/
theorem not_stores_of_spoilt {r text : List UInt8} {ap : List Arg} {n : Word}
    (hs : st.arr = r.map some) (hap : st.ap = .int n :: ap) (hn : n.toInt < 0)
    (hroom : (Piece.dec n).room ≤ r.length) (hspoilt : ¬ (Piece.dec n).Clean r) :
    ¬ Stores st (ascii '%' :: ascii 'd' :: fmt) (image n ++ text) := by
  have hconvert : ∀ fuel, st.convert fuel (ascii 'd') (fmt ++ [0]) =
      (itoa fuel (r.map some) n).map fun result => st.advance ap result.1 result.2 := by
    intro fuel
    simp only [State.convert, if_true, hap, hs]
  rintro ⟨t, ht, hstored, -⟩
  simp only [List.cons_append, loop_percent, hconvert] at ht
  by_cases hnul : 0 ∈ r.drop ((digits n).length + 1)
  · have hitoa := sprintf_itoa hnul hn
    simp only [Option.map_eq_bind, Option.bind_assoc] at ht
    obtain ⟨fuel, hrest⟩ := hitoa.of_andThen ht
    have hfront := (loop_front (hrest fuel (Nat.le_refl fuel))).trans (List.prefix_append _ t.arr)
    have himage : st.front ++ (image n).map some <+: t.front ++ t.arr := by
      refine List.IsPrefix.trans ?_ hstored
      rw [List.prefix_append_right_inj, List.map_append, List.map_append, List.append_assoc]
      exact List.prefix_append _ _
    have hcells := eq_of_prefix hfront himage (by
      simp only [List.length_take, List.length_map, List.length_append, image]
      omega)
    have hwritten := List.map_injective_iff.mpr (Option.some_injective UInt8)
      (List.map_take.trans hcells)
    exact hspoilt ⟨hnul, digits_prefix hwritten.symm⟩
  · obtain ⟨fuel, hfuel⟩ := ht
    obtain ⟨st', hst', -⟩ := Option.bind_eq_some_iff.mp (hfuel fuel (Nat.le_refl fuel))
    obtain ⟨result, hresult, -⟩ := Option.map_eq_some_iff.mp hst'
    exact hnul (nul_of_itoa hroom hresult)

theorem room_le {p : Piece} {args ap : List Arg}
    (hp : Piece.conversion ch fmt args = some (p, ap)) :
    p.room ≤ p.text.length + fmt.length + 2 := by
  rcases conversion_cases hp with ⟨n, -, -, rfl⟩ | ⟨n, -, -, rfl⟩ | ⟨s, -, -, rfl⟩ |
    ⟨-, -, rfl⟩ | ⟨-, -, rfl⟩
  · have hlen := image_length n
    simp only [Piece.room, Piece.text]
    omega
  all_goals
    simp only [Piece.room, Piece.text, CString.strlen, List.length_cons, List.length_nil]
    omega

theorem conversion_of_spoilt {r : List UInt8} {p : Piece} {args ap : List Arg}
    (hp : Piece.conversion ch fmt args = some (p, ap)) (hspoilt : ¬ p.Clean r) :
    ∃ n, ch = ascii 'd' ∧ args = .int n :: ap ∧ p = .dec n := by
  rcases conversion_cases hp with hdec | ⟨n, -, -, rfl⟩ | ⟨s, -, -, rfl⟩ | ⟨-, -, rfl⟩ | ⟨-, -, rfl⟩
  · exact hdec
  all_goals exact absurd trivial hspoilt

/-- The loop puts the text of the format in the array when what lies behind the parts lets it. -/
theorem stores_iff (st : State) {r : List UInt8} {ps : List Piece} (hnul : 0 ∉ fmt)
    (hps : pieces fmt st.ap = some ps) (hlone : Piece.lone ∉ ps)
    (hnum : ∀ n, Piece.dec n ∈ ps → n.toInt < 0) (hs : st.arr = r.map some)
    (hroom : (expansion ps).length + fmt.length < r.length) (hcount : wrap st.count = st.count) :
    Stores st fmt (expansion ps) ↔ Clean r ps := by
  induction fmt using fmt_induction generalizing st r ps with
  | nil =>
      obtain rfl := pieces_nil hps
      exact stores_nul hs hcount
  | lone =>
      rw [pieces_lone hps] at hlone
      exact absurd (List.mem_singleton_self _) hlone
  | conversion conv fmt ih =>
      obtain ⟨p, ap, ps, hp, hps', rfl⟩ := pieces_conversion hps
      rw [List.mem_cons, not_or] at hnul hlone
      rw [expansion_cons, List.length_append, List.length_cons, List.length_cons] at hroom
      have hpart := room_le hp
      have hfits : p.room ≤ r.length := by omega
      have hnum' : ∀ n, p = .dec n → n.toInt < 0 := fun n hn =>
        hnum n (List.mem_cons.mpr (.inl hn.symm))
      by_cases hclean : p.Clean r
      · have hconvert := sprintf_convert_returns hs hnul.2 hp hnum' hclean hfits
        have hlength := behind_length hnum' hfits
        have hrest := ih ⟨ap, st.front ++ p.text.map some, (p.behind r).map some,
          wrap (st.count + p.text.length)⟩ (r := p.behind r) (mt (List.mem_cons_of_mem conv) hnul.2)
          hps' hlone.2 (fun n hn => hnum n (List.mem_cons_of_mem p hn)) rfl (by omega) (wrap_wrap _)
        rw [expansion_cons, Clean, and_iff_right hclean]
        exact (stores_conversion hconvert rfl rfl).trans hrest
      · obtain ⟨n, rfl, hap, rfl⟩ := conversion_of_spoilt hp hclean
        have hn := hnum' n rfl
        refine iff_of_false ?_ fun h => hclean h.1
        rw [expansion_cons, Piece.text]
        exact not_stores_of_spoilt hs hap hn hfits hclean
  | lit ch fmt hch ih =>
      obtain ⟨ps, hps', rfl⟩ := pieces_lit hch hps
      rw [List.mem_cons, not_or] at hnul hlone
      rw [expansion_cons, List.length_append, List.length_cons] at hroom
      obtain ⟨x, B, rfl⟩ : ∃ x B, r = x :: B := List.exists_cons_of_length_pos (by omega)
      have hrest := ih (st.advance st.ap (([ch] ++ B).map some) 1) (r := B) hnul.2 hps' hlone.2
        (fun n hn => hnum n (List.mem_cons_of_mem _ hn)) rfl
        (by simp only [Piece.text, List.length_cons, List.length_nil] at hroom; omega) (wrap_wrap _)
      rw [expansion_cons, Clean, and_iff_right (by trivial)]
      exact (stores_lit hs (Ne.symm hnul.1) hch).trans hrest

end Sprintf

theorem room_le_text {p : Piece} (hpercent : ∀ fmt, p ≠ .percent fmt) :
    p.room ≤ p.text.length + 1 := by
  cases p with
  | dec n =>
      have hlen := image_length n
      simp only [Piece.room, Piece.text]
      omega
  | percent fmt => exact absurd rfl (hpercent fmt)
  | _ => simp [Piece.room, Piece.text, CString.strlen]

/-- An array of zeros stays clean behind every part but a `%%`. -/
theorem behind_zeros {r : List UInt8} {p : Piece} (hzero : ∀ ch ∈ r, ch = 0)
    (hpercent : ∀ fmt, p ≠ .percent fmt) (hroom : p.text.length + 1 < r.length) :
    p.Clean r ∧ ∀ ch ∈ p.behind r, ch = 0 := by
  cases p with
  | dec n =>
      have hlen := image_length n
      obtain ⟨ch, C, hC⟩ : ∃ ch C, r.drop ((digits n).length + 1) = ch :: C :=
        List.exists_cons_of_length_pos (by
          rw [Piece.text] at hroom
          rw [List.length_drop]
          omega)
      have hrest : ∀ c ∈ ch :: C, c = 0 := fun c hc => hzero c (List.mem_of_mem_drop (hC ▸ hc))
      obtain rfl : ch = 0 := hrest ch List.mem_cons_self
      have hstale : stale r n = [] := by
        rw [stale, hC]
        rfl
      have hfrom : fromZero (0 :: C) = 0 :: C := rfl
      have hbehind : (Piece.dec n).behind r = 0 :: C := by
        rw [Piece.behind, hstale, hC, hfrom, List.reverse_nil, List.nil_append, List.drop_length]
        rfl
      refine ⟨⟨by rw [hC]; exact List.mem_cons_self, ?_⟩, fun c hc => ?_⟩
      · rw [hstale]
        exact List.prefix_rfl
      · rw [hbehind] at hc
        exact hrest c hc
  | percent fmt => exact absurd rfl (hpercent fmt)
  | lit ch => exact ⟨trivial, fun ch hch => hzero ch (List.mem_of_mem_drop hch)⟩
  | chr n => exact ⟨trivial, fun ch hch => hzero ch (List.mem_of_mem_drop hch)⟩
  | _ =>
      refine ⟨trivial, fun ch hch => ?_⟩
      rcases List.mem_cons.mp hch with hch | hch
      · exact hch
      · exact hzero ch (List.mem_of_mem_drop hch)

/-- Without a `%%` nothing is left in an array of zeros that could spoil a number. -/
theorem clean_of_zeros {r : List UInt8} {ps : List Piece} (hzero : ∀ ch ∈ r, ch = 0)
    (hpercent : ∀ fmt, Piece.percent fmt ∉ ps) (hnum : ∀ n, Piece.dec n ∈ ps → n.toInt < 0)
    (hroom : (expansion ps).length + 1 < r.length) : Clean r ps := by
  induction ps generalizing r with
  | nil =>
      cases r with
      | nil => cases hroom
      | cons ch r => exact congrArg some (hzero ch List.mem_cons_self)
  | cons p ps ih =>
      rw [expansion_cons, List.length_append] at hroom
      obtain ⟨hclean, hbehind⟩ := behind_zeros hzero
        (fun fmt hp => hpercent fmt (hp ▸ List.mem_cons_self)) (by omega)
      have hlength := behind_length (r := r) (fun n hp => hnum n (hp ▸ List.mem_cons_self))
        ((room_le_text fun fmt hp => hpercent fmt (hp ▸ List.mem_cons_self)).trans (by omega))
      exact ⟨hclean, ih hbehind (fun fmt hfmt => hpercent fmt (List.mem_cons_of_mem p hfmt))
        (fun n hn => hnum n (List.mem_cons_of_mem p hn)) (by omega)⟩

/-- Behind a `%%` the end of the format spoils a number also there. -/
example : ¬ Clean (List.replicate 10 0)
    [.percent ("%%dx".toList.map ascii), .dec (-7), .lit (ascii 'x')] := by
  decide

/-- `m_sprintf` leaves in the array what `m_printf` writes, with a NUL behind it, and both return
the number of its characters. -/
def Agrees (arr : List UInt8) (fmt : CString) (args : List Arg) : Prop :=
  ∃ t st, Returns (fun fuel => mPrintf fuel fmt args) t ∧
    Returns (fun fuel => mSprintf fuel (arr.map some) fmt args) st ∧
    (t.out ++ [0]).map some <+: st.front ++ st.arr ∧
    t.count = t.out.length ∧ st.count = t.out.length

theorem passed_of_negative {ps : List Piece} (hlone : Piece.lone ∉ ps)
    (hnum : ∀ n, Piece.dec n ∈ ps → n.toInt < 0) (b : List UInt8) : Passed b ps := by
  induction ps generalizing b with
  | nil => trivial
  | cons p ps ih =>
      rw [List.mem_cons, not_or] at hlone
      refine ⟨?_, ih hlone.2 (fun n hn => hnum n (List.mem_cons_of_mem p hn)) _⟩
      cases p with
      | dec n => exact .inl (hnum n List.mem_cons_self)
      | lone => exact hlone.1 rfl
      | _ => trivial

theorem Passed.number_le {b : List UInt8} {ps : List Piece} (h : Passed b ps) {n : Word}
    (hn : Piece.dec n ∈ ps) : n.toInt ≤ 0 :=
  ((passed_iff b ps).mp h).2.1 _ (List.mem_filterMap.mpr ⟨_, hn, rfl⟩)

/-- `m_sprintf` agrees with `m_printf` exactly when all numbers are negative, none of them is spoilt
by what lies in the array behind its digits, and a NUL lies behind the last part. -/
theorem mSprintf_agrees_iff (fmt : CString) (args : List Arg) (ps : List Piece)
    (hps : pieces fmt.bytes args = some ps) (hlone : Piece.lone ∉ ps)
    (hnum : ∀ n, Piece.dec n ∈ ps → n.toInt ≠ 0) (arr : List UInt8)
    (harr : (expansion ps).length + fmt.strlen < arr.length) :
    Agrees arr fmt args ↔ (∀ n, Piece.dec n ∈ ps → n.toInt < 0) ∧ Clean arr ps ∧
      ((expansion ps).length : ℤ) ≤ intMax := by
  constructor
  · rintro ⟨t, st, ht, hst, hstored, hcounted, hcounted'⟩
    have hpass := passed_of_mPrintf hps ht
    have hneg : ∀ n, Piece.dec n ∈ ps → n.toInt < 0 := fun n hn =>
      lt_of_le_of_ne (hpass.number_le hn) (hnum n hn)
    obtain ⟨t', ht', hout, hcount⟩ := mPrintf_returns hps hpass
    obtain rfl := ht.unique ht'
    have hstores := Sprintf.stores_iff ⟨args, [], arr.map some, 0⟩ (r := arr) fmt.noNul hps hlone
      hneg rfl harr rfl
    rw [hout] at hstored hcounted hcounted'
    refine ⟨hneg, hstores.mp ⟨st, hst, hstored, ?_⟩, ?_⟩
    · rw [hcounted', ← hcounted, hcount, zero_add, wrap_wrap]
    · rw [← hcounted, hcount]
      exact wrap_le _
  · rintro ⟨hneg, hclean, hmax⟩
    have hfits : wrap (expansion ps).length = (expansion ps).length :=
      wrap_fits ⟨by simp only [intMin]; omega, hmax⟩
    obtain ⟨t, ht, hout, hcount⟩ := mPrintf_returns hps (passed_of_negative hlone hneg _)
    have hstores := Sprintf.stores_iff ⟨args, [], arr.map some, 0⟩ (r := arr) fmt.noNul hps hlone
      hneg rfl harr rfl
    obtain ⟨st, hst, hstored, hcounted⟩ := hstores.mpr hclean
    rw [zero_add, hfits] at hcounted
    refine ⟨t, st, ht, hst, ?_, ?_, ?_⟩
    · rw [hout]
      exact hstored
    · rw [hcount, hfits, hout]
    · rw [hcounted, hout]

def numberText : CString := ⟨[ascii '%', ascii 'd', ascii '%', ascii 's'], by decide⟩

theorem mSprintf_agrees_numberText :
    Agrees (List.replicate 12 0) numberText [.int (-42), .str numberFmt] := by
  have hnum : ∀ n, Piece.dec n ∈ [Piece.dec (-42), .str numberFmt] → n.toInt < 0 := by
    intro n hn
    rcases List.mem_cons.mp hn with hn | hn
    · cases hn
      decide
    · cases List.mem_singleton.mp hn
  refine (mSprintf_agrees_iff numberText _ [.dec (-42), .str numberFmt] rfl (by simp)
    (fun n hn => (hnum n hn).ne) _ (by decide)).mpr ⟨hnum, ?_, by decide⟩
  exact clean_of_zeros (fun _ => List.eq_of_mem_replicate) (by simp) hnum (by decide)

def percentChar : CString := ⟨[ascii '%', ascii '%', ascii '%', ascii 'c'], by decide⟩

/-- Behind the two characters of `m_printf` the array holds the end of the format, also when it was
zero at first. -/
theorem mSprintf_disagrees : ¬ Agrees (List.replicate 10 0) percentChar [.int 120] ∧
    (mPrintf 0 percentChar [.int 120]).map State.out = some ("%x".toList.map ascii) ∧
    (mSprintf 0 (List.replicate 10 (some 0)) percentChar [.int 120]).map
      (fun st => (st.front ++ st.arr).take 4) = some ("%xc\x00".toList.map (some ∘ ascii)) := by
  refine ⟨?_, by decide, by decide⟩
  rintro ⟨t, st, ⟨n, hn⟩, ⟨n', hn'⟩, hstored, -, -⟩
  have hout : (mPrintf n percentChar [.int 120]).map State.out = some ("%x".toList.map ascii) := rfl
  have harray : (mSprintf n' ((List.replicate 10 0).map some) percentChar [.int 120]).map
      (fun st => st.front ++ st.arr) =
        some ("%xc".toList.map (some ∘ ascii) ++ List.replicate 7 (some 0)) := rfl
  rw [show mPrintf n percentChar [.int 120] = some t from hn n (Nat.le_refl n)] at hout
  rw [show mSprintf n' _ percentChar [.int 120] = some st from hn' n' (Nat.le_refl n')] at harray
  rw [Option.some.inj hout, show st.front ++ st.arr = _ from Option.some.inj harray] at hstored
  exact absurd hstored (by decide)

end EmbeddedCode.Conversion
