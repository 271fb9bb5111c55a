import EmbeddedCode.Library.CInt
import EmbeddedCode.Library.CString
import EmbeddedCode.Library.Loop

/-!
# `printk`

`printk.c` of `30blkdrv_mmu_bootm/04bootm` on a machine with a 32-bit `int` and `size_t`. The
output is the sequence of the characters that are passed to `print_ch`. The buffer `str` of
`itoa` keeps what an earlier number left in it. An access outside of it, and an argument that is
missing or of the wrong type, is a fault.
-/
namespace EmbeddedCode.Printk

open CInt Loop

abbrev Word := BitVec 32

def ascii (ch : Char) : UInt8 := ch.toNat.toUInt8

/-! ## `str_reverse` -/

/-- One turn of the search for the last character. -/
def tailTurn (str : List UInt8) (tail : ℕ) : Option (Turn ℕ ℕ) :=
  str[tail + 1]?.map fun ch => if ch = 0 then .leave tail else .again (tail + 1)

def swapTurn : List UInt8 × ℕ × ℕ → Option (Turn (List UInt8 × ℕ × ℕ) (List UInt8))
  | (str, head, tail) =>
      if head < tail then
        str[head]?.bind fun first =>
        str[tail]?.map fun last => .again ((str.set head last).set tail first, head + 1, tail - 1)
      else some (.leave str)

def strReverse (fuel : ℕ) (str : List UInt8) : Option (List UInt8) :=
  (run (tailTurn str) fuel 0).bind fun tail => run swapTurn fuel (str, 0, tail)

/-! ## `itoa` -/

def bufLen : ℕ := 33

def tab : List UInt8 := "0123456789abcdef".toList.map ascii

/-- The buffer with the pointer into it and the number of characters that are counted. -/
structure Cursor where
  str : List UInt8
  p : ℕ
  count : ℕ
  deriving DecidableEq, Repr

/-- `*p = ch; p++; count++` -/
def Cursor.put (cur : Cursor) (ch : UInt8) : Option Cursor :=
  if cur.p < cur.str.length then some ⟨cur.str.set cur.p ch, cur.p + 1, cur.count + 1⟩ else none

/-- The remainder and the quotient are unsigned, as `base` is. -/
def digitTurn (base : ℕ) : Word × Cursor → Option (Turn (Word × Cursor) Cursor)
  | (n, cur) =>
      if n = 0 then some (.leave cur)
      else
        tab[n.toNat % base]?.bind fun ch =>
        (cur.put ch).map fun cur => .again (BitVec.ofNat 32 (n.toNat / base), cur)

def printStr (str : List UInt8) : Option (List UInt8) :=
  if 0 ∈ str then some (str.takeWhile (· ≠ 0)) else none

/-- The buffer, the characters that are printed, and the result. -/
def itoa (fuel : ℕ) (str : List UInt8) (n : Word) (base : ℕ) (isSigned : Bool) :
    Option (List UInt8 × List UInt8 × ℕ) :=
  let negative := base = 10 ∧ isSigned = true ∧ n.toInt < 0
  let n := if negative then -n else n
  let cur : Cursor := ⟨str, 0, 0⟩
  (if n = 0 then cur.put (ascii '0') else some cur).bind fun cur =>
  (run (digitTurn base) fuel (n, cur)).bind fun cur =>
  (if negative then cur.put (ascii '-') else some cur).bind fun cur =>
  (cur.put 0).bind fun last =>
  (strReverse fuel last.str).bind fun str =>
  (printStr str).map fun out => (str, out, cur.count)

/-! ## `printk` -/

/-- An argument behind the format. -/
inductive Arg where
  | int (n : Word)
  | str (s : CString)
  deriving DecidableEq

inductive Flag where
  | normal
  | fmt
  deriving DecidableEq, Repr

structure State where
  flag : Flag
  /-- The arguments that are not used yet. -/
  ap : List Arg
  /-- The buffer of `itoa`. -/
  str : List UInt8
  out : List UInt8
  count : ℤ
  deriving DecidableEq

namespace State

def printCh (s : State) (ch : UInt8) : State := {s with out := s.out ++ [ch]}

def addCount (s : State) (n : ℕ) : State := {s with count := wrap (s.count + n)}

/-- The branch of a character that is not `%`, if it does not follow a `%`. -/
def literal (s : State) (ch : UInt8) : State := (s.printCh ch).addCount 1

/-- The branch of a number behind a `%`. -/
def number (fuel : ℕ) (s : State) (base : ℕ) (isSigned : Bool) : Option State :=
  match s.ap with
  | .int n :: ap =>
      (itoa fuel s.str n base isSigned).map fun (str, out, count) => addCount {s with
        flag := .normal
        ap := ap
        str := str
        out := s.out ++ out} count
  | _ => none

/-- The branch of a character that is not `%`, if it follows a `%`. -/
def convert (fuel : ℕ) (s : State) (ch : UInt8) : Option State :=
  if ch = ascii 'c' then
    match s.ap with
    | .int n :: ap => some {s.literal n.toNat.toUInt8 with
        flag := .normal
        ap := ap}
    | _ => none
  else if ch = ascii 's' then
    match s.ap with
    | .str str :: ap => some (addCount {s with
        flag := .normal
        ap := ap
        out := s.out ++ str.bytes} str.strlen)
    | _ => none
  else if ch = ascii 'd' then s.number fuel 10 true
  else if ch = ascii 'u' then s.number fuel 10 false
  else if ch = ascii 'b' then s.number fuel 2 false
  else if ch = ascii 'x' then s.number fuel 16 false
  else some {s with flag := .normal}

/-- The body of the loop over the format. -/
def step (fuel : ℕ) (s : State) (ch : UInt8) : Option State :=
  match s.flag with
  | .normal => some (if ch = ascii '%' then {s with flag := .fmt} else s.literal ch)
  | .fmt =>
      if ch = ascii '%' then some {s.literal ch with flag := .normal} else s.convert fuel ch

end State

/-- `printk` with the buffer of `itoa` as it is before the call. Its result is `count` at the
end. -/
def printk (fuel : ℕ) (str : List UInt8) (fmt : CString) (args : List Arg) : Option State :=
  fmt.bytes.foldlM (State.step fuel) ⟨.normal, args, str, [], 0⟩

end EmbeddedCode.Printk
