import EmbeddedCode.DataArray.Compare
import EmbeddedCode.Library.SteppedSearch
import EmbeddedCode.Library.Transition
import Mathlib.Algebra.Group.Nat.Defs
import Mathlib.Data.Nat.Notation

/-!
# Arrays of named data

`array.c` of `lighttpd-1.4.32/src` keeps the headers of a request and the configuration in arrays:
the data in the order in which they came, and the indices of the data in the order of their keys.
-/
namespace EmbeddedCode.DataArray

open Loop SteppedSearch Transition

inductive DataType where
  | unset
  | string
  | count
  | array
  | integer
  | fastcgi
  | config
  deriving DecidableEq, Repr

/-- `data_unset`, with the bytes of the key up to `used` and some value. -/
structure Data (V : Type) where
  type : DataType
  key : List UInt8
  isIndexKey : Bool
  value : V
  deriving DecidableEq, Repr

/-- `array`, of `data` and `sorted` what is in use. -/
structure Arr (V : Type) where
  data : List (Data V)
  sorted : List ℕ
  uniqueNdx : ℕ
  nextPowerOf2 : ℕ
  deriving DecidableEq, Repr

section
variable {V : Type}

def Arr.init : Arr V := ⟨[], [], 0, 1⟩

def intMax : ℕ := 2 ^ 31 - 1

/-- What `buffer_copy_long` writes for a number that is a `long`. -/
def copyLong (n : ℕ) : List UInt8 :=
  (Nat.toDigits 10 n).map (fun c => UInt8.ofNat c.toNat) ++ [0]

/-- The key gets an index for a name if it has none of its own. -/
def Data.named (str : Data V) (uniqueNdx : ℕ) : Data V × ℕ :=
  if str.key = [] ∨ str.isIndexKey then
    ({str with key := copyLong uniqueNdx, isIndexKey := true}, uniqueNdx + 1)
  else (str, uniqueNdx)

namespace Arr

variable (aligned : List UInt8 → List UInt8 → Bool)

/-- A key is compared with the one of the datum at an index of `sorted`. -/
def compareAt (a : Arr V) (key : List UInt8) (pos : ℕ) : Option ℤ := do
  let ndx ← a.sorted[pos]?
  let du ← a.data[ndx]?
  return caselessCompare (aligned key du.key) key du.key

/-- `array_get_index`: the index of the datum and `*rndx`. -/
def getIndex (a : Arr V) (key : List UInt8) : Option (Option ℕ × ℤ) := do
  let (found, pos) ← run (turn (a.compareAt aligned key) a.data.length) (a.nextPowerOf2 / 2 + 1)
    ⟨a.nextPowerOf2 / 2, (a.nextPowerOf2 / 2 : ℕ)⟩
  match found with
  | some i => return (some (← a.sorted[i]?), pos)
  | none => return (none, pos)

/-- `array_get_element` of a text. -/
def getElement (a : Arr V) (key : List UInt8) : Option (Option (Data V)) := do
  let (ndx, _) ← a.getIndex aligned (key ++ [0])
  match ndx with
  | some ndx => return some (← a.data[ndx]?)
  | none => return none

/-- The place in `sorted` for a new key. -/
def place (a : Arr V) (key : List UInt8) (pos : ℤ) : Option ℤ :=
  if pos = a.data.length then some pos
  else if pos < 0 then some (pos + 1)
  else do
    let cmp ← a.compareAt aligned key pos.toNat
    return if cmp > 0 then pos + 1 else pos

/-- A datum is put behind the others, and its index at `pos` of `sorted`. -/
def store (a : Arr V) (str : Data V) (pos : ℤ) : Option (Arr V) :=
  let ndx := a.data.length
  if 0 ≤ pos ∧ pos ≤ ndx then
    some {a with
      data := a.data ++ [str],
      sorted := a.sorted.take pos.toNat ++ ndx :: a.sorted.drop pos.toNat,
      nextPowerOf2 := if a.nextPowerOf2 = ndx then a.nextPowerOf2 <<< 1 else a.nextPowerOf2}
  else none

/-- `array_insert_unique`, where `insertDup dst src` is the value that `str->insert_dup` leaves.
Data of different types under one key end the program. -/
def insertUnique (insertDup : Data V → Data V → V) (a : Arr V) (str : Data V) :
    Option (Arr V × ℤ) := do
  let (str, uniqueNdx) := str.named a.uniqueNdx
  let a := {a with uniqueNdx := uniqueNdx}
  let (ndx, pos) ← a.getIndex aligned str.key
  match ndx with
  | some ndx =>
      let dst ← a.data[ndx]?
      if dst.type = str.type then
        return ({a with data := a.data.set ndx {dst with value := insertDup dst str}}, 0)
      else none
  | none =>
      if a.data.length + 1 > intMax then return (a, -1)
      else
        let pos ← a.place aligned str.key pos
        return (← a.store str pos, 0)

/-- `array_replace`, with the datum it returns. -/
def replace (insertDup : Data V → Data V → V) (a : Arr V) (du : Data V) :
    Option (Arr V × Option (Data V)) := do
  let (ndx, _) ← a.getIndex aligned du.key
  match ndx with
  | some ndx =>
      let old ← a.data[ndx]?
      return ({a with data := a.data.set ndx du}, some old)
  | none =>
      let (a, _) ← a.insertUnique aligned insertDup du
      return (a, none)

def reset (a : Arr V) : Arr V := {a with data := [], sorted := []}

end Arr

inductive Op (V : Type) where
  | insertUnique (str : Data V)
  | replace (du : Data V)
  | reset

/-- The key of what is put into an array has a length that is an `int`. -/
def Op.Short : Op V → Prop
  | .insertUnique str => str.key.length < 2 ^ 31
  | .replace du => du.key.length < 2 ^ 31
  | .reset => True

def Arr.step (aligned : List UInt8 → List UInt8 → Bool) (insertDup : Data V → Data V → V)
    (a : Arr V) : Op V → Option (Arr V)
  | .insertUnique str => (a.insertUnique aligned insertDup str).map Prod.fst
  | .replace du => (a.replace aligned insertDup du).map Prod.fst
  | .reset => some a.reset

def arrays (aligned : List UInt8 → List UInt8 → Bool) (insertDup : Data V → Data V → V) :
    Machine (Arr V) (Op V) where
  init := Arr.init
  step := Arr.step aligned insertDup

/-- What an array is for: a map with keys that do not tell cases apart, in the order in which the
keys have come. -/
structure Entries (V : Type) where
  list : List (Data V)
  uniqueNdx : ℕ
  deriving DecidableEq, Repr

namespace Entries

def find (e : Entries V) (key : List UInt8) : Option ℕ :=
  e.list.findIdx? fun du => fold du.key = fold key

/-- A new key comes last, and a value for a key that is there is joined with the one it has. -/
def insertUnique (insertDup : Data V → Data V → V) (e : Entries V) (str : Data V) :
    Option (Entries V) :=
  let (str, uniqueNdx) := str.named e.uniqueNdx
  let e := {e with uniqueNdx := uniqueNdx}
  match e.find str.key with
  | some ndx => do
      let dst ← e.list[ndx]?
      if dst.type = str.type then
        some {e with list := e.list.set ndx {dst with value := insertDup dst str}}
      else none
  | none => some (if e.list.length + 1 > intMax then e else {e with list := e.list ++ [str]})

def step (insertDup : Data V → Data V → V) (e : Entries V) : Op V → Option (Entries V)
  | .insertUnique str => e.insertUnique insertDup str
  | .replace du =>
      match e.find du.key with
      | some ndx => some {e with list := e.list.set ndx du}
      | none => e.insertUnique insertDup du
  | .reset => some {e with list := []}

/-- As many entries as the positions of a search have room for, and indices for names that are of
type `long`. -/
def Small (e : Entries V) : Prop := e.list.length ≤ 2 ^ 30 ∧ e.uniqueNdx < 2 ^ 63

end Entries

def entries (insertDup : Data V → Data V → V) : Machine (Entries V) (Op V) where
  init := ⟨[], 0⟩
  step := Entries.step insertDup

end
end EmbeddedCode.DataArray
