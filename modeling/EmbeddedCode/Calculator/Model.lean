import EmbeddedCode.Library.CInt
import EmbeddedCode.Library.Loop

/-!
# The calculator of `1221/calc.c`

A `struct calc` keeps a flag, a stack of operands and a stack of operators. The
character pointer is the list of the characters before the NUL, and the loop over
it carries it along, so the `ptr--` at the end of `num_handler` cancels against the
`ptr++` of the loop. Both stacks have their top first. Everything that stops the
program or reads a value that was never set is a `Fault`.
-/
namespace EmbeddedCode.Calculator

open CInt Loop

inductive StateFlag where
  | opr | num
  deriving DecidableEq, Repr

inductive Fault where
  /-- `pop` of an empty stack exits the program. -/
  | popEmpty
  /-- `top` of an empty stack reaches its end without a value. -/
  | topEmpty
  /-- No case of the `switch` in `compute` sets the result. -/
  | noOpr
  | divByZero
  /-- The quotient of `intMin` and `-1` is no `int`, and the division traps. -/
  | divOverflow
  deriving DecidableEq, Repr

structure Calc where
  flag : StateFlag
  numStack : List ℤ
  oprStack : List Char
  deriving DecidableEq, Repr

def pop {E : Type} : List E → Except Fault (E × List E)
  | [] => .error .popEmpty
  | data :: stack => .ok (data, stack)

def top {E : Type} : List E → Except Fault E
  | [] => .error .topEmpty
  | data :: _ => .ok data

/-- The fields that `calc_init` sets, whatever it returns. -/
def calcInit : Calc := ⟨.opr, [], []⟩

/-- The `switch` in `compute`. -/
def operate (opr : Char) (a b : ℤ) : Except Fault ℤ :=
  match opr with
  | '+' => .ok (a + b)
  | '-' => .ok (a - b)
  | '*' => .ok (a * b)
  | '/' => if b = 0 then .error .divByZero else if Overflows a b then .error .divOverflow
      else .ok (a.tdiv b)
  | '%' => if b = 0 then .error .divByZero else if Overflows a b then .error .divOverflow
      else .ok (a.tmod b)
  | _ => .error .noOpr

def compute (this : Calc) : Except Fault Calc := do
  let (b, nums) ← pop this.numStack
  let (a, nums) ← pop nums
  let (opr, oprs) ← pop this.oprStack
  let ret ← operate opr a b
  .ok {this with numStack := wrap ret :: nums, oprStack := oprs}

def isDigit (c : Char) : Bool := '0' ≤ c && c ≤ '9'

def readDigits (tmp : ℤ) : List Char → ℤ × List Char
  | [] => (tmp, [])
  | c :: ptr => if isDigit c then readDigits (wrap (tmp * 10 + c.toNat - '0'.toNat)) ptr
      else (tmp, c :: ptr)

def numHandler (ptr : List Char) (this : Calc) : List Char × Calc :=
  let (tmp, ptr) := readDigits 0 ptr
  (ptr, {this with numStack := tmp :: this.numStack, flag := .num})

def priority (c : Char) : ℕ :=
  match c with
  | '+' | '-' => 1
  | '*' | '/' | '%' => 2
  | _ => 0

/-- The condition under which the operator is pushed, with its short circuit. -/
def pushes (c : Char) (oprStack : List Char) : Except Fault Bool :=
  if oprStack.isEmpty then .ok true
  else do
    let opr ← top oprStack
    .ok (priority opr ≤ priority c)

def oprHandler (c : Char) (this : Calc) : Except Fault Calc :=
  if (c = '+' ∨ c = '-') ∧ this.flag = .opr then
    .ok {this with numStack := 0 :: this.numStack, oprStack := c :: this.oprStack}
  else do
    let this ← if ← pushes c this.oprStack then .ok {this with oprStack := c :: this.oprStack}
      else compute this
    .ok {this with flag := .opr}

/-- One turn of the loop that a closing bracket runs. -/
def closeTurn (this : Calc) : Option (Turn Calc (Except Fault Calc)) :=
  match top this.oprStack with
  | .error fault => some (.leave (.error fault))
  | .ok opr =>
      if opr = '(' then
        some (.leave (do
          let (_, oprs) ← pop this.oprStack
          .ok {this with oprStack := oprs}))
      else
        match compute this with
        | .error fault => some (.leave (.error fault))
        | .ok this => some (.again this)

def bracketHandler (fuel : ℕ) (c : Char) (this : Calc) : Option (Except Fault Calc) :=
  if c = '(' then some (.ok {this with oprStack := c :: this.oprStack, flag := .opr})
  else run closeTurn fuel this

/-- What a turn of the main loop does with the result of a handler. -/
def handled (ptr : List Char) : Except Fault Calc → Turn (List Char × Calc) (Except Fault Calc)
  | .error fault => .leave (.error fault)
  | .ok this => .again (ptr, this)

def analyzeTurn (fuel : ℕ) :
    List Char × Calc → Option (Turn (List Char × Calc) (Except Fault Calc))
  | ([], this) => some (.leave (.ok this))
  | (c :: ptr, this) =>
      if isDigit c then some (.again (numHandler (c :: ptr) this))
      else if c ∈ ['+', '-', '*', '/', '%'] then some (handled ptr (oprHandler c this))
      else if c ∈ ['(', ')'] then (bracketHandler fuel c this).map (handled ptr)
      else some (.again (ptr, this))

/-- One turn of the loop after the last character. -/
def drainTurn (this : Calc) : Option (Turn Calc (Except Fault Calc)) :=
  if this.oprStack.isEmpty then some (.leave (.ok this))
  else
    match compute this with
    | .error fault => some (.leave (.error fault))
    | .ok this => some (.again this)

/-- The value returned, together with the stacks that are left. -/
def analyzeExpr (fuel : ℕ) (expr : List Char) (this : Calc) : Option (Except Fault (ℤ × Calc)) := do
  match ← run (analyzeTurn fuel) fuel (expr, this) with
  | .error fault => some (.error fault)
  | .ok this =>
      match ← run drainTurn fuel this with
      | .error fault => some (.error fault)
      | .ok this => some (do
          let ret ← top this.numStack
          .ok (ret, this))

end EmbeddedCode.Calculator
