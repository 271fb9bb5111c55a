import EmbeddedCode.Calculator.Model
import Mathlib.Data.List.Chain

/-!
# Reading the characters of an expression

An expression is a word of tokens. Its spellings put any blanks before, between and
after the tokens. On every spelling the character loop does what `feed` does on
the tokens: a fold without inner loops, where a closing bracket and the end of the
expression settle the operators above a point of the stack.
-/
namespace EmbeddedCode.Calculator

open CInt Loop

inductive Op where
  | add | sub | mul | div | mod
  deriving DecidableEq, Repr

def Op.char : Op → Char
  | .add => '+'
  | .sub => '-'
  | .mul => '*'
  | .div => '/'
  | .mod => '%'

structure Numeral where
  chars : List Char
  nonempty : chars ≠ []
  digits : ∀ c ∈ chars, isDigit c = true

def decimal (v : ℤ) (digits : List Char) : ℤ :=
  digits.foldl (fun v c => v * 10 + c.toNat - '0'.toNat) v

def Numeral.value (n : Numeral) : ℤ := decimal 0 n.chars

inductive Token where
  | num (n : Numeral)
  | opr (o : Op)
  | lparen
  | rparen

namespace Token

def chars : Token → List Char
  | num n => n.chars
  | opr o => [o.char]
  | lparen => ['(']
  | rparen => [')']

def IsNum : Token → Prop
  | num _ => True
  | _ => False

end Token

inductive Spells : List Token → List Char → Prop
  | nil : Spells [] []
  | blank {w : List Token} {s : List Char} {c : Char} : c.isWhitespace → Spells w s →
      Spells w (c :: s)
  | token {w : List Token} {s : List Char} (t : Token) : Spells w s → Spells (t :: w) (t.chars ++ s)

/-- No numeral stands next to another one, so that each ends where its digits end. -/
def Separated (w : List Token) : Prop := w.IsChain fun t u => ¬ (t.IsNum ∧ u.IsNum)

/-- `compute` for the operator `opr`, already taken from its stack. -/
def computeOpr (opr : Char) : List ℤ → Except Fault (List ℤ)
  | b :: a :: nums => do
      let ret ← operate opr a b
      .ok (wrap ret :: nums)
  | _ => .error .popEmpty

/-- Compute with all the operators of a stack, from its top on. -/
def settle : List Char → List ℤ → Except Fault (List ℤ)
  | [], nums => .ok nums
  | opr :: oprs, nums => do
      let nums ← computeOpr opr nums
      settle oprs nums

/-- Compute with the operators above the last opening bracket, and remove it. -/
def close : List Char → List ℤ → Except Fault (List ℤ × List Char)
  | [], _ => .error .topEmpty
  | opr :: oprs, nums =>
      if opr = '(' then .ok (nums, oprs)
      else do
        let nums ← computeOpr opr nums
        close oprs nums

def step (this : Calc) : Token → Except Fault Calc
  | .num n => .ok {this with numStack := wrap n.value :: this.numStack, flag := .num}
  | .opr o => oprHandler o.char this
  | .lparen => .ok {this with oprStack := '(' :: this.oprStack, flag := .opr}
  | .rparen => do
      let (nums, oprs) ← close this.oprStack this.numStack
      .ok {this with numStack := nums, oprStack := oprs}

def feed (w : List Token) (this : Calc) : Except Fault Calc := w.foldlM step this

/-- What is left to do after the last token. -/
def finish (this : Calc) : Except Fault (ℤ × Calc) := do
  let nums ← settle this.oprStack this.numStack
  let ret ← top nums
  .ok (ret, {this with numStack := nums, oprStack := []})

@[simp] theorem ok_bind {β γ : Type} (b : β) (f : β → Except Fault γ) :
    (Except.ok b >>= f) = f b := rfl

@[simp] theorem error_bind {β γ : Type} (fault : Fault) (f : β → Except Fault γ) :
    (Except.error fault >>= f) = .error fault := rfl

@[simp] theorem map_ok {β γ : Type} (b : β) (f : β → γ) :
    (Except.ok b : Except Fault β).map f = .ok (f b) := rfl

@[simp] theorem map_error {β γ : Type} (fault : Fault) (f : β → γ) :
    (Except.error fault : Except Fault β).map f = .error fault := rfl

theorem feed_cons (t : Token) (w : List Token) (this : Calc) :
    feed (t :: w) this = step this t >>= feed w := rfl

theorem feed_append (u w : List Token) (this : Calc) :
    feed (u ++ w) this = feed u this >>= feed w := List.foldlM_append

theorem settle_append (u w : List Char) (nums : List ℤ) :
    settle (u ++ w) nums = settle u nums >>= settle w := by
  induction u generalizing nums with
  | nil => rfl
  | cons opr u ih =>
      simp only [List.cons_append, settle, bind_assoc]
      cases computeOpr opr nums with
      | error fault => rfl
      | ok nums => exact ih nums

/-- Operators that are no brackets are settled before the bracket is removed. -/
theorem close_append {u : List Char} (hu : '(' ∉ u) (oprs : List Char) (nums : List ℤ) :
    close (u ++ '(' :: oprs) nums = (settle u nums).map fun nums => (nums, oprs) := by
  induction u generalizing nums with
  | nil => rfl
  | cons opr u ih =>
      rw [List.mem_cons, not_or] at hu
      simp only [List.cons_append, close, settle, if_neg (Ne.symm hu.1)]
      cases computeOpr opr nums with
      | error fault => rfl
      | ok nums => exact ih hu.2 nums

section
variable {flag : StateFlag} {nums : List ℤ} {opr : Char} {oprs : List Char}

theorem compute_cons : compute ⟨flag, nums, opr :: oprs⟩ =
    (computeOpr opr nums).map fun nums => ⟨flag, nums, oprs⟩ := by
  match nums with
  | [] => rfl
  | [b] => rfl
  | b :: a :: nums =>
      simp only [compute, pop, computeOpr, ok_bind]
      cases operate opr a b <;> rfl

theorem run_closeTurn : run closeTurn (oprs.length + 1) ⟨flag, nums, oprs⟩ =
    some ((close oprs nums).map fun p => ⟨flag, p.1, p.2⟩) := by
  induction oprs generalizing nums with
  | nil => rfl
  | cons opr oprs ih =>
      by_cases ho : opr = '('
      · subst ho
        rfl
      · simp only [close, if_neg ho]
        cases hc : computeOpr opr nums with
        | error fault =>
            exact run_leave (by simp [closeTurn, top, ho, compute_cons, hc]) _
        | ok nums' =>
            rw [run_again (t := ⟨flag, nums', oprs⟩)
              (by simp [closeTurn, top, ho, compute_cons, hc])]
            exact ih

theorem run_drainTurn : run drainTurn (oprs.length + 1) ⟨flag, nums, oprs⟩ =
    some ((settle oprs nums).map fun nums => ⟨flag, nums, []⟩) := by
  induction oprs generalizing nums with
  | nil => rfl
  | cons opr oprs ih =>
      simp only [settle]
      cases hc : computeOpr opr nums with
      | error fault =>
          exact run_leave (by simp [drainTurn, compute_cons, hc]) _
      | ok nums' =>
          rw [run_again (t := ⟨flag, nums', oprs⟩)
            (by simp [drainTurn, compute_cons, hc])]
          exact ih

end

theorem Op.char_mem (o : Op) :
    o.char ∈ ['+', '-', '*', '/', '%'] ∧ isDigit o.char = false ∧ o.char ≠ '(' := by
  cases o <;> decide

theorem isWhitespace_skipped {c : Char} (h : c.isWhitespace) :
    isDigit c = false ∧ c ∉ ['+', '-', '*', '/', '%'] ∧ c ∉ ['(', ')'] := by
  simp only [Char.isWhitespace, Bool.or_eq_true, decide_eq_true_eq] at h
  rcases h with ((rfl | rfl) | rfl) | rfl <;> decide

/-- Only a numeral starts with a digit. -/
theorem Spells.head {w : List Token} {s : List Char} (h : Spells w s)
    (hw : ∀ t ∈ w.head?, ¬ t.IsNum) {c : Char} (hc : s.head? = some c) : isDigit c = false := by
  cases h with
  | nil => cases hc
  | blank hb _ =>
      cases hc
      exact (isWhitespace_skipped hb).1
  | token t _ =>
      cases t with
      | num n => exact absurd trivial (hw (.num n) rfl)
      | opr o =>
          cases hc
          exact o.char_mem.2.1
      | lparen =>
          cases hc
          rfl
      | rparen =>
          cases hc
          rfl

theorem readDigits_append {digits rest : List Char} (hd : ∀ c ∈ digits, isDigit c = true)
    (hr : ∀ c, rest.head? = some c → isDigit c = false) (v : ℤ) :
    readDigits (wrap v) (digits ++ rest) = (wrap (decimal v digits), rest) := by
  induction digits generalizing v with
  | nil =>
      cases rest with
      | nil => rfl
      | cons c rest => simp [readDigits, hr c rfl, decimal]
  | cons c digits ih =>
      have hw : wrap (wrap v * 10 + c.toNat - '0'.toNat) = wrap (v * 10 + c.toNat - '0'.toNat) := by
        rw [Int.add_sub_assoc, Int.add_sub_assoc, ← wrap_add_left, wrap_mul_left, wrap_add_left]
      rw [List.cons_append, readDigits, if_pos (hd c (by simp)), hw,
        ih (fun d h => hd d (by simp [h]))]
      rfl

theorem numHandler_append (n : Numeral) {rest : List Char}
    (hr : ∀ c, rest.head? = some c → isDigit c = false) (this : Calc) :
    numHandler (n.chars ++ rest) this =
      (rest, {this with numStack := wrap n.value :: this.numStack, flag := .num}) := by
  have h := readDigits_append n.digits hr 0
  rw [wrap_fits (by decide)] at h
  rw [numHandler, h]
  rfl

/-- One token: a turn with the result of its step, and the rest of the expression. -/
theorem exits_handled {ptr s : List Char} {this : Calc} {w : List Token} {r : Except Fault Calc}
    (h : Returns (fun fuel => analyzeTurn fuel (ptr, this)) (handled s r))
    (ih : ∀ this, Exits analyzeTurn (s, this) (feed w this)) :
    Exits analyzeTurn (ptr, this) (r >>= feed w) := by
  cases r with
  | error fault => exact .single h
  | ok this' => exact (Leads.single h).exits (ih this')

/-- The character loop on a spelling refines the fold over the tokens. -/
theorem analyzeTurn_exits {w : List Token} {s : List Char} (h : Spells w s) (hw : Separated w)
    (this : Calc) : Exits analyzeTurn (s, this) (feed w this) := by
  induction h generalizing this with
  | nil => exact .single (returns_const _)
  | @blank w s c hb _ ih =>
      obtain ⟨hd, ho, hp⟩ := isWhitespace_skipped hb
      refine (Leads.single ?_).exits (ih hw this)
      simpa [analyzeTurn, hd, ho, hp] using returns_const _
  | @token w s t hs ih =>
      have hw' : Separated w := hw.tail
      rw [feed_cons]
      refine exits_handled ?_ fun this => ih hw' this
      cases t with
      | num n =>
          have hr : ∀ c, s.head? = some c → isDigit c = false := fun c hc =>
            hs.head (fun t ht hn => hw.rel_head? ht ⟨trivial, hn⟩) hc
          obtain ⟨c, cs, hcs⟩ := List.exists_cons_of_ne_nil n.nonempty
          have hc : isDigit c = true := n.digits c (by simp [hcs])
          have hturn : ∀ fuel, analyzeTurn fuel (n.chars ++ s, this) =
              some (.again (numHandler (n.chars ++ s) this)) := by
            intro fuel
            rw [hcs, List.cons_append, analyzeTurn, if_pos hc]
          simp only [Token.chars, hturn, numHandler_append n hr, step, handled]
          exact returns_const _
      | opr o =>
          obtain ⟨ho, hd, -⟩ := o.char_mem
          simp only [Token.chars, List.singleton_append, analyzeTurn, hd, ho, step, if_true]
          exact returns_const _
      | lparen => exact returns_const _
      | rparen =>
          refine ⟨this.oprStack.length + 1, fun fuel hf => ?_⟩
          have hrun : run closeTurn fuel this = _ := run_mono run_closeTurn hf
          change (run closeTurn fuel this).map (handled s) = _
          rw [hrun]
          simp only [Option.map_some, step]
          cases close this.oprStack this.numStack <;> rfl

/-- The calculator computes what the fold over the tokens and the settling of the
remaining operators give. -/
theorem analyzeExpr_returns {w : List Token} {s : List Char} (h : Spells w s) (hw : Separated w)
    (this : Calc) : Returns (fun fuel => analyzeExpr fuel s this) (feed w this >>= finish) := by
  have hmain := (analyzeTurn_exits h hw this).returns
  refine hmain.andThen ?_
  cases hf : feed w this with
  | error fault => exact returns_const _
  | ok this' =>
      have hd : Returns (fun fuel => run drainTurn fuel this') _ := run_returns run_drainTurn
      refine hd.andThen ?_
      simp only [ok_bind, finish]
      cases settle this'.oprStack this'.numStack with
      | error fault => exact returns_const _
      | ok nums => exact returns_const _

end EmbeddedCode.Calculator
