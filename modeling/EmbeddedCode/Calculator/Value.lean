import EmbeddedCode.Calculator.Safety
import Mathlib.Tactic.Ring

/-!
# When the calculator gives the conventional value

The conventional value of an expression comes from its syntax tree. The calculator
pushes an operator also when the one below it has the same priority, so it groups
such operators from the right, a prefix sign with everything that is pushed
behind it. While nothing is reduced, the pending operators are an affine function
of the operand that is still to come.
-/
namespace EmbeddedCode.Calculator

open CInt Loop

inductive Sign where
  | plus | minus
  deriving DecidableEq, Repr

inductive MulOp where
  | mul | div | mod
  deriving DecidableEq, Repr

def Sign.op : Sign → Op
  | .plus => .add
  | .minus => .sub

def MulOp.op : MulOp → Op
  | .mul => .mul
  | .div => .div
  | .mod => .mod

mutual

inductive Factor where
  | num (n : Numeral)
  | bracket (e : Sum)
  | sign (o : Sign) (f : Factor)

/-- Factors under `*`, `/` and `%`, grouped from the left. -/
inductive Term where
  | single (f : Factor)
  | mul (t : Term) (o : MulOp) (f : Factor)

/-- Terms under `+` and `-`, grouped from the left. -/
inductive Sum where
  | single (t : Term)
  | add (e : Sum) (o : Sign) (t : Term)

end

mutual

def Factor.tokens : Factor → List Token
  | .num n => [.num n]
  | .bracket e => .lparen :: (e.tokens ++ [.rparen])
  | .sign o f => .opr o.op :: f.tokens

def Term.tokens : Term → List Token
  | .single f => f.tokens
  | .mul t o f => t.tokens ++ .opr o.op :: f.tokens

def Sum.tokens : Sum → List Token
  | .single t => t.tokens
  | .add e o t => e.tokens ++ .opr o.op :: t.tokens

end

/-- The value of an operation in C that does not divide by zero and does not overflow. -/
def Op.eval (o : Op) (a b : ℤ) : Option ℤ :=
  match o with
  | .add => checked (a + b)
  | .sub => checked (a - b)
  | .mul => checked (a * b)
  | .div => if b = 0 ∨ Overflows a b then none else checked (a.tdiv b)
  | .mod => if b = 0 ∨ Overflows a b then none else checked (a.tmod b)

mutual

/-- The conventional value, if its evaluation never divides by zero or overflows. -/
def Factor.value : Factor → Option ℤ
  | .num n => checked n.value
  | .bracket e => e.value
  | .sign .plus f => f.value
  | .sign .minus f => do checked (-(← f.value))

def Term.value : Term → Option ℤ
  | .single f => f.value
  | .mul t o f => do o.op.eval (← t.value) (← f.value)

def Sum.value : Sum → Option ℤ
  | .single t => t.value
  | .add e o t => do o.op.eval (← e.value) (← t.value)

end

def Factor.isBare : Factor → Bool
  | .sign .minus _ => false
  | .sign .plus f => f.isBare
  | _ => true

def Term.isBare : Term → Bool
  | .single f => f.isBare
  | .mul _ _ _ => false

def Term.isSingle : Term → Bool
  | .single _ => true
  | .mul _ _ _ => false

def Term.isProduct : Term → Bool
  | .single _ => true
  | .mul t o _ => t.isProduct && o == .mul

/-- Single factors without a minus, under `+` only. -/
def Sum.isPlain : Sum → Bool
  | .single t => t.isBare
  | .add e o t => e.isPlain && o == .plus && t.isBare

mutual

/-- Grouping from the right does not change the value: inside every bracket the last
term alone has a product, a division or a minus before it or in front of it, and a
division stands between two factors only. -/
def Factor.groupsRight : Factor → Bool
  | .num _ => true
  | .bracket e => e.groupsRight
  | .sign _ f => f.groupsRight

def Term.groupsRight : Term → Bool
  | .single f => f.groupsRight
  | .mul t o f => t.groupsRight && f.groupsRight && (t.isSingle || t.isProduct && o == .mul)

def Sum.groupsRight : Sum → Bool
  | .single t => t.groupsRight
  | .add e _ t => e.groupsRight && t.groupsRight && e.isPlain

end

theorem Derives.append {w u : List Token} (h : Derives .expr u) (o : Op) (hw : Derives .expr w) :
    Derives .expr (w ++ .opr o :: u) := by
  generalize hnt : Nonterminal.expr = nt at h
  induction h with
  | number | bracket | sign => cases hnt
  | operand h => exact .binop o hw h
  | binop p _ h ihu =>
      rw [← List.cons_append, ← List.append_assoc]
      exact .binop p (ihu rfl) h

mutual

theorem Factor.derives : ∀ f : Factor, Derives .operand f.tokens
  | .num n => .number n
  | .bracket e => .bracket e.derives
  | .sign .plus f => .sign .add (.inl rfl) f.derives
  | .sign .minus f => .sign .sub (.inr rfl) f.derives

theorem Term.derives : ∀ t : Term, Derives .expr t.tokens
  | .single f => .operand f.derives
  | .mul t o f => .binop o.op t.derives f.derives

theorem Sum.derives : ∀ e : Sum, Derives .expr e.tokens
  | .single t => t.derives
  | .add e o t => t.derives.append o.op e.derives

end

def Sign.factor : Sign → ℤ
  | .plus => 1
  | .minus => -1

/-- Settling the operators makes an affine function of the operand put on top. -/
def Affine (oprs : List Char) (below : List ℤ) (c k : ℤ) (nums : List ℤ) : Prop :=
  ∀ y, settle oprs (wrap y :: below) = .ok (wrap (c + k * y) :: nums)

namespace Affine

variable {oprs : List Char} {below nums : List ℤ} {c k : ℤ}

theorem nil (nums : List ℤ) : Affine [] nums 0 1 nums := fun y => by simp [settle]

theorem sign (h : Affine oprs below c k nums) (x : ℤ) (o : Sign) :
    Affine (o.op.char :: oprs) (x :: below) (c + k * x) (k * o.factor) nums := fun y => by
  cases o with
  | plus =>
      have hy := h (x + y)
      have he : c + k * (x + y) = c + k * x + k * 1 * y := by ring
      rw [← wrap_add_right, he] at hy
      exact hy
  | minus =>
      have hy := h (x - y)
      have he : c + k * (x - y) = c + k * x + k * -1 * y := by ring
      rw [← wrap_sub_right, he] at hy
      exact hy

theorem mul (h : Affine oprs below c k nums) (x : ℤ) :
    Affine ('*' :: oprs) (x :: below) c (k * x) nums := fun y => by
  have hy := h (x * y)
  rw [← wrap_mul_right] at hy
  simpa only [settle, computeOpr, operate, ok_bind, mul_assoc] using hy

end Affine

section
variable {base : List Char} {nums : List ℤ} {p : ℕ} {c k x v : ℤ} {this : Calc}

/-- An operand is expected, and the operators above `base`, of priority `p` at most, are
an affine function of it. -/
def Hole (base : List Char) (nums : List ℤ) (p : ℕ) (c k : ℤ) (this : Calc) : Prop :=
  this.flag = .opr ∧ ∃ oprs, this.oprStack = oprs ++ base ∧
    (∀ o ∈ oprs, 0 < priority o ∧ priority o ≤ p) ∧ Affine oprs this.numStack c k nums

/-- The same behind the operand `x`. -/
def Filled (base : List Char) (nums : List ℤ) (p : ℕ) (c k x : ℤ) (this : Calc) : Prop :=
  this.flag = .num ∧ Fits x ∧ ∃ oprs below, this.oprStack = oprs ++ base ∧
    this.numStack = x :: below ∧ (∀ o ∈ oprs, 0 < priority o ∧ priority o ≤ p) ∧
    Affine oprs below c k nums

/-- Settling the operators above `base` leaves the value `v`. -/
def Settles (base : List Char) (nums : List ℤ) (v : ℤ) (this : Calc) : Prop :=
  this.flag = .num ∧ ∃ oprs, this.oprStack = oprs ++ base ∧ '(' ∉ oprs ∧
    settle oprs this.numStack = .ok (v :: nums)

theorem Hole.start (h : this.flag = .opr) (p : ℕ) : Hole this.oprStack this.numStack p 0 1 this :=
  ⟨h, [], rfl, by simp, .nil _⟩

theorem lparen_notMem {oprs : List Char} (h : ∀ o ∈ oprs, 0 < priority o ∧ priority o ≤ p) :
    '(' ∉ oprs := fun hm => absurd (h _ hm).1 (by decide)

theorem Filled.settles (h : Filled base nums p c k x this) :
    Settles base nums (wrap (c + k * x)) this := by
  obtain ⟨hflag, hx, oprs, below, hstack, hnums, hp, haff⟩ := h
  refine ⟨hflag, oprs, hstack, lparen_notMem hp, ?_⟩
  rw [hnums, ← haff x, wrap_fits hx]

theorem Filled.mono {q : ℕ} (h : Filled base nums p c k x this) (hpq : p ≤ q) :
    Filled base nums q c k x this := by
  obtain ⟨hflag, hx, oprs, below, hstack, hnums, hp, haff⟩ := h
  exact ⟨hflag, hx, oprs, below, hstack, hnums, fun o ho => ⟨(hp o ho).1, (hp o ho).2.trans hpq⟩,
    haff⟩

theorem Sign.priority_op (o : Sign) : priority o.op.char = 1 := by
  cases o <;> rfl

theorem Hole.sign (h : Hole base nums p c k this) (hp : 1 ≤ p) (o : Sign) :
    ∃ this', step this (.opr o.op) = .ok this' ∧ Hole base nums p c (k * o.factor) this' := by
  obtain ⟨hflag, oprs, hstack, hpr, haff⟩ := h
  have hsign : (o.op.char = '+' ∨ o.op.char = '-') ∧ this.flag = .opr := by
    cases o with
    | plus => exact ⟨.inl rfl, hflag⟩
    | minus => exact ⟨.inr rfl, hflag⟩
  refine ⟨_, if_pos hsign, hflag, o.op.char :: oprs, by simp [hstack], ?_, ?_⟩
  · rintro o' (_ | _)
    · rw [o.priority_op]
      exact ⟨by decide, hp⟩
    · exact hpr o' ‹_›
  · have h0 := haff.sign 0 o
    rwa [mul_zero, add_zero] at h0

/-- Behind an operand, an operator of no lower priority than the one on top is pushed. -/
theorem oprHandler_push {o : Char} (hflag : this.flag = .num)
    (h : ∀ t, this.oprStack.head? = some t → priority t ≤ priority o) :
    oprHandler o this = .ok {this with oprStack := o :: this.oprStack, flag := .opr} := by
  simp only [oprHandler, hflag, reduceCtorEq, and_false, if_false]
  cases hs : this.oprStack with
  | nil => rfl
  | cons t stack => simp [pushes, top, h t (by rw [hs]; rfl)]

theorem priority_le_two (o : Char) : priority o ≤ 2 := by
  unfold priority
  split <;> decide

theorem Filled.add (h : Filled base nums 1 c k x this) (hb : Closed base) (o : Sign) :
    ∃ this', step this (.opr o.op) = .ok this' ∧
      Hole base nums 1 (c + k * x) (k * o.factor) this' := by
  obtain ⟨hflag, hx, oprs, below, hstack, hnums, hp, haff⟩ := h
  have htop : ∀ t, this.oprStack.head? = some t → priority t ≤ priority o.op.char := by
    intro t ht
    rw [o.priority_op]
    cases oprs with
    | nil =>
        rw [hstack] at ht
        rw [hb t ht]
        decide
    | cons t' oprs =>
        rw [hstack] at ht
        cases ht
        exact (hp t (by simp)).2
  refine ⟨_, oprHandler_push hflag htop, rfl, o.op.char :: oprs, by simp [hstack], ?_, ?_⟩
  · rintro o' (_ | _)
    · rw [o.priority_op]
      decide
    · exact hp o' ‹_›
  · rw [hnums]
    exact haff.sign x o

theorem Filled.mul (h : Filled base nums 2 c k x this) :
    ∃ this', step this (.opr .mul) = .ok this' ∧ Hole base nums 2 c (k * x) this' := by
  obtain ⟨hflag, hx, oprs, below, hstack, hnums, hp, haff⟩ := h
  refine ⟨_, oprHandler_push hflag fun t _ => priority_le_two t, rfl, '*' :: oprs,
    by simp [hstack, Op.char], ?_, ?_⟩
  · rintro o (_ | _)
    · decide
    · exact hp o ‹_›
  · rw [hnums]
    exact haff.mul x

end

theorem Op.eval_fits {o : Op} {a b v : ℤ} (h : o.eval a b = some v) : Fits v := by
  cases o with
  | add | sub | mul =>
      obtain ⟨hv, rfl⟩ := checked_eq_some.mp h
      exact hv
  | div | mod =>
      simp only [Op.eval] at h
      split_ifs at h
      obtain ⟨hv, rfl⟩ := checked_eq_some.mp h
      exact hv

theorem Term.value_eq_some {t : Term} {o : MulOp} {f : Factor} {v : ℤ}
    (h : (Term.mul t o f).value = some v) :
    ∃ a b, t.value = some a ∧ f.value = some b ∧ o.op.eval a b = some v := by
  obtain ⟨a, ha, h⟩ := Option.bind_eq_some_iff.mp h
  obtain ⟨b, hb, h⟩ := Option.bind_eq_some_iff.mp h
  exact ⟨a, b, ha, hb, h⟩

theorem Sum.value_eq_some {e : Sum} {o : Sign} {t : Term} {v : ℤ}
    (h : (Sum.add e o t).value = some v) :
    ∃ a b, e.value = some a ∧ t.value = some b ∧ o.op.eval a b = some v := by
  obtain ⟨a, ha, h⟩ := Option.bind_eq_some_iff.mp h
  obtain ⟨b, hb, h⟩ := Option.bind_eq_some_iff.mp h
  exact ⟨a, b, ha, hb, h⟩

theorem Sign.eval_eq_some {o : Sign} {a b v : ℤ} (h : o.op.eval a b = some v) :
    a + o.factor * b = v := by
  cases o with
  | plus =>
      obtain ⟨_, rfl⟩ := checked_eq_some.mp h
      simp [Sign.factor]
  | minus =>
      obtain ⟨_, rfl⟩ := checked_eq_some.mp h
      simp only [Sign.factor]
      ring

mutual

theorem Factor.value_fits : ∀ (f : Factor) {v : ℤ}, f.value = some v → Fits v
  | .num n, _, h => (checked_eq_some.mp h).2 ▸ (checked_eq_some.mp h).1
  | .bracket e, _, h => e.value_fits h
  | .sign .plus f, _, h => f.value_fits h
  | .sign .minus f, v, h => by
      obtain ⟨a, _, h⟩ := Option.bind_eq_some_iff.mp h
      obtain ⟨hv, rfl⟩ := checked_eq_some.mp h
      exact hv

theorem Term.value_fits : ∀ (t : Term) {v : ℤ}, t.value = some v → Fits v
  | .single f, _, h => f.value_fits h
  | .mul _ _ _, _, h => by
      obtain ⟨a, b, _, _, h⟩ := Term.value_eq_some h
      exact Op.eval_fits h

theorem Sum.value_fits : ∀ (e : Sum) {v : ℤ}, e.value = some v → Fits v
  | .single t, _, h => t.value_fits h
  | .add _ _ _, _, h => by
      obtain ⟨a, b, _, _, h⟩ := Sum.value_eq_some h
      exact Op.eval_fits h

end

/-- A division truncates, so the sign of the dividend may be applied to the quotient. -/
theorem operate_eval {o : MulOp} (ho : o ≠ .mul) {m x b v : ℤ} (hm : m = 1 ∨ m = -1)
    (hfit : Fits (m * x)) (h : o.op.eval (m * x) b = some v) :
    ∃ q, operate o.op.char x b = .ok q ∧ m * q = v := by
  have hno : ¬ (b = 0 ∨ Overflows (m * x) b) := by
    intro hbad
    cases o with
    | mul => exact ho rfl
    | div | mod => simp [MulOp.op, Op.eval, hbad] at h
  obtain ⟨hb, hover⟩ := not_or.mp hno
  have hover' : ¬ Overflows x b := by
    rintro ⟨rfl, rfl⟩
    rcases hm with rfl | rfl
    · exact hover ⟨by ring, rfl⟩
    · exact absurd hfit (by decide)
  cases o with
  | mul => exact absurd rfl ho
  | div =>
      simp only [MulOp.op, Op.eval, if_neg hno] at h
      refine ⟨x.tdiv b, by simp [MulOp.op, Op.char, operate, hb, hover'], ?_⟩
      rw [← (checked_eq_some.mp h).2]
      rcases hm with rfl | rfl
      · simp
      · simp [Int.neg_tdiv]
  | mod =>
      simp only [MulOp.op, Op.eval, if_neg hno] at h
      refine ⟨x.tmod b, by simp [MulOp.op, Op.char, operate, hb, hover'], ?_⟩
      rw [← (checked_eq_some.mp h).2]
      rcases hm with rfl | rfl
      · simp
      · simp [Int.neg_tmod]

theorem Term.isProduct_of_isSingle {t : Term} (h : t.isSingle = true) : t.isProduct = true := by
  cases t with
  | single f => rfl
  | mul t o f => cases h

/-- What a factor of value `v` does where an operand is expected: it fills the hole, and
a minus may turn the sign of the operand that is still to be settled. -/
def FactorFeeds (f : Factor) (v : ℤ) : Prop :=
  ∀ ⦃base nums p c k this⦄, 1 ≤ p → Hole base nums p c k this →
    ∃ this' σ x, feed f.tokens this = .ok this' ∧ Filled base nums p c (k * σ) x this' ∧
      σ * x = v ∧ (σ = 1 ∨ σ = -1) ∧ (f.isBare = true → σ = 1)

def TermFeeds (t : Term) (v : ℤ) : Prop :=
  ∀ ⦃base nums p c k this⦄, 1 ≤ p → p ≤ 2 → Hole base nums p c k this →
    ∃ this', feed t.tokens this = .ok this' ∧ Settles base nums (wrap (c + k * v)) this' ∧
      (t.isProduct = true → ∃ m x, Filled base nums 2 c (k * m) x this' ∧ m * x = v ∧
        (t.isSingle = true → m = 1 ∨ m = -1)) ∧
      (t.isBare = true → Filled base nums p c k v this')

def SumFeeds (e : Sum) (v : ℤ) : Prop :=
  ∀ ⦃base nums this⦄, Closed base → Hole base nums 1 0 1 this →
    ∃ this', feed e.tokens this = .ok this' ∧ Settles base nums v this' ∧
      (e.isPlain = true → ∃ c x, Filled base nums 1 c 1 x this' ∧ c + x = v)

theorem closed_lparen {oprs : List Char} : Closed ('(' :: oprs) :=
  fun _ hc => (Option.some.inj hc).symm

theorem FactorFeeds.num {n : Numeral} (h : Fits n.value) : FactorFeeds (.num n) n.value := by
  intro base nums p c k this _ hh
  obtain ⟨_, oprs, hstack, hp, haff⟩ := hh
  have hnums : wrap n.value :: this.numStack = n.value :: this.numStack := by rw [wrap_fits h]
  exact ⟨_, 1, n.value, rfl, ⟨rfl, h, oprs, this.numStack, hstack, hnums, hp, by rwa [mul_one]⟩,
    by ring, .inl rfl, fun _ => rfl⟩

/-- A bracket starts from its own empty hole and leaves its value on the stack. -/
theorem FactorFeeds.bracket {e : Sum} {v : ℤ} (hv : Fits v) (h : SumFeeds e v) :
    FactorFeeds (.bracket e) v := by
  intro base nums p c k this _ hh
  obtain ⟨_, oprs, hstack, hp, haff⟩ := hh
  have hstart : Hole ('(' :: this.oprStack) this.numStack 1 0 1
      {this with oprStack := '(' :: this.oprStack, flag := .opr} := Hole.start rfl 1
  obtain ⟨this', hfeed, ⟨hflag, inner, hinner, hno, hset⟩, _⟩ :=
    h closed_lparen hstart
  refine ⟨{this' with numStack := v :: this.numStack, oprStack := this.oprStack}, 1, v, ?_,
    ⟨hflag, hv, oprs, this.numStack, hstack, rfl, hp, by rwa [mul_one]⟩, by ring, .inl rfl,
    fun _ => rfl⟩
  rw [Factor.tokens, feed_cons, step, ok_bind, feed_append, hfeed, ok_bind, feed_cons, step, hinner,
    close_append hno, hset]
  rfl

theorem FactorFeeds.sign {f : Factor} {v : ℤ} (h : FactorFeeds f v) (o : Sign) :
    FactorFeeds (.sign o f) (o.factor * v) := by
  intro base nums p c k this hp hh
  obtain ⟨this₁, hstep, h₁⟩ := hh.sign hp o
  obtain ⟨this', σ, x, hfeed, hfill, rfl, hσ, hbare⟩ := h hp h₁
  refine ⟨this', o.factor * σ, x, ?_, ?_, by ring, ?_, ?_⟩
  · rw [Factor.tokens, feed_cons, hstep, ok_bind, hfeed]
  · rwa [← mul_assoc]
  · cases o with
    | plus => simpa [Sign.factor] using hσ
    | minus => rcases hσ with rfl | rfl <;> simp [Sign.factor]
  · cases o with
    | plus => simpa [Sign.factor, Factor.isBare] using hbare
    | minus => exact fun hb => absurd hb (by simp [Factor.isBare])

theorem TermFeeds.single {f : Factor} {v : ℤ} (hv : Fits v) (h : FactorFeeds f v) :
    TermFeeds (.single f) v := by
  intro base nums p c k this hp hp' hh
  obtain ⟨this', σ, x, hfeed, hfill, rfl, hσ, hbare⟩ := h hp hh
  refine ⟨this', hfeed, ?_, fun _ => ⟨σ, x, hfill.mono hp', rfl, fun _ => hσ⟩, fun hb => ?_⟩
  · rw [← mul_assoc]
    exact hfill.settles
  · obtain rfl := hbare hb
    rwa [mul_one, one_mul] at *

theorem TermFeeds.mul {t : Term} {f : Factor} {a b : ℤ} (hprod : t.isProduct = true)
    (ht : TermFeeds t a) (hf : FactorFeeds f b) : TermFeeds (.mul t .mul f) (a * b) := by
  intro base nums p c k this hp hp' hh
  obtain ⟨this₁, hfeed₁, _, hmul, _⟩ := ht hp hp' hh
  obtain ⟨m, x, hfill, rfl, _⟩ := hmul hprod
  obtain ⟨this₂, hstep, h₂⟩ := hfill.mul
  obtain ⟨this', σ, y, hfeed, hfill', rfl, _, _⟩ := hf (by decide) h₂
  have he : k * m * x * σ * y = k * (m * x * (σ * y)) := by ring
  refine ⟨this', ?_, ?_, fun _ => ⟨m * x * σ, y, ?_, by ring, fun hs => ?_⟩, fun hb => ?_⟩
  · rw [Term.tokens, feed_append, hfeed₁, ok_bind, feed_cons, MulOp.op, hstep, ok_bind, hfeed]
  · rw [← he]
    exact hfill'.settles
  · rwa [← mul_assoc, ← mul_assoc]
  · cases hs
  · cases hb

/-- The divisor is computed in a hole of its own, above the operator. -/
theorem TermFeeds.div {t : Term} {o : MulOp} {f : Factor} {a b v : ℤ} (ho : o ≠ .mul)
    (hsingle : t.isSingle = true) (ha : Fits a) (hb : Fits b) (hv : o.op.eval a b = some v)
    (ht : TermFeeds t a) (hf : FactorFeeds f b) : TermFeeds (.mul t o f) v := by
  intro base nums p c k this hp hp' hh
  obtain ⟨this₁, hfeed₁, _, hmul, _⟩ := ht hp hp' hh
  obtain ⟨m, x, hfill, rfl, hm⟩ := hmul (Term.isProduct_of_isSingle hsingle)
  obtain ⟨q, hq, rfl⟩ := operate_eval ho (hm hsingle) ha hv
  obtain ⟨hflag, _, oprs, below, hstack, hnums, hpr, haff⟩ := hfill
  have hpush := oprHandler_push (o := o.op.char) hflag fun t _ => (priority_le_two t).trans
    (by cases o <;> decide)
  have hstart : Hole (o.op.char :: this₁.oprStack) this₁.numStack 2 0 1
      {this₁ with oprStack := o.op.char :: this₁.oprStack, flag := .opr} := Hole.start rfl 2
  obtain ⟨this', σ, y, hfeed, hfill', rfl, _, _⟩ := hf (by decide) hstart
  obtain ⟨hflag', oprs', hstack', hno, hset⟩ := hfill'.settles
  refine ⟨this', ?_, ⟨hflag', oprs' ++ o.op.char :: oprs, ?_, ?_, ?_⟩, fun h => ?_, fun h => ?_⟩
  · rw [Term.tokens, feed_append, hfeed₁, ok_bind, feed_cons, step, hpush, ok_bind, hfeed]
  · simp [hstack', hstack]
  · simp only [List.mem_append, List.mem_cons, not_or]
    exact ⟨hno, by cases o <;> decide, lparen_notMem hpr⟩
  · have hy : wrap (0 + 1 * σ * y) = σ * y := by
      rw [zero_add, one_mul, wrap_fits hb]
    simp only [settle_append, hset, ok_bind, hnums, settle, computeOpr, hy, hq]
    rw [haff q, mul_assoc]
  · simp [Term.isProduct, ho] at h
  · cases h

theorem SumFeeds.single {t : Term} {v : ℤ} (hv : Fits v) (h : TermFeeds t v) :
    SumFeeds (.single t) v := by
  intro base nums this _ hh
  obtain ⟨this', hfeed, hset, _, hbare⟩ := h le_rfl (by decide) hh
  refine ⟨this', hfeed, ?_, fun hp => ⟨0, v, hbare hp, by ring⟩⟩
  rwa [zero_add, one_mul, wrap_fits hv] at hset

theorem SumFeeds.add {e : Sum} {o : Sign} {t : Term} {a b v : ℤ} (hplain : e.isPlain = true)
    (hv : o.op.eval a b = some v) (he : SumFeeds e a) (ht : TermFeeds t b) :
    SumFeeds (.add e o t) v := by
  intro base nums this hbase hh
  obtain ⟨this₁, hfeed₁, _, hfill⟩ := he hbase hh
  obtain ⟨c, x, hfill, hcx⟩ := hfill hplain
  obtain ⟨this₂, hstep, h₂⟩ := hfill.add hbase o
  rw [one_mul, one_mul, hcx] at h₂
  obtain ⟨this', hfeed, hset, _, hbare⟩ := ht le_rfl (by decide) h₂
  have hsum := Sign.eval_eq_some hv
  refine ⟨this', ?_, ?_, fun hp => ?_⟩
  · rw [Sum.tokens, feed_append, hfeed₁, ok_bind, feed_cons, hstep, ok_bind, hfeed]
  · rwa [hsum, wrap_fits (Op.eval_fits hv)] at hset
  · simp only [Sum.isPlain, Bool.and_eq_true, beq_iff_eq] at hp
    obtain ⟨⟨_, rfl⟩, hp⟩ := hp
    exact ⟨a, b, hbare hp, by simpa [Sign.factor] using hsum⟩

mutual

theorem Factor.feeds : ∀ (f : Factor) {v : ℤ}, f.groupsRight = true → f.value = some v →
    FactorFeeds f v
  | .num n, v, _, hv => by
      obtain ⟨hfit, rfl⟩ := checked_eq_some.mp hv
      exact .num hfit
  | .bracket e, _, hg, hv => .bracket (e.value_fits hv) (e.feeds hg hv)
  | .sign .plus f, v, hg, hv => by
      have h := (f.feeds hg hv).sign .plus
      rwa [Sign.factor, one_mul] at h
  | .sign .minus f, v, hg, hv => by
      obtain ⟨a, ha, hv⟩ := Option.bind_eq_some_iff.mp hv
      obtain ⟨_, rfl⟩ := checked_eq_some.mp hv
      have h := (f.feeds hg ha).sign .minus
      rwa [Sign.factor, neg_one_mul] at h

theorem Term.feeds : ∀ (t : Term) {v : ℤ}, t.groupsRight = true → t.value = some v →
    TermFeeds t v
  | .single f, _, hg, hv => .single (f.value_fits hv) (f.feeds hg hv)
  | .mul t o f, v, hg, hv => by
      obtain ⟨a, b, ha, hb, hop⟩ := Term.value_eq_some hv
      simp only [Term.groupsRight, Bool.and_eq_true, Bool.or_eq_true, beq_iff_eq] at hg
      obtain ⟨⟨hgt, hgf⟩, hshape⟩ := hg
      by_cases ho : o = .mul
      · subst ho
        obtain ⟨_, rfl⟩ := checked_eq_some.mp hop
        have hprod : t.isProduct = true := hshape.elim Term.isProduct_of_isSingle And.left
        exact .mul hprod (t.feeds hgt ha) (f.feeds hgf hb)
      · have hsingle : t.isSingle = true := hshape.resolve_right fun h => ho h.2
        exact .div ho hsingle (t.value_fits ha) (f.value_fits hb) hop (t.feeds hgt ha)
          (f.feeds hgf hb)

theorem Sum.feeds : ∀ (e : Sum) {v : ℤ}, e.groupsRight = true → e.value = some v → SumFeeds e v
  | .single t, _, hg, hv => .single (t.value_fits hv) (t.feeds hg hv)
  | .add e o t, v, hg, hv => by
      obtain ⟨a, b, ha, hb, hop⟩ := Sum.value_eq_some hv
      simp only [Sum.groupsRight, Bool.and_eq_true] at hg
      obtain ⟨⟨hge, hgt⟩, hplain⟩ := hg
      exact .add hplain hop (e.feeds hge ha) (t.feeds hgt hb)

end

/-- Where grouping from the right does no harm, the calculator returns the conventional
value of every spelling of the expression. -/
theorem analyzeExpr_value {e : Sum} {s : List Char} (hs : Spells e.tokens s)
    (hg : e.groupsRight = true) {v : ℤ} (hv : e.value = some v) :
    ∃ this, Returns (fun fuel => analyzeExpr fuel s calcInit) (.ok (v, this)) := by
  have hret := analyzeExpr_returns hs e.derives.separated calcInit
  have hstart : Hole [] [] 1 0 1 calcInit := Hole.start rfl 1
  obtain ⟨this, hfeed, ⟨_, oprs, hstack, _, hset⟩, _⟩ :=
    e.feeds hg hv (fun _ hc => by cases hc) hstart
  rw [List.append_nil] at hstack
  rw [hfeed, ok_bind, finish, hstack, hset] at hret
  exact ⟨_, hret⟩

/-- The expression that the program analyses when it is given none. -/
theorem analyzeExpr_value_default :
    ∃ this, Returns (fun fuel => analyzeExpr fuel "1 -+- 2".toList calcInit) (.ok (3, this)) :=
  let one : Numeral := ⟨['1'], by decide, List.all_eq_true.mp (by decide)⟩
  let two : Numeral := ⟨['2'], by decide, List.all_eq_true.mp (by decide)⟩
  analyzeExpr_value
    (e := .add (.single (.single (.num one))) .minus
      (.single (.sign .plus (.sign .minus (.num two)))))
    (.token (.num one) (.blank rfl (.token (.opr .sub) (.token (.opr .add)
      (.token (.opr .sub) (.blank rfl (.token (.num two) .nil))))))) rfl rfl

/-- The reduction of the product loses the operator behind it: `2*3+4` gives `4`. -/
theorem analyzeExpr_loses_operator : ¬ ∀ (e : Sum) (s : List Char) (v : ℤ), Spells e.tokens s →
    e.value = some v →
      ∃ this, Returns (fun fuel => analyzeExpr fuel s calcInit) (.ok (v, this)) := by
  intro h
  let two : Numeral := ⟨['2'], by decide, List.all_eq_true.mp (by decide)⟩
  let three : Numeral := ⟨['3'], by decide, List.all_eq_true.mp (by decide)⟩
  let four : Numeral := ⟨['4'], by decide, List.all_eq_true.mp (by decide)⟩
  let e : Sum := .add (.single (.mul (.single (.num two)) .mul (.num three))) .plus
    (.single (.num four))
  obtain ⟨this, hret⟩ := h e _ 10 (spells_chars _) rfl
  have hcode := analyzeExpr_returns (spells_chars e.tokens) e.derives.separated calcInit
  have hfour : feed e.tokens calcInit >>= finish = .ok (4, ⟨.num, [4, 6], []⟩) := rfl
  rw [hfour] at hcode
  cases hret.unique hcode

end EmbeddedCode.Calculator
