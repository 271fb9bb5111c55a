import EmbeddedCode.Calculator.Tokens

/-!
# No fault but a division

The operators above the last opening bracket never outnumber the operands that
belong to them. Where an operand is expected there are at least as many operands as
operators, and behind an operand there is one more. A reduction takes one of each
away, so it keeps the difference, and it happens above a bracket only, because
a bracket has the lowest priority.
-/
namespace EmbeddedCode.Calculator

open Loop

inductive Nonterminal where
  | expr | operand
  deriving DecidableEq, Repr

/-- The words of the grammar `E := T (binop T)*`, `T := (+|-)* (number | '(' E ')')`. -/
inductive Derives : Nonterminal → List Token → Prop
  | number (n : Numeral) : Derives .operand [.num n]
  | bracket {w : List Token} : Derives .expr w → Derives .operand (.lparen :: (w ++ [.rparen]))
  | sign {w : List Token} (o : Op) : o = .add ∨ o = .sub → Derives .operand w →
      Derives .operand (.opr o :: w)
  | operand {w : List Token} : Derives .operand w → Derives .expr w
  | binop {u w : List Token} (o : Op) : Derives .expr u → Derives .operand w →
      Derives .expr (u ++ .opr o :: w)

theorem Derives.separated {nt : Nonterminal} {w : List Token} (h : Derives nt w) :
    Separated w := by
  induction h with
  | number n => exact List.isChain_singleton _
  | bracket _ ih =>
      refine List.IsChain.cons (List.IsChain.append ih (List.isChain_singleton _) ?_) ?_
      · intro t _ u hu
        cases hu
        exact fun h => h.2
      · exact fun _ _ h => h.1
  | sign o _ _ ih => exact List.IsChain.cons ih fun _ _ h => h.1
  | operand _ ih => exact ih
  | binop o _ _ ihu ihw =>
      refine List.IsChain.append ihu (List.IsChain.cons ihw fun _ _ h => h.1) ?_
      intro t _ u hu
      cases hu
      exact fun h => h.2

/-- The faults of a division. -/
def Fault.Arithmetic (fault : Fault) : Prop := fault = .divByZero ∨ fault = .divOverflow

/-- A result that satisfies `P`, or the fault of a division. -/
def Safe {β : Type} (P : β → Prop) : Except Fault β → Prop
  | .error fault => fault.Arithmetic
  | .ok b => P b

theorem Safe.bind {β γ : Type} {P : β → Prop} {Q : γ → Prop} {r : Except Fault β}
    {f : β → Except Fault γ} (h : Safe P r) (hf : ∀ b, P b → Safe Q (f b)) : Safe Q (r >>= f) := by
  cases r with
  | error fault => exact h
  | ok b => exact hf b h

theorem Safe.map {β γ : Type} {P : β → Prop} {Q : γ → Prop} {r : Except Fault β} {f : β → γ}
    (h : Safe P r) (hf : ∀ b, P b → Q (f b)) : Safe Q (r.map f) := by
  cases r with
  | error fault => exact h
  | ok b => exact hf b h

def IsOpr (c : Char) : Prop := ∃ o : Op, c = o.char

theorem operate_safe {opr : Char} (h : IsOpr opr) (a b : ℤ) :
    Safe (fun _ => True) (operate opr a b) := by
  obtain ⟨o, rfl⟩ := h
  cases o with
  | add => trivial
  | sub => trivial
  | mul => trivial
  | div | mod =>
      simp only [Op.char, operate]
      split_ifs
      · exact .inl rfl
      · exact .inr rfl
      · trivial

theorem computeOpr_safe {opr : Char} (h : IsOpr opr) {nums : List ℤ} (hn : 2 ≤ nums.length) :
    Safe (fun nums' => nums'.length + 1 = nums.length) (computeOpr opr nums) := by
  match nums, hn with
  | b :: a :: nums, _ => exact (operate_safe h a b).bind fun _ _ => rfl

theorem settle_safe {oprs : List Char} (h : ∀ c ∈ oprs, IsOpr c) {nums : List ℤ}
    (hn : oprs.length + 1 ≤ nums.length) :
    Safe (fun nums' => nums'.length + oprs.length = nums.length) (settle oprs nums) := by
  induction oprs generalizing nums with
  | nil => rfl
  | cons opr oprs ih =>
      rw [List.length_cons] at hn
      refine (computeOpr_safe (h opr (by simp)) (by omega)).bind fun nums' hn' => ?_
      have hs := ih (fun c hc => h c (by simp [hc])) (show oprs.length + 1 ≤ nums'.length by omega)
      cases hr : settle oprs nums' with
      | error fault =>
          rw [hr] at hs
          exact hs
      | ok nums'' =>
          rw [hr] at hs
          change nums''.length + (oprs.length + 1) = nums.length
          have : nums''.length + oprs.length = nums'.length := hs
          omega

/-- Nothing below `base` is reached by a reduction: it is empty or a bracket. -/
def Closed (base : List Char) : Prop := ∀ c, base.head? = some c → c = '('

/-- Above `base` are operators only, and beyond `n` operands there is one for each of
them and `k` more. -/
def Pending (base : List Char) (n k : ℕ) (this : Calc) : Prop :=
  ∃ oprs, this.oprStack = oprs ++ base ∧ (∀ c ∈ oprs, IsOpr c) ∧
    n + oprs.length + k ≤ this.numStack.length

/-- The invariant where an operand is expected. -/
def Expects (base : List Char) (n : ℕ) (this : Calc) : Prop :=
  this.flag = .opr ∧ Pending base n 0 this

/-- The invariant behind an operand. -/
def Has (base : List Char) (n : ℕ) (this : Calc) : Prop :=
  this.flag = .num ∧ Pending base n 1 this

section
variable {base : List Char} {n : ℕ} {this : Calc}

theorem Pending.push {k : ℕ} (h : Pending base n (k + 1) this) (o : Op) (flag : StateFlag) :
    Pending base n k {this with oprStack := o.char :: this.oprStack, flag := flag} := by
  obtain ⟨oprs, hstack, hopr, hn⟩ := h
  refine ⟨o.char :: oprs, by simp [hstack], fun c hc => ?_, ?_⟩
  · rcases List.mem_cons.mp hc with rfl | hc
    · exact ⟨o, rfl⟩
    · exact hopr c hc
  · simp only [List.length_cons]
    omega

/-- A prefix sign pushes the zero that it needs. -/
theorem oprHandler_sign (h : Expects base n this) {o : Op} (ho : o = .add ∨ o = .sub) :
    Safe (Expects base n) (oprHandler o.char this) := by
  obtain ⟨hflag, hp⟩ := h
  have hz : Pending base n 1 {this with numStack := 0 :: this.numStack} := by
    obtain ⟨oprs, hstack, hopr, hn⟩ := hp
    refine ⟨oprs, hstack, hopr, ?_⟩
    simp only [List.length_cons]
    omega
  have hsign : (o.char = '+' ∨ o.char = '-') ∧ this.flag = .opr := by
    rcases ho with rfl | rfl
    · exact ⟨.inl rfl, hflag⟩
    · exact ⟨.inr rfl, hflag⟩
  simp only [oprHandler, if_pos hsign]
  exact ⟨hflag, hz.push o this.flag⟩

/-- Between two operands the operator is pushed, or an operator above `base` is
reduced. -/
theorem oprHandler_binop (hb : Closed base) (h : Has base n this) (o : Op) :
    Safe (Expects base n) (oprHandler o.char this) := by
  obtain ⟨hflag, hp⟩ := h
  simp only [oprHandler, hflag, reduceCtorEq, and_false, if_false]
  cases hs : this.oprStack with
  | nil =>
      have := hp.push o .opr
      rw [hs] at this
      exact ⟨rfl, this⟩
  | cons opr stack =>
      simp only [pushes, List.isEmpty_cons, top, ok_bind]
      by_cases hle : priority opr ≤ priority o.char
      · have := hp.push o .opr
        rw [hs] at this
        simpa [hle] using ⟨rfl, this⟩
      · obtain ⟨oprs, hstack, hopr, hn⟩ := hp
        cases oprs with
        | nil =>
            have : opr = '(' := hb opr (by rw [← List.nil_append base, ← hstack, hs]; rfl)
            subst this
            exact absurd (Nat.zero_le _) hle
        | cons opr' oprs =>
            rw [hs, List.cons_append, List.cons.injEq] at hstack
            obtain ⟨rfl, hstack⟩ := hstack
            rw [List.length_cons] at hn
            have hc := computeOpr_safe (hopr opr (by simp)) (show 2 ≤ this.numStack.length by omega)
            have he : compute this = (computeOpr opr this.numStack).map fun nums =>
                {this with numStack := nums, oprStack := stack} := by
              rw [← compute_cons, ← hs]
            simp only [hle, decide_false, Bool.false_eq_true, if_false, he]
            refine (hc.map (Q := Pending base n 0) fun nums hnum => ?_).bind
              fun this' h' => ⟨rfl, h'⟩
            exact ⟨oprs, hstack, fun c hc => hopr c (by simp [hc]), by simp only; omega⟩

theorem close_safe {oprs : List Char} (hopr : ∀ c ∈ oprs, IsOpr c)
    (h : Has ('(' :: (oprs ++ base)) (n + oprs.length) this) :
    Safe (Has base n) (step this .rparen) := by
  obtain ⟨hflag, inner, hstack, hinner, hn⟩ := h
  have hnot : '(' ∉ inner := fun hm => by
    obtain ⟨o, ho⟩ := hinner _ hm
    exact o.char_mem.2.2 ho.symm
  simp only [step, hstack, close_append hnot]
  refine ((settle_safe hinner (by omega)).map (Q := fun p => p.2 = oprs ++ base ∧
    n + oprs.length + 1 ≤ p.1.length) fun nums hnum => ⟨rfl, ?_⟩).bind fun p hp => ?_
  · simp only
    omega
  · exact ⟨hflag, oprs, hp.1, hopr, hp.2⟩

/-- Every word of the grammar leads from the one invariant to the other. -/
theorem feed_safe {nt : Nonterminal} {w : List Token} (h : Derives nt w) (hb : Closed base)
    (he : Expects base n this) : Safe (Has base n) (feed w this) := by
  induction h generalizing base n this with
  | number m =>
      obtain ⟨_, oprs, hstack, hopr, hn⟩ := he
      refine ⟨rfl, oprs, hstack, hopr, ?_⟩
      simp only [List.length_cons]
      omega
  | bracket _ ih =>
      obtain ⟨_, oprs, hstack, hopr, hn⟩ := he
      rw [feed_cons]
      simp only [step, ok_bind]
      rw [feed_append]
      have hb' : Closed ('(' :: (oprs ++ base)) := fun c hc => by
        cases hc
        rfl
      refine (ih hb' (n := n + oprs.length) ?_).bind fun this' h' => ?_
      · exact ⟨rfl, [], by simp [hstack], by simp, by simpa using hn⟩
      · rw [feed_cons]
        exact (close_safe hopr h').bind fun _ h => h
  | sign o ho _ ih => exact (oprHandler_sign he ho).bind fun _ h' => ih hb h'
  | operand _ ih => exact ih hb he
  | binop o _ _ ihu ihw =>
      rw [feed_append]
      refine (ihu hb he).bind fun _ h' => ?_
      exact (oprHandler_binop hb h' o).bind fun _ h'' => ihw hb h''

end

/-- The analysis of every expression ends with a value and no operator left, or with
the fault of a division: no other fault ever occurs. -/
theorem analyzeExpr_safe {w : List Token} {s : List Char} (h : Derives .expr w)
    (hs : Spells w s) : ∃ r, Returns (fun fuel => analyzeExpr fuel s calcInit) r ∧
      ((∃ ret this, r = .ok (ret, this) ∧ this.oprStack = [] ∧ this.numStack ≠ []) ∨
        r = .error .divByZero ∨ r = .error .divOverflow) := by
  refine ⟨_, analyzeExpr_returns hs h.separated calcInit, ?_⟩
  have hw : Safe (Has [] 0) (feed w calcInit) := feed_safe h (by simp [Closed])
    ⟨rfl, [], rfl, by simp, le_rfl⟩
  have hend : Safe (fun p : ℤ × Calc => p.2.oprStack = [] ∧ p.2.numStack ≠ [])
      (feed w calcInit >>= finish) := by
    refine hw.bind fun this hhas => ?_
    obtain ⟨_, oprs, hstack, hopr, hn⟩ := hhas
    rw [List.append_nil] at hstack
    simp only [finish, hstack]
    refine (settle_safe hopr (by omega)).bind fun nums hnum => ?_
    cases nums with
    | nil =>
        simp only [List.length_nil] at hnum
        omega
    | cons ret nums => exact ⟨rfl, by simp⟩
  cases hr : feed w calcInit >>= finish with
  | error fault =>
      rw [hr] at hend
      rcases hend with rfl | rfl
      · exact .inr (.inl rfl)
      · exact .inr (.inr rfl)
  | ok p =>
      rw [hr] at hend
      exact .inl ⟨p.1, p.2, rfl, hend⟩

/-- The expression that the program analyses when it is given none. -/
theorem analyzeExpr_safe_default : ∃ r,
    Returns (fun fuel => analyzeExpr fuel "1 -+- 2".toList calcInit) r ∧
      ((∃ ret this, r = .ok (ret, this) ∧ this.oprStack = [] ∧ this.numStack ≠ []) ∨
        r = .error .divByZero ∨ r = .error .divOverflow) :=
  let one : Numeral := ⟨['1'], by decide, List.all_eq_true.mp (by decide)⟩
  let two : Numeral := ⟨['2'], by decide, List.all_eq_true.mp (by decide)⟩
  analyzeExpr_safe (w := [.num one, .opr .sub, .opr .add, .opr .sub, .num two])
    (.binop .sub (.operand (.number one))
      (.sign .add (.inl rfl) (.sign .sub (.inr rfl) (.number two))))
    (.token (.num one) (.blank rfl (.token (.opr .sub) (.token (.opr .add)
      (.token (.opr .sub) (.blank rfl (.token (.num two) .nil)))))))

theorem spells_chars (w : List Token) : Spells w (w.flatMap Token.chars) := by
  induction w with
  | nil => exact .nil
  | cons t w ih => exact .token t ih

/-- The least `int` divided by `-1`: `((0-2147483647)-1)/(0-1)`. -/
theorem divOverflow_reached : ¬ ∀ (w : List Token) (s : List Char), Derives .expr w → Spells w s →
    ∃ r, Returns (fun fuel => analyzeExpr fuel s calcInit) r ∧
      ((∃ ret this, r = .ok (ret, this) ∧ this.oprStack = [] ∧ this.numStack ≠ []) ∨
        r = .error .divByZero) := by
  intro h
  let zero : Numeral := ⟨['0'], by decide, List.all_eq_true.mp (by decide)⟩
  let one : Numeral := ⟨['1'], by decide, List.all_eq_true.mp (by decide)⟩
  let max : Numeral := ⟨"2147483647".toList, by decide, List.all_eq_true.mp (by decide)⟩
  have hmin := Derives.binop .sub (.operand (.bracket (.binop .sub (.operand (.number zero))
    (.number max)))) (.number one)
  have hneg := Derives.binop .sub (.operand (.number zero)) (.number one)
  have hw := Derives.binop .div (.operand (.bracket hmin)) (.bracket hneg)
  obtain ⟨r, hr, hok⟩ := h _ _ hw (spells_chars _)
  rw [hr.unique (analyzeExpr_returns (spells_chars _) hw.separated calcInit)] at hok
  rcases hok with ⟨ret, this, hret, _⟩ | hret
  · cases hret
  · cases hret

end EmbeddedCode.Calculator
