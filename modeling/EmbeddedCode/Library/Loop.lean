import Mathlib.Order.Basic
import Mathlib.Tactic.TypeStar

/-!
# Loops with explicit fuel

A loop is given by one turn of its body. A turn either goes around again with a
new state, leaves with a result, or faults. `run` makes at most `fuel` turns and
returns `none` both when a turn faults and when the fuel is spent, so a theorem
that `run` returns `some` is a theorem of termination and of safety.
-/
namespace EmbeddedCode.Loop

variable {σ ρ : Type*}

inductive Turn (σ ρ : Type*) where
  | again (s : σ)
  | leave (r : ρ)
  deriving DecidableEq, Repr

def run (turn : σ → Option (Turn σ ρ)) : ℕ → σ → Option ρ
  | 0, _ => none
  | fuel + 1, s =>
      match turn s with
      | none => none
      | some (.leave r) => some r
      | some (.again s') => run turn fuel s'

variable {turn : σ → Option (Turn σ ρ)}

theorem run_leave {s : σ} {r : ρ} (h : turn s = some (.leave r)) (fuel : ℕ) :
    run turn (fuel + 1) s = some r := by
  simp only [run, h]

theorem run_again {s t : σ} (h : turn s = some (.again t)) (fuel : ℕ) :
    run turn (fuel + 1) s = run turn fuel t := by
  simp only [run, h]

/-- What the first turn of a loop did that has ended. -/
theorem run_cases {s : σ} {r : ρ} {fuel : ℕ} (h : run turn (fuel + 1) s = some r) :
    turn s = some (.leave r) ∨ ∃ t, turn s = some (.again t) ∧ run turn fuel t = some r := by
  cases hturn : turn s with
  | none => simp [run, hturn] at h
  | some t =>
      cases t with
      | leave r' =>
          rw [run_leave hturn] at h
          exact .inl (congrArg _ (congrArg _ (Option.some.inj h)))
      | again t =>
          rw [run_again hturn] at h
          exact .inr ⟨t, rfl, h⟩

/-- Fuel only bounds the turns: more of it never changes a result. -/
theorem run_mono {s : σ} {r : ρ} {fuel more : ℕ} (h : run turn fuel s = some r)
    (hle : fuel ≤ more) : run turn more s = some r := by
  induction fuel generalizing s more with
  | zero => simp [run] at h
  | succ fuel ih =>
      obtain ⟨more, rfl⟩ : ∃ m, more = m + 1 := ⟨more - 1, by omega⟩
      cases ht : turn s with
      | none => simp [run, ht] at h
      | some t =>
          cases t with
          | leave r' =>
              rw [run_leave ht] at h ⊢
              exact h
          | again s' =>
              rw [run_again ht] at h ⊢
              exact ih h (by omega)

/-- A fuelled computation returns `b`: every sufficient amount of fuel gives `b`. -/
def Returns {β : Type*} (f : ℕ → Option β) (b : β) : Prop :=
  ∃ n, ∀ fuel, n ≤ fuel → f fuel = some b

theorem run_returns {s : σ} {r : ρ} {fuel : ℕ} (h : run turn fuel s = some r) :
    Returns (fun fuel => run turn fuel s) r := ⟨fuel, fun _ => run_mono h⟩

theorem returns_leave {s : σ} {r : ρ} (h : turn s = some (.leave r)) :
    Returns (fun fuel => run turn fuel s) r := run_returns (run_leave h 0)

theorem Returns.again {s t : σ} {r : ρ} (h : Returns (fun fuel => run turn fuel t) r)
    (hs : turn s = some (.again t)) : Returns (fun fuel => run turn fuel s) r := by
  obtain ⟨n, hn⟩ := h
  have hrun : run turn (n + 1) s = some r := (run_again hs n).trans (hn n (Nat.le_refl n))
  exact run_returns hrun

/-- A loop that follows another one turn by turn returns when that one does. -/
theorem Returns.simulate {σ' ρ' : Type*} {turn' : σ' → Option (Turn σ' ρ')} {R : σ' → σ → Prop}
    {Q : ρ' → ρ → Prop}
    (hagain : ∀ s' t' s, R s' s → turn' s' = some (.again t') →
      ∃ t, turn s = some (.again t) ∧ R t' t)
    (hleave : ∀ s' r' s, R s' s → turn' s' = some (.leave r') →
      ∃ r, turn s = some (.leave r) ∧ Q r' r)
    {s' : σ'} {s : σ} {r' : ρ'} (hs : R s' s) (h : Returns (fun fuel => run turn' fuel s') r') :
    ∃ r, Returns (fun fuel => run turn fuel s) r ∧ Q r' r := by
  obtain ⟨fuel, h⟩ := h
  have hrun : run turn' fuel s' = some r' := h fuel (Nat.le_refl fuel)
  clear h
  induction fuel generalizing s' s with
  | zero => simp [run] at hrun
  | succ fuel ih =>
      cases hturn : turn' s' with
      | none => simp [run, hturn] at hrun
      | some t' =>
          cases t' with
          | leave r'' =>
              rw [run_leave hturn] at hrun
              obtain ⟨r, hr, hq⟩ := hleave s' r'' s hs hturn
              exact ⟨r, returns_leave hr, Option.some.inj hrun ▸ hq⟩
          | again t' =>
              rw [run_again hturn] at hrun
              obtain ⟨t, ht, htt⟩ := hagain s' t' s hs hturn
              obtain ⟨r, hr, hq⟩ := ih htt hrun
              exact ⟨r, hr.again ht, hq⟩

/-- What follows a loop without using fuel returns with it. -/
theorem Returns.bind {β γ : Type*} {f : ℕ → Option β} {b : β} (h : Returns f b)
    {g : β → Option γ} {c : γ} (hg : g b = some c) : Returns (fun fuel => (f fuel).bind g) c := by
  obtain ⟨n, h⟩ := h
  refine ⟨n, fun fuel hf => ?_⟩
  simpa only [h fuel hf, Option.bind_some] using hg

theorem Returns.unique {β : Type*} {f : ℕ → Option β} {b b' : β} (h : Returns f b)
    (h' : Returns f b') : b = b' := by
  obtain ⟨n, h⟩ := h
  obtain ⟨n', h'⟩ := h'
  have hb := h (max n n') (Nat.le_max_left _ _)
  rw [h' _ (Nat.le_max_right _ _)] at hb
  exact (Option.some.inj hb).symm

/-- What a computation returns is passed on to what follows it. -/
theorem Returns.of_bind {β γ : Type*} {f : ℕ → Option β} {b : β} (h : Returns f b)
    {g : β → Option γ} {c : γ} (hg : Returns (fun fuel => (f fuel).bind g) c) : g b = some c := by
  obtain ⟨n, h⟩ := h
  obtain ⟨n', hg⟩ := hg
  have hrun : (f (max n n')).bind g = some c := hg _ (Nat.le_max_right _ _)
  rwa [h _ (Nat.le_max_left _ _), Option.bind_some] at hrun

/-- Follow one pointer to its end: `while (cur->next) cur = cur->next`. -/
def lastTurn (next : σ → Option σ) (cur : σ) : Option (Turn σ σ) :=
  match next cur with
  | none => some (.leave cur)
  | some cur' => some (.again cur')

section Nested

/-!
The body of a loop may run loops itself, so a turn takes fuel of its own.
-/

variable {turn : ℕ → σ → Option (Turn σ ρ)} {s t u : σ} {r : ρ}

/-- With enough fuel for their inner loops, some turns lead from `s` to `t`. -/
def Leads (turn : ℕ → σ → Option (Turn σ ρ)) (s t : σ) : Prop :=
  ∃ n k, ∀ fuel, n ≤ fuel → ∀ more, run (turn fuel) (more + k) s = run (turn fuel) more t

/-- With enough fuel for its turns and their inner loops, the loop leaves with `r`. -/
def Exits (turn : ℕ → σ → Option (Turn σ ρ)) (s : σ) (r : ρ) : Prop :=
  ∃ n, ∀ fuel, n ≤ fuel → ∀ more, n ≤ more → run (turn fuel) more s = some r

theorem Leads.refl (s : σ) : Leads turn s s := ⟨0, 0, fun _ _ _ => rfl⟩

theorem Leads.trans (h : Leads turn s t) (h' : Leads turn t u) : Leads turn s u := by
  obtain ⟨n, k, h⟩ := h
  obtain ⟨n', k', h'⟩ := h'
  refine ⟨max n n', k' + k, fun fuel hf more => ?_⟩
  rw [← Nat.add_assoc, h fuel (by omega), h' fuel (by omega)]

theorem Leads.single (h : Returns (fun fuel => turn fuel s) (.again t)) : Leads turn s t := by
  obtain ⟨n, h⟩ := h
  exact ⟨n, 1, fun fuel hf more => run_again (h fuel hf) more⟩

theorem Exits.single (h : Returns (fun fuel => turn fuel s) (.leave r)) : Exits turn s r := by
  obtain ⟨n, h⟩ := h
  refine ⟨n + 1, fun fuel hf more hm => ?_⟩
  obtain ⟨more, rfl⟩ : ∃ m, more = m + 1 := ⟨more - 1, by omega⟩
  exact run_leave (h fuel (by omega)) more

theorem Leads.exits (h : Leads turn s t) (h' : Exits turn t r) : Exits turn s r := by
  obtain ⟨n, k, h⟩ := h
  obtain ⟨n', h'⟩ := h'
  refine ⟨max n n' + k, fun fuel hf more hm => ?_⟩
  obtain ⟨more, rfl⟩ : ∃ m, more = m + k := ⟨more - k, by omega⟩
  rw [h fuel (by omega), h' fuel (by omega) more (by omega)]

theorem Exits.returns (h : Exits turn s r) : Returns (fun fuel => run (turn fuel) fuel s) r := by
  obtain ⟨n, h⟩ := h
  exact ⟨n, fun fuel hf => h fuel hf fuel hf⟩

/-- A loop leaves when every turn keeps its invariant and brings a measure down. -/
theorem returns_of_measure {I : σ → Prop} {Q : ρ → Prop} (μ : σ → ℕ)
    (hturn : ∀ s, I s →
      (∃ t, Returns (fun fuel => turn fuel s) (.again t) ∧ I t ∧ μ t < μ s) ∨
      ∃ r, Returns (fun fuel => turn fuel s) (.leave r) ∧ Q r) (hs : I s) :
    ∃ r, Returns (fun fuel => run (turn fuel) fuel s) r ∧ Q r := by
  suffices h : ∀ k s, I s → μ s < k → ∃ r, Exits turn s r ∧ Q r by
    obtain ⟨r, hr, hq⟩ := h (μ s + 1) s hs (Nat.lt_succ_self _)
    exact ⟨r, hr.returns, hq⟩
  intro k
  induction k with
  | zero => exact fun s _ hlt => absurd hlt (Nat.not_lt_zero _)
  | succ k ih =>
      intro s hs hlt
      rcases hturn s hs with ⟨t, ht, hit, hdown⟩ | ⟨r, hr, hq⟩
      · obtain ⟨r, hr, hq⟩ := ih t hit (by omega)
        exact ⟨r, (Leads.single ht).exits hr, hq⟩
      · exact ⟨r, .single hr, hq⟩

end Nested

/-- Two computations that share their fuel, one after the other. -/
theorem Returns.andThen {β γ : Type*} {f : ℕ → Option β} {b : β} (h : Returns f b)
    {g : ℕ → β → Option γ} {c : γ} (hg : Returns (fun fuel => g fuel b) c) :
    Returns (fun fuel => (f fuel).bind (g fuel)) c := by
  obtain ⟨n, h⟩ := h
  obtain ⟨n', hg⟩ := hg
  refine ⟨max n n', fun fuel hf => ?_⟩
  simpa only [h fuel (by omega), Option.bind_some] using hg fuel (by omega)

theorem Returns.of_andThen {β γ : Type*} {f : ℕ → Option β} {b : β} (h : Returns f b)
    {g : ℕ → β → Option γ} {c : γ} (hg : Returns (fun fuel => (f fuel).bind (g fuel)) c) :
    Returns (fun fuel => g fuel b) c := by
  obtain ⟨n, h⟩ := h
  obtain ⟨n', hg⟩ := hg
  refine ⟨max n n', fun fuel hf => ?_⟩
  simpa only [h fuel (by omega), Option.bind_some] using hg fuel (by omega)

theorem Returns.congr {β : Type*} {f g : ℕ → Option β} {b : β} (h : Returns g b) (n : ℕ)
    (hfg : ∀ fuel, n ≤ fuel → f fuel = g fuel) : Returns f b := by
  obtain ⟨n', h⟩ := h
  exact ⟨max n n', fun fuel hf => (hfg fuel (by omega)).trans (h fuel (by omega))⟩

/-- A recursive function spends fuel on its own call. -/
theorem Returns.of_succ {β : Type*} {f : ℕ → Option β} {b : β}
    (h : Returns (fun fuel => f (fuel + 1)) b) : Returns f b := by
  obtain ⟨n, h⟩ := h
  refine ⟨n + 1, fun fuel hf => ?_⟩
  obtain ⟨fuel, rfl⟩ : ∃ m, fuel = m + 1 := ⟨fuel - 1, by omega⟩
  exact h fuel (by omega)

theorem returns_const {β : Type*} (b : β) : Returns (fun _ => some b) b := ⟨0, fun _ _ => rfl⟩

/-- More fuel never changes what a computation gives. -/
def Settles {β : Type*} (f : ℕ → Option β) : Prop :=
  ∀ n m b, n ≤ m → f n = some b → f m = some b

theorem settles_run (s : σ) : Settles fun fuel => run turn fuel s :=
  fun _ _ _ hle h => run_mono h hle

theorem settles_const {β : Type*} (b : Option β) : Settles fun _ => b := fun _ _ _ _ h => h

theorem Settles.andThen {β γ : Type*} {f : ℕ → Option β} (h : Settles f)
    {g : ℕ → β → Option γ} (hg : ∀ b, Settles fun fuel => g fuel b) :
    Settles fun fuel => (f fuel).bind (g fuel) := by
  intro n m c hle hc
  obtain ⟨b, hb, hgb⟩ := Option.bind_eq_some_iff.mp hc
  exact (congrArg (Option.bind · (g m)) (h n m b hle hb)).trans (hg b n m c hle hgb)

theorem Settles.returns {β : Type*} {f : ℕ → Option β} (h : Settles f) {n : ℕ} {b : β}
    (hn : f n = some b) : Returns f b := ⟨n, fun m hle => h n m b hle hn⟩

/-- `returns_of_measure` for a loop whose body runs no loop. -/
theorem run_of_measure {I : σ → Prop} {Q : ρ → Prop} (μ : σ → ℕ)
    (hturn : ∀ s, I s → (∃ t, turn s = some (.again t) ∧ I t ∧ μ t < μ s) ∨
      ∃ r, turn s = some (.leave r) ∧ Q r) {s : σ} (hs : I s) :
    ∃ r, Returns (fun fuel => run turn fuel s) r ∧ Q r := by
  refine returns_of_measure μ (fun s hs => ?_) hs
  rcases hturn s hs with ⟨t, ht, hit, hdown⟩ | ⟨r, hr, hq⟩
  · exact .inl ⟨t, ht ▸ returns_const _, hit, hdown⟩
  · exact .inr ⟨r, hr ▸ returns_const _, hq⟩

/-- The measure of the state that a loop starts with bounds its turns. -/
theorem run_within_measure {I : σ → Prop} {Q : ρ → Prop} (μ : σ → ℕ)
    (hturn : ∀ s, I s → (∃ t, turn s = some (.again t) ∧ I t ∧ μ t < μ s) ∨
      ∃ r, turn s = some (.leave r) ∧ Q r) {s : σ} (hs : I s) {fuel : ℕ} (h : μ s < fuel) :
    ∃ r, run turn fuel s = some r ∧ Q r := by
  induction fuel generalizing s with
  | zero => exact absurd h (Nat.not_lt_zero _)
  | succ fuel ih =>
      rcases hturn s hs with ⟨t, ht, hit, hdown⟩ | ⟨r, hr, hq⟩
      · rw [run_again ht]
        exact ih hit (by omega)
      · exact ⟨r, run_leave hr fuel, hq⟩

theorem run_some {I : σ → Prop} {Q : ρ → Prop}
    (hagain : ∀ s t, I s → turn s = some (.again t) → I t)
    (hleave : ∀ s r, I s → turn s = some (.leave r) → Q r) {s : σ} (hs : I s) {fuel : ℕ} {r : ρ}
    (h : run turn fuel s = some r) : Q r := by
  induction fuel generalizing s with
  | zero => cases h
  | succ fuel ih =>
      cases hturn : turn s with
      | none => simp [run, hturn] at h
      | some t =>
          cases t with
          | leave r' =>
              rw [run_leave hturn] at h
              cases h
              exact hleave s r hs hturn
          | again t =>
              rw [run_again hturn] at h
              exact ih (hagain s t hs hturn) h

/-- A loop along a sequence of states leaves at the first of them that passes a test, and needs an
outcome of the test up to there. -/
theorem returns_iff_first {s : ℕ → σ} {test : ℕ → Option Bool} {r : ℕ → ρ} {start : ℕ} {result : ρ}
    (hturn : ∀ k, start ≤ k → turn (s k) =
      (test k).map fun found => if found then .leave (r k) else .again (s (k + 1))) :
    Returns (fun fuel => run turn fuel (s start)) result ↔
      ∃ n, start ≤ n ∧ r n = result ∧ test n = some true ∧
        ∀ k, start ≤ k → k < n → test k = some false := by
  constructor
  · rintro ⟨fuel, h⟩
    refine run_some (I := fun t => ∃ n, start ≤ n ∧ t = s n ∧
        ∀ k, start ≤ k → k < n → test k = some false)
      (Q := fun result => ∃ n, start ≤ n ∧ r n = result ∧ test n = some true ∧
        ∀ k, start ≤ k → k < n → test k = some false) ?_ ?_
      ⟨start, Nat.le_refl _, rfl, fun k hle hlt => absurd hlt (Nat.not_lt.mpr hle)⟩
      (h fuel (Nat.le_refl fuel))
    · rintro _ t ⟨n, hn, rfl, hbefore⟩ hnext
      rw [hturn n hn] at hnext
      obtain ⟨found, htest, hnext⟩ := Option.map_eq_some_iff.mp hnext
      cases found with
      | true => cases hnext
      | false =>
          cases hnext
          refine ⟨n + 1, Nat.le_succ_of_le hn, rfl, fun k hle hlt => ?_⟩
          rcases Nat.lt_succ_iff_lt_or_eq.mp hlt with hlt | rfl
          · exact hbefore k hle hlt
          · exact htest
    · rintro _ result ⟨n, hn, rfl, hbefore⟩ hnext
      rw [hturn n hn] at hnext
      obtain ⟨found, htest, hnext⟩ := Option.map_eq_some_iff.mp hnext
      cases found with
      | true =>
          cases hnext
          exact ⟨n, hn, rfl, htest, hbefore⟩
      | false => cases hnext
  · rintro ⟨n, hn, rfl, htest, hbefore⟩
    induction hd : n - start generalizing start with
    | zero =>
        obtain rfl : n = start := by omega
        apply returns_leave
        rw [hturn n hn, htest]
        rfl
    | succ d ih =>
        have hnext : turn (s start) = some (.again (s (start + 1))) := by
          rw [hturn start (Nat.le_refl _), hbefore start (Nat.le_refl _) (by omega)]
          rfl
        have hrest : Returns (fun fuel => run turn fuel (s (start + 1))) (r n) :=
          ih (fun k hk => hturn k (by omega)) (by omega) (fun k hk => hbefore k (by omega))
            (by omega)
        exact hrest.again hnext

end EmbeddedCode.Loop
