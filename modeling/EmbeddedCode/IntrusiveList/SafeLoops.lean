import EmbeddedCode.IntrusiveList.Circle
import Mathlib.Algebra.Group.Defs
import Mathlib.Data.UInt

/-!
# Loops over a list that lose their nodes

`list_for_each_safe`, `list_for_each_entry_safe` and `list_for_each_entry_safe_2` of
`1207/05kernel_list/list.h`, which has the text of `1220/03btree/list.h`. The body is that of
`test.c`: a node that meets a condition is unlinked, and the structure around it is freed. The
entry loops compute with addresses, which are numbers that wrap.
-/
namespace EmbeddedCode.IntrusiveList

open LinkedList Loop

section
variable {Λ : Type} [DecidableEq Λ]

/-- `free` of the structure around a node. It must be allocated. -/
def Heads.free (m : Heads Λ) (list : Λ) : Option (Heads Λ) :=
  if m.live list then some {m with live := Function.update m.live list false} else none

/-- The condition reads the structure around the node. -/
def Heads.test (m : Heads Λ) (cond : Λ → Bool) (list : Λ) : Option Bool :=
  if m.live list then some (cond list) else none

/-- The body of the loops. -/
def Heads.drop (m : Heads Λ) (cond : Λ → Bool) (list : Λ) : Option (Heads Λ) := do
  if ← m.test cond list then do
    let m ← m.del list
    m.free list
  else some m

/-- The state holds `cur`, `tmp` and the nodes that the body has been run for. -/
def safeTurn (cond : Λ → Bool) (head : Λ) :
    Heads Λ × Λ × Λ × List Λ → Option (Turn (Heads Λ × Λ × Λ × List Λ) (Heads Λ × List Λ))
  | (m, cur, tmp, visited) =>
      if cur = head then some (.leave (m, visited))
      else do
        let m ← m.drop cond cur
        let next ← m.readNext tmp
        some (.again (m, tmp, next, visited ++ [cur]))

def listForEachSafe (cond : Λ → Bool) (fuel : ℕ) (m : Heads Λ) (head : Λ) :
    Option (Heads Λ × List Λ) := do
  let cur ← m.readNext head
  let tmp ← m.readNext cur
  run (safeTurn cond head) fuel (m, cur, tmp, [])

section Entries
variable [AddGroup Λ] (offset : Λ)

def listEntry (ptr : Λ) : Λ := ptr - offset

def member (ptr : Λ) : Λ := ptr + offset

omit [DecidableEq Λ] in
theorem member_listEntry (ptr : Λ) : member offset (listEntry offset ptr) = ptr :=
  sub_add_cancel ptr offset

/-- `tmp` is a node, and `ptr` the structure around one. -/
def entrySafeTurn (cond : Λ → Bool) (head : Λ) :
    Heads Λ × Λ × Λ × List Λ → Option (Turn (Heads Λ × Λ × Λ × List Λ) (Heads Λ × List Λ))
  | (m, ptr, tmp, visited) =>
      if member offset ptr = head then some (.leave (m, visited))
      else do
        let m ← m.drop cond (member offset ptr)
        let next ← m.readNext tmp
        some (.again (m, listEntry offset tmp, next, visited ++ [ptr]))

def listForEachEntrySafe (cond : Λ → Bool) (fuel : ℕ) (m : Heads Λ) (head : Λ) :
    Option (Heads Λ × List Λ) := do
  let first ← m.readNext head
  let ptr := listEntry offset first
  let tmp ← m.readNext (member offset ptr)
  run (entrySafeTurn offset cond head) fuel (m, ptr, tmp, [])

/-- `ptr` and `tmp` are structures around nodes. -/
def entrySafeTurn2 (cond : Λ → Bool) (head : Λ) :
    Heads Λ × Λ × Λ × List Λ → Option (Turn (Heads Λ × Λ × Λ × List Λ) (Heads Λ × List Λ))
  | (m, ptr, tmp, visited) =>
      if member offset ptr = head then some (.leave (m, visited))
      else do
        let m ← m.drop cond (member offset ptr)
        let next ← m.readNext (member offset tmp)
        some (.again (m, tmp, listEntry offset next, visited ++ [ptr]))

def listForEachEntrySafe2 (cond : Λ → Bool) (fuel : ℕ) (m : Heads Λ) (head : Λ) :
    Option (Heads Λ × List Λ) := do
  let first ← m.readNext head
  let ptr := listEntry offset first
  let next ← m.readNext (member offset ptr)
  run (entrySafeTurn2 offset cond head) fuel (m, ptr, listEntry offset next, [])

end Entries

/-- The nodes `gone` have been freed, and nothing outside `cells` has been written to. -/
structure Freed (cells gone : List Λ) (m m' : Heads Λ) : Prop where
  live : ∀ l, m'.live l = (m.live l && !decide (l ∈ gone))
  next : ∀ l, l ∉ cells → m'.next l = m.next l
  prev : ∀ l, l ∉ cells → m'.prev l = m.prev l

variable {m m' m'' : Heads Λ} {head a tmp : Λ} {us vs xs cells cells' gone gone' : List Λ}
  {cond : Λ → Bool}

theorem Freed.refl (cells : List Λ) (m : Heads Λ) : Freed cells [] m m :=
  ⟨by simp, fun _ _ => rfl, fun _ _ => rfl⟩

theorem Freed.trans (h : Freed cells gone m m') (h' : Freed cells' gone' m' m'')
    (hsub : cells' ⊆ cells) : Freed cells (gone ++ gone') m m'' where
  live l := by
    rw [h'.live, h.live]
    simp [Bool.and_assoc, Bool.decide_or]
  next l hl := (h'.next l fun hmem => hl (hsub hmem)).trans (h.next l hl)
  prev l hl := (h'.prev l fun hmem => hl (hsub hmem)).trans (h.prev l hl)

namespace Circular

/-- The body keeps a node or takes it out of the list. -/
theorem drop (h : Circular m head (us ++ a :: vs)) (cond : Λ → Bool) :
    ∃ m', m.drop cond a = some m' ∧ Circular m' head (us ++ [a].filter (!cond ·) ++ vs) ∧
      Freed (head :: (us ++ a :: vs)) ([a].filter cond) m m' := by
  have hlive : m.live a = true := h.live a (by simp)
  have htest : m.test cond a = some (cond a) := if_pos hlive
  cases hcond : cond a with
  | false =>
      refine ⟨m, ?_, ?_, ?_⟩
      · simp [Heads.drop, htest, hcond]
      · simpa [hcond] using h
      · simpa [hcond] using Freed.refl _ m
  | true =>
      obtain ⟨m₁, hdel, h₁, hr, -⟩ := h.del
      have hlive₁ : m₁.live a = true := hr.live ▸ hlive
      refine ⟨{m₁ with live := Function.update m₁.live a false}, ?_, ⟨?_, fun l hl => ?_⟩,
        fun l => ?_, hr.next, hr.prev⟩
      · simp [Heads.drop, htest, hcond, hdel, Heads.free, hlive₁]
      · simpa [hcond] using h₁.ring
      · have hmem : l ∈ head :: (us ++ vs) := by simpa [hcond] using hl
        have hne : l ≠ a := ne_of_mem_of_not_mem hmem h.not_mem
        exact (Function.update_of_ne hne _ _).trans (h₁.live l hmem)
      · simp only [hcond, List.filter_cons_of_pos, List.filter_nil, List.mem_singleton, hr.live]
        rcases eq_or_ne l a with rfl | hne
        · simp
        · simp [hne]

omit [DecidableEq Λ] in
/-- What is read at the rest of a list is its second node, if there is a rest. -/
theorem exists_readNext (h : Circular m head (us ++ vs)) :
    ∃ next, m.readNext (vs.headD head) = some next ∧
      ∀ a ys, vs = a :: ys → next = ys.headD head := by
  cases vs with
  | nil => exact ⟨_, h.readNext_head, nofun⟩
  | cons b zs =>
      refine ⟨_, h.readNext, ?_⟩
      rintro a ys ⟨⟩
      rfl

/-- The rest of the list is visited, and `tmp` is ahead of it as long as there is a rest. -/
theorem run_safeTurn (h : Circular m head (us ++ vs))
    (htmp : ∀ a ys, vs = a :: ys → tmp = ys.headD head) (visited : List Λ) :
    ∃ m', Returns (fun fuel => run (safeTurn cond head) fuel (m, vs.headD head, tmp, visited))
        (m', visited ++ vs) ∧
      Circular m' head (us ++ vs.filter (!cond ·)) ∧
      Freed (head :: (us ++ vs)) (vs.filter cond) m m' := by
  induction vs generalizing m us tmp visited with
  | nil =>
      refine ⟨m, returns_leave ?_, by simpa using h, by simpa using Freed.refl _ m⟩
      simp [safeTurn]
  | cons a ys ih =>
      obtain ⟨m₁, hdrop, h₁, hfreed₁⟩ := h.drop cond
      obtain ⟨next, hread, hnext⟩ := h₁.exists_readNext
      obtain ⟨m', hreturns, h', hfreed'⟩ := ih h₁ hnext (visited ++ [a])
      have hne : a ≠ head := h.ne_head (by simp)
      have hturn : safeTurn cond head (m, a, tmp, visited) =
          some (.again (m₁, ys.headD head, next, visited ++ [a])) := by
        simp only [safeTurn, if_neg hne, hdrop, htmp a ys rfl, hread, Option.bind_eq_bind,
          Option.bind_some]
      refine ⟨m', ?_, ?_, ?_⟩
      · have hagain := hreturns.again hturn
        rwa [List.append_assoc] at hagain
      · rwa [List.append_assoc, ← List.filter_append] at h'
      · have htrans := hfreed₁.trans hfreed' ?_
        · rwa [← List.filter_append] at htrans
        · intro l hl
          simp only [List.mem_cons, List.mem_append, List.mem_filter, List.not_mem_nil] at hl ⊢
          tauto

end Circular

section Entries
variable [AddGroup Λ] {offset : Λ}

/-- A loop over nodes, and a loop over the structures around them that looks ahead to `tmp`. -/
def Ahead (offset : Λ) (ahead : Λ → Λ) (s t : Heads Λ × Λ × Λ × List Λ) : Prop :=
  t = (s.1, listEntry offset s.2.1, ahead s.2.2.1, s.2.2.2.map (listEntry offset))

theorem Ahead.returns (ahead : Λ → Λ) {turn : Heads Λ × Λ × Λ × List Λ →
      Option (Turn (Heads Λ × Λ × Λ × List Λ) (Heads Λ × List Λ))}
    (hturn : ∀ m cur tmp visited, turn (m, listEntry offset cur, ahead tmp, visited) =
      if cur = head then some (.leave (m, visited))
      else do
        let m ← m.drop cond cur
        let next ← m.readNext tmp
        some (.again (m, listEntry offset tmp, ahead next, visited ++ [listEntry offset cur])))
    {cur : Λ} (h : Returns (fun fuel => run (safeTurn cond head) fuel (m, cur, tmp, [])) (m', xs)) :
    Returns (fun fuel => run turn fuel (m, listEntry offset cur, ahead tmp, []))
      (m', xs.map (listEntry offset)) := by
  suffices hfollow : ∃ r, Returns (fun fuel => run turn fuel
      (m, listEntry offset cur, ahead tmp, [])) r ∧ r = (m', xs.map (listEntry offset)) by
    obtain ⟨r, hr, rfl⟩ := hfollow
    exact hr
  refine Returns.simulate (R := Ahead offset ahead)
    (Q := fun r r' => r' = (r.1, r.2.map (listEntry offset))) ?_ ?_ rfl h
  · rintro ⟨m, cur, tmp, visited⟩ t' _ rfl hstep
    simp only [safeTurn] at hstep
    split_ifs at hstep with hcur
    · cases hstep
    · obtain ⟨m₁, hdrop, hstep⟩ := Option.bind_eq_some_iff.mp hstep
      obtain ⟨next, hread, hstep⟩ := Option.bind_eq_some_iff.mp hstep
      cases hstep
      refine ⟨(m₁, listEntry offset tmp, ahead next, visited.map (listEntry offset) ++
        [listEntry offset cur]), ?_, by simp [Ahead]⟩
      simp [hturn, hcur, hdrop, hread]
  · rintro ⟨m, cur, tmp, visited⟩ r _ rfl hstep
    simp only [safeTurn] at hstep
    split_ifs at hstep with hcur
    · cases hstep
      exact ⟨_, (hturn ..).trans (if_pos hcur), rfl⟩
    · obtain ⟨m₁, hdrop, hstep⟩ := Option.bind_eq_some_iff.mp hstep
      obtain ⟨next, hread, hstep⟩ := Option.bind_eq_some_iff.mp hstep
      cases hstep

/-- The three loops return, run their body once for every node in the order of the list, and
leave the nodes that do not meet the condition. The others are freed, and nothing outside of
the list is written to. -/
theorem safe_loops (offset : Λ) (cond : Λ → Bool) (h : Circular m head xs) :
    ∃ m', Returns (fun fuel => listForEachSafe cond fuel m head) (m', xs) ∧
      Returns (fun fuel => listForEachEntrySafe offset cond fuel m head)
        (m', xs.map (listEntry offset)) ∧
      Returns (fun fuel => listForEachEntrySafe2 offset cond fuel m head)
        (m', xs.map (listEntry offset)) ∧
      Circular m' head (xs.filter (!cond ·)) ∧ Freed (head :: xs) (xs.filter cond) m m' := by
  have hstart : Circular m head ([] ++ xs) := h
  obtain ⟨tmp, hread, htmp⟩ := hstart.exists_readNext
  obtain ⟨m', hreturns, h', hfreed⟩ := hstart.run_safeTurn htmp []
  rw [List.nil_append] at hreturns
  refine ⟨m', ?_, ?_, ?_, h', hfreed⟩
  · simpa only [listForEachSafe, h.readNext_head, hread, Option.bind_eq_bind, Option.bind_some]
      using hreturns
  · simp only [listForEachEntrySafe, h.readNext_head, member_listEntry, hread, Option.bind_eq_bind,
      Option.bind_some]
    apply Ahead.returns id _ hreturns
    intro m cur tmp visited
    simp only [entrySafeTurn, member_listEntry]
    rfl
  · simp only [listForEachEntrySafe2, h.readNext_head, member_listEntry, hread,
      Option.bind_eq_bind, Option.bind_some]
    apply Ahead.returns (listEntry offset) _ hreturns
    intro m cur tmp visited
    simp only [entrySafeTurn2, member_listEntry]

end Entries

end

section Three

def threeNodes : Heads UInt64 where
  live l := l ≤ 3
  prev l := if l = 0 then 3 else l - 1
  next l := if l = 3 then 0 else l + 1

theorem circular_threeNodes : Circular threeNodes 0 [1, 2, 3] where
  ring := ⟨by decide, ⟨rfl, rfl, rfl, rfl⟩, ⟨rfl, rfl, rfl, rfl⟩⟩
  live := List.all_eq_true.mp (by decide)

/-- Two nodes are dropped one after the other, and the last one is kept. -/
theorem safe_loops_three : ∃ m',
    Returns (fun fuel => listForEachSafe (· != 3) fuel threeNodes 0) (m', [1, 2, 3]) ∧
      Returns (fun fuel => listForEachEntrySafe 16 (· != 3) fuel threeNodes 0)
        (m', [-15, -14, -13]) ∧
      Returns (fun fuel => listForEachEntrySafe2 16 (· != 3) fuel threeNodes 0)
        (m', [-15, -14, -13]) ∧
      Circular m' 0 [3] ∧ Freed [0, 1, 2, 3] [1, 2] threeNodes m' :=
  safe_loops 16 (· != 3) circular_threeNodes

end Three

end EmbeddedCode.IntrusiveList
