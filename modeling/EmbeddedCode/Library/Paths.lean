import Mathlib.Data.List.Basic
import Mathlib.Data.List.Infix
import Mathlib.Data.Nat.Notation
import Mathlib.Tactic.TypeStar

/-!
# Paths and the directories that they lead to

A directory is the list of the names from the root to it. A path goes up and down from a
directory, and going up from the root stays there. On its own, a path is a number of steps up
followed by names.
-/
namespace EmbeddedCode.Paths

variable {ν : Type*}

inductive Seg (ν : Type*) where
  | up
  | down (name : ν)
  deriving DecidableEq, Repr

def follow (dir : List ν) : Seg ν → List ν
  | .up => dir.dropLast
  | .down name => dir ++ [name]

def walk (dir : List ν) (path : List (Seg ν)) : List ν := path.foldl follow dir

/-- A path in which nothing goes up behind a name. -/
structure Reduced (ν : Type*) where
  ups : ℕ
  names : List ν
  deriving DecidableEq, Repr

namespace Reduced

def add (r : Reduced ν) : Seg ν → Reduced ν
  | .down name => {r with names := r.names ++ [name]}
  | .up => if r.names.isEmpty then {r with ups := r.ups + 1} else {r with names := r.names.dropLast}

/-- The directory that a reduced path leads to. -/
def target (r : Reduced ν) (dir : List ν) : List ν := dir.take (dir.length - r.ups) ++ r.names

theorem follow_target (r : Reduced ν) (dir : List ν) (seg : Seg ν) :
    follow (r.target dir) seg = (r.add seg).target dir := by
  obtain ⟨ups, names⟩ := r
  cases seg with
  | down name => exact List.append_assoc ..
  | up =>
      cases names with
      | nil =>
          have hlen : (dir.take (dir.length - ups)).length = dir.length - ups := by simp
          simp only [follow, target, add, List.isEmpty_nil, if_true, List.append_nil]
          rw [List.dropLast_eq_take, hlen, List.take_take]
          congr 1
          omega
      | cons name names =>
          exact List.dropLast_append_of_ne_nil (List.cons_ne_nil name names)

end Reduced

def reduce (path : List (Seg ν)) : Reduced ν := path.foldl Reduced.add ⟨0, []⟩

theorem walk_target (path : List (Seg ν)) (r : Reduced ν) (dir : List ν) :
    walk (r.target dir) path = (path.foldl Reduced.add r).target dir := by
  induction path generalizing r with
  | nil => rfl
  | cons seg path ih =>
      rw [List.foldl_cons, ← ih, ← Reduced.follow_target]
      rfl

/-- A path leads where its reduced form leads. -/
theorem walk_eq_target (dir : List ν) (path : List (Seg ν)) :
    walk dir path = (reduce path).target dir := by
  have hempty : (⟨0, []⟩ : Reduced ν).target dir = dir := by
    simp [Reduced.target]
  have hwalk := walk_target path ⟨0, []⟩ dir
  rwa [hempty] at hwalk

/-- The path leads back into the directory that it starts from: its names start with the ones
that its steps up have left. -/
def Rejoins (dir : List ν) (r : Reduced ν) : Prop := dir.drop (dir.length - r.ups) <+: r.names

instance [DecidableEq ν] (dir : List ν) (r : Reduced ν) : Decidable (Rejoins dir r) :=
  inferInstanceAs (Decidable (_ <+: _))

theorem prefix_target_iff (dir : List ν) (r : Reduced ν) :
    dir <+: r.target dir ↔ Rejoins dir r := by
  conv_lhs =>
    lhs
    rw [← List.take_append_drop (dir.length - r.ups) dir]
  exact List.prefix_append_right_inj _

theorem walk_append (dir : List ν) (p q : List (Seg ν)) :
    walk dir (p ++ q) = walk (walk dir p) q := List.foldl_append

section Text

/-! ## Paths as text -/

def slash : UInt8 := 47

def dot : UInt8 := 46

/-- A component of a path. Empty components and `.` lead nowhere. -/
def segment (component : List UInt8) : Option (Seg (List UInt8)) :=
  if component = [] ∨ component = [dot] then none
  else if component = [dot, dot] then some .up
  else some (.down component)

def segments (text : List UInt8) : List (Seg (List UInt8)) := (text.splitOn slash).filterMap segment

theorem segments_append (p q : List UInt8) :
    segments (p ++ slash :: q) = segments p ++ segments q := by
  rw [segments, List.splitOn_append_cons_self, List.filterMap_append]
  rfl

theorem segments_slash (p : List UInt8) : segments (p ++ [slash]) = segments p := by
  rw [segments_append]
  exact List.append_nil _

def startDir (dir : List (List UInt8)) (text : List UInt8) : List (List UInt8) :=
  if text.head? = some slash then [] else dir

def resolve (dir : List (List UInt8)) (text : List UInt8) : List (List UInt8) :=
  walk (startDir dir text) (segments text)

theorem resolve_append (dir : List (List UInt8)) (p q : List UInt8) :
    resolve dir (p ++ slash :: q) = walk (resolve dir (p ++ [slash])) (segments q) := by
  have hstart : startDir dir (p ++ slash :: q) = startDir dir (p ++ [slash]) := by
    cases p <;> rfl
  rw [resolve, resolve, segments_append, segments_slash, walk_append, hstart]

end Text

end EmbeddedCode.Paths
