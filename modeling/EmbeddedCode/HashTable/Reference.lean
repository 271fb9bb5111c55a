import EmbeddedCode.Library.CString
import EmbeddedCode.Library.Chained
import Mathlib.Data.Nat.Notation
import Mathlib.Logic.Function.Basic
import Mathlib.Tactic.SplitIfs

/-!
# The hash function and the reference map

What the two hash tables of `01c_datastruct/c_code_1102/1213` have in common: the hash
function, the sizes of the buffers, and the map from keys to contents that a sequence
of calls of `build` and `del` stands for.
-/
namespace EmbeddedCode.HashTable

open Chaining Loop

def arrSize : ℕ := 3

def nameLen : ℕ := 20

def contLen : ℕ := 100

/-- The value that `*key` adds to a `size_t`. A `char` is signed. -/
def charToSize (c : UInt8) : UInt64 := c.toInt8.toInt64.toUInt64

/-- The hash function with the number of lists as `size`. -/
def hashMod (size : UInt64) (key : CString) : ℕ :=
  (key.bytes.foldl (fun sum c => sum + charToSize c) 0 % size).toNat

def hashAlg (key : CString) : ℕ := hashMod 3 key

theorem hashAlg_lt (key : CString) : hashAlg key < arrSize := by
  unfold hashAlg hashMod
  rw [UInt64.toNat_mod]
  exact Nat.mod_lt _ (by decide)

/-- A byte from `0x80` on is negative, and the sum wraps. -/
example : hashAlg ⟨[0xff, 0x01], by decide⟩ = 0 := by decide

inductive Call where
  | build (key content : CString)
  | del (key : CString)
  deriving DecidableEq

namespace Call

def key : Call → CString
  | build key _ => key
  | del key => key

/-- What a call does to the map. -/
def apply (m : CString → Option CString) : Call → CString → Option CString
  | build key content =>
      Function.update m key <| some <|
        match m key with
        | none => content
        | some old => if content = old then old else old.append content
  | del key => Function.update m key none

end Call

/-- The map after some calls, of which the last comes first in the list. -/
def reference : List Call → CString → Option CString
  | [] => fun _ => none
  | call :: calls => call.apply (reference calls)

/-- The keys fit into their buffers, and so did the contents after every call. -/
def Fits : List Call → Prop
  | [] => True
  | call :: calls => call.key.strlen < nameLen ∧
      (∀ key v, reference (call :: calls) key = some v → v.strlen < contLen) ∧ Fits calls

/-- A deletion makes no content longer. -/
theorem fits_del {calls : List Call} {key : CString} (h : Fits calls) (hkey : key.strlen < nameLen)
    (hold : ∀ k v, reference calls k = some v → v.strlen < contLen) : Fits (.del key :: calls) := by
  refine ⟨hkey, fun k v hv => hold k v ?_, h⟩
  simp only [reference, Call.apply, Function.update_apply] at hv
  split_ifs at hv
  exact hv

/-- A table with the given lists of nodes and the given `search` answers as the map. -/
structure Answers {α : Type} (bucket : ℕ → α → Prop) (key content : α → CString)
    (search : ℕ → CString → Option (Option α)) (m : CString → Option CString) : Prop where
  unique : ∀ i j a b, bucket i a → bucket j b → key a = key b → a = b
  placed : ∀ i a, bucket i a → i = hashAlg (key a)
  search : ∀ k, ∃ r, Returns (fun fuel => search fuel k) r ∧ r.map content = m k ∧
    ∀ a ∈ r, bucket (hashAlg k) a ∧ key a = k

theorem answers_of_chained {α : Type} {bucket : ℕ → List α} {InBucket : ℕ → α → Prop}
    {key content : α → CString} {search : ℕ → CString → Option (Option α)}
    {m : CString → Option CString} (h : Chained hashAlg bucket key content m)
    (hiff : ∀ i < arrSize, ∀ a, InBucket i a ↔ a ∈ bucket i)
    (hsearch : ∀ k, ∃ r, Returns (fun fuel => search fuel k) r ∧ r.map content = m k ∧
      ∀ a ∈ r, a ∈ bucket (hashAlg k) ∧ key a = k) :
    Answers (fun i a => i < arrSize ∧ InBucket i a) key content search m where
  unique i j a b ha hb hab := h.inj ((hiff i ha.1 a).mp ha.2) ((hiff j hb.1 b).mp hb.2) hab
  placed i a ha := (h.placed i a ((hiff i ha.1 a).mp ha.2)).symm
  search k := by
    obtain ⟨r, hret, hr, hmem⟩ := hsearch k
    refine ⟨r, hret, hr, fun a ha => ?_⟩
    obtain ⟨hb, hk⟩ := hmem a ha
    exact ⟨⟨hashAlg_lt k, (hiff _ (hashAlg_lt k) a).mpr hb⟩, hk⟩

end EmbeddedCode.HashTable
