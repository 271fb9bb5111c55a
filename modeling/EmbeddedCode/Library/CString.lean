import Mathlib.Data.Int.Notation
import Mathlib.Data.List.TakeWhile
import Mathlib.Data.Nat.Notation
import Mathlib.Tactic.SplitIfs

/-!
# C strings

A string is the sequence of its bytes without the NUL at its end. A copy needs a
buffer that has room for that NUL as well, and is no result otherwise.
-/
namespace EmbeddedCode

structure CString where
  bytes : List UInt8
  noNul : 0 ∉ bytes
  deriving DecidableEq

namespace CString

def strlen (s : CString) : ℕ := s.bytes.length

/-- The bytes as `unsigned char`. The end of a string compares as the NUL. -/
def compareBytes : List UInt8 → List UInt8 → ℤ
  | [], [] => 0
  | [], b :: _ => -b.toNat
  | a :: _, [] => a.toNat
  | a :: as, b :: bs => if a = b then compareBytes as bs else a.toNat - b.toNat

def strcmp (s t : CString) : ℤ := compareBytes s.bytes t.bytes

def strcpy (size : ℕ) (s : CString) : Option CString := if s.strlen < size then some s else none

def append (s t : CString) : CString where
  bytes := s.bytes ++ t.bytes
  noNul := by
    rw [List.mem_append, not_or]
    exact ⟨s.noNul, t.noNul⟩

/-- `strncpy` from an array that starts with `src`: the copy stops at a NUL, and the rest is
filled with NULs. -/
def strncpy (size : ℕ) (src : List UInt8) : List UInt8 :=
  let copied := (src.take size).takeWhile (· != 0)
  copied ++ List.replicate (size - copied.length) 0

/-- `strcat` into the buffer of `s`. -/
def strcat (size : ℕ) (s t : CString) : Option CString := strcpy size (s.append t)

theorem compareBytes_eq_zero {as bs : List UInt8} (ha : 0 ∉ as) (hb : 0 ∉ bs) :
    compareBytes as bs = 0 ↔ as = bs := by
  have htoNat : ∀ c d : UInt8, (c.toNat : ℤ) = d.toNat → c = d := fun c d h =>
    UInt8.toNat.inj (Int.ofNat.inj h)
  induction as generalizing bs with
  | nil =>
      cases bs with
      | nil => simp [compareBytes]
      | cons b bs =>
          have hne : (0 : UInt8) ≠ b := fun he => hb (by simp [he])
          simp only [compareBytes, reduceCtorEq, iff_false]
          intro h
          exact hne (htoNat 0 b (by simp; omega))
  | cons a as ih =>
      cases bs with
      | nil =>
          have hne : (0 : UInt8) ≠ a := fun he => ha (by simp [he])
          simp only [compareBytes, reduceCtorEq, iff_false]
          intro h
          exact hne (htoNat 0 a (by simp; omega))
      | cons b bs =>
          rw [List.mem_cons, not_or] at ha hb
          simp only [compareBytes]
          split_ifs with hab
          · have hrest : compareBytes as bs = 0 ↔ as = bs := ih ha.2 hb.2
            simp [hab, hrest]
          · constructor
            · intro h
              exact absurd (htoNat a b (by omega)) hab
            · intro h
              exact absurd (List.cons.inj h).1 hab

theorem strcmp_eq_zero {s t : CString} : s.strcmp t = 0 ↔ s = t := by
  rw [strcmp, compareBytes_eq_zero s.noNul t.noNul]
  constructor
  · cases s
    cases t
    rintro ⟨⟩
    rfl
  · exact congrArg bytes

theorem strcpy_eq {size : ℕ} {s : CString} (h : s.strlen < size) : strcpy size s = some s :=
  if_pos h

theorem strcat_eq {size : ℕ} {s t : CString} (h : (s.append t).strlen < size) :
    strcat size s t = some (s.append t) := strcpy_eq h

section
variable {size : ℕ} {bytes rest : List UInt8}

theorem takeWhile_of_noNul (h : 0 ∉ bytes) : bytes.takeWhile (· != 0) = bytes :=
  List.takeWhile_eq_self_iff.mpr fun b hb => by
    simpa using ne_of_mem_of_not_mem hb h

/-- The string at the front of some bytes. -/
def front (bytes : List UInt8) : CString where
  bytes := bytes.takeWhile (· != 0)
  noNul hmem := by simpa using List.mem_takeWhile_imp hmem

theorem front_append (bytes rest : List UInt8) : front (bytes ++ 0 :: rest) = front bytes := by
  have htake : (bytes ++ 0 :: rest).takeWhile (· != 0) = bytes.takeWhile (· != 0) := by
    rw [List.takeWhile_append]
    split_ifs with hall
    · simp [(List.takeWhile_prefix _).eq_of_length hall]
    · rfl
  simp only [front, htake]

/-- A text with room for its NUL is copied, and what follows the NUL is not. -/
theorem strncpy_of_lt (h : 0 ∉ bytes) (hlt : bytes.length < size) :
    strncpy size (bytes ++ 0 :: rest) = bytes ++ List.replicate (size - bytes.length) 0 := by
  obtain ⟨n, hn⟩ : ∃ n, size - bytes.length = n + 1 := ⟨size - bytes.length - 1, by omega⟩
  have hcopied : ((bytes ++ 0 :: rest).take size).takeWhile (· != 0) = bytes := by
    rw [List.take_append, hn, List.take_succ_cons, List.take_of_length_le (by omega),
      List.takeWhile_append_of_pos]
    · simp
    · intro b hb
      simpa using ne_of_mem_of_not_mem hb h
  simp only [strncpy, hcopied]

theorem strncpy_of_le (h : 0 ∉ bytes) (hle : size ≤ bytes.length) :
    strncpy size (bytes ++ rest) = bytes.take size := by
  have hcopied : ((bytes ++ rest).take size).takeWhile (· != 0) = bytes.take size := by
    rw [List.take_append_of_le_length hle]
    exact takeWhile_of_noNul fun hmem => h (List.mem_of_mem_take hmem)
  simp only [strncpy, hcopied, List.length_take]
  simp [Nat.min_eq_left hle]

/-- A text that fits is copied up to its end. -/
theorem strncpy_of_noNul (h : 0 ∉ bytes) (hle : bytes.length ≤ size) :
    strncpy size bytes = bytes ++ List.replicate (size - bytes.length) 0 := by
  simp only [strncpy, List.take_of_length_le hle, takeWhile_of_noNul h]

/-- Without the NUL the copy goes on with the byte behind the text. -/
theorem strncpy_getElem? (h : 0 ∉ bytes) (hlt : bytes.length < size) {b : UInt8} (hb : b ≠ 0) :
    (strncpy size (bytes ++ b :: rest))[bytes.length]? = some b := by
  obtain ⟨n, hn⟩ : ∃ n, size - bytes.length = n + 1 := ⟨size - bytes.length - 1, by omega⟩
  have hcopied : ((bytes ++ b :: rest).take size).takeWhile (· != 0) =
      bytes ++ b :: (rest.take n).takeWhile (· != 0) := by
    rw [List.take_append, hn, List.take_succ_cons, List.take_of_length_le (by omega),
      List.takeWhile_append_of_pos]
    · simp [hb]
    · intro c hc
      simpa using ne_of_mem_of_not_mem hc h
  simp [strncpy, hcopied]

end

end CString

end EmbeddedCode
