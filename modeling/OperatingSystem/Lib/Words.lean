/-
Memory as a mapped range of 64-bit words.

An access outside the range, or one that is not aligned, has no result.
Addresses are integers and a word is an integer too: what a program keeps
there is an address, a `long`, or an `int` in the lower half of the word
(`i32` reads it, `withLow` writes it and leaves the upper half alone).
-/
import OperatingSystem.Lib.Buffer

namespace OperatingSystem.Lib

/-- The value of a `long` computation, wrapped to 64 bits. -/
@[irreducible] def i64 (n : Int) : Int := Int.bmod n (2 ^ 64)

theorem i64_of_range {n : Int} (hlo : -9223372036854775808 ≤ n)
    (hhi : n < 9223372036854775808) : i64 n = n := by
  unfold i64
  rw [Int.bmod_def]
  omega

/-- A wrapped value is the one in range that differs by a multiple of
`2 ^ 64`. -/
theorem i64_eq_iff {n k : Int} : i64 n = k ↔ -9223372036854775808 ≤ k
    ∧ k < 9223372036854775808 ∧ (18446744073709551616 : Int) ∣ n - k := by
  unfold i64
  rw [Int.bmod_def]
  omega

theorem i64_add (n k : Int) : i64 (i64 n + k) = i64 (n + k) := by
  unfold i64
  exact Int.bmod_add_bmod

/-- Only 0 is its own double. -/
theorem i64_double_iff {n : Int} : i64 (i64 n + i64 n) = i64 n
    ↔ (18446744073709551616 : Int) ∣ n := by
  unfold i64
  rw [Int.bmod_def, Int.bmod_def]
  omega

/-- Word `w` with the `int` in its lower half replaced by `v`. -/
def withLow (w v : Int) : Int := w - i32 w + v

theorem i32_withLow {w v : Int} (hlo : -2147483648 ≤ v)
    (hhi : v < 2147483648) : i32 (withLow w v) = v := by
  unfold withLow i32
  rw [Int.bmod_def, Int.bmod_def]
  omega

/-- `size` mapped bytes from `base` on, read word by word. -/
structure Words where
  base : Int
  size : Int
  word : Int → Int

namespace Words

variable {m m' : Words} {a b v w : Int}

/-- The word at `a` is aligned and mapped. -/
def Mapped (m : Words) (a : Int) : Prop :=
  m.base ≤ a ∧ a + 8 ≤ m.base + m.size ∧ a % 8 = 0

instance : Decidable (m.Mapped a) := by
  unfold Mapped
  infer_instance

/-- `v` written at `a`. -/
def put (m : Words) (a v : Int) : Words :=
  { m with word := fun x => if x = a then v else m.word x }

def load (m : Words) (a : Int) : Option Int :=
  if m.Mapped a then some (m.word a) else none

def store (m : Words) (a v : Int) : Option Words :=
  if m.Mapped a then some (m.put a v) else none

@[simp] theorem put_base : (m.put a v).base = m.base := rfl

@[simp] theorem put_size : (m.put a v).size = m.size := rfl

@[simp] theorem mapped_put : (m.put a v).Mapped b ↔ m.Mapped b := Iff.rfl

@[simp] theorem put_word_self : (m.put a v).word a = v := if_pos rfl

theorem put_word_ne (h : b ≠ a) : (m.put a v).word b = m.word b := if_neg h

/-- Where two memories agree, they agree after the same write. -/
theorem put_word_congr {m' : Words} (h : m'.word b = m.word b) :
    (m'.put a v).word b = (m.put a v).word b := by
  by_cases hb : b = a
  · rw [hb, put_word_self, put_word_self]
  · rw [put_word_ne hb, put_word_ne hb, h]

/-- Writing what is there already changes nothing. -/
theorem put_word (h : m.word a = v) : m.put a v = m := by
  unfold put
  congr 1
  funext x
  by_cases hx : x = a
  · rw [if_pos hx, hx, h]
  · rw [if_neg hx]

theorem load_of_mapped (h : m.Mapped a) : m.load a = some (m.word a) :=
  if_pos h

theorem store_of_mapped (h : m.Mapped a) : m.store a v = some (m.put a v) :=
  if_pos h

theorem load_eq_some (h : m.load a = some v) : m.Mapped a ∧ v = m.word a := by
  unfold load at h
  split at h
  case isTrue hin => exact ⟨hin, (Option.some.inj h).symm⟩
  case isFalse => cases h

theorem store_eq_some (h : m.store a v = some m') :
    m.Mapped a ∧ m' = m.put a v := by
  unfold store at h
  split at h
  case isTrue hin => exact ⟨hin, (Option.some.inj h).symm⟩
  case isFalse => cases h

end Words

end OperatingSystem.Lib
