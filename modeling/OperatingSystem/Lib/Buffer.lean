/-
Byte buffers as C sees them: a size, bytes at offsets from the start, and
accesses that either stay inside or have no result.

Offsets are integers, so that an address computed from a wild pointer is a
value like any other and only its use fails. A stored `int` is four bytes,
least significant first, in two's complement.

`Within` guards the checked operations (`memcpy`, `loadInt`, `storeInt`);
the unchecked ones behind them (`blit`, `int`, `putInt`) carry the algebra:
what a read sees after a write, by how the two windows lie.
-/
import Mathlib.Algebra.Group.Int.Defs
import Mathlib.Algebra.Group.Nat.Defs
import Mathlib.Data.Int.Init
import Mathlib.Data.List.Basic

namespace OperatingSystem.Lib

/-- The value of an `int` computation, wrapped to 32 bits. -/
@[irreducible] def i32 (n : Int) : Int := Int.bmod n (2 ^ 32)

/-- Nothing wraps inside the range of `int`. -/
theorem i32_of_range {n : Int} (hlo : -2147483648 ≤ n) (hhi : n < 2147483648) :
    i32 n = n := by
  unfold i32
  rw [Int.bmod_def]
  omega

theorem i32_lt (n : Int) : i32 n < 2147483648 := by
  unfold i32
  exact Int.bmod_lt (show 0 < 2 ^ 32 by decide)

/-- A value that is too large becomes smaller. -/
theorem i32_le {n : Int} (hlo : -2147483648 ≤ n) : i32 n ≤ n := by
  unfold i32
  rw [Int.bmod_def]
  omega

/-- `size` bytes, addressed from 0. -/
structure Buffer where
  size : Int
  byte : Int → UInt8

namespace Buffer

variable {b b' src : Buffer} {a d x n v : Int}

/-- `size` zero bytes. -/
def zero (size : Int) : Buffer := ⟨size, fun _ => 0⟩

/-- The `n` bytes from `a` lie inside the buffer. -/
def Within (b : Buffer) (a n : Int) : Prop := 0 ≤ a ∧ 0 ≤ n ∧ a + n ≤ b.size

instance : Decidable (b.Within a n) := by
  unfold Within
  infer_instance

/-- The bytes of `src` from `s`, laid over `b` at `d`. -/
def blit (b : Buffer) (d : Int) (src : Buffer) (s n : Int) : Buffer :=
  { b with byte := fun x =>
      if d ≤ x ∧ x < d + n then src.byte (x - d + s) else b.byte x }

/-- `memcpy(b + d, src + s, n)`. -/
def memcpy (b : Buffer) (d : Int) (src : Buffer) (s n : Int) :
    Option Buffer :=
  if b.Within d n ∧ src.Within s n then some (b.blit d src s n) else none

/-- The `int` stored at `a`. -/
@[irreducible] def int (b : Buffer) (a : Int) : Int :=
  i32 ((b.byte a).toNat + 256 * (b.byte (a + 1)).toNat
    + 65536 * (b.byte (a + 2)).toNat + 16777216 * (b.byte (a + 3)).toNat)

/-- `v` stored at `a`. -/
def putInt (b : Buffer) (a v : Int) : Buffer :=
  { b with byte := fun x =>
      if a ≤ x ∧ x < a + 4 then
        UInt8.ofNat (v / 256 ^ (x - a).toNat % 256).toNat
      else b.byte x }

/-- `*(int*)(b + a)`. -/
def loadInt (b : Buffer) (a : Int) : Option Int :=
  if b.Within a 4 then some (b.int a) else none

/-- `*(int*)(b + a) = v`. -/
def storeInt (b : Buffer) (a v : Int) : Option Buffer :=
  if b.Within a 4 then some (b.putInt a v) else none

/-- The `n` bytes from `a`. -/
def slice (b : Buffer) (a n : Int) : List UInt8 :=
  (List.range n.toNat).map fun i : Nat => b.byte (a + i)

/-- The two buffers agree on the `n` bytes from `a`. -/
def SameOn (b b' : Buffer) (a n : Int) : Prop :=
  ∀ x, a ≤ x → x < a + n → b'.byte x = b.byte x

-- ====================================================== what checks say

theorem memcpy_eq_some {s : Int} (h : b.memcpy d src s n = some b') :
    b.Within d n ∧ src.Within s n ∧ b' = b.blit d src s n := by
  unfold memcpy at h
  split at h
  case isTrue hin => exact ⟨hin.1, hin.2, (Option.some.inj h).symm⟩
  case isFalse => cases h

theorem loadInt_eq_some (h : b.loadInt a = some v) :
    b.Within a 4 ∧ v = b.int a := by
  unfold loadInt at h
  split at h
  case isTrue hin => exact ⟨hin, (Option.some.inj h).symm⟩
  case isFalse => cases h

theorem storeInt_eq_some (h : b.storeInt a v = some b') :
    b.Within a 4 ∧ b' = b.putInt a v := by
  unfold storeInt at h
  split at h
  case isTrue hin => exact ⟨hin, (Option.some.inj h).symm⟩
  case isFalse => cases h

theorem memcpy_of_within {s : Int} (hd : b.Within d n) (hs : src.Within s n) :
    b.memcpy d src s n = some (b.blit d src s n) := by
  unfold memcpy
  exact if_pos ⟨hd, hs⟩

theorem loadInt_of_within (h : b.Within a 4) :
    b.loadInt a = some (b.int a) := by
  unfold loadInt
  exact if_pos h

theorem storeInt_of_within (h : b.Within a 4) :
    b.storeInt a v = some (b.putInt a v) := by
  unfold storeInt
  exact if_pos h

@[simp] theorem blit_size {s : Int} : (b.blit d src s n).size = b.size := rfl

@[simp] theorem putInt_size : (b.putInt a v).size = b.size := rfl

-- ======================================================== read over write

theorem blit_byte_inside {s : Int} (hlo : d ≤ x) (hhi : x < d + n) :
    (b.blit d src s n).byte x = src.byte (x - d + s) :=
  if_pos ⟨hlo, hhi⟩

theorem blit_byte_outside {s : Int} (h : x < d ∨ d + n ≤ x) :
    (b.blit d src s n).byte x = b.byte x :=
  if_neg (by omega)

theorem putInt_byte_outside (h : x < a ∨ a + 4 ≤ x) :
    (b.putInt a v).byte x = b.byte x :=
  if_neg (by omega)

/-- An `int` is its four bytes, wherever they lie. -/
theorem int_eq_of_bytes {c : Int}
    (h : ∀ k, 0 ≤ k → k < 4 → b'.byte (c + k) = b.byte (a + k)) :
    b'.int c = b.int a := by
  have h0 := h 0 (by omega) (by omega)
  rw [Int.add_zero, Int.add_zero] at h0
  unfold int
  rw [h0, h 1 (by omega) (by omega), h 2 (by omega) (by omega),
    h 3 (by omega) (by omega)]

theorem int_lt (b : Buffer) (a : Int) : b.int a < 2147483648 := by
  unfold int
  exact i32_lt _

theorem int_congr (h : SameOn b b' a 4) : b'.int a = b.int a :=
  int_eq_of_bytes fun _ _ _ => h _ (by omega) (by omega)

/-- Byte `k` of a stored `int`. -/
theorem putInt_byte {k : Int} (hlo : 0 ≤ k) (hhi : k < 4) :
    ((b.putInt a v).byte (a + k)).toNat
      = (v / 256 ^ k.toNat % 256).toNat := by
  have hin : a ≤ a + k ∧ a + k < a + 4 := by omega
  unfold putInt
  simp only [hin, and_self, if_true]
  rw [show a + k - a = k by omega, UInt8.toNat_ofNat']
  omega

/-- A stored `int` reads back. -/
theorem putInt_int : (b.putInt a v).int a = i32 v := by
  have h0 := putInt_byte (b := b) (a := a) (v := v) (k := 0) (by omega) (by omega)
  have h1 := putInt_byte (b := b) (a := a) (v := v) (k := 1) (by omega) (by omega)
  have h2 := putInt_byte (b := b) (a := a) (v := v) (k := 2) (by omega) (by omega)
  have h3 := putInt_byte (b := b) (a := a) (v := v) (k := 3) (by omega) (by omega)
  rw [Int.add_zero] at h0
  unfold int i32
  rw [h0, h1, h2, h3]
  have hsum : ((v / 256 ^ (0 : Int).toNat % 256).toNat : Int)
      + 256 * ((v / 256 ^ (1 : Int).toNat % 256).toNat : Int)
      + 65536 * ((v / 256 ^ (2 : Int).toNat % 256).toNat : Int)
      + 16777216 * ((v / 256 ^ (3 : Int).toNat % 256).toNat : Int)
      = v % 2 ^ 32 := by
    simp only [Int.toNat_zero, Int.toNat_one, Int.reduceToNat, Int.reducePow]
    omega
  rw [hsum]
  exact Int.emod_bmod ..

/-- Storing the `int` that is there changes nothing. -/
theorem putInt_byte_same (h : b.int a = v) :
    (b.putInt a v).byte x = b.byte x := by
  by_cases hin : a ≤ x ∧ x < a + 4
  case neg => exact putInt_byte_outside (by omega)
  obtain ⟨k, rfl⟩ : ∃ k, x = a + k := ⟨x - a, by omega⟩
  have hbyte := putInt_byte (b := b) (a := a) (v := v) (k := k) (by omega)
    (by omega)
  refine UInt8.toNat_inj.mp (hbyte.trans ?_)
  unfold int i32 at h
  rw [Int.bmod_def] at h
  have h0 := (b.byte a).toNat_lt
  have h1 := (b.byte (a + 1)).toNat_lt
  have h2 := (b.byte (a + 2)).toNat_lt
  have h3 := (b.byte (a + 3)).toNat_lt
  have hk : k = 0 ∨ k = 1 ∨ k = 2 ∨ k = 3 := by omega
  rcases hk with rfl | rfl | rfl | rfl <;>
    simp only [Int.toNat_zero, Int.toNat_one, Int.reduceToNat, Int.reducePow,
      Int.add_zero] <;> split at h <;> omega

theorem putInt_int_outside {c : Int} (h : c + 4 ≤ a ∨ a + 4 ≤ c) :
    (b.putInt a v).int c = b.int c :=
  int_congr fun _ _ _ => putInt_byte_outside (by omega)

/-- A slice is its bytes. -/
theorem slice_congr {s : Int} (h : ∀ i, 0 ≤ i → i < n →
    b'.byte (a + i) = b.byte (s + i)) : b'.slice a n = b.slice s n := by
  unfold slice
  refine List.map_congr_left fun i hi => h i (by omega) ?_
  have := List.mem_range.mp hi
  omega

-- ============================================================ agreement

theorem SameOn.mono {c m : Int} (h : SameOn b b' a n) (hlo : a ≤ c)
    (hhi : c + m ≤ a + n) : SameOn b b' c m :=
  fun x hx hx' => h x (by omega) (by omega)

end Buffer

end OperatingSystem.Lib
