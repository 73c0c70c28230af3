/-
How much `Mem_Init` maps.

The length of the mapping is the region, a header for each eight bytes of
it and `*global_head`, rounded up to pages. `round_to` takes and computes
`int`s. Up to `INT_MAX` bytes that is what it should be: if rounding up to
pages leaves the range of an `int` the length comes out negative, and
nothing can be mapped. Behind that the length is too small, and a size that
is small again modulo `2 ^ 32` is mapped and reported in full.
-/
import OperatingSystem.Heap.Client

namespace OperatingSystem.Heap

open Lib (Words i32)

variable {s s' : State} {env : Env} {size val base : Int}

/-- The bytes of a region and its headers: each eight bytes may become a
block. -/
def worstCase (size : Int) : Int :=
  let r := (size + 7) / 8 * 8
  GLOBAL_SIZE + BLOCK_HEADER * (r / 8) + size

/-- Only the last addition of `round_to` can leave the range of an `int`. -/
theorem roundTo_last (hval : 1 ≤ val) (hval' : val < 2147483648)
    (hbase : 0 < base) (hbase' : base < 2147483648) :
    roundTo val base = i32 ((val - 1) / base * base + base) := by
  have hnonneg : 0 ≤ (val - 1) / base * base :=
    Int.mul_nonneg (Int.ediv_nonneg (by omega) (by omega)) (by omega)
  have hle : (val - 1) / base * base ≤ val - 1 :=
    Int.ediv_mul_le _ (by omega)
  unfold roundTo
  rw [Lib.i32_of_range (n := val) (by omega) (by omega),
    Lib.i32_of_range (n := val - 1) (by omega) (by omega),
    Lib.i32_of_range (n := base) (by omega) (by omega),
    Int.tdiv_eq_ediv_of_nonneg (by omega),
    Lib.i32_of_range (n := (val - 1) / base * base) (by omega) (by omega)]

/-- The result is large enough, or negative. -/
theorem roundTo_covers (val base : Int) (hval : 1 ≤ val)
    (hval' : val < 2147483648) (hbase : 0 < base)
    (hbase' : base < 2147483648) :
    val ≤ roundTo val base ∨ roundTo val base < 0 := by
  have hup := Int.lt_ediv_add_one_mul_self (val - 1) hbase
  rw [Int.add_mul, Int.one_mul] at hup
  have hle : (val - 1) / base * base ≤ val - 1 :=
    Int.ediv_mul_le _ (by omega)
  rw [roundTo_last hval hval' hbase hbase']
  unfold i32
  rw [Int.bmod_def]
  omega

/-- A `Mem_Init` that succeeds has mapped the first header. -/
theorem memInit_maps (h : memInit env s size = some (RETURN_SUCCESS, s')) :
    1 ≤ size ∧ 0 ≤ s'.mem.size
      ∧ s'.mem.size = roundTo ((roundTo size BLOCK_SIZE).tdiv BLOCK_SIZE
        * BLOCK_HEADER + size + GLOBAL_SIZE) env.pageSize := by
  unfold memInit at h
  split at h
  case isTrue => cases (Prod.mk.inj (Option.some.inj h)).1
  case isFalse =>
    split at h
    case isTrue => cases (Prod.mk.inj (Option.some.inj h)).1
    case isFalse hpos =>
      dsimp only at h
      split at h
      case h_1 => cases (Prod.mk.inj (Option.some.inj h)).1
      case h_2 base hmap =>
        simp only [State.setStatus, Option.bind_eq_bind,
          Option.bind_eq_some_iff] at h
        obtain ⟨s₁, h₁, s₂, h₂, s₃, h₃, s₄, ⟨w, hw, h₄⟩, h⟩ := h
        obtain ⟨⟨hlow, hhigh, -⟩, rfl⟩ := State.store_eq_some h₁
        obtain ⟨-, rfl⟩ := State.store_eq_some h₂
        obtain ⟨-, rfl⟩ := State.store_eq_some h₃
        obtain ⟨-, rfl⟩ := State.store_eq_some h₄
        obtain ⟨-, rfl⟩ := Prod.mk.inj (Option.some.inj h)
        dsimp only [Words.put_size] at hlow hhigh ⊢
        exact ⟨Int.not_le.mp hpos, by omega, rfl⟩

/-- A `Mem_Init` that returns 0 has mapped enough for the region and its
headers exactly up to the size at which these come to `INT_MAX` bytes. -/
theorem maps_enough_iff (hpage : 0 < env.pageSize)
    (hint : env.pageSize < 2147483648)
    (h : memInit env s size = some (RETURN_SUCCESS, s')) :
    worstCase size ≤ s'.mem.size ↔ size ≤ 429496719 := by
  obtain ⟨hlo, hmapped, hsize⟩ := memInit_maps h
  unfold worstCase GLOBAL_SIZE BLOCK_HEADER
  dsimp only
  constructor
  · intro hle
    have hlt : s'.mem.size < 2147483648 := hsize ▸ Lib.i32_lt _
    omega
  · intro hle
    obtain ⟨hge, hlt, height⟩ := roundTo_block hlo (by omega)
    have hblocks : (roundTo size BLOCK_SIZE).tdiv BLOCK_SIZE
        = (size + 7) / 8 := by
      rw [Int.tdiv_eq_ediv_of_nonneg (by omega)]
      rw [show BLOCK_SIZE = 8 from rfl] at hge hlt height ⊢
      omega
    rw [hblocks, BLOCK_HEADER, GLOBAL_SIZE] at hsize
    have hcovers := roundTo_covers ((size + 7) / 8 * 32 + size + 48)
      env.pageSize (by omega) (by omega) hpage hint
    omega

/-- The theorem for a region of 24 bytes. -/
theorem maps_enough_iff_small : worstCase 24 ≤ (opened 24).heap.mem.size := by
  have hrun : memInit machine State.fresh 24
      = some (RETURN_SUCCESS, (opened 24).heap) := by
    have hfst : ((memInit machine State.fresh 24).map Prod.fst)
        = some RETURN_SUCCESS := by decide +kernel
    obtain ⟨⟨r, s⟩, hrun, hr⟩ := Option.map_eq_some_iff.mp hfst
    obtain rfl : r = RETURN_SUCCESS := hr
    unfold opened
    rw [hrun]
    rfl
  exact (maps_enough_iff (by decide) (by decide) hrun).mpr (by decide)

/-- A region of more than `2 ^ 32` bytes on one page. -/
theorem maps_one_page : ¬∀ (env : Env) (s s' : State) (size : Int),
    0 < env.pageSize → env.pageSize < 2147483648 → 0 < size →
    size < 9223372036854775808 →
    memInit env s size = some (RETURN_SUCCESS, s') →
    worstCase size ≤ s'.mem.size := by
  intro hall
  have hfst : ((memInit machine State.fresh 4294967304).map fun r =>
      (r.1, r.2.mem.size)) = some (RETURN_SUCCESS, 4096) := by decide +kernel
  obtain ⟨⟨r, s⟩, hrun, hr⟩ := Option.map_eq_some_iff.mp hfst
  obtain ⟨hret, hmapped⟩ := Prod.mk.inj hr
  obtain rfl : r = RETURN_SUCCESS := hret
  have hle := hall machine State.fresh s 4294967304 (by decide) (by decide)
    (by decide) (by decide) hrun
  have hlarge : (4096 : Int) < worstCase 4294967304 := by decide
  exact absurd hle (by rw [show s.mem.size = 4096 from hmapped]; omega)

end OperatingSystem.Heap
