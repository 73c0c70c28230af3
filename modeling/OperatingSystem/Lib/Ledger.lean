/-
The blocks a counter has given out, program-independent.

A block has a number, and the counter gives each number out once. `Issued`
says that a set of blocks is what has been given out: the numbers below the
counter are those of its blocks, of one block each. Whoever moves blocks
around (frees them, hands them over) keeps the set and so the ledger; only
giving out a block changes it (`Issued.give`). When all blocks of the set are
in a list, each once, their numbers are those from 1 on (`Issued.perm`).
-/
import Mathlib.Data.List.Nodup
import Mathlib.Data.Set.Function

namespace OperatingSystem.Lib

variable {β : Type*} {num : β → Nat} {brk : Nat} {S : Set β} {b : β}

/-- The counter, which is at `brk` now, has given out the blocks `S`. -/
def Issued (num : β → Nat) (brk : Nat) (S : Set β) : Prop :=
  Set.BijOn num S {n | 0 < n ∧ n < brk}

theorem Issued.pos (h : Issued num brk S) (hb : b ∈ S) : 0 < num b :=
  (h.mapsTo hb).1

theorem Issued.lt (h : Issued num brk S) (hb : b ∈ S) : num b < brk :=
  (h.mapsTo hb).2

theorem issued_empty (num : β → Nat) : Issued num 1 ∅ := by
  refine ⟨fun _ hb => hb.elim, fun _ hb => hb.elim, fun n hn => ?_⟩
  obtain ⟨hpos, hlt⟩ := hn
  omega

/-- The counter gives out one more. -/
theorem Issued.give (h : Issued num brk S) (hpos : 0 < brk) (hb : num b = brk) :
    Issued num (brk + 1) (insert b S) := by
  have hnew : num b ∉ {n | 0 < n ∧ n < brk} := by
    rw [hb]
    exact fun hn => Nat.lt_irrefl _ hn.2
  have hrange : insert (num b) {n | 0 < n ∧ n < brk}
      = {n | 0 < n ∧ n < brk + 1} := by
    ext n
    simp only [Set.mem_insert_iff, Set.mem_ofPred_eq, hb]
    omega
  unfold Issued
  rw [← hrange]
  exact Set.BijOn.insert h hnew

/-- A number that has not been given out is nobody's. -/
theorem Issued.fresh (h : Issued num brk S) (hb : brk ≤ num b) : b ∉ S :=
  fun hin => Nat.not_lt_of_le hb (h.lt hin)

/-- A list of all blocks that have been given out, each once, has each number
once. -/
theorem Issued.perm {l : List β} (h : Issued num brk {b | b ∈ l})
    (hl : l.Nodup) : (l.map num).Perm (List.range' 1 (brk - 1)) := by
  have hnodup : (l.map num).Nodup := hl.map_on fun a ha a' ha' => h.injOn ha ha'
  refine (List.perm_ext_iff_of_nodup hnodup List.nodup_range').mpr fun n => ?_
  rw [List.mem_map, List.mem_range'_1]
  constructor
  · rintro ⟨a, ha, rfl⟩
    have hpos := h.pos ha
    have hlt := h.lt ha
    omega
  · intro hn
    obtain ⟨a, ha, hnum⟩ := h.surjOn (show n ∈ {n | 0 < n ∧ n < brk} from
      ⟨by omega, by omega⟩)
    exact ⟨a, ha, hnum⟩

end OperatingSystem.Lib
