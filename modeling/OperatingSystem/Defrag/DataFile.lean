/-
What `main` writes to `data_file`: the logical blocks of the live files,
file after file, and no index block.

The stream of `Files` is stated by the leaves of a walk with the program's
own, wrapped block addresses. Position by position both readings of a
needed block have the same copy in `dest_buffer`, so the stream is the one
a reader of the image would produce.
-/
import OperatingSystem.Defrag.Compaction

namespace OperatingSystem.Defrag

open Lib (Buffer leavesRoots resolveRoots)

variable {g : Regions} {whole : Buffer} {s : State} {i k : Nat}

/-- What logical block `k` of the inode at `curr` holds. -/
def logicalBytes (g : Regions) (img : Buffer) (curr : Int) (k : Nat) :
    List UInt8 :=
  match resolve g img curr k with
  | some b => img.slice (g.blockAt b) g.blockSize
  | none => []

/-- A file of well-formed size is read position by position. -/
theorem fileBytes_eq (hwf : WellFormed whole g) (hi : i ∈ liveInodes g whole) :
    fileBytes g whole g.numIntInBlock i
      = (List.range (fileLength g whole (g.inode i))).flatMap fun k =>
          (resolveRoots (rawChild g whole) g.numIntInBlock
            (roots whole (g.inode i)) k).elim [] (rawBytes g whole) := by
  have hleaves := Lib.leavesRoots_eq (rawChild g whole) hwf.bounds.pos
    (roots whole (g.inode i)) (fileLength g whole (g.inode i))
  rw [Nat.min_eq_left (hwf.length_le hi)] at hleaves
  unfold fileBytes
  rw [← List.flatMap_map _ (fun o => Option.elim o [] (rawBytes g whole)),
    ← hleaves, List.flatMap_map]
  rfl

/-- The program's reading of a needed block is the image's own. -/
theorem rawBytes_eq (hwf : WellFormed whole g) {start : Nat → Int}
    (hp : Progress g whole g.numIntInBlock g.numInode.toNat start s)
    (hi : i ∈ liveInodes g whole) (hk : k < fileLength g whole (g.inode i)) :
    (resolveRoots (rawChild g whole) g.numIntInBlock (roots whole (g.inode i))
        k).elim [] (rawBytes g whole)
      = logicalBytes g whole (g.inode i) k := by
  have hpos := hwf.bounds.pos
  have hcap := Nat.lt_of_lt_of_le hk (hwf.length_le hi)
  obtain ⟨hlt, hlive⟩ := mem_liveInodes.mp hi
  obtain ⟨b, b', hb, hb', hsame⟩ :=
    (placed_exactly hwf hp hi).resolve hpos hk hcap
  obtain ⟨v, v', hv, hv', hraw⟩ :=
    (hp.placed i hlt hlive).2.1.mirror.resolve hpos hk hcap
  -- both have the same copy
  obtain rfl : b' = v' := Option.some.inj (hb'.symm.trans hv')
  have hlogical : logicalBytes g whole (g.inode i) k
      = whole.slice (g.blockAt b) g.blockSize := by
    unfold logicalBytes
    rw [show resolve g whole (g.inode i) k = some b from hb]
  rw [hlogical, hv, ← hsame]
  show whole.slice (g.block v) g.blockSize = _
  exact Buffer.slice_congr fun x hx hx' => (hraw x hx hx').symm

/-- The bytes written to `data_file`: every logical block of every live
file, each once, in the order of the files and of the blocks. -/
theorem data_file_stream (hwf : WellFormed whole g)
    (hrun : inodeLoop g whole = some s) :
    (∀ i ∈ liveInodes g whole, ∀ k < fileLength g whole (g.inode i),
        ∃ b, resolve g whole (g.inode i) k = some b)
      ∧ s.dataFile = (liveInodes g whole).flatMap fun i =>
          (List.range (fileLength g whole (g.inode i))).flatMap
            (logicalBytes g whole (g.inode i)) := by
  obtain ⟨start, hp⟩ := inodeLoop_spec hwf.bounds hrun
  refine ⟨fun i hi k hk => ?_, ?_⟩
  · obtain ⟨b, -, hb, -⟩ := (placed_exactly hwf hp hi).resolve hwf.bounds.pos
      hk (Nat.lt_of_lt_of_le hk (hwf.length_le hi))
    exact ⟨b, hb⟩
  · rw [hp.data]
    refine List.flatMap_congr fun i hi => ?_
    rw [fileBytes_eq hwf hi]
    refine List.flatMap_congr fun k hk => ?_
    exact rawBytes_eq hwf hp hi (List.mem_range.mp hk)

/-- The theorem for the example: block 1 first, then block 0. -/
theorem data_file_stream_sample : ∃ s,
    inodeLoop sampleRegions sample = some s
      ∧ s.dataFile = sample.slice 1128 4 ++ sample.slice 1124 4 := by
  obtain ⟨s, hrun⟩ : ∃ s, inodeLoop sampleRegions sample = some s :=
    Option.isSome_iff_exists.mp (by decide +kernel)
  obtain ⟨-, hstream⟩ := data_file_stream sample_wellFormed hrun
  refine ⟨s, hrun, hstream.trans ?_⟩
  decide +kernel

end OperatingSystem.Defrag
