/-
One list threaded through another.

Of the cells of a list some are `listed`, and the links of these form a
second list through the same cells, in the same order. The thread may
break off: a link is `nil` or leads to the next listed cell. Cells that are
not listed have no link. A thread that does not break off is `Unbroken`.

`firstListed` and `lastListed` are the ends of the thread's part in a
segment; `after` stands for what follows the segment, so that a segment can
be reasoned about where it is (`threaded_append`). `relink` is the edit
that a program makes to the last listed cell in front of some place.
-/
import Mathlib.Data.List.Basic

namespace OperatingSystem.Lib

/-- A cell: where it is, where its link leads, and whether it is listed. -/
structure Cell (α : Type*) where
  addr : α
  link : α
  listed : Bool

variable {α : Type*} {nil after after' a : α} {c : Cell α}
  {A B D : List (Cell α)}

/-- No cell of the segment is listed. -/
def NoneListed (A : List (Cell α)) : Prop := ∀ c ∈ A, c.listed = false

/-- The first listed cell, or `after`. -/
def firstListed (after : α) : List (Cell α) → α
  | [] => after
  | c :: rest => if c.listed then c.addr else firstListed after rest

/-- The last listed cell, or `before`. -/
def lastListed (before : α) : List (Cell α) → α
  | [] => before
  | c :: rest => lastListed (if c.listed then c.addr else before) rest

/-- Every link is `nil` or leads to the next listed cell. -/
def Threaded (nil after : α) : List (Cell α) → Prop
  | [] => True
  | c :: rest =>
      (c.link = nil ∨ c.listed = true ∧ c.link = firstListed after rest)
        ∧ Threaded nil after rest

/-- The link of the last listed cell, or `start`: where the thread leads
after the segment. -/
def lastLink (start : α) : List (Cell α) → α
  | [] => start
  | c :: rest => lastLink (if c.listed then c.link else start) rest

/-- The last listed cell gets the link `a`. -/
def relink (a : α) : List (Cell α) → List (Cell α)
  | [] => []
  | c :: rest =>
      if rest.any Cell.listed then c :: relink a rest
      else (if c.listed then { c with link := a } else c) :: rest

-- ============================================================== segments

theorem noneListed_iff : NoneListed A ↔ A.any Cell.listed = false := by
  simp [NoneListed]

theorem firstListed_append :
    firstListed after (A ++ B) = firstListed (firstListed after B) A := by
  induction A with
  | nil => rfl
  | cons c rest ih => rw [List.cons_append, firstListed, ih, firstListed]

theorem threaded_append : Threaded nil after (A ++ B)
    ↔ Threaded nil (firstListed after B) A ∧ Threaded nil after B := by
  induction A with
  | nil => simp [Threaded]
  | cons c rest ih =>
      rw [List.cons_append, Threaded, Threaded, ih, firstListed_append]
      tauto

theorem lastListed_append (before : α) :
    lastListed before (A ++ B) = lastListed (lastListed before A) B := by
  induction A generalizing before with
  | nil => rfl
  | cons c rest ih => rw [List.cons_append, lastListed, ih, lastListed]

theorem lastListed_none {before : α} (h : NoneListed A) :
    lastListed before A = before := by
  induction A with
  | nil => rfl
  | cons c rest ih =>
      rw [lastListed, h c List.mem_cons_self, if_neg Bool.false_ne_true]
      exact ih fun d hd => h d (List.mem_cons_of_mem _ hd)

theorem firstListed_none (h : NoneListed A) :
    firstListed after A = after := by
  induction A with
  | nil => rfl
  | cons c rest ih =>
      rw [firstListed, h c List.mem_cons_self, if_neg Bool.false_ne_true]
      exact ih fun d hd => h d (List.mem_cons_of_mem _ hd)

/-- The last listed cell of a segment that has one. -/
theorem exists_last (A : List (Cell α)) :
    NoneListed A ∨ ∃ B c D, A = B ++ c :: D ∧ c.listed = true
      ∧ NoneListed D := by
  induction A with
  | nil => exact .inl nofun
  | cons d rest ih =>
      rcases ih with hnone | ⟨B, c, D, rfl, hc, hD⟩
      · cases hd : d.listed with
        | true => exact .inr ⟨[], d, rest, rfl, hd, hnone⟩
        | false =>
            refine .inl fun e he => ?_
            rcases List.mem_cons.mp he with rfl | he
            · exact hd
            · exact hnone e he
      · exact .inr ⟨d :: B, c, D, rfl, hc, hD⟩

theorem lastListed_split (before : α) (hc : c.listed = true)
    (hD : NoneListed D) : lastListed before (B ++ c :: D) = c.addr := by
  rw [lastListed_append, lastListed, if_pos hc, lastListed_none hD]

/-- The first listed cell of a segment that has one. -/
theorem exists_first (A : List (Cell α)) :
    NoneListed A ∨ ∃ D c E, A = D ++ c :: E ∧ c.listed = true
      ∧ NoneListed D := by
  induction A with
  | nil => exact .inl nofun
  | cons d rest ih =>
      cases hd : d.listed with
      | true => exact .inr ⟨[], d, rest, rfl, hd, nofun⟩
      | false =>
          have hcons : ∀ {E : List (Cell α)}, NoneListed E →
              NoneListed (d :: E) := by
            intro E hE e he
            rcases List.mem_cons.mp he with rfl | he
            · exact hd
            · exact hE e he
          rcases ih with hnone | ⟨D, c, E, rfl, hc, hD⟩
          · exact .inl (hcons hnone)
          · exact .inr ⟨d :: D, c, E, rfl, hc, hcons hD⟩

theorem firstListed_split (hc : c.listed = true) (hD : NoneListed D) :
    firstListed after (D ++ c :: B) = c.addr := by
  rw [firstListed_append, firstListed_none hD, firstListed, if_pos hc]

/-- What follows a segment with a listed cell does not matter. -/
theorem firstListed_of_any (h : A.any Cell.listed = true) :
    firstListed after A = firstListed after' A := by
  rcases exists_first A with hnone | ⟨D, c, E, rfl, hc, hD⟩
  · rw [noneListed_iff.mp hnone] at h
    cases h
  · rw [firstListed_split hc hD, firstListed_split hc hD]

-- =========================================================== the thread

/-- A segment without listed cells does not care what follows. -/
theorem Threaded.of_none (h : Threaded nil after A) (hA : NoneListed A) :
    Threaded nil after' A := by
  induction A with
  | nil => trivial
  | cons c rest ih =>
      obtain ⟨hc, hrest⟩ := h
      refine ⟨.inl (hc.resolve_right fun hl => ?_),
        ih hrest fun d hd => hA d (List.mem_cons_of_mem _ hd)⟩
      rw [hA c List.mem_cons_self] at hl
      exact absurd hl.1 Bool.false_ne_true

/-- Only the last listed cell's link depends on what follows the
segment. -/
theorem Threaded.relast (h : Threaded nil after (B ++ c :: D))
    (hc : c.listed = true) (hD : NoneListed D)
    (ha : a = nil ∨ a = after') :
    Threaded nil after' (B ++ { c with link := a } :: D) := by
  obtain ⟨hB, -, hrest⟩ := threaded_append.mp h
  rw [firstListed, if_pos hc] at hB
  refine threaded_append.mpr ⟨?_, ?_, hrest.of_none hD⟩
  · rw [firstListed, if_pos hc]
    exact hB
  · rw [firstListed_none hD]
    exact ha.imp_right fun h => ⟨hc, h⟩

theorem relink_none (h : NoneListed A) : relink a A = A := by
  cases A with
  | nil => rfl
  | cons c rest =>
      have hrest : rest.any Cell.listed = false :=
        noneListed_iff.mp fun d hd => h d (List.mem_cons_of_mem _ hd)
      rw [relink, hrest, if_neg Bool.false_ne_true,
        h c List.mem_cons_self, if_neg Bool.false_ne_true]

theorem relink_split (hc : c.listed = true) (hD : NoneListed D) :
    relink a (B ++ c :: D) = B ++ { c with link := a } :: D := by
  induction B with
  | nil =>
      rw [List.nil_append, List.nil_append, relink, noneListed_iff.mp hD,
        if_neg Bool.false_ne_true, if_pos hc]
  | cons b rest ih =>
      have hany : (rest ++ c :: D).any Cell.listed = true := by
        simp [hc]
      rw [List.cons_append, relink, if_pos hany, ih, List.cons_append]

/-- A relinked segment leads to `a`, whatever it led to. -/
theorem Threaded.relink (h : Threaded nil after A) :
    Threaded nil a (relink a A) := by
  rcases exists_last A with hnone | ⟨B, c, D, rfl, hc, hD⟩
  · rw [relink_none hnone]
    exact h.of_none hnone
  · rw [relink_split hc hD]
    exact h.relast hc hD (.inr rfl)

theorem firstListed_relink :
    firstListed after (relink a A) = firstListed after A := by
  rcases exists_last A with hnone | ⟨B, c, D, rfl, hc, hD⟩
  · rw [relink_none hnone]
  · rw [relink_split hc hD, firstListed_append, firstListed_append,
      firstListed, firstListed]

theorem lastLink_append (start : α) :
    lastLink start (A ++ B) = lastLink (lastLink start A) B := by
  induction A generalizing start with
  | nil => rfl
  | cons c rest ih => rw [List.cons_append, lastLink, ih, lastLink]

theorem lastLink_none {start : α} (h : NoneListed A) :
    lastLink start A = start := by
  induction A with
  | nil => rfl
  | cons c rest ih =>
      rw [lastLink, h c List.mem_cons_self, if_neg Bool.false_ne_true]
      exact ih fun d hd => h d (List.mem_cons_of_mem _ hd)

theorem lastLink_split (start : α) (hc : c.listed = true)
    (hD : NoneListed D) : lastLink start (B ++ c :: D) = c.link := by
  rw [lastLink_append, lastLink, if_pos hc, lastLink_none hD]

/-- Behind a segment the thread leads to the next listed cell or nowhere,
if it leads to the segment's first listed cell or nowhere. -/
theorem Threaded.lastLink (h : Threaded nil after A) {start : α}
    (hstart : start = nil ∨ start = firstListed after A) :
    lastLink start A = nil ∨ lastLink start A = after := by
  induction A generalizing start with
  | nil => exact hstart
  | cons c rest ih =>
      obtain ⟨hc, hrest⟩ := h
      rw [Lib.lastLink]
      refine ih hrest ?_
      cases hl : c.listed with
      | true =>
          rw [if_pos rfl]
          exact hc.imp_right And.right
      | false =>
          rw [firstListed, hl, if_neg Bool.false_ne_true] at hstart
          rw [if_neg Bool.false_ne_true]
          exact hstart

/-- Relinking changes no address and lists nothing. -/
theorem map_relink {β : Type*} (f : α → Bool → β) :
    (Lib.relink a A).map (fun c => f c.addr c.listed)
      = A.map fun c => f c.addr c.listed := by
  rcases exists_last A with hnone | ⟨B, c, D, rfl, hc, hD⟩
  · rw [relink_none hnone]
  · rw [relink_split hc hD, List.map_append, List.map_append, List.map_cons,
      List.map_cons]

/-- Relinking changes the link of the last listed cell and nothing else. -/
theorem exists_relinked (before a : α) {c : Cell α} (hmem : c ∈ A) :
    ∃ d ∈ relink a A, d.addr = c.addr ∧ d.listed = c.listed
      ∧ (c.addr ≠ lastListed before A → d.link = c.link) := by
  rcases exists_last A with hnone | ⟨B, q, D, rfl, hq, hD⟩
  · rw [relink_none hnone]
    exact ⟨c, hmem, rfl, rfl, fun _ => rfl⟩
  · rw [relink_split hq hD, lastListed_split before hq hD]
    rcases List.mem_append.mp hmem with hB | hrest
    · exact ⟨c, by simp [hB], rfl, rfl, fun _ => rfl⟩
    · rcases List.mem_cons.mp hrest with rfl | hin
      · exact ⟨{ c with link := a }, by simp, rfl, rfl, fun h => absurd rfl h⟩
      · exact ⟨c, by simp [hin], rfl, rfl, fun _ => rfl⟩

-- =================================================== the unbroken thread

/-- Every link of a listed cell leads to the next one. -/
def Unbroken (nil after : α) : List (Cell α) → Prop
  | [] => True
  | c :: rest =>
      c.link = (if c.listed then firstListed after rest else nil)
        ∧ Unbroken nil after rest

instance decidableUnbroken [DecidableEq α] (nil after : α) :
    (A : List (Cell α)) → Decidable (Unbroken nil after A)
  | [] => inferInstanceAs (Decidable True)
  | c :: rest =>
      have := decidableUnbroken nil after rest
      inferInstanceAs (Decidable (c.link = (if c.listed
        then firstListed after rest else nil) ∧ Unbroken nil after rest))

theorem unbroken_append : Unbroken nil after (A ++ B)
    ↔ Unbroken nil (firstListed after B) A ∧ Unbroken nil after B := by
  induction A with
  | nil => simp [Unbroken]
  | cons c rest ih =>
      rw [List.cons_append, Unbroken, Unbroken, ih, firstListed_append]
      tauto

/-- A segment without listed cells does not care what follows. -/
theorem Unbroken.of_none (h : Unbroken nil after A) (hA : NoneListed A) :
    Unbroken nil after' A := by
  induction A with
  | nil => trivial
  | cons c rest ih =>
      obtain ⟨hc, hrest⟩ := h
      refine ⟨?_, ih hrest fun d hd => hA d (List.mem_cons_of_mem _ hd)⟩
      rw [hA c List.mem_cons_self, if_neg Bool.false_ne_true] at hc ⊢
      exact hc

/-- A relinked segment leads to `a`, whatever it led to. -/
theorem Unbroken.relink (h : Unbroken nil after A) :
    Unbroken nil a (relink a A) := by
  rcases exists_last A with hnone | ⟨B, c, D, rfl, hc, hD⟩
  · rw [relink_none hnone]
    exact h.of_none hnone
  · obtain ⟨hB, -, hrest⟩ := unbroken_append.mp h
    rw [firstListed, if_pos hc] at hB
    rw [relink_split hc hD]
    refine unbroken_append.mpr ⟨?_, ?_, hrest.of_none hD⟩
    · rw [firstListed, if_pos hc]
      exact hB
    · rw [if_pos hc, firstListed_none hD]

/-- Relinking the segment to where it leads changes nothing. -/
theorem Unbroken.relink_self (h : Unbroken nil a A) :
    Lib.relink a A = A := by
  rcases exists_last A with hnone | ⟨B, c, D, rfl, hc, hD⟩
  · exact relink_none hnone
  · obtain ⟨-, hlink, -⟩ := unbroken_append.mp h
    rw [if_pos hc, firstListed_none hD] at hlink
    rw [relink_split hc hD, ← hlink]

/-- The thread comes to what follows the segment. -/
theorem Unbroken.lastLink (h : Unbroken nil after A) {start : α}
    (hstart : start = firstListed after A) : lastLink start A = after := by
  induction A generalizing start with
  | nil => exact hstart
  | cons c rest ih =>
      obtain ⟨hc, hrest⟩ := h
      rw [Lib.lastLink]
      refine ih hrest ?_
      rw [firstListed] at hstart
      cases hl : c.listed with
      | true =>
          rw [hl, if_pos rfl] at hc
          rw [if_pos rfl]
          exact hc
      | false =>
          rw [hl, if_neg Bool.false_ne_true] at hstart
          rw [if_neg Bool.false_ne_true]
          exact hstart

end OperatingSystem.Lib
