/-
Blocks from `malloc`, cell by cell, and the C strings in them.

A cell has a value once one has been stored there. Before that it is
indeterminate, and a read of it has no result; neither has an access outside
the block. So an operation that has a result has stayed inside and has read
nothing that was never written.

`filled nul s n` is the shape a growing buffer keeps: `n` cells that begin with
`s` and are `nul` from there on.
-/
import Mathlib.Algebra.Group.Nat.Defs
import Mathlib.Data.List.Basic

namespace OperatingSystem.Lib

/-- The cells of a block, `none` where nothing has been stored yet. -/
abbrev Cells (α : Type*) := List (Option α)

namespace Cells

variable {α : Type*} {c c' : Cells α} {a b nul : α} {s : List α} {i n : Nat}

/-- `malloc(n)`. -/
def malloc (n : Nat) : Cells α := List.replicate n none

/-- `realloc(c, n)`: what is there stays, what is new is indeterminate. -/
def realloc (c : Cells α) (n : Nat) : Cells α :=
  c.take n ++ List.replicate (n - c.length) none

/-- `cells[i]`, read. -/
def load (cells : Cells α) (i : Nat) : Option α := (cells[i]?).join

/-- `c[i] = a`. -/
def store (c : Cells α) (i : Nat) (a : α) : Option (Cells α) :=
  if i < c.length then some (c.set i (some a)) else none

/-- `a` in each of the first `n` cells. -/
def fill (c : Cells α) (n : Nat) (a : α) : Option (Cells α) :=
  if n ≤ c.length then some (List.replicate n (some a) ++ c.drop n) else none

section Strings

variable [DecidableEq α]

/-- The string at the start of the block: what comes before its `nul`. -/
def str (nul : α) : Cells α → Option (List α)
  | [] => none
  | none :: _ => none
  | some a :: rest =>
      if a = nul then some [] else (str nul rest).map (a :: ·)

/-- `strcpy(dst, src)`. -/
def strcpy (nul : α) (dst src : Cells α) : Option (Cells α) := do
  let s ← str nul src
  if s.length + 1 ≤ dst.length then
    some (s.map some ++ some nul :: dst.drop (s.length + 1))
  else none

end Strings

-- ============================================================ the accesses

theorem store_of_lt (h : i < c.length) (a : α) :
    store c i a = some (c.set i (some a)) := if_pos h

/-- The cell behind a prefix. -/
theorem load_append (c₁ c₂ : Cells α) (a : α) :
    load (c₁ ++ some a :: c₂) c₁.length = some a := by
  unfold load
  rw [List.getElem?_append_right (Nat.le_refl _), Nat.sub_self]
  rfl

theorem store_append (c₁ c₂ : Cells α) (x : Option α) (a : α) :
    store (c₁ ++ x :: c₂) c₁.length a = some (c₁ ++ some a :: c₂) := by
  rw [store_of_lt (by simp)]
  simp

/-- A block that grows keeps its cells. -/
theorem realloc_of_le (h : c.length ≤ n) :
    realloc c n = c ++ List.replicate (n - c.length) none := by
  unfold realloc
  rw [List.take_of_length_le h]

theorem length_realloc (h : c.length ≤ n) : (realloc c n).length = n := by
  rw [realloc_of_le h, List.length_append, List.length_replicate]
  omega

/-- A read that starts further on. -/
theorem load_drop (c : Cells α) (p i : Nat) :
    load (c.drop p) i = load c (p + i) := by
  unfold load
  rw [List.getElem?_drop]

-- ============================================================= the strings

section Strings

variable [DecidableEq α]

theorem str_append (hs : ∀ a ∈ s, a ≠ nul) (rest : Cells α) :
    str nul (s.map some ++ some nul :: rest) = some s := by
  induction s with
  | nil => exact if_pos rfl
  | cons a s ih =>
      have ha : a ≠ nul := hs a List.mem_cons_self
      rw [List.map_cons, List.cons_append, str, if_neg ha,
        ih fun b hb => hs b (List.mem_cons_of_mem a hb)]
      rfl

/-- A write behind the end of the string is not seen. -/
theorem str_set (h : str nul c = some s) (hi : s.length < i) (x : Option α) :
    str nul (c.set i x) = some s := by
  induction c generalizing s i with
  | nil => cases h
  | cons y rest ih =>
      obtain ⟨i, rfl⟩ := Nat.exists_eq_add_one.mpr (Nat.zero_lt_of_lt hi)
      rw [List.set_cons_succ]
      cases y with
      | none => cases h
      | some a =>
          unfold str at h ⊢
          by_cases ha : a = nul
          · rwa [if_pos ha] at h ⊢
          · rw [if_neg ha] at h ⊢
            obtain ⟨s', hs', rfl⟩ := Option.map_eq_some_iff.mp h
            rw [ih hs' (Nat.lt_of_succ_lt_succ hi)]
            rfl

theorem strcpy_append (hs : ∀ a ∈ s, a ≠ nul) (rest dst : Cells α)
    (hfit : s.length < dst.length) :
    strcpy nul dst (s.map some ++ some nul :: rest)
      = some (s.map some ++ some nul :: dst.drop (s.length + 1)) := by
  unfold strcpy
  rw [str_append hs, Option.bind_eq_bind, Option.bind_some,
    if_pos (Nat.succ_le_of_lt hfit)]

end Strings

-- ======================================================= a growing buffer

/-- `n` cells: `s`, and `nul` from there on. -/
def filled (nul : α) (s : List α) (n : Nat) : Cells α :=
  s.map some ++ List.replicate (n - s.length) (some nul)

theorem length_filled (h : s.length ≤ n) (nul : α) :
    (filled nul s n).length = n := by
  unfold filled
  rw [List.length_append, List.length_map, List.length_replicate]
  omega

theorem fill_malloc (n : Nat) (nul : α) :
    fill (malloc n) n nul = some (filled nul [] n) := by
  unfold fill malloc filled
  simp

/-- Behind `s` there is a `nul`, and more of them. -/
theorem filled_eq (h : s.length < n) : filled nul s n
    = s.map some ++ some nul :: List.replicate (n - s.length - 1) (some nul) := by
  unfold filled
  obtain ⟨k, hk⟩ : ∃ k, n - s.length = k + 1 := ⟨n - s.length - 1, by omega⟩
  rw [hk, List.replicate_succ]
  rfl

/-- Storing the next value. -/
theorem store_filled (h : s.length < n) (a : α) :
    store (filled nul s n) s.length a = some (filled nul (s ++ [a]) n) := by
  have hlen : (s.map (some : α → Option α)).length = s.length := List.length_map _
  have hrest : n - (s ++ [a]).length = n - s.length - 1 := by
    rw [List.length_append, List.length_singleton]
    omega
  rw [filled_eq h, ← hlen, store_append, filled, hrest, List.map_append,
    List.append_assoc, hlen]
  rfl

/-- A value that is `nul` itself is not seen. -/
theorem filled_nul (h : s.length < n) :
    filled nul (s ++ [nul]) n = filled nul s n := by
  have hrest : n - (s ++ [nul]).length = n - s.length - 1 := by
    rw [List.length_append, List.length_singleton]
    omega
  rw [filled_eq h, filled, hrest, List.map_append, List.append_assoc]
  rfl

/-- A full block gets one more cell, for the `nul`. -/
theorem realloc_filled (s : List α) (nul : α) :
    store (realloc (filled nul s s.length) (s.length + 1)) s.length nul
      = some (s.map some ++ [some nul]) := by
  have hre : realloc (filled nul s s.length) (s.length + 1)
      = s.map some ++ [none] := by
    have hlen := length_filled (Nat.le_refl s.length) nul
    rw [realloc_of_le (by omega), hlen, Nat.add_sub_cancel_left, filled,
      Nat.sub_self]
    simp
  have hlen : (s.map (some : α → Option α)).length = s.length := List.length_map _
  rw [hre, ← hlen, store_append]

/-- A string is copied to a block of zeros. -/
theorem strcpy_filled [DecidableEq α] (hs : ∀ a ∈ s, a ≠ nul)
    (h : s.length < n) (rest : Cells α) :
    strcpy nul (filled nul [] n) (s.map some ++ some nul :: rest)
      = some (filled nul s n) := by
  have hlen := length_filled (s := []) (Nat.zero_le n) nul
  rw [strcpy_append hs rest _ (by rw [hlen]; exact h), filled_eq h]
  unfold filled
  simp [Nat.sub_sub]

end Cells

end OperatingSystem.Lib
