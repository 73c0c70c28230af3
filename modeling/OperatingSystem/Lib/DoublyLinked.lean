/-
Doubly linked lists in a store, for any type of addresses.

The store is two functions, `next` and `prev`; `Linked` says that a list of
addresses is linked both ways, between `before` and `after`. A node between
two lists gives the list cut there (`linked_split`), and the two edits a
program makes are stated by what the new store must agree with
(`Linked.insert`, `Linked.remove`). `Forward` is the half that a walk along
`next` needs.
-/
import Mathlib.Data.List.Basic

namespace OperatingSystem.Lib

variable {α : Type*} {next prev next' prev' : α → α}
  {before after t n x : α} {A B : List α}

/-- The addresses are linked both ways, from `before` to `after`. -/
def Linked (next prev : α → α) (before : α) : List α → (after : α) → Prop
  | [], _ => True
  | a :: rest, after =>
      next a = rest.headD after ∧ prev a = before
        ∧ Linked next prev a rest after

instance decidableLinked [DecidableEq α] (next prev : α → α) (after : α) :
    (before : α) → (A : List α) → Decidable (Linked next prev before A after)
  | _, [] => inferInstanceAs (Decidable True)
  | before, a :: rest =>
      have := decidableLinked next prev after a rest
      inferInstanceAs (Decidable (next a = rest.headD after ∧ prev a = before
        ∧ Linked next prev a rest after))

/-- A list linked up to a node, the node, and what follows it. -/
theorem linked_split :
    Linked next prev before (A ++ t :: B) after
      ↔ Linked next prev before A t
        ∧ next t = B.headD after ∧ prev t = A.getLastD before
        ∧ Linked next prev t B after := by
  induction A generalizing before with
  | nil => simp [Linked]
  | cons a rest ih =>
      have hhead : (rest ++ t :: B).headD after = rest.headD t := by
        cases rest <;> rfl
      rw [List.cons_append, Linked, Linked, ih, hhead, List.getLastD_cons]
      tauto

/-- Only the nodes' own links matter. -/
theorem Linked.congr (h : Linked next prev before A after)
    (hnext : ∀ a ∈ A, next' a = next a) (hprev : ∀ a ∈ A, prev' a = prev a) :
    Linked next' prev' before A after := by
  induction A generalizing before with
  | nil => trivial
  | cons a rest ih =>
      obtain ⟨h₁, h₂, h₃⟩ := h
      refine ⟨?_, ?_, ih h₃ ?_ ?_⟩
      · rw [hnext a List.mem_cons_self, h₁]
      · rw [hprev a List.mem_cons_self, h₂]
      · exact fun b hb => hnext b (List.mem_cons_of_mem _ hb)
      · exact fun b hb => hprev b (List.mem_cons_of_mem _ hb)

/-- The list behind a changed node: only the first back link differs. -/
theorem Linked.rebase (h : Linked next prev before B after)
    (hnext : ∀ b ∈ B, next' b = next b)
    (hprev : ∀ b ∈ B.tail, prev' b = prev b)
    (hfirst : ∀ b ∈ B.head?, prev' b = x) :
    Linked next' prev' x B after := by
  cases B with
  | nil => trivial
  | cons b rest =>
      obtain ⟨h₁, -, h₃⟩ := h
      refine ⟨?_, hfirst b rfl, h₃.congr ?_ hprev⟩
      · rw [hnext b List.mem_cons_self, h₁]
      · exact fun c hc => hnext c (List.mem_cons_of_mem _ hc)

/-- Linking `n` in behind `t`. -/
theorem Linked.insert (h : Linked next prev before (A ++ t :: B) after)
    (hA : ∀ a ∈ A, next' a = next a) (hA' : ∀ a ∈ A, prev' a = prev a)
    (ht : next' t = n) (ht' : prev' t = prev t)
    (hn : next' n = B.headD after) (hn' : prev' n = t)
    (hB : ∀ b ∈ B, next' b = next b) (hB' : ∀ b ∈ B.tail, prev' b = prev b)
    (hfirst : ∀ b ∈ B.head?, prev' b = n) :
    Linked next' prev' before (A ++ t :: n :: B) after := by
  obtain ⟨h₁, -, h₃, h₄⟩ := linked_split.mp h
  refine linked_split.mpr ⟨h₁.congr hA hA', ht, ht'.trans h₃, ?_⟩
  exact ⟨hn, hn', h₄.rebase hB hB' hfirst⟩

/-- Unlinking `x` from behind `t`. -/
theorem Linked.remove (h : Linked next prev before (A ++ t :: x :: B) after)
    (hA : ∀ a ∈ A, next' a = next a) (hA' : ∀ a ∈ A, prev' a = prev a)
    (ht : next' t = next x) (ht' : prev' t = prev t)
    (hB : ∀ b ∈ B, next' b = next b) (hB' : ∀ b ∈ B.tail, prev' b = prev b)
    (hfirst : ∀ b ∈ B.head?, prev' b = t) :
    Linked next' prev' before (A ++ t :: B) after := by
  obtain ⟨h₁, -, h₃, hx, -, h₄⟩ := linked_split.mp h
  refine linked_split.mpr ⟨h₁.congr hA hA', ht.trans hx, ht'.trans h₃, ?_⟩
  exact h₄.rebase hB hB' hfirst

-- ========================================================= one direction

/-- The addresses are linked forwards, up to `after`. -/
def Forward (next : α → α) : List α → (after : α) → Prop
  | [], _ => True
  | a :: rest, after => next a = rest.headD after ∧ Forward next rest after

theorem Linked.forward (h : Linked next prev before A after) :
    Forward next A after := by
  induction A generalizing before with
  | nil => trivial
  | cons a rest ih => exact ⟨h.1, ih h.2.2⟩

/-- What follows a node of a list. -/
theorem Forward.next_eq (h : Forward next (A ++ t :: B) after) :
    next t = B.headD after := by
  induction A with
  | nil => exact h.1
  | cons a rest ih => exact ih h.2

theorem Forward.congr (h : Forward next A after)
    (hnext : ∀ a ∈ A, next' a = next a) : Forward next' A after := by
  induction A with
  | nil => trivial
  | cons a rest ih =>
      refine ⟨?_, ih h.2 fun b hb => hnext b (List.mem_cons_of_mem _ hb)⟩
      rw [hnext a List.mem_cons_self, h.1]

/-- Skipping `x` behind `t`. -/
theorem Forward.skip (h : Forward next (t :: x :: B) after)
    (ht : next' t = next x) (hB : ∀ b ∈ B, next' b = next b) :
    Forward next' (t :: B) after :=
  ⟨ht.trans h.2.1, h.2.2.congr hB⟩

end OperatingSystem.Lib
