/-
Wait-for graphs, program-independent: a relation `r x y` read "x waits for
y". Two facts carry every no-deadlock argument over such a graph — a new
edge closes a cycle only if its target already reaches its source
(`acyclic_insert`), and a finite set without cycles has a member that
waits for nobody in the set (`exists_sink`).
-/
import Mathlib.Logic.Relation
import Mathlib.Data.Finset.Basic
import Mathlib.Data.Finite.Defs
import Mathlib.Order.WellFounded
import Mathlib.Data.Fintype.Card
import Mathlib.Data.Fintype.EquivFin

namespace OperatingSystem.Lib

open Relation (TransGen ReflTransGen)

variable {ι : Type*} {r r' : ι → ι → Prop}

/-- Nobody waits for itself, directly or through others. -/
def Acyclic (r : ι → ι → Prop) : Prop := ∀ x, ¬TransGen r x x

/-- Fewer waits, fewer cycles. -/
theorem Acyclic.mono (h : Acyclic r) (hsub : ∀ x y, r' x y → r x y) :
    Acyclic r' :=
  fun x hx => h x (TransGen.mono hsub _ _ hx)

/-- A path over a relation with one more edge either avoids the edge or
splits at it. -/
theorem path_insert {t u : ι}
    (hr : ∀ x y, r' x y → r x y ∨ x = t ∧ y = u) {x y : ι}
    (h : ReflTransGen r' x y) :
    ReflTransGen r x y ∨ ReflTransGen r x t ∧ ReflTransGen r u y := by
  induction h with
  | refl => exact .inl .refl
  | tail _ hst ih =>
      rcases hr _ _ hst with hold | ⟨rfl, rfl⟩
      · rcases ih with ih | ⟨h₁, h₂⟩
        · exact .inl (ih.tail hold)
        · exact .inr ⟨h₁, h₂.tail hold⟩
      · rcases ih with ih | ⟨h₁, -⟩
        · exact .inr ⟨ih, .refl⟩
        · exact .inr ⟨h₁, .refl⟩

/-- A new edge from `t` to `u` closes no cycle when `u` does not already
wait for `t`, directly or through others. -/
theorem acyclic_insert {t u : ι} (h : Acyclic r)
    (hr : ∀ x y, r' x y → r x y ∨ x = t ∧ y = u)
    (hno : ¬ReflTransGen r u t) : Acyclic r' := by
  intro x hx
  obtain ⟨y, hxy, hyx⟩ := TransGen.head'_iff.mp hx
  rcases hr x y hxy with hold | ⟨rfl, rfl⟩
  · rcases path_insert hr hyx with hpath | ⟨h₁, h₂⟩
    · exact h x (TransGen.head' hold hpath)
    · -- y reaches t and u reaches x: the cycle passed the new edge
      exact hno (h₂.trans ((ReflTransGen.single hold).trans h₁))
  · rcases path_insert hr hyx with hpath | ⟨-, h₂⟩
    · exact hno hpath
    · exact hno h₂

/-- In a finite nonempty set without cycles somebody waits for nobody in
the set. -/
theorem exists_sink (h : Acyclic r) (S : Finset ι) (hS : S.Nonempty) :
    ∃ m ∈ S, ∀ y ∈ S, ¬r m y := by
  let below : S → S → Prop := fun y x => TransGen r x.1 y.1
  have : IsTrans S below := ⟨fun _ _ _ hab hbc => hbc.trans hab⟩
  have : Std.Irrefl below := ⟨fun x hx => h x.1 hx⟩
  have hwf : WellFounded below := Finite.wellFounded_of_trans_of_irrefl below
  obtain ⟨x, hx⟩ := hS
  obtain ⟨m, -, hm⟩ := hwf.has_min Set.univ ⟨⟨x, hx⟩, trivial⟩
  exact ⟨m.1, m.2, fun y hy hr => hm ⟨y, hy⟩ trivial (TransGen.single hr)⟩

end OperatingSystem.Lib
