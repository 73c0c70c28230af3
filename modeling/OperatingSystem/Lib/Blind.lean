/-
Partial functions that do not see part of their state.

A change `g` of the state, and the corresponding change `g'` of a result,
are invisible to `op` when `op` on the changed state gives the changed
result. Sequencing, reading and branching keep that, so it is shown of a
program by following its text. A function that is blind to writing a
constant somewhere leaves what is there alone (`Blind.fixed`).
-/
import Mathlib.Data.Option.Basic

namespace OperatingSystem.Lib

variable {σ τ υ ρ : Type*} {g : σ → σ} {g' : τ → τ} {g'' : υ → υ}

/-- `op` commutes with the change. -/
def Blind (g : σ → σ) (g' : τ → τ) (op : σ → Option τ) : Prop :=
  ∀ s, op (g s) = (op s).map g'

theorem Blind.pure {h : σ → τ} (hh : ∀ s, h (g s) = g' (h s)) :
    Blind g g' fun s => some (h s) := fun s => congrArg some (hh s)

theorem Blind.none : Blind g g' fun _ => Option.none := fun _ => rfl

theorem Blind.bind {op : σ → Option τ} {k : τ → Option υ}
    (hop : Blind g g' op) (hk : Blind g' g'' k) :
    Blind g g'' fun s => (op s).bind k := by
  intro s
  dsimp only
  rw [hop s]
  cases op s with
  | none => rfl
  | some t => exact hk t

/-- What is read is the same. -/
theorem Blind.read {r : σ → Option ρ} {k : ρ → σ → Option τ}
    (hr : ∀ s, r (g s) = r s) (hk : ∀ x, Blind g g' (k x)) :
    Blind g g' fun s => (r s).bind fun x => k x s := by
  intro s
  dsimp only
  rw [hr s]
  cases r s with
  | none => rfl
  | some x => exact hk x s

/-- An assignment in between. -/
theorem Blind.comp {h : σ → τ} {k : τ → Option υ} (hh : ∀ s, h (g s) = g' (h s))
    (hk : Blind g' g'' k) : Blind g g'' fun s => k (h s) := by
  intro s
  dsimp only
  rw [hh s, hk]

theorem Blind.ite {c : σ → Prop} [∀ s, Decidable (c s)] {op k : σ → Option τ}
    (hc : ∀ s, c (g s) ↔ c s) (hop : Blind g g' op) (hk : Blind g g' k) :
    Blind g g' fun s => if c s then op s else k s := by
  intro s
  by_cases h : c s
  · dsimp only
    rw [if_pos h, if_pos ((hc s).mpr h)]
    exact hop s
  · dsimp only
    rw [if_neg h, if_neg (mt (hc s).mp h)]
    exact hk s

/-- What the change leaves as it is gives what it leaves as it is. -/
theorem Blind.fixed {op : σ → Option τ} (hop : Blind g g' op) {s : σ} {t : τ}
    (hs : g s = s) (h : op s = some t) : g' t = t := by
  have heq := hop s
  rw [hs, h] at heq
  exact (Option.some.inj heq).symm

end OperatingSystem.Lib
