/-
Labelled transition systems, program-independent.

A system is a predicate on starting states and a partial step function:
all nondeterminism sits in the label, so a run is a list of labels and a
label that is disabled at a state yields `none`.

# Guarded runs

Every notion here carries a guard `ok` on (label, state before): what holds
of every run whose steps all meet a condition holds of `Reach` under that
guard, and what holds of every run whatever its steps holds under `Anything`.
One induction (`Steps.invariant`) serves both.
-/
import Mathlib.Data.List.Basic

namespace OperatingSystem.Lib

/-- A transition system: where runs start, and what one label does. -/
structure System (σ α : Type*) where
  start : σ → Prop
  step : α → σ → Option σ

/-- The guard every step meets. -/
def Anything {σ α : Type*} : α → σ → Prop := fun _ _ => True

variable {σ α : Type*} {S : System σ α} {ok : α → σ → Prop}

/-- `Steps S ok s s'`: some finite run leads from `s` to `s'`, each of its
labels meeting the guard at the state it fires in. -/
inductive Steps (S : System σ α) (ok : α → σ → Prop) : σ → σ → Prop
  | refl (s : σ) : Steps S ok s s
  | step {s s₁ s' : σ} (a : α) :
      Steps S ok s s₁ → ok a s₁ → S.step a s₁ = some s' → Steps S ok s s'

/-- Reachable from a starting state by guarded steps. -/
def Reach (S : System σ α) (ok : α → σ → Prop) (s : σ) : Prop :=
  ∃ s₀, S.start s₀ ∧ Steps S ok s₀ s

-- ===================================================== the run rules

/-- The run rule: what one guarded step preserves, a whole run does. -/
theorem Steps.invariant {I : σ → Prop} {s s' : σ} (h : Steps S ok s s')
    (hstep : ∀ a t t', I t → ok a t → S.step a t = some t' → I t')
    (hs : I s) : I s' := by
  induction h with
  | refl => exact hs
  | step a _ hok hst ih => exact hstep a _ _ ih hok hst

/-- The invariant rule: true at every start and preserved by every
guarded step, hence true of every reachable state. -/
theorem Reach.invariant {I : σ → Prop} {s : σ} (h : Reach S ok s)
    (hstart : ∀ t, S.start t → I t)
    (hstep : ∀ a t t', I t → ok a t → S.step a t = some t' → I t') :
    I s := by
  obtain ⟨s₀, h₀, hs⟩ := h
  exact hs.invariant hstep (hstart s₀ h₀)

theorem Reach.step {s s' : σ} {a : α} (h : Reach S ok s) (hok : ok a s)
    (hst : S.step a s = some s') : Reach S ok s' := by
  obtain ⟨s₀, h₀, hs⟩ := h
  exact ⟨s₀, h₀, .step a hs hok hst⟩

-- ================================================== the executable spine

/-- Run a list of labels, failing on the first disabled one. -/
def run (S : System σ α) : List α → σ → Option σ
  | [], s => some s
  | a :: rest, s =>
      match S.step a s with
      | some s' => run S rest s'
      | none => none

/-- One run after another. -/
theorem run_append {s s' : σ} : ∀ (acts : List α) {acts' : List α} {s₁ : σ},
    run S acts s = some s₁ → run S acts' s₁ = some s' →
      run S (acts ++ acts') s = some s'
  | [], _, _, h, h' => Option.some.inj h ▸ h'
  | a :: rest, _, _, h, h' => by
      cases hst : S.step a s with
      | none => simp [run, hst] at h
      | some s₂ =>
          simp only [List.cons_append, run, hst] at h ⊢
          exact run_append rest h h'

/-- A run in two parts, whether or not it gets through the first. -/
theorem run_append_eq (acts acts' : List α) (s : σ) :
    run S (acts ++ acts') s = (run S acts s).bind (run S acts') := by
  induction acts generalizing s with
  | nil => rfl
  | cons a rest ih =>
      cases hst : S.step a s with
      | none => simp only [List.cons_append, run, hst, Option.bind_none]
      | some s' => simp only [List.cons_append, run, hst, ih]

/-- Every label of the run meets the guard where it fires. -/
def Along (S : System σ α) (ok : α → σ → Prop) : List α → σ → Prop
  | [], _ => True
  | a :: rest, s => ok a s ∧ ∀ s', S.step a s = some s' → Along S ok rest s'

/-- A successful `run` whose labels meet the guard is a run. -/
theorem run_steps {s s' : σ} (acts : List α) (hok : Along S ok acts s)
    (hrun : run S acts s = some s') : Steps S ok s s' := by
  suffices general : ∀ (acts : List α) (s₁ : σ), Along S ok acts s₁ →
      Steps S ok s s₁ → run S acts s₁ = some s' → Steps S ok s s' by
    exact general acts s hok (.refl s) hrun
  intro acts
  induction acts with
  | nil =>
      intro s₁ _ hs h
      simp only [run, Option.some.injEq] at h
      exact h ▸ hs
  | cons a rest ih =>
      intro s₁ hok hs h
      cases hst : S.step a s₁ with
      | none => simp [run, hst] at h
      | some s₂ =>
          simp only [run, hst] at h
          exact ih s₂ (hok.2 s₂ hst) (.step a hs hok.1 hst) h

/-- A guard that can be evaluated can be evaluated along a run. -/
instance decidableAlong [∀ a s, Decidable (ok a s)] :
    ∀ (acts : List α) (s : σ), Decidable (Along S ok acts s)
  | [], _ => isTrue trivial
  | a :: rest, s =>
      match h : S.step a s with
      | none => decidable_of_iff (ok a s) <| by
          simp [Along, h]
      | some s' =>
          have := decidableAlong rest s'
          decidable_of_iff (ok a s ∧ Along S ok rest s') <| by
            simp [Along, h]

/-- Two guards that agree wherever an invariant holds are met by the same
runs, if the steps that meet them keep the invariant. -/
theorem along_congr {I : σ → Prop} {ok' : α → σ → Prop}
    (hstep : ∀ a t t', I t → ok a t → S.step a t = some t' → I t')
    (hiff : ∀ a t, I t → (ok a t ↔ ok' a t)) :
    ∀ (acts : List α) (s : σ), I s → (Along S ok acts s ↔ Along S ok' acts s)
  | [], _, _ => Iff.rfl
  | a :: rest, s, hs => by
      unfold Along
      rw [← hiff a s hs]
      refine and_congr_right fun hok => forall_congr' fun s' => ?_
      refine imp_congr_right fun hst => ?_
      exact along_congr hstep hiff rest s' (hstep a s s' hs hok hst)

theorem along_anything : ∀ (acts : List α) (s : σ), Along S Anything acts s
  | [], _ => trivial
  | _ :: rest, _ => ⟨trivial, fun s' _ => along_anything rest s'⟩

/-- Where a run from a start ends is reachable. -/
theorem reach_of_run {s₀ s : σ} (acts : List α) (h₀ : S.start s₀)
    (hrun : run S acts s₀ = some s) : Reach S Anything s :=
  ⟨s₀, h₀, run_steps acts (along_anything acts s₀) hrun⟩

/-- What is left of a run when the labels meeting `idle` where they fire are
taken out. -/
def without (S : System σ α) (idle : α → σ → Prop)
    [∀ a s, Decidable (idle a s)] : List α → σ → List α
  | [], _ => []
  | a :: rest, s =>
      match S.step a s with
      | none => a :: rest
      | some s' =>
          if idle a s then without S idle rest s'
          else a :: without S idle rest s'

/-- Labels that change nothing can be taken out of a run. -/
theorem run_without {idle : α → σ → Prop} [∀ a s, Decidable (idle a s)]
    (h : ∀ a s s', ok a s → idle a s → S.step a s = some s' → s' = s) :
    ∀ (acts : List α) (s : σ), Along S ok acts s →
      run S (without S idle acts s) s = run S acts s
  | [], _, _ => rfl
  | a :: rest, s, hok => by
      cases hst : S.step a s with
      | none => simp only [without, hst]
      | some s' =>
          have ih := run_without h rest s' (hok.2 s' hst)
          have hrun : run S (a :: rest) s = run S rest s' := by
            simp only [run, hst]
          simp only [without, hst]
          rw [hrun]
          by_cases hidle : idle a s
          · obtain rfl := h a s s' hok.1 hidle hst
            rw [if_pos hidle]
            exact ih
          · rw [if_neg hidle]
            simp only [run, hst]
            exact ih

end OperatingSystem.Lib
