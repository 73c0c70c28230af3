/-
Two systems over the same labels, one of which has steps the other lacks.

`view` forgets what the concrete system `S` has on top of the abstract `T`,
and a label meeting `idle` at a state fires one of the extra steps.
`Simulates` says that `S` does nothing else than guarded steps of `T`,
`Lifts` that it can do all of them; with both, the runs of `S` without their
extra steps (`without`) are the guarded runs of `T`.
-/
import OperatingSystem.Lib.Transition

namespace OperatingSystem.Lib

variable {σ τ α : Type*} {S : System σ α} {T : System τ α} {view : σ → τ}
  {idle : α → σ → Prop} [∀ a s, Decidable (idle a s)] {ok : α → τ → Prop}
  {I : σ → Prop}

/-- Under the invariant `I` every step of `S` is an extra one, which cannot
be seen, or a guarded step of `T`. -/
structure Simulates (S : System σ α) (T : System τ α) (view : σ → τ)
    (idle : α → σ → Prop) (ok : α → τ → Prop) (I : σ → Prop) : Prop where
  keeps : ∀ a s s', I s → S.step a s = some s' → I s'
  stutter : ∀ a s s', I s → idle a s → S.step a s = some s' → view s' = view s
  follows : ∀ a s s', I s → ¬idle a s → S.step a s = some s' →
    ok a (view s) ∧ T.step a (view s) = some (view s')

/-- Under the invariant `I` every guarded step of `T` is one step of `S`
between extra ones. -/
structure Lifts (S : System σ α) (T : System τ α) (view : σ → τ)
    (idle : α → σ → Prop) [∀ a s, Decidable (idle a s)] (ok : α → τ → Prop)
    (I : σ → Prop) : Prop where
  lifts : ∀ a s t, I s → ok a (view s) → T.step a (view s) = some t →
    ∃ acts s', run S acts s = some s' ∧ without S idle acts s = [a]
      ∧ view s' = t ∧ I s'

omit [∀ a s, Decidable (idle a s)] in
/-- A run that begins with a step. -/
theorem run_cons {a : α} {rest : List α} {s s₁ : σ}
    (h : S.step a s = some s₁) : run S (a :: rest) s = run S rest s₁ := by
  simp only [run, h]

theorem without_idle {a : α} {rest : List α} {s s₁ : σ}
    (h : S.step a s = some s₁) (hidle : idle a s) :
    without S idle (a :: rest) s = without S idle rest s₁ := by
  simp only [without, h, if_pos hidle]

theorem without_busy {a : α} {rest : List α} {s s₁ : σ}
    (h : S.step a s = some s₁) (hidle : ¬idle a s) :
    without S idle (a :: rest) s = a :: without S idle rest s₁ := by
  simp only [without, h, if_neg hidle]

theorem without_append : ∀ (acts : List α) {acts' : List α} {s s₁ : σ},
    run S acts s = some s₁ → without S idle (acts ++ acts') s
      = without S idle acts s ++ without S idle acts' s₁
  | [], _, _, _, h => by
      obtain rfl := Option.some.inj h
      rfl
  | a :: rest, acts', s, s₁, h => by
      cases hst : S.step a s with
      | none => simp [run, hst] at h
      | some s₂ =>
          rw [run_cons hst] at h
          rw [List.cons_append]
          by_cases hidle : idle a s
          · rw [without_idle hst hidle, without_idle hst hidle,
              without_append rest h]
          · rw [without_busy hst hidle, without_busy hst hidle,
              without_append rest h, List.cons_append]

omit [∀ a s, Decidable (idle a s)] in
/-- Two systems that make related steps have related runs, one as long as
the other. -/
theorem run_related {β : Type*} {T : System τ β} {R : σ → τ → Prop}
    {Q : α → β → Prop} (hstep : ∀ a b s t, Q a b → R s t →
      Option.Rel R (S.step a s) (T.step b t)) {acts : List α} {acts' : List β}
    (hacts : List.Forall₂ Q acts acts') :
    ∀ {s : σ} {t : τ}, R s t → Option.Rel R (run S acts s) (run T acts' t) := by
  induction hacts with
  | nil => exact fun hR => .some hR
  | @cons a b rest rest' hQ _ ih =>
      intro s t hR
      have hrel := hstep a b s t hQ hR
      unfold run
      generalize S.step a s = s', T.step b t = t' at hrel ⊢
      cases hrel with
      | none => exact .none
      | some hR' => exact ih hR'

/-- A run of `S` without its extra steps is a guarded run of `T`. -/
theorem Simulates.run (h : Simulates S T view idle ok I) :
    ∀ (acts : List α) {s s' : σ}, I s → run S acts s = some s' →
      run T (without S idle acts s) (view s) = some (view s')
        ∧ Along T ok (without S idle acts s) (view s)
  | [], s, s', _, hrun => by
      obtain rfl := Option.some.inj hrun
      exact ⟨rfl, trivial⟩
  | a :: rest, s, s', hs, hrun => by
      cases hst : S.step a s with
      | none => simp [Lib.run, hst] at hrun
      | some s₁ =>
          rw [run_cons hst] at hrun
          obtain ⟨ih, hok⟩ := h.run rest (h.keeps a s s₁ hs hst) hrun
          by_cases hidle : idle a s
          · rw [without_idle hst hidle, ← h.stutter a s s₁ hs hidle hst]
            exact ⟨ih, hok⟩
          · obtain ⟨ha, hfollow⟩ := h.follows a s s₁ hs hidle hst
            rw [without_busy hst hidle, run_cons hfollow]
            refine ⟨ih, ha, fun t ht => ?_⟩
            obtain rfl := Option.some.inj (hfollow.symm.trans ht)
            exact hok

/-- Every guarded run of `T` comes from a run of `S`. -/
theorem Lifts.run (h : Lifts S T view idle ok I) :
    ∀ (acts : List α) {s : σ} {t : τ}, I s → Along T ok acts (view s) →
      run T acts (view s) = some t →
      ∃ acts' s', Lib.run S acts' s = some s'
        ∧ without S idle acts' s = acts ∧ view s' = t
  | [], s, t, _, _, hrun => ⟨[], s, rfl, rfl, Option.some.inj hrun⟩
  | a :: rest, s, t, hs, hok, hrun => by
      cases hst : T.step a (view s) with
      | none => simp [Lib.run, hst] at hrun
      | some t₁ =>
          rw [run_cons hst] at hrun
          obtain ⟨acts₁, s₁, hrun₁, hacts₁, rfl, hs₁⟩ :=
            h.lifts a s t₁ hs hok.1 hst
          obtain ⟨acts₂, s₂, hrun₂, hacts₂, hview⟩ :=
            h.run rest hs₁ (hok.2 _ hst) hrun
          refine ⟨acts₁ ++ acts₂, s₂, run_append acts₁ hrun₁ hrun₂, ?_, hview⟩
          rw [without_append acts₁ hrun₁, hacts₁, hacts₂, List.singleton_append]

end OperatingSystem.Lib
