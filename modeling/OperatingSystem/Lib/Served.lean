/-
Waiting lines served in order, program-independent.

A line of a transition system is given by three readings of a step: who
stands in it (`line`), who joins it and who is served. The law of one step
is

    line before ++ joins = served ++ line after,

so nobody overtakes: who is served comes from the front, who joins goes to
the back, and this also covers a step that does both. `Served.run` carries
the law over whole runs. For one waiting task it says that the task at place
`k` is served as number `k`, whenever that is (`Served.place`); and where a
step that is a turn serves somebody if anybody waits, it has been served once
`k + 1` turns have passed (`Served.in_turn`).
-/
import OperatingSystem.Lib.Transition

namespace OperatingSystem.Lib

variable {σ α β : Type*} {S : System σ α}

-- ==================================================== what a run adds up to

/-- What the steps of a run contribute, in order. -/
def collect (S : System σ α) (f : α → σ → σ → List β) : List α → σ → List β
  | [], _ => []
  | a :: rest, s =>
      match S.step a s with
      | none => []
      | some s' => f a s s' ++ collect S f rest s'

/-- How many steps of a run are turns. -/
def turns (S : System σ α) (turn : α → σ → Bool) : List α → σ → Nat
  | [], _ => 0
  | a :: rest, s =>
      match S.step a s with
      | none => 0
      | some s' => (turn a s).toNat + turns S turn rest s'

variable {I : σ → Prop} {line : σ → List β} {joins served : α → σ → σ → List β}
  {turn : α → σ → Bool} {s s' : σ}

/-- A record every step appends to is, after a run, what it was and all
the run contributed. -/
theorem collect_history (hist : σ → List β)
    (hkeep : ∀ a t t', I t → S.step a t = some t' → I t')
    (hstep : ∀ a t t', I t → S.step a t = some t' →
      hist t' = hist t ++ served a t t') :
    ∀ (acts : List α) {s s' : σ}, I s → run S acts s = some s' →
      hist s' = hist s ++ collect S served acts s
  | [], s, s', _, hrun => by
      obtain rfl : s = s' := Option.some.inj hrun
      simp [collect]
  | a :: rest, s, s', hs, hrun => by
      cases hst : S.step a s with
      | none => simp [run, hst] at hrun
      | some t =>
          simp only [run, hst] at hrun
          have ih := collect_history hist hkeep hstep rest (hkeep a s t hs hst) hrun
          rw [ih, hstep a s t hs hst, List.append_assoc]
          simp only [collect, hst]

-- ========================================================== the law of a line

/-- A line whose steps serve from the front and let join at the back. -/
structure Served (S : System σ α) (I : σ → Prop) (line : σ → List β)
    (joins served : α → σ → σ → List β) : Prop where
  keep : ∀ a s s', I s → S.step a s = some s' → I s'
  law : ∀ a s s', I s → S.step a s = some s' →
    line s ++ joins a s s' = served a s s' ++ line s'

/-- The law over a whole run. -/
theorem Served.run (h : Served S I line joins served) :
    ∀ (acts : List α) {s s' : σ}, I s → run S acts s = some s' →
      line s ++ collect S joins acts s = collect S served acts s ++ line s'
  | [], s, s', _, hrun => by
      obtain rfl : s = s' := Option.some.inj hrun
      simp [collect]
  | a :: rest, s, s', hs, hrun => by
      cases hst : S.step a s with
      | none => simp [Lib.run, hst] at hrun
      | some t =>
          simp only [Lib.run, hst] at hrun
          have ih := h.run rest (h.keep a s t hs hst) hrun
          simp only [collect, hst]
          calc line s ++ (joins a s t ++ collect S joins rest t)
              = (line s ++ joins a s t) ++ collect S joins rest t :=
                (List.append_assoc _ _ _).symm
            _ = served a s t ++ (line t ++ collect S joins rest t) := by
                rw [h.law a s t hs hst, List.append_assoc]
            _ = served a s t ++ collect S served rest t ++ line s' := by
                rw [ih, List.append_assoc]

/-- In a run with as many turns, as many are served, or all who waited. -/
theorem Served.turns_le (h : Served S I line joins served)
    (hturn : ∀ a s s', I s → S.step a s = some s' → turn a s = true →
      line s ≠ [] → served a s s' ≠ []) :
    ∀ (acts : List α) {s s' : σ}, I s → Lib.run S acts s = some s' →
      min (turns S turn acts s) (line s).length
        ≤ (collect S served acts s).length
  | [], s, s', _, _ => by simp [turns]
  | a :: rest, s, s', hs, hrun => by
      cases hst : S.step a s with
      | none => simp [Lib.run, hst] at hrun
      | some t =>
          simp only [Lib.run, hst] at hrun
          have ih := h.turns_le hturn rest (h.keep a s t hs hst) hrun
          have hlaw := congrArg List.length (h.law a s t hs hst)
          simp only [List.length_append] at hlaw
          simp only [collect, turns, hst, List.length_append]
          cases hb : turn a s with
          | false =>
              rw [Bool.toNat_false]
              omega
          | true =>
              rw [Bool.toNat_true]
              -- a turn serves somebody unless nobody waits
              by_cases hline : line s = []
              · rw [hline, List.length_nil]
                omega
              · have := List.length_pos_iff.mpr
                  (hturn a s t hs hst hb hline)
                omega

/-- Who stands at place `k` has been served as number `k`, or stands where
those who have been served leave him. -/
theorem Served.place (h : Served S I line joins served) (acts : List α)
    (hs : I s) (hrun : Lib.run S acts s = some s') {k : Nat} {x : β}
    (hx : (line s)[k]? = some x) :
    (collect S served acts s ++ line s')[k]? = some x := by
  obtain ⟨hlt, -⟩ := List.getElem?_eq_some_iff.mp hx
  rw [← h.run acts hs hrun, List.getElem?_append_left hlt]
  exact hx

/-- Who stands at place `k` is served as number `k`, once more than `k`
turns have passed. -/
theorem Served.in_turn (h : Served S I line joins served)
    (hturn : ∀ a s s', I s → S.step a s = some s' → turn a s = true →
      line s ≠ [] → served a s s' ≠ [])
    (acts : List α) (hs : I s) (hrun : Lib.run S acts s = some s') {k : Nat}
    {x : β} (hx : (line s)[k]? = some x) (hk : k < turns S turn acts s) :
    (collect S served acts s)[k]? = some x := by
  obtain ⟨hlt, -⟩ := List.getElem?_eq_some_iff.mp hx
  have hle := h.turns_le hturn acts hs hrun
  have hserved : k < (collect S served acts s).length := by omega
  rw [← List.getElem?_append_left hserved]
  exact h.place acts hs hrun hx

end OperatingSystem.Lib
