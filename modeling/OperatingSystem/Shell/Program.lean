/-
`main` of `shell_hist.c` from the bytes of its input on.

A round of its loop reads a line, cuts it, and carries out the command whose
words `args` points at (`Shell.step`). `main_refines` puts the three together:
on any input that is made of lines which can be read, the program does, line
after line, what the shell does on the words of the lines, and whatever holds
of the shell's sessions holds of the program.
-/
import OperatingSystem.Shell.Session
import OperatingSystem.Shell.Typing

namespace OperatingSystem.Shell

open Lib (System)
open Line (Terminator AtEnd)

variable {HISTSIZE : Int} {atoi : Token → Int} {stream : List UInt8}

-- ============================================================ the program

/-- One round of the loop in `main`. Its loops may take `fuel` rounds. -/
def round (HISTSIZE : Int) (atoi : Token → Int) (fuel : Nat) (forks : Bool)
    (c : Console State) : Option (Console State) := do
  match ← Line.readLine .shellHist fuel c.stream with
  | .exit => (step HISTSIZE atoi .eof c.state).map (Console.mk c.stream)
  | .line stream commandLine =>
      let cmd ← Line.splitLine fuel commandLine
      let words ← cmd.elim (some []) argStrings
      (step HISTSIZE atoi (.line words forks) c.state).map (Console.mk stream)

/-- The program; the labels say whether `fork` succeeds. -/
def console (HISTSIZE : Int) (atoi : Token → Int) (fuel : Nat) :
    System (Console State) Bool where
  start c := (shell HISTSIZE atoi).start c.state
  step := round HISTSIZE atoi fuel

/-- What a line means to the shell. -/
def Entry.input (e : Entry) : Input := .line e.words e.forks

-- ============================================================== the rounds

variable (HISTSIZE atoi) in
/-- A round on a line that can be read. -/
theorem round_line {e : Entry} (h : e.Readable .shellHist) (post : List UInt8) :
    ∃ enough, ∀ fuel, enough ≤ fuel → ∀ s,
      round HISTSIZE atoi fuel e.forks ⟨e.bytes ++ post, s⟩
        = (step HISTSIZE atoi e.input s).map (Console.mk post) := by
  obtain ⟨enough, hwords⟩ := h.words post
  refine ⟨enough, fun fuel hle s => ?_⟩
  obtain ⟨c, cmd, hread, hsplit, hwords⟩ := hwords fuel hle
  unfold round
  simp only [Option.bind_eq_bind]
  rw [hread, Option.bind_some]
  dsimp only
  rw [hsplit, Option.bind_some, hwords, Option.bind_some]
  rfl

variable (HISTSIZE atoi) in
/-- A round at the end of the input. -/
theorem round_eof (h : AtEnd stream) (fuel : Nat) (forks : Bool) (s : State) :
    round HISTSIZE atoi fuel forks ⟨stream, s⟩
      = (step HISTSIZE atoi .eof s).map (Console.mk stream) := by
  unfold round
  rw [Line.readLine_shellHist, if_pos (Line.atEnd_iff.mp h)]
  rfl

-- ============================================================ all rounds

/-- The rounds on lines that can be read. -/
theorem console_lines (HISTSIZE : Int) (atoi : Token → Int)
    (entries : List Entry) (hread : ∀ e ∈ entries, e.Readable .shellHist)
    (post : List UInt8) :
    ∃ enough, ∀ fuel, enough ≤ fuel → ∀ s,
      Lib.run (console HISTSIZE atoi fuel) (entries.map Entry.forks)
          ⟨entries.flatMap Entry.bytes ++ post, s⟩
        = (Lib.run (shell HISTSIZE atoi) (entries.map Entry.input) s).map
          (Console.mk post) := by
  induction entries with
  | nil => exact ⟨0, fun fuel _ s => rfl⟩
  | cons e rest ih =>
      obtain ⟨enough₁, hfirst⟩ := round_line HISTSIZE atoi
        (hread e List.mem_cons_self) (rest.flatMap Entry.bytes ++ post)
      obtain ⟨enough₂, hrest⟩ := ih fun e' he' =>
        hread e' (List.mem_cons_of_mem e he')
      refine ⟨enough₁ + enough₂, fun fuel hle s => ?_⟩
      have hround := hfirst fuel (by omega) s
      have hmore := fun s => hrest fuel (by omega) s
      rw [List.flatMap_cons, List.append_assoc]
      cases hst : step HISTSIZE atoi e.input s with
      | none =>
          rw [hst] at hround
          simp [Lib.run, console, shell, hround, hst]
      | some s' =>
          rw [hst] at hround
          simp only [List.map_cons, Lib.run, console, shell, hround, hst,
            Option.map_some]
          exact hmore s'

/-- On lines that can be read, the program does what the shell does on their
words, whatever comes behind them; and if there is nothing behind them, it
ends as the shell does at the end of its input. -/
theorem main_refines (HISTSIZE : Int) (atoi : Token → Int)
    (entries : List Entry) (hread : ∀ e ∈ entries, e.Readable .shellHist)
    (post : List UInt8) :
    ∃ enough, ∀ fuel, enough ≤ fuel → ∀ s,
      Lib.run (console HISTSIZE atoi fuel) (entries.map Entry.forks)
          ⟨entries.flatMap Entry.bytes ++ post, s⟩
        = (Lib.run (shell HISTSIZE atoi) (entries.map Entry.input) s).map
          (Console.mk post)
      ∧ (AtEnd post → ∀ forks,
        Lib.run (console HISTSIZE atoi fuel) (entries.map Entry.forks ++ [forks])
            ⟨entries.flatMap Entry.bytes ++ post, s⟩
          = (Lib.run (shell HISTSIZE atoi) (entries.map Entry.input ++ [.eof])
            s).map (Console.mk post)) := by
  obtain ⟨enough, hlines⟩ := console_lines HISTSIZE atoi entries hread post
  refine ⟨enough, fun fuel hle s => ⟨hlines fuel hle s, fun hend forks => ?_⟩⟩
  rw [Lib.run_append_eq, hlines fuel hle s, Lib.run_append_eq]
  cases Lib.run (shell HISTSIZE atoi) (entries.map Entry.input) s with
  | none => rfl
  | some s' =>
      have hround := round_eof HISTSIZE atoi hend fuel forks s'
      simp only [Option.map_some, Option.bind_some, Lib.run, console, shell,
        hround]
      cases step HISTSIZE atoi .eof s' <;> rfl

/-- `a`, then `!!`, then the end of the input. -/
theorem main_refines_recall : ∃ enough, ∀ fuel, enough ≤ fuel →
    ∃ s', Lib.run (console 1 (fun _ => 0) fuel) [true, true, true]
        ⟨[97, 10, 33, 33, 10], State.start (0, 0) (0, 0)⟩ = some ⟨[], s'⟩
      ∧ s'.exited = true := by
  let entries : List Entry := [⟨[97], 10, true⟩, ⟨[33, 33], 10, true⟩]
  have hread : ∀ e ∈ entries, e.Readable .shellHist := by
    have hchars : ∀ e ∈ entries, (∀ ch ∈ e.line, ch ≠ 0 ∧ ch ≠ 10)
        ∧ e.terminator = 10 ∧ e.line.head? ≠ some 255 ∧ e.line.length < 3 := by
      decide +kernel
    intro e he
    obtain ⟨hline, hterm, hfirst, hlength⟩ := hchars e he
    refine ⟨fun ch hch ht => ?_, .inr hterm, fun _ => hfirst, ?_⟩
    · exact ht.elim (hline ch hch).1 (hline ch hch).2
    · rw [Line.kept]
      omega
  obtain ⟨enough, hrun⟩ := main_refines 1 (fun _ => 0) entries hread []
  let s' := (Lib.run (shell 1 fun _ => 0) (entries.map Entry.input ++ [.eof])
    (State.start (0, 0) (0, 0))).get (by decide +kernel)
  have hs' : Lib.run (shell 1 fun _ => 0) (entries.map Entry.input ++ [.eof])
      (State.start (0, 0) (0, 0)) = some s' := (Option.some_get _).symm
  refine ⟨enough, fun fuel hle => ⟨s', ?_, by decide +kernel⟩⟩
  have hall := (hrun fuel hle (State.start (0, 0) (0, 0))).2 (.inl rfl) true
  rw [hs'] at hall
  exact hall

end OperatingSystem.Shell
