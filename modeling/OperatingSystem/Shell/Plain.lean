/-
`shell.c`, the shell without a history, from the bytes of its input on.

A round reads a line, cuts it, starts a child with its words, waits for it,
and gives the two blocks of the line back. The command `exit` and a `fork`
that fails end the shell. A child only shows in `executed`: the words it was
started with. Of a line's buffers the one it ends up in counts; those it has
outgrown are left out, as is what is printed.
-/
import OperatingSystem.Lib.Ledger
import OperatingSystem.Lib.Transition
import OperatingSystem.Shell.Sharing
import OperatingSystem.Shell.Typing

namespace OperatingSystem.Shell

open Lib (Issued System)

-- ============================================================== the shell

/-- The process. -/
structure Plain where
  /-- The number the next `malloc` returns. -/
  brk : Nat
  /-- The globals `args` and `commandLine`. -/
  args : Nat
  commandLine : Nat
  freed : List Block
  executed : List (List Token)
  exited : Bool

/-- `free(args)` and `free(commandLine)`. -/
def Plain.drop (s : Plain) : Plain :=
  { s with freed := .line s.commandLine :: .args s.args :: s.freed }

/-- `callChild`; `forks` says whether `fork` succeeds. -/
def plainCallChild (forks : Bool) (cargc : Nat) (argv : List Token)
    (s : Plain) : Plain :=
  if cargc = 1 ∧ argv.head? = some ['e', 'x', 'i', 't'] then
    { s.drop with exited := true }
  else if forks then { s with executed := s.executed ++ [argv] }
  else { s.drop with exited := true }

/-- What a round does once the line has been cut. -/
def plainCommand (forks : Bool) (words : List Token) (s : Plain) : Plain :=
  let s := { s with commandLine := s.brk, brk := s.brk + 1 }
  if words = [] then { s with freed := .line s.commandLine :: s.freed }
  else
    let s := { s with args := s.brk, brk := s.brk + 1 }
    let s := plainCallChild forks words.length words s
    if s.exited then s else s.drop

/-- One round of the loop in `main`. Its loops may take `fuel` rounds. -/
def plainRound (fuel : Nat) (forks : Bool) (c : Console Plain) :
    Option (Console Plain) :=
  if c.state.exited then none
  else do
    match ← Line.readLine .shell fuel c.stream with
    | .exit => none
    | .line stream commandLine =>
        let cmd ← Line.splitLine fuel commandLine
        let words ← cmd.elim (some []) argStrings
        some ⟨stream, plainCommand forks words c.state⟩

def Plain.start : Plain where
  brk := 1
  args := 0
  commandLine := 0
  freed := []
  executed := []
  exited := false

def plain (fuel : Nat) : System (Console Plain) Bool where
  start c := c.state = .start
  step := plainRound fuel

-- ============================================================== the rounds

variable {s : Plain} {words : List Token} {log : List (List Token)}

/-- A line that ends the shell. -/
def Entry.Ends (e : Entry) : Prop :=
  e.words ≠ [] ∧ (e.words = [['e', 'x', 'i', 't']] ∨ e.forks = false)

instance (e : Entry) : Decidable e.Ends := by
  unfold Entry.Ends
  infer_instance

/-- The commands among some lines that are carried out by a child. -/
def commands (entries : List Entry) : List (List Token) :=
  ((entries.filter fun e => ¬e.Ends).map Entry.words).filter (· ≠ [])

/-- Between two rounds: what was executed, and that each block `malloc` has
returned has been freed once. -/
structure Served (log : List (List Token)) (s : Plain) : Prop where
  executed : s.executed = log
  pos : 0 < s.brk
  once : s.freed.Nodup
  issued : Issued Block.num s.brk {b | b ∈ s.freed}

theorem served_start : Served [] Plain.start := by
  refine ⟨rfl, Nat.one_pos, List.nodup_nil, ?_⟩
  have hset : {b | b ∈ Plain.start.freed} = (∅ : Set Block) := by
    ext b
    simp [Plain.start]
  rw [hset]
  exact Lib.issued_empty Block.num

/-- The buffer of a blank line is freed. -/
theorem Served.blank (h : Served log s) : Served log { s with
    commandLine := s.brk
    brk := s.brk + 1
    freed := .line s.brk :: s.freed } := by
  refine ⟨h.executed, Nat.succ_pos _, ?_, ?_⟩
  · exact List.nodup_cons.mpr ⟨h.issued.fresh (Nat.le_refl _), h.once⟩
  · have hset : {b | b ∈ Block.line s.brk :: s.freed}
        = insert (.line s.brk) {b | b ∈ s.freed} := by
      ext b
      simp
    show Issued Block.num (s.brk + 1) {b | b ∈ Block.line s.brk :: s.freed}
    rw [hset]
    exact h.issued.give h.pos rfl

/-- Both blocks of a command are freed. -/
theorem Served.command (h : Served log s) (executed : List (List Token))
    (exited : Bool) : Served executed { s with
      commandLine := s.brk
      args := s.brk + 1
      brk := s.brk + 2
      freed := .line s.brk :: .args (s.brk + 1) :: s.freed
      executed
      exited } := by
  refine ⟨rfl, Nat.succ_pos _, ?_, ?_⟩
  · have hline := h.issued.fresh (b := .line s.brk) (Nat.le_refl _)
    have hargs := h.issued.fresh (b := .args (s.brk + 1)) (Nat.le_succ _)
    show (Block.line s.brk :: .args (s.brk + 1) :: s.freed).Nodup
    refine List.nodup_cons.mpr ⟨fun hmem => ?_, List.nodup_cons.mpr
      ⟨hargs, h.once⟩⟩
    rcases List.mem_cons.mp hmem with heq | hmem
    · cases heq
    · exact hline hmem
  · have hset : {b | b ∈ Block.line s.brk :: .args (s.brk + 1) :: s.freed}
        = insert (.args (s.brk + 1)) (insert (.line s.brk)
          {b | b ∈ s.freed}) := by
      ext b
      simp [or_left_comm]
    show Issued Block.num (s.brk + 1 + 1)
      {b | b ∈ Block.line s.brk :: .args (s.brk + 1) :: s.freed}
    rw [hset]
    exact (h.issued.give h.pos rfl).give (Nat.succ_pos _) rfl

/-- What a line does to the shell. -/
theorem Served.line {e : Entry} (h : Served log s) (hexited : s.exited = false) :
    Served (log ++ commands [e]) (plainCommand e.forks e.words s)
      ∧ ((plainCommand e.forks e.words s).exited = true ↔ e.Ends) := by
  by_cases hblank : e.words = []
  · have hends : ¬e.Ends := fun hends => hends.1 hblank
    have hnone : commands [e] = [] := by simp [commands, hblank]
    rw [hnone, List.append_nil]
    unfold plainCommand
    dsimp only
    rw [if_pos hblank]
    refine ⟨h.blank, iff_of_false ?_ hends⟩
    rw [hexited]
    exact Bool.false_ne_true
  unfold plainCommand plainCallChild
  dsimp only
  rw [if_neg hblank]
  by_cases hexit : e.words = [['e', 'x', 'i', 't']]
  · have hends : e.Ends := ⟨hblank, .inl hexit⟩
    have hnone : commands [e] = [] := by simp [commands, hends]
    rw [hnone, List.append_nil, if_pos (single_iff.mpr hexit), if_pos rfl]
    exact ⟨h.executed ▸ h.command s.executed true, iff_of_true rfl hends⟩
  rw [if_neg (mt single_iff.mp hexit)]
  cases hforks : e.forks with
  | true =>
      have hends : ¬e.Ends := by
        rintro ⟨-, hword | hfail⟩
        · exact hexit hword
        · rw [hforks] at hfail
          cases hfail
      have hone : commands [e] = [e.words] := by simp [commands, hends, hblank]
      rw [hone, if_pos rfl, if_neg (by
        rw [hexited]
        exact Bool.false_ne_true)]
      refine ⟨h.executed ▸ hexited ▸ h.command (s.executed ++ [e.words])
        s.exited, iff_of_false ?_ hends⟩
      show s.exited ≠ true
      rw [hexited]
      exact Bool.false_ne_true
  | false =>
      have hends : e.Ends := ⟨hblank, .inr hforks⟩
      have hnone : commands [e] = [] := by simp [commands, hends]
      rw [hnone, List.append_nil, if_neg Bool.false_ne_true, if_pos rfl]
      exact ⟨h.executed ▸ h.command s.executed true, iff_of_true rfl hends⟩

-- ============================================================ all rounds

/-- A round on a line that can be read. -/
theorem plainRound_line {e : Entry} (h : e.Readable .shell)
    (post : List UInt8) : ∃ enough, ∀ fuel, enough ≤ fuel → ∀ s,
      s.exited = false → plainRound fuel e.forks ⟨e.bytes ++ post, s⟩
        = some ⟨post, plainCommand e.forks e.words s⟩ := by
  obtain ⟨enough, hwords⟩ := h.words post
  refine ⟨enough, fun fuel hle s hexited => ?_⟩
  obtain ⟨c, cmd, hread, hsplit, hwords⟩ := hwords fuel hle
  unfold plainRound
  rw [if_neg (by rw [hexited]; exact Bool.false_ne_true)]
  simp only [Option.bind_eq_bind]
  rw [hread, Option.bind_some]
  dsimp only
  rw [hsplit, Option.bind_some, hwords, Option.bind_some]

theorem commands_cons (e : Entry) (rest : List Entry) :
    commands (e :: rest) = commands [e] ++ commands rest := by
  unfold commands
  rw [← List.filter_append, ← List.map_append, ← List.filter_append]
  rfl

/-- Lines none of which but the last ends the shell. -/
theorem Served.lines (post : List UInt8) : ∀ (entries : List Entry),
    (∀ e ∈ entries, e.Readable .shell) →
    (∀ e ∈ entries.dropLast, ¬e.Ends) →
    ∃ enough, ∀ fuel, enough ≤ fuel → ∀ log s, Served log s →
      s.exited = false →
      ∃ s', Lib.run (plain fuel) (entries.map Entry.forks)
          ⟨entries.flatMap Entry.bytes ++ post, s⟩ = some ⟨post, s'⟩
        ∧ Served (log ++ commands entries) s'
        ∧ (s'.exited = true ↔ ∃ e ∈ entries, e.Ends)
  | [], _, _ => by
      refine ⟨0, fun fuel _ log s h hexited => ⟨s, rfl, ?_, ?_⟩⟩
      · rwa [show commands [] = [] from rfl, List.append_nil]
      · rw [hexited]
        simp
  | e :: rest, hread, hgo => by
      obtain ⟨enough₁, hround⟩ := plainRound_line (hread e List.mem_cons_self)
        (rest.flatMap Entry.bytes ++ post)
      have hgo' : ∀ e' ∈ rest.dropLast, ¬e'.Ends := by
        intro e' he'
        cases rest with
        | nil => cases he'
        | cons e₁ rest => exact hgo e' (List.mem_cons_of_mem e he')
      obtain ⟨enough₂, hrest⟩ := Served.lines post rest
        (fun e' he' => hread e' (List.mem_cons_of_mem e he')) hgo'
      refine ⟨enough₁ + enough₂, fun fuel hle log s h hexited => ?_⟩
      obtain ⟨hserved, hends⟩ := h.line (e := e) hexited
      have hfirst := hround fuel (by omega) s hexited
      rw [commands_cons, ← List.append_assoc, List.flatMap_cons,
        List.append_assoc]
      simp only [List.map_cons, Lib.run, plain, hfirst]
      cases rest with
      | nil =>
          refine ⟨_, rfl, ?_, ?_⟩
          · rwa [show commands [] = [] from rfl, List.append_nil]
          · rw [hends]
            simp
      | cons e₁ rest =>
          have hnot : ¬e.Ends := hgo e List.mem_cons_self
          have hlive : (plainCommand e.forks e.words s).exited = false :=
            Bool.eq_false_iff.mpr (mt hends.mp hnot)
          obtain ⟨s', hrun, hserved', hends'⟩ := hrest fuel (by omega) _ _
            hserved hlive
          refine ⟨s', hrun, hserved', hends'.trans ?_⟩
          rw [List.exists_mem_cons_iff (a := e)]
          simp [hnot]

/-- Given lines that can be read, of which only the last may end it, `shell.c`
starts a child for each command in turn, with exactly the words that were
typed, it is left after an `exit` or a failed `fork` and only then, and it
has freed each block that counts once. -/
theorem plain_executes (entries : List Entry)
    (hread : ∀ e ∈ entries, e.Readable .shell)
    (hgo : ∀ e ∈ entries.dropLast, ¬e.Ends) (post : List UInt8) :
    ∃ enough, ∀ fuel, enough ≤ fuel →
      ∃ s, Lib.run (plain fuel) (entries.map Entry.forks)
          ⟨entries.flatMap Entry.bytes ++ post, .start⟩ = some ⟨post, s⟩
        ∧ s.executed = commands entries
        ∧ (s.exited = true ↔ ∃ e ∈ entries, e.Ends)
        ∧ (s.freed.map Block.num).Perm (List.range' 1 (s.brk - 1)) := by
  obtain ⟨enough, hrun⟩ := Served.lines post entries hread hgo
  refine ⟨enough, fun fuel hle => ?_⟩
  obtain ⟨s, hrun, hserved, hends⟩ := hrun fuel hle [] .start served_start rfl
  exact ⟨s, hrun, hserved.executed, hends, hserved.issued.perm hserved.once⟩

/-- `ls -l`, a blank line, and `exit`. -/
theorem plain_executes_exit : ∃ enough, ∀ fuel, enough ≤ fuel →
    ∃ s, Lib.run (plain fuel) [true, true, true]
        ⟨[108, 115, 32, 45, 108, 10, 32, 10, 101, 120, 105, 116, 10], .start⟩
          = some ⟨[], s⟩
      ∧ s.executed = [[['l', 's'], ['-', 'l']]] ∧ s.exited = true := by
  let entries : List Entry := [⟨[108, 115, 32, 45, 108], 10, true⟩,
    ⟨[32], 10, true⟩, ⟨[101, 120, 105, 116], 10, true⟩]
  have hread : ∀ e ∈ entries, e.Readable .shell := by
    have hchars : ∀ e ∈ entries, (∀ ch ∈ e.line, ch ≠ 0 ∧ ch ≠ 10)
        ∧ e.terminator = 10 ∧ e.line.length < 6 := by
      decide +kernel
    intro e he
    obtain ⟨hline, hterm, hlength⟩ := hchars e he
    refine ⟨fun ch hch ht => ?_, .inr hterm, nofun, ?_⟩
    · exact ht.elim (hline ch hch).1 (hline ch hch).2
    · rw [Line.kept]
      omega
  have hgo : ∀ e ∈ entries.dropLast, ¬e.Ends := by decide +kernel
  have hlast : ∃ e ∈ entries, e.Ends := by decide +kernel
  have hlog : commands entries = [[['l', 's'], ['-', 'l']]] := by decide +kernel
  obtain ⟨enough, hall⟩ := plain_executes entries hread hgo []
  refine ⟨enough, fun fuel hle => ?_⟩
  obtain ⟨s, hrun, hexecuted, hends, -⟩ := hall fuel hle
  exact ⟨s, hrun, hexecuted.trans hlog, hends.mpr hlast⟩

end OperatingSystem.Shell
