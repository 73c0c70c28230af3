/-
What the history changes: on a session that makes no use of it,
`shell_hist.c` is `shell.c`.

`shell.c` is `Plain`, from the bytes of its input on, and so is `shell_hist.c`
(`console`). What the second does with the words of a line is compared through
the ideal shell, which has the children in it (`Tracks`): a line that recalls
nothing always meets `Due` (`Common.due`), and carries out its words in both.
-/
import OperatingSystem.Shell.Ideal
import OperatingSystem.Shell.Plain
import OperatingSystem.Shell.Program

namespace OperatingSystem.Shell

variable {HISTSIZE : Int} {atoi : Token → Int} {s : State} {a : Ideal}
  {e : Entry} {entries : List Entry}

/-- A line for either shell: it does not begin with `!`, it is not `history`,
and `fork` does not fail. -/
structure Entry.Common (atoi : Token → Int) (e : Entry) : Prop where
  shell : e.Readable .shell
  shellHist : e.Readable .shellHist
  forks : e.forks = true
  typed : ∀ word ∈ e.words.head?, request atoi word = none
  other : e.words ≠ [historyWord]

-- ============================================================== the rounds

theorem Entry.Common.ends_iff (he : e.Common atoi) :
    e.Ends ↔ e.words = [exitWord] := by
  constructor
  · rintro ⟨-, hexit | hfail⟩
    · exact hexit
    · rw [he.forks] at hfail
      cases hfail
  · intro hexit
    exact ⟨hexit ▸ List.cons_ne_nil _ _, .inl hexit⟩

/-- Nothing a line like this does depends on what is in the history. -/
theorem Entry.Common.due (he : e.Common atoi) (h : Tracks HISTSIZE s a)
    (hlive : s.exited = false) : Due HISTSIZE atoi e.input s := by
  obtain ⟨log, L, hW, -⟩ := h.holds hlive
  unfold Entry.input
  rw [he.forks]
  cases hwords : e.words with
  | nil => exact ⟨nofun, nofun, nofun⟩
  | cons word rest =>
      have hfind : toBeCalled atoi word s = some NULL := by
        rw [toBeCalled_request, he.typed word (by rw [hwords]; rfl)]
      have hfirst : NULL ≠ s.mem.next s.mem.head := by
        intro hnull
        have hnext := hnull.trans hW.head_next
        exact (hW.first_alive (A := [])).1 hnext.symm
      exact due_line word rest hfind hW.head_alive.1.symm hW.tail_alive.1.symm
        (.inr hfirst)

variable (HISTSIZE) in
/-- What the ideal shell does with it. -/
theorem Entry.Common.ideal (he : e.Common atoi) (ha : a.exited = false) :
    ∃ a', a.step HISTSIZE atoi e.input = some a'
      ∧ a'.children = a.children ++ commands [e]
      ∧ (a'.exited = true ↔ e.Ends)
      ∧ (a'.exited = false → a'.done = a.done ++ commands [e]) := by
  have hlive : ¬a.exited = true := by
    rw [ha]
    exact Bool.false_ne_true
  unfold Entry.input Ideal.step
  rw [if_neg hlive]
  cases hwords : e.words with
  | nil =>
      have hends : ¬e.Ends := fun hends => hends.1 hwords
      have hnone : commands [e] = [] := by simp [commands, hwords]
      rw [hnone, List.append_nil, List.append_nil]
      exact ⟨a, rfl, rfl, iff_of_false hlive hends, fun _ => rfl⟩
  | cons word rest =>
      have hcommand : command atoi (a.history HISTSIZE) word rest
          = some (word :: rest) := by
        unfold command
        rw [he.typed word (by rw [hwords]; rfl)]
      have hother := he.other
      rw [hwords] at hother
      dsimp only
      rw [hcommand, he.forks]
      refine ⟨_, rfl, ?_⟩
      unfold Ideal.execute
      rw [he.ends_iff, hwords]
      by_cases hexit : word :: rest = [exitWord]
      · have hnone : commands [e] = [] := by
          simp [commands, he.ends_iff, hwords, hexit]
        rw [hnone, List.append_nil, if_pos hexit]
        exact ⟨rfl, iff_of_true rfl hexit, fun h => by cases h⟩
      · have hone : commands [e] = [word :: rest] := by
          simp [commands, he.ends_iff, hwords, hexit]
        rw [hone, if_neg hexit, if_neg hother, if_pos rfl]
        exact ⟨rfl, iff_of_false hlive hexit, fun _ => rfl⟩

/-- A round on such a line. -/
theorem Tracks.common (hH : Sized HISTSIZE) (h : Tracks HISTSIZE s a)
    (hlive : s.exited = false) (he : e.Common atoi) :
    ∃ s' a', (observed HISTSIZE atoi).step e.input (s, a.children)
        = some (s', a'.children)
      ∧ Tracks HISTSIZE s' a'
      ∧ a'.children = a.children ++ commands [e]
      ∧ (s'.exited = true ↔ e.Ends)
      ∧ (s'.exited = false → a'.done = a.done ++ commands [e]) := by
  obtain ⟨s', a', hstep, hideal, htracks, hchildren⟩ :=
    h.round hH hlive (he.due h hlive)
  obtain ⟨a₁, hideal', hcommands, hends, hdone⟩ :=
    he.ideal HISTSIZE (h.exited.trans hlive)
  obtain rfl := Option.some.inj (hideal.symm.trans hideal')
  rw [htracks.exited] at hends hdone
  refine ⟨s', a', ?_, htracks, hcommands, hends, hdone⟩
  show (step HISTSIZE atoi e.input s).map _ = _
  rw [hstep, Option.map_some, hchildren]

-- ============================================================= the session

variable (HISTSIZE atoi) in
/-- The children do not tell the shell what to do. -/
theorem observed_shell (inputs : List Input) : ∀ (x : State × List (List Token)),
    (Lib.run (observed HISTSIZE atoi) inputs x).map Prod.fst
      = Lib.run (shell HISTSIZE atoi) inputs x.1 := by
  induction inputs with
  | nil => exact fun _ => rfl
  | cons i rest ih =>
      intro x
      cases hstep : step HISTSIZE atoi i x.1 with
      | none => simp only [Lib.run, observed, shell, hstep, Option.map_none]
      | some s' =>
          simp only [Lib.run, observed, shell, hstep, Option.map_some]
          exact ih _

/-- Lines like this, none of which but the last ends the shell. -/
theorem Tracks.lines (hH : Sized HISTSIZE) : ∀ (entries : List Entry)
    {s : State} {a : Ideal}, Tracks HISTSIZE s a → s.exited = false →
    (∀ e ∈ entries, e.Common atoi) →
    (∀ e ∈ entries.dropLast, e.words ≠ [exitWord]) →
    ∃ s' a', Lib.run (observed HISTSIZE atoi) (entries.map Entry.input)
        (s, a.children) = some (s', a'.children)
      ∧ Tracks HISTSIZE s' a'
      ∧ a'.children = a.children ++ commands entries
      ∧ (s'.exited = true ↔ ∃ e ∈ entries, e.Ends)
      ∧ (s'.exited = false → a'.done = a.done ++ commands entries)
  | [], s, a, h, hlive, _, _ => by
      rw [show commands [] = [] from rfl, List.append_nil, List.append_nil]
      refine ⟨s, a, rfl, h, rfl, ?_, fun _ => rfl⟩
      rw [hlive]
      simp
  | e :: rest, s, a, h, hlive, hcommon, hgo => by
      have he := hcommon e List.mem_cons_self
      obtain ⟨s₁, a₁, hstep, h₁, hchildren₁, hends₁, hdone₁⟩ :=
        h.common hH hlive he
      simp only [List.map_cons, Lib.run, hstep]
      rw [commands_cons, ← List.append_assoc, ← List.append_assoc,
        List.exists_mem_cons_iff]
      cases rest with
      | nil =>
          rw [show commands [] = [] from rfl, List.append_nil, List.append_nil]
          refine ⟨s₁, a₁, rfl, h₁, hchildren₁, hends₁.trans ?_, hdone₁⟩
          simp
      | cons e₁ rest =>
          have hnot : ¬e.Ends := mt he.ends_iff.mp (hgo e List.mem_cons_self)
          have hlive₁ : s₁.exited = false :=
            Bool.eq_false_iff.mpr (mt hends₁.mp hnot)
          obtain ⟨s', a', hrun, h', hchildren, hends, hdone⟩ :=
            h₁.lines hH (e₁ :: rest) hlive₁
              (fun e' he' => hcommon e' (List.mem_cons_of_mem e he'))
              fun e' he' => hgo e' (List.mem_cons_of_mem e he')
          refine ⟨s', a', hrun, h', hchildren₁ ▸ hchildren, ?_, fun hlive' => ?_⟩
          · rw [hends]
            exact (or_iff_right hnot).symm
          · rw [hdone hlive', hdone₁ hlive₁]

/-- On lines that are no recalls and do not ask for the history, of which only
the last may be `exit`, the two programs read the same bytes, start the same
children in the same order and are left at the same line or not at all; the
history then shows the last of these commands. -/
theorem shells_agree (hH : Sized HISTSIZE) (head tail : Int × Int)
    (entries : List Entry) (hcommon : ∀ e ∈ entries, e.Common atoi)
    (hgo : ∀ e ∈ entries.dropLast, e.words ≠ [exitWord]) (post : List UInt8) :
    ∃ enough, ∀ fuel, enough ≤ fuel → ∃ p s,
      Lib.run (plain fuel) (entries.map Entry.forks)
          ⟨entries.flatMap Entry.bytes ++ post, .start⟩ = some ⟨post, p⟩
        ∧ Lib.run (console HISTSIZE atoi fuel) (entries.map Entry.forks)
            ⟨entries.flatMap Entry.bytes ++ post, .start head tail⟩
          = some ⟨post, s⟩
        ∧ Lib.run (observed HISTSIZE atoi) (entries.map Entry.input)
            (State.start head tail, []) = some (s, p.executed)
        ∧ s.exited = p.exited
        ∧ (s.exited = false → ∃ commands, forwards s = some commands
          ∧ commands.map s.wordsOf
            = p.executed.rtake (u32 HISTSIZE + 1)) := by
  obtain ⟨enough₁, hplain⟩ := Served.lines post entries
    (fun e he => (hcommon e he).shell) fun e he =>
      mt (hcommon e (List.dropLast_subset _ he)).ends_iff.mp (hgo e he)
  obtain ⟨enough₂, hconsole⟩ := console_lines HISTSIZE atoi entries
    (fun e he => (hcommon e he).shellHist) post
  have hstart := tracks_start HISTSIZE head tail
  obtain ⟨s, a, hrun, htracks, hchildren, hends, hdone⟩ :=
    hstart.lines hH entries rfl hcommon hgo
  refine ⟨enough₁ + enough₂, fun fuel hle => ?_⟩
  obtain ⟨p, hserve, hserved, hends'⟩ :=
    hplain fuel (by omega) [] .start served_start rfl
  have hexecuted : p.executed = a.children :=
    hserved.executed.trans hchildren.symm
  refine ⟨p, s, hserve, ?_, hexecuted ▸ hrun, ?_, fun hlive => ?_⟩
  · have hshell := observed_shell HISTSIZE atoi
      (entries.map Entry.input) (State.start head tail, [])
    rw [show ([] : List (List Token)) = Ideal.start.children from rfl, hrun]
      at hshell
    rw [hconsole fuel (by omega), ← hshell]
    rfl
  · exact Bool.eq_iff_iff.mpr (hends.trans hends'.symm)
  · obtain ⟨commands, hforwards, hshown⟩ := htracks.agrees.history hlive
    refine ⟨commands, hforwards, hshown.trans ?_⟩
    rw [hexecuted, hchildren, Ideal.history, hdone hlive]
    rfl

/-- `ls -l`, a blank line, and `exit`. -/
theorem shells_agree_exit : ∃ enough, ∀ fuel, enough ≤ fuel → ∃ p s,
    Lib.run (plain fuel) [true, true, true]
        ⟨[108, 115, 32, 45, 108, 10, 32, 10, 101, 120, 105, 116, 10], .start⟩
          = some ⟨[], p⟩
      ∧ Lib.run (console 1 (fun _ => 0) fuel) [true, true, true]
        ⟨[108, 115, 32, 45, 108, 10, 32, 10, 101, 120, 105, 116, 10],
          .start (0, 0) (0, 0)⟩ = some ⟨[], s⟩
      ∧ s.exited = p.exited := by
  let entries : List Entry := [⟨[108, 115, 32, 45, 108], 10, true⟩,
    ⟨[32], 10, true⟩, ⟨[101, 120, 105, 116], 10, true⟩]
  have hchars : ∀ e ∈ entries, (∀ ch ∈ e.line, ch ≠ 0 ∧ ch ≠ 10)
      ∧ e.terminator = 10 ∧ e.line.head? ≠ some 255 ∧ e.line.length < 6
      ∧ e.forks = true ∧ (∀ word ∈ e.words.head?,
        request (fun _ => 0) word = none) ∧ e.words ≠ [historyWord] := by
    decide +kernel
  have hcommon : ∀ e ∈ entries, e.Common fun _ => 0 := by
    intro e he
    obtain ⟨hline, hterm, hfirst, hlength, hforks, htyped, hother⟩ := hchars e he
    have hread (v : Line.Version) : e.Readable v := by
      refine ⟨fun ch hch ht => ?_, .inr hterm, fun _ => hfirst, ?_⟩
      · exact ht.elim (hline ch hch).1 (hline ch hch).2
      · cases v <;> simp only [Line.kept] <;> omega
    exact ⟨hread .shell, hread .shellHist, hforks, htyped, hother⟩
  have hgo : ∀ e ∈ entries.dropLast, e.words ≠ [exitWord] := by decide +kernel
  obtain ⟨enough, hall⟩ := shells_agree (show Sized 1 from ⟨by decide, by decide⟩)
    (0, 0) (0, 0) entries hcommon hgo []
  refine ⟨enough, fun fuel hle => ?_⟩
  obtain ⟨p, s, hplain, hconsole, -, hexited, -⟩ := hall fuel hle
  exact ⟨p, s, hplain, hconsole, hexited⟩

end OperatingSystem.Shell
