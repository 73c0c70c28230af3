/-
The lines a shell of hw2 is given, and the words it finds in them.

The reading and the cutting of a line (`Line.readLine`, `Line.splitLine`)
know buffers and positions in them. What the rest of a round is given are the
strings that `args` points at, and these are the words of the line
(`Entry.Readable.words`), in either program, whether the line has any or not.
-/
import OperatingSystem.Line.Cutting
import OperatingSystem.Shell.Basic

namespace OperatingSystem.Shell

open Lib (Cells)
open Lib.Cells (runs)
open Line (NUL NEWLINE Version isDelim kept Terminator AtEnd Cuts slots)

variable {v : Version} {line post : List UInt8} {cmd : Line.Command}

-- ============================================================== the lines

/-- The input that has not been read, and the state of the shell. -/
structure Console (σ : Type) where
  stream : List UInt8
  state : σ

/-- The characters of a string. -/
def token (w : List UInt8) : Token := w.map fun b => Char.ofNat b.toNat

/-- The strings that `args` points at, up to its `NULL`. -/
def argStrings (cmd : Line.Command) : Option (List Token) :=
  (List.range cmd.numArg).mapM fun j => do
    let p ← (Cells.load cmd.args j).join
    let w ← Cells.str NUL (cmd.commandLine.drop p)
    some (token w)

/-- A line, what ends it, and whether `fork` succeeds for it. -/
structure Entry where
  line : List UInt8
  terminator : UInt8
  forks : Bool

/-- The line can be read: it ends where it says, it does not begin with what
`shell_hist.c` takes for the end of its input, and the buffer can hold it. -/
structure Entry.Readable (v : Version) (e : Entry) : Prop where
  chars : ∀ ch ∈ e.line, ¬Terminator ch
  terminator : Terminator e.terminator
  first : v = .shellHist → e.line.head? ≠ some 255
  length : e.line.length + kept v < 1073741824

def Entry.bytes (e : Entry) : List UInt8 := e.line ++ [e.terminator]

def Entry.words (e : Entry) : List Token := (runs isDelim e.line).map token

-- ============================================================== the words

theorem load_slots {args : Cells (Option Nat)} {n j : Nat} {starts : List Nat}
    (h : args.take n = slots starts) (hj : j < n) :
    (Cells.load args j).join = starts[j]? := by
  have hget : args[j]? = (slots starts)[j]? := by
    rw [← h, List.getElem?_take_of_lt hj]
  unfold Cells.load
  rw [hget, slots, List.getElem?_map]
  cases starts[j]? <;> rfl

/-- Reading a list element by element. -/
theorem mapM_range {α : Type} {f : Nat → Option α} (l : List α)
    (h : ∀ j < l.length, f j = l[j]?) : (List.range l.length).mapM f = some l := by
  induction l generalizing f with
  | nil => rfl
  | cons a l ih =>
      have hfirst : f 0 = some a := h 0 (Nat.zero_lt_succ _)
      have hrest := ih (f := f ∘ Nat.succ) fun j hj =>
        h (j + 1) (Nat.succ_lt_succ hj)
      rw [List.length_cons, List.range_succ_eq_map, List.mapM_cons, hfirst,
        List.mapM_map]
      simp only [Option.bind_eq_bind, Option.bind_some]
      rw [hrest]
      rfl

/-- The strings that `args` points at are the words of the line. -/
theorem argStrings_eq (h : Cuts line cmd) :
    argStrings cmd = some ((runs isDelim line).map token) := by
  obtain ⟨starts, hslots, hwords⟩ := h.words
  have hlength : cmd.numArg = ((runs isDelim line).map token).length := by
    rw [List.length_map]
    exact h.numArg
  have hstarts : starts.length = (runs isDelim line).length := by
    have hlengths := congrArg List.length hwords
    rwa [List.length_map, List.length_map] at hlengths
  unfold argStrings
  rw [hlength]
  refine mapM_range _ fun j hj => ?_
  have hnum : j < cmd.numArg := hlength ▸ hj
  rw [List.length_map] at hj
  have hstart : j < starts.length := hstarts ▸ hj
  have hstr : Cells.str NUL (cmd.commandLine.drop starts[j])
      = some (runs isDelim line)[j] := by
    have hget := congrArg (·[j]?) hwords
    simp only [List.getElem?_map, List.getElem?_eq_getElem hstart,
      List.getElem?_eq_getElem hj, Option.map_some] at hget
    exact Option.some.inj hget
  rw [load_slots hslots hnum, List.getElem?_eq_getElem hstart,
    List.getElem?_map, List.getElem?_eq_getElem hj]
  simp only [Option.bind_eq_bind, Option.bind_some, hstr, Option.map_some]

/-- A buffer with a text that has no words. -/
theorem splitLine_blank {l : List UInt8} {n : Nat} (htext : ∀ a ∈ l, a ≠ NUL)
    (hlen : l.length < n) (hnone : runs isDelim l = []) (fuel : Nat) :
    Line.splitLine fuel (Cells.filled NUL l n) = some none := by
  have hcut : Cells.Cut isDelim NUL [] [] l (Cells.filled NUL l n) 0 :=
    ⟨.nil, ⟨_, Cells.filled_eq hlen⟩, htext⟩
  obtain ⟨x, saved, c, hcall, hnext⟩ := hcut.call rfl
  rcases hnext with ⟨rfl, -, -⟩ | ⟨p, w, l', rfl, hmore, -⟩
  · unfold Line.splitLine
    rw [hcall]
    rfl
  · rw [hnone] at hmore
    cases hmore

/-- Cutting a line, whether it has words or not. -/
theorem splitLine_strings {l : List UInt8} {n : Nat} (htext : ∀ a ∈ l, a ≠ NUL)
    (hlen : l.length < n) (hfew : l.length < 1073741824) :
    ∃ enough, ∀ fuel, enough ≤ fuel →
      ∃ cmd, Line.splitLine fuel (Cells.filled NUL l n) = some cmd
        ∧ cmd.elim (some []) argStrings
          = some ((runs isDelim l).map token) := by
  by_cases hnone : runs isDelim l = []
  · refine ⟨0, fun fuel _ => ⟨none, splitLine_blank htext hlen hnone fuel, ?_⟩⟩
    rw [hnone]
    rfl
  · have hcount := Cells.length_runs_le isDelim l
    obtain ⟨enough, cmd, hsplit, hcuts⟩ := Line.splitLine_cuts htext hlen hnone
      (by omega)
    refine ⟨enough, fun fuel hle => ⟨some cmd, ?_, argStrings_eq hcuts⟩⟩
    have hmore := Line.splitLine_mono hsplit (fuel - enough)
    rwa [Nat.add_sub_cancel' hle] at hmore

theorem Entry.Readable.not_atEnd {e : Entry} (h : e.Readable .shellHist)
    (post : List UInt8) : ¬AtEnd (e.line ++ e.terminator :: post) := by
  rintro (hnil | hhead)
  · simp at hnil
  · cases hline : e.line with
    | nil =>
        rw [hline] at hhead
        have hterm : e.terminator = 255 := Option.some.inj hhead
        exact Line.not_terminator_eof (hterm ▸ h.terminator)
    | cons b rest =>
        rw [hline] at hhead
        exact h.first rfl (by rw [hline]; exact hhead)

/-- A terminator that `shell.c` has stored is no word and no part of one. -/
theorem Entry.Readable.stored {e : Entry} (h : e.Readable v) {n : Nat}
    (hroom : (Line.stored v e.line e.terminator).length < n) :
    ∃ l, Cells.filled NUL (Line.stored v e.line e.terminator) n
        = Cells.filled NUL l n
      ∧ (∀ a ∈ l, a ≠ NUL) ∧ l.length < n ∧ l.length < 1073741824
      ∧ runs isDelim l = runs isDelim e.line := by
  have hlength := h.length
  have hnul : ∀ a ∈ e.line, a ≠ NUL := fun a ha heq => h.chars a ha (.inl heq)
  cases v with
  | shellHist => exact ⟨e.line, rfl, hnul, hroom, by omega, rfl⟩
  | shell =>
      have hstored : Line.stored .shell e.line e.terminator
        = e.line ++ [e.terminator] := rfl
      have hlen : (e.line ++ [e.terminator]).length = e.line.length + 1 := by simp
      rw [hstored] at hroom ⊢
      rcases h.terminator with hterm | hterm
      · rw [hterm]
        exact ⟨e.line, Cells.filled_nul (by omega), hnul, by omega, by omega, rfl⟩
      · rw [hterm] at hroom hlen ⊢
        refine ⟨_, rfl, fun a ha => ?_, hroom, ?_, Cells.runs_append_delim rfl _⟩
        · rcases List.mem_append.mp ha with ha | ha
          · exact hnul a ha
          · rw [List.mem_singleton.mp ha]
            decide
        · rw [hlen]
          exact h.length

/-- A line that can be read is cut into its words, by either program. -/
theorem Entry.Readable.words {e : Entry} (h : e.Readable v)
    (post : List UInt8) : ∃ enough, ∀ fuel, enough ≤ fuel → ∃ c cmd,
      Line.readLine v fuel (e.bytes ++ post) = some (.line post c)
        ∧ Line.splitLine fuel c = some cmd
        ∧ cmd.elim (some []) argStrings = some e.words := by
  have hbytes : e.bytes ++ post = e.line ++ e.terminator :: post := by
    rw [Entry.bytes, List.append_assoc]
    rfl
  have hend : v = .shellHist → ¬AtEnd (e.line ++ e.terminator :: post) := by
    rintro rfl
    exact h.not_atEnd post
  have hread := Line.readLine_line v hend h.chars h.terminator
  rw [if_pos h.length, ← hbytes] at hread
  obtain ⟨fuel₁, n, hroom, hread⟩ := hread
  obtain ⟨l, hbuffer, hnul, hlen, hfew, hruns⟩ := h.stored hroom
  rw [hbuffer] at hread
  obtain ⟨fuel₂, hsplit⟩ := splitLine_strings hnul hlen hfew
  refine ⟨fuel₁ + fuel₂, fun fuel hle => ?_⟩
  have hmore := Line.readLine_mono hread (fuel - fuel₁)
  rw [Nat.add_sub_cancel' (by omega)] at hmore
  obtain ⟨cmd, hcmd, hwords⟩ := hsplit fuel (by omega)
  rw [hruns] at hwords
  exact ⟨_, cmd, hmore, hcmd, hwords⟩

end OperatingSystem.Shell
