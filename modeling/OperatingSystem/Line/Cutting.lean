/-
What the `strtok` loop makes of a line.

# The array

`Slots ps t`: the starts `ps` are in the array, which is larger than their
number and has a power of two for its size. The test of its size comes behind
the write, so there is a slot for the next start at the head of the loop and
one for the `NULL` at its end.

# The buffer

`Cells.Cut` says where the line is on its way through `strtok`. The start of
the word found last is `split`, and goes into the array in the next round.
-/
import OperatingSystem.Line.Reading

namespace OperatingSystem.Line

open Lib (Cells)
open Lib.Cells (runs Cut)

variable {v : Version} {l line post : List UInt8} {ws : List (List UInt8)}
  {ps : List Nat} {t t' : Splitting} {p fuel : Nat}

-- =============================================================== the array

/-- The slots of the array, with these starts in them. -/
def slots (ps : List Nat) : Cells (Option Nat) := ps.map fun p => some (some p)

/-- The array holds the starts `ps`, and has room. -/
structure Slots (ps : List Nat) (t : Splitting) : Prop where
  counter : t.counter = ps.length
  args : t.args.take ps.length = slots ps
  room : ps.length < t.argLength
  size : t.args.length = t.argLength
  power : t.argLength = 2 ^ t.i

/-- What a round does to the array. -/
def push (split : Nat) (t : Splitting) : Option Splitting := do
  let args ← Cells.store t.args t.counter (some split)
  let counter ← int (t.counter + 1)
  if counter ≥ t.argLength then do
    let i ← int (t.i + 1)
    let argLength ← int (DEFAULT_NUMARG <<< i)
    some { t with
      args := Cells.realloc args argLength
      counter
      i
      argLength }
  else some { t with args, counter }

theorem push_slots (h : Slots ps t) (p : Nat)
    (hfew : ps.length + 1 < 1073741824) :
    ∃ t', push p t = some t' ∧ Slots (ps ++ [p]) t'
      ∧ t'.commandLine = t.commandLine ∧ t'.saved = t.saved
      ∧ t'.split = t.split := by
  have hin : ps.length < t.args.length := by
    rw [h.size]
    exact h.room
  have hlen : (ps ++ [p]).length = ps.length + 1 := by simp
  have htake : (t.args.set ps.length (some (some p))).take (ps.length + 1)
      = slots (ps ++ [p]) := by
    rw [List.take_add_one, List.take_set_of_le (Nat.le_refl _), h.args,
      List.getElem?_set_self hin]
    simp [slots]
  have hset : (t.args.set ps.length (some (some p))).length = t.argLength := by
    rw [List.length_set, h.size]
  unfold push
  simp only [Option.bind_eq_bind]
  rw [h.counter, Cells.store_of_lt hin, Option.bind_some, int_of_lt (by omega),
    Option.bind_some]
  by_cases hfull : ps.length + 1 ≥ t.argLength
  · have heq : t.argLength = ps.length + 1 := by
      have := h.room
      omega
    have hi : t.i < 30 := by
      by_contra hge
      have hpow : 2 ^ 30 ≤ 2 ^ t.i :=
        Nat.pow_le_pow_right (by decide) (by omega)
      rw [← h.power] at hpow
      omega
    have hdouble : DEFAULT_NUMARG <<< (t.i + 1) = 2 * t.argLength := by
      rw [h.power, DEFAULT_NUMARG, Nat.shiftLeft_eq, Nat.one_mul, Nat.pow_succ,
        Nat.mul_comm]
    rw [if_pos hfull, int_of_lt (by omega), Option.bind_some, hdouble,
      int_of_lt (by omega), Option.bind_some]
    refine ⟨_, rfl, ⟨hlen.symm, ?_, ?_, ?_, ?_⟩, rfl, rfl, rfl⟩
    · rw [Cells.realloc_of_le (by omega), hlen,
        List.take_append_of_le_length (by omega)]
      exact htake
    · show (ps ++ [p]).length < 2 * t.argLength
      omega
    · exact Cells.length_realloc (by omega)
    · show 2 * t.argLength = 2 ^ (t.i + 1)
      rw [h.power, Nat.pow_succ, Nat.mul_comm]
  · rw [if_neg hfull]
    refine ⟨_, rfl, ⟨hlen.symm, ?_, ?_, hset, h.power⟩, rfl, rfl, rfl⟩
    · rw [hlen]
      exact htake
    · show (ps ++ [p]).length < t.argLength
      omega

/-- A round writes the start it has into the array and asks for the next. -/
theorem splitBody_eq {x : Option Nat} {saved : Nat} {c : Cells UInt8}
    (h : Cells.strtok isDelim NUL t.saved t.commandLine = some (x, saved, c))
    (p : Nat) : splitBody p t
      = push p { t with split := x, saved, commandLine := c } := by
  unfold splitBody push
  simp only [Option.bind_eq_bind]
  rw [h]
  rfl

/-- `args[j] = NULL`, up to the end of the array. -/
theorem fillNull_eq {numArg size : Nat} {args : Cells (Option Nat)}
    (hsize : args.length = size) (hroom : numArg < size) :
    ∃ args', fillNull numArg size args = some args'
      ∧ args'.take numArg = args.take numArg
      ∧ args'[numArg]? = some (some none) := by
  suffices general : ∀ (k j : Nat) (args : Cells (Option Nat)),
      j + k ≤ args.length → ∃ args',
        (List.range' j k).foldlM (fun args j => Cells.store args j none) args
            = some args'
          ∧ args'.length = args.length
          ∧ ∀ i, args'[i]? = if j ≤ i ∧ i < j + k then some (some none)
            else args[i]? by
    obtain ⟨args', hrun, hlen, hcell⟩ :=
      general (size - numArg) numArg args (by omega)
    refine ⟨args', hrun, List.ext_getElem? fun i => ?_, ?_⟩
    · rw [List.getElem?_take, List.getElem?_take, hcell]
      split
      case isTrue hi => rw [if_neg (by omega)]
      case isFalse => rfl
    · rw [hcell, if_pos (by omega)]
  intro k
  induction k with
  | zero =>
      intro j args _
      refine ⟨args, rfl, rfl, fun i => ?_⟩
      rw [if_neg (by omega)]
  | succ k ih =>
      intro j args hle
      obtain ⟨args', hrun, hlen, hcell⟩ := ih (j + 1) (args.set j (some none))
        (by rw [List.length_set]; omega)
      refine ⟨args', ?_, by rw [hlen, List.length_set], fun i => ?_⟩
      · rw [List.range'_succ, List.foldlM_cons, Cells.store_of_lt (by omega)]
        exact hrun
      · rw [hcell, List.getElem?_set]
        by_cases hij : j = i
        · subst hij
          rw [if_neg (by omega), if_pos rfl, if_pos (by omega), if_pos (by omega)]
        · rw [if_neg hij]
          by_cases hin : j + 1 ≤ i ∧ i < j + 1 + k
          · rw [if_pos hin, if_pos (by omega)]
          · rw [if_neg hin, if_neg (by omega)]

-- ================================================================ the loop

/-- The loop, from a round on in which a start is waiting to be stored. -/
theorem splitLoop_run (hsplit : t.split = some p) (hslots : Slots ps t)
    (hcut : Cut isDelim NUL (ps ++ [p]) ws l t.commandLine t.saved)
    (hfew : ws.length + (runs isDelim l).length < 1073741824) :
    ∃ fuel t' ps', splitLoop fuel t = some t' ∧ Slots ps' t'
      ∧ Cut isDelim NUL ps' (ws ++ runs isDelim l) [] t'.commandLine t'.saved := by
  induction hn : (runs isDelim l).length using Nat.strong_induction_on
    generalizing t ps p ws l with
  | _ n ih =>
      have hlen := hcut.found.length_eq
      rw [List.length_append, List.length_singleton] at hlen
      obtain ⟨x, saved, c, hcall, hnext⟩ := hcut.call rfl
      obtain ⟨t₁, hpush, hslots₁, hline, hsaved, hx⟩ := push_slots
        (t := { t with split := x, saved, commandLine := c })
        ⟨hslots.counter, hslots.args, hslots.room, hslots.size, hslots.power⟩ p
        (by omega)
      have hcut₁ (ps ws l) (h : Cut isDelim NUL ps ws l c saved) :
          Cut isDelim NUL ps ws l t₁.commandLine t₁.saved := by
        rw [hline, hsaved]
        exact h
      have hbody : splitBody p t = some t₁ := (splitBody_eq hcall p).trans hpush
      have hround (fuel : Nat) : splitLoop (fuel + 1) t = splitLoop fuel t₁ := by
        rw [splitLoop, hsplit]
        simp only [Option.bind_eq_bind]
        rw [hbody, Option.bind_some]
      rcases hnext with ⟨rfl, hnone, hdone⟩ | ⟨q, w, l', rfl, hmore, hcut'⟩
      · -- no word is left: the loop looks once more at `split`
        refine ⟨2, t₁, ps ++ [p], ?_, hslots₁, ?_⟩
        · rw [hround, splitLoop, hx]
        · rw [hnone, List.append_nil]
          exact hcut₁ _ _ _ hdone
      · rw [hmore, List.length_cons] at hn hfew
        have hcount : (ws ++ [w]).length = ws.length + 1 := by simp
        obtain ⟨fuel, t', ps', hrun, hslots', hcut''⟩ := ih
          (runs isDelim l').length (by omega) hx hslots₁
          (hcut₁ _ _ _ hcut') (by omega) rfl
        refine ⟨fuel + 1, t', ps', ?_, hslots', ?_⟩
        · rw [hround]
          exact hrun
        · rw [hmore, List.append_cons]
          exact hcut''

/-- The words of a line are found, each where `args` says. -/
structure Cuts (line : List UInt8) (cmd : Command) : Prop where
  numArg : cmd.numArg = (runs isDelim line).length
  words : ∃ starts, cmd.args.take cmd.numArg = slots starts
    ∧ starts.map (fun p => Cells.str NUL (cmd.commandLine.drop p))
      = (runs isDelim line).map some
  null : cmd.args[cmd.numArg]? = some (some none)

/-- A buffer with a text that has words is cut into them. -/
theorem splitLine_cuts {n : Nat} (htext : ∀ a ∈ l, a ≠ NUL) (hlen : l.length < n)
    (hwords : runs isDelim l ≠ []) (hfew : (runs isDelim l).length < 1073741824) :
    ∃ fuel cmd, splitLine fuel (Cells.filled NUL l n) = some (some cmd)
      ∧ Cuts l cmd := by
  have hcut : Cut isDelim NUL [] [] l (Cells.filled NUL l n) 0 :=
    ⟨.nil, ⟨_, Cells.filled_eq hlen⟩, htext⟩
  obtain ⟨x, saved, c, hcall, hnext⟩ := hcut.call rfl
  rcases hnext with ⟨-, hnone, -⟩ | ⟨p, w, l', rfl, hmore, hcut'⟩
  · exact absurd hnone hwords
  rw [hmore, List.length_cons] at hfew
  have hslots : Slots [] { split := some p, saved, commandLine := c
                           args := Cells.malloc DEFAULT_NUMARG
                           counter := 0, i := 0, argLength := DEFAULT_NUMARG } :=
    ⟨rfl, rfl, show 0 < 1 by decide, rfl, rfl⟩
  obtain ⟨fuel, t', ps, hrun, hslots', hdone⟩ := splitLoop_run rfl hslots hcut'
    (by rw [List.length_append, List.length_singleton]; simp; omega)
  rw [List.nil_append, List.singleton_append, ← hmore] at hdone
  have hsize : DEFAULT_NUMARG <<< t'.i = t'.argLength := by
    rw [hslots'.power, DEFAULT_NUMARG, Nat.shiftLeft_eq, Nat.one_mul]
  have hroom : t'.counter < t'.argLength := by
    rw [hslots'.counter]
    exact hslots'.room
  obtain ⟨args, hfill, htake, hnull⟩ := fillNull_eq hslots'.size hroom
  refine ⟨fuel, ⟨t'.counter, args, t'.commandLine⟩, ?_, ?_, ⟨ps, ?_, ?_⟩, hnull⟩
  · unfold splitLine
    simp only [Option.bind_eq_bind]
    rw [hcall, Option.bind_some]
    simp only [reduceCtorEq, if_false]
    rw [hrun, Option.bind_some, hsize, hfill, Option.bind_some]
  · exact hslots'.counter.trans hdone.found.length_eq
  · have hargs := hslots'.args
    rw [← hslots'.counter] at hargs
    exact htake.trans hargs
  · exact hdone.words

-- ============================================================ more rounds

/-- A loop that has ended does not mind more rounds. -/
theorem readLoop_mono {r r' : Reading} (h : readLoop v fuel r = some r')
    (more : Nat) : readLoop v (fuel + more) r = some r' := by
  induction fuel generalizing r with
  | zero => cases h
  | succ fuel ih =>
      rw [Nat.succ_add]
      by_cases hch : Terminator r.ch
      · rw [readLoop_stop hch] at h ⊢
        exact h
      · rw [readLoop_round hch] at h ⊢
        obtain ⟨r₁, hbody, h⟩ := Option.bind_eq_some_iff.mp h
        rw [hbody, Option.bind_some]
        exact ih h

theorem splitLoop_mono (h : splitLoop fuel t = some t') (more : Nat) :
    splitLoop (fuel + more) t = some t' := by
  induction fuel generalizing t with
  | zero => cases h
  | succ fuel ih =>
      rw [Nat.succ_add]
      unfold splitLoop at h ⊢
      cases hsplit : t.split with
      | none =>
          rw [hsplit] at h
          exact h
      | some p =>
          rw [hsplit] at h
          obtain ⟨t₁, hbody, h⟩ := Option.bind_eq_some_iff.mp h
          simp only [Option.bind_eq_bind]
          rw [hbody, Option.bind_some]
          exact ih h

theorem readLine_mono {stream : List UInt8} {out : Outcome}
    (h : readLine v fuel stream = some out) (more : Nat) :
    readLine v (fuel + more) stream = some out := by
  by_cases hend : v = .shellHist ∧ AtEnd stream
  · obtain ⟨rfl, hat⟩ := hend
    rw [readLine_shellHist, if_pos (atEnd_iff.mp hat)] at h ⊢
    exact h
  · obtain ⟨r, -, -, -, hread⟩ := readLine_enters v stream
      fun hv hat => hend ⟨hv, hat⟩
    rw [hread] at h ⊢
    obtain ⟨r', hloop, h⟩ := Option.bind_eq_some_iff.mp h
    rw [readLoop_mono hloop, Option.bind_some]
    exact h

theorem splitLine_mono {c : Cells UInt8} {out : Option Command}
    (h : splitLine fuel c = some out) (more : Nat) :
    splitLine (fuel + more) c = some out := by
  unfold splitLine at h ⊢
  simp only [Option.bind_eq_bind] at h ⊢
  obtain ⟨⟨x, saved, c'⟩, hcall, h⟩ := Option.bind_eq_some_iff.mp h
  rw [hcall, Option.bind_some]
  dsimp only at h ⊢
  split at h
  case isTrue hx =>
    rw [if_pos hx]
    exact h
  case isFalse hx =>
    rw [if_neg hx]
    obtain ⟨t', hloop, h⟩ := Option.bind_eq_some_iff.mp h
    rw [splitLoop_mono hloop, Option.bind_some]
    exact h

-- ============================================================== the command

/-- A line of a command: no NUL, no 0xFF and no newline, and a character that
is no blank. -/
structure Typed (line : List UInt8) : Prop where
  chars : ∀ c ∈ line, c ≠ NUL ∧ c ≠ 255 ∧ c ≠ NEWLINE
  word : ∃ c ∈ line, c ≠ 32 ∧ c ≠ 9

theorem Typed.not_terminator (h : Typed line) :
    ∀ c ∈ line, ¬Terminator c := fun c hc ht =>
  ht.elim (h.chars c hc).1 (h.chars c hc).2.2

theorem Typed.not_atEnd (h : Typed line) (post : List UInt8) :
    ¬AtEnd (line ++ NEWLINE :: post) := by
  obtain ⟨c, hc, -⟩ := h.word
  cases line with
  | nil => cases hc
  | cons b line =>
      rintro (hat | hat)
      · cases hat
      · exact (h.chars b List.mem_cons_self).2.1 (Option.some.inj hat)

/-- What is stored of the line has its words and no NUL. -/
theorem Typed.stored_text (h : Typed line) (v : Version) :
    (∀ a ∈ stored v line NEWLINE, a ≠ NUL)
      ∧ runs isDelim (stored v line NEWLINE) = runs isDelim line
      ∧ (stored v line NEWLINE).length = line.length + kept v := by
  have hnul : ∀ a ∈ line, a ≠ NUL := fun a ha => (h.chars a ha).1
  cases v with
  | shellHist => exact ⟨hnul, rfl, rfl⟩
  | shell =>
      refine ⟨fun a ha => ?_, Cells.runs_append_delim rfl line, by
        simp [stored, kept]⟩
      rcases List.mem_append.mp ha with ha | ha
      · exact hnul a ha
      · rw [List.mem_singleton.mp ha]
        decide

theorem Typed.runs_ne_nil (h : Typed line) : runs isDelim line ≠ [] := by
  obtain ⟨c, hc, hspace, htab⟩ := h.word
  refine Cells.runs_ne_nil hc ?_
  simp [isDelim, hspace, htab, (h.chars c hc).2.2]

/-- A line that is too long for the buffer has no words. -/
theorem Typed.too_long (h : Typed line) (hlong : ¬line.length + kept v < 1073741824)
    (post : List UInt8) (fuel : Nat) :
    readCommand v fuel (line ++ NEWLINE :: post) = none := by
  have hread := readLine_line v (fun _ => h.not_atEnd post)
    h.not_terminator (.inr rfl)
  rw [if_neg hlong] at hread
  unfold readCommand
  rw [hread]
  rfl

/-- Any other is cut into its words. -/
theorem Typed.cuts (h : Typed line) (hfit : line.length + kept v < 1073741824)
    (post : List UInt8) : ∃ cmd enough, Cuts line cmd ∧ ∀ fuel, enough ≤ fuel →
      readCommand v fuel (line ++ NEWLINE :: post) = some (some cmd) := by
  have hread := readLine_line v (fun _ => h.not_atEnd post)
    h.not_terminator (.inr rfl)
  rw [if_pos hfit] at hread
  obtain ⟨fuel₁, n, hroom, hread⟩ := hread
  obtain ⟨hnul, hruns, hlen⟩ := h.stored_text v
  have hcount := Cells.length_runs_le isDelim (stored v line NEWLINE)
  obtain ⟨fuel₂, cmd, hsplit, hcuts⟩ := splitLine_cuts hnul hroom
    (by rw [hruns]; exact h.runs_ne_nil) (by omega)
  refine ⟨cmd, fuel₁ + fuel₂, ?_, fun fuel hle => ?_⟩
  · obtain ⟨hnum, hwords, hnull⟩ := hcuts
    rw [hruns] at hnum hwords
    exact ⟨hnum, hwords, hnull⟩
  · have hread' := readLine_mono hread (fuel - fuel₁)
    have hsplit' := splitLine_mono hsplit (fuel - fuel₂)
    rw [show fuel₁ + (fuel - fuel₁) = fuel by omega] at hread'
    rw [show fuel₂ + (fuel - fuel₂) = fuel by omega] at hsplit'
    unfold readCommand
    rw [hread']
    exact hsplit'

/-- A typed line is cut into the maximal runs of characters that are neither
space nor tab nor newline, with `NULL` behind them, and without an access
outside a block, if and only if fewer than `2^30` characters are stored. -/
theorem line_cut_iff (h : Typed line) (v : Version) (post : List UInt8) :
    (∃ cmd enough, Cuts line cmd ∧ ∀ fuel, enough ≤ fuel →
      readCommand v fuel (line ++ NEWLINE :: post) = some (some cmd))
      ↔ line.length + kept v < 1073741824 := by
  constructor
  · rintro ⟨cmd, enough, -, hrun⟩
    by_contra hlong
    have hnone := hrun enough (Nat.le_refl _)
    rw [h.too_long hlong] at hnone
    cases hnone
  · exact fun hfit => h.cuts hfit post

/-- `ls -l`, in `shell.c`. -/
theorem line_cut_iff_ls : ∃ cmd enough, Cuts [108, 115, 32, 45, 108] cmd
    ∧ ∀ fuel, enough ≤ fuel →
      readCommand .shell fuel ([108, 115, 32, 45, 108] ++ NEWLINE :: [])
        = some (some cmd) :=
  (line_cut_iff ⟨by simp [NUL, NEWLINE], 108, by simp, by decide⟩ .shell
    []).mpr (by decide)

/-- A word of `2^30` characters is not read: the size of the buffer cannot be
doubled. -/
theorem long_word_not_cut : ¬∃ cmd enough,
    Cuts (List.replicate 1073741824 97) cmd ∧ ∀ fuel, enough ≤ fuel →
      readCommand .shellHist fuel
        (List.replicate 1073741824 97 ++ NEWLINE :: []) = some (some cmd) := by
  rintro ⟨cmd, enough, -, hrun⟩
  have htyped : Typed (List.replicate 1073741824 97) := by
    refine ⟨fun c hc => ?_, 97, ?_, by decide⟩
    · rw [List.eq_of_mem_replicate hc]
      decide
    · exact List.mem_replicate.mpr ⟨by decide, rfl⟩
  have hlong : ¬(List.replicate 1073741824 (97 : UInt8)).length + kept .shellHist
      < 1073741824 := by
    rw [List.length_replicate, kept]
    exact Nat.lt_irrefl _
  have hnone := hrun enough (Nat.le_refl _)
  rw [htyped.too_long hlong] at hnone
  cases hnone

end OperatingSystem.Line
