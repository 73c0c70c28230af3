/-
When the read loops end.

# The buffer

`Holds s r`: the buffer holds the characters `s` and is zero behind them, and
its size is a power of two that is larger than their number. Storing one more
keeps this (`put_holds`), whether or not the line has to move, as long as the
size can be doubled in an `int`: up to `2^30 - 1` characters are stored.

# The end of a line

Only a newline or a NUL ends the loops. Behind the last byte of the stream
every round reads `(char)EOF`, which is neither, so a line that does not end
with one of the two is read for ever (`readLoop_endless`). `shell_hist.c` asks
for the end of the stream before a line, and `shell.c` nowhere.
-/
import OperatingSystem.Line.Basic
import Mathlib.Tactic.Common

namespace OperatingSystem.Line

open Lib (Cells)

variable {v : Version} {s pre post stream : List UInt8} {r r' : Reading}
  {ch t x : UInt8} {fuel : Nat}

-- ========================================================== the characters

theorem toChar_byte (b : UInt8) : toChar (b.toNat : Int) = b := by
  unfold toChar
  have hb : b.toNat < 256 := b.toNat_lt
  have hmod : ((b.toNat : Int) % 256).toNat = b.toNat := by omega
  rw [hmod, UInt8.ofNat_toNat]

/-- The end of the stream, as a `char`. -/
theorem toChar_eof : toChar EOF = 255 := rfl

theorem value_eq_eof : value ch = EOF ↔ ch = 255 := by
  unfold value EOF
  have hb : ch.toNat < 256 := ch.toNat_lt
  rw [← UInt8.toNat_inj]
  show _ ↔ ch.toNat = 255
  split <;> omega

/-- A newline or a NUL. -/
def Terminator (ch : UInt8) : Prop := ch = NUL ∨ ch = NEWLINE

theorem not_terminator_eof : ¬Terminator 255 := by
  rintro (h | h) <;> cases h

/-- How many characters of a line's end are stored: `shell.c` stores the
terminator. -/
def kept : Version → Nat
  | .shell => 1
  | .shellHist => 0

-- ============================================================== the buffer

/-- The buffer holds `s`, and its size is a power of two. -/
structure Holds (s : List UInt8) (r : Reading) : Prop where
  commandLine : r.commandLine = Cells.filled NUL s r.length
  index : r.index = s.length
  room : s.length < r.length
  power : ∃ j, r.length = 2 ^ j ∧ 1 ≤ j ∧ j ≤ 30

theorem int_of_lt {n : Nat} (h : n < 2147483648) : int n = some n := if_pos h

theorem Holds.length_le (h : Holds s r) : r.length ≤ 1073741824 := by
  obtain ⟨j, hj, -, hle⟩ := h.power
  rw [hj]
  exact Nat.pow_le_pow_right (by decide) hle

/-- A buffer that is full moves to one of twice its size, if an `int` holds
it. Its last character may be the terminator. -/
theorem grow_holds (hs : ∀ a ∈ s, a ≠ NUL)
    (hline : r.commandLine = Cells.filled NUL (s ++ [x]) r.length)
    (hindex : r.index = (s ++ [x]).length)
    (hfull : r.length = (s ++ [x]).length)
    (hpower : ∃ j, r.length = 2 ^ j ∧ 1 ≤ j ∧ j ≤ 29) :
    ∃ r', grow r = some r' ∧ Holds (s ++ [x]) r' ∧ r'.stream = r.stream
      ∧ r'.ch = r.ch := by
  obtain ⟨j, hj, hlo, hhi⟩ := hpower
  have hle : r.length ≤ 536870912 := by
    rw [hj]
    exact Nat.pow_le_pow_right (by decide) hhi
  have hroom : (s ++ [x]).length < r.length * 2 := by
    rw [← hfull, hj]
    have := Nat.two_pow_pos j
    omega
  have hcopy : Cells.strcpy NUL (Cells.filled NUL [] (r.length * 2))
      ((s ++ [x]).map some ++ [some NUL])
      = some (Cells.filled NUL (s ++ [x]) (r.length * 2)) := by
    by_cases hx : x = NUL
    · -- the copy stops at the terminator, and there are zeros behind it
      have hlen : s.length < r.length * 2 := by
        rw [List.length_append] at hroom
        omega
      rw [hx, Cells.filled_nul hlen, List.map_append, List.append_assoc]
      exact Cells.strcpy_filled hs hlen [some NUL]
    · refine Cells.strcpy_filled (fun a ha => ?_) hroom []
      rcases List.mem_append.mp ha with ha | ha
      · exact hs a ha
      · rw [List.mem_singleton.mp ha]
        exact hx
  refine ⟨{ r with
    commandLine := Cells.filled NUL (s ++ [x]) (r.length * 2)
    length := r.length * 2 }, ?_, ⟨rfl, hindex, hroom, j + 1, ?_, ?_, ?_⟩, rfl,
    rfl⟩
  · have hmoved : Cells.store (Cells.realloc r.commandLine (r.length + 1))
        r.index NUL = some ((s ++ [x]).map some ++ [some NUL]) := by
      rw [hline, hindex, hfull]
      exact Cells.realloc_filled (s ++ [x]) NUL
    unfold grow
    simp only [Option.bind_eq_bind]
    rw [int_of_lt (by omega), Option.bind_some,
      Nat.mul_div_cancel _ (by decide), hmoved, Option.bind_some,
      Cells.fill_malloc, Option.bind_some, hcopy, Option.bind_some]
  · show r.length * 2 = 2 ^ (j + 1)
    rw [hj, Nat.pow_succ]
  · omega
  · omega

/-- Both loops store a character and read one. -/
def put (x : UInt8) (r : Reading) : Option Reading := do
  let commandLine ← Cells.store r.commandLine r.index x
  let index ← int (r.index + 1)
  let r := { r with
    stream := (getchar r.stream).2
    commandLine
    index
    ch := toChar (getchar r.stream).1 }
  if index ≥ r.length then grow r else some r

theorem shellBody_eq (r : Reading) :
    shellBody r = put (toChar (getchar r.stream).1) r := rfl

theorem shellHistBody_eq (r : Reading) : shellHistBody r = put r.ch r := rfl

/-- The size cannot be doubled any more. -/
theorem grow_eq_none (h : 1073741824 ≤ r.length) : grow r = none := by
  unfold grow int
  rw [if_neg (by omega)]
  rfl

/-- One character more, as long as fewer than `2^30` are stored. -/
theorem put_holds (hs : ∀ a ∈ s, a ≠ NUL) (h : Holds s r) (x : UInt8)
    (hroom : s.length + 1 < 1073741824) : ∃ r', put x r = some r'
      ∧ Holds (s ++ [x]) r' ∧ r'.stream = (getchar r.stream).2
      ∧ r'.ch = toChar (getchar r.stream).1 := by
  have hstore : Cells.store r.commandLine r.index x
      = some (Cells.filled NUL (s ++ [x]) r.length) := by
    rw [h.commandLine, h.index]
    exact Cells.store_filled h.room x
  have hindex : int (r.index + 1) = some (s ++ [x]).length := by
    rw [h.index, int_of_lt (by omega)]
    simp
  have hlen : (s ++ [x]).length = s.length + 1 := by simp
  unfold put
  simp only [Option.bind_eq_bind]
  rw [hstore, Option.bind_some, hindex, Option.bind_some]
  obtain ⟨j, hj, hlo, hhi⟩ := h.power
  by_cases hfull : r.length ≤ s.length + 1
  · rw [if_pos (by rw [hlen]; exact hfull)]
    have heq : r.length = (s ++ [x]).length := by
      have := h.room
      omega
    refine grow_holds (r := { r with
      stream := (getchar r.stream).2
      commandLine := Cells.filled NUL (s ++ [x]) r.length
      index := (s ++ [x]).length
      ch := toChar (getchar r.stream).1 }) hs rfl rfl heq ⟨j, hj, hlo, ?_⟩
    by_contra hj30
    obtain rfl : j = 30 := by omega
    rw [hj] at heq
    omega
  · rw [if_neg (by rw [hlen]; exact hfull)]
    have hlt : (s ++ [x]).length < r.length := by omega
    exact ⟨_, rfl, ⟨rfl, rfl, hlt, j, hj, hlo, hhi⟩, rfl, rfl⟩

/-- And not one more. -/
theorem put_eq_none (h : Holds s r) (x : UInt8)
    (hroom : 1073741824 ≤ s.length + 1) : put x r = none := by
  have hle := h.length_le
  have hlt := h.room
  unfold put
  simp only [Option.bind_eq_bind]
  rw [h.commandLine, h.index, Cells.store_filled h.room, Option.bind_some,
    int_of_lt (by omega), Option.bind_some, if_pos (by simp; omega)]
  exact grow_eq_none (by simp; omega)

-- ================================================================ the loops

theorem readLoop_stop (h : Terminator r.ch) (v : Version) (fuel : Nat) :
    readLoop v (fuel + 1) r = some r := by
  rw [readLoop, if_neg]
  rcases h with h | h <;> simp [h]

theorem readLoop_round (h : ¬Terminator r.ch) (v : Version) (fuel : Nat) :
    readLoop v (fuel + 1) r = (body v r).bind (readLoop v fuel) := by
  rw [readLoop, if_pos (not_or.mp h)]
  rfl

theorem readLoop_stuck (h : ¬Terminator r.ch) (hnone : body v r = none)
    (fuel : Nat) : readLoop v fuel r = none := by
  cases fuel with
  | zero => rfl
  | succ fuel => rw [readLoop_round h, hnone, Option.bind_none]

/-- A round reads one character, whatever happens to the buffer. -/
theorem put_stream (h : put x r = some r') :
    r'.stream = (getchar r.stream).2 ∧ r'.ch = toChar (getchar r.stream).1 := by
  unfold put at h
  obtain ⟨commandLine, -, h⟩ := Option.bind_eq_some_iff.mp h
  obtain ⟨index, -, h⟩ := Option.bind_eq_some_iff.mp h
  dsimp only at h
  split at h
  case isTrue =>
    unfold grow at h
    obtain ⟨length, -, h⟩ := Option.bind_eq_some_iff.mp h
    obtain ⟨moved, -, h⟩ := Option.bind_eq_some_iff.mp h
    obtain ⟨temp, -, h⟩ := Option.bind_eq_some_iff.mp h
    obtain ⟨copy, -, h⟩ := Option.bind_eq_some_iff.mp h
    obtain rfl := Option.some.inj h
    exact ⟨rfl, rfl⟩
  case isFalse =>
    obtain rfl := Option.some.inj h
    exact ⟨rfl, rfl⟩

theorem body_stream (h : body v r = some r') :
    r'.stream = (getchar r.stream).2 ∧ r'.ch = toChar (getchar r.stream).1 := by
  cases v with
  | shell =>
      rw [body, shellBody_eq] at h
      exact put_stream h
  | shellHist =>
      rw [body, shellHistBody_eq] at h
      exact put_stream h

/-- Where no terminator is left the loop does not end. -/
theorem readLoop_endless (v : Version) (hch : ¬Terminator r.ch)
    (hstream : ∀ c ∈ r.stream, ¬Terminator c) (fuel : Nat) :
    readLoop v fuel r = none := by
  induction fuel generalizing r with
  | zero => rfl
  | succ fuel ih =>
      rw [readLoop_round hch]
      cases hbody : body v r with
      | none => rfl
      | some r' =>
          obtain ⟨hrest, hnext⟩ := body_stream hbody
          rw [Option.bind_some]
          cases hs : r.stream with
          | nil =>
              rw [hs] at hrest hnext
              refine ih ?_ ?_
              · rw [hnext]
                exact not_terminator_eof
              · rw [hrest]
                exact nofun
          | cons b rest =>
              rw [hs] at hrest hnext hstream
              refine ih ?_ ?_
              · rw [hnext, getchar, toChar_byte]
                exact hstream b List.mem_cons_self
              · rw [hrest]
                exact fun c hc => hstream c (List.mem_cons_of_mem b hc)

/-- The characters that are yet to be stored: `shell_hist.c` has one in
hand. -/
def pending : Version → Reading → List UInt8
  | .shell, r => r.stream
  | .shellHist, r => r.ch :: r.stream

/-- What is stored of a line. -/
def stored (v : Version) (pre : List UInt8) (t : UInt8) : List UInt8 :=
  match v with
  | .shell => pre ++ [t]
  | .shellHist => pre

theorem body_eq {rest : List UInt8} (h : pending v r = x :: rest) :
    body v r = put x r := by
  cases v with
  | shell =>
      rw [body, shellBody_eq, show r.stream = x :: rest from h, getchar,
        toChar_byte]
  | shellHist =>
      obtain ⟨rfl, -⟩ := List.cons.inj h
      rfl

/-- After a round the rest is pending. -/
theorem pending_next {rest : List UInt8} (h : pending v r = x :: rest)
    (hmore : rest ≠ []) (hrun : put x r = some r') :
    pending v r' = rest ∧ (v = .shell → r'.ch = x) := by
  obtain ⟨hstream, hnext⟩ := put_stream hrun
  cases v with
  | shell =>
      rw [show r.stream = x :: rest from h, getchar] at hstream hnext
      exact ⟨hstream, fun _ => hnext.trans (toChar_byte x)⟩
  | shellHist =>
      obtain ⟨-, hrest⟩ := List.cons.inj h
      obtain ⟨b, rest, rfl⟩ := List.exists_cons_of_ne_nil hmore
      rw [hrest, getchar] at hstream hnext
      refine ⟨?_, nofun⟩
      rw [pending, hstream, hnext, toChar_byte]

/-- The end of a line: the terminator is pending. -/
theorem readLoop_last (hs : ∀ a ∈ s, a ≠ NUL) (h : Holds s r)
    (hgo : v = .shell → ¬Terminator r.ch) (hline : pending v r = t :: post)
    (ht : Terminator t) :
    if s.length + kept v < 1073741824 then
      ∃ fuel r', readLoop v fuel r = some r' ∧ Holds (s ++ stored v [] t) r'
        ∧ r'.stream = post
    else ∀ fuel, readLoop v fuel r = none := by
  cases v with
  | shellHist =>
      -- the terminator is in hand, and is not stored
      obtain ⟨rfl, rfl⟩ := List.cons.inj hline
      have hle := h.length_le
      have hlt := h.room
      rw [if_pos (by simpa [kept] using hlt.trans_le hle)]
      exact ⟨1, r, readLoop_stop ht .shellHist 0, by simpa [stored] using h,
        rfl⟩
  | shell =>
      have hch := hgo rfl
      have hput := body_eq hline
      split
      case isTrue hfit =>
        obtain ⟨r', hrun, hr', hrest, hnext⟩ := put_holds hs h t hfit
        rw [show r.stream = t :: post from hline, getchar] at hrest hnext
        refine ⟨2, r', ?_, hr', hrest⟩
        rw [readLoop_round hch, hput, hrun]
        refine readLoop_stop ?_ .shell 0
        rw [hnext, toChar_byte]
        exact ht
      case isFalse hlong =>
        have hfull : 1073741824 ≤ s.length + 1 := Nat.le_of_not_lt hlong
        exact readLoop_stuck hch (hput.trans (put_eq_none h t hfull))

/-- The loop, up to the next terminator. -/
theorem readLoop_run (hs : ∀ a ∈ s, a ≠ NUL) (h : Holds s r)
    (hgo : v = .shell → ¬Terminator r.ch)
    (hline : pending v r = pre ++ t :: post)
    (hpre : ∀ c ∈ pre, ¬Terminator c) (ht : Terminator t) :
    if s.length + pre.length + kept v < 1073741824 then
      ∃ fuel r', readLoop v fuel r = some r' ∧ Holds (s ++ stored v pre t) r'
        ∧ r'.stream = post
    else ∀ fuel, readLoop v fuel r = none := by
  induction pre generalizing s r with
  | nil => exact readLoop_last hs h hgo hline ht
  | cons c pre ih =>
      have hc := hpre c List.mem_cons_self
      have hput : body v r = put c r := body_eq hline
      have hch : ¬Terminator r.ch := by
        cases v with
        | shell => exact hgo rfl
        | shellHist =>
            obtain ⟨rfl, -⟩ := List.cons.inj hline
            exact hc
      have hlen : (c :: pre).length = pre.length + 1 := rfl
      by_cases hroom : s.length + 1 < 1073741824
      · obtain ⟨r', hrun, hr', -⟩ := put_holds hs h c hroom
        obtain ⟨hpending, hlast⟩ := pending_next hline (by simp) hrun
        have hs' : ∀ a ∈ s ++ [c], a ≠ NUL := by
          intro a ha
          rcases List.mem_append.mp ha with ha | ha
          · exact hs a ha
          · rw [List.mem_singleton.mp ha]
            exact fun hnul => hc (.inl hnul)
        have hgo' : v = .shell → ¬Terminator r'.ch := fun hv => by
          rw [hlast hv]
          exact hc
        have hih := ih hs' hr' hgo' hpending fun c hc =>
          hpre c (List.mem_cons_of_mem _ hc)
        have hcount : (s ++ [c]).length + pre.length
            = s.length + (c :: pre).length := by
          simp
          omega
        have hstored : s ++ [c] ++ stored v pre t = s ++ stored v (c :: pre) t := by
          cases v <;> simp [stored]
        rw [hcount, hstored] at hih
        split
        case isTrue hfit =>
          rw [if_pos hfit] at hih
          obtain ⟨fuel, r'', hloop, hr'', hpost⟩ := hih
          refine ⟨fuel + 1, r'', ?_, hr'', hpost⟩
          rw [readLoop_round hch, hput, hrun]
          exact hloop
        case isFalse hlong =>
          rw [if_neg hlong] at hih
          intro fuel
          cases fuel with
          | zero => rfl
          | succ fuel =>
              rw [readLoop_round hch, hput, hrun]
              exact hih fuel
      · rw [if_neg (by rw [hlen]; omega)]
        exact readLoop_stuck hch (hput.trans (put_eq_none h c (by omega)))

-- ================================================================= a line

/-- The stream is at its end, as far as `shell_hist.c` can tell. -/
def AtEnd (stream : List UInt8) : Prop :=
  stream = [] ∨ stream.head? = some 255

theorem atEnd_iff : AtEnd stream ↔ value (toChar (getchar stream).1) = EOF := by
  unfold AtEnd
  rw [value_eq_eof]
  cases stream with
  | nil => simp [getchar, toChar_eof]
  | cons b rest => simp [getchar, toChar_byte]

/-- The buffer a line starts with. -/
theorem holds_start (stream : List UInt8) (ch : UInt8) : Holds []
    { stream, commandLine := Cells.filled NUL [] MAXLENGTH, index := 0
      length := MAXLENGTH, ch } :=
  ⟨rfl, rfl, show 0 < 2 by decide, 1, rfl, by decide, by decide⟩

/-- The `NUL` behind the line is there already. -/
theorem Holds.finish (h : Holds s r) :
    Cells.store r.commandLine r.index NUL = some (Cells.filled NUL s r.length) := by
  rw [h.commandLine, h.index, Cells.store_filled h.room, Cells.filled_nul h.room]

/-- `shell.c` goes straight into its loop. -/
theorem readLine_shell (fuel : Nat) (stream : List UInt8) :
    readLine .shell fuel stream
      = (readLoop .shell fuel ⟨stream, Cells.filled NUL [] MAXLENGTH, 0,
          MAXLENGTH, 65⟩).bind fun r =>
        (Cells.store r.commandLine r.index NUL).map (.line r.stream) := by
  unfold readLine
  rw [Cells.fill_malloc]
  simp only [Option.bind_eq_bind, Option.bind_some, Option.map_eq_bind]
  rfl

/-- `shell_hist.c` looks at the first character. -/
theorem readLine_shellHist (fuel : Nat) (stream : List UInt8) :
    readLine .shellHist fuel stream
      = if value (toChar (getchar stream).1) = EOF then some .exit
        else (readLoop .shellHist fuel ⟨(getchar stream).2,
          Cells.filled NUL [] MAXLENGTH, 0, MAXLENGTH,
          toChar (getchar stream).1⟩).bind fun r =>
            (Cells.store r.commandLine r.index NUL).map (.line r.stream) := by
  unfold readLine
  rw [Cells.fill_malloc]
  simp only [Option.bind_eq_bind, Option.bind_some, Option.map_eq_bind]
  rfl

/-- Where a line starts that `shell_hist.c` does not take for the end: the loop
of either program is entered with all of it pending. -/
theorem readLine_enters (v : Version) (stream : List UInt8)
    (hend : v = .shellHist → ¬AtEnd stream) : ∃ r, Holds [] r
      ∧ pending v r = stream ∧ (v = .shell → ¬Terminator r.ch)
      ∧ ∀ fuel, readLine v fuel stream = (readLoop v fuel r).bind fun r =>
        (Cells.store r.commandLine r.index NUL).map (.line r.stream) := by
  cases v with
  | shell =>
      refine ⟨_, holds_start stream 65, rfl, fun _ => ?_, fun fuel =>
        readLine_shell fuel stream⟩
      rintro (h | h) <;> cases h
  | shellHist =>
      have hnot := hend rfl
      cases stream with
      | nil => exact absurd (.inl rfl) hnot
      | cons b rest =>
          refine ⟨_, holds_start rest (toChar (getchar (b :: rest)).1), ?_,
            nofun, fun fuel => ?_⟩
          · rw [pending, getchar, toChar_byte]
          · rw [readLine_shellHist, if_neg (mt atEnd_iff.mpr hnot)]
            rfl

/-- A line that ends with a terminator is read if the buffer can hold it. -/
theorem readLine_line (v : Version)
    (hend : v = .shellHist → ¬AtEnd (pre ++ t :: post))
    (hpre : ∀ c ∈ pre, ¬Terminator c) (ht : Terminator t) :
    if pre.length + kept v < 1073741824 then
      ∃ fuel n, (stored v pre t).length < n
        ∧ readLine v fuel (pre ++ t :: post)
          = some (.line post (Cells.filled NUL (stored v pre t) n))
    else ∀ fuel, readLine v fuel (pre ++ t :: post) = none := by
  obtain ⟨r, hr, hpending, hgo, hread⟩ := readLine_enters v _ hend
  have hrun := readLoop_run (s := []) nofun hr hgo hpending hpre ht
  rw [List.length_nil, Nat.zero_add] at hrun
  split
  case isTrue hfit =>
    rw [if_pos hfit] at hrun
    obtain ⟨fuel, r', hloop, hr', rfl⟩ := hrun
    refine ⟨fuel, r'.length, hr'.room, ?_⟩
    rw [hread, hloop, Option.bind_some, hr'.finish]
    rfl
  case isFalse hlong =>
    rw [if_neg hlong] at hrun
    intro fuel
    rw [hread, hrun fuel]
    rfl

/-- A line without a terminator is not. -/
theorem readLine_endless (v : Version) (hend : v = .shellHist → ¬AtEnd stream)
    (hnone : ∀ c ∈ stream, ¬Terminator c) (fuel : Nat) :
    readLine v fuel stream = none := by
  obtain ⟨r, -, hpending, hgo, hread⟩ := readLine_enters v stream hend
  have hstuck : readLoop v fuel r = none := by
    cases v with
    | shell =>
        rw [← hpending] at hnone
        exact readLoop_endless .shell (hgo rfl) hnone fuel
    | shellHist =>
        rw [← hpending] at hnone
        exact readLoop_endless .shellHist (hnone _ List.mem_cons_self)
          (fun c hc => hnone c (List.mem_cons_of_mem _ hc)) fuel
  rw [hread, hstuck]
  rfl

/-- The first terminator of a stream, if there is one. -/
theorem terminator_cases (stream : List UInt8) :
    (∀ c ∈ stream, ¬Terminator c)
      ∨ ∃ pre t post, stream = pre ++ t :: post
        ∧ (∀ c ∈ pre, ¬Terminator c) ∧ Terminator t := by
  induction stream with
  | nil => exact .inl nofun
  | cons b rest ih =>
      by_cases hb : Terminator b
      · exact .inr ⟨[], b, rest, rfl, nofun, hb⟩
      · rcases ih with hnone | ⟨pre, t, post, rfl, hpre, ht⟩
        · exact .inl fun c hc => by
            rcases List.mem_cons.mp hc with rfl | hc
            · exact hb
            · exact hnone c hc
        · refine .inr ⟨b :: pre, t, post, rfl, fun c hc => ?_, ht⟩
          rcases List.mem_cons.mp hc with rfl | hc
          · exact hb
          · exact hpre c hc

/-- From where a line starts, the read loop ends if and only if
`shell_hist.c` finds the stream at its end, or there is a newline or a NUL
ahead with fewer than `2^30` characters to store up to it. -/
theorem line_read_iff (v : Version) (stream : List UInt8) :
    (∃ fuel out, readLine v fuel stream = some out)
      ↔ (v = .shellHist ∧ AtEnd stream)
        ∨ ∃ pre t post, stream = pre ++ t :: post
          ∧ (∀ c ∈ pre, ¬Terminator c) ∧ Terminator t
          ∧ pre.length + kept v < 1073741824 := by
  by_cases hend : v = .shellHist ∧ AtEnd stream
  · obtain ⟨rfl, hat⟩ := hend
    refine iff_of_true ⟨0, .exit, ?_⟩ (.inl ⟨rfl, hat⟩)
    rw [readLine_shellHist, if_pos (atEnd_iff.mp hat)]
  · have hloop : v = .shellHist → ¬AtEnd stream := fun hv hat => hend ⟨hv, hat⟩
    constructor
    · rintro ⟨fuel, out, hread⟩
      rcases terminator_cases stream with hnone | ⟨pre, t, post, rfl, hpre, ht⟩
      · rw [readLine_endless v hloop hnone] at hread
        cases hread
      · have hline := readLine_line v hloop hpre ht
        by_cases hfit : pre.length + kept v < 1073741824
        · exact .inr ⟨pre, t, post, rfl, hpre, ht, hfit⟩
        · rw [if_neg hfit] at hline
          rw [hline fuel] at hread
          cases hread
    · rintro (hat | ⟨pre, t, post, rfl, hpre, ht, hfit⟩)
      · exact absurd hat hend
      · have hline := readLine_line v hloop hpre ht
        rw [if_pos hfit] at hline
        obtain ⟨fuel, n, -, hread⟩ := hline
        exact ⟨fuel, _, hread⟩

/-- `shell.c` does not stop at the end of its input, nor `shell_hist.c` in a
line it ends in. -/
theorem line_not_read : (¬∃ fuel out, readLine .shell fuel [] = some out)
    ∧ ¬∃ fuel out, readLine .shellHist fuel [97] = some out := by
  constructor
  · rintro ⟨fuel, out, hread⟩
    have hnone : readLine .shell fuel [] = none :=
      readLine_endless .shell (fun hv => by cases hv) (by simp) fuel
    rw [hnone] at hread
    cases hread
  · rintro ⟨fuel, out, hread⟩
    have hnone : readLine .shellHist fuel [97] = none := by
      refine readLine_endless .shellHist (fun _ hat => ?_) (fun c hc => ?_) fuel
      · simp [AtEnd] at hat
      · rw [List.mem_singleton.mp hc]
        rintro (h | h) <;> cases h
    rw [hnone] at hread
    cases hread

end OperatingSystem.Line
