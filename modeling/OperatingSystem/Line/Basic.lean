/-
How the two shells of hw2 read a line and cut it into words: the part of
`main` that `shell.c` and `shell_hist.c` have in common, up to the command.

# Reading

`getchar` returns an `int`, the next byte or `EOF`, and goes on returning `EOF`
at the end of the stream; `char` is signed, so `(char)EOF` and the byte 0xFF
are one value. Both programs read into a buffer that starts with `MAXLENGTH`
bytes and doubles when it is full. `shell.c` stores a character before it looks
at it, the line's end included; `shell_hist.c` looks first, and only there, at
the first character of a line, does a program ask for `EOF`.

# Cutting

`strtok` cuts the buffer at spaces, newlines and tabs, and the starts of the
words go into an array that starts with `DEFAULT_NUMARG` slots and doubles when
it is full. `bzero(args, DEFAULT_NUMARG)` clears one byte of its first slot,
which leaves the pointer there as indeterminate as before.

# What has no result

An access outside a block, a read of a cell that was never written, and an
`int` that overflows. The loops take the number of rounds they may make;
`malloc` and `realloc` succeed. What is printed is left out.
-/
import OperatingSystem.Lib.Tokens

namespace OperatingSystem.Line

open Lib (Cells)

-- ============================================================== the types

/-- The two programs. -/
inductive Version where
  | shell
  | shellHist
  deriving DecidableEq, Repr

def MAXLENGTH : Nat := 2
def DEFAULT_NUMARG : Nat := 1
def EOF : Int := -1

/-- `'\0'`, `'\n'` and `" \n\t"`. -/
def NUL : UInt8 := 0
def NEWLINE : UInt8 := 10

def isDelim (ch : UInt8) : Bool := ch = 32 || ch = NEWLINE || ch = 9

/-- A count that is kept in an `int`. -/
def int (n : Nat) : Option Nat := if n < 2147483648 then some n else none

/-- `(char)c`. -/
def toChar (c : Int) : UInt8 := UInt8.ofNat (c % 256).toNat

/-- The value of a `char`. -/
def value (ch : UInt8) : Int := if ch.toNat < 128 then ch.toNat else ch.toNat - 256

/-- `getchar`, on what is left of the stream. -/
def getchar : List UInt8 → Int × List UInt8
  | [] => (EOF, [])
  | b :: rest => (b.toNat, rest)

-- ============================================================== the reading

/-- The variables of the read loop. -/
structure Reading where
  stream : List UInt8
  commandLine : Cells UInt8
  index : Nat
  length : Nat
  ch : UInt8

/-- What both loops do when the buffer is full: the line moves to one of twice
the length. -/
def grow (r : Reading) : Option Reading := do
  let length ← int (r.length * 2)
  let temp := Cells.malloc length
  let commandLine := Cells.realloc r.commandLine (length / 2 + 1)
  let commandLine ← Cells.store commandLine r.index NUL
  let temp ← Cells.fill temp length NUL
  let temp ← Cells.strcpy NUL temp commandLine
  some { r with commandLine := temp, length }

/-- One round of the loop of `shell.c`. -/
def shellBody (r : Reading) : Option Reading := do
  let (c, stream) := getchar r.stream
  let ch := toChar c
  let commandLine ← Cells.store r.commandLine r.index ch
  let index ← int (r.index + 1)
  let r := { r with stream, commandLine, index, ch }
  if index ≥ r.length then grow r else some r

/-- One round of the loop of `shell_hist.c`. -/
def shellHistBody (r : Reading) : Option Reading := do
  let commandLine ← Cells.store r.commandLine r.index r.ch
  let (c, stream) := getchar r.stream
  let ch := toChar c
  let index ← int (r.index + 1)
  let r := { r with stream, commandLine, index, ch }
  if index ≥ r.length then grow r else some r

def body : Version → Reading → Option Reading
  | .shell => shellBody
  | .shellHist => shellHistBody

/-- `while(ch != '\0' && ch != '\n')`. -/
def readLoop (v : Version) : (fuel : Nat) → Reading → Option Reading
  | 0, _ => none
  | fuel + 1, r =>
      if r.ch ≠ NUL ∧ r.ch ≠ NEWLINE then do
        let r ← body v r
        readLoop v fuel r
      else some r

/-- What comes of reading a line. -/
inductive Outcome where
  | exit
  | line (stream : List UInt8) (commandLine : Cells UInt8)

/-- A line is read from `stream` on. -/
def readLine (v : Version) (fuel : Nat) (stream : List UInt8) :
    Option Outcome := do
  let commandLine ← Cells.fill (Cells.malloc MAXLENGTH) MAXLENGTH NUL
  match v with
  | .shell =>
      let r ← readLoop v fuel
        { stream, commandLine, index := 0, length := MAXLENGTH, ch := 65 }
      let commandLine ← Cells.store r.commandLine r.index NUL
      some (.line r.stream commandLine)
  | .shellHist =>
      let (c, stream) := getchar stream
      let ch := toChar c
      if value ch = EOF then some .exit
      else
        let r ← readLoop v fuel
          { stream, commandLine, index := 0, length := MAXLENGTH, ch }
        let commandLine ← Cells.store r.commandLine r.index NUL
        some (.line r.stream commandLine)

-- ============================================================== the cutting

/-- The variables of the `strtok` loop; `saved` is what `strtok` keeps. -/
structure Splitting where
  split : Option Nat
  saved : Nat
  commandLine : Cells UInt8
  args : Cells (Option Nat)
  counter : Nat
  i : Nat
  argLength : Nat

/-- One round of the loop, for the token `split`. -/
def splitBody (split : Nat) (t : Splitting) : Option Splitting := do
  let args ← Cells.store t.args t.counter (some split)
  let counter ← int (t.counter + 1)
  let (split, saved, commandLine) ←
    Cells.strtok isDelim NUL t.saved t.commandLine
  let t := { t with split, saved, commandLine, args, counter }
  if counter ≥ t.argLength then do
    let i ← int (t.i + 1)
    let argLength ← int (DEFAULT_NUMARG <<< i)
    some { t with args := Cells.realloc t.args argLength, i, argLength }
  else some t

/-- `while(split != NULL)`. -/
def splitLoop : (fuel : Nat) → Splitting → Option Splitting
  | 0, _ => none
  | fuel + 1, t =>
      match t.split with
      | none => some t
      | some split => do
          let t ← splitBody split t
          splitLoop fuel t

/-- `args[j] = NULL`, from `numArg` to the end of the array. -/
def fillNull (numArg size : Nat) (args : Cells (Option Nat)) :
    Option (Cells (Option Nat)) :=
  (List.range' numArg (size - numArg)).foldlM
    (fun args j => Cells.store args j none) args

/-- The words of a line: `args` has the position of each in `commandLine`. -/
structure Command where
  numArg : Nat
  args : Cells (Option Nat)
  commandLine : Cells UInt8

/-- A line is cut; a blank one has no words. -/
def splitLine (fuel : Nat) (commandLine : Cells UInt8) :
    Option (Option Command) := do
  let (split, saved, commandLine) ← Cells.strtok isDelim NUL 0 commandLine
  if split = none then some none
  else
    let t ← splitLoop fuel
      { split, saved, commandLine, args := Cells.malloc DEFAULT_NUMARG
        counter := 0, i := 0, argLength := DEFAULT_NUMARG }
    let args ← fillNull t.counter (DEFAULT_NUMARG <<< t.i) t.args
    some (some ⟨t.counter, args, t.commandLine⟩)

/-- A line is read and cut into the words of a command, if it has any. -/
def readCommand (v : Version) (fuel : Nat) (stream : List UInt8) :
    Option (Option Command) := do
  match ← readLine v fuel stream with
  | .exit => some none
  | .line _ commandLine => splitLine fuel commandLine

end OperatingSystem.Line
