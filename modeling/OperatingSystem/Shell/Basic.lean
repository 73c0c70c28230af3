/-
The shell with a history of hw2: `shell_hist.c`, from the moment a line has
been read and cut into words.

# Memory

Three kinds of blocks come from `malloc`: history records, `args` arrays and
line buffers. A pointer is a number, `NULL` is 0, and no number is given out
twice, so `freed` names the blocks that are gone. A record behind `NULL` or
one that has been freed faults: the step has no result. What is done to the
other two kinds is kept in `trace`, each `free` and each read together with
the memory it happened in.

# The environment

`atoi` is a parameter whose value is taken as an `int`. A line is its words;
whether `fork` succeeds comes with it. A child reads the array it is to
execute and leaves the parent's memory alone. The loop that reads a line,
its prompt and what is printed are left out.

# Loops

The loops over the list take the number of iterations they may make, the
number of blocks there are: one that is not done by then never is.
-/
import Mathlib.Logic.Function.Basic
import OperatingSystem.Lib.Buffer

namespace OperatingSystem.Shell

open Lib (i32)

-- ============================================================== the types

def NULL : Nat := 0
def DELETED : Int := 0
def NOTDELETED : Int := 1

/-- A string. -/
abbrev Token := List Char

/-- The value of an `unsigned int` computation. -/
def u32 (n : Int) : Nat := (n % 2 ^ 32).toNat

/-- What `malloc` has returned. -/
inductive Block where
  | record (p : Nat)
  | args (p : Nat)
  | line (p : Nat)
  deriving DecidableEq, Repr

/-- `histCommand`. -/
structure HistCommand where
  numArg : Nat
  args : Nat
  command : Nat
  prev : Nat
  next : Nat
  commandId : Int
  delete : Int

/-- An `args` array: the buffer its strings lie in, and the strings. -/
structure Argv where
  line : Nat
  words : List Token

/-- The records, the two sentinels, the record `addToTail` is about to
link, and the blocks that have been freed. -/
structure Memory where
  record : Nat → HistCommand
  head : Nat
  tail : Nat
  toAdd : Nat
  freed : List Block

/-- A `free`, or a read of an `args` array or its strings, in `m`. -/
inductive Event where
  | free (b : Block) (m : Memory)
  | read (b : Block) (m : Memory)

structure State where
  mem : Memory
  argv : Nat → Argv
  /-- The number the next `malloc` returns. -/
  brk : Nat
  numHist : Nat
  commandId : Int
  /-- The globals `args` and `commandLine`. -/
  args : Nat
  commandLine : Nat
  trace : List Event
  exited : Bool

-- =========================================================== the records

namespace State

variable (s : State) (p v : Nat)

/-- `*p`. -/
def load : Option HistCommand :=
  if p = NULL ∨ Block.record p ∈ s.mem.freed then none
  else some (s.mem.record p)

def withRecords (record : Nat → HistCommand) : State :=
  { s with mem := { s.mem with record } }

def setRecord (r : HistCommand) : State :=
  s.withRecords (Function.update s.mem.record p r)

def setNext : Option State :=
  (s.load p).map fun r => s.setRecord p { r with next := v }

def setPrev : Option State :=
  (s.load p).map fun r => s.setRecord p { r with prev := v }

def setDelete (v : Int) : Option State :=
  (s.load p).map fun r => s.setRecord p { r with delete := v }

/-- `free` of a block that is not `NULL`. -/
def free (b : Block) : State :=
  { s with
    mem := { s.mem with freed := b :: s.mem.freed }
    trace := .free b s.mem :: s.trace }

/-- `free(args)`. -/
def freeArgs : State := if p = NULL then s else s.free (.args p)

/-- `free(command)`. -/
def freeLine : State := if p = NULL then s else s.free (.line p)

/-- An `args` array and its strings are read. -/
def readArgs : Option State :=
  if p = NULL then none
  else some { s with
    trace := .read (.line (s.argv p).line) s.mem :: .read (.args p) s.mem
      :: s.trace }

end State

-- ============================================================== the list

/-- `createNode`. -/
def createNode (command args numArg : Nat) (commandId : Int) (s : State) :
    Nat × State :=
  (s.brk, { s.setRecord s.brk {
    numArg, args, command, prev := NULL, next := NULL, commandId
    delete := NOTDELETED } with brk := s.brk + 1 })

/-- `destroyNode`'s loop from `temp` on: the records with this
`commandId` are marked. -/
def markDeleted (commandId : Int) :
    (fuel : Nat) → (temp : Nat) → State → Option State
  | 0, _, _ => none
  | fuel + 1, temp, s => do
      let r ← s.load temp
      if r.numArg ≠ 0 then do
        let s ← (if r.commandId = commandId then s.setDelete temp DELETED
          else some s)
        markDeleted commandId fuel r.next s
      else some s

/-- `destroyNode`. -/
def destroyNode (current : Nat) (s : State) : Option State := do
  let r ← s.load current
  if r.delete = DELETED then some (s.free (.record current))
  else do
    let head ← s.load s.mem.head
    let s ← markDeleted r.commandId s.brk head.next s
    some (((s.freeArgs r.args).freeLine r.command).free (.record current))

/-- `popFront`'s loop from `temp` on: whether a record has this
`commandId`. -/
def sharesId (s : State) (commandId : Int) :
    (fuel : Nat) → (temp : Nat) → Option Bool
  | 0, _ => none
  | fuel + 1, temp => do
      let r ← s.load temp
      if r.numArg ≠ 0 then
        if r.commandId = commandId then some true
        else sharesId s commandId fuel r.next
      else some false

/-- `popFront`. -/
def popFront (s : State) : Option State := do
  let head ← s.load s.mem.head
  if head.next = NULL then some s
  else do
    let first ← s.load head.next
    if first.next = NULL then do
      let s ← destroyNode head.next s
      let s ← s.setNext s.mem.head s.mem.tail
      let s ← s.setPrev s.mem.tail s.mem.head
      some { s with numHist := u32 (s.numHist - 1) }
    else do
      let s ← s.setNext s.mem.head first.next
      let s ← s.setPrev first.next s.mem.head
      let flag ← sharesId s first.commandId s.brk first.next
      let s := if flag then s.free (.record head.next)
        else ((s.freeArgs first.args).freeLine first.command).free
          (.record head.next)
      some { s with numHist := u32 (s.numHist - 1) }

/-- The two branches of `addToTail` end alike. -/
def linkTail (toAdd : Nat) (s : State) : Option State := do
  let tail ← s.load s.mem.tail
  let s ← s.setNext tail.prev toAdd
  let s ← s.setPrev toAdd tail.prev
  let s ← s.setNext toAdd s.mem.tail
  let s ← s.setPrev s.mem.tail toAdd
  some { s with numHist := u32 (s.numHist + 1) }

/-- `addToTail`. -/
def addToTail (HISTSIZE : Int) (toAdd : Nat) (s : State) : Option State := do
  let s := { s with mem := { s.mem with toAdd } }
  let s ← (if s.numHist ≤ u32 HISTSIZE then some s else popFront s)
  let s ← linkTail toAdd s
  some { s with mem := { s.mem with toAdd := NULL } }

/-- `temp = temp->next`, or `prev`, `n` times. -/
def follow (s : State) (link : HistCommand → Nat) :
    (n : Nat) → (temp : Nat) → Option Nat
  | 0, temp => some temp
  | n + 1, temp => do
      let r ← s.load temp
      follow s link n (link r)

/-- `findFirstN`. -/
def findFirstN (s : State) (n : Int) : Option Nat :=
  if u32 n > s.numHist then some NULL
  else if n = 1 then (s.load s.mem.head).map HistCommand.next
  else follow s HistCommand.next n.toNat s.mem.head

/-- `findLastN`. -/
def findLastN (s : State) (n : Int) : Option Nat :=
  if u32 n > s.numHist then some NULL
  else if n = 1 then (s.load s.mem.tail).map HistCommand.prev
  else follow s HistCommand.prev n.toNat s.mem.tail

/-- `clearList`'s loop from `temp` on. -/
def clearFrom : (fuel : Nat) → (temp : Nat) → State → Option State
  | 0, _, _ => none
  | fuel + 1, temp, s => do
      let r ← s.load temp
      if r.numArg ≠ 0 then do
        let s ← s.setNext s.mem.head r.next
        let s ← destroyNode temp s
        let head ← s.load s.mem.head
        clearFrom fuel head.next s
      else some s

/-- `clearList`. -/
def clearList (s : State) : Option State := do
  let head ← s.load s.mem.head
  let first ← s.load head.next
  let s ← (if first.numArg = 0 then some s
    else clearFrom s.brk head.next s)
  some ((s.free (.record s.mem.head)).free (.record s.mem.tail))

/-- `showHistory`'s loop from `temp` on. -/
def showFrom : (fuel : Nat) → (temp : Nat) → State → Option State
  | 0, _, _ => none
  | fuel + 1, temp, s => do
      let r ← s.load temp
      if r.numArg ≠ 0 then do
        let s ← s.readArgs r.args
        showFrom fuel r.next s
      else some s

/-- `showHistory`. -/
def showHistory (s : State) : Option State := do
  let head ← s.load s.mem.head
  if head.next = NULL then some s else showFrom s.brk head.next s

-- =========================================================== the commands

/-- `isBeginWith`. -/
def isBeginWith (str1 str2 : Token) : Int :=
  if str1.length < str2.length ∨ str1.length = 0 ∨ str2.length = 0 then -1
  else if str2.isPrefixOf str1 then 1 else 0

/-- `checkHist`. -/
def checkHist (atoi : Token → Int) (toCheck : Token) : Int :=
  if toCheck = ['!', '!'] then 1
  else if isBeginWith toCheck ['!', '-'] = 1 then
    if i32 (atoi (toCheck.drop 2)) = 0 then -1 else 2
  else if isBeginWith toCheck ['!'] = 1 then
    if i32 (atoi (toCheck.drop 1)) = 0 then -1 else 3
  else 0

/-- The words of the two commands the shell carries out itself. -/
def exitWord : Token := ['e', 'x', 'i', 't']

def historyWord : Token := ['h', 'i', 's', 't', 'o', 'r', 'y']

/-- They are told from other commands by the number of words and the first
one. -/
theorem single_iff {words : List Token} {w : Token} :
    words.length = 1 ∧ words.head? = some w ↔ words = [w] := by
  constructor
  · rintro ⟨hone, hhead⟩
    obtain ⟨word, rfl⟩ := List.length_eq_one_iff.mp hone
    rw [Option.some.inj hhead]
  · rintro rfl
    exact ⟨rfl, rfl⟩

/-- `callChild`; `forks` says whether `fork` succeeds. -/
def callChild (forks : Bool) (cargc argv : Nat) (s : State) : Option State := do
  let s ← (if cargc = 1 then s.readArgs argv else some s)
  let first := (s.argv argv).words.head?
  if cargc = 1 ∧ first = some exitWord then do
    let s ← clearList s
    some { s with exited := true }
  else if cargc = 1 ∧ first = some historyWord then showHistory s
  else if forks then some ((s.readArgs argv).getD s)
  else some { (s.freeArgs s.args).freeLine s.commandLine with exited := true }

/-- A command is entered into the history and carried out. -/
def enter (HISTSIZE : Int) (forks : Bool) (command args numArg : Nat)
    (commandId : Int) (s : State) : Option State := do
  let (newHist, s) := createNode command args numArg commandId s
  let s ← addToTail HISTSIZE newHist s
  let r ← s.load newHist
  callChild forks r.numArg r.args s

/-- The typed words themselves are not kept. -/
def dropLine (s : State) : State := (s.freeArgs s.args).freeLine s.commandLine

/-- A recall: `toBeCalled`, if it is one, is entered again. -/
def recallEntry (HISTSIZE : Int) (forks : Bool) (toBeCalled : Nat)
    (s : State) :
    Option State := do
  let s ← (if toBeCalled ≠ NULL then do
      let r ← s.load toBeCalled
      enter HISTSIZE forks r.command r.args r.numArg r.commandId s
    else some s)
  some (if s.exited then s else dropLine s)

-- ================================================================== main

/-- What the shell reads: the words of a line, or the end of its input. -/
inductive Input where
  | line (words : List Token) (forks : Bool)
  | eof

/-- The buffer for a line, and the array of its words. -/
def readLine (words : List Token) (s : State) : State :=
  { s with
    argv := Function.update s.argv (s.brk + 1) ⟨s.brk, words⟩
    commandLine := s.brk
    args := s.brk + 1
    brk := s.brk + 2 }

/-- The entry a line recalls: `NULL` if it recalls none. -/
def toBeCalled (atoi : Token → Int) (word : Token) (s : State) : Option Nat :=
  if checkHist atoi word = 1 then findLastN s 1
  else if checkHist atoi word = 2 then findLastN s (i32 (atoi (word.drop 2)))
  else if checkHist atoi word = 3 then findFirstN s (i32 (atoi (word.drop 1)))
  else some NULL

/-- The dispatch of `main` on the first word. -/
def dispatch (HISTSIZE : Int) (atoi : Token → Int) (words : List Token)
    (word : Token) (forks : Bool) (s : State) : Option State :=
  if checkHist atoi word = 0 then
    let commandId := s.commandId
    enter HISTSIZE forks s.commandLine s.args words.length commandId
      { s with commandId := i32 (commandId + 1) }
  else do
    let toBeCalled ← toBeCalled atoi word s
    recallEntry HISTSIZE forks toBeCalled s

/-- One round of the loop in `main`. -/
def step (HISTSIZE : Int) (atoi : Token → Int) (i : Input) (s : State) :
    Option State :=
  if s.exited then none
  else
    match i with
    | .eof => do
        let s ← clearList s
        some { s with exited := true }
    | .line words forks =>
        match words with
        | [] => some s
        | word :: _ =>
            dispatch HISTSIZE atoi words word forks (readLine words s)

/-- The two sentinels, whose last two fields `main` does not set. -/
def State.start (head tail : Int × Int) : State where
  mem := {
    record := fun p =>
      if p = 1 then ⟨0, NULL, NULL, NULL, 2, head.1, head.2⟩
      else ⟨0, NULL, NULL, 1, NULL, tail.1, tail.2⟩
    head := 1
    tail := 2
    toAdd := NULL
    freed := [] }
  argv := fun _ => ⟨NULL, []⟩
  brk := 3
  numHist := 0
  commandId := 0
  args := NULL
  commandLine := NULL
  trace := []
  exited := false

end OperatingSystem.Shell
