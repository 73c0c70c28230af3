/-
Nothing leaks.

The blocks that count are the records and, of each line that is not blank, the
array `args` and the buffer that the line ends up in. The buffers that a line
outgrows, those of blank lines and the one that waits for the end of the input
are left out: `main` frees them itself, where it makes them.

Every block that counts is in one place: it has been freed, or the history
holds it, or it is one of the blocks of the line just read, which nobody has
yet (`Account`). `popFront`, `addToTail` and the dropping of a line move blocks
from one place to another, and only `malloc` makes new ones. When the shell is
left, the history goes too, and everything has been freed once.

# The condition

Two things can go wrong, and `Sparing` excludes both: what `Due` excludes,
and a command whose `commandId` is that of an older entry, which takes 2^32
commands. The older one then keeps the buffers of the newer one from being
freed.
-/
import Mathlib.Data.List.Dedup
import OperatingSystem.Lib.Ledger
import OperatingSystem.Shell.FreedOnce
import OperatingSystem.Shell.Session

namespace OperatingSystem.Shell

open Lib (Issued Reach i32)

variable {s s' : State} {L : List Nat} {E E' : List Block} {p q t fuel : Nat} {b : Block}
  {HISTSIZE : Int} {atoi : Token → Int}

-- ============================================================ the account

/-- What has been freed, what the history `L` holds, and `E`. -/
def accounted (s : State) (L : List Nat) (E : List Block) : Set Block :=
  {b | b ∈ s.mem.freed ∨ Holds s L b ∨ b ∈ E}

/-- Every block that counts has been freed, once, or is held by the history
`L`, or is one of `E`. -/
structure Account (s : State) (L : List Nat) (E : List Block) : Prop where
  share : ∀ p ∈ L, ∀ q ∈ L,
    (s.mem.record p).commandId = (s.mem.record q).commandId →
      (s.mem.record p).args = (s.mem.record q).args
        ∧ (s.mem.record p).command = (s.mem.record q).command
  once : s.mem.freed.Nodup
  issued : Issued Block.num s.brk (accounted s L E)

theorem mem_accounted : b ∈ accounted s L E
    ↔ b ∈ s.mem.freed ∨ Holds s L b ∨ b ∈ E := Iff.rfl

/-- The sentinels, and each entry with its buffers. -/
theorem holds_iff : Holds s L b ↔ b = .record s.mem.head ∨ b = .record s.mem.tail
    ∨ ∃ p ∈ L, b = .record p ∨ (s.mem.record p).Has b := by
  constructor
  · rintro (⟨p, hp, rfl⟩ | ⟨p, hp, hb⟩)
    · rcases mem_spine.mp hp with rfl | hp | rfl
      · exact .inl rfl
      · exact .inr (.inr ⟨p, hp, .inl rfl⟩)
      · exact .inr (.inl rfl)
    · exact .inr (.inr ⟨p, hp, .inr hb⟩)
  · rintro (rfl | rfl | ⟨p, hp, rfl | hb⟩)
    · exact .inl ⟨_, mem_spine.mpr (.inl rfl), rfl⟩
    · exact .inl ⟨_, mem_spine.mpr (.inr (.inr rfl)), rfl⟩
    · exact .inl ⟨p, mem_spine.mpr (.inr (.inl hp)), rfl⟩
    · exact .inr ⟨p, hp, hb⟩

theorem holds_cons : Holds s (p :: L) b
    ↔ (b = .record p ∨ (s.mem.record p).Has b) ∨ Holds s L b := by
  simp only [holds_iff, List.exists_mem_cons_iff]
  simp only [or_left_comm]

theorem holds_concat : Holds s (L ++ [p]) b
    ↔ (b = .record p ∨ (s.mem.record p).Has b) ∨ Holds s L b := by
  have hmem (q : Nat) : q ∈ L ++ [p] ↔ q ∈ p :: L := by
    rw [List.mem_append, List.mem_singleton, List.mem_cons, or_comm]
  rw [← holds_cons]
  simp only [holds_iff, hmem]

/-- What the entries have in common is theirs, whoever else has it. -/
theorem Account.has_iff (h : Account s L E) (hp : p ∈ L)
    (hq : q ∈ L) (hid : (s.mem.record p).commandId
      = (s.mem.record q).commandId) :
    (s.mem.record p).Has b ↔ (s.mem.record q).Has b := by
  obtain ⟨hargs, hcommand⟩ := h.share p hp q hq hid
  unfold HistCommand.Has
  rw [hargs, hcommand]

/-- The records are as before, and so is what they hold. -/
theorem Holds.extend (hknown : ∀ p ∈ spine s.mem L, p < s.brk)
    (he : Extends s s') : Holds s' L b ↔ Holds s L b := by
  have hspine : spine s'.mem L = spine s.mem L := by
    unfold spine
    rw [he.head, he.tail]
  have hrec {p : Nat} (hp : p ∈ L) : s'.mem.record p = s.mem.record p :=
    he.record p (hknown p (mem_spine.mpr (.inr (.inl hp))))
  unfold Holds
  rw [hspine]
  refine or_congr_right (exists_congr fun p => and_congr_right fun hp => ?_)
  rw [hrec hp]

/-- Other blocks that nobody has. -/
theorem Account.extend (h : Account s L E)
    (hknown : ∀ p ∈ spine s.mem L, p < s.brk) (he : Extends s s')
    (hissued : Issued Block.num s'.brk (accounted s' L E')) :
    Account s' L E' := by
  have hrec {p : Nat} (hp : p ∈ L) : s'.mem.record p = s.mem.record p :=
    he.record p (hknown p (mem_spine.mpr (.inr (.inl hp))))
  refine ⟨fun p hp q hq => ?_, he.freed ▸ h.once, hissued⟩
  rw [hrec hp, hrec hq]
  exact h.share p hp q hq

/-- `malloc` returns one more. -/
theorem Account.malloc (h : Account s L E)
    (hknown : ∀ p ∈ spine s.mem L, p < s.brk) (he : Extends s s')
    (hbrk : s'.brk = s.brk + 1) (hb : b.num = s.brk) :
    Account s' L (b :: E) := by
  refine h.extend hknown he ?_
  have hpos := hknown _ (mem_spine.mpr (.inl rfl))
  have hset : accounted s' L (b :: E) = insert b (accounted s L E) := by
    ext b'
    rw [Set.mem_insert_iff, mem_accounted, mem_accounted, he.freed,
      Holds.extend hknown he, List.mem_cons]
    tauto
  rw [hset, hbrk]
  exact h.issued.give (Nat.zero_lt_of_lt hpos) hb

/-- Between the calls: the blocks `E` are nobody's, all others are freed or
held. -/
structure Tight (HISTSIZE : Int) (s : State) (L : List Nat) (E : List Block) :
    Prop extends Intact HISTSIZE s L where
  idle : s.mem.toAdd = NULL
  account : Account s L E
  spare : ∀ b ∈ E, Spare s L b

-- ========================================================= entering it

/-- The record `t` is about to be entered into the history `L`. -/
structure Entering (HISTSIZE : Int) (s : State) (L : List Nat)
    (E : List Block) (t : Nat) : Prop extends Intact HISTSIZE s L where
  living : Alive s t
  new : t ∉ spine s.mem L
  newKnown : t < s.brk
  newcomer : Newcomer HISTSIZE s L (s.mem.record t)
  account : Account s L (.record t :: E)
  spare : ∀ b ∈ E, Spare s L b
  /-- An entry with its id has its buffers. -/
  alike : ∀ p ∈ L, (s.mem.record p).commandId = (s.mem.record t).commandId →
    (s.mem.record p).args = (s.mem.record t).args
      ∧ (s.mem.record p).command = (s.mem.record t).command
  /-- Its buffers are accounted for. -/
  owns : ∀ b, (s.mem.record t).Has b → b ∈ accounted s L E

/-- The oldest entry goes, and its blocks go with it unless they are needed
still. -/
theorem popFront_account (h : Intact HISTSIZE s (p :: L))
    (ha : Account s (p :: L) E) (hrun : popFront s = some s') :
    Account s' L E ∧ (∀ E', accounted s' L E' = accounted s (p :: L) E')
      ∧ ∀ q, (s'.mem.record q).commandId = (s.mem.record q).commandId := by
  have hp := (h.mem_alive List.mem_cons_self).2
  have hmem {q : Nat} (hq : q ∈ L) : q ∈ p :: L := List.mem_cons_of_mem p hq
  rw [popFront_eq h.toListing] at hrun
  obtain rfl := Option.some.inj hrun
  by_cases hshared : ∃ q ∈ L, (s.mem.record q).commandId
      = (s.mem.record p).commandId
  · rw [if_pos hshared]
    obtain ⟨q, hq, hid⟩ := hshared
    have hset (E' : List Block) : accounted { (s.unhook L).free (.record p) with
          numHist := u32 (s.numHist - 1) } L E' = accounted s (p :: L) E' := by
      ext b
      have hkept : (s.mem.record p).Has b → Holds s L b := fun hb =>
        .inr ⟨q, hq, (ha.has_iff (hmem hq) List.mem_cons_self hid).mpr hb⟩
      show (b ∈ Block.record p :: s.mem.freed ∨ Holds s L b ∨ b ∈ E')
        ↔ b ∈ s.mem.freed ∨ Holds s (p :: L) b ∨ b ∈ E'
      rw [List.mem_cons, holds_cons]
      tauto
    refine ⟨⟨fun q hq r hr => ha.share q (hmem hq) r (hmem hr),
      List.nodup_cons.mpr ⟨hp, ha.once⟩, ?_⟩, hset, fun _ => rfl⟩
    rw [hset]
    exact ha.issued
  · rw [if_neg hshared]
    have hset (E' : List Block) : accounted { (s.unhook L).release p
          (s.mem.record p) with numHist := u32 (s.numHist - 1) } L E'
        = accounted s (p :: L) E' := by
      ext b
      show (b ∈ Block.record p :: Block.line (s.mem.record p).command
          :: Block.args (s.mem.record p).args :: s.mem.freed
          ∨ Holds s L b ∨ b ∈ E')
        ↔ b ∈ s.mem.freed ∨ Holds s (p :: L) b ∨ b ∈ E'
      rw [List.mem_cons, List.mem_cons, List.mem_cons, holds_cons]
      unfold HistCommand.Has
      tauto
    have hline := h.kept p List.mem_cons_self _ (.inr rfl)
    have hargs := h.kept p List.mem_cons_self _ (.inl rfl)
    refine ⟨⟨fun q hq r hr => ha.share q (hmem hq) r (hmem hr), ?_, ?_⟩, hset,
      fun _ => rfl⟩
    · show (Block.record p :: Block.line (s.mem.record p).command
        :: Block.args (s.mem.record p).args :: s.mem.freed).Nodup
      simp [hp, hline, hargs, ha.once]
    · rw [hset]
      exact ha.issued

theorem Entering.popFront (hH : Sized HISTSIZE)
    (h : Entering HISTSIZE s (p :: L) E t) (hadd : s.mem.toAdd = t)
    (hfull : u32 HISTSIZE < s.numHist) :
    ∃ s', Shell.popFront s = some s' ∧ Entering HISTSIZE s' L E t
      ∧ s'.numHist ≤ u32 HISTSIZE ∧ SameProcess s s' := by
  have hmem {q : Nat} (hq : q ∈ L) : q ∈ p :: L := List.mem_cons_of_mem p hq
  obtain ⟨s', hrun, h', hroom, hn, hsame, halive, hspare⟩ :=
    popFront_intact hH h.toIntact hfull (hadd ▸ h.newcomer)
  rw [hadd] at hn
  obtain ⟨ha, hset, hid⟩ := popFront_account h.toIntact h.account hrun
  refine ⟨s', hrun, ?_, hroom, hsame⟩
  constructor
  case toIntact => exact h'
  case living =>
    refine halive t h.living fun heq => h.new ?_
    rw [heq]
    exact mem_spine.mpr (.inr (.inl List.mem_cons_self))
  case new =>
    intro hin
    refine h.new (mem_spine.mpr ?_)
    rw [← hsame.head, ← hsame.tail]
    exact (mem_spine.mp hin).imp_right fun hq => hq.imp_left hmem
  case newKnown =>
    rw [hsame.brk]
    exact h.newKnown
  case newcomer => exact hn
  case account => exact ha
  case spare => exact fun b hb => hspare b (h.spare b hb)
  case alike =>
    intro q hq
    rw [hid, hid, hsame.argsOf, hsame.argsOf, hsame.commandOf, hsame.commandOf]
    exact h.alike q (hmem hq)
  case owns =>
    intro b hb
    rw [hset]
    exact h.owns b (hsame.has.mp hb)

/-- Where there is room the record is linked in. Of `E`, what is not the
record's stays as it is. -/
theorem Entering.linkTail (hH : Sized HISTSIZE) (h : Entering HISTSIZE s L E t)
    (hroom : s.numHist ≤ u32 HISTSIZE)
    (hE : ∀ b, b ∈ E' ↔ b ∈ E ∧ ¬(s.mem.record t).Has b) :
    ∃ s', Shell.linkTail t s = some s' ∧ Intact HISTSIZE s' (L ++ [t])
      ∧ Account s' (L ++ [t]) E' ∧ (∀ b ∈ E', Spare s' (L ++ [t]) b)
      ∧ SameProcess s s' := by
  obtain ⟨s', hrun, h', hsame, hspare⟩ := linkTail_intact hH h.toIntact hroom
    h.living h.new h.newKnown h.newcomer
  refine ⟨s', hrun, h', ?_, fun b hb => ?_, hsame⟩
  case refine_2 =>
    obtain ⟨hb, hnot⟩ := (hE b).mp hb
    exact hspare b (h.spare b hb) hnot
  rw [linkTail_eq h.toListing h.living] at hrun
  obtain rfl := Option.some.inj hrun
  have hset : accounted { s.hook L t with numHist := u32 (s.numHist + 1) }
      (L ++ [t]) E' = accounted s L (.record t :: E) := by
    ext b
    have howns := h.owns b
    show (b ∈ s.mem.freed ∨ Holds s (L ++ [t]) b ∨ b ∈ E')
      ↔ b ∈ s.mem.freed ∨ Holds s L b ∨ b ∈ Block.record t :: E
    rw [holds_concat, List.mem_cons, hE]
    rw [mem_accounted] at howns
    tauto
  refine ⟨?_, h.account.once, ?_⟩
  · have hlast : ∀ p ∈ L ++ [t], p ∈ L ∨ p = t := fun p hp => by
      simpa using hp
    intro p hp q hq hid
    rcases hlast p hp with hpL | rfl
    · rcases hlast q hq with hqL | rfl
      · exact h.account.share p hpL q hqL hid
      · exact h.alike p hpL hid
    · rcases hlast q hq with hqL | rfl
      · obtain ⟨hargs, hcommand⟩ := h.alike q hqL hid.symm
        exact ⟨hargs.symm, hcommand.symm⟩
      · exact ⟨rfl, rfl⟩
  · rw [hset]
    exact h.account.issued

theorem Entering.extend (h : Entering HISTSIZE s L E t) (he : Extends s s')
    (hbrk : s'.brk = s.brk) (hsafe : ∀ e ∈ s'.trace, e.Safe) :
    Entering HISTSIZE s' L E t := by
  have hrec {p : Nat} (hp : p ∈ L) : s'.mem.record p = s.mem.record p :=
    he.record p (h.known p (mem_spine.mpr (.inr (.inl hp))))
  have hset (E : List Block) : accounted s' L E = accounted s L E := by
    ext b
    rw [mem_accounted, mem_accounted, he.freed, Holds.extend h.known he]
  have htarget : s'.mem.record t = s.mem.record t := he.record t h.newKnown
  constructor
  case toIntact => exact h.toIntact.extend he hsafe
  case living =>
    unfold Alive
    rw [he.freed]
    exact h.living
  case new =>
    unfold spine
    rw [he.head, he.tail]
    exact h.new
  case newKnown => exact hbrk ▸ h.newKnown
  case newcomer => exact htarget ▸ h.newcomer.extend h.toIntact he
  case account =>
    refine h.account.extend h.known he ?_
    rw [hbrk, hset]
    exact h.account.issued
  case spare => exact fun b hb => (h.spare b hb).extend h.toIntact he
  case alike =>
    intro p hp
    rw [hrec hp, htarget]
    exact h.alike p hp
  case owns =>
    intro b hb
    rw [hset]
    exact h.owns b (htarget ▸ hb)

/-- `addToTail`. -/
theorem Entering.addToTail (hH : Sized HISTSIZE) (h : Entering HISTSIZE s L E t)
    (hE : ∀ b, b ∈ E' ↔ b ∈ E ∧ ¬(s.mem.record t).Has b) :
    ∃ s' L', Shell.addToTail HISTSIZE t s = some s'
      ∧ Tight HISTSIZE s' (L' ++ [t]) E' ∧ SameProcess s s' := by
  generalize hs₁ : { s with mem := { s.mem with toAdd := t } } = s₁
  have h₁ : Entering HISTSIZE s₁ L E t := by
    rw [← hs₁]
    exact h.extend ⟨rfl, rfl, rfl, rfl, Nat.le_refl _, fun _ _ => rfl,
      fun _ _ => rfl⟩ rfl h.safe
  have hsame : SameProcess s s₁ := by
    rw [← hs₁]
    exact ⟨rfl, rfl, rfl, rfl, rfl, rfl, rfl, fun _ => rfl, fun _ => rfl,
      fun _ => rfl⟩
  have hadd : s₁.mem.toAdd = t := by rw [← hs₁]
  have hnum : s₁.numHist = s.numHist := by rw [← hs₁]
  -- first there is room, by itself or because the oldest entry goes
  have hmade : ∃ s₂ L', (if s₁.numHist ≤ u32 HISTSIZE then some s₁
        else Shell.popFront s₁) = some s₂ ∧ Entering HISTSIZE s₂ L' E t
      ∧ s₂.numHist ≤ u32 HISTSIZE ∧ SameProcess s₁ s₂ := by
    by_cases hroom : s₁.numHist ≤ u32 HISTSIZE
    · rw [if_pos hroom]
      exact ⟨s₁, L, rfl, h₁, hroom, rfl, rfl, rfl, rfl, rfl, rfl, rfl,
        fun _ => rfl, fun _ => rfl, fun _ => rfl⟩
    · rw [if_neg hroom]
      cases L with
      | nil =>
          have hcount := h₁.count
          rw [List.length_nil] at hcount
          omega
      | cons p rest =>
          obtain ⟨s₂, hrun, h₂, hroom₂, hsame₂⟩ :=
            h₁.popFront hH hadd (Nat.lt_of_not_le hroom)
          exact ⟨s₂, rest, hrun, h₂, hroom₂, hsame₂⟩
  obtain ⟨s₂, L', hmake, h₂, hroom₂, hsame₂⟩ := hmade
  have hE₂ : ∀ b, b ∈ E' ↔ b ∈ E ∧ ¬(s₂.mem.record t).Has b := fun b => by
    rw [hE, hsame₂.has, hsame.has]
  obtain ⟨s₃, hlink, h₃, ha₃, hspare₃, hsame₃⟩ := h₂.linkTail hH hroom₂ hE₂
  have hdone : Extends s₃ { s₃ with mem := { s₃.mem with toAdd := NULL } } :=
    ⟨rfl, rfl, rfl, rfl, Nat.le_refl _, fun _ _ => rfl, fun _ _ => rfl⟩
  refine ⟨_, L', ?_, ⟨h₃.extend hdone h₃.safe, rfl,
    ha₃.extend h₃.known hdone ha₃.issued,
    fun b hb => (hspare₃ b hb).extend h₃ hdone⟩, ?_⟩
  · unfold Shell.addToTail
    simp only [Option.bind_eq_bind]
    rw [hs₁, ← hnum, hmake, Option.bind_some, hlink, Option.bind_some]
  · exact hsame.trans (hsame₂.trans (hsame₃.trans ⟨rfl, rfl, rfl, rfl, rfl, rfl,
      rfl, fun _ => rfl, fun _ => rfl, fun _ => rfl⟩))

/-- A command is entered, and then carried out. -/
theorem Tight.enter (hH : Sized HISTSIZE) (h : Tight HISTSIZE s L E)
    (E' : List Block) (forks : Bool) {command args numArg : Nat} {commandId : Int}
    (hn : Newcomer HISTSIZE s L (newRecord command args numArg commandId))
    (halike : ∀ p ∈ L, (s.mem.record p).commandId = commandId →
      (s.mem.record p).args = args ∧ (s.mem.record p).command = command)
    (howns : ∀ b, (newRecord command args numArg commandId).Has b →
      b ∈ accounted s L E)
    (hE : ∀ b, b ∈ E' ↔ b ∈ E
      ∧ ¬(newRecord command args numArg commandId).Has b) :
    ∃ s' L' p, Shell.enter HISTSIZE forks command args numArg commandId s
        = callChild forks (s'.mem.record p).numArg (s'.mem.record p).args s'
      ∧ Tight HISTSIZE s' L' E' ∧ p ∈ L'
      ∧ (s'.mem.record p).numArg = numArg ∧ (s'.mem.record p).args = args
      ∧ s'.argv = s.argv ∧ s'.args = s.args
      ∧ s'.commandLine = s.commandLine ∧ s'.brk = s.brk + 1 := by
  obtain ⟨s₁, hcreate, hrec, he, hbrk₁, hargs₁, hline₁, hargv₁, h₁, halive,
    hnew⟩ := createNode_new h.toIntact command args numArg commandId
  have hkept {p : Nat} (hp : p ∈ L) : s₁.mem.record p = s.mem.record p :=
    he.record p (h.known p (mem_spine.mpr (.inr (.inl hp))))
  have hentering : Entering HISTSIZE s₁ L E s.brk := by
    constructor
    case toIntact => exact h₁
    case living => exact halive
    case new => exact hnew
    case newKnown => exact hbrk₁ ▸ Nat.lt_succ_self _
    case newcomer => exact hrec ▸ hn.extend h.toIntact he
    case account => exact h.account.malloc h.known he hbrk₁ rfl
    case spare => exact fun b hb => (h.spare b hb).extend h.toIntact he
    case alike =>
      intro p hp hid
      rw [hkept hp, hrec] at hid ⊢
      exact halike p hp hid
    case owns =>
      intro b hb
      rw [hrec] at hb
      rw [mem_accounted, he.freed, Holds.extend h.known he]
      exact howns b hb
  obtain ⟨s₂, L', hadd, h₂, hsame⟩ := hentering.addToTail hH
    (by rw [hrec]; exact hE)
  have hin : s.brk ∈ L' ++ [s.brk] := by simp
  refine ⟨s₂, _, s.brk, ?_, h₂, hin, ?_, ?_, hsame.argv.trans hargv₁,
    hsame.args.trans hargs₁, hsame.commandLine.trans hline₁,
    hsame.brk.trans hbrk₁⟩
  · unfold Shell.enter
    rw [hcreate]
    simp only [Option.bind_eq_bind]
    rw [hadd, Option.bind_some, (h₂.mem_alive hin).load, Option.bind_some]
  · rw [hsame.numArgOf, hrec]
    rfl
  · rw [hsame.argsOf, hrec]
    rfl

-- ========================================================== carrying it out

theorem Tight.trace (h : Tight HISTSIZE s L E) {trace : List Event}
    (hI : Intact HISTSIZE { s with trace } L) :
    Tight HISTSIZE { s with trace } L E :=
  ⟨hI, h.idle, ⟨h.account.share, h.account.once, h.account.issued⟩,
    fun b hb => (h.spare b hb).extend h.toIntact (.trace s trace)⟩

/-- The two blocks of the line just read. -/
def State.typed (s : State) : List Block := [.args s.args, .line s.commandLine]

theorem Tight.loose (h : Tight HISTSIZE s L s.typed) : Loose s L := by
  have hargs : Block.args s.args ∈ s.typed := by simp [State.typed]
  have hline : Block.line s.commandLine ∈ s.typed := by simp [State.typed]
  exact ⟨h.spare _ hargs, h.spare _ hline,
    h.account.issued.lt (.inr (.inr hargs)), h.account.issued.lt (.inr (.inr hline))⟩

/-- The line is dropped. -/
theorem Tight.dropLine (h : Tight HISTSIZE s L s.typed) :
    Tight HISTSIZE (Shell.dropLine s) L []
      ∧ (Shell.dropLine s).exited = s.exited := by
  obtain ⟨h', hidle, hexited⟩ := dropLine_intact h.toIntact h.idle h.loose
  refine ⟨⟨h', hidle, ?_, nofun⟩, hexited⟩
  have hargs : Block.args s.args ∈ s.typed := by simp [State.typed]
  have hline : Block.line s.commandLine ∈ s.typed := by simp [State.typed]
  have hargs₀ : s.args ≠ NULL :=
    Nat.ne_of_gt (h.account.issued.pos (.inr (.inr hargs)))
  have hline₀ : s.commandLine ≠ NULL :=
    Nat.ne_of_gt (h.account.issued.pos (.inr (.inr hline)))
  have hdrop : Shell.dropLine s
      = (s.free (.args s.args)).free (.line s.commandLine) := by
    unfold Shell.dropLine State.freeArgs State.freeLine
    rw [if_neg hargs₀, if_neg hline₀]
  rw [hdrop]
  refine ⟨h.account.share, ?_, ?_⟩
  · have hfresh := (h.spare _ hargs).kept
    have hfresh' := (h.spare _ hline).kept
    show (Block.line s.commandLine :: Block.args s.args :: s.mem.freed).Nodup
    simp [hfresh, hfresh', h.account.once]
  · have hset : accounted ((s.free (.args s.args)).free (.line s.commandLine))
        L [] = accounted s L s.typed := by
      ext b
      show (b ∈ Block.line s.commandLine :: Block.args s.args :: s.mem.freed
          ∨ Holds s L b ∨ b ∈ [])
        ↔ b ∈ s.mem.freed ∨ Holds s L b ∨ b ∈ s.typed
      simp only [State.typed, List.mem_cons, List.not_mem_nil, or_false]
      tauto
    rw [hset]
    exact h.account.issued

-- ============================================================= the end

theorem setNext_brk {v : Nat} (h : s.setNext p v = some s') :
    s'.brk = s.brk := by
  obtain ⟨r, -, rfl⟩ := Option.map_eq_some_iff.mp h
  rfl

theorem setDelete_brk {v : Int} (h : s.setDelete p v = some s') :
    s'.brk = s.brk := by
  obtain ⟨r, -, rfl⟩ := Option.map_eq_some_iff.mp h
  rfl

theorem markDeleted_brk {id : Int} (h : markDeleted id fuel p s = some s') :
    s'.brk = s.brk := by
  induction fuel generalizing p s with
  | zero => cases h
  | succ fuel ih =>
      unfold markDeleted at h
      obtain ⟨r, -, h⟩ := Option.bind_eq_some_iff.mp h
      split at h
      case isTrue =>
        obtain ⟨s₁, hmark, h⟩ := Option.bind_eq_some_iff.mp h
        refine (ih h).trans ?_
        split at hmark
        case isTrue => exact setDelete_brk hmark
        case isFalse => exact (Option.some.inj hmark) ▸ rfl
      case isFalse => exact (Option.some.inj h) ▸ rfl

theorem freeArgs_brk : (s.freeArgs p).brk = s.brk := by
  unfold State.freeArgs
  split <;> rfl

theorem freeLine_brk : (s.freeLine p).brk = s.brk := by
  unfold State.freeLine
  split <;> rfl

theorem destroyNode_brk (h : destroyNode p s = some s') : s'.brk = s.brk := by
  unfold destroyNode at h
  obtain ⟨r, -, h⟩ := Option.bind_eq_some_iff.mp h
  split at h
  case isTrue => exact (Option.some.inj h) ▸ rfl
  case isFalse =>
    obtain ⟨head, -, h⟩ := Option.bind_eq_some_iff.mp h
    obtain ⟨s₁, hmark, h⟩ := Option.bind_eq_some_iff.mp h
    obtain rfl := Option.some.inj h
    exact (freeLine_brk.trans freeArgs_brk).trans (markDeleted_brk hmark)

theorem clearFrom_brk (h : clearFrom fuel p s = some s') : s'.brk = s.brk := by
  induction fuel generalizing p s with
  | zero => cases h
  | succ fuel ih =>
      unfold clearFrom at h
      obtain ⟨r, -, h⟩ := Option.bind_eq_some_iff.mp h
      split at h
      case isTrue =>
        obtain ⟨s₁, hskip, h⟩ := Option.bind_eq_some_iff.mp h
        obtain ⟨s₂, hdestroy, h⟩ := Option.bind_eq_some_iff.mp h
        obtain ⟨head, -, h⟩ := Option.bind_eq_some_iff.mp h
        exact (ih h).trans ((destroyNode_brk hdestroy).trans (setNext_brk hskip))
      case isFalse => exact (Option.some.inj h) ▸ rfl

theorem Tight.grouped (h : Tight HISTSIZE s L E) : Grouped s L where
  toChain := h.toChain
  unmarked := h.unmarked
  args p hp q hq := by
    refine ⟨fun heq => h.same p hp q hq (.args (s.mem.record p).args)
      (.inl rfl) (.inl (congrArg Block.args heq)), fun hid => ?_⟩
    exact (h.account.share p hp q hq hid).1
  command p hp q hq := by
    refine ⟨fun heq => h.same p hp q hq (.line (s.mem.record p).command)
      (.inr rfl) (.inr (congrArg Block.line heq)), fun hid => ?_⟩
    exact (h.account.share p hp q hq hid).2

/-- What is held is not freed. -/
theorem Tight.held (h : Tight HISTSIZE s L E) (hb : Holds s L b) :
    b ∉ s.mem.freed := by
  rcases hb with ⟨p, hp, rfl⟩ | ⟨p, hp, hb⟩
  · exact (h.alive p hp).2
  · exact h.kept p hp b hb

/-- `malloc` has returned nothing but what has been freed, and that has been
freed once. -/
structure AllFreed (s : State) : Prop where
  once : s.mem.freed.Nodup
  issued : Issued Block.num s.brk {b | b ∈ s.mem.freed}

/-- `clearList` frees what is left. -/
theorem Tight.clearList (h : Tight HISTSIZE s L []) :
    ∃ s', Shell.clearList s = some s' ∧ AllFreed s' := by
  obtain ⟨s₁, freed, hrun, h₁⟩ :=
    h.grouped.partly.run (D := []) h.grouped h.length_lt
  refine ⟨_, clearList_eq h.toChain hrun, ?_⟩
  have hlog : s₁.mem.freed = freed ++ s.mem.freed := h₁.log
  have hheld : ∀ b, b = .record s₁.mem.tail ∨ b = .record s₁.mem.head
      ∨ b ∈ freed ↔ Holds s L b := by
    intro b
    rw [h₁.account, h₁.sameHead, h₁.sameTail, holds_iff, List.nil_append]
    exact or_left_comm
  have hnodup := h.nodup
  simp only [spine, List.nodup_cons, List.nodup_append, List.mem_append,
    List.mem_singleton, not_or] at hnodup
  obtain ⟨⟨hheadL, hne⟩, -, -, htailL⟩ := hnodup
  have hhead := h₁.record_fresh hheadL
  have htail := h₁.record_fresh fun hp => htailL _ hp _ rfl rfl
  constructor
  case once =>
    show (Block.record s₁.mem.tail :: Block.record s₁.mem.head
      :: s₁.mem.freed).Nodup
    have happart : (freed ++ s.mem.freed).Nodup :=
      List.nodup_append.mpr ⟨h₁.once, h.account.once, fun b hb b' hb' heq =>
        h.held ((hheld b).mp (.inr (.inr hb))) (heq ▸ hb')⟩
    have hhead' := h.head_alive.2
    have htail' := h.tail_alive.2
    rw [hlog, h₁.sameHead, h₁.sameTail]
    simp [Ne.symm hne, hhead, htail, hhead', htail', happart]
  case issued =>
    show Issued Block.num s₁.brk {b | b ∈ Block.record s₁.mem.tail
      :: Block.record s₁.mem.head :: s₁.mem.freed}
    have hset : {b | b ∈ Block.record s₁.mem.tail
        :: Block.record s₁.mem.head :: s₁.mem.freed} = accounted s L [] := by
      ext b
      have hb := hheld b
      show b ∈ Block.record s₁.mem.tail :: Block.record s₁.mem.head
        :: s₁.mem.freed ↔ b ∈ s.mem.freed ∨ Holds s L b ∨ b ∈ []
      rw [hlog, ← hb]
      simp only [List.mem_cons, List.mem_append, List.not_mem_nil, or_false]
      tauto
    rw [hset, clearFrom_brk hrun]
    exact h.account.issued

-- ============================================================ the rounds

/-- What a line must not do, so that nothing is lost: what `Due` says, and
the command that is typed does not get the id of one in the list. -/
structure Sparing (HISTSIZE : Int) (atoi : Token → Int) (i : Input)
    (s : State) : Prop extends Due HISTSIZE atoi i s where
  fresh : ∀ word rest f, i = .line (word :: rest) f → checkHist atoi word = 0 →
    ∀ q, Listed s.mem q → (s.mem.record q).commandId ≠ s.commandId

/-- A record of the list is reached. -/
theorem Chain.mem_listed (h : Chain s L) (hp : p ∈ L) : Listed s.mem p := by
  suffices hall : ∀ A B, L = A ++ B → ∀ p ∈ A, Listed s.mem p from
    hall L [] (List.append_nil L).symm p hp
  intro A
  induction A using List.reverseRecOn with
  | nil => exact fun _ _ _ hp => nomatch hp
  | append_singleton A a ih =>
      intro B hL p hp
      rw [List.append_assoc, List.singleton_append] at hL
      rcases List.mem_append.mp hp with hp | hp
      · exact ih (a :: B) hL p hp
      obtain rfl := List.mem_singleton.mp hp
      have hpL : p ∈ L := hL ▸ List.mem_append_right A List.mem_cons_self
      have htail : p ≠ s.mem.tail := fun heq =>
        (h.entry p hpL).numArg (heq ▸ h.tail)
      rcases List.eq_nil_or_concat A with rfl | ⟨A', a', hA⟩
      · have hnext : s.mem.next s.mem.head = p := by
          rw [List.nil_append] at hL
          exact h.head_next.trans (hL ▸ rfl)
        exact hnext ▸ .first (hnext ▸ htail)
      · rw [List.concat_eq_append] at hA
        subst hA
        have hchain : Chain s (A' ++ a' :: p :: B) := by
          rw [List.append_assoc, List.singleton_append] at hL
          exact hL ▸ h
        have hnext : s.mem.next a' = p := hchain.next_eq
        have ha' := ih (p :: B) hL a' (by simp)
        exact hnext ▸ .next ha' (hnext ▸ htail)

/-- A line is read. -/
theorem Tight.readLine (h : Tight HISTSIZE s L []) (words : List Token)
    (commandId : Int) :
    Tight HISTSIZE { Shell.readLine words s with commandId } L
      [.args (s.brk + 1), .line s.brk] := by
  have he : Extends s { Shell.readLine words s with commandId } := by
    obtain ⟨h₁, h₂, h₃, h₄, h₅, h₆, h₇⟩ := readLine_extends words s
    exact ⟨h₁, h₂, h₃, h₄, h₅, h₆, h₇⟩
  refine ⟨h.toIntact.extend he h.safe, h.idle, ?_, ?_⟩
  · have hline : Account { s with brk := s.brk + 1 } L [.line s.brk] :=
      h.account.malloc h.known ⟨rfl, rfl, rfl, rfl, Nat.le_succ _,
        fun _ _ => rfl, fun _ _ => rfl⟩ rfl rfl
    refine hline.malloc (fun p hp => Nat.lt_succ_of_lt (h.known p hp)) ?_ rfl
      rfl
    exact ⟨rfl, rfl, rfl, rfl, Nat.le_succ _, fun _ _ => rfl,
      fun _ ha => Function.update_of_ne (Nat.ne_of_lt ha) _ _⟩
  · obtain ⟨⟨a₁, a₂, a₃⟩, ⟨c₁, c₂, c₃⟩, -, -⟩ := readLine_loose h.toIntact words
    intro b hb
    rcases List.mem_cons.mp hb with rfl | hb
    · exact ⟨a₁, a₂, a₃⟩
    · obtain rfl := List.mem_singleton.mp hb
      exact ⟨c₁, c₂, c₃⟩

/-- `callChild` on an entry of the history: the shell is left, or the account
is as it was. -/
theorem Tight.callChild (h : Tight HISTSIZE s L E) (hp : p ∈ L) (forks : Bool)
    (hfork : forks = false → Loose s L
      ∨ Builtin (s.mem.record p).numArg (s.argv (s.mem.record p).args).words)
    (hrun : Shell.callChild forks (s.mem.record p).numArg
      (s.mem.record p).args s = some s') :
    s'.exited = true ∨ ∃ trace, s' = { s with trace }
      ∧ Tight HISTSIZE s' L E := by
  obtain ⟨s₁, hrun₁, hdone⟩ := callChild_intact h.toIntact h.idle hp forks hfork
  obtain rfl := Option.some.inj (hrun.symm.trans hrun₁)
  rcases hdone with ⟨-, hexit⟩ | ⟨trace, rfl, hI⟩
  · exact .inl hexit
  · exact .inr ⟨trace, rfl, h.trace hI⟩

/-- `callChild` on the command `exit`. -/
theorem Tight.callChild_exit (h : Tight HISTSIZE s L []) (hp : p ∈ L)
    (forks : Bool) (hone : (s.mem.record p).numArg = 1)
    (hword : (s.argv (s.mem.record p).args).words.head? = some exitWord)
    (hrun : Shell.callChild forks (s.mem.record p).numArg
      (s.mem.record p).args s = some s') : s'.exited = true ∧ AllFreed s' := by
  obtain ⟨trace, hread, hI⟩ := h.toIntact.readArgs hp
  obtain ⟨s₁, hclear, hfreed⟩ := (h.trace hI).clearList
  unfold Shell.callChild at hrun
  simp only [Option.bind_eq_bind] at hrun
  rw [if_pos hone, hread, Option.bind_some, if_pos ⟨hone, hword⟩, hclear,
    Option.bind_some] at hrun
  obtain rfl := Option.some.inj hrun
  exact ⟨rfl, hfreed.once, hfreed.issued⟩

/-- A command that was typed in full gets the blocks of its line. -/
theorem Tight.type (hH : Sized HISTSIZE) (h : Tight HISTSIZE s L [])
    {words : List Token} (hwords : words ≠ [])
    (hfresh : ∀ p ∈ L, (s.mem.record p).commandId ≠ s.commandId)
    (forks : Bool) (next : Int) :
    ∃ s' L' p, Shell.enter HISTSIZE forks s.brk (s.brk + 1) words.length
          s.commandId { Shell.readLine words s with commandId := next }
        = Shell.callChild forks (s'.mem.record p).numArg
          (s'.mem.record p).args s'
      ∧ Tight HISTSIZE s' L' [] ∧ p ∈ L'
      ∧ (s'.mem.record p).numArg = words.length
      ∧ (s'.argv (s'.mem.record p).args).words = words := by
  have h₁ := h.readLine words next
  have hn := newcomer_typed h.toIntact hwords s.commandId
  have hhas (b : Block) : (newRecord s.brk (s.brk + 1) words.length
      s.commandId).Has b ↔ b ∈ [.args (s.brk + 1), .line s.brk] := by
    simp [HistCommand.Has, newRecord]
  obtain ⟨s', L', p, hrun, h', hp, hnum, hargs, hargv, -⟩ :=
    h₁.enter hH [] forks
      ⟨hn.entry, hn.unmarked, hn.kept, hn.same,
        ⟨hn.owned.args, hn.owned.command, hn.owned.line⟩, hn.evict⟩
      (fun p hp hid => absurd hid (hfresh p hp))
      (fun b hb => .inr (.inr ((hhas b).mp hb)))
      (fun b => ⟨fun hb => absurd hb List.not_mem_nil,
        fun hb => absurd ((hhas b).mpr hb.1) hb.2⟩)
  refine ⟨s', L', p, hrun, h', hp, hnum, ?_⟩
  rw [hargs, hargv]
  show (Function.update s.argv (s.brk + 1) ⟨s.brk, words⟩ (s.brk + 1)).words
    = words
  rw [Function.update_self]

/-- An entry that is recalled shares its blocks, and those of the line are
dropped. -/
theorem Tight.recall (hH : Sized HISTSIZE) (h : Tight HISTSIZE s L [])
    (words : List Token) (forks : Bool) (hp : p = NULL ∨ p ∈ L)
    (holdest : u32 HISTSIZE < s.numHist → p = s.mem.next s.mem.head →
      ∃ q, Listed s.mem q ∧ q ≠ p
        ∧ (s.mem.record q).commandId = (s.mem.record p).commandId)
    (hexited : s.exited = false)
    (hrun : recallEntry HISTSIZE forks p (Shell.readLine words s) = some s') :
    s'.exited = true ∨ ∃ L', Tight HISTSIZE s' L' [] := by
  have h₁ : Tight HISTSIZE (Shell.readLine words s) L
    (Shell.readLine words s).typed := h.readLine words s.commandId
  unfold recallEntry at hrun
  simp only [Option.bind_eq_bind] at hrun
  by_cases hnull : p = NULL
  · rw [if_neg (not_not.mpr hnull), Option.bind_some, if_neg (by
      rw [show (Shell.readLine words s).exited = false from hexited]
      exact Bool.false_ne_true)] at hrun
    obtain rfl := Option.some.inj hrun
    exact .inr ⟨L, h₁.dropLine.1⟩
  · have hin := hp.resolve_left hnull
    have hn := (newcomer_recalled h.toIntact hin holdest).extend h.toIntact
      (readLine_extends words s)
    have hnobody : ∀ b ∈ (Shell.readLine words s).typed,
        ¬(s.mem.record p).Has b := fun b hb =>
      (h₁.spare b hb).nobody p hin
    obtain ⟨s₂, L', q, henter, h₂, hq, -, -, -, hargs, hline, -⟩ :=
      h₁.enter hH (Shell.readLine words s).typed forks hn
        (fun o ho hid => h.account.share o ho p hin hid)
        (fun b hb => .inr (.inl (.inr ⟨p, hin, hb⟩)))
        (fun b => ⟨fun hb => ⟨hb, hnobody b hb⟩, And.left⟩)
    have hrec : (Shell.readLine words s).mem.record p = s.mem.record p := rfl
    rw [if_pos hnull, (h₁.mem_alive hin).load, Option.bind_some, hrec, henter]
      at hrun
    obtain ⟨s₃, hcall, hrun⟩ := Option.bind_eq_some_iff.mp hrun
    have htyped : s₂.typed = (Shell.readLine words s).typed := by
      unfold State.typed
      rw [hargs, hline]
    rw [← htyped] at h₂
    rcases h₂.callChild hq forks (fun _ => .inl h₂.loose) hcall with
      hexit | ⟨trace, rfl, h₃⟩
    · rw [if_pos hexit] at hrun
      exact .inl (Option.some.inj hrun ▸ hexit)
    · by_cases hexit : s₂.exited = true
      · rw [if_pos hexit] at hrun
        exact .inl (Option.some.inj hrun ▸ hexit)
      · rw [if_neg hexit] at hrun
        obtain rfl := Option.some.inj hrun
        exact .inr ⟨L', h₃.dropLine.1⟩

/-- A round leaves the shell or keeps the account. -/
theorem Tight.step (hH : Sized HISTSIZE) (h : Tight HISTSIZE s L [])
    (hexited : s.exited = false) {i : Input}
    (hok : Sparing HISTSIZE atoi i s)
    (hrun : Shell.step HISTSIZE atoi i s = some s') :
    s'.exited = true ∨ ∃ L', Tight HISTSIZE s' L' [] := by
  unfold Shell.step at hrun
  rw [if_neg (by rw [hexited]; exact Bool.false_ne_true)] at hrun
  cases i with
  | eof =>
      obtain ⟨s₁, -, hrun⟩ := Option.bind_eq_some_iff.mp hrun
      exact .inl (Option.some.inj hrun ▸ rfl)
  | line words forks =>
      cases words with
      | nil =>
          obtain rfl := Option.some.inj hrun
          exact .inr ⟨L, h⟩
      | cons word rest =>
          change dispatch HISTSIZE atoi (word :: rest) word forks
            (Shell.readLine (word :: rest) s) = some s' at hrun
          unfold dispatch at hrun
          split at hrun
          case isTrue hcheck =>
            obtain ⟨s₁, L', p, henter, h₁, hp, hnum, hwords⟩ := h.type hH
              (List.cons_ne_nil word rest)
              (fun p hp => hok.fresh word rest forks rfl hcheck p
                (h.toChain.mem_listed hp)) forks (i32 (s.commandId + 1))
            have hcall := henter.symm.trans hrun
            have hbuiltin : forks = false → Builtin (s₁.mem.record p).numArg
                (s₁.argv (s₁.mem.record p).args).words := by
              intro hf
              obtain ⟨rfl, hword⟩ := hok.forks word rest (hf ▸ rfl) hcheck
              rw [hnum, hwords]
              exact ⟨rfl, hword.imp (congrArg some) (congrArg some)⟩
            exact (h₁.callChild hp forks (fun hf => .inr (hbuiltin hf))
              hcall).imp_right fun ⟨_, _, h'⟩ => ⟨L', h'⟩
          case isFalse hcheck =>
            obtain ⟨p, hfind, hp⟩ := toBeCalled_spine atoi h.toIntact word
            rw [Option.bind_eq_bind, toBeCalled_readLine, hfind,
              Option.bind_some] at hrun
            obtain ⟨hhead, htail⟩ := hok.entry word rest forks p rfl hfind
            refine h.recall hH _ forks ?_
              (fun hfull => hok.oldest word rest forks p rfl hfind hfull)
              hexited hrun
            refine hp.imp_right fun hmem => ?_
            exact ((mem_spine.mp hmem).resolve_left hhead).resolve_right htail

theorem checkHist_exitWord : checkHist atoi exitWord = 0 := by
  unfold checkHist
  rw [if_neg (by decide), if_neg (by decide), if_neg (by decide)]

/-- The user leaves the shell. -/
def Leaves (i : Input) : Prop :=
  i = .eof ∨ ∃ forks, i = .line [exitWord] forks

/-- Then everything has been freed. -/
theorem Tight.leave (hH : Sized HISTSIZE) (h : Tight HISTSIZE s L [])
    (hexited : s.exited = false) {i : Input} (hi : Leaves i)
    (hok : Sparing HISTSIZE atoi i s)
    (hrun : Shell.step HISTSIZE atoi i s = some s') :
    s'.exited = true ∧ AllFreed s' := by
  unfold Shell.step at hrun
  rw [if_neg (by rw [hexited]; exact Bool.false_ne_true)] at hrun
  rcases hi with rfl | ⟨forks, rfl⟩
  · obtain ⟨s₁, hclear, hfreed⟩ := h.clearList
    simp only [Option.bind_eq_bind, hclear, Option.bind_some] at hrun
    obtain rfl := Option.some.inj hrun
    exact ⟨rfl, hfreed.once, hfreed.issued⟩
  · change dispatch HISTSIZE atoi [exitWord] exitWord forks
      (Shell.readLine [exitWord] s) = some s' at hrun
    unfold dispatch at hrun
    rw [if_pos checkHist_exitWord] at hrun
    obtain ⟨s₁, L', p, henter, h₁, hp, hnum, hwords⟩ := h.type hH
      (List.cons_ne_nil exitWord [])
      (fun p hp => hok.fresh exitWord [] forks rfl checkHist_exitWord p
        (h.toChain.mem_listed hp)) forks (i32 (s.commandId + 1))
    exact h₁.callChild_exit hp forks hnum (by rw [hwords]; rfl)
      (henter.symm.trans hrun)

-- ============================================================ all rounds

theorem tight_start (hstart : (shell HISTSIZE atoi).start s) :
    Tight HISTSIZE s [] [] := by
  obtain ⟨head, tail, rfl⟩ := hstart
  obtain ⟨L, hI, hidle⟩ := (start_good HISTSIZE head tail).2 rfl
  obtain rfl : L = [] := List.length_eq_zero_iff.mp hI.count.symm
  refine ⟨hI, hidle, ⟨nofun, List.nodup_nil, ?_⟩, nofun⟩
  have hset : accounted (State.start head tail) [] []
      = insert (.record 2) (insert (.record 1) ∅) := by
    ext b
    rw [mem_accounted, holds_iff]
    simp [State.start, or_comm]
  rw [hset]
  exact ((Lib.issued_empty Block.num).give Nat.one_pos rfl).give
    Nat.two_pos rfl

theorem tight_reach (hH : Sized HISTSIZE)
    (hreach : Reach (shell HISTSIZE atoi) (Sparing HISTSIZE atoi) s)
    (hexited : s.exited = false) : ∃ L, Tight HISTSIZE s L [] := by
  refine hreach.invariant
    (I := fun s => s.exited = false → ∃ L, Tight HISTSIZE s L [])
    (fun t ht _ => ⟨[], tight_start ht⟩) ?_ hexited
  intro i t t' ht hok hstep hexited'
  have hlive : t.exited = false := by
    cases hexit : t.exited with
    | false => rfl
    | true =>
        have hnone : Shell.step HISTSIZE atoi i t = none := by
          unfold Shell.step
          rw [if_pos hexit]
        cases hnone.symm.trans hstep
  obtain ⟨L, hL⟩ := ht hlive
  refine (hL.step hH hlive hok hstep).resolve_left fun hexit => ?_
  rw [hexited'] at hexit
  cases hexit

/-- The blocks the history holds, each once. -/
def holdings (s : State) (L : List Nat) : List Block :=
  (.record s.mem.head :: .record s.mem.tail :: L.flatMap fun p =>
    [.record p, .args (s.mem.record p).args,
      .line (s.mem.record p).command]).dedup

theorem mem_holdings : b ∈ holdings s L ↔ Holds s L b := by
  rw [holds_iff]
  simp [holdings, HistCommand.Has]

theorem length_holdings (s : State) (L : List Nat) :
    (holdings s L).length ≤ 2 + 3 * L.length := by
  refine (List.dedup_sublist _).length_le.trans ?_
  simp
  omega

theorem Tight.perm (h : Tight HISTSIZE s L []) :
    ((s.mem.freed ++ holdings s L).map Block.num).Perm
      (List.range' 1 (s.brk - 1)) := by
  have hset : accounted s L [] = {b | b ∈ s.mem.freed ++ holdings s L} := by
    ext b
    show b ∈ s.mem.freed ∨ Holds s L b ∨ b ∈ [] ↔ b ∈ s.mem.freed ++ holdings s L
    rw [List.mem_append, mem_holdings]
    simp
  refine (hset ▸ h.account.issued).perm (List.nodup_append.mpr
    ⟨h.account.once, List.nodup_dedup _, fun b hb b' hb' heq => ?_⟩)
  exact h.held (mem_holdings.mp hb') (heq ▸ hb)

/-- At every prompt, each block that counts has been freed, or the history
holds it, and no block twice; what it holds is bounded. When the user leaves,
each of them has been freed once. -/
theorem nothing_leaks (hH : Sized HISTSIZE)
    (hreach : Reach (shell HISTSIZE atoi) (Sparing HISTSIZE atoi) s)
    (hexited : s.exited = false) :
    (∃ L, Listing s L
        ∧ ((s.mem.freed ++ holdings s L).map Block.num).Perm
          (List.range' 1 (s.brk - 1))
        ∧ (holdings s L).length ≤ 2 + 3 * (u32 HISTSIZE + 1))
      ∧ ∀ i s', Leaves i → Sparing HISTSIZE atoi i s →
        (shell HISTSIZE atoi).step i s = some s' → s'.exited = true
          ∧ (s'.mem.freed.map Block.num).Perm (List.range' 1 (s'.brk - 1)) := by
  obtain ⟨L, hL⟩ := tight_reach hH hreach hexited
  refine ⟨⟨L, hL.toListing, hL.perm, ?_⟩, fun i s' hi hok hstep => ?_⟩
  · have hlength := length_holdings s L
    have hcount := hL.count
    have hroom := hL.room
    omega
  · obtain ⟨hexit, hfreed⟩ := hL.leave hH hexited hi hok hstep
    exact ⟨hexit, hfreed.issued.perm hfreed.once⟩

theorem sparing_eof : Sparing HISTSIZE atoi .eof s := by
  constructor
  case toDue => constructor <;> (intro _ _ _; intros; contradiction)
  case fresh =>
    intro _ _ _ heq
    cases heq

/-- With room for two entries, a command is typed and recalled once, and the
input ends: eight blocks in all. -/
theorem nothing_leaks_recall : ∃ s s',
    Reach (shell 1 fun _ => 0) (Sparing 1 fun _ => 0) s
      ∧ (shell 1 fun _ => 0).step .eof s = some s'
      ∧ (s'.mem.freed.map Block.num).Perm (List.range' 1 8) := by
  let s₀ := State.start (0, 0) (0, 0)
  let s₁ := ((shell 1 fun _ => 0).step (.line [['a']] true) s₀).get
    (by decide +kernel)
  let s₂ := ((shell 1 fun _ => 0).step (.line [['!', '!']] true) s₁).get
    (by decide +kernel)
  let s₃ := ((shell 1 fun _ => 0).step .eof s₂).get (by decide +kernel)
  have hnone : toBeCalled (fun _ => 0) ['a'] s₀ = some NULL := by
    decide +kernel
  have hnewest : toBeCalled (fun _ => 0) ['!', '!'] s₁ = some 5 := by
    decide +kernel
  have hempty : ∀ q, ¬Listed s₀.mem q := by
    intro q hq
    induction hq with
    | first hne => exact hne rfl
    | next _ _ ih => exact ih
  have h₀ : Reach (shell 1 fun _ => 0) (Sparing 1 fun _ => 0) s₀ :=
    ⟨s₀, ⟨_, _, rfl⟩, .refl s₀⟩
  have h₁ : Reach (shell 1 fun _ => 0) (Sparing 1 fun _ => 0) s₁ :=
    h₀.step ⟨due_line ['a'] [] hnone (by decide +kernel) (by decide +kernel)
      (.inl (by decide +kernel)), fun _ _ _ _ _ q hq => absurd hq (hempty q)⟩
      (Option.some_get _).symm
  have h₂ : Reach (shell 1 fun _ => 0) (Sparing 1 fun _ => 0) s₂ := by
    refine h₁.step ⟨due_line ['!', '!'] [] hnewest (by decide +kernel)
      (by decide +kernel) (.inl (by decide +kernel)), ?_⟩
      (Option.some_get _).symm
    intro _ _ _ heq hcheck
    cases heq
    cases hcheck
  have h₃ : (shell 1 fun _ => 0).step .eof s₂ = some s₃ :=
    (Option.some_get _).symm
  have hbrk : s₃.brk = 9 := by decide +kernel
  obtain ⟨-, hleave⟩ := nothing_leaks ⟨by decide, by decide⟩ h₂
    (by decide +kernel)
  obtain ⟨-, hfreed⟩ := hleave .eof s₃ (.inl rfl) sparing_eof h₃
  rw [hbrk] at hfreed
  exact ⟨s₂, s₃, h₂, h₃, hfreed⟩

end OperatingSystem.Shell
