/-
Who frees the buffers of a command.

A recalled entry shares the `args` array and the line buffer of the entry it
was copied from, and the two have one `commandId`. `popFront` frees the
buffers of the evicted entry unless another LISTED entry has its id. The
entry that `addToTail` is about to link is not listed yet: recalling the
oldest entry of a full list, with no other copy in it, frees what the new
entry refers to.

# The invariant

`Intact s L`: no buffer of an entry has been freed, and two entries with a
common buffer have one id (not the other way round: an id that has wrapped
may come twice). Entering an entry keeps this if its own buffers are not
those of the evicted one, or a listed copy saves them (`Newcomer.evict`).
-/
import Mathlib.Data.List.Induction
import OperatingSystem.Shell.History

namespace OperatingSystem.Shell

open Lib (Linked)

variable {s s' : State} {L A B : List Nat} {p q t fuel : Nat} {b : Block}
  {HISTSIZE : Int}

-- ========================================================== what is safe

/-- Reached from `head` along `next`, before `tail`. -/
inductive Reached (next : Nat → Nat) (head tail : Nat) : Nat → Prop
  | first : next head ≠ tail → Reached next head tail (next head)
  | next {p : Nat} : Reached next head tail p → next p ≠ tail →
      Reached next head tail (next p)

/-- The record is in the list. -/
def Listed (m : Memory) (p : Nat) : Prop := Reached m.next m.head m.tail p

/-- `b` is one of the record's two buffers. -/
def HistCommand.Has (r : HistCommand) (b : Block) : Prop :=
  b = .args r.args ∨ b = .line r.command

theorem not_record_of_has {r : HistCommand} (hb : r.Has b) : b ≠ .record q := by
  rintro rfl
  rcases hb with heq | heq <;> cases heq

/-- A history entry refers to `b`: one in the list, or the one that is being
appended. A record marked `DELETED` refers to nothing. -/
def Refers (m : Memory) (b : Block) : Prop :=
  ∃ p, (Listed m p ∨ p = m.toAdd ∧ p ≠ NULL)
    ∧ (m.record p).delete ≠ DELETED ∧ (m.record p).Has b

/-- A block is freed at most once and only when no entry refers to it, and
no freed one is read. -/
def Event.Safe : Event → Prop
  | .free b m => b ∉ m.freed ∧ ¬Refers m b
  | .read b m => b ∉ m.freed

-- ======================================================== the list's part

theorem Chain.listed (h : Chain s L) (hp : Listed s.mem p) : p ∈ L := by
  induction hp with
  | first hne =>
      have hnext : s.mem.next s.mem.head = firstOf s.mem L := h.head_next
      rw [hnext] at hne ⊢
      cases L with
      | nil => exact absurd rfl hne
      | cons a rest => exact List.mem_cons_self
  | @next p _ hne ih =>
      obtain ⟨A, B, rfl⟩ := List.append_of_mem ih
      have hnext : s.mem.next p = firstOf s.mem B := h.next_eq
      rw [hnext] at hne ⊢
      cases B with
      | nil => exact absurd rfl hne
      | cons a rest => simp [firstOf]

/-- What refers to a block is in the list, or being appended. -/
theorem Chain.refers (h : Chain s L) (hb : Refers s.mem b) :
    ∃ p, (p ∈ L ∨ p = s.mem.toAdd ∧ p ≠ NULL)
      ∧ (s.mem.record p).delete ≠ DELETED ∧ (s.mem.record p).Has b := by
  obtain ⟨p, hp, hrest⟩ := hb
  exact ⟨p, hp.imp_left h.listed, hrest⟩

/-- The buffers and the record are freed one after the other. -/
theorem release_safe {r : HistCommand} (hsafe : ∀ e ∈ s.trace, e.Safe)
    (hkept : ∀ b, r.Has b → b ∉ s.mem.freed)
    (hfree : ∀ b, r.Has b → ¬Refers s.mem b)
    (hp : Block.record p ∉ s.mem.freed) :
    ∀ e ∈ (s.release p r).trace, e.Safe := by
  intro e he
  rcases List.mem_cons.mp he with rfl | he
  · refine ⟨?_, ?_⟩
    · intro hmem
      rcases List.mem_cons.mp hmem with heq | hmem
      · cases heq
      · rcases List.mem_cons.mp hmem with heq | hmem
        · cases heq
        · exact hp hmem
    · rintro ⟨q, -, -, heq | heq⟩ <;> cases heq
  · rcases List.mem_cons.mp he with rfl | he
    · refine ⟨fun hmem => ?_, hfree _ (.inr rfl)⟩
      rcases List.mem_cons.mp hmem with heq | hmem
      · cases heq
      · exact hkept _ (.inr rfl) hmem
    · rcases List.mem_cons.mp he with rfl | he
      · exact ⟨hkept _ (.inl rfl), hfree _ (.inl rfl)⟩
      · exact hsafe e he

/-- So is a record alone. -/
theorem free_record_safe (hsafe : ∀ e ∈ s.trace, e.Safe)
    (hp : Block.record p ∉ s.mem.freed) :
    ∀ e ∈ (s.free (.record p)).trace, e.Safe := by
  intro e he
  rcases List.mem_cons.mp he with rfl | he
  · refine ⟨hp, ?_⟩
    rintro ⟨q, -, -, heq | heq⟩ <;> cases heq
  · exact hsafe e he

-- ========================================================= the invariant

/-- A record's buffers have come from `malloc`, and the strings of its array
lie in its line buffer. -/
structure HistCommand.Known (r : HistCommand) (s : State) : Prop where
  args : r.args < s.brk
  command : r.command < s.brk
  line : (s.argv r.args).line = r.command

/-- The number `malloc` gave. -/
def Block.num : Block → Nat
  | .record p => p
  | .args p => p
  | .line p => p

/-- The history is `L`, and its buffers are all there. -/
structure Intact (HISTSIZE : Int) (s : State) (L : List Nat) : Prop
    extends Listing s L where
  count : s.numHist = L.length
  room : s.numHist ≤ u32 HISTSIZE + 1
  unmarked : ∀ p ∈ L, (s.mem.record p).delete = NOTDELETED
  kept : ∀ p ∈ L, ∀ b, (s.mem.record p).Has b → b ∉ s.mem.freed
  same : ∀ p ∈ L, ∀ q ∈ L, ∀ b, (s.mem.record p).Has b →
    (s.mem.record q).Has b →
    (s.mem.record p).commandId = (s.mem.record q).commandId
  owned : ∀ p ∈ L, (s.mem.record p).Known s
  past : ∀ b ∈ s.mem.freed, b.num < s.brk
  safe : ∀ e ∈ s.trace, e.Safe

/-- The record `r` can be entered into the history `L`. -/
structure Newcomer (HISTSIZE : Int) (s : State) (L : List Nat)
    (r : HistCommand) : Prop where
  entry : r.Entry
  unmarked : r.delete = NOTDELETED
  kept : ∀ b, r.Has b → b ∉ s.mem.freed
  same : ∀ p ∈ L, ∀ b, r.Has b → (s.mem.record p).Has b →
    r.commandId = (s.mem.record p).commandId
  owned : r.Known s
  /-- If the oldest entry has to go, a copy saves what is shared with it. -/
  evict : u32 HISTSIZE < s.numHist → ∀ p rest, L = p :: rest → ∀ b, r.Has b →
    (s.mem.record p).Has b → ∃ q ∈ rest,
      (s.mem.record q).commandId = (s.mem.record p).commandId

/-- A buffer that no entry of the history has. -/
structure Spare (s : State) (L : List Nat) (b : Block) : Prop where
  kept : b ∉ s.mem.freed
  buffer : ∀ p, b ≠ .record p
  nobody : ∀ p ∈ L, ¬(s.mem.record p).Has b

/-- What entering a command leaves alone. -/
structure SameProcess (s s' : State) : Prop where
  head : s'.mem.head = s.mem.head
  tail : s'.mem.tail = s.mem.tail
  argv : s'.argv = s.argv
  brk : s'.brk = s.brk
  args : s'.args = s.args
  commandLine : s'.commandLine = s.commandLine
  exited : s'.exited = s.exited
  argsOf : ∀ p, (s'.mem.record p).args = (s.mem.record p).args
  commandOf : ∀ p, (s'.mem.record p).command = (s.mem.record p).command
  numArgOf : ∀ p, (s'.mem.record p).numArg = (s.mem.record p).numArg

theorem SameProcess.has (h : SameProcess s s') :
    (s'.mem.record p).Has b ↔ (s.mem.record p).Has b := by
  unfold HistCommand.Has
  rw [h.argsOf, h.commandOf]

theorem SameProcess.trans {s₁ s₂ s₃ : State} (h : SameProcess s₁ s₂)
    (h' : SameProcess s₂ s₃) : SameProcess s₁ s₃ where
  head := h'.head.trans h.head
  tail := h'.tail.trans h.tail
  argv := h'.argv.trans h.argv
  brk := h'.brk.trans h.brk
  args := h'.args.trans h.args
  commandLine := h'.commandLine.trans h.commandLine
  exited := h'.exited.trans h.exited
  argsOf p := (h'.argsOf p).trans (h.argsOf p)
  commandOf p := (h'.commandOf p).trans (h.commandOf p)
  numArgOf p := (h'.numArgOf p).trans (h.numArgOf p)

/-- `HISTSIZE` is at least 1 and an `int`. -/
def Sized (HISTSIZE : Int) : Prop := 1 ≤ HISTSIZE ∧ HISTSIZE < 2147483648

theorem Sized.u32 (h : Sized HISTSIZE) :
    1 ≤ u32 HISTSIZE ∧ u32 HISTSIZE < 2147483648 := by
  obtain ⟨hlo, hhi⟩ := h
  unfold Shell.u32
  omega

/-- Counting within the range of an `unsigned int`. -/
theorem u32_natCast {n : Int} {k : Nat} (h : n = k) (hk : k < 4294967296) :
    u32 n = k := by
  unfold u32
  omega

/-- Evicting the oldest entry frees its record, and its buffers only if
nobody needs them. -/
theorem popFront_safe (h : Intact HISTSIZE s (p :: L))
    (hfull : u32 HISTSIZE < s.numHist)
    (hn : Newcomer HISTSIZE s (p :: L) (s.mem.record s.mem.toAdd)) :
    ∃ extra trace, popFront s = some { s.unhook L with
        mem := { (s.unhook L).mem with freed := extra ++ s.mem.freed }
        trace, numHist := u32 (s.numHist - 1) }
      ∧ (∀ b ∈ extra, b = .record p ∨ (s.mem.record p).Has b
        ∧ ¬∃ q ∈ L, (s.mem.record q).commandId = (s.mem.record p).commandId)
      ∧ ∀ e ∈ trace, e.Safe := by
  have hp := (h.mem_alive List.mem_cons_self).2
  rw [popFront_eq h.toListing]
  by_cases hshared : ∃ q ∈ L, (s.mem.record q).commandId
      = (s.mem.record p).commandId
  · rw [if_pos hshared]
    refine ⟨[.record p], _, rfl, fun b hb => .inl (List.mem_singleton.mp hb),
      ?_⟩
    exact free_record_safe (s := s.unhook L) h.safe hp
  · rw [if_neg hshared]
    refine ⟨[.record p, .line (s.mem.record p).command,
      .args (s.mem.record p).args], _, rfl, fun b hb => ?_, ?_⟩
    · simp only [List.mem_cons, List.not_mem_nil, or_false] at hb
      rcases hb with rfl | rfl | rfl
      · exact .inl rfl
      · exact .inr ⟨.inr rfl, hshared⟩
      · exact .inr ⟨.inl rfl, hshared⟩
    · refine release_safe (s := s.unhook L) h.safe
        (h.kept p List.mem_cons_self) (fun b hb href => hshared ?_) hp
      -- whoever refers to the block has the evicted entry's id
      obtain ⟨q, hq, -, hqb⟩ := h.unhook.toChain.refers href
      rcases hq with hq | ⟨rfl, -⟩
      · exact ⟨q, hq, h.same q (List.mem_cons_of_mem p hq) p List.mem_cons_self
          b hqb hb⟩
      · exact hn.evict hfull p L rfl b hqb hb

/-- A block outlives the oldest entry `p` if it is neither its record nor one
that nobody else needs. -/
theorem not_evicted {extra : List Block} (hextra : ∀ b ∈ extra,
      b = .record p ∨ (s.mem.record p).Has b ∧ ¬∃ q ∈ L,
        (s.mem.record q).commandId = (s.mem.record p).commandId)
    (hb : b ∉ s.mem.freed) (hrecord : b ≠ .record p)
    (hneeded : (s.mem.record p).Has b → ∃ q ∈ L,
      (s.mem.record q).commandId = (s.mem.record p).commandId) :
    b ∉ extra ++ s.mem.freed := by
  intro hfreed
  rcases List.mem_append.mp hfreed with hfreed | hfreed
  · rcases hextra b hfreed with heq | ⟨hpb, hnone⟩
    · exact hrecord heq
    · exact hnone (hneeded hpb)
  · exact hb hfreed

/-- The oldest entry makes room. -/
theorem popFront_intact (hH : Sized HISTSIZE) (h : Intact HISTSIZE s (p :: L))
    (hfull : u32 HISTSIZE < s.numHist)
    (hn : Newcomer HISTSIZE s (p :: L) (s.mem.record s.mem.toAdd)) :
    ∃ s', popFront s = some s' ∧ Intact HISTSIZE s' L
      ∧ s'.numHist ≤ u32 HISTSIZE
      ∧ Newcomer HISTSIZE s' L (s'.mem.record s.mem.toAdd)
      ∧ SameProcess s s'
      ∧ (∀ q, Alive s q → q ≠ p → Alive s' q)
      ∧ (∀ b, Spare s (p :: L) b → Spare s' L b) := by
  obtain ⟨hlo, hhi⟩ := hH.u32
  have hroom := h.room
  have hcount := h.count
  rw [List.length_cons] at hcount
  have hnum : u32 (s.numHist - 1) = L.length :=
    u32_natCast (by omega) (by omega)
  have hmem {q : Nat} (hq : q ∈ L) : q ∈ p :: L := List.mem_cons_of_mem p hq
  have hlist := h.toListing.unhook
  obtain ⟨extra, trace, hrun, hextra, hsafe⟩ := popFront_safe h hfull hn
  have halive : ∀ q, Alive s q → q ≠ p →
      q ≠ NULL ∧ Block.record q ∉ extra ++ s.mem.freed := fun q hq hne =>
    ⟨hq.1, not_evicted hextra hq.2 (fun heq => hne (Block.record.inj heq))
      fun hpq => absurd rfl (not_record_of_has hpq)⟩
  have hspare : ∀ b, Spare s (p :: L) b → b ∉ extra ++ s.mem.freed :=
    fun b hb => not_evicted hextra hb.kept (hb.buffer p)
      fun hpb => absurd hpb (hb.nobody p List.mem_cons_self)
  refine ⟨_, hrun, ?_, ?_, ?_, ⟨rfl, rfl, rfl, rfl, rfl, rfl, rfl,
    fun _ => rfl, fun _ => rfl, fun _ => rfl⟩, halive, fun b hb => ⟨hspare b hb, hb.buffer,
    fun q hq => hb.nobody q (hmem hq)⟩⟩
  · constructor
    case toListing =>
      refine ⟨⟨hlist.forward, hlist.nodup, fun q hq => ?_, hlist.known,
        hlist.entry, hlist.head, hlist.tail⟩, hlist.linked⟩
      exact halive q (hlist.alive q hq) fun heq => h.toChain.not_mem (heq ▸ hq)
    case count => exact hnum
    case room =>
      change u32 (s.numHist - 1) ≤ u32 HISTSIZE + 1
      omega
    case unmarked => exact fun q hq => h.unmarked q (hmem hq)
    case kept =>
      exact fun q hq b hb => not_evicted hextra (h.kept q (hmem hq) b hb)
        (not_record_of_has hb)
        fun hpb => ⟨q, hq, h.same q (hmem hq) p List.mem_cons_self b hb hpb⟩
    case same => exact fun q hq r hr => h.same q (hmem hq) r (hmem hr)
    case owned =>
      intro q hq
      obtain ⟨h₁, h₂, h₃⟩ := h.owned q (hmem hq)
      exact ⟨h₁, h₂, h₃⟩
    case past =>
      intro b hfreed
      rcases List.mem_append.mp hfreed with hfreed | hfreed
      · rcases hextra b hfreed with rfl | ⟨rfl | rfl, -⟩
        · exact h.known p (mem_spine.mpr (.inr (.inl List.mem_cons_self)))
        · exact (h.owned p List.mem_cons_self).args
        · exact (h.owned p List.mem_cons_self).command
      · exact h.past b hfreed
    case safe => exact hsafe
  · change u32 (s.numHist - 1) ≤ u32 HISTSIZE
    omega
  · constructor
    case entry => exact hn.entry.relink
    case unmarked => exact hn.unmarked
    case kept =>
      exact fun b hb => not_evicted hextra (hn.kept b hb)
        (not_record_of_has hb) fun hpb => hn.evict hfull p L rfl b hb hpb
    case same => exact fun q hq => hn.same q (hmem hq)
    case owned =>
      obtain ⟨h₁, h₂, h₃⟩ := hn.owned
      exact ⟨h₁, h₂, h₃⟩
    case evict =>
      intro hfull'
      change u32 HISTSIZE < u32 (s.numHist - 1) at hfull'
      omega

-- ========================================================= entering it

/-- New blocks, and nothing else that the history depends on. -/
structure Extends (s s' : State) : Prop where
  head : s'.mem.head = s.mem.head
  tail : s'.mem.tail = s.mem.tail
  freed : s'.mem.freed = s.mem.freed
  numHist : s'.numHist = s.numHist
  brk : s.brk ≤ s'.brk
  record : ∀ p, p < s.brk → s'.mem.record p = s.mem.record p
  argv : ∀ a, a < s.brk → s'.argv a = s.argv a

theorem Listing.extend (h : Listing s L) (he : Extends s s') :
    Listing s' L := by
  have hspine : spine s'.mem L = spine s.mem L := by
    unfold spine
    rw [he.head, he.tail]
  have hrec {p : Nat} (hp : p ∈ spine s.mem L) :
      s'.mem.record p = s.mem.record p := he.record p (h.known p hp)
  have hlinked : Linked s'.mem.next s'.mem.prev NULL (spine s'.mem L) NULL := by
    rw [hspine]
    exact h.linked.congr (fun p hp => congrArg HistCommand.next (hrec hp))
      fun p hp => congrArg HistCommand.prev (hrec hp)
  refine ⟨⟨hlinked.forward, ?_, ?_, ?_, ?_, ?_, ?_⟩, hlinked⟩
  · rw [hspine]
    exact h.nodup
  · rw [hspine]
    intro p hp
    unfold Alive
    rw [he.freed]
    exact h.alive p hp
  · rw [hspine]
    exact fun p hp => Nat.lt_of_lt_of_le (h.known p hp) he.brk
  · intro p hp
    rw [hrec (mem_spine.mpr (.inr (.inl hp)))]
    exact h.entry p hp
  · rw [he.head, hrec (mem_spine.mpr (.inl rfl))]
    exact h.head
  · rw [he.tail, hrec (mem_spine.mpr (.inr (.inr rfl)))]
    exact h.tail

theorem HistCommand.Known.extend {r : HistCommand} (h : r.Known s)
    (he : Extends s s') : r.Known s' := by
  refine ⟨Nat.lt_of_lt_of_le h.args he.brk,
    Nat.lt_of_lt_of_le h.command he.brk, ?_⟩
  rw [he.argv _ h.args]
  exact h.line

theorem Intact.extend (h : Intact HISTSIZE s L) (he : Extends s s')
    (hsafe : ∀ e ∈ s'.trace, e.Safe) : Intact HISTSIZE s' L := by
  have hrec {p : Nat} (hp : p ∈ L) : s'.mem.record p = s.mem.record p :=
    he.record p (h.known p (mem_spine.mpr (.inr (.inl hp))))
  constructor
  case toListing => exact h.toListing.extend he
  case count => rw [he.numHist, h.count]
  case room => rw [he.numHist]; exact h.room
  case unmarked => intro p hp; rw [hrec hp]; exact h.unmarked p hp
  case kept => intro p hp; rw [hrec hp, he.freed]; exact h.kept p hp
  case same =>
    intro p hp q hq
    rw [hrec hp, hrec hq]
    exact h.same p hp q hq
  case owned => intro p hp; rw [hrec hp]; exact (h.owned p hp).extend he
  case past =>
    rw [he.freed]
    exact fun b hb => Nat.lt_of_lt_of_le (h.past b hb) he.brk
  case safe => exact hsafe

theorem Spare.extend (hb : Spare s L b) (h : Intact HISTSIZE s L)
    (he : Extends s s') : Spare s' L b := by
  refine ⟨he.freed ▸ hb.kept, hb.buffer, fun p hp => ?_⟩
  rw [he.record p (h.known p (mem_spine.mpr (.inr (.inl hp))))]
  exact hb.nobody p hp

theorem Newcomer.extend {r : HistCommand} (hn : Newcomer HISTSIZE s L r)
    (h : Intact HISTSIZE s L) (he : Extends s s') :
    Newcomer HISTSIZE s' L r := by
  have hrec {p : Nat} (hp : p ∈ L) : s'.mem.record p = s.mem.record p :=
    he.record p (h.known p (mem_spine.mpr (.inr (.inl hp))))
  constructor
  case entry => exact hn.entry
  case unmarked => exact hn.unmarked
  case kept => rw [he.freed]; exact hn.kept
  case same => intro p hp; rw [hrec hp]; exact hn.same p hp
  case owned => exact hn.owned.extend he
  case evict =>
    rw [he.numHist]
    intro hfull p rest hL b hb hpb
    rw [hrec (hL ▸ List.mem_cons_self)] at hpb ⊢
    obtain ⟨q, hq, hid⟩ := hn.evict hfull p rest hL b hb hpb
    exact ⟨q, hq, by
      rw [hrec (hL ▸ List.mem_cons_of_mem p hq)]
      exact hid⟩

/-- The record `t` is linked in where there is room. -/
theorem linkTail_intact (hH : Sized HISTSIZE) (h : Intact HISTSIZE s L)
    (hroom : s.numHist ≤ u32 HISTSIZE) (ht : Alive s t)
    (hnew : t ∉ spine s.mem L) (hknown : t < s.brk)
    (hn : Newcomer HISTSIZE s L (s.mem.record t)) :
    ∃ s', linkTail t s = some s' ∧ Intact HISTSIZE s' (L ++ [t])
      ∧ SameProcess s s'
      ∧ (∀ b, Spare s L b → ¬(s.mem.record t).Has b → Spare s' (L ++ [t]) b)
      := by
  obtain ⟨hlo, hhi⟩ := hH.u32
  have hcount := h.count
  have hnum : u32 (s.numHist + 1) = L.length + 1 :=
    u32_natCast (by omega) (by omega)
  have hlist := h.toListing.hook ht hnew hknown hn.entry
  have hmem {P : Nat → Prop} (hL : ∀ p ∈ L, P p) (hlast : P t) :
      ∀ p ∈ L ++ [t], P p := by
    intro p hp
    rcases List.mem_append.mp hp with hp | hp
    · exact hL p hp
    · exact List.mem_singleton.mp hp ▸ hlast
  refine ⟨_, linkTail_eq h.toListing ht, ?_,
    ⟨rfl, rfl, rfl, rfl, rfl, rfl, rfl, fun _ => rfl, fun _ => rfl,
      fun _ => rfl⟩,
    fun b hb hnot => ⟨hb.kept, hb.buffer, hmem hb.nobody hnot⟩⟩
  constructor
  case toListing =>
    exact ⟨⟨hlist.forward, hlist.nodup, hlist.alive, hlist.known, hlist.entry,
      hlist.head, hlist.tail⟩, hlist.linked⟩
  case count =>
    rw [List.length_append, List.length_singleton]
    exact hnum
  case room =>
    change u32 (s.numHist + 1) ≤ u32 HISTSIZE + 1
    omega
  case unmarked => exact hmem h.unmarked hn.unmarked
  case kept => exact hmem h.kept hn.kept
  case same =>
    refine hmem (fun p hp => hmem (h.same p hp) fun b hpb hb => ?_)
      (hmem hn.same fun b _ _ => rfl)
    exact (hn.same p hp b hb hpb).symm
  case owned =>
    refine hmem (fun p hp => ?_) ?_
    · obtain ⟨h₁, h₂, h₃⟩ := h.owned p hp
      exact ⟨h₁, h₂, h₃⟩
    · obtain ⟨h₁, h₂, h₃⟩ := hn.owned
      exact ⟨h₁, h₂, h₃⟩
  case past => exact h.past
  case safe => exact h.safe

/-- `addToTail` on a record that can be entered. -/
theorem addToTail_intact (hH : Sized HISTSIZE) (h : Intact HISTSIZE s L)
    (ht : Alive s t) (hnew : t ∉ spine s.mem L) (hknown : t < s.brk)
    (hn : Newcomer HISTSIZE s L (s.mem.record t)) :
    ∃ s' L', addToTail HISTSIZE t s = some s'
      ∧ Intact HISTSIZE s' (L' ++ [t]) ∧ s'.mem.toAdd = NULL
      ∧ SameProcess s s'
      ∧ ∀ b, Spare s L b → ¬(s.mem.record t).Has b → Spare s' (L' ++ [t]) b
      := by
  generalize hs₁ : { s with mem := { s.mem with toAdd := t } } = s₁
  have he : Extends s s₁ := by
    rw [← hs₁]
    exact ⟨rfl, rfl, rfl, rfl, Nat.le_refl _, fun _ _ => rfl, fun _ _ => rfl⟩
  have hsame : SameProcess s s₁ := by
    rw [← hs₁]
    exact ⟨rfl, rfl, rfl, rfl, rfl, rfl, rfl, fun _ => rfl, fun _ => rfl,
      fun _ => rfl⟩
  have hadd : s₁.mem.toAdd = t := by rw [← hs₁]
  have h₁ : Intact HISTSIZE s₁ L := h.extend he (by rw [← hs₁]; exact h.safe)
  have hn₁ : Newcomer HISTSIZE s₁ L (s₁.mem.record t) := by
    rw [he.record t hknown]
    exact hn.extend h he
  have ht₁ : Alive s₁ t := by
    unfold Alive
    rw [he.freed]
    exact ht
  -- first there is room, by itself or because the oldest entry goes
  have hmade : ∃ s₂ L', (if s₁.numHist ≤ u32 HISTSIZE then some s₁
        else popFront s₁) = some s₂
      ∧ Intact HISTSIZE s₂ L' ∧ s₂.numHist ≤ u32 HISTSIZE
      ∧ Newcomer HISTSIZE s₂ L' (s₂.mem.record t) ∧ SameProcess s₁ s₂
      ∧ Alive s₂ t ∧ (∀ q ∈ L', q ∈ L)
      ∧ ∀ b, Spare s₁ L b → Spare s₂ L' b := by
    by_cases hroom : s₁.numHist ≤ u32 HISTSIZE
    · rw [if_pos hroom]
      exact ⟨s₁, L, rfl, h₁, hroom, hn₁, ⟨rfl, rfl, rfl, rfl, rfl, rfl, rfl,
        fun _ => rfl, fun _ => rfl, fun _ => rfl⟩, ht₁, fun _ hq => hq,
        fun _ hb => hb⟩
    · rw [if_neg hroom]
      cases L with
      | nil =>
          have hcount := h₁.count
          rw [List.length_nil] at hcount
          omega
      | cons p rest =>
          obtain ⟨s₂, hrun, h₂, hroom₂, hn₂, hsame₂, halive, hspare⟩ :=
            popFront_intact hH h₁ (Nat.lt_of_not_le hroom)
              (by rw [hadd]; exact hn₁)
          rw [hadd] at hn₂
          refine ⟨s₂, rest, hrun, h₂, hroom₂, hn₂, hsame₂,
            halive t ht₁ fun heq => hnew ?_, fun q => List.mem_cons_of_mem p,
            hspare⟩
          rw [heq]
          exact mem_spine.mpr (.inr (.inl List.mem_cons_self))
  obtain ⟨s₂, L', hmake, h₂, hroom₂, hn₂, hsame₂, ht₂, hsub, hspare₂⟩ := hmade
  have hspine : t ∉ spine s₂.mem L' := by
    intro hmem
    refine hnew (mem_spine.mpr ?_)
    rw [← hsame.head, ← hsame.tail, ← hsame₂.head, ← hsame₂.tail]
    exact (mem_spine.mp hmem).imp_right fun hq => hq.imp_left (hsub t)
  obtain ⟨s₃, hlink, h₃, hsame₃, hspare₃⟩ := linkTail_intact hH h₂ hroom₂ ht₂ hspine
    (by rw [hsame₂.brk, hsame.brk]; exact hknown) hn₂
  have hdone : Extends s₃ { s₃ with mem := { s₃.mem with toAdd := NULL } } :=
    ⟨rfl, rfl, rfl, rfl, Nat.le_refl _, fun _ _ => rfl, fun _ _ => rfl⟩
  refine ⟨_, L', ?_, h₃.extend hdone h₃.safe, rfl, ?_, fun b hb hnot => ?_⟩
  · unfold addToTail
    simp only [Option.bind_eq_bind]
    rw [hs₁, ← he.numHist, hmake, Option.bind_some, hlink, Option.bind_some]
  · exact hsame.trans (hsame₂.trans (hsame₃.trans ⟨rfl, rfl, rfl, rfl, rfl, rfl,
      rfl, fun _ => rfl, fun _ => rfl, fun _ => rfl⟩))
  · refine (hspare₃ b (hspare₂ b (hb.extend h he)) fun hhas => hnot ?_).extend
      h₃ hdone
    exact hsame.has.mp (hsame₂.has.mp hhas)

end OperatingSystem.Shell
