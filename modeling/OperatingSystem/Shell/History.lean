/-
The history list: what the functions that walk and edit it do.

`Listing s L` says that the records `L` hang between the two sentinels,
linked both ways, with the sentinels' argument count marking the ends. The
edits are edits of the two link functions (`State.relink`), so what a record
holds is untouched by them; the walks are computed on `L`.
-/
import Mathlib.Data.List.Perm.Subperm
import OperatingSystem.Lib.DoublyLinked
import OperatingSystem.Shell.Basic

namespace OperatingSystem.Shell

open Lib (Linked Forward)

variable {s s' : State} {L A B : List Nat} {p t v fuel : Nat} {id : Int}

-- ============================================================== the links

def Memory.next (m : Memory) (p : Nat) : Nat := (m.record p).next

def Memory.prev (m : Memory) (p : Nat) : Nat := (m.record p).prev

/-- Other links between the same records. -/
def State.relink (s : State) (next prev : Nat → Nat) : State :=
  s.withRecords fun p => { s.mem.record p with next := next p, prev := prev p }

@[simp] theorem State.relink_next (s : State) (next prev : Nat → Nat) :
    (s.relink next prev).mem.next = next := rfl

@[simp] theorem State.relink_prev (s : State) (next prev : Nat → Nat) :
    (s.relink next prev).mem.prev = prev := rfl

@[simp] theorem State.relink_relink (s : State) (n₁ p₁ n₂ p₂ : Nat → Nat) :
    (s.relink n₁ p₁).relink n₂ p₂ = s.relink n₂ p₂ := rfl

/-- The record `p` has not been freed. -/
def Alive (s : State) (p : Nat) : Prop :=
  p ≠ NULL ∧ Block.record p ∉ s.mem.freed

theorem Alive.load (h : Alive s p) : s.load p = some (s.mem.record p) :=
  if_neg (not_or.mpr h)

theorem State.setNext_eq (h : Alive s p) (v : Nat) : s.setNext p v
    = some (s.relink (Function.update s.mem.next p v) s.mem.prev) := by
  unfold setNext setRecord relink
  rw [h.load, Option.map_some]
  refine congrArg (fun f => some (s.withRecords f)) (funext fun q => ?_)
  by_cases hq : q = p
  · subst hq
    simp [Memory.prev]
  · simp [hq, Memory.next, Memory.prev]

theorem State.setPrev_eq (h : Alive s p) (v : Nat) : s.setPrev p v
    = some (s.relink s.mem.next (Function.update s.mem.prev p v)) := by
  unfold setPrev setRecord relink
  rw [h.load, Option.map_some]
  refine congrArg (fun f => some (s.withRecords f)) (funext fun q => ?_)
  by_cases hq : q = p
  · subst hq
    simp [Memory.next]
  · simp [hq, Memory.next, Memory.prev]

-- =============================================================== the list

/-- The records of the list with the sentinels around them. -/
def spine (m : Memory) (L : List Nat) : List Nat := m.head :: (L ++ [m.tail])

/-- The record of a command. -/
structure HistCommand.Entry (r : HistCommand) : Prop where
  numArg : r.numArg ≠ 0
  args : r.args ≠ NULL
  command : r.command ≠ NULL

theorem HistCommand.Entry.relink {next prev : Nat → Nat}
    (h : (s.mem.record p).Entry) : ((s.relink next prev).mem.record p).Entry :=
  ⟨h.numArg, h.args, h.command⟩

/-- The records `L` hang between the sentinels, as a walk along `next` sees
them. -/
structure Chain (s : State) (L : List Nat) : Prop where
  forward : Forward s.mem.next (spine s.mem L) NULL
  nodup : (spine s.mem L).Nodup
  alive : ∀ p ∈ spine s.mem L, Alive s p
  known : ∀ p ∈ spine s.mem L, p < s.brk
  entry : ∀ p ∈ L, (s.mem.record p).Entry
  head : (s.mem.record s.mem.head).numArg = 0
  tail : (s.mem.record s.mem.tail).numArg = 0

/-- The records `L` are the history, oldest first. -/
structure Listing (s : State) (L : List Nat) : Prop extends Chain s L where
  linked : Linked s.mem.next s.mem.prev NULL (spine s.mem L) NULL

theorem mem_spine {m : Memory} :
    p ∈ spine m L ↔ p = m.head ∨ p ∈ L ∨ p = m.tail := by
  simp [spine]

theorem Chain.head_alive (h : Chain s L) : Alive s s.mem.head :=
  h.alive _ (mem_spine.mpr (.inl rfl))

theorem Chain.tail_alive (h : Chain s L) : Alive s s.mem.tail :=
  h.alive _ (mem_spine.mpr (.inr (.inr rfl)))

theorem Chain.mem_alive (h : Chain s L) (hp : p ∈ L) : Alive s p :=
  h.alive _ (mem_spine.mpr (.inr (.inl hp)))

/-- What follows a part of the list. -/
def firstOf (m : Memory) (B : List Nat) : Nat := B.headD m.tail

/-- What a part of the list follows. -/
def lastOf (m : Memory) (A : List Nat) : Nat := A.getLastD m.head

theorem exists_append_last (a : Nat) (L : List Nat) :
    ∃ A, a :: L = A ++ [L.getLastD a] := by
  induction L generalizing a with
  | nil => exact ⟨[], rfl⟩
  | cons b rest ih =>
      obtain ⟨A, hA⟩ := ih b
      refine ⟨a :: A, ?_⟩
      rw [List.getLastD_cons, hA]
      rfl

theorem headD_concat (B : List Nat) (a b : Nat) :
    (B ++ [a]).headD b = B.headD a := by
  cases B <;> rfl

theorem Chain.head_next (h : Chain s L) :
    (s.mem.record s.mem.head).next = firstOf s.mem L :=
  h.forward.1.trans (headD_concat L _ _)

theorem Chain.next_eq (h : Chain s (A ++ p :: B)) :
    (s.mem.record p).next = firstOf s.mem B := by
  have hf := h.forward
  unfold spine at hf
  rw [List.append_assoc, List.cons_append, ← List.cons_append] at hf
  exact hf.next_eq.trans (headD_concat B _ _)

theorem Listing.prev_eq (h : Listing s (A ++ p :: B)) :
    (s.mem.record p).prev = lastOf s.mem A := by
  have hl := h.linked
  unfold spine at hl
  rw [List.append_assoc, List.cons_append, ← List.cons_append,
    Lib.linked_split] at hl
  refine hl.2.2.1.trans ?_
  unfold lastOf
  rw [List.getLastD_cons]

theorem Listing.tail_prev (h : Listing s L) :
    (s.mem.record s.mem.tail).prev = lastOf s.mem L := by
  have hl := h.linked
  unfold spine at hl
  rw [← List.cons_append, Lib.linked_split] at hl
  refine hl.2.2.1.trans ?_
  unfold lastOf
  rw [List.getLastD_cons]

/-- A part of the list starts with one of its records, or the tail. -/
theorem Chain.first_alive (h : Chain s (A ++ B)) :
    Alive s (firstOf s.mem B) := by
  cases B with
  | nil => exact h.tail_alive
  | cons b rest => exact h.mem_alive (by simp [firstOf])

/-- The first record comes once. -/
theorem Chain.not_mem (h : Chain s (p :: L)) : p ∉ spine s.mem L := by
  intro hmem
  have hn := h.nodup
  rcases mem_spine.mp hmem with rfl | hp | rfl
  · exact (List.nodup_cons.mp hn).1 (by simp)
  · exact (List.nodup_cons.mp (List.nodup_cons.mp hn).2).1 (by simp [hp])
  · exact (List.nodup_cons.mp (List.nodup_cons.mp hn).2).1 (by simp)

/-- There are fewer records in the list than blocks. -/
theorem Chain.length_lt (h : Chain s L) : L.length < s.brk := by
  have hsub : spine s.mem L ⊆ List.range s.brk := fun p hp =>
    List.mem_range.mpr (h.known p hp)
  have hle := (List.subperm_of_subset h.nodup hsub).length_le
  rw [List.length_range] at hle
  simp only [spine, List.length_cons, List.length_append, List.length_nil]
    at hle
  omega

-- ============================================================= the walks

theorem sharesId_eq (h : Chain s (A ++ B)) (id : Int)
    (hfuel : B.length < fuel) :
    sharesId s id fuel (firstOf s.mem B)
      = some (decide (∃ p ∈ B, (s.mem.record p).commandId = id)) := by
  induction B generalizing A fuel with
  | nil =>
      cases fuel with
      | zero => exact absurd hfuel (Nat.not_lt_zero _)
      | succ fuel =>
          unfold sharesId firstOf
          rw [List.headD_nil, h.tail_alive.load, Option.bind_eq_bind,
            Option.bind_some, if_neg (not_not.mpr h.tail)]
          simp
  | cons b rest ih =>
      cases fuel with
      | zero => exact absurd hfuel (Nat.not_lt_zero _)
      | succ fuel =>
          have hb : Alive s b := h.mem_alive (by simp)
          have hentry := (h.entry b (by simp)).numArg
          unfold sharesId firstOf
          rw [List.headD_cons, hb.load, Option.bind_eq_bind, Option.bind_some,
            if_pos hentry]
          by_cases hid : (s.mem.record b).commandId = id
          · rw [if_pos hid]
            simp [hid]
          · rw [if_neg hid, h.next_eq,
              ih (A := A ++ [b]) (by simpa using h) (Nat.lt_of_succ_lt_succ hfuel)]
            simp [hid]

/-- The records of `B` with this `commandId` are marked. -/
def State.mark (s : State) (id : Int) (B : List Nat) : State :=
  s.withRecords fun p =>
    if p ∈ B ∧ (s.mem.record p).commandId = id then
      { s.mem.record p with delete := DELETED }
    else s.mem.record p

/-- Marking changes no links. -/
theorem Chain.mark (h : Chain s L) (id : Int) (B : List Nat) :
    Chain (s.mark id B) L := by
  have hsame (p : Nat) : ((s.mark id B).mem.record p).next
        = (s.mem.record p).next
      ∧ ((s.mark id B).mem.record p).numArg = (s.mem.record p).numArg
      ∧ ((s.mark id B).mem.record p).args = (s.mem.record p).args
      ∧ ((s.mark id B).mem.record p).command = (s.mem.record p).command := by
    unfold State.mark State.withRecords
    dsimp only
    split <;> exact ⟨rfl, rfl, rfl, rfl⟩
  constructor
  case forward => exact h.forward.congr fun p _ => (hsame p).1
  case nodup => exact h.nodup
  case alive => exact h.alive
  case known => exact h.known
  case entry =>
    intro p hp
    obtain ⟨-, h₁, h₂, h₃⟩ := hsame p
    obtain ⟨hnum, hargs, hcommand⟩ := h.entry p hp
    exact ⟨h₁ ▸ hnum, h₂ ▸ hargs, h₃ ▸ hcommand⟩
  case head => exact (hsame _).2.1.trans h.head
  case tail => exact (hsame _).2.1.trans h.tail

theorem mark_mark (s : State) (id : Int) (A B : List Nat) :
    (s.mark id A).mark id B = s.mark id (A ++ B) := by
  refine congrArg s.withRecords (funext fun p => ?_)
  unfold State.mark State.withRecords
  dsimp only
  simp only [List.mem_append]
  split_ifs <;> simp_all

theorem markDeleted_eq (h : Chain s (A ++ B)) (id : Int)
    (hfuel : B.length < fuel) :
    markDeleted id fuel (firstOf s.mem B) s = some (s.mark id B) := by
  induction B generalizing A fuel s with
  | nil =>
      cases fuel with
      | zero => exact absurd hfuel (Nat.not_lt_zero _)
      | succ fuel =>
          unfold markDeleted firstOf
          rw [List.headD_nil, h.tail_alive.load, Option.bind_eq_bind,
            Option.bind_some, if_neg (not_not.mpr h.tail)]
          simp [State.mark, State.withRecords]
  | cons b rest ih =>
      cases fuel with
      | zero => exact absurd hfuel (Nat.not_lt_zero _)
      | succ fuel =>
          have hb : Alive s b := h.mem_alive (by simp)
          have hentry := (h.entry b (by simp)).numArg
          have hstep : (if (s.mem.record b).commandId = id
              then s.setDelete b DELETED else some s)
              = some (s.mark id [b]) := by
            unfold State.setDelete State.setRecord State.mark
            rw [hb.load, Option.map_some]
            split
            case isTrue hid =>
              refine congrArg (fun f => some (s.withRecords f))
                (funext fun q => ?_)
              by_cases hq : q = b
              · subst hq
                simp [hid]
              · simp [hq]
            case isFalse hid =>
              refine congrArg some ?_
              have hnone : (fun p => if p ∈ [b] ∧ (s.mem.record p).commandId = id
                  then { s.mem.record p with delete := DELETED }
                  else s.mem.record p) = s.mem.record := by
                funext q
                refine if_neg fun hq => hid ?_
                rw [← List.mem_singleton.mp hq.1]
                exact hq.2
              rw [hnone]
              rfl
          have hrest : Chain (s.mark id [b]) ((A ++ [b]) ++ rest) := by
            have := h.mark id [b]
            rwa [List.append_assoc, List.singleton_append]
          unfold markDeleted firstOf
          rw [List.headD_cons, hb.load, Option.bind_eq_bind, Option.bind_some,
            if_pos hentry, hstep, Option.bind_eq_bind, Option.bind_some,
            h.next_eq]
          have := ih hrest (Nat.lt_of_succ_lt_succ hfuel)
          rw [mark_mark] at this
          exact this

-- ============================================================== the edits

/-- The first record is unlinked, `L` are the others. -/
def State.unhook (s : State) (L : List Nat) : State :=
  s.relink (Function.update s.mem.next s.mem.head (firstOf s.mem L))
    (Function.update s.mem.prev (firstOf s.mem L) s.mem.head)

/-- The record `t` is linked behind `L`. -/
def State.hook (s : State) (L : List Nat) (t : Nat) : State :=
  s.relink
    (Function.update (Function.update s.mem.next (lastOf s.mem L) t) t
      s.mem.tail)
    (Function.update (Function.update s.mem.prev t (lastOf s.mem L))
      s.mem.tail t)

theorem Listing.unhook (h : Listing s (p :: L)) : Listing (s.unhook L) L := by
  have hsub : List.Sublist (spine s.mem L) (spine s.mem (p :: L)) :=
    (List.sublist_cons_self p (L ++ [s.mem.tail])).cons_cons s.mem.head
  have hnodup := h.nodup.sublist hsub
  obtain ⟨hhead, hrest⟩ := List.nodup_cons.mp hnodup
  have hfirst : (L ++ [s.mem.tail]).head? = some (firstOf s.mem L) := by
    cases L <;> rfl
  have hlinked : Linked (s.unhook L).mem.next (s.unhook L).mem.prev NULL
      (spine s.mem L) NULL := by
    have hl := h.linked
    unfold spine at hl ⊢
    refine Lib.Linked.remove (A := []) hl nofun nofun ?_ ?_ ?_ ?_ ?_
    · rw [State.unhook, State.relink_next, Function.update_self]
      exact (h.next_eq (A := [])).symm
    · rw [State.unhook, State.relink_prev, Function.update_of_ne]
      intro heq
      rw [heq] at hhead
      exact hhead (List.mem_of_head? hfirst)
    · intro b hb
      rw [State.unhook, State.relink_next, Function.update_of_ne]
      rintro rfl
      exact hhead hb
    · intro b hb
      rw [State.unhook, State.relink_prev, Function.update_of_ne]
      rintro rfl
      obtain ⟨rest, heq⟩ := List.head?_eq_some_iff.mp hfirst
      rw [heq, List.tail_cons] at hb
      rw [heq] at hrest
      exact (List.nodup_cons.mp hrest).1 hb
    · intro b hb
      rw [hfirst] at hb
      obtain rfl := Option.some.inj hb
      rw [State.unhook, State.relink_prev, Function.update_self]
  refine ⟨?_, hlinked⟩
  constructor
  case forward => exact hlinked.forward
  case nodup => exact hnodup
  case alive => exact fun q hq => h.alive q (hsub.subset hq)
  case known => exact fun q hq => h.known q (hsub.subset hq)
  case entry =>
    exact fun q hq => (h.entry q (List.mem_cons_of_mem p hq)).relink
  case head => exact h.head
  case tail => exact h.tail

theorem Listing.hook (h : Listing s L) (ht : Alive s t) (hnew : t ∉ spine s.mem L)
    (hknown : t < s.brk) (hentry : (s.mem.record t).Entry) :
    Listing (s.hook L t) (L ++ [t]) := by
  obtain ⟨A, hA⟩ := exists_append_last s.mem.head L
  have hspine : spine s.mem L = A ++ lastOf s.mem L :: [s.mem.tail] := by
    unfold spine lastOf
    rw [← List.cons_append, hA, List.append_assoc]
    rfl
  have hspine' : spine s.mem (L ++ [t])
      = A ++ lastOf s.mem L :: t :: [s.mem.tail] := by
    unfold spine lastOf
    rw [List.append_assoc, ← List.cons_append, hA, List.append_assoc]
    rfl
  have hmem {q : Nat} : q ∈ spine s.mem (L ++ [t])
      ↔ q ∈ spine s.mem L ∨ q = t := by
    rw [hspine, hspine']
    simp only [List.mem_append, List.mem_cons, List.not_mem_nil, or_false]
    tauto
  have hn := h.nodup
  have hl := h.linked
  rw [hspine] at hn hl hnew
  simp only [List.nodup_append, List.nodup_cons, List.mem_cons,
    List.not_mem_nil, or_false, List.mem_append, not_or] at hn hnew
  obtain ⟨-, ⟨hlast, -⟩, hapart⟩ := hn
  obtain ⟨hnotA, hnotlast, hnottail⟩ := hnew
  have hlinked : Linked (s.hook L t).mem.next (s.hook L t).mem.prev NULL
      (spine s.mem (L ++ [t])) NULL := by
    rw [hspine']
    refine hl.insert (n := t) ?_ ?_ ?_ ?_ ?_ ?_ ?_ ?_ ?_
    all_goals
      simp only [State.hook, State.relink_next, State.relink_prev]
    · intro a ha
      have hat : a ≠ t := fun heq => hnotA (heq ▸ ha)
      rw [Function.update_of_ne hat,
        Function.update_of_ne (hapart a ha _ (.inl rfl))]
    · intro a ha
      have hat : a ≠ t := fun heq => hnotA (heq ▸ ha)
      rw [Function.update_of_ne (hapart a ha _ (.inr rfl)),
        Function.update_of_ne hat]
    · rw [Function.update_of_ne (Ne.symm hnotlast), Function.update_self]
    · rw [Function.update_of_ne hlast, Function.update_of_ne (Ne.symm hnotlast)]
    · rw [Function.update_self]
      rfl
    · rw [Function.update_of_ne hnottail, Function.update_self]
    · intro b hb
      obtain rfl := List.mem_singleton.mp hb
      rw [Function.update_of_ne (Ne.symm hnottail),
        Function.update_of_ne (Ne.symm hlast)]
    · exact nofun
    · intro b hb
      obtain rfl := Option.some.inj hb
      rw [Function.update_self]
  refine ⟨?_, hlinked⟩
  constructor
  case forward => exact hlinked.forward
  case nodup =>
    have hperm : (spine s.mem (L ++ [t])).Perm (t :: spine s.mem L) := by
      rw [hspine, hspine']
      exact ((List.Perm.swap t (lastOf s.mem L) _).append_left A).trans
        List.perm_middle
    refine hperm.nodup_iff.mpr (List.nodup_cons.mpr ⟨?_, h.nodup⟩)
    rw [hspine]
    simp [hnotA, hnotlast, hnottail]
  case alive =>
    intro q hq
    rcases hmem.mp hq with hq | rfl
    · exact h.alive q hq
    · exact ht
  case known =>
    intro q hq
    rcases hmem.mp hq with hq | rfl
    · exact h.known q hq
    · exact hknown
  case entry =>
    intro q hq
    rcases List.mem_append.mp hq with hq | hq
    · exact (h.entry q hq).relink
    · obtain rfl := List.mem_singleton.mp hq
      exact hentry.relink
  case head => exact h.head
  case tail => exact h.tail

theorem linkTail_eq (h : Listing s L) (ht : Alive s t) :
    linkTail t s = some { s.hook L t with numHist := u32 (s.numHist + 1) } := by
  obtain ⟨A, hA⟩ := exists_append_last s.mem.head L
  have hlast : Alive s (lastOf s.mem L) := by
    refine h.alive _ ?_
    unfold spine lastOf
    rw [← List.cons_append, hA]
    simp
  unfold linkTail
  simp only [Option.bind_eq_bind]
  rw [h.tail_alive.load, Option.bind_some,
    h.tail_prev, State.setNext_eq hlast, Option.bind_some,
    State.setPrev_eq (by exact ht), Option.bind_some, State.relink_relink,
    State.setNext_eq (by exact ht), Option.bind_some, State.relink_relink,
    State.setPrev_eq (by exact h.tail_alive), Option.bind_some,
    State.relink_relink]
  rfl

/-- The record at `p` and its buffers are freed. -/
def State.release (s : State) (p : Nat) (r : HistCommand) : State :=
  ((s.free (.args r.args)).free (.line r.command)).free (.record p)

theorem HistCommand.Entry.release {r : HistCommand} (h : r.Entry)
    (s : State) (p : Nat) :
    ((s.freeArgs r.args).freeLine r.command).free (.record p)
      = s.release p r := by
  unfold State.freeArgs State.freeLine
  rw [if_neg h.args, if_neg h.command]
  rfl

/-- The first record goes, and its buffers if no other has its
`commandId`. -/
theorem popFront_eq (h : Listing s (p :: L)) : popFront s
    = some { (if ∃ q ∈ L, (s.mem.record q).commandId
          = (s.mem.record p).commandId
        then (s.unhook L).free (.record p)
        else (s.unhook L).release p (s.mem.record p)) with
      numHist := u32 (s.numHist - 1) } := by
  have hp : Alive s p := h.mem_alive List.mem_cons_self
  have hfirst : Alive s (firstOf s.mem L) :=
    h.first_alive (A := [p]) (B := L)
  have hshares : sharesId (s.unhook L) (s.mem.record p).commandId s.brk
      (firstOf s.mem L) = some (decide (∃ q ∈ L,
        (s.mem.record q).commandId = (s.mem.record p).commandId)) :=
    sharesId_eq (A := []) h.unhook.toChain _ h.unhook.length_lt
  unfold popFront
  simp only [Option.bind_eq_bind]
  rw [h.head_alive.load, Option.bind_some, h.head_next, firstOf,
    List.headD_cons, if_neg hp.1, hp.load, Option.bind_some,
    h.next_eq (A := []), if_neg hfirst.1, State.setNext_eq h.head_alive,
    Option.bind_some, State.setPrev_eq (by exact hfirst), Option.bind_some,
    State.relink_relink]
  change (sharesId (s.unhook L) _ s.brk (firstOf s.mem L)).bind _ = _
  rw [hshares, Option.bind_some, (h.entry p List.mem_cons_self).release]
  by_cases hid : ∃ q ∈ L, (s.mem.record q).commandId
      = (s.mem.record p).commandId
  · rw [if_pos hid, decide_eq_true hid]
    rfl
  · rw [if_neg hid, decide_eq_false hid]
    rfl

-- ======================================================== the n-th record

theorem follow_next (h : Chain s (A ++ B)) :
    ∀ {n : Nat}, n ≤ B.length →
      follow s HistCommand.next n (firstOf s.mem B)
        = some (firstOf s.mem (B.drop n)) := by
  intro n
  induction n generalizing A B with
  | zero => intro _; rfl
  | succ n ih =>
      intro hn
      cases B with
      | nil => cases hn
      | cons b rest =>
          have hb : Alive s b := h.mem_alive (by simp)
          have hrest := ih (A := A ++ [b]) (B := rest) (by simpa using h)
            (Nat.le_of_succ_le_succ hn)
          unfold follow
          rw [firstOf, List.headD_cons, hb.load, Option.bind_eq_bind,
            Option.bind_some, h.next_eq, hrest, List.drop_succ_cons]

theorem follow_prev (h : Listing s (A ++ B)) :
    ∀ {n : Nat}, n ≤ A.length →
      follow s HistCommand.prev n (lastOf s.mem A)
        = some (lastOf s.mem (A.take (A.length - n))) := by
  intro n
  induction n generalizing A B with
  | zero => intro _; simp [follow]
  | succ n ih =>
      intro hn
      rcases List.eq_nil_or_concat A with rfl | ⟨A', a, hA⟩
      · cases hn
      · rw [List.concat_eq_append] at hA
        subst hA
        rw [List.append_assoc, List.singleton_append] at h
        have ha : Alive s a := h.mem_alive (by simp)
        rw [List.length_append, List.length_singleton] at hn ⊢
        unfold follow
        have hlast : lastOf s.mem (A' ++ [a]) = a := by simp [lastOf]
        rw [hlast, ha.load, Option.bind_eq_bind, Option.bind_some, h.prev_eq,
          ih h (by omega), List.take_append_of_le_length (by omega)]
        congr 3
        omega

/-- `!n`, for an `n` in range. -/
theorem findFirstN_eq (h : Listing s L) {n : Int}
    (hlo : 1 ≤ n) (hhi : u32 n ≤ s.numHist) (hn : n ≤ L.length) :
    findFirstN s n = some (firstOf s.mem (L.drop (n.toNat - 1))) := by
  obtain ⟨k, rfl⟩ : ∃ k : Nat, n = k + 1 := ⟨(n - 1).toNat, by omega⟩
  have hk : ((k : Int) + 1).toNat = k + 1 := by omega
  unfold findFirstN
  rw [if_neg (Nat.not_lt.mpr hhi), h.head_alive.load, hk]
  split
  case isTrue hone =>
    obtain rfl : k = 0 := by omega
    rw [Option.map_some, h.head_next]
    rfl
  case isFalse =>
    unfold follow
    rw [h.head_alive.load, Option.bind_eq_bind, Option.bind_some, h.head_next,
      follow_next (A := []) h.toChain (by omega)]
    rfl

/-- `!-n`, for an `n` in range. -/
theorem findLastN_eq (h : Listing s L) {n : Int}
    (hlo : 1 ≤ n) (hhi : u32 n ≤ s.numHist) (hn : n ≤ L.length) :
    findLastN s n = some (lastOf s.mem (L.take (L.length - (n.toNat - 1)))) := by
  obtain ⟨k, rfl⟩ : ∃ k : Nat, n = k + 1 := ⟨(n - 1).toNat, by omega⟩
  have hk : ((k : Int) + 1).toNat = k + 1 := by omega
  unfold findLastN
  rw [if_neg (Nat.not_lt.mpr hhi), h.tail_alive.load, hk]
  split
  case isTrue hone =>
    obtain rfl : k = 0 := by omega
    rw [Option.map_some, h.tail_prev]
    simp
  case isFalse =>
    unfold follow
    rw [h.tail_alive.load, Option.bind_eq_bind, Option.bind_some,
      h.tail_prev, follow_prev (B := []) (by simpa using h) (by omega)]
    rfl

end OperatingSystem.Shell
