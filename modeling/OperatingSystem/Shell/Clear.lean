/-
What the shell does with its history once a command is entered: showing it,
and clearing it when the shell exits.

`clearList` takes the list apart from the front. `destroyNode` frees the
buffers of the first record with a given `commandId` and marks the other
records that have it, so that their buffers are not freed again (`Clearing`);
what has been marked no longer refers to its buffers.
-/
import OperatingSystem.Shell.Sharing

namespace OperatingSystem.Shell

variable {s s' : State} {L A B : List Nat} {p q t fuel : Nat} {b : Block}
  {HISTSIZE : Int}

-- =============================================================== clearing

/-- The history `L` while it is being cleared: what is not marked is still
there. -/
structure Clearing (s : State) (L : List Nat) : Prop extends Chain s L where
  kept : ∀ p ∈ L, (s.mem.record p).delete ≠ DELETED →
    ∀ b, (s.mem.record p).Has b → b ∉ s.mem.freed
  same : ∀ p ∈ L, ∀ q ∈ L, ∀ b, (s.mem.record p).Has b →
    (s.mem.record q).Has b →
    (s.mem.record p).commandId = (s.mem.record q).commandId
  apart : s.mem.toAdd = NULL
  safe : ∀ e ∈ s.trace, e.Safe

theorem Intact.clearing (h : Intact HISTSIZE s L) (hadd : s.mem.toAdd = NULL) :
    Clearing s L :=
  ⟨h.toChain, fun p hp _ => h.kept p hp, h.same, hadd, h.safe⟩

/-- The first record is skipped; its back link does not matter any more. -/
def State.skip (s : State) (L : List Nat) : State :=
  s.relink (Function.update s.mem.next s.mem.head (firstOf s.mem L)) s.mem.prev

theorem Chain.skip (h : Chain s (p :: L)) : Chain (s.skip L) L := by
  have hsub : List.Sublist (spine s.mem L) (spine s.mem (p :: L)) :=
    (List.sublist_cons_self p (L ++ [s.mem.tail])).cons_cons s.mem.head
  have hnodup := h.nodup.sublist hsub
  constructor
  case forward =>
    refine Lib.Forward.skip h.forward ?_ fun b hb => ?_
    · rw [State.skip, State.relink_next]
      exact (Function.update_self _ _ _).trans (h.next_eq (A := [])).symm
    · rw [State.skip, State.relink_next, Function.update_of_ne]
      rintro rfl
      exact (List.nodup_cons.mp hnodup).1 hb
  case nodup => exact hnodup
  case alive => exact fun q hq => h.alive q (hsub.subset hq)
  case known => exact fun q hq => h.known q (hsub.subset hq)
  case entry =>
    exact fun q hq => (h.entry q (List.mem_cons_of_mem p hq)).relink
  case head => exact h.head
  case tail => exact h.tail

/-- A record that is not in the list goes. -/
theorem Chain.free (h : Chain s L) (extra : List Block) (trace : List Event)
    (hextra : ∀ q ∈ spine s.mem L, Block.record q ∉ extra) :
    Chain { s with
      mem := { s.mem with freed := extra ++ s.mem.freed }, trace } L := by
  refine ⟨h.forward, h.nodup, fun q hq => ⟨(h.alive q hq).1, fun hfreed => ?_⟩,
    h.known, h.entry, h.head, h.tail⟩
  rcases List.mem_append.mp hfreed with hfreed | hfreed
  · exact hextra q hq hfreed
  · exact (h.alive q hq).2 hfreed

theorem Clearing.skip (h : Clearing s (p :: L)) : Clearing (s.skip L) L := by
  have hmem {q : Nat} (hq : q ∈ L) : q ∈ p :: L := List.mem_cons_of_mem p hq
  exact ⟨h.toChain.skip, fun q hq => h.kept q (hmem hq),
    fun q hq r hr => h.same q (hmem hq) r (hmem hr), h.apart, h.safe⟩

/-- A record that is not marked in the end was not before. -/
theorem mark_unmarked {id : Int}
    (hq : ((s.mark id L).mem.record q).delete ≠ DELETED) :
    (s.mark id L).mem.record q = s.mem.record q
      ∧ (q ∈ L → (s.mem.record q).commandId ≠ id) := by
  unfold State.mark State.withRecords at hq ⊢
  dsimp only at hq ⊢
  split at hq
  case isTrue => exact absurd rfl hq
  case isFalse hnot =>
    rw [if_neg hnot]
    exact ⟨rfl, fun hmem hid => hnot ⟨hmem, hid⟩⟩

/-- Marking changes no buffers. -/
theorem mark_has {id : Int} : ((s.mark id L).mem.record q).Has b
    ↔ (s.mem.record q).Has b := by
  unfold State.mark State.withRecords HistCommand.Has
  dsimp only
  split <;> exact Iff.rfl

/-- Nor ids. -/
theorem mark_id {id : Int} : ((s.mark id L).mem.record q).commandId
    = (s.mem.record q).commandId := by
  unfold State.mark State.withRecords
  dsimp only
  split <;> rfl

/-- `destroyNode`, on a record that is not in the list any more. -/
theorem destroyNode_eq (hp : Alive s p) (hentry : (s.mem.record p).Entry)
    (h : Chain s L) : destroyNode p s
      = some (if (s.mem.record p).delete = DELETED then s.free (.record p)
          else (s.mark (s.mem.record p).commandId L).release p
            (s.mem.record p)) := by
  unfold destroyNode
  simp only [Option.bind_eq_bind]
  rw [hp.load, Option.bind_some]
  split
  case isTrue hdel => rfl
  case isFalse hdel =>
    have hmark := markDeleted_eq (A := []) h (s.mem.record p).commandId
      h.length_lt
    rw [h.head_alive.load, Option.bind_some, h.head_next, hmark,
      Option.bind_some, hentry.release]

/-- `destroyNode`, on the first record once it has been skipped. -/
theorem destroyNode_clearing (h : Clearing s (p :: L)) :
    ∃ s', destroyNode p (s.skip L) = some s' ∧ Clearing s' L := by
  have hp : Alive (s.skip L) p := h.mem_alive List.mem_cons_self
  have hrest := h.skip
  have hkept : ((s.skip L).mem.record p).delete ≠ DELETED →
      ∀ b, ((s.skip L).mem.record p).Has b → b ∉ (s.skip L).mem.freed :=
    h.kept p List.mem_cons_self
  have hsame : ∀ q ∈ L, ∀ b, ((s.skip L).mem.record q).Has b →
      ((s.skip L).mem.record p).Has b → ((s.skip L).mem.record q).commandId
        = ((s.skip L).mem.record p).commandId := fun q hq =>
    h.same q (List.mem_cons_of_mem p hq) p List.mem_cons_self
  generalize hs₁ : s.skip L = s₁ at hp hrest hkept hsame ⊢
  have hentry : (s₁.mem.record p).Entry := by
    rw [← hs₁]
    exact (h.entry p List.mem_cons_self).relink
  have hout {q : Nat} (hq : q ∈ spine s₁.mem L) : q ≠ p := by
    rintro rfl
    rw [← hs₁] at hq
    exact h.toChain.not_mem hq
  rw [destroyNode_eq hp hentry hrest.toChain]
  split
  case isTrue hdel =>
    refine ⟨_, rfl, ?_⟩
    have hchain := hrest.toChain.free [.record p]
      (s₁.free (.record p)).trace fun q hq hmem =>
        hout hq (Block.record.inj (List.mem_singleton.mp hmem))
    refine ⟨hchain, fun q hq hdel b hb hfreed => ?_, hrest.same, hrest.apart,
      free_record_safe hrest.safe hp.2⟩
    rcases List.mem_cons.mp hfreed with rfl | hfreed
    · rcases hb with heq | heq <;> cases heq
    · exact hrest.kept q hq hdel b hb hfreed
  case isFalse hdel =>
    refine ⟨_, rfl, ?_⟩
    have hchain := (hrest.toChain.mark (s₁.mem.record p).commandId L).free
      [.record p, .line (s₁.mem.record p).command,
        .args (s₁.mem.record p).args]
      ((s₁.mark (s₁.mem.record p).commandId L).release p
        (s₁.mem.record p)).trace fun q hq hmem => by
          rcases List.mem_cons.mp hmem with heq | hmem
          · exact hout hq (Block.record.inj heq)
          · simp at hmem
    constructor
    case toChain => exact hchain
    case kept =>
      intro q hq hunmarked b hb hfreed
      obtain ⟨heq, hid⟩ := mark_unmarked hunmarked
      have hqb : (s₁.mem.record q).Has b := heq ▸ hb
      have hold : b = .record p ∨ (s₁.mem.record p).Has b ∨ b ∈ s₁.mem.freed := by
        rcases List.mem_cons.mp hfreed with rfl | hfreed
        · exact .inl rfl
        · rcases List.mem_cons.mp hfreed with rfl | hfreed
          · exact .inr (.inl (.inr rfl))
          · rcases List.mem_cons.mp hfreed with rfl | hfreed
            · exact .inr (.inl (.inl rfl))
            · exact .inr (.inr hfreed)
      rcases hold with rfl | hpb | hfreed
      · rcases hqb with heq | heq <;> cases heq
      · exact hid hq (hsame q hq b hqb hpb)
      · exact hrest.kept q hq (heq ▸ hunmarked) b hqb hfreed
    case same =>
      intro q hq r hr b hqb hrb
      have hold := hrest.same q hq r hr b (mark_has.mp hqb) (mark_has.mp hrb)
      exact mark_id.trans (hold.trans mark_id.symm)
    case apart => exact hrest.apart
    case safe =>
      refine release_safe (s := s₁.mark (s₁.mem.record p).commandId L) hrest.safe
        (hkept hdel) (fun b hb href => ?_) hp.2
      -- whoever still refers to the block has another id
      obtain ⟨q, hq, hunmarked, hqb⟩ :=
        (hrest.toChain.mark (s₁.mem.record p).commandId L).refers href
      obtain ⟨heq, hid⟩ := mark_unmarked hunmarked
      rcases hq with hq | ⟨rfl, hne⟩
      · exact hid hq (hsame q hq b (heq ▸ hqb) hb)
      · exact hne hrest.apart

/-- `clearList`'s loop stops at the tail. -/
theorem clearFrom_nil (h : Chain s []) (hfuel : 0 < fuel) :
    clearFrom fuel (firstOf s.mem []) s = some s := by
  obtain ⟨fuel, rfl⟩ := Nat.exists_eq_add_one.mpr hfuel
  unfold clearFrom firstOf
  rw [List.headD_nil, h.tail_alive.load, Option.bind_eq_bind,
    Option.bind_some, if_neg (not_not.mpr h.tail)]

/-- One round of `clearList`'s loop: the first record is skipped and
destroyed. -/
theorem clearFrom_cons (h : Chain s (p :: L))
    (hdestroy : destroyNode p (s.skip L) = some s') (h' : Chain s' L)
    (fuel : Nat) : clearFrom (fuel + 1) (firstOf s.mem (p :: L)) s
      = clearFrom fuel (firstOf s'.mem L) s' := by
  have hp : Alive s p := h.mem_alive List.mem_cons_self
  have hskip : s.setNext s.mem.head (s.mem.record p).next
      = some (s.skip L) := by
    rw [State.setNext_eq h.head_alive, h.next_eq (A := [])]
    rfl
  rw [clearFrom, firstOf]
  simp only [Option.bind_eq_bind]
  rw [List.headD_cons, hp.load, Option.bind_some,
    if_pos (h.entry p List.mem_cons_self).numArg, hskip, Option.bind_some,
    hdestroy, Option.bind_some, h'.head_alive.load, Option.bind_some,
    h'.head_next]

/-- `clearList` is its loop, and the two sentinels. -/
theorem clearList_eq (h : Chain s L)
    (hrun : clearFrom s.brk (firstOf s.mem L) s = some s') : clearList s
      = some ((s'.free (.record s'.mem.head)).free (.record s'.mem.tail)) := by
  have hfirst : Alive s (firstOf s.mem L) := h.first_alive (A := [])
  have hcleared : (if (s.mem.record (firstOf s.mem L)).numArg = 0 then some s
      else clearFrom s.brk (firstOf s.mem L) s) = some s' := by
    cases L with
    | nil =>
        rw [clearFrom_nil h h.length_lt] at hrun
        rw [← hrun]
        exact if_pos h.tail
    | cons p rest =>
        rw [if_neg]
        · exact hrun
        · exact (h.entry p List.mem_cons_self).numArg
  unfold clearList
  simp only [Option.bind_eq_bind]
  rw [h.head_alive.load, Option.bind_some, h.head_next, hfirst.load,
    Option.bind_some, hcleared, Option.bind_some]

/-- `clearList`'s loop takes the whole list down. -/
theorem clearFrom_clearing (h : Clearing s L) (hfuel : L.length < fuel) :
    ∃ s', clearFrom fuel (firstOf s.mem L) s = some s' ∧ Clearing s' [] := by
  induction L generalizing s fuel with
  | nil => exact ⟨s, clearFrom_nil h.toChain hfuel, h⟩
  | cons p rest ih =>
      cases fuel with
      | zero => exact absurd hfuel (Nat.not_lt_zero _)
      | succ fuel =>
          obtain ⟨s₁, hdestroy, h₁⟩ := destroyNode_clearing h
          obtain ⟨s', hrun, h'⟩ := ih h₁ (Nat.lt_of_succ_lt_succ hfuel)
          refine ⟨s', ?_, h'⟩
          rw [clearFrom_cons h.toChain hdestroy h₁.toChain]
          exact hrun

/-- `clearList` frees nothing twice. -/
theorem clearList_safe (h : Clearing s L) :
    ∃ s', clearList s = some s' ∧ ∀ e ∈ s'.trace, e.Safe := by
  obtain ⟨s₁, hrun, h₁⟩ := clearFrom_clearing h h.length_lt
  refine ⟨_, clearList_eq h.toChain hrun, ?_⟩
  refine free_record_safe (s := s₁.free (.record s₁.mem.head))
    (free_record_safe h₁.safe h₁.head_alive.2) fun hfreed => ?_
  rcases List.mem_cons.mp hfreed with heq | hfreed
  · have hn := (List.nodup_cons.mp h₁.nodup).1
    exact hn (List.mem_singleton.mpr (Block.record.inj heq).symm)
  · exact h₁.tail_alive.2 hfreed

-- ================================================================ reading

/-- Only what has been done to the buffers differs. -/
theorem Extends.trace (s : State) (trace : List Event) :
    Extends s { s with trace } :=
  ⟨rfl, rfl, rfl, rfl, Nat.le_refl _, fun _ _ => rfl, fun _ _ => rfl⟩

/-- The buffers of an entry can be read. -/
theorem Intact.readArgs (h : Intact HISTSIZE s L) (hp : p ∈ L) :
    ∃ trace, s.readArgs (s.mem.record p).args = some { s with trace }
      ∧ Intact HISTSIZE { s with trace } L := by
  have hsafe : ∀ e ∈ Event.read (.line (s.argv (s.mem.record p).args).line) s.mem
      :: .read (.args (s.mem.record p).args) s.mem :: s.trace, e.Safe := by
    intro e he
    rcases List.mem_cons.mp he with rfl | he
    · exact h.kept p hp _ (.inr (congrArg Block.line (h.owned p hp).line))
    · rcases List.mem_cons.mp he with rfl | he
      · exact h.kept p hp _ (.inl rfl)
      · exact h.safe e he
  refine ⟨_, ?_, h.extend (.trace s _) hsafe⟩
  unfold State.readArgs
  rw [if_neg (h.entry p hp).args]

theorem showFrom_intact (h : Intact HISTSIZE s (A ++ B))
    (hfuel : B.length < fuel) :
    ∃ trace, showFrom fuel (firstOf s.mem B) s = some { s with trace }
      ∧ Intact HISTSIZE { s with trace } (A ++ B) := by
  induction B generalizing A fuel s with
  | nil =>
      cases fuel with
      | zero => exact absurd hfuel (Nat.not_lt_zero _)
      | succ fuel =>
          refine ⟨s.trace, ?_, h⟩
          unfold showFrom firstOf
          rw [List.headD_nil, h.tail_alive.load, Option.bind_eq_bind,
            Option.bind_some, if_neg (not_not.mpr h.tail)]
  | cons b rest ih =>
      cases fuel with
      | zero => exact absurd hfuel (Nat.not_lt_zero _)
      | succ fuel =>
          have hb : Alive s b := h.mem_alive (by simp)
          obtain ⟨trace₁, hread, h₁⟩ := h.readArgs (p := b) (by simp)
          obtain ⟨trace, hshow, h'⟩ := ih (A := A ++ [b]) (by simpa using h₁)
            (Nat.lt_of_succ_lt_succ hfuel)
          refine ⟨trace, ?_, by simpa using h'⟩
          unfold showFrom firstOf
          simp only [Option.bind_eq_bind]
          rw [List.headD_cons, hb.load, Option.bind_some,
            if_pos (h.entry b (by simp)).numArg, hread, Option.bind_some,
            h.next_eq]
          exact hshow

/-- `showHistory` reads what is there. -/
theorem showHistory_intact (h : Intact HISTSIZE s L) :
    ∃ trace, showHistory s = some { s with trace }
      ∧ Intact HISTSIZE { s with trace } L := by
  have hfirst : Alive s (firstOf s.mem L) := h.toChain.first_alive (A := [])
  unfold showHistory
  rw [h.head_alive.load, Option.bind_eq_bind, Option.bind_some, h.head_next,
    if_neg hfirst.1]
  exact showFrom_intact (A := []) h h.length_lt

end OperatingSystem.Shell
