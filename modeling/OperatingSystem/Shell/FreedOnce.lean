/-
Everything a history list holds is freed exactly once when it is cleared.

# The account

`clearList` works from the front. `Partly s₀ D L freed s` says where it is:
the entries `D` of the list it started from in `s₀` are gone, `L` are left,
and `freed` is what it has freed so far. That is exactly what the entries `D`
had, each block once, and an entry that is left is marked exactly when some
entry of `D` had its id. So the next entry's buffers are in the account
already if it is marked, and are not if it is not, whatever the order in which
entries of one id follow each other.
-/
import OperatingSystem.Shell.Clear

namespace OperatingSystem.Shell

variable {s s₀ : State} {L D : List Nat} {p q fuel : Nat} {b : Block}
  {id : Int} {freed : List Block}

/-- A history list that can be cleared: no entry is marked, and two entries
have one `args` array, and one line buffer, exactly when they have one id. -/
structure Grouped (s : State) (L : List Nat) : Prop extends Chain s L where
  unmarked : ∀ p ∈ L, (s.mem.record p).delete = NOTDELETED
  args : ∀ p ∈ L, ∀ q ∈ L, (s.mem.record p).args = (s.mem.record q).args
    ↔ (s.mem.record p).commandId = (s.mem.record q).commandId
  command : ∀ p ∈ L, ∀ q ∈ L,
    (s.mem.record p).command = (s.mem.record q).command
      ↔ (s.mem.record p).commandId = (s.mem.record q).commandId

/-- The blocks of the history `L`: its records and sentinels, and the buffers
of its entries. -/
def Holds (s : State) (L : List Nat) (b : Block) : Prop :=
  (∃ p ∈ spine s.mem L, b = .record p) ∨ ∃ p ∈ L, (s.mem.record p).Has b

-- =========================================================== the account

/-- `clearList` has freed the entries `D` of the history it found in `s₀`. -/
structure Partly (s₀ : State) (D L : List Nat) (freed : List Block)
    (s : State) : Prop extends Chain s L where
  sameHead : s.mem.head = s₀.mem.head
  sameTail : s.mem.tail = s₀.mem.tail
  log : s.mem.freed = freed ++ s₀.mem.freed
  once : freed.Nodup
  account : ∀ b, b ∈ freed
    ↔ ∃ p ∈ D, b = .record p ∨ (s₀.mem.record p).Has b
  has : ∀ p ∈ L, ∀ b, (s.mem.record p).Has b ↔ (s₀.mem.record p).Has b
  ids : ∀ p ∈ L, (s.mem.record p).commandId = (s₀.mem.record p).commandId
  marked : ∀ p ∈ L, (s.mem.record p).delete = DELETED
    ↔ ∃ q ∈ D, (s₀.mem.record q).commandId = (s₀.mem.record p).commandId

theorem Grouped.partly (h : Grouped s L) : Partly s [] L [] s where
  toChain := h.toChain
  sameHead := rfl
  sameTail := rfl
  log := rfl
  once := List.nodup_nil
  account := by simp
  has := fun _ _ _ => Iff.rfl
  ids := fun _ _ => rfl
  marked := fun p hp => by simp [h.unmarked p hp, NOTDELETED, DELETED]

/-- Two entries have a block in common exactly when they have one id. -/
theorem Grouped.has_iff (h : Grouped s L) (hp : p ∈ L) (hq : q ∈ L)
    (hb : (s.mem.record p).Has b) : (s.mem.record q).Has b
      ↔ (s.mem.record q).commandId = (s.mem.record p).commandId := by
  rcases hb with rfl | rfl
  · rw [← h.args q hq p hp]
    simp [HistCommand.Has, eq_comm]
  · rw [← h.command q hq p hp]
    simp [HistCommand.Has, eq_comm]

/-- Marking marks what it is asked to and nothing else. -/
theorem mark_deleted : ((s.mark id L).mem.record q).delete = DELETED
    ↔ (q ∈ L ∧ (s.mem.record q).commandId = id)
      ∨ (s.mem.record q).delete = DELETED := by
  unfold State.mark State.withRecords
  dsimp only
  split
  case isTrue hq => simp [hq]
  case isFalse hq => simp [hq]

theorem Grouped.notMem_left (h : Grouped s (D ++ p :: L)) : p ∉ D := by
  have hn := (List.nodup_cons.mp h.nodup).2
  rw [List.append_assoc] at hn
  exact fun hp => (List.nodup_append.mp hn).2.2 p hp p (by simp) rfl

/-- An entry whose record is about to go has it still. -/
theorem Partly.record_fresh (h : Partly s₀ D L freed s) (hp : p ∉ D) :
    Block.record p ∉ freed := by
  intro hfreed
  obtain ⟨q, hq, heq | hb⟩ := (h.account _).mp hfreed
  · rw [Block.record.inj heq] at hp
    exact hp hq
  · exact not_record_of_has hb rfl

-- ============================================================== the rounds

/-- `destroyNode`, on a marked entry: its buffers are in the account. -/
theorem Partly.marked_step (h₀ : Grouped s₀ (D ++ p :: L))
    (h : Partly s₀ D (p :: L) freed s)
    (hdel : (s.mem.record p).delete = DELETED) :
    Partly s₀ (D ++ [p]) L (.record p :: freed)
      ((s.skip L).free (.record p)) := by
  have hmem {q : Nat} (hq : q ∈ L) : q ∈ p :: L := List.mem_cons_of_mem p hq
  have hpD : p ∉ D := h₀.notMem_left
  obtain ⟨q, hq, hid⟩ := (h.marked p List.mem_cons_self).mp hdel
  constructor
  case toChain =>
    exact h.toChain.skip.free [.record p] _ fun q hq hfreed => by
      have heq := Block.record.inj (List.mem_singleton.mp hfreed)
      exact h.toChain.not_mem (heq ▸ hq)
  case sameHead => exact h.sameHead
  case sameTail => exact h.sameTail
  case log => exact congrArg (.record p :: ·) h.log
  case once => exact List.nodup_cons.mpr ⟨h.record_fresh hpD, h.once⟩
  case account =>
    intro b
    rw [List.mem_cons, h.account b]
    constructor
    · rintro (rfl | ⟨r, hr, hb⟩)
      · exact ⟨p, by simp, .inl rfl⟩
      · exact ⟨r, by simp [hr], hb⟩
    · rintro ⟨r, hr, hb⟩
      rcases List.mem_append.mp hr with hr | hr
      · exact .inr ⟨r, hr, hb⟩
      · obtain rfl := List.mem_singleton.mp hr
        rcases hb with rfl | hb
        · exact .inl rfl
        · -- the marking entry had the same buffers
          refine .inr ⟨q, hq, .inr ?_⟩
          exact (h₀.has_iff (by simp) (by simp [hq]) hb).mpr hid
  case has => exact fun q hq => h.has q (hmem hq)
  case ids => exact fun q hq => h.ids q (hmem hq)
  case marked =>
    intro r hr
    refine (h.marked r (hmem hr)).trans ⟨?_, ?_⟩
    · rintro ⟨a, ha, heq⟩
      exact ⟨a, by simp [ha], heq⟩
    · rintro ⟨a, ha, heq⟩
      rcases List.mem_append.mp ha with ha | ha
      · exact ⟨a, ha, heq⟩
      · obtain rfl := List.mem_singleton.mp ha
        exact ⟨q, hq, hid.trans heq⟩

/-- `destroyNode`, on the first entry of its id: its buffers are not in the
account yet. -/
theorem Partly.first_step (h₀ : Grouped s₀ (D ++ p :: L))
    (h : Partly s₀ D (p :: L) freed s)
    (hdel : (s.mem.record p).delete ≠ DELETED) :
    Partly s₀ (D ++ [p]) L
      (.record p :: .line (s.mem.record p).command
        :: .args (s.mem.record p).args :: freed)
      (((s.skip L).mark (s.mem.record p).commandId L).release p
        (s.mem.record p)) := by
  have hmem {q : Nat} (hq : q ∈ L) : q ∈ p :: L := List.mem_cons_of_mem p hq
  have hpD : p ∉ D := h₀.notMem_left
  have hfresh : ∀ b, (s.mem.record p).Has b → b ∉ freed := by
    intro b hb hfreed
    obtain ⟨q, hq, rfl | hqb⟩ := (h.account b).mp hfreed
    · exact not_record_of_has hb rfl
    · refine hdel ((h.marked p List.mem_cons_self).mpr ⟨q, hq, ?_⟩)
      have hpb := (h.has p List.mem_cons_self b).mp hb
      exact (h₀.has_iff (by simp) (by simp [hq]) hpb).mp hqb
  constructor
  case toChain =>
    refine (h.toChain.skip.mark _ L).free [.record p, .line _, .args _] _ ?_
    intro q hq hfreed
    rcases List.mem_cons.mp hfreed with heq | hfreed
    · exact h.toChain.not_mem (Block.record.inj heq ▸ hq)
    · simp at hfreed
  case sameHead => exact h.sameHead
  case sameTail => exact h.sameTail
  case log =>
    show Block.record p :: Block.line _ :: Block.args _ :: s.mem.freed = _
    rw [h.log]
    rfl
  case once =>
    have hrecord := h.record_fresh hpD
    have hline := hfresh _ (.inr rfl)
    have hargs := hfresh _ (.inl rfl)
    simp [hrecord, hline, hargs, h.once]
  case account =>
    intro b
    have hp : (s.mem.record p).Has b ↔ (s₀.mem.record p).Has b :=
      h.has p List.mem_cons_self b
    constructor
    · intro hb
      rcases List.mem_cons.mp hb with rfl | hb
      · exact ⟨p, by simp, .inl rfl⟩
      rcases List.mem_cons.mp hb with rfl | hb
      · exact ⟨p, by simp, .inr (hp.mp (.inr rfl))⟩
      rcases List.mem_cons.mp hb with rfl | hb
      · exact ⟨p, by simp, .inr (hp.mp (.inl rfl))⟩
      · obtain ⟨r, hr, hb⟩ := (h.account b).mp hb
        exact ⟨r, by simp [hr], hb⟩
    · rintro ⟨r, hr, hb⟩
      rcases List.mem_append.mp hr with hr | hr
      · have := (h.account b).mpr ⟨r, hr, hb⟩
        simp [this]
      · obtain rfl := List.mem_singleton.mp hr
        rcases hb with rfl | hb
        · simp
        · rcases hp.mpr hb with rfl | rfl <;> simp
  case has => exact fun q hq b => mark_has.trans (h.has q (hmem hq) b)
  case ids => exact fun q hq => mark_id.trans (h.ids q (hmem hq))
  case marked =>
    intro r hr
    have hid : (s.mem.record r).commandId = (s.mem.record p).commandId
        ↔ (s₀.mem.record p).commandId = (s₀.mem.record r).commandId := by
      rw [h.ids r (hmem hr), h.ids p List.mem_cons_self, eq_comm]
    have hold : (s.mem.record r).delete = DELETED
        ↔ ∃ q ∈ D, (s₀.mem.record q).commandId
          = (s₀.mem.record r).commandId := h.marked r (hmem hr)
    refine mark_deleted.trans ?_
    show (r ∈ L ∧ (s.mem.record r).commandId = (s.mem.record p).commandId)
      ∨ (s.mem.record r).delete = DELETED ↔ _
    rw [hid, hold]
    simp [hr, or_and_right, exists_or, or_comm]

/-- One round of `clearList`'s loop. -/
theorem Partly.step (h₀ : Grouped s₀ (D ++ p :: L))
    (h : Partly s₀ D (p :: L) freed s) :
    ∃ s' freed', destroyNode p (s.skip L) = some s'
      ∧ Partly s₀ (D ++ [p]) L freed' s' := by
  have hp : Alive s p := h.mem_alive List.mem_cons_self
  have hrun := destroyNode_eq (s := s.skip L) hp
    (h.entry p List.mem_cons_self).relink h.toChain.skip
  by_cases hdel : (s.mem.record p).delete = DELETED
  · exact ⟨_, _, hrun.trans (congrArg some (if_pos hdel)),
      h.marked_step h₀ hdel⟩
  · exact ⟨_, _, hrun.trans (congrArg some (if_neg hdel)),
      h.first_step h₀ hdel⟩

/-- `clearList`'s loop frees the rest of the list. -/
theorem Partly.run (h₀ : Grouped s₀ (D ++ L)) (h : Partly s₀ D L freed s)
    (hfuel : L.length < fuel) :
    ∃ s' freed', clearFrom fuel (firstOf s.mem L) s = some s'
      ∧ Partly s₀ (D ++ L) [] freed' s' := by
  induction L generalizing D s freed fuel with
  | nil =>
      refine ⟨s, freed, clearFrom_nil h.toChain hfuel, ?_⟩
      rwa [List.append_nil]
  | cons p rest ih =>
      cases fuel with
      | zero => exact absurd hfuel (Nat.not_lt_zero _)
      | succ fuel =>
          obtain ⟨s₁, freed₁, hdestroy, h₁⟩ := h.step h₀
          rw [List.append_cons] at h₀ ⊢
          obtain ⟨s', freed', hrun, h'⟩ := ih h₀ h₁
            (Nat.lt_of_succ_lt_succ hfuel)
          refine ⟨s', freed', ?_, h'⟩
          rw [clearFrom_cons h.toChain hdestroy h₁.toChain]
          exact hrun

/-- `clearList` comes to its end without reading a record that has been freed
(`State.load` would fault), and what it frees is what the history holds, each
block once. -/
theorem clearList_frees_once (h : Grouped s L) :
    ∃ s' freed, clearList s = some s' ∧ s'.mem.freed = freed ++ s.mem.freed
      ∧ freed.Nodup ∧ ∀ b, b ∈ freed ↔ Holds s L b := by
  obtain ⟨s₁, freed, hrun, h₁⟩ := h.partly.run (D := []) h h.length_lt
  obtain ⟨hhead, hrest⟩ := List.nodup_cons.mp h.nodup
  have hheadL : s.mem.head ∉ L := fun hp => hhead (by simp [hp])
  have htailL : s.mem.tail ∉ L := fun hp =>
    (List.nodup_append.mp hrest).2.2 _ hp _ (by simp) rfl
  have hne : s.mem.tail ≠ s.mem.head := fun heq => hhead (by simp [heq])
  refine ⟨_, .record s.mem.tail :: .record s.mem.head :: freed,
    clearList_eq h.toChain hrun, ?_, ?_, ?_⟩
  · show Block.record s₁.mem.tail :: Block.record s₁.mem.head
      :: s₁.mem.freed = _
    rw [h₁.log, h₁.sameHead, h₁.sameTail]
    rfl
  · have hfresh₁ := h₁.record_fresh hheadL
    have hfresh₂ := h₁.record_fresh htailL
    simp [hfresh₁, hfresh₂, hne, h₁.once]
  · intro b
    rw [List.mem_cons, List.mem_cons, h₁.account b]
    unfold Holds
    constructor
    · rintro (rfl | rfl | ⟨p, hp, rfl | hb⟩)
      · exact .inl ⟨_, by simp [spine], rfl⟩
      · exact .inl ⟨_, by simp [spine], rfl⟩
      · exact .inl ⟨p, mem_spine.mpr (.inr (.inl hp)), rfl⟩
      · exact .inr ⟨p, hp, hb⟩
    · rintro (⟨p, hp, rfl⟩ | ⟨p, hp, hb⟩)
      · rcases mem_spine.mp hp with rfl | hp | rfl
        · exact .inr (.inl rfl)
        · exact .inr (.inr ⟨p, hp, .inl rfl⟩)
        · exact .inl rfl
      · exact .inr (.inr ⟨p, hp, .inr hb⟩)

/-- Three entries, the first and the last with one id. -/
def interleaved : State :=
  { State.start (0, 0) (0, 0) with
    mem := {
      record := fun
        | 1 => ⟨0, NULL, NULL, NULL, 3, 0, 0⟩
        | 3 => ⟨1, 7, 6, 1, 4, 0, NOTDELETED⟩
        | 4 => ⟨2, 9, 8, 3, 5, 1, NOTDELETED⟩
        | 5 => ⟨1, 7, 6, 4, 2, 0, NOTDELETED⟩
        | _ => ⟨0, NULL, NULL, 5, NULL, 0, 0⟩
      head := 1
      tail := 2
      toAdd := NULL
      freed := [] }
    brk := 10 }

/-- Nine blocks are freed: five records and two pairs of buffers. -/
theorem clearList_frees_interleaved : ∃ s' freed,
    clearList interleaved = some s' ∧ s'.mem.freed = freed ++ []
      ∧ freed.Nodup ∧ freed.length = 9 := by
  have h : Grouped interleaved [3, 4, 5] := by
    refine ⟨⟨⟨rfl, rfl, rfl, rfl, rfl, trivial⟩, by decide, ?_, by decide, ?_, rfl, rfl⟩,
      by decide, by decide, by decide⟩
    · intro p hp
      exact ⟨by revert p; decide, nofun⟩
    · intro p hp
      exact ⟨by revert p; decide, by revert p; decide, by revert p; decide⟩
  obtain ⟨s', freed, hrun, hlog, honce, hmem⟩ := clearList_frees_once h
  refine ⟨s', freed, hrun, hlog, honce, ?_⟩
  have hfreed : freed = s'.mem.freed := by
    rw [hlog]
    exact (List.append_nil freed).symm
  rw [hfreed]
  cases hrun
  rfl

end OperatingSystem.Shell
