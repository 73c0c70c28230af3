/-
The allocator leaves the client's data alone.

Everything the allocator writes, it writes into headers: those of the chain
it finds, and, when `Mem_Alloc` cuts a block, the new one inside the FREE
block it has chosen. `Writes P` is the frame condition, "no word outside
`P` changes", and each function of `mem.c` that writes has its footprint
here (`writes_myCoalesce`, `writes_enlist`, `writes_takeBlock` and so on).
The bytes of a live allocation are in no header, neither before the call nor
after it (`TouchesHeaders`). So in a run of careful calls a word of an
allocation holds what the client last wrote there, until the allocation is
freed (`user_data_kept`).
-/
import OperatingSystem.Heap.Fresh

namespace OperatingSystem.Heap

open Lib (Words System Reach Along i64 lastListed)

variable {s s₁ s' : State} {A B L : List Block} {t : Block} {c c' : Config}
  {c₀ : Choice} {P Q : Int → Prop} {fuel : Nat} {p r v a y size coalesce : Int}

-- ====================================================== the frame condition

/-- No word outside `P` changes. -/
def Writes (P : Int → Prop) (s s' : State) : Prop :=
  ∀ y, ¬P y → s'.mem.word y = s.mem.word y

/-- Word `y` lies in the header at `p`. -/
def InHeader (p y : Int) : Prop := p ≤ y ∧ y < p + BLOCK_HEADER

/-- Word `y` lies in a header of the chain. -/
def InHeaders (L : List Block) (y : Int) : Prop :=
  ∃ b ∈ L, InHeader b.addr y

theorem Writes.refl (s : State) : Writes P s s := fun _ _ => rfl

theorem Writes.trans (h : Writes P s s₁) (h' : Writes P s₁ s') :
    Writes P s s' :=
  fun y hy => (h' y hy).trans (h y hy)

theorem Writes.mono (h : Writes P s s') (hPQ : ∀ y, P y → Q y) :
    Writes Q s s' :=
  fun y hy => h y fun hP => hy (hPQ y hP)

theorem writes_of_mem (h : s'.mem = s.mem) : Writes P s s' := fun y _ => by
  rw [h]

theorem writes_store (h : s.store a v = some s') (ha : P a) :
    Writes P s s' := by
  obtain ⟨-, rfl⟩ := State.store_eq_some h
  intro y hy
  exact Words.put_word_ne fun heq => hy (heq ▸ ha)

/-- The chain of a state whose FREE headers may have gone has no new
header. -/
theorem InHeaders.mono {L L' : List Block}
    (h : ∀ p ∈ L'.map Lib.Cell.addr, p ∈ L.map Lib.Cell.addr) (y : Int)
    (hy : InHeaders L' y) : InHeaders L y := by
  obtain ⟨b, hb, hin⟩ := hy
  obtain ⟨x, hx, heq⟩ := List.mem_map.mp (h b.addr (List.mem_map_of_mem hb))
  exact ⟨x, hx, heq ▸ hin⟩

-- =============================================================== the fields

theorem in_header_of_mem {b : Block} (hb : b ∈ L) {k : Int} (hlo : 0 ≤ k)
    (hhi : k < 32) : InHeaders L (b.addr + k) := by
  refine ⟨b, hb, ?_⟩
  unfold InHeader BLOCK_HEADER
  omega

theorem writes_setNext {b : Block} (hb : b ∈ L)
    (h : s.setNext b.addr v = some s') : Writes (InHeaders L) s s' := by
  have hin := in_header_of_mem hb (k := 0) (by decide) (by decide)
  rw [Int.add_zero] at hin
  exact writes_store h hin

theorem writes_setPrev {b : Block} (hb : b ∈ L)
    (h : s.setPrev b.addr v = some s') : Writes (InHeaders L) s s' :=
  writes_store h (in_header_of_mem hb (by decide) (by decide))

theorem writes_setNextFree {b : Block} (hb : b ∈ L)
    (h : s.setNextFree b.addr v = some s') : Writes (InHeaders L) s s' :=
  writes_store h (in_header_of_mem hb (by decide) (by decide))

theorem writes_setStatus {b : Block} (hb : b ∈ L)
    (h : s.setStatus b.addr v = some s') : Writes (InHeaders L) s s' := by
  obtain ⟨w, -, hstore⟩ := Option.bind_eq_some_iff.mp h
  exact writes_store hstore (in_header_of_mem hb (by decide) (by decide))

-- ============================================================== coalescing

theorem writes_linkTo {b : Block} (hb : b ∈ L) (hB : ∀ x ∈ B, x ∈ L)
    (h : linkTo s b.addr (firstAddr B) = some s') :
    Writes (InHeaders L) s s' := by
  obtain ⟨s₁, hnext, h⟩ := Option.bind_eq_some_iff.mp h
  refine (writes_setNext hb hnext).trans ?_
  split at h
  case isTrue hne =>
    cases B with
    | nil => exact absurd rfl hne
    | cons x rest =>
        exact writes_setPrev (hB x List.mem_cons_self) h
  case isFalse =>
    obtain rfl := Option.some.inj h
    exact .refl _

theorem writes_absorbNext (h : Chain s.mem (A ++ t :: B))
    (hrun : absorbNext s t.addr = some s') :
    Writes (InHeaders (A ++ t :: B)) s s' := by
  have ht : t ∈ A ++ t :: B := by simp
  unfold absorbNext at hrun
  simp only [Option.bind_eq_bind] at hrun
  rw [State.next_eq h, Option.bind_some] at hrun
  split at hrun
  case isTrue =>
    obtain rfl := Option.some.inj hrun
    exact .refl _
  case isFalse hne =>
    cases B with
    | nil => exact absurd rfl hne
    | cons x rest =>
        rw [firstAddr_cons] at hrun
        obtain ⟨status, -, hrun⟩ := Option.bind_eq_some_iff.mp hrun
        split at hrun
        case isTrue =>
          obtain rfl := Option.some.inj hrun
          exact .refl _
        case isFalse =>
          simp only [Option.bind_eq_some_iff] at hrun
          obtain ⟨nextFree, -, s₁, hset, next, hnext, s₂, hlink, hrun⟩ := hrun
          obtain rfl := Option.some.inj hrun
          obtain ⟨m₁, hset', -, -, hc₁⟩ := setNextFree_eq h nextFree
          obtain rfl := Option.some.inj (hset.symm.trans hset')
          have hread := State.next_eq (s := { s with mem := m₁ }) hc₁.shift
          obtain rfl := Option.some.inj (hnext.symm.trans hread)
          refine (writes_setNextFree ht hset).trans
            ((writes_linkTo ht (fun b hb => ?_) hlink).trans
              (writes_of_mem (forget_mem _ _)))
          simp [hb]

theorem writes_absorbIntoPrev (h : Chain s.mem (A ++ t :: B)) {size : Int}
    (hrun : absorbIntoPrev s t.addr size = some (r, s')) :
    Writes (InHeaders (A ++ t :: B)) s s' := by
  unfold absorbIntoPrev at hrun
  simp only [Option.bind_eq_bind] at hrun
  rw [State.prev_eq h, Option.bind_some] at hrun
  split at hrun
  case isTrue =>
    obtain ⟨-, rfl⟩ := Prod.mk.inj (Option.some.inj hrun)
    exact .refl _
  case isFalse hne =>
    rcases List.eq_nil_or_concat A with rfl | ⟨A', w, rfl⟩
    · exact absurd rfl hne
    · rw [List.concat_eq_append] at h hrun ⊢
      rw [lastAddr_concat] at hrun
      have hw : w ∈ A' ++ [w] ++ t :: B := by simp
      obtain ⟨status, -, hrun⟩ := Option.bind_eq_some_iff.mp hrun
      split at hrun
      case isTrue =>
        obtain ⟨-, rfl⟩ := Prod.mk.inj (Option.some.inj hrun)
        exact .refl _
      case isFalse =>
        simp only [Option.bind_eq_some_iff] at hrun
        obtain ⟨nextFree, -, s₁, hset, next, hnext, s₂, hlink, hrun⟩ := hrun
        obtain ⟨-, rfl⟩ := Prod.mk.inj (Option.some.inj hrun)
        have h' : Chain s.mem (A' ++ w :: t :: B) := by
          rwa [List.append_assoc, List.singleton_append] at h
        obtain ⟨m₁, hset', -, -, hc₁⟩ := setNextFree_eq h' nextFree
        obtain rfl := Option.some.inj (hset.symm.trans hset')
        have hread := State.next_eq (s := { s with mem := m₁ }) hc₁.shift
        obtain rfl := Option.some.inj (hnext.symm.trans hread)
        refine (writes_setNextFree hw hset).trans
          ((writes_linkTo hw (fun b hb => ?_) hlink).trans (writes_of_mem ?_))
        · simp [hb]
        · rw [growLast_mem, forget_mem]

theorem writes_myCoalesce (h : Chain s.mem (A ++ t :: B))
    (hrun : myCoalesce s t.addr = some (r, s')) :
    Writes (InHeaders (A ++ t :: B)) s s' := by
  obtain ⟨t₁, B₁, s₁, hnext, -, hc₁, -, hcase⟩ := absorbNext_eq h
  obtain ⟨haddr, hB₁⟩ : t₁.addr = t.addr ∧ ∀ b ∈ B₁, b ∈ B := by
    rcases hcase with ⟨rfl, rfl, -⟩ | ⟨x, rfl, -, rfl⟩
    · exact ⟨rfl, fun _ hb => hb⟩
    · exact ⟨rfl, fun _ hb => List.mem_cons_of_mem x hb⟩
  unfold myCoalesce at hrun
  rw [if_neg h.mem.ne_null] at hrun
  simp only [Option.bind_eq_bind, Option.bind_eq_some_iff] at hrun
  obtain ⟨curSize, -, s₂, hnext', next, -, prev, -, curSizePrev, -, hrun⟩ :=
    hrun
  obtain rfl := Option.some.inj (hnext.symm.trans hnext')
  have hc₂ : Chain (growLast s₁ next curSize).mem (A ++ t₁ :: B₁) := by
    rw [growLast_mem]
    exact hc₁
  rw [← haddr] at hrun
  refine (writes_absorbNext h hnext).trans
    ((writes_of_mem (growLast_mem _ _ _)).trans
      ((writes_absorbIntoPrev hc₂ hrun).mono (InHeaders.mono ?_)))
  -- the second half finds headers of the first half's chain only
  intro p hp
  obtain ⟨b, hb, rfl⟩ := List.mem_map.mp hp
  rcases List.mem_append.mp hb with hb | hb
  · exact List.mem_map_of_mem (List.mem_append_left _ hb)
  · rcases List.mem_cons.mp hb with rfl | hb
    · rw [haddr]
      exact List.mem_map_of_mem (by simp)
    · exact List.mem_map_of_mem (by simp [hB₁ b hb])

/-- What a merge leaves of a chain has no new header. -/
theorem Merges.addrs {A' B' : List Block} {t' : Block}
    (h : Merges A t B A' t' B') :
    ∀ p ∈ (A' ++ t' :: B').map Lib.Cell.addr,
      p ∈ (A ++ t :: B).map Lib.Cell.addr := by
  have hshapes : ∀ L : List Block,
      L.map Lib.Cell.addr = (shapes L).map Prod.fst := fun L => by
    unfold shapes
    rw [List.map_map]
    rfl
  intro p hp
  rw [hshapes] at hp ⊢
  exact (h.sublist.map Prod.fst).subset hp

/-- From `s` to `s'` the chain may have lost headers, every allocation has
its block, and all that is written lies in headers of `L`. -/
structure Shrinks (s : State) (L : List Block) (s' : State)
    (L' : List Block) : Prop where
  inv : Inv s' L'
  writes : Writes (InHeaders L) s s'
  addrs : ∀ p ∈ L'.map Lib.Cell.addr, p ∈ L.map Lib.Cell.addr
  owns : ∀ q, Owns L q → Owns L' q

theorem Shrinks.refl (h : Inv s L) : Shrinks s L s L :=
  ⟨h, .refl s, fun _ hp => hp, fun _ hq => hq⟩

/-- The pass that joins every FREE block with its neighbours. -/
theorem shrinks_coalesceAll (h : Inv s L)
    (hcalls : ∀ c ∈ passCalls fuel s.head s, ¬StaleCache c.1 c.2)
    (hrun : coalesceAll fuel s = some s') : ∃ L', Shrinks s L s' L' := by
  unfold coalesceAll at hrun
  rw [if_neg (not_not.mpr h.ready)] at hrun
  simp only [Option.bind_eq_bind, Option.bind_eq_some_iff] at hrun
  obtain ⟨s₁, hpass, hrun⟩ := hrun
  obtain rfl := Option.some.inj hrun
  have hstart : s.head = NULL ∨ ∃ f, (s.head, f) ∈ shapes L := by
    rw [h.head]
    cases L with
    | nil => exact .inl rfl
    | cons b rest => exact .inr ⟨b.listed, by simp [shapes]⟩
  obtain ⟨L', hS⟩ := @coalesceFrom_rule (fun s₂ L₂ => Shrinks s L s₂ L₂)
    (fun _ _ => True) (fun hS => hS.inv)
    (fun hS ht hstale _ => by
      obtain ⟨A', t', B', s₂, hm, -, hcall, h₂, -, -⟩ := hS.inv.coalesce ht hstale
      have hw₂ := writes_myCoalesce hS.inv.chain hcall
      exact ⟨A', t', B', s₂, hcall, h₂,
        hS.writes.trans (hw₂.mono (InHeaders.mono hS.addrs)),
        fun p hp => hS.addrs p (hm.addrs p hp),
        fun q hq => hm.owns ht (hS.owns q hq)⟩)
    fuel s.head s s₁ L (.refl h) hstart
    (fun c hc => ⟨hcalls c hc, trivial⟩) hpass
  exact ⟨L', hS.inv.flag _, hS.writes, hS.addrs, hS.owns⟩

-- ================================================================= freeing

theorem writes_enlist (h : Chain s.mem (A ++ t :: B)) (relinks : Bool)
    (hrun : enlist fuel s t.addr relinks = some s') :
    Writes (InHeaders (A ++ t :: B)) s s' := by
  have ht : t ∈ A ++ t :: B := by simp
  unfold enlist at hrun
  simp only [Option.bind_eq_bind] at hrun
  rw [State.prev_eq h, Option.bind_some] at hrun
  obtain ⟨prevFree, hwalk, hset⟩ := Option.bind_eq_some_iff.mp hrun
  have hprev : prevFree = lastListed NULL A := by
    rcases nearestFree_eq fuel h with hfound | ⟨hnone, -⟩
    · exact Option.some.inj (hwalk.symm.trans hfound)
    · rw [hnone] at hwalk
      cases hwalk
  rcases Lib.exists_last A with hnone | ⟨D, q, E, rfl, hq, hE⟩
  · -- no FREE block in front: only the block itself
    rw [hprev, Lib.lastListed_none hnone, if_neg (not_not.mpr rfl)] at hset
    cases relinks with
    | false =>
        rw [if_neg Bool.false_ne_true, Option.bind_some] at hset
        obtain rfl := Option.some.inj hset
        exact .refl s
    | true =>
        rw [if_pos rfl] at hset
        obtain ⟨s₁, hlink, hset⟩ := Option.bind_eq_some_iff.mp hset
        obtain rfl := Option.some.inj hset
        exact (writes_setNextFree ht hlink).trans (writes_of_mem rfl)
  · have hqL : q ∈ D ++ q :: E ++ t :: B := by simp
    rw [Lib.lastListed_split _ hq hE] at hprev
    rw [hprev, if_pos (h.holds q hqL).ne_null] at hset
    cases relinks with
    | false =>
        rw [if_neg Bool.false_ne_true, Option.bind_some] at hset
        exact writes_setNextFree hqL hset
    | true =>
        rw [if_pos rfl] at hset
        obtain ⟨nextFree, -, hset⟩ := Option.bind_eq_some_iff.mp hset
        obtain ⟨s₁, hlink, hset⟩ := Option.bind_eq_some_iff.mp hset
        exact (writes_setNextFree ht hlink).trans (writes_setNextFree hqL hset)

theorem writes_freeBlock (h : Inv s (A ++ t :: B)) (ht : t.listed = false)
    (hrun : freeBlock fuel s t.addr coalesce = some (r, s')) :
    Writes (InHeaders (A ++ t :: B)) s s' := by
  unfold freeBlock at hrun
  simp only [Option.bind_eq_bind, Option.bind_eq_some_iff] at hrun
  obtain ⟨toFreeSize, -, hrun⟩ := hrun
  split at hrun
  case isTrue =>
    obtain ⟨-, rfl⟩ := Prod.mk.inj (Option.some.inj hrun)
    exact .refl s
  case isFalse =>
    simp only [Option.bind_eq_some_iff] at hrun
    obtain ⟨s₁, hgive, ⟨curr, flag, s₂⟩, hmerge, s₃, hstatus, s₄, hlist, s₅,
      hre, hrun⟩ := hrun
    obtain ⟨-, rfl⟩ := Prod.mk.inj (Option.some.inj hrun)
    obtain ⟨s₁', hgive', hcred, -⟩ := giveBack_eq h.chain ht toFreeSize
    obtain rfl := Option.some.inj (hgive.symm.trans hgive')
    have hc₁ : Chain s₁.mem (A ++ t :: B) := by
      rw [hcred.mem]
      exact h.chain
    -- the merge, and the block it ends at
    obtain ⟨A', t', B', hcurr, hc₂, haddrs, hw₂⟩ : ∃ A' t' B', curr = t'.addr
        ∧ Chain s₂.mem (A' ++ t' :: B')
        ∧ (∀ p ∈ (A' ++ t' :: B').map Lib.Cell.addr,
          p ∈ (A ++ t :: B).map Lib.Cell.addr)
        ∧ Writes (InHeaders (A ++ t :: B)) s₁ s₂ := by
      unfold coalesceFreed at hmerge
      split at hmerge
      case isTrue =>
        simp only [Option.bind_eq_bind, Option.bind_eq_some_iff] at hmerge
        obtain ⟨before, -, ⟨merged, s₂'⟩, hcall, after, -, hmerge⟩ := hmerge
        obtain ⟨rfl, heq⟩ := Prod.mk.inj (Option.some.inj hmerge)
        obtain ⟨-, rfl⟩ := Prod.mk.inj heq
        obtain ⟨A', t', B', s₂'', hm, hcall', -, hc₂, -⟩ := myCoalesce_eq hc₁
        obtain ⟨rfl, rfl⟩ :=
          Prod.mk.inj (Option.some.inj (hcall.symm.trans hcall'))
        exact ⟨A', t', B', rfl, hc₂, hm.addrs, writes_myCoalesce hc₁ hcall⟩
      case isFalse =>
        obtain ⟨rfl, heq⟩ := Prod.mk.inj (Option.some.inj hmerge)
        obtain ⟨-, rfl⟩ := Prod.mk.inj heq
        exact ⟨A, t, B, rfl, hc₁, fun _ hp => hp, .refl s₁⟩
    rw [hcurr] at hstatus hlist
    obtain ⟨m₃, hstatus', -, -, hc₃⟩ := setStatus_eq hc₂ true
    rw [if_pos rfl] at hstatus'
    obtain rfl := Option.some.inj (hstatus.symm.trans hstatus')
    have hw₃ := writes_setStatus (L := A' ++ t' :: B') (by simp) hstatus
    have hw₄ := writes_enlist (s := { s₂ with mem := m₃ })
      (t := { t' with listed := true }) hc₃ _ hlist
    obtain ⟨l, m, rfl, -⟩ := recache_eq hre
    have hsame : ∀ p ∈ (A' ++ { t' with listed := true } :: B').map
        Lib.Cell.addr, p ∈ (A' ++ t' :: B').map Lib.Cell.addr := by
      simp
    refine (writes_of_mem hcred.mem).trans (hw₂.trans
      ((hw₃.mono (InHeaders.mono haddrs)).trans ((hw₄.mono ?_).trans
        (writes_of_mem rfl))))
    exact InHeaders.mono fun p hp => haddrs p (hsame p hp)

/-- A freeing call writes into headers of the chain it finds. -/
theorem writes_memFree (h : Inv s L)
    (hptr : p = NULL ∨ ∃ q, Owns L q ∧ q.1 = p)
    (hok : FreeOk fuel s (fun _ _ => True) InRange p coalesce)
    (hrun : memFree fuel s p coalesce = some (r, s')) :
    Writes (InHeaders L) s s' := by
  unfold memFree at hrun
  by_cases hnull : p = NULL
  · rw [if_pos hnull] at hrun
    split at hrun
    case isTrue hzero =>
      obtain ⟨s₁, hall, hrun⟩ := Option.bind_eq_some_iff.mp hrun
      obtain ⟨-, rfl⟩ := Prod.mk.inj (Option.some.inj hrun)
      obtain ⟨L', hS⟩ := shrinks_coalesceAll h
        (fun c hc => (hok.pass hzero (.inl hnull) c hc).1) hall
      exact hS.writes
    case isFalse =>
      obtain ⟨-, rfl⟩ := Prod.mk.inj (Option.some.inj hrun)
      exact .refl s
  rw [if_neg hnull] at hrun
  simp only [Option.bind_eq_bind, Option.bind_eq_some_iff] at hrun
  obtain ⟨s₁, hpending, valid, -, hrun⟩ := hrun
  obtain ⟨L₁, hS⟩ : ∃ L₁, Shrinks s L s₁ L₁ := by
    unfold pendingCoalesce at hpending
    split at hpending
    case isTrue hneed =>
      exact shrinks_coalesceAll h
        (fun c hc => (hok.pass hneed.2 (.inr hneed.1) c hc).1) hpending
    case isFalse =>
      obtain rfl := Option.some.inj hpending
      exact ⟨L, .refl h⟩
  generalize hs₂ : (if coalesce = 0 then
    { s₁ with needGlobalCoalesce := TRUE } else s₁) = s₂ at hrun
  obtain ⟨h₂, hmem⟩ : Inv s₂ L₁ ∧ s₂.mem = s₁.mem := by
    rw [← hs₂]
    split
    · exact ⟨hS.inv.flag _, rfl⟩
    · exact ⟨hS.inv, rfl⟩
  refine hS.writes.trans ((writes_of_mem hmem).trans ?_)
  cases valid with
  | false =>
      obtain ⟨-, rfl⟩ := Prod.mk.inj (Option.some.inj hrun)
      exact .refl s₂
  | true =>
      obtain ⟨q, hq, hqp⟩ := hptr.resolve_left hnull
      obtain ⟨A, t, B, rfl, ht, haddr⟩ := (hS.owns q hq).block
      rw [hqp] at haddr
      rw [if_pos rfl, haddr] at hrun
      exact (writes_freeBlock h₂ ht hrun).mono (InHeaders.mono hS.addrs)

-- ============================================================== allocating

/-- Word `y` lies in the header that cutting `t` makes: inside `t`, behind
the bytes that are handed out. -/
def InCut (t : Block) (B : List Block) (size y : Int) : Prop :=
  (∀ b ∈ B, t.addr + BLOCK_HEADER + size + 40 ≤ b.addr)
    ∧ InHeader (t.addr + BLOCK_HEADER + size) y

theorem writes_splitBlock (h : Chain s.mem (A ++ t :: B))
    (hc : Chosen s c₀ A t B) (hsize : 8 ≤ size)
    (hhi : ∀ b ∈ B, t.addr + BLOCK_HEADER + size + 40 ≤ b.addr)
    (hrun : splitBlock s c₀ size = some s') :
    Writes (fun y => InHeaders (A ++ t :: B) y ∨ InCut t B size y) s s' := by
  unfold splitBlock at hrun
  rw [hc.block] at hrun
  simp only [Option.bind_eq_bind, Option.bind_eq_some_iff] at hrun
  obtain ⟨s₁, hhead, s₂, hlink, hrun⟩ := hrun
  obtain ⟨m₁, rfl, hm⟩ := newHeader_eq h (by unfold BLOCK_HEADER; omega) hhi
    hhead
  have hw₁ : Writes (fun y => InHeaders (A ++ t :: B) y ∨ InCut t B size y) s
      { s with mem := m₁ } := by
    intro y hy
    obtain ⟨hout, hcut⟩ := not_or.mp hy
    refine hm.other y ?_ fun b hb heq => hout ?_
    · by_contra hin
      refine hcut ⟨hhi, ?_⟩
      unfold InHeader
      rw [not_or, Int.not_lt, Int.not_le] at hin
      exact hin
    · rw [heq]
      exact in_header_of_mem (by simp [List.mem_of_mem_head? hb]) (by decide)
        (by decide)
  have ht : t ∈ A ++ t :: B := by simp
  have hw₂ : Writes (InHeaders (A ++ t :: B)) { s with mem := m₁ } s₂ := by
    unfold linkNew at hlink
    rcases Lib.exists_last A with hnone | ⟨D, q, E, rfl, hq, hE⟩
    · rw [hc.prev, Lib.lastListed_none hnone, if_neg (not_not.mpr rfl)] at hlink
      obtain ⟨s₃, hfree, hnext⟩ := Option.bind_eq_some_iff.mp hlink
      obtain rfl := Option.some.inj hfree
      exact fun y hy => writes_setNext ht hnext y hy
    · have hqL : q ∈ D ++ q :: E ++ t :: B := by simp
      rw [hc.prev, Lib.lastListed_split _ hq hE,
        if_pos (h.holds q hqL).ne_null] at hlink
      obtain ⟨s₃, hfree, hnext⟩ := Option.bind_eq_some_iff.mp hlink
      exact (writes_setNextFree hqL hfree).trans
        (writes_setNext ht hnext)
  obtain ⟨sizeOfNew, -, sizeOfSecond, -, next, -, hrun⟩ := hrun
  obtain rfl := Option.some.inj hrun
  refine hw₁.trans ((hw₂.mono fun y hy => .inl hy).trans (writes_of_mem ?_))
  split
  all_goals
    split
    all_goals rfl

theorem writes_takeBlock (h : Inv s (A ++ t :: B)) (hc : Chosen s c₀ A t B)
    (hsome : c₀.sizeToAllocate ≠ -1) {actSize : Int} (hsize : 8 ≤ size)
    (hrun : takeBlock s c₀ actSize size = some (p, s')) :
    Writes (fun y => InHeaders (A ++ t :: B) y ∨ InCut t B size y) s s' := by
  unfold takeBlock at hrun
  simp only [Option.bind_eq_bind] at hrun
  rw [if_neg hsome] at hrun
  obtain ⟨next, hnext, hrun⟩ := Option.bind_eq_some_iff.mp hrun
  have hread : s.next c₀.nextToAllocate = some (firstAddr B) := by
    rw [hc.block]
    exact State.next_eq h.chain
  obtain rfl := Option.some.inj (hnext.symm.trans hread)
  generalize hs₀ : ({ s with
    largest := c₀.largest
    secondLargest := c₀.secondLargest } : State) = s₀ at hrun
  obtain ⟨hchain, hc'⟩ : Chain s₀.mem (A ++ t :: B) ∧ Chosen s₀ c₀ A t B := by
    subst hs₀
    exact ⟨h.chain, hc.free, hc.block, hc.prev, hc.size⟩
  have hw₀ : s₀.mem = s.mem := by rw [← hs₀]
  -- the last two writes, into the header of the chosen block
  have hlast : ∀ s₁ : State, (do
        let s ← s₁.setNextFree t.addr NULL
        let s ← s.setStatus t.addr ALLOCATED
        some (t.addr + BLOCK_HEADER,
          { s with remainingSize := i64 (s.remainingSize - actSize) }))
        = some (p, s') → Writes (InHeaders (A ++ t :: B)) s₁ s' := by
    intro s₁ hrun
    obtain ⟨s₂, hfree, hrun⟩ := Option.bind_eq_some_iff.mp hrun
    obtain ⟨s₃, hstatus, hrun⟩ := Option.bind_eq_some_iff.mp hrun
    obtain ⟨-, rfl⟩ := Prod.mk.inj (Option.some.inj hrun)
    exact (writes_setNextFree (by simp) hfree).trans
      ((writes_setStatus (by simp) hstatus).trans (writes_of_mem rfl))
  rw [hc.block] at hrun
  split at hrun
  case isTrue hsplits =>
    obtain ⟨s₁, hbranch, hrun⟩ := Option.bind_eq_some_iff.mp hrun
    obtain ⟨hhi, -⟩ := h.chain.room h.mem_small hc.size hsplits
    exact (writes_of_mem hw₀).trans
      ((writes_splitBlock hchain hc' hsize hhi hbranch).trans
        ((hlast s₁ hrun).mono fun y hy => .inl hy))
  case isFalse hsplits =>
    obtain ⟨s₁, hbranch, hrun⟩ := Option.bind_eq_some_iff.mp hrun
    have heq := takeWhole_eq hchain hc' hbranch
    have hw₁ : s₁.mem = s₀.mem := by rw [heq]
    exact (writes_of_mem hw₀).trans ((writes_of_mem hw₁).trans
      ((hlast s₁ hrun).mono fun y hy => .inl hy))

/-- `Mem_Alloc` writes into headers of the chain it finds, or it also makes
a header inside a FREE block of that chain. -/
theorem writes_memAlloc (h : Inv s L) (hlo : 1 ≤ size)
    (hrounds : size ≤ s.remainingSize → size ≤ 2147483640)
    (hrun : memAlloc fuel s size = some (p, s')) :
    Writes (InHeaders L) s s'
      ∨ ∃ A t B n, L = A ++ t :: B ∧ t.listed = true ∧ 0 ≤ n
        ∧ Writes (fun y => InHeaders L y ∨ InCut t B n y) s s' := by
  unfold memAlloc at hrun
  rw [if_neg (not_not.mpr h.ready)] at hrun
  split at hrun
  case isTrue =>
    obtain ⟨-, rfl⟩ := Prod.mk.inj (Option.some.inj hrun)
    exact .inl (writes_of_mem rfl)
  case isFalse hleft =>
    obtain ⟨hge, -, heven⟩ := roundTo_block hlo
      (hrounds (Int.not_lt.mp hleft))
    obtain ⟨c₀, hsearch, hrun⟩ := Option.bind_eq_some_iff.mp hrun
    by_cases hnone : c₀.sizeToAllocate = -1
    · unfold takeBlock at hrun
      rw [if_pos hnone] at hrun
      obtain ⟨-, rfl⟩ := Prod.mk.inj (Option.some.inj hrun)
      exact .inl (writes_of_mem rfl)
    · obtain ⟨A, t, B, rfl, hc, -⟩ := (search_spec h hsearch).2 hnone
      exact .inr ⟨A, t, B, _, rfl, hc.free, by omega,
        writes_takeBlock h hc hnone (by omega) hrun⟩

-- ========================================================= the client's bytes

/-- Word `y` starts in the bytes of allocation `q`. -/
def InPayload (q : Int × Int) (y : Int) : Prop := q.1 ≤ y ∧ y < q.1 + q.2

/-- Payload bytes are in no header. -/
theorem Owns.not_header {q : Int × Int} (hq : Owns L q) (h : Chain s.mem L)
    (hy : InPayload q y) : ¬InHeaders L y := by
  rintro ⟨b, hb, hlo, hhi⟩
  obtain ⟨a, ha, haq, hend⟩ := hq
  obtain ⟨A, t, B, rfl, heq⟩ := mem_shapes ha
  obtain rfl : a = t.addr := congrArg Prod.fst heq
  obtain ⟨hy₁, hy₂⟩ := hy
  unfold BLOCK_HEADER at haq hhi
  rcases List.mem_append.mp hb with hA | hb
  · have := h.before b hA
    omega
  rcases List.mem_cons.mp hb with rfl | hB
  · omega
  · have hlt := h.behind b hB
    have := hend (b.addr, b.listed) (List.mem_map_of_mem (by simp [hB]))
      (by dsimp only; omega)
    dsimp only at this
    omega

/-- They are in no header that is made inside a FREE block either. -/
theorem Owns.not_cut {q : Int × Int} (hq : Owns (A ++ t :: B) q)
    (h : Chain s.mem (A ++ t :: B)) (ht : t.listed = true) (hsize : 0 ≤ size)
    (hy : InPayload q y) : ¬InCut t B size y := by
  rintro ⟨hhi, hlo, hup⟩
  obtain ⟨a, ha, haq, hend⟩ := hq
  obtain ⟨hy₁, hy₂⟩ := hy
  unfold BLOCK_HEADER at haq hhi hlo hup
  rw [shapes_append, shapes_cons] at ha
  rcases List.mem_append.mp ha with hA | ha
  · -- the allocation ends in front of `t`
    obtain ⟨D, b, E, rfl, heq⟩ := mem_shapes hA
    obtain rfl : a = b.addr := congrArg Prod.fst heq
    have hlt := h.before b (by simp)
    have := hend (t.addr, t.listed) (by simp [shapes]) (by dsimp only; omega)
    dsimp only at this
    omega
  rcases List.mem_cons.mp ha with heq | hB
  · rw [ht] at heq
    exact absurd (congrArg Prod.snd heq) Bool.false_ne_true
  · -- it starts behind the new header
    obtain ⟨D, b, E, rfl, heq⟩ := mem_shapes hB
    obtain rfl : a = b.addr := congrArg Prod.fst heq
    have := hhi b (by simp)
    omega

/-- All that changes from `c` to `c'` lies in headers: those of the chain that
is there, and at most one that has been made. None of them meets the bytes of
a live allocation. -/
def TouchesHeaders (c c' : Config) : Prop :=
  ∃ (L : List Block) (made : List Int), Inv c.heap L ∧ made.length ≤ 1
    ∧ Writes (fun y => InHeaders L y ∨ ∃ p ∈ made, InHeader p y) c.heap c'.heap
    ∧ ∀ q ∈ c.live, ∀ y, InPayload q y →
      ¬InHeaders L y ∧ ∀ p ∈ made, ¬InHeader p y

/-- A call that makes no header. -/
theorem touchesHeaders_of_chain (hinv : Inv c.heap L)
    (hlive : ∀ q ∈ c.live, Owns L q)
    (hw : Writes (InHeaders L) c.heap c'.heap) : TouchesHeaders c c' :=
  ⟨L, [], hinv, Nat.zero_le _, hw.mono fun _ hy => .inl hy, fun q hq _ hy =>
    ⟨(hlive q hq).not_header hinv.chain hy, fun _ hp => by cases hp⟩⟩

/-- A call that cuts `t`. -/
theorem touchesHeaders_of_cut (hinv : Inv c.heap (A ++ t :: B))
    (hlive : ∀ q ∈ c.live, Owns (A ++ t :: B) q) (ht : t.listed = true)
    (hsize : 0 ≤ size)
    (hw : Writes (fun y => InHeaders (A ++ t :: B) y ∨ InCut t B size y) c.heap
      c'.heap) : TouchesHeaders c c' := by
  by_cases hhi : ∀ b ∈ B, t.addr + BLOCK_HEADER + size + 40 ≤ b.addr
  · refine ⟨_, [t.addr + BLOCK_HEADER + size], hinv, Nat.le_refl _,
      hw.mono fun y => ?_, fun q hq y hy =>
        ⟨(hlive q hq).not_header hinv.chain hy, fun p hp hin => ?_⟩⟩
    · exact Or.imp_right fun hcut => ⟨_, List.mem_singleton_self _, hcut.2⟩
    · obtain rfl := List.mem_singleton.mp hp
      exact (hlive q hq).not_cut hinv.chain ht hsize hy ⟨hhi, hin⟩
  · exact touchesHeaders_of_chain hinv hlive
      (hw.mono fun y hy => hy.resolve_right fun hcut => hhi hcut.1)

/-- What a careful call writes. -/
theorem step_touchesHeaders {act : Act} (hs : Sound (fun _ _ => True) c)
    (hok : Careful act c) (hcall : ∀ a v, act ≠ .write a v)
    (hstep : step act c = some c') : TouchesHeaders c c' := by
  obtain ⟨L, hinv, -, hlive⟩ := hs
  cases act with
  | alloc fuel size =>
      obtain ⟨hlo, p, heap, hrun, rfl⟩ := step_alloc hstep
      rcases writes_memAlloc hinv hlo (fun hle => (hok hle).1.rounds) hrun with
        hw | ⟨A, t, B, n, rfl, ht, hn, hw⟩
      · exact touchesHeaders_of_chain hinv hlive hw
      · exact touchesHeaders_of_cut hinv hlive ht hn hw
  | free fuel ptr coalesce =>
      obtain ⟨hptr, r, heap, hrun, rfl⟩ := step_free hstep
      refine touchesHeaders_of_chain hinv hlive
        (writes_memFree hinv (hptr.imp_right fun hmem => ?_) hok hrun)
      obtain ⟨q, hq, hqp⟩ := List.mem_map.mp hmem
      exact ⟨q, hlive q hq, hqp⟩
  | write a v => exact absurd rfl (hcall a v)

/-- Words of live allocations are none of the words that have changed. -/
theorem TouchesHeaders.word {q : Int × Int} (h : TouchesHeaders c c')
    (hq : q ∈ c.live) (hy : InPayload q y) :
    c'.heap.mem.word y = c.heap.mem.word y := by
  obtain ⟨L, made, -, -, hw, hout⟩ := h
  obtain ⟨hold, hnew⟩ := hout q hq y hy
  exact hw y (not_or.mpr ⟨hold, fun ⟨p, hp, hin⟩ => hnew p hp hin⟩)

/-- Word `y`, once holding `w`, after one more act of the client's, if
nobody else writes to it. -/
def writtenBy : Act → Int → Int → Int
  | .write a v, y, w => if a = y then v else w
  | _, _, w => w

/-- What the client wrote to word `y` last, `w` if nothing. -/
def lastWritten : List Act → Int → Int → Int
  | [], _, w => w
  | act :: acts, y, w => lastWritten acts y (writtenBy act y w)

/-- One act: an allocation that it does not free stays, and its words
change by the client's own writes only. -/
theorem step_user_data (act : Act) {q : Int × Int}
    (hs : Sound (fun _ _ => True) c) (hok : Careful act c)
    (hstep : step act c = some c') (hq : q ∈ c.live)
    (hkept : ∀ fuel coalesce, act ≠ .free fuel q.1 coalesce)
    (hy : InPayload q y) :
    q ∈ c'.live
      ∧ c'.heap.mem.word y = writtenBy act y (c.heap.mem.word y) := by
  cases act with
  | alloc fuel size =>
      have hw := step_touchesHeaders hs hok (fun _ _ h => by cases h) hstep
      refine ⟨?_, hw.word hq hy⟩
      obtain ⟨-, p, heap, -, rfl⟩ := step_alloc hstep
      dsimp only
      split
      case isTrue => exact hq
      case isFalse => exact List.mem_cons_of_mem _ hq
  | free fuel ptr coalesce =>
      have hw := step_touchesHeaders hs hok (fun _ _ h => by cases h) hstep
      refine ⟨?_, hw.word hq hy⟩
      obtain ⟨-, r, heap, -, rfl⟩ := step_free hstep
      have hne : q.1 ≠ ptr := fun heq => hkept fuel coalesce (by rw [heq])
      exact List.mem_filter.mpr ⟨hq, decide_eq_true hne⟩
  | write a v =>
      obtain ⟨-, heap, hstore, rfl⟩ := step_write hstep
      obtain ⟨-, rfl⟩ := State.store_eq_some hstore
      refine ⟨hq, ?_⟩
      dsimp only [writtenBy]
      by_cases heq : a = y
      · rw [if_pos heq, ← heq, Words.put_word_self]
      · rw [if_neg heq, Words.put_word_ne (Ne.symm heq)]

/-- A run of careful calls: each word of an allocation that is not freed
holds what the client wrote there last. -/
theorem run_user_data {acts : List Act} {q : Int × Int}
    (hs : Sound (fun _ _ => True) c)
    (hok : Along (client fun _ _ => True) Careful acts c)
    (hrun : Lib.run (client fun _ _ => True) acts c = some c')
    (hq : q ∈ c.live)
    (hkept : ∀ fuel coalesce, .free fuel q.1 coalesce ∉ acts)
    (hy : InPayload q y) :
    q ∈ c'.live
      ∧ c'.heap.mem.word y = lastWritten acts y (c.heap.mem.word y) := by
  induction acts generalizing c with
  | nil =>
      obtain rfl := Option.some.inj hrun
      exact ⟨hq, rfl⟩
  | cons act acts ih =>
      cases hst : step act c with
      | none =>
          have hst' : (client fun _ _ => True).step act c = none := hst
          simp only [Lib.run, hst'] at hrun
          cases hrun
      | some c₁ =>
          have hst' : (client fun _ _ => True).step act c = some c₁ := hst
          simp only [Lib.run, hst'] at hrun
          obtain ⟨hq₁, hword⟩ := step_user_data act hs hok.1 hst hq
            (fun fuel coalesce heq =>
              hkept fuel coalesce (heq ▸ List.mem_cons_self)) hy
          obtain ⟨hq', hword'⟩ := ih (keeps_true.step act hs hok.1 hst)
            (hok.2 c₁ hst') hrun hq₁ fun fuel coalesce hmem =>
              hkept fuel coalesce (List.mem_cons_of_mem _ hmem)
          refine ⟨hq', ?_⟩
          rw [hword', hword]
          rfl

/-- In a run of careful calls each word of an allocation holds what the
client wrote there last, however the calls allocate, free and coalesce, as
long as the allocation is not freed. And every call on the way writes to
headers only, none of which meets a live allocation. -/
theorem user_data_kept (h : Reach (client fun _ _ => True) Careful c) :
    (∀ acts c' q y, Along (client fun _ _ => True) Careful acts c →
      Lib.run (client fun _ _ => True) acts c = some c' → q ∈ c.live →
      (∀ fuel coalesce, .free fuel q.1 coalesce ∉ acts) → InPayload q y →
      q ∈ c'.live
        ∧ c'.heap.mem.word y = lastWritten acts y (c.heap.mem.word y))
    ∧ ∀ act c', Careful act c → (∀ a v, act ≠ .write a v) →
      step act c = some c' → TouchesHeaders c c' := by
  have hs := keeps_true.sound (fun _ _ _ _ _ _ _ => trivial) h
  exact ⟨fun _ _ _ _ => run_user_data hs,
    fun _ _ => step_touchesHeaders hs⟩

/-- The theorem where the client allocates again, writes to its first
allocation, and frees the second one. The second allocation cuts a block. -/
theorem user_data_kept_first : ∃ c c₁ c',
    Lib.run (client fun _ _ => True) [.alloc 9 8] (opened 24) = some c
      ∧ step (.alloc 9 8) c = some c₁ ∧ TouchesHeaders c c₁
      ∧ c₁.heap.mem.word 65672 ≠ c.heap.mem.word 65672
      ∧ Lib.run (client fun _ _ => True)
        [.alloc 9 8, .write 65616 7, .free 9 65656 0] c = some c'
      ∧ (65616, 8) ∈ c'.live ∧ c'.heap.mem.word 65616 = 7 := by
  let before : List Act := [.alloc 9 8]
  let acts : List Act := [.alloc 9 8, .write 65616 7, .free 9 65656 0]
  let c := (Lib.run (client fun _ _ => True) before (opened 24)).get
    (by decide +kernel)
  have hrun : Lib.run (client fun _ _ => True) before (opened 24) = some c :=
    (Option.some_get _).symm
  have hreach : Reach (client fun _ _ => True) Careful c := by
    refine ⟨_, start_opened trivial (by decide +kernel) (by decide +kernel),
      Lib.run_steps before ⟨fun _ => ⟨?_, trivial⟩, fun _ _ => trivial⟩ hrun⟩
    exact (allocOk_of_search (by decide) (by decide +kernel)
      (by decide +kernel)).1
  let c' := (Lib.run (client fun _ _ => True) acts c).get (by decide +kernel)
  have hrun' : Lib.run (client fun _ _ => True) acts c = some c' :=
    (Option.some_get _).symm
  have hok : Along (client fun _ _ => True) Careful acts c := by
    refine ⟨fun _ => ⟨?_, trivial⟩, fun _ _ => ⟨trivial, fun _ _ =>
      ⟨freeOk_zero, fun _ _ => trivial⟩⟩⟩
    exact (allocOk_of_search (by decide) (by decide +kernel)
      (by decide +kernel)).1
  let c₁ := (step (.alloc 9 8) c).get (by decide +kernel)
  have hstep : step (.alloc 9 8) c = some c₁ := (Option.some_get _).symm
  obtain ⟨hruns, htouches⟩ := user_data_kept hreach
  obtain ⟨hlive, hword⟩ := hruns acts c' (65616, 8) 65616 hok hrun'
    (by decide +kernel) (by simp [acts]) ⟨by decide, by decide⟩
  exact ⟨c, c₁, c', hrun, hstep,
    htouches _ _ hok.1 (fun _ _ h => by cases h) hstep, by decide +kernel, hrun',
    hlive, hword⟩

end OperatingSystem.Heap
