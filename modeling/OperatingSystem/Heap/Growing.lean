/-
Without coalescing the chain only grows.

`Mem_Alloc` cuts a header in, and `Mem_Free(ptr, 0)` takes none out: a
pointer that has once led to a header always does. That much survives every
mistake of the allocator. A block may be FREE and not on the free list, on
it twice or on it while it is ALLOCATED, and a cached pointer may name any
block, but `next_free`, `head_free` and both cached pointers are `NULL` or
lead to headers (`Sturdy`). So whatever the search chooses is a block of the
chain, and a cut leaves a chain.
-/
import OperatingSystem.Heap.Client
import OperatingSystem.Heap.Steady

namespace OperatingSystem.Heap

open Lib (Words System Reach)

variable {s s' s₁ s₂ : State} {A B L L' : List Block} {t b : Block}
  {c c' : Config} {choice : Choice} {fuel : Nat} {p q v n size : Int}

-- ========================================================= the invariant

/-- `p` is `NULL` or leads to a header of the chain. -/
def Leads (L : List Block) (p : Int) : Prop :=
  p = NULL ∨ p ∈ L.map Lib.Cell.addr

/-- The chain is `L`, and whatever should lead to a block leads to one. -/
structure Sturdy (s : State) (L : List Block) : Prop where
  ready : s.ready
  small : s.mem.size < 2147483648
  chain : Chain s.mem L
  head : s.head = firstAddr L
  links : ∀ b ∈ L, Leads L b.link
  headFree : Leads L s.headFree
  largest : Leads L s.largest
  secondLargest : Leads L s.secondLargest

theorem leads_null (L : List Block) : Leads L NULL := .inl rfl

theorem leads_addr (A : List Block) (t : Block) (B : List Block) :
    Leads (A ++ t :: B) t.addr := .inr (by simp)

/-- What leads to a header still does where no header has gone. -/
theorem Leads.mono (h : Leads L p)
    (hsub : L.map Lib.Cell.addr ⊆ L'.map Lib.Cell.addr) : Leads L' p :=
  h.imp_right fun hp => hsub hp

/-- The block at an address of the chain. -/
theorem exists_block (h : p ∈ L.map Lib.Cell.addr) :
    ∃ A t B, L = A ++ t :: B ∧ p = t.addr := by
  obtain ⟨t, ht, rfl⟩ := List.mem_map.mp h
  obtain ⟨A, B, rfl⟩ := List.append_of_mem ht
  exact ⟨A, t, B, rfl, rfl⟩

theorem Leads.ne_null (h : Leads L p) (hp : p ≠ NULL) :
    ∃ A t B, L = A ++ t :: B ∧ p = t.addr :=
  exists_block (h.resolve_left hp)

/-- The same addresses split at the same place. -/
theorem split_of_addrs
    (h : L.map Lib.Cell.addr = (A ++ t :: B).map Lib.Cell.addr) :
    ∃ A' t' B', L = A' ++ t' :: B' ∧ t'.addr = t.addr
      ∧ A'.map Lib.Cell.addr = A.map Lib.Cell.addr
      ∧ B'.map Lib.Cell.addr = B.map Lib.Cell.addr := by
  rw [List.map_append, List.map_cons] at h
  obtain ⟨A', R, rfl, hA, hR⟩ := List.map_eq_append_iff.mp h
  obtain ⟨t', B', rfl, ht, hB⟩ := List.map_eq_cons_iff.mp hR
  exact ⟨A', t', B', rfl, ht, hA, hB⟩

/-- The invariant of a state with a chain that starts where it started and
has lost no header. -/
theorem Sturdy.rebuild (h : Sturdy s L) (hglobal : s'.globalHead = s.globalHead)
    (hhead : s'.head = s.head) (hed : Edited s.mem s'.mem L')
    (hstart : firstAddr L' = firstAddr L)
    (hlinks : ∀ b ∈ L', Leads L' b.link) (hfree : Leads L' s'.headFree)
    (hl : Leads L' s'.largest) (hm : Leads L' s'.secondLargest) :
    Sturdy s' L' where
  ready := by
    unfold State.ready
    rw [hglobal]
    exact h.ready
  small := by
    rw [hed.size]
    exact h.small
  chain := hed.chain
  head := by rw [hhead, hstart, h.head]
  links := hlinks
  headFree := hfree
  largest := hl
  secondLargest := hm

/-- Globals other than pointers to headers do not matter. -/
theorem Sturdy.globals (h : Sturdy s L)
    (hglobal : s'.globalHead = s.globalHead) (hhead : s'.head = s.head)
    (hmem : s'.mem = s.mem) (hfree : Leads L s'.headFree)
    (hl : Leads L s'.largest) (hm : Leads L s'.secondLargest) :
    Sturdy s' L :=
  h.rebuild hglobal hhead (by rw [hmem]; exact ⟨rfl, rfl, h.chain⟩) rfl h.links
    hfree hl hm

-- ================================================================ reading

theorem Sturdy.prev (h : Sturdy s L) (hp : p ∈ L.map Lib.Cell.addr)
    (hrun : s.prev p = some q) : Leads L q := by
  obtain ⟨A, t, B, rfl, rfl⟩ := exists_block hp
  rw [State.prev_eq h.chain] at hrun
  obtain rfl := Option.some.inj hrun
  rcases List.eq_nil_or_concat A with rfl | ⟨A, a, rfl⟩
  · exact leads_null _
  · rw [List.concat_eq_append, lastAddr_concat, List.append_assoc]
    exact leads_addr A a (t :: B)

theorem Sturdy.nextFree (h : Sturdy s L) (hp : p ∈ L.map Lib.Cell.addr)
    (hrun : s.nextFree p = some q) : Leads L q := by
  obtain ⟨A, t, B, rfl, rfl⟩ := exists_block hp
  rw [State.nextFree_eq h.chain.mem] at hrun
  obtain rfl := Option.some.inj hrun
  exact h.links t (by simp)

/-- The walk back stays on the chain. -/
theorem Sturdy.nearestFree (h : Sturdy s L) : ∀ (fuel : Nat) (p q : Int),
    Leads L p → Heap.nearestFree s fuel p = some q → Leads L q := by
  intro fuel
  induction fuel with
  | zero => intro p q _ hrun; cases hrun
  | succ fuel ih =>
      intro p q hp hrun
      rw [Heap.nearestFree] at hrun
      split at hrun
      case isTrue => exact Option.some.inj hrun ▸ hp
      case isFalse hne =>
        obtain ⟨status, -, hrun⟩ := Option.bind_eq_some_iff.mp hrun
        split at hrun
        case isTrue =>
          obtain ⟨prev, hprev, hrun⟩ := Option.bind_eq_some_iff.mp hrun
          exact ih prev q (h.prev (hp.resolve_left hne) hprev) hrun
        case isFalse => exact Option.some.inj hrun ▸ hp

-- =========================================================== the searches

/-- The candidates for the cached pointers lead to blocks, and a chosen
block is one, with its size as an `int`. -/
structure Found (s : State) (L : List Block) (c : Choice) : Prop where
  largest : Leads L c.largest
  secondLargest : Leads L c.secondLargest
  prev : Leads L c.prevFree
  block : c.sizeToAllocate ≠ -1 → c.nextToAllocate ∈ L.map Lib.Cell.addr
    ∧ ∃ k, getBlockSize s c.nextToAllocate = some k
      ∧ c.sizeToAllocate = Lib.i32 k

theorem Found.rank (h : Found s L choice) (hp : Leads L p) {choice' : Choice}
    (hrun : Heap.rank s p v choice = some choice') : Found s L choice' := by
  unfold Heap.rank at hrun
  simp only [Option.bind_eq_bind, Option.bind_eq_some_iff] at hrun
  obtain ⟨sizeOfLargest, -, hrun⟩ := hrun
  split at hrun
  case isTrue =>
    obtain rfl := Option.some.inj hrun
    exact ⟨hp, h.largest, h.prev, h.block⟩
  case isFalse =>
    simp only [Option.bind_eq_some_iff] at hrun
    obtain ⟨sizeOfSecond, -, hrun⟩ := hrun
    split at hrun
    case isTrue =>
      obtain rfl := Option.some.inj hrun
      exact ⟨h.largest, hp, h.prev, h.block⟩
    case isFalse =>
      obtain rfl := Option.some.inj hrun
      exact h

/-- The scan stays on the chain, wherever the links lead on it. -/
theorem Sturdy.scan (h : Sturdy s L) : ∀ (fuel : Nat) (curr temp1 : Int)
    (c c' : Choice), Leads L curr → Leads L temp1 → Found s L c →
    Heap.scan s size fuel curr temp1 c = some c' → Found s L c' := by
  intro fuel
  induction fuel with
  | zero => intro curr temp1 c c' _ _ _ hrun; cases hrun
  | succ fuel ih =>
      intro curr temp1 c c' hcurr htemp hc hrun
      rw [Heap.scan] at hrun
      split at hrun
      case isTrue => exact Option.some.inj hrun ▸ hc
      case isFalse hne =>
        have hin := hcurr.resolve_left hne
        simp only [Option.bind_eq_bind, Option.bind_eq_some_iff] at hrun
        obtain ⟨available, hsize, c₁, hrank, nextFree, hnext, hrun⟩ := hrun
        have hc₁ := hc.rank hcurr hrank
        refine ih _ _ _ _ (h.nextFree hin hnext) hcurr ?_ hrun
        split
        case isTrue =>
          exact ⟨hc₁.largest, hc₁.secondLargest, htemp,
            fun _ => ⟨hin, available, hsize, rfl⟩⟩
        case isFalse => exact hc₁

/-- The search ends at a block of the chain, if at any. -/
theorem Sturdy.search (h : Sturdy s L)
    (hrun : Heap.search s fuel size = some choice) : Found s L choice := by
  have hnone : ∀ {l m : Int}, Leads L l → Leads L m →
      Found s L (unchosen l m) := fun hl hm =>
    ⟨hl, hm, leads_null L, fun hne => absurd rfl hne⟩
  unfold Heap.search at hrun
  split at hrun
  case isTrue hboth =>
    simp only [Option.bind_eq_bind, Option.bind_eq_some_iff] at hrun
    obtain ⟨sizeOfLargest, hsize, sizeOfSecond, -, hrun⟩ := hrun
    split at hrun
    case isTrue =>
      simp only [Option.bind_eq_some_iff] at hrun
      obtain ⟨prev, hprev, prevFree, hwalk, hrun⟩ := hrun
      obtain rfl := Option.some.inj hrun
      have hin := h.largest.resolve_left hboth.1
      exact ⟨h.largest, h.secondLargest,
        h.nearestFree _ _ _ (h.prev hin hprev) hwalk,
        fun _ => ⟨hin, sizeOfLargest, hsize, rfl⟩⟩
    case isFalse =>
      exact h.scan _ _ _ _ _ h.headFree (leads_null L)
        (hnone h.largest h.secondLargest) hrun
  case isFalse =>
    exact h.scan _ _ _ _ _ h.headFree (leads_null L)
      (hnone h.headFree h.headFree) hrun

-- ================================================================ writing

/-- The invariant where every header has stayed. -/
theorem Sturdy.same (h : Sturdy s L) {m' : Words}
    (haddrs : L'.map Lib.Cell.addr = L.map Lib.Cell.addr)
    (hed : Edited s.mem m' L') (hlinks : ∀ b ∈ L', Leads L b.link) :
    Sturdy { s with mem := m' } L' := by
  have hkeep : ∀ {p : Int}, Leads L p → Leads L' p := by
    intro p hp
    unfold Leads
    rw [haddrs]
    exact hp
  exact h.rebuild rfl rfl hed (firstAddr_eq_of_addrs haddrs)
    (fun b hb => hkeep (hlinks b hb)) (hkeep h.headFree) (hkeep h.largest)
    (hkeep h.secondLargest)

theorem addrs_replace (A : List Block) (t' : Block) (B : List Block)
    (ht : t'.addr = t.addr) :
    (A ++ t' :: B).map Lib.Cell.addr = (A ++ t :: B).map Lib.Cell.addr := by
  rw [List.map_append, List.map_append, List.map_cons, List.map_cons, ht]

/-- All links but one are the old ones. -/
theorem links_replace {t' : Block} (h : ∀ b ∈ A ++ t :: B, Leads L b.link)
    (ht : Leads L t'.link) : ∀ b ∈ A ++ t' :: B, Leads L b.link := by
  intro b hb
  rcases List.mem_append.mp hb with hA | hb
  · exact h b (by simp [hA])
  · rcases List.mem_cons.mp hb with rfl | hB
    · exact ht
    · exact h b (by simp [hB])

theorem Sturdy.setNextFree (h : Sturdy s L) (hp : p ∈ L.map Lib.Cell.addr)
    (hv : Leads L v) (hrun : s.setNextFree p v = some s') :
    ∃ L', L'.map Lib.Cell.addr = L.map Lib.Cell.addr ∧ Sturdy s' L' := by
  obtain ⟨A, t, B, rfl, rfl⟩ := exists_block hp
  obtain ⟨m', hset, hed⟩ := setNextFree_eq h.chain v
  obtain rfl := Option.some.inj (hset.symm.trans hrun)
  have haddrs := addrs_replace (t := t) A { t with link := v } B rfl
  exact ⟨_, haddrs, h.same haddrs hed (links_replace h.links hv)⟩

theorem Sturdy.setStatus (h : Sturdy s L) (hp : p ∈ L.map Lib.Cell.addr)
    (free : Bool)
    (hrun : s.setStatus p (if free then FREE else ALLOCATED) = some s') :
    ∃ L', L'.map Lib.Cell.addr = L.map Lib.Cell.addr ∧ Sturdy s' L' := by
  obtain ⟨A, t, B, rfl, rfl⟩ := exists_block hp
  obtain ⟨m', hset, hed⟩ := setStatus_eq h.chain free
  obtain rfl := Option.some.inj (hset.symm.trans hrun)
  have haddrs := addrs_replace (t := t) A { t with listed := free } B rfl
  exact ⟨_, haddrs, h.same haddrs hed
    (links_replace h.links (h.links t (by simp)))⟩

/-- Where a new header goes, the addresses of the chain are these. -/
def Cut (A : List Block) (t : Block) (B : List Block) (n : Int)
    (L' : List Block) : Prop :=
  L'.map Lib.Cell.addr
    = A.map Lib.Cell.addr ++ t.addr :: n :: B.map Lib.Cell.addr

theorem Cut.subset (h : Cut A t B n L') :
    (A ++ t :: B).map Lib.Cell.addr ⊆ L'.map Lib.Cell.addr := by
  rw [h, List.map_append, List.map_cons]
  exact (List.Sublist.append_left (.cons_cons _ (.cons _ (.refl _))) _).subset

theorem Cut.firstAddr_eq (h : Cut A t B n L') :
    firstAddr L' = firstAddr (A ++ t :: B) := by
  unfold firstAddr
  rw [h, List.map_append, List.map_cons]
  cases A <;> rfl

/-- With one more header, the links being those of the others or the new
one. -/
theorem Sturdy.grown (h : Sturdy s (A ++ t :: B)) {t' : Block}
    {A' B' : List Block} {m' : Words} {hf : Int} (ht : t'.addr = t.addr)
    (hA : A'.map Lib.Cell.addr = A.map Lib.Cell.addr)
    (hB : B'.map Lib.Cell.addr = B.map Lib.Cell.addr)
    (hlinks : ∀ b ∈ A' ++ t' :: B', b.link = n ∨ Leads (A ++ t :: B) b.link)
    (hhf : hf = n ∨ Leads (A ++ t :: B) hf)
    (hed : Edited s.mem m' (A' ++ t' :: ⟨n, t.link, true⟩ :: B')) :
    ∃ L', Cut A t B n L'
      ∧ Sturdy { s with mem := m', headFree := hf } L' := by
  have hcut : Cut A t B n (A' ++ t' :: ⟨n, t.link, true⟩ :: B') := by
    unfold Cut
    rw [List.map_append, List.map_cons, List.map_cons, hA, ht, hB]
  have hsub : ∀ {p : Int}, p = n ∨ Leads (A ++ t :: B) p →
      Leads (A' ++ t' :: ⟨n, t.link, true⟩ :: B') p := by
    intro p hp
    rcases hp with rfl | hp
    · exact .inr (by simp)
    · exact hp.mono hcut.subset
  refine ⟨_, hcut, h.rebuild rfl rfl hed hcut.firstAddr_eq ?_ (hsub hhf)
    (hsub (.inr h.largest)) (hsub (.inr h.secondLargest))⟩
  intro b hb
  rcases List.mem_append.mp hb with hb | hb
  · exact hsub (hlinks b (by simp [hb]))
  · rcases List.mem_cons.mp hb with rfl | hb
    · exact hsub (hlinks b (by simp))
    · rcases List.mem_cons.mp hb with rfl | hb
      · exact hsub (.inr (h.links t (by simp)))
      · exact hsub (hlinks b (by simp [hb]))

/-- The new header is on the chain once the block in front of it leads to
it, whichever block got a `next_free` in between. -/
theorem Sturdy.cut (h : Sturdy s (A ++ t :: B)) (hq : Leads (A ++ t :: B) q)
    (hlo : t.addr + 40 ≤ n) (hhi : ∀ b ∈ B, n + 40 ≤ b.addr)
    (hhead : newHeader s t.addr n = some s₁)
    (hlink : linkNew s₁ t.addr q n = some s₂) :
    ∃ L', Cut A t B n L' ∧ Sturdy s₂ L' := by
  obtain ⟨m₁, rfl, hm⟩ := newHeader_eq h.chain hlo hhi hhead
  unfold linkNew at hlink
  split at hlink
  case isFalse =>
    simp only [Option.bind_eq_bind, Option.bind_some] at hlink
    obtain ⟨-, rfl⟩ := State.store_eq_some hlink
    exact h.grown rfl rfl rfl (fun b hb => .inr (h.links b hb)) (.inl rfl)
      (hm.insert h.chain hlo hhi rfl rfl h.chain rfl rfl rfl rfl
        (fun _ hy => hy) fun _ _ => rfl)
  case isTrue hne =>
    obtain ⟨s₃, hs₃, hs₄⟩ := Option.bind_eq_some_iff.mp hlink
    obtain ⟨-, rfl⟩ := State.store_eq_some hs₃
    obtain ⟨-, rfl⟩ := State.store_eq_some hs₄
    obtain ⟨D, d, E, hL, rfl⟩ := hq.ne_null hne
    have hc := h.chain
    rw [hL] at hc
    have hput := hc.setLink n
    obtain ⟨A', t', B', hL', ht', hA', hB'⟩ := split_of_addrs
      (L := D ++ { d with link := n } :: E) (A := A) (t := t) (B := B) (by
        rw [hL, List.map_append, List.map_append, List.map_cons,
          List.map_cons])
    rw [hL'] at hput
    have hlinks : ∀ b ∈ A' ++ t' :: B',
        b.link = n ∨ Leads (A ++ t :: B) b.link := by
      rw [← hL']
      intro b hb
      rcases List.mem_append.mp hb with hD | hb
      · exact .inr (h.links b (by simp [hL, hD]))
      · rcases List.mem_cons.mp hb with rfl | hE
        · exact .inl rfl
        · exact .inr (h.links b (by simp [hL, hE]))
    have hd : d ∈ A ++ t :: B := by simp [hL]
    exact h.grown ht' hA' hB' hlinks (.inr h.headFree)
      (hm.insert h.chain hlo hhi ht' hB' hput rfl rfl rfl rfl
        (fun y hy => Words.put_word_congr hy) fun y hy =>
          Words.put_word_ne (link_outside h.chain hlo hhi hd hy))

-- ============================================================= Mem_Alloc

/-- No header has gone. -/
def Grown (L L' : List Block) : Prop :=
  L.map Lib.Cell.addr ⊆ L'.map Lib.Cell.addr

theorem Sturdy.splitBlock (h : Sturdy s (A ++ t :: B))
    (hc : Found s (A ++ t :: B) choice) (hblock : choice.nextToAllocate = t.addr)
    (hsize : 8 ≤ size)
    (hhi : ∀ b ∈ B, t.addr + BLOCK_HEADER + size + 40 ≤ b.addr)
    (hrun : Heap.splitBlock s choice size = some s') :
    ∃ L', Grown (A ++ t :: B) L' ∧ Sturdy s' L' := by
  unfold Heap.splitBlock at hrun
  rw [hblock] at hrun
  simp only [Option.bind_eq_bind, Option.bind_eq_some_iff] at hrun
  obtain ⟨s₁, hhead, s₂, hlink, sizeOfNew, -, sizeOfSecond, -, next, -, hrun⟩ :=
    hrun
  obtain rfl := Option.some.inj hrun
  obtain ⟨L', hcut, h₂⟩ := h.cut hc.prev (by unfold BLOCK_HEADER; omega) hhi
    hhead hlink
  have hnew : Leads L' (t.addr + BLOCK_HEADER + size) := by
    right
    rw [hcut]
    simp
  refine ⟨L', hcut.subset, ?_⟩
  split <;> split
  · exact h₂.globals rfl rfl rfl h₂.headFree hnew h₂.secondLargest
  · exact h₂.globals rfl rfl rfl h₂.headFree h₂.secondLargest (leads_null L')
  · exact h₂.globals rfl rfl rfl h₂.headFree hnew h₂.secondLargest
  · exact h₂.globals rfl rfl rfl h₂.headFree h₂.secondLargest (leads_null L')

theorem Sturdy.takeWhole (h : Sturdy s L)
    (hin : choice.nextToAllocate ∈ L.map Lib.Cell.addr)
    (hrun : Heap.takeWhole s choice size = some s') : Sturdy s' L := by
  unfold Heap.takeWhole at hrun
  simp only [Option.bind_eq_bind, Option.bind_eq_some_iff] at hrun
  obtain ⟨nextFree, hnext, next, -, hrun⟩ := hrun
  have hfree := h.nextFree hin hnext
  obtain rfl := Option.some.inj hrun
  split <;> split
  · exact h.globals rfl rfl rfl hfree h.secondLargest (leads_null L)
  · exact h.globals rfl rfl rfl h.headFree h.secondLargest (leads_null L)
  · exact h.globals rfl rfl rfl hfree h.secondLargest (leads_null L)
  · exact h.globals rfl rfl rfl h.headFree h.secondLargest (leads_null L)

/-- `Mem_Alloc` returns `NULL` or the bytes behind a header of the chain,
and the chain has lost no header. -/
theorem Sturdy.memAlloc (h : Sturdy s L) (hlo : 1 ≤ size)
    (hhi : size ≤ 2147483640)
    (hrun : Heap.memAlloc fuel s size = some (p, s')) :
    (p ≠ NULL → getHeader p ∈ L.map Lib.Cell.addr)
      ∧ ∃ L', Grown L L' ∧ Sturdy s' L' := by
  unfold Heap.memAlloc at hrun
  split at hrun
  case isTrue => cases hrun
  case isFalse =>
    split at hrun
    case isTrue =>
      obtain ⟨rfl, rfl⟩ := Prod.mk.inj (Option.some.inj hrun)
      exact ⟨fun hp => absurd rfl hp, L, List.Subset.refl _,
        h.globals rfl rfl rfl h.headFree h.largest h.secondLargest⟩
    case isFalse =>
      obtain ⟨choice, hsearch, hrun⟩ := Option.bind_eq_some_iff.mp hrun
      have hc := h.search hsearch
      unfold takeBlock at hrun
      simp only [Option.bind_eq_bind] at hrun
      split at hrun
      case isTrue =>
        obtain ⟨rfl, rfl⟩ := Prod.mk.inj (Option.some.inj hrun)
        exact ⟨fun hp => absurd rfl hp, L, List.Subset.refl _,
          h.globals rfl rfl rfl h.headFree hc.largest hc.secondLargest⟩
      case isFalse hsome =>
        obtain ⟨hin, k, hk, hsize⟩ := hc.block hsome
        -- the cached pointers are set first
        have h₀ : Sturdy { s with
            largest := choice.largest
            secondLargest := choice.secondLargest } L :=
          h.globals rfl rfl rfl h.headFree hc.largest hc.secondLargest
        have hc₀ : Found { s with
            largest := choice.largest
            secondLargest := choice.secondLargest } L choice :=
          ⟨hc.largest, hc.secondLargest, hc.prev, hc.block⟩
        obtain ⟨next, hnext, hrun⟩ := Option.bind_eq_some_iff.mp hrun
        have htaken : ∃ s₁ L₁, Grown L L₁ ∧ Sturdy s₁ L₁
            ∧ (do let s ← s₁.setNextFree choice.nextToAllocate NULL
                  let s ← s.setStatus choice.nextToAllocate ALLOCATED
                  some (choice.nextToAllocate + BLOCK_HEADER,
                    { s with
                      remainingSize := Lib.i64 (s.remainingSize - size) }))
              = some (p, s') := by
          split at hrun
          case isTrue hsplits =>
            obtain ⟨s₁, hbranch, hrun⟩ := Option.bind_eq_some_iff.mp hrun
            obtain ⟨A, t, B, rfl, haddr⟩ := exists_block hin
            rw [haddr] at hnext hk
            rw [State.next_eq h₀.chain] at hnext
            obtain rfl := Option.some.inj hnext
            rw [getBlockSize_eq h.chain] at hk
            obtain rfl := Option.some.inj hk
            obtain ⟨hge, -, height⟩ := roundTo_block hlo hhi
            obtain ⟨L₁, hgrown, h₁⟩ := h₀.splitBlock hc₀ haddr (by omega)
              (h.chain.room h.small hsize hsplits).1 hbranch
            exact ⟨s₁, L₁, hgrown, h₁, hrun⟩
          case isFalse =>
            obtain ⟨s₁, hbranch, hrun⟩ := Option.bind_eq_some_iff.mp hrun
            exact ⟨s₁, L, List.Subset.refl _, h₀.takeWhole hin hbranch, hrun⟩
        obtain ⟨s₁, L₁, hgrown, h₁, hrun⟩ := htaken
        -- the last two writes
        simp only [Option.bind_eq_bind, Option.bind_eq_some_iff] at hrun
        obtain ⟨s₂, hs₂, s₃, hs₃, hrun⟩ := hrun
        obtain ⟨rfl, rfl⟩ := Prod.mk.inj (Option.some.inj hrun)
        obtain ⟨L₂, haddrs₂, h₂⟩ := h₁.setNextFree (hgrown hin)
          (leads_null L₁) hs₂
        obtain ⟨L₃, haddrs₃, h₃⟩ := h₂.setStatus (haddrs₂ ▸ hgrown hin) false
          hs₃
        refine ⟨fun _ => ?_, L₃, ?_, h₃.globals rfl rfl rfl h₃.headFree
          h₃.largest h₃.secondLargest⟩
        · unfold getHeader
          rw [Int.add_sub_cancel]
          exact hin
        · unfold Grown
          rw [haddrs₃, haddrs₂]
          exact hgrown

-- ============================================================== Mem_Free

/-- `enlist` with a link to set, or without. -/
theorem Sturdy.enlist (h : Sturdy s L) (hp : p ∈ L.map Lib.Cell.addr)
    (hrun : Heap.enlist fuel s p true = some s') :
    ∃ L', L'.map Lib.Cell.addr = L.map Lib.Cell.addr ∧ Sturdy s' L' := by
  unfold Heap.enlist at hrun
  simp only [Option.bind_eq_bind, if_true] at hrun
  obtain ⟨prev, hprev, hrun⟩ := Option.bind_eq_some_iff.mp hrun
  obtain ⟨prevFree, hwalk, hrun⟩ := Option.bind_eq_some_iff.mp hrun
  have hq := h.nearestFree _ _ _ (h.prev hp hprev) hwalk
  split at hrun
  case isTrue hne =>
    have hin := hq.resolve_left hne
    obtain ⟨nextFree, hnext, hrun⟩ := Option.bind_eq_some_iff.mp hrun
    obtain ⟨s₁, hs₁, hs₂⟩ := Option.bind_eq_some_iff.mp hrun
    obtain ⟨L₁, haddrs₁, h₁⟩ := h.setNextFree hp (h.nextFree hin hnext) hs₁
    obtain ⟨L₂, haddrs₂, h₂⟩ := h₁.setNextFree (haddrs₁ ▸ hin)
      (.inr (haddrs₁ ▸ hp)) hs₂
    exact ⟨L₂, haddrs₂.trans haddrs₁, h₂⟩
  case isFalse =>
    obtain ⟨s₁, hs₁, hs₂⟩ := Option.bind_eq_some_iff.mp hrun
    obtain rfl := Option.some.inj hs₂
    obtain ⟨L₁, haddrs₁, h₁⟩ := h.setNextFree hp h.headFree hs₁
    exact ⟨L₁, haddrs₁, h₁.globals rfl rfl rfl (.inr (haddrs₁ ▸ hp))
      h₁.largest h₁.secondLargest⟩

theorem Sturdy.recache (h : Sturdy s L) (hp : p ∈ L.map Lib.Cell.addr)
    (hrun : Heap.recache s p = some s') : Sturdy s' L := by
  unfold Heap.recache at hrun
  split at hrun
  case isTrue =>
    simp only [Option.bind_eq_bind, Option.bind_eq_some_iff] at hrun
    obtain ⟨size, -, sizeOfLargest, -, hrun⟩ := hrun
    split at hrun
    case isTrue =>
      obtain rfl := Option.some.inj hrun
      exact h.globals rfl rfl rfl h.headFree (.inr hp) h.largest
    case isFalse =>
      simp only [Option.bind_eq_some_iff] at hrun
      obtain ⟨sizeOfSecond, -, hrun⟩ := hrun
      obtain rfl := Option.some.inj hrun
      split
      · exact h.globals rfl rfl rfl h.headFree h.largest (.inr hp)
      · exact h
  case isFalse => exact Option.some.inj hrun ▸ h

/-- `Mem_Free(ptr, 0)` moves no header. -/
theorem Sturdy.memFree (h : Sturdy s L) (hne : p ≠ NULL)
    (hp : getHeader p ∈ L.map Lib.Cell.addr) {r : Int}
    (hrun : Heap.memFree fuel s p 0 = some (r, s')) :
    ∃ L', L'.map Lib.Cell.addr = L.map Lib.Cell.addr ∧ Sturdy s' L' := by
  unfold Heap.memFree pendingCoalesce at hrun
  rw [if_neg hne, if_neg (fun hz => hz.2 rfl)] at hrun
  simp only [Option.bind_eq_bind, Option.bind_some, if_true] at hrun
  obtain ⟨valid, -, hrun⟩ := Option.bind_eq_some_iff.mp hrun
  have h₀ : Sturdy { s with needGlobalCoalesce := TRUE } L :=
    h.globals rfl rfl rfl h.headFree h.largest h.secondLargest
  split at hrun
  case isFalse =>
    obtain ⟨-, rfl⟩ := Prod.mk.inj (Option.some.inj hrun)
    exact ⟨L, rfl, h₀⟩
  case isTrue =>
    unfold freeBlock at hrun
    simp only [Option.bind_eq_bind] at hrun
    obtain ⟨toFreeSize, -, hrun⟩ := Option.bind_eq_some_iff.mp hrun
    split at hrun
    case isTrue =>
      obtain ⟨-, rfl⟩ := Prod.mk.inj (Option.some.inj hrun)
      exact ⟨L, rfl, h₀⟩
    case isFalse =>
      simp only [Option.bind_eq_some_iff] at hrun
      obtain ⟨s₁, hgive, ⟨q, flag, s₂⟩, hmerge, s₃, hstatus, s₄, hlist, s₅,
        hre, hrun⟩ := hrun
      obtain ⟨-, rfl⟩ := Prod.mk.inj (Option.some.inj hrun)
      -- the ledger lines
      have h₁ : Sturdy s₁ L := by
        unfold giveBack at hgive
        simp only [Option.bind_eq_bind, Option.bind_eq_some_iff] at hgive
        obtain ⟨status, -, hgive⟩ := hgive
        split at hgive
        case isTrue =>
          obtain ⟨next, -, hgive⟩ := Option.bind_eq_some_iff.mp hgive
          split at hgive
          all_goals
            obtain rfl := Option.some.inj hgive
            exact h₀.globals rfl rfl rfl h₀.headFree h₀.largest
              h₀.secondLargest
        case isFalse => exact Option.some.inj hgive ▸ h₀
      unfold coalesceFreed at hmerge
      rw [if_neg (not_not.mpr rfl)] at hmerge
      obtain ⟨rfl, hrest⟩ := Prod.mk.inj (Option.some.inj hmerge)
      obtain ⟨rfl, rfl⟩ := Prod.mk.inj hrest
      obtain ⟨L₃, haddrs₃, h₃⟩ := h₁.setStatus hp true hstatus
      obtain ⟨L₄, haddrs₄, h₄⟩ := h₃.enlist (haddrs₃ ▸ hp) hlist
      have haddrs := haddrs₄.trans haddrs₃
      exact ⟨L₄, haddrs, h₄.recache (haddrs ▸ hp) hre⟩

-- =============================================================== all runs

/-- What a client does that writes wherever it likes. A pointer that it got
twice it has to free twice. -/
def stepAnywhere : Act → Config → Option Config
  | .alloc fuel size, c => step (.alloc fuel size) c
  | .free fuel ptr coalesce, c =>
      if ptr ∈ c.live.map Prod.fst then do
        let (_, heap) ← memFree fuel c.heap ptr coalesce
        some ⟨heap, c.live.eraseP fun q => q.1 = ptr⟩
      else none
  | .write a v, c => do
      let heap ← c.heap.store a v
      some { c with heap }

/-- Runs start with `Mem_Init(N)`, which faults unless `mmap` returns a
multiple of eight, as any page's address is. -/
def clientAnywhere (N : Int) : System Config Act where
  start := (client fun _ size => size = N ∧ 1 ≤ N ∧ N ≤ 2 ^ 28).start
  step := stepAnywhere

/-- The client asks for at most `N` bytes, frees without coalescing, and
writes over no header. -/
def SparesHeaders (N : Int) : Act → Config → Prop
  | .alloc _ size, _ => size ≤ N
  | .free _ ptr coalesce, _ => ptr ≠ NULL ∧ coalesce = 0
  | .write a _, c => c.heap.globalHead + GLOBAL_SIZE ≤ a
      ∧ ∀ p, OnChain c.heap p → a + 8 ≤ p ∨ p + BLOCK_HEADER ≤ a

/-- The chain is a chain, and each pointer the client holds is the address
behind a header. -/
def Standing (N : Int) (c : Config) : Prop :=
  1 ≤ N ∧ N ≤ 2 ^ 28 ∧ ∃ L, L ≠ [] ∧ Sturdy c.heap L
    ∧ ∀ q ∈ c.live, getHeader q.1 ∈ L.map Lib.Cell.addr

variable {N : Int}

theorem Grown.ne_nil (h : Grown L L') (hL : L ≠ []) : L' ≠ [] := by
  rintro rfl
  cases L with
  | nil => exact hL rfl
  | cons b rest => cases h List.mem_cons_self

/-- A write that misses every header. -/
theorem Sturdy.write (h : Sturdy s L) {a : Int}
    (hmiss : ∀ p, OnChain s p → a + 8 ≤ p ∨ p + BLOCK_HEADER ≤ a)
    (hrun : s.store a v = some s') : Sturdy s' L := by
  obtain ⟨hmapped, rfl⟩ := State.store_eq_some hrun
  refine h.same rfl ⟨rfl, rfl, h.chain.congr rfl rfl fun b hb y hy hy' => ?_⟩
    h.links
  have hfar := hmiss b.addr ((onChain_iff h.chain h.head).mpr ⟨b, hb, rfl⟩)
  unfold BLOCK_HEADER at hfar
  exact Words.put_word_ne (by omega)

theorem Standing.step (h : Standing N c) (a : Act) (hok : SparesHeaders N a c)
    (hstep : stepAnywhere a c = some c') : Standing N c' := by
  obtain ⟨hlo, hhi, L, hL, hs, hlive⟩ := h
  cases a with
  | alloc fuel size =>
      have hle : size ≤ N := hok
      obtain ⟨hpos, p, heap, hrun, rfl⟩ := step_alloc hstep
      obtain ⟨hp, L', hgrown, hs'⟩ := hs.memAlloc hpos (by omega) hrun
      refine ⟨hlo, hhi, L', hgrown.ne_nil hL, hs', fun q hq => ?_⟩
      dsimp only at hq
      split at hq
      case isTrue => exact hgrown (hlive q hq)
      case isFalse hne =>
        rcases List.mem_cons.mp hq with rfl | hq
        · exact hgrown (hp hne)
        · exact hgrown (hlive q hq)
  | free fuel ptr coalesce =>
      obtain ⟨hne, rfl⟩ := hok
      rw [stepAnywhere] at hstep
      split at hstep
      case isFalse => cases hstep
      case isTrue hmem =>
        obtain ⟨⟨r, heap⟩, hrun, hstep⟩ := Option.bind_eq_some_iff.mp hstep
        obtain rfl := Option.some.inj hstep
        obtain ⟨q, hq, rfl⟩ := List.mem_map.mp hmem
        obtain ⟨L', haddrs, hs'⟩ := hs.memFree hne (hlive q hq) hrun
        have hgrown : Grown L L' := by
          unfold Grown
          rw [haddrs]
          exact List.Subset.refl _
        exact ⟨hlo, hhi, L', hgrown.ne_nil hL, hs', fun q' hq' =>
          hgrown (hlive q' (List.mem_of_mem_eraseP hq'))⟩
  | write a v =>
      obtain ⟨-, hmiss⟩ := hok
      rw [stepAnywhere] at hstep
      obtain ⟨heap, hstore, hstep⟩ := Option.bind_eq_some_iff.mp hstep
      obtain rfl := Option.some.inj hstep
      exact ⟨hlo, hhi, L, hL, hs.write hmiss hstore, hlive⟩

theorem reach_standing
    (h : Reach (clientAnywhere N) (SparesHeaders N) c) : Standing N c := by
  refine h.invariant ?_ fun a t t' ht hok hst => ht.step a hok hst
  intro c hstart
  obtain ⟨hlive, hready, env, s, size, ⟨-, hlo, hhi⟩, hrun⟩ := hstart
  obtain ⟨hinv, -, -⟩ := memInit_eq hrun hready
  refine ⟨hlo, hhi, [⟨c.heap.globalHead + GLOBAL_SIZE, NULL, true⟩],
    List.cons_ne_nil _ _, ?_, by rw [hlive]; exact nofun⟩
  obtain ⟨-, -, -, hl, hm⟩ := memInit_start hrun
  refine ⟨hready, hinv.mem_small, hinv.chain, hinv.head, ?_, ?_, .inl hl,
    .inl hm⟩
  · intro b hb
    obtain rfl := List.mem_singleton.mp hb
    exact leads_null _
  · rcases hinv.headFree with hnull | hfirst
    · exact .inl hnull
    · rw [hfirst]
      exact leads_addr [] _ []

/-- In a run without coalescing the headers from `head` on are a chain, and
each address that `Mem_Alloc` returns lies behind a header of it. A header
is put at a multiple of eight whatever memory would say. -/
theorem chain_grows (h : Reach (clientAnywhere N) (SparesHeaders N) c) :
    ∃ L, L ≠ [] ∧ Chain c.heap.mem L ∧ c.heap.head = firstAddr L
      ∧ ∀ fuel size, 1 ≤ size → size ≤ N →
        (∀ choice, search c.heap fuel (roundTo size BLOCK_SIZE) = some choice →
          choice.sizeToAllocate ≠ -1 →
          (choice.nextToAllocate + BLOCK_HEADER + roundTo size BLOCK_SIZE) % 8
            = 0)
        ∧ ∀ p s', memAlloc fuel c.heap size = some (p, s') → p ≠ NULL →
          OnChain c.heap (getHeader p) ∧ OnChain s' (getHeader p)
            ∧ p % 8 = 0 := by
  obtain ⟨hlo, hhi, L, hL, hs, -⟩ := reach_standing h
  have haligned : ∀ p ∈ L.map Lib.Cell.addr, p % 8 = 0 := by
    intro p hp
    obtain ⟨b, hb, rfl⟩ := List.mem_map.mp hp
    exact (hs.chain.holds b hb).aligned
  refine ⟨L, hL, hs.chain, hs.head, fun fuel size hpos hle => ⟨?_, ?_⟩⟩
  · intro choice hsearch hsome
    have hmod := haligned _ ((hs.search hsearch).block hsome).1
    obtain ⟨-, -, height⟩ := roundTo_block hpos (by omega)
    unfold BLOCK_HEADER
    omega
  · intro p s' hrun hp
    obtain ⟨hin, L', hgrown, hs'⟩ := hs.memAlloc hpos (by omega) hrun
    have hin := hin hp
    refine ⟨?_, ?_, ?_⟩
    · exact (onChain_iff hs.chain hs.head).mpr (List.mem_map.mp hin)
    · exact (onChain_iff hs'.chain hs'.head).mpr
        (List.mem_map.mp (hgrown hin))
    · have hmod := haligned _ hin
      unfold getHeader BLOCK_HEADER at hmod
      omega

/-- The theorem with one live block and one that has been freed. -/
theorem chain_grows_freed :
    ∃ c, Reach (clientAnywhere 40) (SparesHeaders 40) c
      ∧ c.live = [(65656, 8)]
      ∧ ∃ L, L ≠ [] ∧ Chain c.heap.mem L ∧ c.heap.head = firstAddr L := by
  let acts : List Act := [.alloc 9 8, .alloc 9 8, .free 9 65616 0]
  let c := (Lib.run (clientAnywhere 40) acts (opened 40)).get
    (by decide +kernel)
  have hstart : (clientAnywhere 40).start (opened 40) :=
    start_opened ⟨rfl, by decide, by decide⟩ (by decide +kernel)
      (by decide +kernel)
  have hsize : (8 : Int) ≤ 40 := by decide
  have hguard : Lib.Along (clientAnywhere 40) (SparesHeaders 40) acts
      (opened 40) :=
    ⟨hsize, fun _ _ => ⟨hsize, fun _ _ =>
      ⟨⟨by decide, rfl⟩, fun _ _ => trivial⟩⟩⟩
  have hreach : Reach (clientAnywhere 40) (SparesHeaders 40) c :=
    ⟨_, hstart, Lib.run_steps acts hguard (Option.some_get _).symm⟩
  obtain ⟨L, hL, hchain, hhead, -⟩ := chain_grows hreach
  exact ⟨c, hreach, by decide +kernel, L, hL, hchain, hhead⟩

end OperatingSystem.Heap
