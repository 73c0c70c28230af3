/-
A client and the allocator, and what their guarded runs keep.

# The client

It asks for at least one byte, frees `NULL` or an address it was given and
has not freed since, and writes words that hold a byte it asked for. A call
that faults or does not return ends the run: its label is disabled.

# The guard

`Guarded okAlloc okPass okFreed` asks of every call that it takes none of
the branches that damage the heap (`Heap.Guard`), plus what a theorem wants
to know about sizes. `Keeps` says that a condition on a state and its chain
survives such calls; `Keeps.sound` is the run rule.
-/
import OperatingSystem.Heap.Alloc
import OperatingSystem.Heap.Free
import OperatingSystem.Lib.Transition

namespace OperatingSystem.Heap

open Lib (Words System Reach firstListed Threaded)

-- ============================================================ the system

/-- The allocator's state, and the allocations the client has not freed:
address and number of bytes. -/
structure Config where
  heap : State
  live : List (Int × Int)

/-- What the client does next. -/
inductive Act
  | alloc (fuel : Nat) (size : Int)
  | free (fuel : Nat) (ptr coalesce : Int)
  | write (a v : Int)

def step : Act → Config → Option Config
  | .alloc fuel size, c =>
      if 1 ≤ size then do
        let (p, heap) ← memAlloc fuel c.heap size
        some ⟨heap, if p = NULL then c.live else (p, size) :: c.live⟩
      else none
  | .free fuel ptr coalesce, c =>
      if ptr = NULL ∨ ptr ∈ c.live.map Prod.fst then do
        let (_, heap) ← memFree fuel c.heap ptr coalesce
        some ⟨heap, c.live.filter fun q => q.1 ≠ ptr⟩
      else none
  | .write a v, c =>
      if ∃ q ∈ c.live, q.1 < a + 8 ∧ a < q.1 + q.2 then do
        let heap ← c.heap.store a v
        some { c with heap }
      else none

/-- Runs start with a `Mem_Init` that succeeds, in an environment and for a
size that meet `starts`. `ready`: `mmap` maps nothing at `NULL`. -/
def client (starts : Env → Int → Prop) : System Config Act where
  start c := c.live = [] ∧ c.heap.ready ∧ ∃ env s size, starts env size
    ∧ memInit env s size = some (RETURN_SUCCESS, c.heap)
  step := step

/-- The guard of a run. A request for more bytes than are left is refused
at once. -/
def Guarded (okAlloc okPass okFreed : State → Int → Prop) :
    Act → Config → Prop
  | .alloc fuel size, c => size ≤ c.heap.remainingSize →
      AllocOk fuel c.heap size ∧ okAlloc c.heap size
  | .free fuel ptr coalesce, c =>
      FreeOk fuel c.heap okPass okFreed ptr coalesce
  | .write _ _, _ => True

/-- Condition `P` on a state and its chain goes through guarded calls. -/
structure Keeps (P : State → List Block → Prop)
    (okAlloc okPass okFreed : State → Int → Prop) : Prop extends
    Carries P okPass okFreed where
  alloc : ∀ {s s' A t B size L'}, Inv s (A ++ t :: B) → P s (A ++ t :: B) →
    okAlloc s size → HandsOut s s' A t B size L' → P s' L'

/-- The allocator is in order, `P` holds, and the client's allocations have
their blocks. -/
def Sound (P : State → List Block → Prop) (c : Config) : Prop :=
  ∃ L, Inv c.heap L ∧ P c.heap L ∧ ∀ q ∈ c.live, Owns L q

variable {s s' : State} {c c' : Config} {L : List Block} {env : Env}
  {starts : Env → Int → Prop} {P : State → List Block → Prop}
  {okAlloc okPass okFreed : State → Int → Prop} {size : Int}

-- ====================================================== what a step does

theorem step_alloc {fuel : Nat} (h : step (.alloc fuel size) c = some c') :
    1 ≤ size ∧ ∃ p heap, memAlloc fuel c.heap size = some (p, heap)
      ∧ c' = ⟨heap, if p = NULL then c.live else (p, size) :: c.live⟩ := by
  rw [step] at h
  split at h
  case isFalse => cases h
  case isTrue hpos =>
    obtain ⟨⟨p, heap⟩, hrun, h⟩ := Option.bind_eq_some_iff.mp h
    exact ⟨hpos, p, heap, hrun, (Option.some.inj h).symm⟩

theorem step_free {fuel : Nat} {ptr coalesce : Int}
    (h : step (.free fuel ptr coalesce) c = some c') :
    (ptr = NULL ∨ ptr ∈ c.live.map Prod.fst)
      ∧ ∃ r heap, memFree fuel c.heap ptr coalesce = some (r, heap)
        ∧ c' = ⟨heap, c.live.filter fun q => q.1 ≠ ptr⟩ := by
  rw [step] at h
  split at h
  case isFalse => cases h
  case isTrue hptr =>
    obtain ⟨⟨r, heap⟩, hrun, h⟩ := Option.bind_eq_some_iff.mp h
    exact ⟨hptr, r, heap, hrun, (Option.some.inj h).symm⟩

theorem step_write {a v : Int} (h : step (.write a v) c = some c') :
    (∃ q ∈ c.live, q.1 < a + 8 ∧ a < q.1 + q.2)
      ∧ ∃ heap, c.heap.store a v = some heap ∧ c' = { c with heap } := by
  rw [step] at h
  split at h
  case isFalse => cases h
  case isTrue hin =>
    obtain ⟨heap, hstore, h⟩ := Option.bind_eq_some_iff.mp h
    exact ⟨hin, heap, hstore, (Option.some.inj h).symm⟩

-- =========================================================== initially

/-- The four writes of `Mem_Init` make a chain. -/
theorem chain_init {m : Words} {p w : Int} (hpos : 0 < p)
    (hlow : m.Mapped p) (hhigh : m.Mapped (p + 24)) :
    Chain ((((m.put p NULL).put (p + 8) NULL).put (p + 16) NULL).put (p + 24)
      (Lib.withLow w FREE)) [⟨p, NULL, true⟩] := by
  have hend := hhigh.2.1
  have hlink : ((((m.put p NULL).put (p + 8) NULL).put (p + 16) NULL).put
      (p + 24) (Lib.withLow w FREE)).word (p + 16) = NULL := by
    rw [Words.put_word_ne (by omega), Words.put_word_self]
  constructor
  case linked =>
    refine ⟨?_, ?_, trivial⟩
    · dsimp only
      rw [Words.put_word_ne (by omega), Words.put_word_ne (by omega),
        Words.put_word_ne (by omega), Words.put_word_self]
      rfl
    · dsimp only
      rw [Words.put_word_ne (by omega), Words.put_word_ne (by omega),
        Words.put_word_self]
  case holds =>
    intro b hb
    obtain rfl := List.mem_singleton.mp hb
    have hhigh' : p + 32 ≤ m.base + m.size := by omega
    refine ⟨hpos, hlow.1, hhigh', hlow.2.2, hlink, ?_⟩
    · rw [Words.put_word_self]
      exact Lib.i32_withLow (by decide) (by decide)
  case spaced => exact List.pairwise_singleton _ _

/-- A `Mem_Init` that succeeds leaves one FREE block behind
`*global_head`. -/
theorem memInit_eq (h : memInit env s size = some (RETURN_SUCCESS, s'))
    (hready : s'.ready) :
    Inv s' [⟨s'.globalHead + GLOBAL_SIZE, NULL, true⟩]
      ∧ s'.headFree = s'.head
      ∧ s'.lastBlockSize = roundTo size BLOCK_SIZE
      ∧ s'.actualSize = roundTo ((roundTo size BLOCK_SIZE).tdiv BLOCK_SIZE
        * BLOCK_HEADER + size + GLOBAL_SIZE) env.pageSize := by
  unfold memInit at h
  split at h
  case isTrue => cases (Prod.mk.inj (Option.some.inj h)).1
  case isFalse =>
    split at h
    case isTrue => cases (Prod.mk.inj (Option.some.inj h)).1
    case isFalse =>
      dsimp only at h
      split at h
      case h_1 => cases (Prod.mk.inj (Option.some.inj h)).1
      case h_2 base hmap =>
        simp only [State.setStatus, Option.bind_eq_bind,
          Option.bind_eq_some_iff] at h
        obtain ⟨s₁, h₁, s₂, h₂, s₃, h₃, s₄, ⟨w, hw, h₄⟩, h⟩ := h
        obtain ⟨hlow, rfl⟩ := State.store_eq_some h₁
        obtain ⟨-, rfl⟩ := State.store_eq_some h₂
        obtain ⟨-, rfl⟩ := State.store_eq_some h₃
        obtain ⟨hhigh, rfl⟩ := State.store_eq_some h₄
        obtain ⟨-, rfl⟩ := Prod.mk.inj (Option.some.inj h)
        refine ⟨?_, rfl, rfl, rfl⟩
        exact {
          ready := hready
          base := rfl
          size := rfl
          small := Lib.i32_lt _
          chain := chain_init (by unfold GLOBAL_SIZE; omega) hlow hhigh
          head := rfl
          thread := ⟨.inl rfl, trivial⟩
          headFree := .inr rfl
          cached := fun hl => absurd rfl hl }

-- ============================================================ one step

/-- The client's writes miss every header. -/
theorem Inv.write (h : Inv s L) {q : Int × Int} (hq : Owns L q) {a : Int}
    (v : Int) (ha : a % 8 = 0) (hlo : q.1 < a + 8) (hhi : a < q.1 + q.2) :
    Inv { s with mem := s.mem.put a v } L := by
  obtain ⟨p, hp, hpq, hend⟩ := hq
  have hchain : Chain (s.mem.put a v) L := by
    refine h.chain.congr rfl rfl fun b hb y hy hy' => Words.put_word_ne ?_
    obtain ⟨A, t, B, rfl, heq⟩ := mem_shapes hp
    obtain rfl : p = t.addr := congrArg Prod.fst heq
    have haligned := h.chain.mem.aligned
    unfold BLOCK_HEADER at hpq
    rcases List.mem_append.mp hb with hA | hb
    · have := h.chain.before b hA
      omega
    · rcases List.mem_cons.mp hb with rfl | hB
      · omega
      · have hbt := h.chain.behind b hB
        have := hend (b.addr, b.listed) (List.mem_map_of_mem (by simp [hB])) (by
          dsimp only
          omega)
        dsimp only at this
        omega
  exact h.rebuild ⟨rfl, rfl, rfl, rfl, rfl⟩ hchain rfl h.thread h.headFree
    h.cached

/-- One guarded step. -/
theorem Keeps.step (hK : Keeps P okAlloc okPass okFreed) (a : Act)
    (hs : Sound P c) (hok : Guarded okAlloc okPass okFreed a c)
    (hstep : step a c = some c') : Sound P c' := by
  obtain ⟨L, hinv, hP, hlive⟩ := hs
  cases a with
  | alloc fuel size =>
      obtain ⟨hlo, p, heap, hrun, rfl⟩ := step_alloc hstep
      rcases memAlloc_eq hinv hlo (fun hle => (hok hle).1) hrun with
        ⟨rfl, hinv', hsize⟩ | ⟨A, t, B, L', rfl, rfl, hout⟩
      · exact ⟨L, hinv', hK.same hP hsize, hlive⟩
      · have hne : t.addr + BLOCK_HEADER ≠ NULL := by
          have := hinv.chain.mem.pos
          unfold BLOCK_HEADER NULL
          omega
        refine ⟨L', hout.inv, hK.alloc hinv hP (hok hout.served).2 hout, ?_⟩
        dsimp only
        rw [if_neg hne]
        intro q hq
        rcases List.mem_cons.mp hq with rfl | hq
        · exact hout.taken.owns_new hinv.chain hout.rounds hout.fits
        · exact hout.taken.owns hinv.chain hout.free
            (by have := hout.positive; omega) (hlive q hq)
  | free fuel ptr coalesce =>
      obtain ⟨hptr, r, heap, hrun, rfl⟩ := step_free hstep
      have hptr' : ptr = NULL ∨ ∃ q, Owns L q ∧ q.1 = ptr := by
        refine hptr.imp_right fun hmem => ?_
        obtain ⟨q, hq, hqp⟩ := List.mem_map.mp hmem
        exact ⟨q, hlive q hq, hqp⟩
      obtain ⟨L', hinv', hP', hown⟩ := hK.memFree hinv hP hptr' hok hrun
      refine ⟨L', hinv', hP', fun q hq => ?_⟩
      obtain ⟨hq, hne⟩ := List.mem_filter.mp hq
      exact hown q (hlive q hq) (of_decide_eq_true hne)
  | write a v =>
      obtain ⟨⟨q, hq, hlo, hhi⟩, heap, hstore, rfl⟩ := step_write hstep
      obtain ⟨hmapped, rfl⟩ := State.store_eq_some hstore
      exact ⟨L, hinv.write (hlive q hq) v hmapped.2.2 hlo hhi,
        hK.same hP ⟨rfl, rfl, rfl, rfl⟩, hlive⟩

/-- The run rule: what a `Mem_Init` establishes and guarded calls keep holds
in every state a guarded run reaches. -/
theorem Keeps.sound (hK : Keeps P okAlloc okPass okFreed)
    (hinit : ∀ env s s' size, starts env size →
      memInit env s size = some (RETURN_SUCCESS, s') → s'.ready →
      P s' [⟨s'.globalHead + GLOBAL_SIZE, NULL, true⟩])
    (h : Reach (client starts) (Guarded okAlloc okPass okFreed) c) :
    Sound P c := by
  refine h.invariant ?_ fun a t t' ht hok hst => hK.step a ht hok hst
  rintro ⟨heap, live⟩ ⟨rfl, hready, env, s, size, hstart, hrun⟩
  exact ⟨_, (memInit_eq hrun hready).1, hinit env s heap size hstart hrun hready,
    nofun⟩

-- ======================================================== concrete runs

/-- Pages of 4096 bytes, and a mapping at 65536. -/
def machine : Env := ⟨4096, fun _ => some 65536⟩

/-- After `Mem_Init(size)`. -/
def opened (size : Int) : Config :=
  ⟨(memInit machine State.fresh size).elim State.fresh Prod.snd, []⟩

theorem start_opened (hstarts : starts machine size)
    (hinit : (memInit machine State.fresh size).map Prod.fst
      = some RETURN_SUCCESS)
    (hready : (opened size).heap.ready) :
    (client starts).start (opened size) := by
  refine ⟨rfl, hready, machine, State.fresh, size, hstarts, ?_⟩
  obtain ⟨⟨r, s⟩, hrun, hr⟩ := Option.map_eq_some_iff.mp hinit
  obtain rfl : r = RETURN_SUCCESS := hr
  unfold opened
  rw [hrun]
  rfl

/-- A call does no damage if the cached largest block is large enough and
the chosen one is the first on the free list or is cut. -/
theorem allocOk_of_search {fuel : Nat} (hrounds : size ≤ 2147483640)
    (hlarge : s.largest = NULL ∨ (getBlockSize s s.largest).all
      fun k => decide (roundTo size BLOCK_SIZE ≤ k))
    (hchosen : (search s fuel (roundTo size BLOCK_SIZE)).all fun c =>
      decide (c.prevFree = NULL) || (s.next c.nextToAllocate).all fun next =>
        decide (splits next c (roundTo size BLOCK_SIZE))) :
    AllocOk fuel s size ∧ LastFits s size := by
  have hfits : ∀ k, FastPath s k → roundTo size BLOCK_SIZE ≤ k := by
    intro k hfast
    have hall := hlarge.resolve_left hfast.1
    rw [hfast.2.2.1, Option.all_some] at hall
    exact of_decide_eq_true hall
  refine ⟨⟨hrounds, fun k _ hfast _ _ => hfits k hfast, ?_⟩,
    fun k hfast _ => hfits k hfast⟩
  intro c next hsearch _ hnext hwhole hprev
  rw [hsearch, Option.all_some, hnext, Option.all_some,
    Bool.or_eq_true, decide_eq_true_iff, decide_eq_true_iff] at hchosen
  rcases hchosen with hnull | hcut
  · exact absurd hnull hprev
  · exact absurd hcut hwhole

/-- A call without coalescing does none either. -/
theorem freeOk_zero {fuel : Nat} {ptr : Int} :
    FreeOk fuel s okPass okFreed ptr 0 where
  pass hzero := absurd rfl hzero
  freed hzero := absurd rfl hzero

end OperatingSystem.Heap
