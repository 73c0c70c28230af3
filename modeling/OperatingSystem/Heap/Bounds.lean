/-
The bytes that `Mem_Alloc` hands out lie inside their block.

Between two headers this is `Owns`. The last block has no header behind it,
only a recorded size, and its end is the end of the mapped region. What
makes the recorded size safe is the page budget of `Mem_Init`: four bytes
of header for each byte asked for. `Room` is that budget: with `size` bytes
recorded, the last block ends inside the region even if it is cut into
blocks of eight bytes, five times `size` from its header on. Cutting a
block keeps the budget; `my_coalesce` keeps it where `GrowsInside` says so.
-/
import OperatingSystem.Heap.Fresh

namespace OperatingSystem.Heap

open Lib (Reach Anything i32 i64)

variable {s s' : State} {A A' B B' L' : List Block} {t t' : Block}
  {c : Config} {fuel : Nat} {p size stop last sola : Int}

-- ============================================================ the budget

/-- Pages are aligned, and small next to the range of an `int`. -/
structure Paged (env : Env) : Prop where
  pos : 0 < env.pageSize
  small : env.pageSize ≤ 2 ^ 29
  aligned : env.pageSize % 8 = 0

/-- `Mem_Init(size)` is asked for at most `2 ^ 28` bytes. -/
def Bounded (env : Env) (size : Int) : Prop :=
  Paged env ∧ 1 ≤ size ∧ size ≤ 2 ^ 28

/-- No call damages the heap or the record of the last block's size. -/
def Frugal : Act → Config → Prop :=
  Guarded LastFits GrowsInside GrowsInside

/-- Block `q`, if it is the last one, can be cut into blocks of eight bytes
in front of `stop`. -/
def Room (stop last sola : Int) (q : Int × Bool) : Prop :=
  8 ≤ (if q.2 then last else sola)
    ∧ q.1 + 5 * (if q.2 then last else sola) ≤ stop

/-- The last of the blocks has room. -/
def LastRoom (stop last sola : Int) (P : List (Int × Bool)) : Prop :=
  ∀ q, P.getLast? = some q → Room stop last sola q

/-- The recorded sizes fit the region. -/
structure Fits (s : State) (L : List Block) : Prop where
  low : 0 ≤ s.lastBlockSize
  high : s.lastBlockSize < 2147483648
  room : LastRoom (s.globalHead + s.actualSize) s.lastBlockSize
    s.sizeOfLastAllocate (shapes L)

theorem lastRoom_split {X Y : List (Int × Bool)} {q : Int × Bool} :
    LastRoom stop last sola (X ++ q :: Y)
      ↔ (Y = [] → Room stop last sola q) ∧ LastRoom stop last sola Y := by
  unfold LastRoom
  rw [List.getLast?_append_cons]
  cases Y with
  | nil => simp
  | cons y rest => simp [List.getLast?_cons_cons]

theorem Resized.fits (h : Resized s s' last sola) {L : List Block}
    (hlo : 0 ≤ last) (hhi : last < 2147483648)
    (hroom : LastRoom (s.globalHead + s.actualSize) last sola (shapes L)) :
    Fits s' L := by
  obtain ⟨h₁, h₂, h₃, h₄⟩ := h
  refine ⟨h₃ ▸ hlo, h₃ ▸ hhi, ?_⟩
  rw [h₁, h₂, h₃, h₄]
  exact hroom

/-- The last block, if it is FREE, has room. -/
theorem Fits.last_free (hP : Fits s (A ++ t :: B)) (ht : t.listed = true)
    (hB : B = []) : 8 ≤ s.lastBlockSize
      ∧ t.addr + 5 * s.lastBlockSize ≤ s.globalHead + s.actualSize := by
  have hroom := hP.room
  rw [shapes_append, shapes_cons, lastRoom_split] at hroom
  have hlast := hroom.1 (hB ▸ rfl)
  unfold Room at hlast
  rw [if_pos ht] at hlast
  exact hlast

/-- What has room in the region is small. -/
theorem Inv.small_of_room (h : Inv s (A ++ t :: B))
    (hroom : t.addr + 5 * size ≤ s.globalHead + s.actualSize) :
    size < 2147483648 := by
  have hsmall := h.small
  have hlow := h.chain.mem.low
  rw [h.base] at hlow
  omega

theorem Inv.blockSize_range (h : Inv s (A ++ t :: B))
    (hlo : 0 ≤ s.lastBlockSize) (hhi : s.lastBlockSize < 2147483648) :
    0 ≤ blockSize s.lastBlockSize t B
      ∧ blockSize s.lastBlockSize t B < 2147483648 := by
  cases B with
  | nil => exact ⟨hlo, hhi⟩
  | cons b rest =>
      have hsmall := h.small
      rw [← h.size] at hsmall
      have hlow := h.chain.mem.low
      have hbehind := h.chain.behind b List.mem_cons_self
      have hhigh := (h.chain.holds b (by simp)).high
      rw [blockSize]
      omega

-- ============================================================= the steps

/-- `Mem_Init` reserves the budget. -/
theorem fits_memInit {env : Env} (hb : Bounded env size)
    (hrun : memInit env s size = some (RETURN_SUCCESS, s'))
    (hready : s'.ready) :
    Fits s' [⟨s'.globalHead + GLOBAL_SIZE, NULL, true⟩] := by
  obtain ⟨⟨hpos, hsmall, haligned⟩, hlo, hhi⟩ := hb
  obtain ⟨-, -, hlast, hactual⟩ := memInit_eq hrun hready
  obtain ⟨hge, hlt, height⟩ := roundTo_block hlo (by omega)
  have hblocks : (roundTo size BLOCK_SIZE).tdiv BLOCK_SIZE * BLOCK_HEADER
      = 4 * roundTo size BLOCK_SIZE := by
    rw [Int.tdiv_eq_ediv_of_nonneg (by omega)]
    unfold BLOCK_HEADER
    rw [show BLOCK_SIZE = 8 from rfl] at height ⊢
    omega
  rw [hblocks, GLOBAL_SIZE] at hactual
  generalize hK : roundTo size BLOCK_SIZE = K at *
  -- the region ends at a page, hence at a multiple of eight
  have hval : 4 * K + size + 48 ≤ s'.actualSize
      ∧ s'.actualSize % 8 = 0 := by
    rw [roundTo_of_range (by omega) hpos (by omega)] at hactual
    have hup := Int.lt_ediv_add_one_mul_self (4 * K + size + 48 - 1) hpos
    rw [Int.add_mul, Int.one_mul] at hup
    have hdvd : (8 : Int) ∣ s'.actualSize := by
      rw [hactual]
      have hpage := Int.dvd_of_emod_eq_zero haligned
      exact Int.dvd_add (Int.dvd_mul_of_dvd_right hpage) hpage
    exact ⟨by omega, Int.emod_eq_zero_of_dvd hdvd⟩
  refine ⟨by omega, by omega, ?_⟩
  intro q hq
  obtain rfl : (s'.globalHead + GLOBAL_SIZE, true) = q := Option.some.inj hq
  unfold Room GLOBAL_SIZE
  dsimp only
  rw [if_pos rfl]
  omega

/-- What `GrowsInside` says about the block a merge yields, if that is the
last one. -/
theorem Merges.grows (hm : Merges A t B A' t' []) (h : Inv s (A ++ t :: B))
    (hok : GrowsInside s t.addr) :
    (∀ w ∈ A.getLast?, w.listed = true →
        w.addr + 5 * (s.lastBlockSize + blockSize s.lastBlockSize t B
          + (t.addr - (w.addr + 32))) ≤ s.globalHead + s.actualSize)
      ∧ (LastTaken A →
        t.addr + 5 * (s.lastBlockSize + blockSize s.lastBlockSize t B)
          ≤ s.globalHead + s.actualSize) := by
  have hlast : firstAddr B = NULL ∨ FreeAfter s t.addr (firstAddr B)
      ∧ s.next (firstAddr B) = some NULL := by
    have hfree : ∀ x : Block, B = [x] → x.listed = true →
        FreeAfter s t.addr (firstAddr B)
          ∧ s.next (firstAddr B) = some NULL := by
      intro x hB hx
      subst hB
      refine ⟨(freeAfter_iff h.chain).mpr ⟨x, rfl, hx, rfl⟩, ?_⟩
      exact State.next_eq h.chain.shift
    cases hm with
    | neither => exact .inl rfl
    | prev => exact .inl rfl
    | next _ _ x _ hA hx => exact .inr (hfree x rfl hx)
    | both _ w _ x _ hw hx => exact .inr (hfree x rfl hx)
  obtain ⟨hprev, hnone⟩ := hok _ _ (State.next_eq h.chain)
    (getBlockSize_eq h.chain) hlast
  constructor
  · intro w hw hfree
    have := hprev w.addr ((freeBefore_iff h.chain).mpr ⟨w, hw, hfree, rfl⟩)
    unfold BLOCK_HEADER at this
    exact this
  · intro htaken
    refine hnone ?_
    intro hbefore
    obtain ⟨a, ha⟩ := hbefore
    obtain ⟨w, hw, hfree, -⟩ := (freeBefore_iff h.chain).mp ha
    rw [htaken w hw] at hfree
    cases hfree

/-- A merge that yields the last block keeps the budget. -/
theorem Merges.fits_last (hm : Merges A t B A' t' [])
    (h : Inv s (A ++ t :: B)) (hok : GrowsInside s t.addr)
    (hlo : 8 ≤ s.lastBlockSize) (hhi : s.lastBlockSize < 2147483648) :
    8 ≤ coalescedSize s.lastBlockSize A t B []
      ∧ t'.addr + 5 * coalescedSize s.lastBlockSize A t B []
        ≤ s.globalHead + s.actualSize := by
  obtain ⟨hprev, hnone⟩ := hm.grows h hok
  have hsize := h.blockSize_range (by omega) hhi
  have htaken : ∀ hA : LastTaken A,
      8 ≤ coalescedSize s.lastBlockSize A t B []
        ∧ t.addr + 5 * coalescedSize s.lastBlockSize A t B []
          ≤ s.globalHead + s.actualSize := by
    intro hA
    have := hnone hA
    rw [coalescedSize_taken hA, Lib.i64_of_range (by omega) (by omega)]
    omega
  have hfree : ∀ (D : List Block) (w : Block), A = D ++ [w] →
      w.listed = true → 8 ≤ coalescedSize s.lastBlockSize A t B []
        ∧ w.addr + 5 * coalescedSize s.lastBlockSize A t B []
          ≤ s.globalHead + s.actualSize := by
    intro D w hA hw
    subst hA
    have hgrown := hprev w List.getLast?_concat hw
    have hbefore := h.chain.before w (by simp)
    have hlow := (h.chain.holds w (by simp)).low
    have hhigh := h.chain.mem.high
    have hsmall := h.small
    rw [← h.size] at hsmall
    rw [coalescedSize_free hw, i64_sum (by omega) (by omega) hsize.1
      (by omega) (by omega) (by omega)]
    omega
  cases hm with
  | neither _ _ _ hA => exact htaken hA
  | next _ _ x _ hA => exact htaken hA
  | prev _ w _ _ hw => exact hfree _ w rfl hw
  | both _ w _ x _ hw => exact hfree _ w rfl hw

/-- A merge keeps the budget. -/
theorem Merges.fits (hm : Merges A t B A' t' B') (h : Inv s (A ++ t :: B))
    (hok : GrowsInside s t.addr) (hlo : 0 ≤ s.lastBlockSize)
    (hhi : s.lastBlockSize < 2147483648)
    (hB : LastRoom (s.globalHead + s.actualSize) s.lastBlockSize sola
      (shapes B)) (ht : B = [] → 8 ≤ s.lastBlockSize)
    (X : List (Int × Bool)) :
    0 ≤ coalescedSize s.lastBlockSize A t B B'
      ∧ coalescedSize s.lastBlockSize A t B B' < 2147483648
      ∧ LastRoom (s.globalHead + s.actualSize)
        (coalescedSize s.lastBlockSize A t B B') sola
        (X ++ (t'.addr, true) :: shapes B') := by
  -- what is behind the merged block was behind `t`
  have hB' : (B' = [] → 8 ≤ s.lastBlockSize)
      ∧ LastRoom (s.globalHead + s.actualSize) s.lastBlockSize sola
        (shapes B') := by
    have hskip : ∀ (x : Block) (D : List Block), B = x :: D →
        x.listed = true → (D = [] → 8 ≤ s.lastBlockSize)
          ∧ LastRoom (s.globalHead + s.actualSize) s.lastBlockSize sola
            (shapes D) := by
      intro x D hB' hx
      subst hB'
      rw [shapes_cons, ← List.nil_append ((x.addr, x.listed) :: shapes D),
        lastRoom_split] at hB
      refine ⟨?_, hB.2⟩
      rintro rfl
      have hroom := hB.1 rfl
      unfold Room at hroom
      rw [if_pos hx] at hroom
      exact hroom.1
    cases hm with
    | neither => exact ⟨ht, hB⟩
    | next _ _ x _ hA hx => exact hskip x _ rfl hx
    | prev => exact ⟨ht, hB⟩
    | both _ w _ x _ hw hx => exact hskip x _ rfl hx
  cases B' with
  | nil =>
      obtain ⟨hge, hend⟩ := hm.fits_last h hok (hB'.1 rfl) hhi
      have hlow : s.globalHead ≤ t'.addr := by
        rw [← h.base]
        rcases hm.front with ⟨-, haddr, -⟩ | ⟨w, rfl, -, haddr, -⟩
        · rw [haddr]
          exact h.chain.mem.low
        · rw [haddr]
          exact (h.chain.holds w (by simp)).low
      have hsmall := h.small
      refine ⟨by omega, by omega, lastRoom_split.mpr ⟨fun _ => ?_, nofun⟩⟩
      exact ⟨hge, hend⟩
  | cons b rest =>
      have hlast : coalescedSize s.lastBlockSize A t B (b :: rest)
          = s.lastBlockSize := if_neg (List.cons_ne_nil b rest)
      rw [hlast]
      exact ⟨hlo, hhi, lastRoom_split.mpr ⟨nofun, hB'.2⟩⟩

/-- The size that `Mem_Free` starts from. -/
theorem Fits.credited (hP : Fits s (A ++ t :: B)) (h : Inv s (A ++ t :: B))
    (ht : t.listed = false) {last : Int}
    (hlast : last = if B = [] then s.sizeOfLastAllocate
      else s.lastBlockSize) :
    0 ≤ last ∧ last < 2147483648 ∧ (B = [] → 8 ≤ last
        ∧ t.addr + 5 * last ≤ s.globalHead + s.actualSize)
      ∧ LastRoom (s.globalHead + s.actualSize) last
        (if B = [] then -1 else s.sizeOfLastAllocate) (shapes B) := by
  have hroom := hP.room
  rw [shapes_append, shapes_cons, lastRoom_split] at hroom
  cases B with
  | nil =>
      obtain ⟨hge, hend⟩ := hroom.1 rfl
      dsimp only at hge hend
      rw [ht, if_neg Bool.false_ne_true] at hge hend
      rw [if_pos rfl] at hlast
      subst hlast
      exact ⟨by omega, h.small_of_room hend, fun _ => ⟨hge, hend⟩, nofun⟩
  | cons b rest =>
      rw [if_neg (List.cons_ne_nil b rest)] at hlast
      rw [if_neg (List.cons_ne_nil b rest), hlast]
      exact ⟨hP.low, hP.high, nofun, hroom.2⟩

/-- Handing out a block keeps the budget. -/
theorem Fits.handsOut (hP : Fits s (A ++ t :: B))
    (hout : HandsOut s s' A t B size L') (hlast : LastFits s size) :
    Fits s' L' := by
  have hroom := hP.room
  have hlow := hP.low
  have hhigh := hP.high
  have hpos := hout.positive
  have hfits := hout.lastFits
  rw [shapes_append, shapes_cons, lastRoom_split] at hroom
  rw [Lib.i32_of_range (by omega) (by omega)] at hfits
  generalize hr : roundTo size BLOCK_SIZE = r at *
  have ht := hP.last_free hout.free
  cases hout.taken with
  | cut hhi hlast' hL hsize =>
      rw [Lib.i32_of_range (by omega) (by omega)] at hlast'
      by_cases hB : B = []
      · obtain ⟨hge, hend⟩ := ht hB
        have hroom' := hlast' hB
        rw [if_pos hB, Lib.i64_of_range (by omega) (by omega)] at hsize
        refine hsize.fits (by omega) (by omega) ?_
        rw [hL, hB, lastRoom_split, ← List.nil_append (_ :: shapes []),
          lastRoom_split]
        refine ⟨nofun, fun _ => ?_, nofun⟩
        unfold Room BLOCK_HEADER
        rw [if_pos rfl]
        dsimp only
        omega
      · rw [if_neg hB] at hsize
        refine hsize.fits hlow hhigh ?_
        rw [hL, lastRoom_split, ← List.nil_append (_ :: shapes B),
          lastRoom_split]
        refine ⟨nofun, fun hnil => absurd (List.map_eq_nil_iff.mp hnil) hB,
          hroom.2⟩
  | whole hL hsize =>
      by_cases hB : B = []
      · obtain ⟨hge, hend⟩ := ht hB
        have hroom' := hfits hB hlast
        rw [if_pos hB] at hsize
        refine hsize.fits hlow hhigh ?_
        rw [hL, hB, lastRoom_split]
        refine ⟨fun _ => ?_, nofun⟩
        unfold Room
        rw [if_neg Bool.false_ne_true]
        dsimp only
        omega
      · rw [if_neg hB] at hsize
        refine hsize.fits hlow hhigh ?_
        rw [hL, lastRoom_split]
        exact ⟨fun hnil => absurd (List.map_eq_nil_iff.mp hnil) hB, hroom.2⟩

/-- A merge of FREE blocks keeps the budget. -/
theorem Fits.pass (hP : Fits s (A ++ t :: B)) (h : Inv s (A ++ t :: B))
    (ht : t.listed = true) (hok : GrowsInside s t.addr)
    (hm : Merges A t B A' t' B')
    (hsize : Resized s s' (coalescedSize s.lastBlockSize A t B B')
      s.sizeOfLastAllocate) : Fits s' (A' ++ t' :: B') := by
  have hroom := hP.room
  rw [shapes_append, shapes_cons, lastRoom_split] at hroom
  obtain ⟨hlo, hhi, hroom'⟩ := hm.fits h hok hP.low hP.high hroom.2
    (fun hB => (hP.last_free ht hB).1) (shapes A')
  refine hsize.fits hlo hhi ?_
  rw [shapes_append, shapes_cons, hm.listed ht]
  exact hroom'

/-- The size of a block on the way to `my_coalesce`. -/
theorem Fits.freedState (hP : Fits s (A ++ t :: B)) (h : Inv s (A ++ t :: B))
    (ht : t.listed = false) :
    ∃ s₁, Heap.freedState s t.addr = some s₁ ∧ Credited s s₁
      ∧ s₁.lastBlockSize
        = (if B = [] then s.sizeOfLastAllocate else s.lastBlockSize) := by
  obtain ⟨s₁, hgive, hs₁, hlast, -⟩ := giveBack_eq h.chain ht
    (blockSize s.lastBlockSize t B)
  have hsize := (h.blockSize_range hP.low hP.high).1
  have hne : blockSize s.lastBlockSize t B ≠ RETURN_WITH_ERROR := by
    unfold RETURN_WITH_ERROR
    omega
  refine ⟨s₁, ?_, hs₁, hlast⟩
  rw [Heap.freedState, getBlockSize_eq h.chain, Option.bind_eq_bind,
    Option.bind_some, if_neg hne]
  exact hgive

/-- `Mem_Free` keeps the budget. -/
theorem Fits.freed {coalesce : Int} (hP : Fits s (A ++ t :: B))
    (h : Inv s (A ++ t :: B)) (ht : t.listed = false)
    (hok : coalesce ≠ 0 → ∀ s₁, Heap.freedState s t.addr = some s₁ →
      GrowsInside s₁ t.addr)
    (hm : MergesIf coalesce A t B A' t' B')
    (hL : shapes L' = shapes A' ++ (t'.addr, true) :: shapes B')
    (hsize : Resized s s' (freedSize s coalesce A t B B')
      (if B = [] then -1 else s.sizeOfLastAllocate)) : Fits s' L' := by
  unfold freedSize at hsize
  rcases hm with ⟨hzero, rfl, rfl, rfl⟩ | ⟨hzero, hm⟩
  · obtain ⟨hlo, hhi, hend, hroom⟩ := hP.credited h ht rfl
    rw [if_pos hzero] at hsize
    refine hsize.fits hlo hhi ?_
    rw [hL, lastRoom_split]
    exact ⟨fun hnil => hend (List.map_eq_nil_iff.mp hnil), hroom⟩
  · obtain ⟨s₁, hfreed, hs₁, hlast⟩ := hP.freedState h ht
    obtain ⟨hlo, hhi, hend, hroom⟩ := hP.credited h ht hlast
    rw [← hs₁.globalHead, ← hs₁.actualSize] at hroom
    obtain ⟨hlo', hhi', hroom'⟩ := hm.fits (h.credited hs₁)
      (hok hzero s₁ hfreed) hlo hhi hroom (fun hB => (hend hB).1) (shapes A')
    rw [if_neg hzero, ← hlast] at hsize
    refine hsize.fits hlo' hhi' ?_
    rw [hL, ← hs₁.globalHead, ← hs₁.actualSize]
    exact hroom'

theorem keeps_fits : Keeps Fits LastFits GrowsInside GrowsInside where
  same hP hsize := hsize.fits hP.low hP.high hP.room
  pass h hP ht hok hm hsize := hP.pass h ht hok hm hsize
  range h hP ht hfreed _ := by
    obtain ⟨s₁, hfreed', -, hlast⟩ := hP.freedState h ht
    obtain rfl := Option.some.inj (hfreed'.symm.trans hfreed)
    obtain ⟨hlo, hhi, -⟩ := hP.credited h ht hlast
    exact ⟨hlo, by omega⟩
  freed h hP ht hok hm hL hsize := hP.freed h ht hok hm hL hsize
  alloc _ hP hok hout := hP.handsOut hout hok

-- ======================================================= inside the block

/-- The bytes that are handed out end inside the mapped region. -/
theorem HandsOut.end_le (hout : HandsOut s s' A t B size L')
    (h : Inv s (A ++ t :: B)) (hP : Fits s (A ++ t :: B))
    (hlast : LastFits s size) :
    t.addr + BLOCK_HEADER + size ≤ s.globalHead + s.actualSize := by
  have hge := hout.rounds
  have hpos := hout.positive
  cases B with
  | nil =>
      have hlow := hP.low
      have hhigh := hP.high
      have hfits := hout.lastFits rfl hlast
      rw [Lib.i32_of_range (by omega) (by omega)] at hfits
      have hroom := hP.last_free hout.free rfl
      unfold BLOCK_HEADER
      omega
  | cons b rest =>
      have hfits := hout.fits b List.mem_cons_self
      have hhigh := (h.chain.holds b (by simp)).high
      rw [h.base, h.size] at hhigh
      omega

/-- In a run of frugal calls the bytes from the returned address on end no
later than the next header, or than the mapped region. -/
theorem inside_block (h : Reach (client Bounded) Frugal c) (hsize : 1 ≤ size)
    (hok : Frugal (.alloc fuel size) c)
    (hrun : memAlloc fuel c.heap size = some (p, s')) (hp : p ≠ NULL) :
    ∃ next, s'.next (getHeader p) = some next
      ∧ p + size ≤ if next = NULL then s'.globalHead + s'.actualSize
        else next := by
  obtain ⟨L, hinv, hP, -⟩ := keeps_fits.sound
    (fun _ _ _ _ hb hrun hready => fits_memInit hb hrun hready) h
  rcases memAlloc_eq hinv hsize (fun hle => (hok hle).1) hrun with
    ⟨rfl, -⟩ | ⟨A, t, B, L', rfl, rfl, hout⟩
  · exact absurd rfl hp
  have hlast := (hok hout.served).2
  obtain ⟨a, ha, haq, hend⟩ := hout.taken.owns_new hinv.chain hout.rounds
    hout.fits
  obtain ⟨A', t', B', rfl, heq⟩ := mem_shapes ha
  obtain ⟨rfl, -⟩ := Prod.mk.inj heq
  have hheader : getHeader (t.addr + BLOCK_HEADER) = t'.addr := by
    dsimp only at haq
    rw [getHeader, ← haq]
    omega
  refine ⟨firstAddr B', ?_, ?_⟩
  · rw [hheader]
    exact State.next_eq hout.inv.chain
  · cases B' with
    | nil =>
        rw [firstAddr_nil, if_pos rfl]
        obtain ⟨hbase, hregion⟩ := hout.taken.region
        rw [hbase, hregion]
        exact hout.end_le hinv hP hlast
    | cons b rest =>
        have hb : Holds s'.mem b := hout.inv.chain.holds b (by simp)
        have hbehind := hout.inv.chain.behind b List.mem_cons_self
        rw [firstAddr_cons, if_neg hb.ne_null]
        exact hend (b.addr, b.listed) (List.mem_map_of_mem (by simp))
          (by dsimp only; omega)

/-- The theorem where the last request follows an allocation and a
`Mem_Free`. -/
theorem inside_block_again : ∃ c s',
    Lib.run (client Bounded) [.alloc 9 8, .free 9 65616 0] (opened 40) = some c
      ∧ memAlloc 9 c.heap 8 = some (65656, s')
      ∧ ∃ next, s'.next (getHeader 65656) = some next
        ∧ 65656 + 8 ≤ if next = NULL then s'.globalHead + s'.actualSize
          else next := by
  let acts : List Act := [.alloc 9 8, .free 9 65616 0]
  let c := (Lib.run (client Bounded) acts (opened 40)).get (by decide +kernel)
  have hrun : Lib.run (client Bounded) acts (opened 40) = some c :=
    (Option.some_get _).symm
  have hreach : Reach (client Bounded) Frugal c := by
    refine ⟨_, start_opened ⟨⟨by decide, by decide, by decide⟩, by decide,
      by decide⟩ (by decide +kernel) (by decide +kernel),
      Lib.run_steps acts ⟨fun _ => ?_, fun _ _ =>
        ⟨freeOk_zero, fun _ _ => trivial⟩⟩ hrun⟩
    exact allocOk_of_search (by decide) (by decide +kernel) (by decide +kernel)
  have hok : Frugal (.alloc 9 8) c := fun _ =>
    allocOk_of_search (by decide) (by decide +kernel) (by decide +kernel)
  let r := (memAlloc 9 c.heap 8).get (by decide +kernel)
  have hr : memAlloc 9 c.heap 8 = some (65656, r.2) := by
    have hfst : r.1 = 65656 := by decide +kernel
    rw [← hfst]
    exact (Option.some_get _).symm
  exact ⟨c, r.2, hrun, hr, inside_block hreach (by decide) hok hr (by decide)⟩

/-- The second request of 16 bytes gets the cached largest block, of 8
bytes. -/
theorem overruns_header : ¬∀ (c : Config) (fuel : Nat) (size p : Int)
    (s' : State), Reach (client Bounded) Anything c → 1 ≤ size →
    memAlloc fuel c.heap size = some (p, s') → p ≠ NULL →
    ∃ next, s'.next (getHeader p) = some next
      ∧ p + size ≤ if next = NULL then s'.globalHead + s'.actualSize
        else next := by
  intro hall
  let c := (Lib.run (client Bounded) [.alloc 9 8, .alloc 9 8, .alloc 9 24,
    .free 9 65616 0, .free 9 65656 0, .alloc 9 16] (opened 40)).get
    (by decide +kernel)
  have hreach : Reach (client Bounded) Anything c :=
    Lib.reach_of_run _
      (start_opened ⟨⟨by decide, by decide, by decide⟩, by decide, by decide⟩
        (by decide +kernel) (by decide +kernel))
      (Option.some_get _).symm
  let r := (memAlloc 9 c.heap 16).get (by decide +kernel)
  obtain ⟨next, hnext, hle⟩ := hall c 9 16 r.1 r.2 hreach (by decide)
    (Option.some_get _).symm (by decide +kernel)
  have hread : r.2.next (getHeader r.1) = some (r.1 + 8) := by decide +kernel
  obtain rfl := Option.some.inj (hnext.symm.trans hread)
  have hne : r.1 + 8 ≠ NULL := by decide +kernel
  rw [if_neg hne] at hle
  omega

end OperatingSystem.Heap
