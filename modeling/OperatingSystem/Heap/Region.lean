/-
The fields that only the entry points of the allocator touch.

`global_head`, `head`, `actual_size` and `m_error` are written by the first
lines of `Mem_Init` and by the failing exits, and read by `is_valid_addr`,
`Mem_Init` and the passes' starts. Everything below (the searches, the edits
of headers, the merges) computes the same whatever they hold, and hands them
on: it is blind to them. Two things follow. The mapped region stays where
`Mem_Init` has put it (`SameRegion`), and a value of `m_error` makes no
difference to any later call.
-/
import OperatingSystem.Heap.Ends
import OperatingSystem.Lib.Blind

namespace OperatingSystem.Heap

open Lib (Words Reach Blind i64)

variable {s s' : State} {p q v a size : Int} {fuel : Nat} {c : Choice}

/-- `global_head`, `head`, `actual_size` and `m_error`. -/
structure Frame where
  globalHead : Int
  head : Int
  actualSize : Int
  mError : Int

def State.frame (s : State) : Frame :=
  ⟨s.globalHead, s.head, s.actualSize, s.mError⟩

def State.withFrame (s : State) (f : Frame) : State :=
  { s with
    globalHead := f.globalHead
    head := f.head
    actualSize := f.actualSize
    mError := f.mError }

variable (f : Frame)

theorem withFrame_frame (s : State) : s.withFrame s.frame = s := rfl

@[simp] theorem frame_withFrame : (s.withFrame f).frame = f := rfl

@[simp] theorem withFrame_headFree : (s.withFrame f).headFree = s.headFree :=
  rfl

@[simp] theorem withFrame_largest : (s.withFrame f).largest = s.largest := rfl

@[simp] theorem withFrame_secondLargest :
    (s.withFrame f).secondLargest = s.secondLargest := rfl

-- ============================================================== the reads

@[simp] theorem next_blind : (s.withFrame f).next p = s.next p := rfl

@[simp] theorem prev_blind : (s.withFrame f).prev p = s.prev p := rfl

@[simp] theorem nextFree_blind : (s.withFrame f).nextFree p = s.nextFree p :=
  rfl

@[simp] theorem status_blind : (s.withFrame f).status p = s.status p := rfl

@[simp] theorem getBlockSize_blind :
    getBlockSize (s.withFrame f) p = getBlockSize s p := rfl

@[simp] theorem rank_blind :
    rank (s.withFrame f) p size c = rank s p size c := rfl

@[simp] theorem nearestFree_blind (fuel : Nat) (p : Int) :
    nearestFree (s.withFrame f) fuel p = nearestFree s fuel p := by
  induction fuel generalizing p with
  | zero => rfl
  | succ fuel ih => simp [nearestFree, ih]

@[simp] theorem scan_blind (fuel : Nat) (p q : Int) (c : Choice) :
    scan (s.withFrame f) size fuel p q c = scan s size fuel p q c := by
  induction fuel generalizing p q c with
  | zero => rfl
  | succ fuel ih => simp [scan, ih]

@[simp] theorem search_blind :
    search (s.withFrame f) fuel size = search s fuel size := by
  simp [search]

-- ============================================================= the writes

/-- Blind to the frame, with a state as result. -/
abbrev FrameBlind (op : State → Option State) : Prop :=
  ∀ f : Frame, Blind (fun s => s.withFrame f) (fun s => s.withFrame f) op

/-- The same with a state and something else. -/
abbrev FrameBlind₂ {ρ : Type} (op : State → Option (ρ × State)) : Prop :=
  ∀ f : Frame, Blind (fun s => s.withFrame f)
    (fun r => (r.1, r.2.withFrame f)) op

theorem store_blind : FrameBlind fun s => s.store a v := by
  intro f s
  dsimp only
  unfold State.store
  rw [Option.map_map]
  rfl

theorem setStatus_blind : FrameBlind fun s => s.setStatus p v := fun f =>
  .read (fun _ => rfl) fun _ => store_blind f

theorem newHeader_blind : FrameBlind fun s => newHeader s p q := by
  intro f
  have hrest : FrameBlind fun s => (s.setPrev q p).bind fun s =>
      (s.setStatus q FREE).bind fun s =>
        (s.nextFree p).bind fun nextFree => s.setNextFree q nextFree :=
    fun f => .bind (store_blind f) (.bind (setStatus_blind f)
      (.read (fun _ => rfl) fun _ => store_blind f))
  exact .read (fun _ => rfl) fun temp2 => .bind (store_blind f)
    (.ite (fun _ => Iff.rfl) (.bind (store_blind f) (hrest f)) (hrest f))

theorem linkNew_blind {n : Int} : FrameBlind fun s => linkNew s p q n :=
  fun f => .ite (fun _ => Iff.rfl) (.bind (store_blind f) (store_blind f))
    (.bind (.pure fun _ => rfl) (store_blind f))

theorem splitBlock_blind : FrameBlind fun s => splitBlock s c size := by
  intro f
  have hlast : ∀ n, FrameBlind fun s => (s.next n).bind fun next =>
      some (if next = NULL
        then { s with lastBlockSize := i64 (s.lastBlockSize - size) } else s) :=
    fun n f => .read (fun _ => rfl) fun next => .pure fun s => by
      split <;> rfl
  refine .bind (newHeader_blind f) (.bind (linkNew_blind f)
    (.read (fun _ => rfl) fun sizeOfNew => .read
      (r := fun s => getBlockSize s s.secondLargest) (fun _ => rfl)
      fun sizeOfSecond => .comp (fun s => ?_) (hlast _ f)))
  split <;> rfl

theorem takeWhole_blind : FrameBlind fun s => takeWhole s c size := by
  intro f
  have hlast : FrameBlind fun s => (s.next c.nextToAllocate).bind fun next =>
      let s := if next = NULL then { s with sizeOfLastAllocate := size } else s
      some { s with largest := s.secondLargest, secondLargest := NULL } :=
    fun f => .read (fun _ => rfl) fun next => .pure fun s => by
      split <;> rfl
  refine .read (fun _ => rfl) fun nextFree => .comp (fun s => ?_) (hlast f)
  split <;> rfl

theorem takeBlock_blind {actSize : Int} (hsome : c.sizeToAllocate ≠ -1) :
    FrameBlind₂ fun s => takeBlock s c actSize size := by
  intro f
  let handOut : State → Option (Int × State) := fun s => do
    let s ← s.setNextFree c.nextToAllocate NULL
    let s ← s.setStatus c.nextToAllocate ALLOCATED
    some (c.nextToAllocate + BLOCK_HEADER,
      { s with remainingSize := i64 (s.remainingSize - actSize) })
  have hhand : FrameBlind₂ handOut := fun f =>
    .bind (store_blind f) (.bind (setStatus_blind f) fun _ => rfl)
  have htake : FrameBlind₂ fun s => (s.next c.nextToAllocate).bind fun next =>
      if splits next c size then (splitBlock s c size).bind handOut
      else (takeWhole s c size).bind handOut := fun f =>
    .read (fun _ => rfl) fun next => .ite (fun _ => Iff.rfl)
      (.bind (splitBlock_blind f) (hhand f))
      (.bind (takeWhole_blind f) (hhand f))
  intro s
  dsimp only
  unfold takeBlock
  rw [if_neg hsome, if_neg hsome]
  exact htake f { s with
    largest := c.largest, secondLargest := c.secondLargest }

-- ========================================================== the merges

theorem forget_blind (f : Frame) (s : State) :
    forget (s.withFrame f) p = (forget s p).withFrame f := by
  unfold forget
  split_ifs <;> first | rfl | simp_all

theorem linkTo_blind : FrameBlind fun s => linkTo s p q := fun f =>
  .bind (store_blind f)
    (.ite (fun _ => Iff.rfl) (store_blind f) (.pure fun _ => rfl))

theorem absorbNext_blind : FrameBlind fun s => absorbNext s p := by
  intro f
  refine .read (fun _ => rfl) fun next => .ite (fun _ => Iff.rfl)
    (.pure fun _ => rfl) (.read (fun _ => rfl) fun status => .ite
      (fun _ => Iff.rfl) (.pure fun _ => rfl) (.read (fun _ => rfl)
        fun nextFree => .bind (store_blind f) (.read (fun _ => rfl)
          fun next => .bind (linkTo_blind f) (.pure (forget_blind f)))))

theorem growLast_blind (f : Frame) (s : State) :
    growLast (s.withFrame f) p size = (growLast s p size).withFrame f := by
  unfold growLast
  split <;> rfl

theorem absorbIntoPrev_blind :
    FrameBlind₂ fun s => absorbIntoPrev s p size := by
  intro f
  refine .read (fun _ => rfl) fun prev => .ite (fun _ => Iff.rfl)
    (.pure fun _ => rfl) (.read (fun _ => rfl) fun status => .ite
      (fun _ => Iff.rfl) (.pure fun _ => rfl) (.read (fun _ => rfl)
        fun nextFree => .bind (store_blind f) (.read (fun _ => rfl)
          fun next => .bind (linkTo_blind f) (.pure fun s => ?_))))
  rw [forget_blind, growLast_blind]

theorem myCoalesce_blind : FrameBlind₂ fun s => myCoalesce s p := by
  intro f
  have hprev : FrameBlind₂ fun s => (s.prev p).bind fun prev =>
      (getBlockSize s prev).bind fun size => absorbIntoPrev s p size :=
    fun f => .read (fun _ => rfl) fun prev => .read (fun _ => rfl)
      fun size => absorbIntoPrev_blind f
  exact .ite (fun _ => Iff.rfl) (.pure fun _ => rfl) (.read (fun _ => rfl)
    fun curSize => .bind (absorbNext_blind f) (.read (fun _ => rfl)
      fun next => .comp (growLast_blind f) (hprev f)))

theorem coalesceFrom_blind (fuel : Nat) (p : Int) :
    FrameBlind fun s => coalesceFrom fuel p s := by
  intro f
  induction fuel generalizing p with
  | zero => exact .none
  | succ fuel ih =>
      have hrest : Blind (fun r : Int × State => (r.1, r.2.withFrame f))
          (fun s => s.withFrame f) fun r => (r.2.nextFree r.1).bind
            fun nextFree => coalesceFrom fuel nextFree r.2 :=
        .read (fun _ => rfl) fun nextFree => .comp (fun _ => rfl) (ih nextFree)
      exact .ite (fun _ => Iff.rfl) (.pure fun _ => rfl) (.read (fun _ => rfl)
        fun status => .ite (fun _ => Iff.rfl)
          (.bind (myCoalesce_blind f) hrest)
          (.bind (.pure fun _ => rfl) hrest))

-- ============================================================= the frees

theorem giveBack_blind : FrameBlind fun s => giveBack s p size := fun _ =>
  .read (fun _ => rfl) fun _ => .ite (fun _ => Iff.rfl)
    (.read (fun _ => rfl) fun _ => .ite (fun _ => Iff.rfl)
      (.pure fun _ => rfl) (.pure fun _ => rfl)) (.pure fun _ => rfl)

theorem coalesceFreed_blind {coalesce : Int} (f : Frame) :
    Blind (fun s => s.withFrame f) (fun r => (r.1, r.2.1, r.2.2.withFrame f))
      fun s => coalesceFreed s p coalesce := by
  have hafter : ∀ before, Blind
      (fun r : Int × State => (r.1, r.2.withFrame f))
      (fun r : Int × Bool × State => (r.1, r.2.1, r.2.2.withFrame f))
      fun r => (getBlockSize r.2 r.1).bind fun after =>
        some (r.1, decide (after - before = 0 ∨ p = r.1), r.2) :=
    fun before => .read (fun _ => rfl) fun after => .pure fun _ => rfl
  exact .ite (fun _ => Iff.rfl) (.read (fun _ => rfl) fun before =>
    .bind (myCoalesce_blind f) (hafter before)) (.pure fun _ => rfl)

theorem enlist_blind {relink : Bool} :
    FrameBlind fun s => enlist fuel s p relink := by
  intro f
  have hfirst : FrameBlind fun s => s.setNextFree p s.headFree := fun f s =>
    store_blind (v := s.headFree) f s
  have hput : FrameBlind fun s => some { s with headFree := p } := fun _ =>
    .pure fun _ => rfl
  refine .read (fun _ => rfl) fun prev => .read
    (fun _ => nearestFree_blind f fuel prev) fun prevFree =>
      .ite (fun _ => Iff.rfl) ?_ ?_
  · exact .ite (fun _ => Iff.rfl) (.read (fun _ => rfl) fun nextFree =>
      .bind (store_blind f) (store_blind f)) (store_blind f)
  · exact .ite (fun _ => Iff.rfl) (.bind (hfirst f) (hput f)) (hput f)

theorem recache_blind : FrameBlind fun s => recache s p := by
  intro f
  refine .ite (fun _ => Iff.rfl) (.read (fun _ => rfl) fun size => .read
    (r := fun s => getBlockSize s s.largest) (fun _ => rfl)
    fun sizeOfLargest => .ite (fun _ => Iff.rfl) (.pure fun _ => rfl) (.read
      (r := fun s => getBlockSize s s.secondLargest) (fun _ => rfl)
      fun sizeOfSecond => .pure fun s => ?_)) (.pure fun _ => rfl)
  split <;> rfl

theorem freeBlock_blind {coalesce : Int} :
    FrameBlind₂ fun s => freeBlock fuel s p coalesce := by
  intro f
  have hthen : ∀ (curr : Int) (flag : Bool), FrameBlind₂ fun s =>
      (s.setStatus curr FREE).bind fun s =>
        (enlist fuel s curr (decide (coalesce = 0) || flag)).bind fun s =>
          (recache s curr).bind fun s => some (RETURN_SUCCESS, s) :=
    fun curr flag f => .bind (setStatus_blind f) (.bind (enlist_blind f)
      (.bind (recache_blind f) fun _ => rfl))
  have hlist : Blind
      (fun r : Int × Bool × State => (r.1, r.2.1, r.2.2.withFrame f))
      (fun r : Int × State => (r.1, r.2.withFrame f)) fun r =>
        (r.2.2.setStatus r.1 FREE).bind fun s =>
          (enlist fuel s r.1 (decide (coalesce = 0) || r.2.1)).bind fun s =>
            (recache s r.1).bind fun s => some (RETURN_SUCCESS, s) := by
    rintro ⟨curr, flag, s⟩
    exact hthen curr flag f s
  exact .read (fun _ => rfl) fun toFreeSize => .ite (fun _ => Iff.rfl)
    (.pure fun _ => rfl) (.bind (giveBack_blind f)
      (.bind (coalesceFreed_blind f) hlist))

-- ============================================================ the region

/-- Memory is mapped where `global_head` and `actual_size` say, and the first
header is behind `*global_head`. -/
structure Region (s : State) : Prop where
  base : s.mem.base = s.globalHead
  size : s.mem.size = s.actualSize
  head : s.head = s.globalHead + GLOBAL_SIZE

instance (s : State) : Decidable (Region s) :=
  decidable_of_iff (s.mem.base = s.globalHead ∧ s.mem.size = s.actualSize
      ∧ s.head = s.globalHead + GLOBAL_SIZE)
    ⟨fun ⟨h₁, h₂, h₃⟩ => ⟨h₁, h₂, h₃⟩, fun ⟨h₁, h₂, h₃⟩ => ⟨h₁, h₂, h₃⟩⟩

/-- A function that is blind to the frame keeps it. -/
theorem frame_eq {op : State → Option State} (hop : FrameBlind op)
    (h : op s = some s') : s'.frame = s.frame := by
  have hfix : s'.withFrame s.frame = s' :=
    (hop s.frame).fixed (withFrame_frame s) h
  rw [← hfix, frame_withFrame]

theorem frame_eq₂ {ρ : Type} {op : State → Option (ρ × State)} {r : ρ}
    (hop : FrameBlind₂ op) (h : op s = some (r, s')) : s'.frame = s.frame := by
  have hfix : (r, s'.withFrame s.frame) = (r, s') :=
    (hop s.frame).fixed (withFrame_frame s) h
  rw [← (Prod.mk.inj hfix).2, frame_withFrame]

theorem SameRegion.of_frame (hf : s'.frame = s.frame)
    (hbase : s'.mem.base = s.mem.base) (hsize : s'.mem.size = s.mem.size) :
    SameRegion s s' :=
  ⟨congrArg Frame.globalHead hf, congrArg Frame.actualSize hf,
    congrArg Frame.head hf, hbase, hsize⟩

theorem region_memAlloc (h : memAlloc fuel s size = some (p, s')) :
    SameRegion s s' := by
  obtain ⟨⟨hbase, hsize, -, -, -⟩, -⟩ := steady_memAlloc h
  unfold memAlloc at h
  split at h
  case isTrue => cases h
  case isFalse =>
    split at h
    case isTrue =>
      obtain ⟨-, rfl⟩ := Prod.mk.inj (Option.some.inj h)
      exact ⟨rfl, rfl, rfl, rfl, rfl⟩
    case isFalse =>
      obtain ⟨c, -, h⟩ := Option.bind_eq_some_iff.mp h
      by_cases hsome : c.sizeToAllocate = -1
      · unfold takeBlock at h
        rw [if_pos hsome] at h
        obtain ⟨-, rfl⟩ := Prod.mk.inj (Option.some.inj h)
        exact ⟨rfl, rfl, rfl, rfl, rfl⟩
      · exact .of_frame (frame_eq₂ (takeBlock_blind hsome) h) hbase hsize

theorem region_coalesceAll (h : coalesceAll fuel s = some s') :
    SameRegion s s' := by
  obtain ⟨hbase, hsize, -, -, -⟩ := steady_coalesceAll h
  unfold coalesceAll at h
  split at h
  case isTrue => cases h
  case isFalse =>
    simp only [Option.bind_eq_bind, Option.bind_eq_some_iff] at h
    obtain ⟨s₁, h₁, h⟩ := h
    obtain rfl := Option.some.inj h
    have hframe : s₁.frame = s.frame :=
      frame_eq (coalesceFrom_blind fuel s.head) h₁
    exact .of_frame hframe hbase hsize

theorem SameRegion.refl (s : State) : SameRegion s s :=
  ⟨rfl, rfl, rfl, rfl, rfl⟩

theorem SameRegion.trans {s₁ : State} (h : SameRegion s s₁)
    (h' : SameRegion s₁ s') : SameRegion s s' :=
  ⟨h'.globalHead.trans h.globalHead, h'.actualSize.trans h.actualSize,
    h'.head.trans h.head, h'.base.trans h.base, h'.size.trans h.size⟩

theorem region_pendingCoalesce {coalesce : Int}
    (h : pendingCoalesce fuel s coalesce = some s') : SameRegion s s' := by
  unfold pendingCoalesce at h
  split at h
  case isTrue => exact region_coalesceAll h
  case isFalse => exact Option.some.inj h ▸ .refl s

theorem region_freeBlock {coalesce r : Int}
    (h : freeBlock fuel s p coalesce = some (r, s')) : SameRegion s s' := by
  have hframe : s'.frame = s.frame := frame_eq₂ freeBlock_blind h
  rcases steady_freeBlock h with ⟨rfl, -⟩ | ⟨k, s₁, -, -, hgive, hs₁⟩
  · exact .refl _
  · have hgave := steady_giveBack hgive
    exact .of_frame hframe (hs₁.base.trans hgave.base)
      (hs₁.size.trans hgave.size)

theorem region_memFree {coalesce r : Int}
    (h : memFree fuel s p coalesce = some (r, s')) : SameRegion s s' := by
  unfold memFree at h
  simp only [Option.bind_eq_bind] at h
  split at h
  case isTrue =>
    split at h
    case isTrue =>
      obtain ⟨s₁, hall, h⟩ := Option.bind_eq_some_iff.mp h
      obtain ⟨-, rfl⟩ := Prod.mk.inj (Option.some.inj h)
      exact region_coalesceAll hall
    case isFalse =>
      obtain ⟨-, rfl⟩ := Prod.mk.inj (Option.some.inj h)
      exact .refl _
  case isFalse =>
    obtain ⟨s₁, hpending, h⟩ := Option.bind_eq_some_iff.mp h
    obtain ⟨valid, -, h⟩ := Option.bind_eq_some_iff.mp h
    have hs₁ := region_pendingCoalesce hpending
    generalize hs₂ : (if coalesce = 0 then
      { s₁ with needGlobalCoalesce := TRUE } else s₁) = s₂ at h
    have hs₂ : SameRegion s s₂ := by
      rw [← hs₂]
      split
      · exact hs₁.trans ⟨rfl, rfl, rfl, rfl, rfl⟩
      · exact hs₁
    split at h
    case isTrue => exact hs₂.trans (region_freeBlock h)
    case isFalse =>
      obtain ⟨-, rfl⟩ := Prod.mk.inj (Option.some.inj h)
      exact hs₂

theorem region_step {c c' : Config} {a : Act} (h : step a c = some c') :
    SameRegion c.heap c'.heap := by
  cases a with
  | alloc fuel size =>
      obtain ⟨-, p, heap, hrun, rfl⟩ := step_alloc h
      exact region_memAlloc hrun
  | free fuel ptr coalesce =>
      obtain ⟨-, r, heap, hrun, rfl⟩ := step_free h
      exact region_memFree hrun
  | write a v =>
      obtain ⟨-, heap, hstore, rfl⟩ := step_write h
      obtain ⟨-, rfl⟩ := State.store_eq_some hstore
      exact ⟨rfl, rfl, rfl, rfl, rfl⟩

/-- In every state of any run the region is not below `NULL`. -/
theorem reach_low {starts : Env → Int → Prop} {ok : Act → Config → Prop}
    {c : Config} (h : Reach (client starts) ok c) : 0 ≤ c.heap.mem.base := by
  refine h.invariant (I := fun c => 0 ≤ c.heap.mem.base) ?_
    fun a c c' hs _ hstep => (region_step hstep).base ▸ hs
  intro c hstart
  obtain ⟨-, -, env, s, size, -, hrun⟩ := hstart
  exact (memInit_start hrun).2.2.1

end OperatingSystem.Heap
