/-
Files reached through trees of index nodes, over any type of node names.

# The shape

A node of depth 0 is a data block. A node of depth `d + 1` is an index
node with `n` slots, each naming a node of depth `d`. A `Root` is a row of
slots for nodes of one depth, and a file is a list of roots, filled in
order: an inode's direct, single, double and triple pointers are four
roots. A file with `r` data blocks needs only the slots that reach its
first `r` leaves; the others hold anything.

# Compaction

`Mirror` says that a tree has been copied to consecutive numbers in
pre-order: the copy of the root is `start`, and the copy of slot `j`
follows the complete subtrees of the slots before it. From this alone
follow both what a reader sees (`MirrorRoots.resolve`) and how the copy is
laid out (`MirrorRoots.preorder`). `MirrorRoots.congr` is the frame rule:
a copy survives whatever happens outside its own numbers.
-/
import Mathlib.Data.List.Basic
import Mathlib.Data.List.Forall2
import Mathlib.Tactic.Ring

namespace OperatingSystem.Lib

variable {α β : Type*}

-- ============================================================ the walk

/-- Visit the slots of a row until nothing remains, `cap` leaves each. -/
def forest (visit : α → Nat → List β) (cap : Nat) :
    (kids : Nat → α) → (count remaining : Nat) → List β
  | _, 0, _ => []
  | kids, count + 1, r =>
      if r = 0 then []
      else visit (kids 0) r
        ++ forest visit cap (fun j => kids (j + 1)) count (r - cap)

/-- The nodes needed for `r` leaves below a node, the node first. -/
def preorder (child : α → Nat → α) (n : Nat) : Nat → α → Nat → List α
  | 0, v, _ => [v]
  | d + 1, v, r =>
      v :: forest (preorder child n d) (n ^ d) (child v) n r

/-- The first `r` leaves below a node. -/
def leaves (child : α → Nat → α) (n : Nat) : Nat → α → Nat → List α
  | 0, v, _ => [v]
  | d + 1, v, r => forest (leaves child n d) (n ^ d) (child v) n r

/-- The leaf that holds position `k` below a node. -/
def resolve (child : α → Nat → α) (n : Nat) : Nat → α → Nat → α
  | 0, v, _ => v
  | d + 1, v, k => resolve child n d (child v (k / n ^ d)) (k % n ^ d)

/-- The nodes of a complete tree. -/
def full (n : Nat) : Nat → Nat
  | 0 => 1
  | d + 1 => 1 + n * full n d

/-- The total weight of the slots `forest` visits. -/
def weigh (weight : Nat → Nat) (cap : Nat) : (count remaining : Nat) → Nat
  | 0, _ => 0
  | count + 1, r =>
      if r = 0 then 0 else weight r + weigh weight cap count (r - cap)

/-- How many nodes `r` leaves need below a node. -/
def nodes (n : Nat) : Nat → Nat → Nat
  | 0, _ => 1
  | d + 1, r => 1 + weigh (nodes n d) (n ^ d) n r

/-- A row of slots for nodes of one depth. -/
structure Root (α : Type*) where
  depth : Nat
  count : Nat
  kids : Nat → α

/-- The leaves a root can reach. -/
def Root.cap (n : Nat) (root : Root α) : Nat := root.count * n ^ root.depth

/-- The nodes of a complete root. -/
def Root.full (n : Nat) (root : Root α) : Nat :=
  root.count * Lib.full n root.depth

/-- The nodes a file of `r` leaves needs, in pre-order. -/
def preorderRoots (child : α → Nat → α) (n : Nat) :
    List (Root α) → Nat → List α
  | [], _ => []
  | root :: rest, r =>
      forest (preorder child n root.depth) (n ^ root.depth) root.kids
          root.count r
        ++ preorderRoots child n rest (r - root.cap n)

/-- The leaves of a file, in order. -/
def leavesRoots (child : α → Nat → α) (n : Nat) :
    List (Root α) → Nat → List α
  | [], _ => []
  | root :: rest, r =>
      forest (leaves child n root.depth) (n ^ root.depth) root.kids
          root.count r
        ++ leavesRoots child n rest (r - root.cap n)

/-- The leaf that holds position `k` of a file. -/
def resolveRoots (child : α → Nat → α) (n : Nat) :
    List (Root α) → Nat → Option α
  | [], _ => none
  | root :: rest, k =>
      if k < root.cap n then
        some (resolve child n root.depth (root.kids (k / n ^ root.depth))
          (k % n ^ root.depth))
      else resolveRoots child n rest (k - root.cap n)

/-- How many nodes a file of `r` leaves needs. -/
def nodesRoots (n : Nat) : List (Root α) → Nat → Nat
  | [], _ => 0
  | root :: rest, r =>
      weigh (nodes n root.depth) (n ^ root.depth) root.count r
        + nodesRoots n rest (r - root.cap n)

-- ============================================================ the mirror

/-- Row by row: slot `j` of the copy is `start` plus the complete subtrees
before it, and its subtree is a copy in the sense of `M`. -/
def MirrorSlots (M : α → Int → Nat → Prop) (cap step : Nat) :
    (kids : Nat → α) → (kids' : Nat → Int) → (start : Int) →
    (count remaining : Nat) → Prop
  | _, _, _, 0, _ => True
  | kids, kids', start, count + 1, r =>
      r = 0 ∨ kids' 0 = start ∧ M (kids 0) start r
        ∧ MirrorSlots M cap step (fun j => kids (j + 1))
            (fun j => kids' (j + 1)) (start + step) count (r - cap)

/-- The needed part of the tree below `v` is copied, in pre-order, to the
numbers from `v'` on. `R` relates the contents of the leaves. -/
def Mirror (R : α → Int → Prop) (child : α → Nat → α)
    (child' : Int → Nat → Int) (n : Nat) : Nat → α → Int → Nat → Prop
  | 0, v, v', _ => R v v'
  | d + 1, v, v', r =>
      MirrorSlots (Mirror R child child' n d) (n ^ d) (full n d) (child v)
        (child' v') (v' + 1) n r

/-- The needed part of a file is copied, in pre-order, to the numbers from
`start` on. -/
def MirrorRoots (R : α → Int → Prop) (child : α → Nat → α)
    (child' : Int → Nat → Int) (n : Nat) :
    List (Root α) → List (Root Int) → Int → Nat → Prop
  | root :: rest, root' :: rest', start, r =>
      (root'.depth = root.depth ∧ root'.count = root.count)
        ∧ MirrorSlots (Mirror R child child' n root.depth) (n ^ root.depth)
            (full n root.depth) root.kids root'.kids start root.count r
        ∧ MirrorRoots R child child' n rest rest' (start + root.full n)
            (r - root.cap n)
  | [], [], _, _ => True
  | _, _, _, _ => False

/-- `len` consecutive numbers. -/
def consecutive (start : Int) (len : Nat) : List Int :=
  (List.range len).map fun i : Nat => start + i

-- =========================================================== counting

variable {n d count r cap step : Nat} {start v' : Int}

theorem consecutive_append (start : Int) (a b : Nat) :
    consecutive start a ++ consecutive (start + a) b
      = consecutive start (a + b) := by
  unfold consecutive
  rw [List.range_add, List.map_append, List.map_map]
  congr 1
  refine List.map_congr_left fun i _ => ?_
  simp only [Function.comp_apply]
  omega

@[simp] theorem consecutive_length (start : Int) (len : Nat) :
    (consecutive start len).length = len := by
  simp [consecutive]

/-- A row whose slots are all needed weighs its count. -/
theorem weigh_full {weight : Nat → Nat}
    (hw : ∀ r, cap ≤ r → weight r = step) (hcap : 0 < cap) :
    ∀ {count r : Nat}, count * cap ≤ r →
      weigh weight cap count r = count * step := by
  intro count
  induction count with
  | zero => intro r _; simp [weigh]
  | succ count ih =>
      intro r hr
      rw [Nat.succ_mul] at hr
      rw [weigh, if_neg (by omega), hw r (by omega), ih (by omega),
        Nat.succ_mul]
      omega

/-- A row with nothing left to reach is empty. -/
theorem weigh_zero (weight : Nat → Nat) (cap count : Nat) :
    weigh weight cap count 0 = 0 := by
  cases count <;> simp [weigh]

theorem forest_zero (visit : α → Nat → List β) (cap : Nat) (kids : Nat → α)
    (count : Nat) : forest visit cap kids count 0 = [] := by
  cases count <;> simp [forest]

theorem nodesRoots_zero (n : Nat) (roots : List (Root α)) :
    nodesRoots n roots 0 = 0 := by
  induction roots with
  | nil => rfl
  | cons _ _ ih => simp [nodesRoots, weigh_zero, ih]

/-- Enough leaves make a tree complete. -/
theorem nodes_full (hn : 0 < n) :
    ∀ {d r : Nat}, n ^ d ≤ r → nodes n d r = full n d := by
  intro d
  induction d with
  | zero => intro r _; rfl
  | succ d ih =>
      intro r hr
      rw [nodes, full, weigh_full (fun r hr => ih hr) (Nat.pow_pos hn)]
      rw [Nat.pow_succ, Nat.mul_comm] at hr
      exact hr

/-- A row visits as many nodes as it weighs. -/
theorem forest_length {visit : α → Nat → List β} {weight : Nat → Nat}
    (h : ∀ v r, (visit v r).length = weight r) :
    ∀ {count r : Nat} {kids : Nat → α},
      (forest visit cap kids count r).length = weigh weight cap count r := by
  intro count
  induction count with
  | zero => intro r kids; rfl
  | succ count ih =>
      intro r kids
      unfold forest weigh
      split
      case isTrue => rfl
      case isFalse => rw [List.length_append, h, ih]

theorem preorder_length (child : α → Nat → α) (n : Nat) :
    ∀ (d : Nat) (v : α) (r : Nat),
      (preorder child n d v r).length = nodes n d r := by
  intro d
  induction d with
  | zero => intro v r; rfl
  | succ d ih =>
      intro v r
      rw [preorder, nodes, List.length_cons, forest_length ih, Nat.add_comm]

/-- A file visits as many nodes as it needs. -/
theorem preorderRoots_length (child : α → Nat → α) (n : Nat) :
    ∀ (roots : List (Root α)) (r : Nat),
      (preorderRoots child n roots r).length = nodesRoots n roots r := by
  intro roots
  induction roots with
  | nil => intro r; rfl
  | cons root rest ih =>
      intro r
      rw [preorderRoots, nodesRoots, List.length_append,
        forest_length (preorder_length child n root.depth), ih]

-- ================================================ the same needed nodes

/-- The same rows of slots, as far as they go. -/
def SameSlots : List (Root α) → List (Root α) → Prop :=
  List.Forall₂ fun a b => b.depth = a.depth ∧ b.count = a.count
    ∧ ∀ j, j < a.count → b.kids j = a.kids j

theorem SameSlots.refl (roots : List (Root α)) : SameSlots roots roots :=
  List.forall₂_same.mpr fun _ _ => ⟨rfl, rfl, fun _ _ => rfl⟩

/-- A row is visited alike when its slots are. -/
theorem forest_congr {visit visit' : α → Nat → List α} {P : α → Prop}
    (h : ∀ v r, (∀ u ∈ visit v r, P u) → visit' v r = visit v r) :
    ∀ {count r : Nat} {kids kids' : Nat → α},
      (∀ j, j < count → kids' j = kids j) →
      (∀ u ∈ forest visit cap kids count r, P u) →
      forest visit' cap kids' count r = forest visit cap kids count r := by
  intro count
  induction count with
  | zero => intros; rfl
  | succ count ih =>
      intro r kids kids' hk hP
      unfold forest at hP ⊢
      split at hP
      case isTrue hr => rw [if_pos hr, if_pos hr]
      case isFalse hr =>
        rw [if_neg hr, if_neg hr, hk 0 (Nat.succ_pos count),
          h _ _ fun u hu => hP u (List.mem_append_left _ hu),
          ih (fun j hj => hk (j + 1) (by omega))
            fun u hu => hP u (List.mem_append_right _ hu)]

theorem preorder_congr {child child' : α → Nat → α} (n : Nat) :
    ∀ (d : Nat) (v : α) (r : Nat),
      (∀ u ∈ preorder child n d v r, ∀ j, j < n → child' u j = child u j) →
      preorder child' n d v r = preorder child n d v r := by
  intro d
  induction d with
  | zero => intro v r _; rfl
  | succ d ih =>
      intro v r hP
      rw [preorder] at hP ⊢
      rw [preorder, forest_congr ih (hP v List.mem_cons_self)
        fun u hu => hP u (List.mem_cons_of_mem v hu)]

/-- A file has the same nodes under two readings that agree on them. -/
theorem preorderRoots_congr {child child' : α → Nat → α} (n : Nat) :
    ∀ {roots roots' : List (Root α)} (r : Nat), SameSlots roots roots' →
      (∀ u ∈ preorderRoots child n roots r, ∀ j, j < n →
        child' u j = child u j) →
      preorderRoots child' n roots' r = preorderRoots child n roots r := by
  intro roots roots' r hs
  induction hs generalizing r with
  | nil => intro _; rfl
  | @cons root root' rest rest' hroot _ ih =>
      intro hP
      have hcap : root'.cap n = root.cap n := by
        unfold Root.cap
        rw [hroot.1, hroot.2.1]
      rw [preorderRoots] at hP ⊢
      rw [preorderRoots, hcap, hroot.1, hroot.2.1,
        forest_congr (preorder_congr n root.depth) hroot.2.2
          fun u hu => hP u (List.mem_append_left _ hu),
        ih _ fun u hu => hP u (List.mem_append_right _ hu)]

-- ==================================================== what a reader sees

variable {R R' : α → Int → Prop} {child : α → Nat → α}
  {child' child'' : Int → Nat → Int} {M M' : α → Int → Nat → Prop}
  {kids : Nat → α} {kids' kids'' : Nat → Int} {v : α}

/-- The slot that holds position `k` of a mirrored row. -/
theorem MirrorSlots.slot (hcap : 0 < cap) :
    ∀ {count r k : Nat} {kids : Nat → α} {kids' : Nat → Int} {start : Int},
      MirrorSlots M cap step kids kids' start count r → k < r →
      k < count * cap →
      M (kids (k / cap)) (kids' (k / cap)) (r - k / cap * cap) := by
  intro count
  induction count with
  | zero => intro r k kids kids' start _ _ hk; omega
  | succ count ih =>
      intro r k kids kids' start h hr hk
      rcases h with h | ⟨hfirst, hM, hrest⟩
      · omega
      by_cases hlt : k < cap
      · rw [Nat.div_eq_of_lt hlt, hfirst]
        simpa using hM
      · obtain ⟨m, rfl⟩ := Nat.exists_eq_add_of_le (Nat.le_of_not_lt hlt)
        rw [Nat.succ_mul] at hk
        have := ih hrest (k := m) (by omega) (by omega)
        rw [Nat.add_div_left m hcap, Nat.succ_mul]
        rwa [show r - cap - m / cap * cap = r - (m / cap * cap + cap) by omega]
          at this

/-- Every needed position of a mirrored tree reads alike. -/
theorem Mirror.resolve (hn : 0 < n) :
    ∀ {d : Nat} {v : α} {v' : Int} {r k : Nat},
      Mirror R child child' n d v v' r → k < r → k < n ^ d →
      R (Lib.resolve child n d v k) (Lib.resolve child' n d v' k) := by
  intro d
  induction d with
  | zero => intro v v' r k h _ _; exact h
  | succ d ih =>
      intro v v' r k h hr hk
      have hcap : 0 < n ^ d := Nat.pow_pos hn
      rw [Nat.pow_succ, Nat.mul_comm] at hk
      have hslot := MirrorSlots.slot hcap h hr hk
      refine ih hslot ?_ (Nat.mod_lt k hcap)
      have := Nat.div_add_mod k (n ^ d)
      rw [Nat.mul_comm] at this
      omega

/-- Every needed position of a mirrored file reads alike. -/
theorem MirrorRoots.resolve (hn : 0 < n) :
    ∀ {roots : List (Root α)} {roots' : List (Root Int)} {start : Int}
      {r k : Nat}, MirrorRoots R child child' n roots roots' start r →
      k < r → k < (roots.map (Root.cap n)).sum →
      ∃ v v', resolveRoots child n roots k = some v
        ∧ resolveRoots child' n roots' k = some v' ∧ R v v' := by
  intro roots
  induction roots with
  | nil => intro roots' start r k _ _ hk; simp at hk
  | cons root rest ih =>
      intro roots' start r k h hr hk
      cases roots' with
      | nil => exact h.elim
      | cons root' rest' =>
          obtain ⟨⟨hdepth, hcount⟩, hslots, hrest⟩ := h
          have hcap : 0 < n ^ root.depth := Nat.pow_pos hn
          have hcap' : root'.cap n = root.cap n := by
            unfold Root.cap
            rw [hdepth, hcount]
          rw [List.map_cons, List.sum_cons] at hk
          unfold resolveRoots
          rw [hcap']
          by_cases hlt : k < root.cap n
          · rw [if_pos hlt, if_pos hlt, hdepth]
            refine ⟨_, _, rfl, rfl, ?_⟩
            refine Mirror.resolve hn (MirrorSlots.slot hcap hslots hr hlt) ?_
              (Nat.mod_lt k hcap)
            have := Nat.div_add_mod k (n ^ root.depth)
            rw [Nat.mul_comm] at this
            omega
          · rw [if_neg hlt, if_neg hlt]
            exact ih hrest (by omega) (by omega)

-- ====================================================== leaves in order

/-- The first `r` of `a + b` positions: those of the first part and,
shifted, those of the second. -/
theorem range_min_add (r a b : Nat) :
    List.range (min r (a + b))
      = List.range (min r a)
        ++ (List.range (min (r - a) b)).map (a + ·) := by
  by_cases hr : r ≤ a
  · rw [Nat.min_eq_left (by omega), Nat.min_eq_left hr,
      Nat.sub_eq_zero_of_le hr, Nat.zero_min]
    simp
  · rw [show min r (a + b) = a + min (r - a) b by omega, List.range_add,
      Nat.min_eq_right (Nat.le_of_not_le hr)]

/-- The leaves below a row are what its positions resolve to. -/
theorem forest_leaves {visit : α → Nat → List α} {res : α → Nat → α}
    (hcap : 0 < cap)
    (h : ∀ v r, 0 < r → visit v r = (List.range (min r cap)).map (res v)) :
    ∀ {count r : Nat} {kids : Nat → α},
      forest visit cap kids count r = (List.range (min r (count * cap))).map
        fun k => res (kids (k / cap)) (k % cap) := by
  intro count
  induction count with
  | zero => intro r kids; simp [forest]
  | succ count ih =>
      intro r kids
      unfold forest
      by_cases hr : r = 0
      · rw [if_pos hr, hr, Nat.zero_min]
        rfl
      · rw [if_neg hr, h _ _ (Nat.pos_of_ne_zero hr), ih, Nat.succ_mul,
          Nat.add_comm (count * cap), range_min_add, List.map_append,
          List.map_map]
        congr 1
        · refine List.map_congr_left fun k hk => ?_
          have hlt : k < cap := by
            have := List.mem_range.mp hk
            omega
          rw [Nat.div_eq_of_lt hlt, Nat.mod_eq_of_lt hlt]
        · refine List.map_congr_left fun k _ => ?_
          simp only [Function.comp_apply]
          rw [Nat.add_div_left k hcap, Nat.add_mod_left]

/-- The leaves below a node are what its positions resolve to. -/
theorem leaves_eq (child : α → Nat → α) (hn : 0 < n) :
    ∀ (d : Nat) (v : α) (r : Nat), 0 < r →
      leaves child n d v r
        = (List.range (min r (n ^ d))).map (Lib.resolve child n d v) := by
  intro d
  induction d with
  | zero =>
      intro v r hr
      rw [Nat.pow_zero, Nat.min_eq_right hr]
      rfl
  | succ d ih =>
      intro v r _
      rw [leaves, forest_leaves (Nat.pow_pos hn) ih, Nat.pow_succ,
        Nat.mul_comm n]
      rfl

/-- The leaves of a file are what its positions resolve to, in order. -/
theorem leavesRoots_eq (child : α → Nat → α) (hn : 0 < n) :
    ∀ (roots : List (Root α)) (r : Nat),
      (leavesRoots child n roots r).map some
        = (List.range (min r (roots.map (Root.cap n)).sum)).map
          (resolveRoots child n roots) := by
  intro roots
  induction roots with
  | nil => intro r; simp [leavesRoots]
  | cons root rest ih =>
      intro r
      rw [leavesRoots, List.map_append, ih, List.map_cons, List.sum_cons,
        range_min_add, List.map_append, List.map_map,
        forest_leaves (Nat.pow_pos hn) (leaves_eq child hn root.depth),
        List.map_map]
      congr 1
      · refine List.map_congr_left fun k hk => ?_
        have hlt : k < root.cap n := by
          have := List.mem_range.mp hk
          unfold Root.cap
          omega
        rw [resolveRoots, if_pos hlt]
        rfl
      · refine List.map_congr_left fun k _ => ?_
        simp only [Function.comp_apply]
        rw [resolveRoots, if_neg (by omega), Nat.add_sub_cancel_left]

-- ================================================== how a copy is laid out

/-- A mirrored row is consecutive when its subtrees are. -/
theorem MirrorSlots.preorder {visit : Int → Nat → List Int}
    {weight : Nat → Nat} (hw : ∀ r, cap ≤ r → weight r = step)
    (hvisit : ∀ {v : α} {v' : Int} {r : Nat}, M v v' r →
      visit v' r = consecutive v' (weight r)) :
    ∀ {count r : Nat} {kids : Nat → α} {kids' : Nat → Int} {start : Int},
      MirrorSlots M cap step kids kids' start count r →
      forest visit cap kids' count r
        = consecutive start (weigh weight cap count r) := by
  intro count
  induction count with
  | zero => intro r kids kids' start _; rfl
  | succ count ih =>
      intro r kids kids' start h
      unfold forest weigh
      by_cases hr : r = 0
      · rw [if_pos hr, if_pos hr]
        rfl
      obtain ⟨hfirst, hM, hrest⟩ := h.resolve_left hr
      rw [if_neg hr, if_neg hr, hfirst, hvisit hM, ih hrest]
      by_cases hlt : r < cap
      · rw [show r - cap = 0 by omega, weigh_zero]
        simp [consecutive]
      · rw [hw r (by omega), consecutive_append]

/-- A mirrored tree occupies consecutive numbers in pre-order. -/
theorem Mirror.preorder (hn : 0 < n) :
    ∀ {d : Nat} {v : α} {v' : Int} {r : Nat},
      Mirror R child child' n d v v' r →
      Lib.preorder child' n d v' r = consecutive v' (nodes n d r) := by
  intro d
  induction d with
  | zero => intro v v' r _; simp [Lib.preorder, nodes, consecutive]
  | succ d ih =>
      intro v v' r h
      have hrow := MirrorSlots.preorder (fun r hr => nodes_full hn hr)
        (fun h => ih h) h
      rw [Lib.preorder, nodes, hrow, ← consecutive_append]
      simp [consecutive]

/-- A mirrored file occupies consecutive numbers in pre-order. -/
theorem MirrorRoots.preorder (hn : 0 < n) :
    ∀ {roots : List (Root α)} {roots' : List (Root Int)} {start : Int}
      {r : Nat}, MirrorRoots R child child' n roots roots' start r →
      preorderRoots child' n roots' r
        = consecutive start (nodesRoots n roots r) := by
  intro roots
  induction roots with
  | nil =>
      intro roots' start r h
      cases roots' with
      | nil => rfl
      | cons => exact h.elim
  | cons root rest ih =>
      intro roots' start r h
      cases roots' with
      | nil => exact h.elim
      | cons root' rest' =>
          obtain ⟨⟨hdepth, hcount⟩, hslots, hrest⟩ := h
          have hcap' : root'.cap n = root.cap n := by
            unfold Root.cap
            rw [hdepth, hcount]
          have hrow := MirrorSlots.preorder (fun r hr => nodes_full hn hr)
            (fun h => Mirror.preorder hn h) hslots
          unfold preorderRoots nodesRoots
          rw [hcap', hdepth, hcount, hrow, ih hrest]
          by_cases hlt : root.cap n ≤ r
          · rw [weigh_full (fun r hr => nodes_full hn hr) (Nat.pow_pos hn)
              (show root.count * n ^ root.depth ≤ r from hlt)]
            exact consecutive_append _ _ _
          · -- the later roots are not needed at all
            rw [show r - root.cap n = 0 by omega, nodesRoots_zero]
            simp [consecutive]

-- ======================================================== the frame rule

/-- A row with nothing left to reach is mirrored by anything. -/
theorem MirrorSlots.zero (count : Nat) :
    MirrorSlots M cap step kids kids' start count 0 := by
  cases count with
  | zero => trivial
  | succ count => exact .inl rfl

/-- A mirrored row survives whatever its subtrees survive. -/
theorem MirrorSlots.congr (weight : Nat → Nat)
    (hw : ∀ r, cap ≤ r → weight r = step) :
    ∀ {count r : Nat} {kids : Nat → α} {kids' kids'' : Nat → Int}
      {start : Int},
      (∀ {v : α} {v' : Int} {r' : Nat}, start ≤ v' →
        v' + weight r' ≤ start + weigh weight cap count r →
        M v v' r' → M' v v' r') →
      (∀ j, j < count → j * cap < r → kids'' j = kids' j) →
      MirrorSlots M cap step kids kids' start count r →
      MirrorSlots M' cap step kids kids'' start count r := by
  intro count
  induction count with
  | zero => intros; trivial
  | succ count ih =>
      intro r kids kids' kids'' start hM hk h
      by_cases hr : r = 0
      · exact .inl hr
      obtain ⟨hfirst, hM₀, hrest⟩ := h.resolve_left hr
      have hweigh : weigh weight cap (count + 1) r
          = weight r + weigh weight cap count (r - cap) := by
        rw [weigh, if_neg hr]
      rw [hweigh] at hM
      refine .inr ⟨?_, hM (Int.le_refl start) (by omega) hM₀, ?_⟩
      · rw [hk 0 (by omega) (by omega), hfirst]
      · by_cases hlt : r ≤ cap
        · rw [show r - cap = 0 by omega]
          exact .zero count
        · have hstep := hw r (by omega)
          refine ih (fun hle hend hm => hM (by omega) (by omega) hm) ?_ hrest
          intro j hj hjr
          exact hk (j + 1) (by omega) (by rw [Nat.succ_mul]; omega)

/-- A mirrored tree survives whatever leaves its own numbers alone. -/
theorem Mirror.congr (hn : 0 < n) :
    ∀ {d : Nat} {v : α} {v' : Int} {r : Nat},
      (∀ w, v' ≤ w → w < v' + nodes n d r →
        (∀ j, j < n → child'' w j = child' w j) ∧ ∀ u, R u w → R' u w) →
      Mirror R child child' n d v v' r → Mirror R' child child'' n d v v' r := by
  intro d
  induction d with
  | zero =>
      intro v v' r hsame h
      exact (hsame v' (Int.le_refl v') (by simp [nodes])).2 v h
  | succ d ih =>
      intro v v' r hsame h
      rw [nodes] at hsame
      refine MirrorSlots.congr (nodes n d) (fun r hr => nodes_full hn hr) ?_ ?_ h
      · intro u w r' hle hend hm
        exact ih (fun x hx hx' => hsame x (by omega) (by omega)) hm
      · intro j hj _
        exact (hsame v' (Int.le_refl v') (by omega)).1 j hj

/-- A file with nothing left to reach is mirrored by anything of its shape,
wherever it starts. -/
theorem MirrorRoots.zero :
    ∀ {roots : List (Root α)} {roots' roots'' : List (Root Int)}
      {start start' : Int} {r : Nat}, SameSlots roots' roots'' →
      MirrorRoots R child child' n roots roots' start r →
      MirrorRoots R' child child'' n roots roots'' start' 0 := by
  intro roots
  induction roots with
  | nil =>
      intro roots' roots'' start start' r hs h
      cases hs with
      | nil => trivial
      | cons => exact h.elim
  | cons root rest ih =>
      intro roots' roots'' start start' r hs h
      cases hs with
      | nil => exact h.elim
      | cons hroot hs =>
          obtain ⟨⟨hdepth, hcount⟩, -, hrest⟩ := h
          refine ⟨⟨hroot.1.trans hdepth, hroot.2.1.trans hcount⟩, .zero _, ?_⟩
          rw [Nat.zero_sub]
          exact ih hs hrest

/-- A mirrored file survives whatever leaves its own numbers and slots
alone. -/
theorem MirrorRoots.congr (hn : 0 < n) :
    ∀ {roots : List (Root α)} {roots' roots'' : List (Root Int)}
      {start : Int} {r : Nat}, SameSlots roots' roots'' →
      (∀ w, start ≤ w → w < start + nodesRoots n roots r →
        (∀ j, j < n → child'' w j = child' w j) ∧ ∀ u, R u w → R' u w) →
      MirrorRoots R child child' n roots roots' start r →
      MirrorRoots R' child child'' n roots roots'' start r := by
  intro roots
  induction roots with
  | nil =>
      intro roots' roots'' start r hs _ h
      cases hs with
      | nil => trivial
      | cons => exact h.elim
  | cons root rest ih =>
      intro roots' roots'' start r hs hsame h
      cases hs with
      | nil => exact h.elim
      | cons hroot hs =>
          obtain ⟨⟨hdepth, hcount⟩, hslots, hrest⟩ := h
          rw [nodesRoots] at hsame
          refine ⟨⟨hroot.1.trans hdepth, hroot.2.1.trans hcount⟩, ?_, ?_⟩
          · refine MirrorSlots.congr (nodes n root.depth)
              (fun r hr => nodes_full hn hr) ?_
              (fun j hj _ => hroot.2.2 j (hcount ▸ hj)) hslots
            intro u w r' hle hend hm
            exact hm.congr hn fun x hx hx' => hsame x (by omega) (by omega)
          · by_cases hlt : root.cap n ≤ r
            · rw [weigh_full (fun r hr => nodes_full hn hr) (Nat.pow_pos hn)
                (show root.count * n ^ root.depth ≤ r from hlt)] at hsame
              refine ih hs (fun w hle hend => hsame w ?_ ?_) hrest
              · have : (0 : Int) ≤ root.full n := Int.natCast_nonneg _
                omega
              · unfold Root.full at hend
                omega
            · rw [show r - root.cap n = 0 by omega] at hrest ⊢
              exact hrest.zero hs

-- ==================================================== changing the source

/-- A mirrored row is one of any source that has the same needed nodes. -/
theorem MirrorSlots.source {P : α → Prop} (visit : α → Nat → List α)
    (hM : ∀ {v : α} {v' : Int} {r : Nat}, (∀ u ∈ visit v r, P u) →
      M v v' r → M' v v' r) :
    ∀ {count r : Nat} {kids₁ kids₂ : Nat → α} {kids' : Nat → Int}
      {start : Int},
      (∀ j, j < count → kids₂ j = kids₁ j) →
      (∀ u ∈ forest visit cap kids₂ count r, P u) →
      MirrorSlots M cap step kids₁ kids' start count r →
      MirrorSlots M' cap step kids₂ kids' start count r := by
  intro count
  induction count with
  | zero => intros; trivial
  | succ count ih =>
      intro r kids₁ kids₂ kids' start hk hP h
      by_cases hr : r = 0
      · exact .inl hr
      obtain ⟨hfirst, hM₀, hrest⟩ := h.resolve_left hr
      rw [forest, if_neg hr] at hP
      refine .inr ⟨hfirst, hM (fun u hu => hP u (List.mem_append_left _ hu)) ?_,
        ih ?_ (fun u hu => hP u (List.mem_append_right _ hu)) hrest⟩
      · rw [hk 0 (by omega)]
        exact hM₀
      · exact fun j hj => hk (j + 1) (by omega)

/-- A mirrored tree is one of any source that has the same needed nodes. -/
theorem Mirror.source {child₂ : α → Nat → α} :
    ∀ {d : Nat} {v : α} {v' : Int} {r : Nat},
      (∀ u ∈ Lib.preorder child₂ n d v r,
        (∀ j, j < n → child₂ u j = child u j) ∧ ∀ w, R u w → R' u w) →
      Mirror R child child' n d v v' r → Mirror R' child₂ child' n d v v' r := by
  intro d
  induction d with
  | zero =>
      intro v v' r hsame h
      exact (hsame v (by simp [Lib.preorder])).2 v' h
  | succ d ih =>
      intro v v' r hsame h
      rw [Lib.preorder] at hsame
      exact MirrorSlots.source (Lib.preorder child₂ n d)
        (fun hu hm => ih hu hm) (hsame v List.mem_cons_self).1
        (fun u hu => hsame u (List.mem_cons_of_mem v hu)) h

/-- A mirrored file is one of any source that has the same needed nodes. -/
theorem MirrorRoots.source {child₂ : α → Nat → α} :
    ∀ {roots : List (Root α)} {roots' : List (Root Int)} {start : Int}
      {r : Nat},
      (∀ u ∈ preorderRoots child₂ n roots r,
        (∀ j, j < n → child₂ u j = child u j) ∧ ∀ w, R u w → R' u w) →
      MirrorRoots R child child' n roots roots' start r →
      MirrorRoots R' child₂ child' n roots roots' start r := by
  intro roots
  induction roots with
  | nil =>
      intro roots' start r _ h
      cases roots' with
      | nil => trivial
      | cons => exact h.elim
  | cons root rest ih =>
      intro roots' start r hsame h
      cases roots' with
      | nil => exact h.elim
      | cons root' rest' =>
          obtain ⟨hshape, hslots, hrest⟩ := h
          rw [preorderRoots] at hsame
          refine ⟨hshape, ?_, ?_⟩
          · exact MirrorSlots.source (Lib.preorder child₂ n root.depth)
              (fun hu hm => hm.source hu) (fun _ _ => rfl)
              (fun u hu => hsame u (List.mem_append_left _ hu)) hslots
          · exact ih (fun u hu => hsame u (List.mem_append_right _ hu)) hrest

-- ======================================================= the copy itself

/-- A mirrored row is a mirror of itself. -/
theorem MirrorSlots.self {M' : Int → Int → Nat → Prop}
    (hM : ∀ {v : α} {v' : Int} {r : Nat}, M v v' r → M' v' v' r) :
    ∀ {count r : Nat} {kids : Nat → α} {kids' : Nat → Int} {start : Int},
      MirrorSlots M cap step kids kids' start count r →
      MirrorSlots M' cap step kids' kids' start count r := by
  intro count
  induction count with
  | zero => intros; trivial
  | succ count ih =>
      intro r kids kids' start h
      rcases h with hr | ⟨hfirst, hM₀, hrest⟩
      · exact .inl hr
      · refine .inr ⟨hfirst, ?_, ih hrest⟩
        rw [hfirst]
        exact hM hM₀

/-- The copy of a tree has its own pre-order numbers. -/
theorem Mirror.self :
    ∀ {d : Nat} {v : α} {v' : Int} {r : Nat},
      Mirror R child child' n d v v' r →
      Mirror (fun _ _ => True) child' child' n d v' v' r := by
  intro d
  induction d with
  | zero => intros; trivial
  | succ d ih =>
      intro v v' r h
      exact MirrorSlots.self (fun hm => ih hm) h

/-- The copy of a file has its own pre-order numbers. -/
theorem MirrorRoots.self :
    ∀ {roots : List (Root α)} {roots' : List (Root Int)} {start : Int}
      {r : Nat}, MirrorRoots R child child' n roots roots' start r →
      MirrorRoots (fun _ _ => True) child' child' n roots' roots' start r := by
  intro roots
  induction roots with
  | nil =>
      intro roots' start r h
      cases roots' with
      | nil => trivial
      | cons => exact h.elim
  | cons root rest ih =>
      intro roots' start r h
      cases roots' with
      | nil => exact h.elim
      | cons root' rest' =>
          obtain ⟨⟨hdepth, hcount⟩, hslots, hrest⟩ := h
          have hcap : root'.cap n = root.cap n := by
            unfold Root.cap
            rw [hdepth, hcount]
          have hfull : root'.full n = root.full n := by
            unfold Root.full
            rw [hdepth, hcount]
          refine ⟨⟨rfl, rfl⟩, ?_, ?_⟩
          · rw [hdepth, hcount]
            exact MirrorSlots.self (fun hm => hm.self) hslots
          · rw [hcap, hfull]
            exact ih hrest

end OperatingSystem.Lib
