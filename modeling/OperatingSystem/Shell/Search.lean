/-
What a recall selects.

`request` reads a word: from which end of the history it counts, and how far.
`asked` is the entry that means, if there is one. `toBeCalled`, with its checks
in `checkHist`, its unsigned comparison and its walks from a sentinel, finds
that entry and otherwise `NULL`; but a negative number is compared as
`n + 2^32`, and where the history is as long as that the walk goes nowhere and
ends at the sentinel it starts from (`Wraps`).
-/
import OperatingSystem.Shell.History

namespace OperatingSystem.Shell

open Lib (i32)

variable {s : State} {L : List Nat} {p : Nat} {n : Int}
  {atoi : Token → Int} {word : Token}

-- ============================================================ the request

/-- The end of the history a recall counts from. -/
inductive End where
  | oldest
  | newest
  deriving DecidableEq, Repr

/-- What a word asks for: `!!` is `!-1`. -/
def request (atoi : Token → Int) (word : Token) : Option (End × Int) :=
  if word = ['!', '!'] then some (.newest, 1)
  else if ['!', '-'].isPrefixOf word then
    some (.newest, i32 (atoi (word.drop 2)))
  else if ['!'].isPrefixOf word then some (.oldest, i32 (atoi (word.drop 1)))
  else none

/-- The `n`-th entry of a history that counts `numHist`. -/
def nth (L : List Nat) (numHist : Nat) (n : Int) : Option Nat :=
  if 1 ≤ n ∧ n ≤ numHist then L[n.toNat - 1]? else none

/-- The entry a word asks for in the history `L`, oldest first. -/
def asked (atoi : Token → Int) (word : Token) (numHist : Nat) (L : List Nat) :
    Option Nat :=
  match request atoi word with
  | some (.oldest, n) => nth L numHist n
  | some (.newest, n) => nth L.reverse numHist n
  | none => none

/-- A word asks for a negative number that the comparison lets through. -/
def Wraps (atoi : Token → Int) (word : Token) (numHist : Nat) : Prop :=
  ∃ e n, request atoi word = some (e, n) ∧ n < 0 ∧ u32 n ≤ numHist

theorem nth_mem {numHist : Nat} (h : nth L numHist n = some p) : p ∈ L := by
  unfold nth at h
  split at h
  case isTrue => exact List.mem_of_getElem? h
  case isFalse => cases h

/-- What is asked for is an entry. -/
theorem asked_mem {numHist : Nat} (h : asked atoi word numHist L = some p) :
    p ∈ L := by
  unfold asked at h
  split at h
  case h_1 => exact nth_mem h
  case h_2 => exact List.mem_reverse.mp (nth_mem h)
  case h_3 => cases h

/-- There is such an entry exactly when the number is in range. -/
theorem nth_isSome {numHist : Nat} (hle : numHist ≤ L.length) :
    (nth L numHist n).isSome ↔ 1 ≤ n ∧ n ≤ numHist := by
  unfold nth
  split
  case isTrue hn =>
    refine iff_of_true ?_ hn
    rw [List.getElem?_eq_getElem (by omega)]
    rfl
  case isFalse hn => exact iff_of_false Bool.false_ne_true hn

-- =========================================================== the searches

/-- `isBeginWith`, for a prefix that is there at all. -/
theorem isBeginWith_iff {str1 str2 : Token} (h : str2 ≠ []) :
    isBeginWith str1 str2 = 1 ↔ str2.isPrefixOf str1 = true := by
  unfold isBeginWith
  split
  case isTrue hshort =>
    refine iff_of_false (by decide) fun hprefix => ?_
    have hle := (List.isPrefixOf_iff_prefix.mp hprefix).length_le
    have hpos := List.length_pos_of_ne_nil h
    omega
  case isFalse => split <;> simp_all

/-- `toBeCalled`, by what is asked for. -/
theorem toBeCalled_request (atoi : Token → Int) (word : Token) (s : State) :
    toBeCalled atoi word s = match request atoi word with
      | some (.oldest, n) => if n = 0 then some NULL else findFirstN s n
      | some (.newest, n) => if n = 0 then some NULL else findLastN s n
      | none => some NULL := by
  unfold toBeCalled checkHist request
  simp only [isBeginWith_iff (List.cons_ne_nil _ _)]
  split_ifs
  all_goals simp_all

/-- A number that is not compared as another one. -/
theorem u32_of_pos (hlo : 1 ≤ n) (hhi : n < 2147483648) : (u32 n : Int) = n := by
  unfold u32
  omega

theorem findFirstN_nth (h : Listing s L) (hle : s.numHist ≤ L.length)
    (hhi : n < 2147483648) (hok : 1 ≤ n ∨ s.numHist < u32 n) :
    findFirstN s n = some ((nth L s.numHist n).getD NULL) := by
  by_cases hin : 1 ≤ n ∧ n ≤ s.numHist
  case pos =>
    have hu := u32_of_pos hin.1 hhi
    have hlt : n.toNat - 1 < L.length := by omega
    rw [findFirstN_eq h hin.1 (by omega) (by omega), nth, if_pos hin,
      List.getElem?_eq_getElem hlt, firstOf, List.drop_eq_getElem_cons hlt]
    rfl
  case neg =>
    have hmany : u32 n > s.numHist := by
      rcases hok with hlo | hmany
      · have hu := u32_of_pos hlo hhi
        omega
      · exact hmany
    rw [nth, if_neg hin, findFirstN, if_pos hmany]
    rfl

theorem findLastN_nth (h : Listing s L) (hle : s.numHist ≤ L.length)
    (hhi : n < 2147483648) (hok : 1 ≤ n ∨ s.numHist < u32 n) :
    findLastN s n = some ((nth L.reverse s.numHist n).getD NULL) := by
  by_cases hin : 1 ≤ n ∧ n ≤ s.numHist
  case pos =>
    have hu := u32_of_pos hin.1 hhi
    have hlt : n.toNat - 1 < L.length := by omega
    have hlast : L.length - (n.toNat - 1) = L.length - 1 - (n.toNat - 1) + 1 := by
      omega
    rw [findLastN_eq h hin.1 (by omega) (by omega), nth, if_pos hin,
      List.getElem?_reverse hlt, List.getElem?_eq_getElem (by omega), lastOf,
      hlast, ← List.take_append_getElem (by omega), List.getLastD_concat]
    rfl
  case neg =>
    have hmany : u32 n > s.numHist := by
      rcases hok with hlo | hmany
      · have hu := u32_of_pos hlo hhi
        omega
      · exact hmany
    rw [nth, if_neg hin, findLastN, if_pos hmany]
    rfl

/-- The recall finds what is asked for, or nothing. -/
theorem toBeCalled_asked (h : Listing s L) (hle : s.numHist ≤ L.length)
    (hok : ¬Wraps atoi word s.numHist) :
    toBeCalled atoi word s
      = some ((asked atoi word s.numHist L).getD NULL) := by
  have hnth (L' : List Nat) : nth L' s.numHist 0 = none :=
    if_neg fun hin => absurd hin.1 (by decide)
  have hrange {e : End} {n : Int} (hreq : request atoi word = some (e, n))
      (hzero : n ≠ 0) : 1 ≤ n ∨ s.numHist < u32 n := by
    by_contra hboth
    refine hok ⟨e, n, hreq, ?_, ?_⟩ <;> omega
  have hhi {e : End} {n : Int} (hreq : request atoi word = some (e, n)) :
      n < 2147483648 := by
    unfold request at hreq
    split_ifs at hreq
    · cases hreq
      decide
    · cases hreq
      exact Lib.i32_lt _
    · cases hreq
      exact Lib.i32_lt _
  rw [toBeCalled_request]
  unfold asked
  cases hreq : request atoi word with
  | none => rfl
  | some r =>
      obtain ⟨e, n⟩ := r
      by_cases hzero : n = 0
      · subst hzero
        cases e <;> simp [hnth]
      · cases e with
        | oldest =>
            simp only [if_neg hzero]
            exact findFirstN_nth h hle (hhi hreq) (hrange hreq hzero)
        | newest =>
            simp only [if_neg hzero]
            exact findLastN_nth h hle (hhi hreq) (hrange hreq hzero)

/-- Or a sentinel, for a number that wraps. -/
theorem toBeCalled_wraps (hw : Wraps atoi word s.numHist) :
    toBeCalled atoi word s = some s.mem.head
      ∨ toBeCalled atoi word s = some s.mem.tail := by
  obtain ⟨e, n, hreq, hneg, hle⟩ := hw
  have hzero : n.toNat = 0 := by omega
  rw [toBeCalled_request, hreq]
  cases e with
  | oldest =>
      left
      simp only
      rw [if_neg (by omega), findFirstN, if_neg (by omega), if_neg (by omega),
        hzero]
      rfl
  | newest =>
      right
      simp only
      rw [if_neg (by omega), findLastN, if_neg (by omega), if_neg (by omega),
        hzero]
      rfl

theorem i32_neg_le (n : Int) : -2147483648 ≤ i32 n := by
  unfold i32
  have := Int.le_bmod (x := n) (show 0 < 2 ^ 32 by decide)
  omega

/-- With fewer than `2^31` entries no number wraps. -/
theorem not_wraps {numHist : Nat} (hsmall : numHist < 2147483648) :
    ¬Wraps atoi word numHist := by
  rintro ⟨e, n, hreq, hneg, hle⟩
  have hlo : -2147483648 ≤ n := by
    unfold request at hreq
    split_ifs at hreq
    · cases hreq
      decide
    · cases hreq
      exact i32_neg_le _
    · cases hreq
      exact i32_neg_le _
  unfold u32 at hle
  omega

/-- A recall selects an entry of the history, or nothing. -/
theorem toBeCalled_listed (h : Listing s L) (hle : s.numHist ≤ L.length)
    (hok : ¬Wraps atoi word s.numHist) :
    ∃ p, toBeCalled atoi word s = some p ∧ (p = NULL ∨ p ∈ L) := by
  refine ⟨_, toBeCalled_asked h hle hok, ?_⟩
  cases hasked : asked atoi word s.numHist L with
  | none => exact .inl rfl
  | some p => exact .inr (asked_mem hasked)

end OperatingSystem.Shell
