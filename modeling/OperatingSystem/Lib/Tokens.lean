/-
`strtok`, and the words it finds.

`runs` is what the tokens of a text are: its maximal runs of characters that
are no delimiters. `strtok` goes through a block from a saved position: it
skips delimiters, remembers where the word starts, goes to its end, and puts a
`nul` over the delimiter it finds there.

A call meets one of three texts: one without a word, one whose last word ends
with it, and one with more behind its first word (`tokens_cases`).
-/
import Mathlib.Data.List.Forall2
import Mathlib.Data.List.TakeWhile
import OperatingSystem.Lib.Cells

namespace OperatingSystem.Lib

namespace Cells

variable {α : Type} {isDelim stop : α → Bool} {c tail : Cells α}
  {a b e nul : α} {d w l rest : List α} {p : Nat}

/-- The maximal runs of characters that are no delimiters. -/
def runs (isDelim : α → Bool) (l : List α) : List (List α) :=
  (l.splitOnP isDelim).filter fun w => !w.isEmpty

/-- How far it is to the first character that stops the scan. -/
def scan (stop : α → Bool) : Cells α → Option Nat
  | [] => none
  | none :: _ => none
  | some a :: rest => if stop a then some 0 else (scan stop rest).map (· + 1)

/-- `strtok` from the saved position `p`: where the next token starts, `none`
for `NULL`; the position it saves; and the block. -/
def strtok [DecidableEq α] (isDelim : α → Bool) (nul : α) (p : Nat)
    (c : Cells α) : Option (Option Nat × Nat × Cells α) := do
  let n ← scan (fun a => !isDelim a) (c.drop p)
  let start := p + n
  let a ← load c start
  if a = nul then some (none, start, c)
  else do
    let m ← scan (fun a => isDelim a || a == nul) (c.drop start)
    let stop := start + m
    let e ← load c stop
    if e = nul then some (some start, stop, c)
    else do
      let c ← store c stop nul
      some (some start, stop + 1, c)

-- =============================================================== the runs

theorem runs_cons_delim (ha : isDelim a = true) (l : List α) :
    runs isDelim (a :: l) = runs isDelim l := by
  unfold runs
  rw [← List.nil_append (a :: l), List.splitOnP_append_cons_of_forall_mem (by simp) a ha]
  rfl

theorem runs_delims (hd : ∀ a ∈ d, isDelim a = true) (l : List α) :
    runs isDelim (d ++ l) = runs isDelim l := by
  induction d with
  | nil => rfl
  | cons a d ih =>
      rw [List.cons_append, runs_cons_delim (hd a List.mem_cons_self),
        ih fun b hb => hd b (List.mem_cons_of_mem a hb)]

theorem runs_nil : runs isDelim [] = [] := rfl

theorem runs_word (hw : ∀ a ∈ w, isDelim a = false) (hne : w ≠ []) :
    runs isDelim w = [w] := by
  unfold runs
  rw [List.splitOnP_eq_singleton hw, List.filter_singleton]
  cases w with
  | nil => exact absurd rfl hne
  | cons a w => rfl

theorem runs_word_cons (hw : ∀ a ∈ w, isDelim a = false) (hne : w ≠ [])
    (he : isDelim e = true) (l : List α) :
    runs isDelim (w ++ e :: l) = w :: runs isDelim l := by
  unfold runs
  rw [List.splitOnP_append_cons_of_forall_mem hw e he, List.filter_cons]
  simp [hne]

/-- A delimiter at the end makes no difference. -/
theorem runs_append_delim (he : isDelim e = true) (l : List α) :
    runs isDelim (l ++ [e]) = runs isDelim l := by
  unfold runs
  rw [List.splitOnP_append_cons l [] he, List.filter_append]
  simp

/-- Every run has a character of its own. -/
theorem length_runs_le (isDelim : α → Bool) (l : List α) :
    (runs isDelim l).length ≤ l.length := by
  unfold runs
  induction l with
  | nil => simp
  | cons a l ih =>
      obtain ⟨w, ws, hsplit⟩ :=
        List.exists_cons_of_ne_nil (List.splitOnP_ne_nil isDelim l)
      rw [hsplit] at ih
      rw [List.splitOnP_cons_eq_if_modifyHead, hsplit, List.length_cons]
      split
      case isTrue =>
        rw [List.filter_cons_of_neg (by simp)]
        omega
      case isFalse =>
        have htail : (ws.filter fun w => !w.isEmpty).length
            ≤ ((w :: ws).filter fun w => !w.isEmpty).length :=
          ((List.sublist_cons_self w ws).filter _).length_le
        rw [List.modifyHead_cons, List.filter_cons_of_pos (by simp),
          List.length_cons]
        omega

/-- What a text can look like to one call. -/
theorem tokens_cases (isDelim : α → Bool) (l : List α) :
    (∀ a ∈ l, isDelim a = true)
    ∨ ∃ d w rest, l = d ++ (w ++ rest) ∧ (∀ a ∈ d, isDelim a = true)
        ∧ (∀ a ∈ w, isDelim a = false) ∧ w ≠ []
        ∧ (rest = [] ∨ ∃ e rest', rest = e :: rest' ∧ isDelim e = true) := by
  induction l with
  | nil => exact .inl nofun
  | cons a l ih =>
      by_cases ha : isDelim a = true
      · rcases ih with hall | ⟨d, w, rest, rfl, hd, hrest⟩
        · exact .inl fun b hb => by
            rcases List.mem_cons.mp hb with rfl | hb
            · exact ha
            · exact hall b hb
        · refine .inr ⟨a :: d, w, rest, rfl, fun b hb => ?_, hrest⟩
          rcases List.mem_cons.mp hb with rfl | hb
          · exact ha
          · exact hd b hb
      · have ha' : isDelim a = false := Bool.eq_false_iff.mpr ha
        refine .inr ⟨[], a :: l.takeWhile (fun b => !isDelim b),
          l.dropWhile (fun b => !isDelim b), ?_, nofun, ?_, List.cons_ne_nil _ _,
          ?_⟩
        · rw [List.nil_append, List.cons_append, List.takeWhile_append_dropWhile]
        · intro b hb
          rcases List.mem_cons.mp hb with rfl | hb
          · exact ha'
          · simpa using List.mem_takeWhile_imp hb
        · cases hrest : l.dropWhile (fun b => !isDelim b) with
          | nil => exact .inl rfl
          | cons e rest' =>
              have hhead := List.head_dropWhile_not (fun b => !isDelim b)
                (l := l) (by rw [hrest]; exact List.cons_ne_nil _ _)
              refine .inr ⟨e, rest', rfl, ?_⟩
              simpa [hrest] using hhead

/-- A text with a character that is no delimiter has a word. -/
theorem runs_ne_nil (ha : a ∈ l) (hnot : isDelim a = false) :
    runs isDelim l ≠ [] := by
  rcases tokens_cases isDelim l with hall | ⟨d, w, rest, rfl, hd, hw, hne, hrest⟩
  · rw [hall a ha] at hnot
    cases hnot
  · rw [runs_delims hd]
    rcases hrest with rfl | ⟨e, rest, rfl, he⟩
    · rw [List.append_nil, runs_word hw hne]
      exact List.cons_ne_nil _ _
    · rw [runs_word_cons hw hne he]
      exact List.cons_ne_nil _ _

-- =============================================================== the scans

theorem scan_append (hd : ∀ a ∈ d, stop a = false) (hb : stop b = true)
    (rest : Cells α) :
    scan stop (d.map some ++ some b :: rest) = some d.length := by
  induction d with
  | nil => exact if_pos hb
  | cons a d ih =>
      rw [List.map_cons, List.cons_append, scan,
        if_neg (by rw [hd a List.mem_cons_self]; exact Bool.false_ne_true),
        ih fun b hb => hd b (List.mem_cons_of_mem a hb)]
      rfl

/-- The character behind a part of the text. -/
theorem load_text {x : List α} (hc : c.drop p = x.map some ++ some a :: tail) :
    load c (p + x.length) = some a := by
  rw [← load_drop, hc, ← List.length_map (some : α → Option α)]
  exact load_append _ _ _

/-- The text behind it. -/
theorem drop_text {x : List α} (hc : c.drop p = x.map some ++ tail) :
    c.drop (p + x.length) = tail := by
  rw [← List.drop_drop, hc, ← List.length_map (some : α → Option α)]
  exact List.drop_left

-- ============================================================= the tokens

section Calls

variable [DecidableEq α]

/-- What a call finds where a word is. -/
theorem strtok_word (hd : ∀ a ∈ d, isDelim a = true) (hw : ∀ a ∈ w, isDelim a = false)
    (hwnul : ∀ a ∈ w, a ≠ nul) (hne : w ≠ [])
    (he : isDelim e = true ∨ e = nul)
    (hc : c.drop p = (d ++ w).map some ++ some e :: tail) :
    strtok isDelim nul p c
      = if e = nul then
          some (some (p + d.length), p + d.length + w.length, c)
        else (store c (p + d.length + w.length) nul).map fun c =>
          (some (p + d.length), p + d.length + w.length + 1, c) := by
  obtain ⟨a, w', rfl⟩ := List.exists_cons_of_ne_nil hne
  have ha : isDelim a = false := hw a List.mem_cons_self
  have hskip : scan (fun a => !isDelim a) (c.drop p) = some d.length := by
    rw [hc, List.map_append, List.append_assoc]
    exact scan_append (fun b hb => by rw [hd b hb]; rfl) (by rw [ha]; rfl) _
  have hfirst : load c (p + d.length) = some a := by
    have htext : c.drop p
        = d.map some ++ some a :: (w'.map some ++ some e :: tail) := by
      rw [hc]
      simp
    exact load_text htext
  have hrest : c.drop (p + d.length)
      = (a :: w').map some ++ some e :: tail := by
    refine drop_text (x := d) ?_
    rw [hc]
    simp
  have hend : scan (fun a => isDelim a || a == nul) (c.drop (p + d.length))
      = some (a :: w').length := by
    rw [hrest]
    refine scan_append (fun b hb => ?_) ?_ tail
    · simp [hw b hb, hwnul b hb]
    · simpa using he
  have hlast : load c (p + d.length + (a :: w').length) = some e :=
    load_text hrest
  unfold strtok
  simp only [Option.bind_eq_bind]
  rw [hskip, Option.bind_some, hfirst, Option.bind_some,
    if_neg (hwnul a List.mem_cons_self), hend, Option.bind_some, hlast,
    Option.bind_some]
  split
  case isTrue => rfl
  case isFalse => rw [Option.map_eq_bind]; rfl

/-- A text without a word. -/
theorem strtok_none (hnul : isDelim nul = false)
    (hd : ∀ a ∈ d, isDelim a = true)
    (hc : c.drop p = d.map some ++ some nul :: tail) :
    strtok isDelim nul p c = some (none, p + d.length, c) := by
  have hskip : scan (fun a => !isDelim a) (c.drop p) = some d.length := by
    rw [hc]
    exact scan_append (fun b hb => by rw [hd b hb]; rfl) (by rw [hnul]; rfl) _
  unfold strtok
  simp only [Option.bind_eq_bind]
  rw [hskip, Option.bind_some, load_text hc, Option.bind_some, if_pos rfl]

/-- A text that ends with its first word. -/
theorem strtok_last (hd : ∀ a ∈ d, isDelim a = true) (hw : ∀ a ∈ w, isDelim a = false)
    (hwnul : ∀ a ∈ w, a ≠ nul) (hne : w ≠ [])
    (hc : c.drop p = (d ++ w).map some ++ some nul :: tail) :
    strtok isDelim nul p c
      = some (some (p + d.length), p + d.length + w.length, c) := by
  rw [strtok_word hd hw hwnul hne (.inr rfl) hc, if_pos rfl]

/-- A text with more behind its first word: the delimiter between them is
overwritten. -/
theorem strtok_next (hnul : isDelim nul = false)
    (hd : ∀ a ∈ d, isDelim a = true) (hw : ∀ a ∈ w, isDelim a = false)
    (hwnul : ∀ a ∈ w, a ≠ nul) (hne : w ≠ []) (he : isDelim e = true)
    (hc : c.drop p = (d ++ w).map some ++ some e :: tail) :
    strtok isDelim nul p c
      = some (some (p + d.length), p + d.length + w.length + 1,
        c.set (p + d.length + w.length) (some nul)) := by
  have henul : e ≠ nul := by
    rintro rfl
    rw [he] at hnul
    cases hnul
  have hin : p + d.length + w.length < c.length := by
    have hlen := congrArg List.length hc
    rw [List.length_drop, List.length_append, List.length_map,
      List.length_append, List.length_cons] at hlen
    omega
  rw [strtok_word hd hw hwnul hne (.inl he) hc, if_neg henul,
    store_of_lt hin]
  rfl

/-- Where a text is on its way through `strtok`: the words `ws` start at `ps`
and end before the saved position, and behind that there is still `l`. -/
structure Cut (isDelim : α → Bool) (nul : α) (ps : List Nat)
    (ws : List (List α)) (l : List α) (c : Cells α) (saved : Nat) : Prop where
  found : List.Forall₂
    (fun p w => str nul (c.drop p) = some w ∧ p + w.length ≤ saved) ps ws
  rest : ∃ tail, c.drop saved = l.map some ++ some nul :: tail
  text : ∀ a ∈ l, a ≠ nul

variable {ps : List Nat} {ws : List (List α)} {saved saved' : Nat} {c' : Cells α}

/-- The words found stay where they are, if what is written lies behind. -/
theorem Cut.keep (h : Cut isDelim nul ps ws l c saved) (hle : saved ≤ saved')
    (hsame : ∀ p w, str nul (c.drop p) = some w → p + w.length ≤ saved →
      str nul (c'.drop p) = some w) :
    List.Forall₂ (fun p w => str nul (c'.drop p) = some w
      ∧ p + w.length ≤ saved') ps ws :=
  h.found.imp fun p w hw => ⟨hsame p w hw.1 hw.2, hw.2.trans hle⟩

/-- What the starts found point to. -/
theorem Cut.words (h : Cut isDelim nul ps ws l c saved) :
    ps.map (fun p => str nul (c.drop p)) = ws.map some := by
  have hall : List.Forall₂ (· = ·) (ps.map fun p => str nul (c.drop p))
      (ws.map some) := by
    rw [List.forall₂_map_left_iff, List.forall₂_map_right_iff]
    exact h.found.imp fun p w hw => hw.1
  rwa [List.forall₂_eq_eq_eq] at hall

/-- One call: there is no word left, or it finds the next one. -/
theorem Cut.call (h : Cut isDelim nul ps ws l c saved)
    (hnul : isDelim nul = false) : ∃ x saved' c',
      strtok isDelim nul saved c = some (x, saved', c')
      ∧ (x = none ∧ runs isDelim l = [] ∧ Cut isDelim nul ps ws [] c' saved'
        ∨ ∃ p w l', x = some p ∧ runs isDelim l = w :: runs isDelim l'
          ∧ Cut isDelim nul (ps ++ [p]) (ws ++ [w]) l' c' saved') := by
  obtain ⟨tail, hc⟩ := h.rest
  rcases tokens_cases isDelim l with hall | ⟨d, w, rest, rfl, hd, hw, hne, hrest⟩
  · refine ⟨none, saved + l.length, c, strtok_none hnul hall hc, .inl ⟨rfl, ?_, ?_⟩⟩
    · rw [← List.append_nil l, runs_delims hall, runs_nil]
    · exact ⟨h.keep (Nat.le_add_right _ _) fun _ _ hw _ => hw,
        ⟨tail, drop_text hc⟩, nofun⟩
  have hwnul : ∀ a ∈ w, a ≠ nul := fun a ha => h.text a (by simp [ha])
  rcases hrest with rfl | ⟨e, rest, rfl, he⟩
  · -- the word ends with the text: nothing is written
    rw [List.append_nil] at hc
    refine ⟨_, _, c, strtok_last hd hw hwnul hne hc, .inr ⟨_, w, [], rfl, ?_, ?_⟩⟩
    · rw [runs_delims hd, List.append_nil, runs_word hw hne, runs_nil]
    · have hstart : c.drop (saved + d.length) = w.map some ++ some nul :: tail := by
        refine drop_text (x := d) ?_
        rw [hc, List.map_append, List.append_assoc]
      refine ⟨List.rel_append (h.keep (by omega) fun _ _ hw _ => hw)
        (.cons ⟨?_, Nat.le_refl _⟩ .nil), ⟨tail, drop_text hstart⟩, nofun⟩
      rw [hstart, str_append hwnul]
  · -- the delimiter behind the word is overwritten
    have hc' : c.drop saved
        = (d ++ w).map some ++ some e :: (rest.map some ++ some nul :: tail) := by
      rw [hc]
      simp
    refine ⟨_, _, _, strtok_next hnul hd hw hwnul hne he hc',
      .inr ⟨_, w, rest, rfl, ?_, ?_⟩⟩
    · rw [runs_delims hd, runs_word_cons hw hne he]
    · have hstart : c.drop (saved + d.length)
          = w.map some ++ some e :: (rest.map some ++ some nul :: tail) := by
        refine drop_text (x := d) ?_
        rw [hc', List.map_append, List.append_assoc]
      have hpos : 0 < w.length := List.length_pos_of_ne_nil hne
      refine ⟨List.rel_append (h.keep (by omega) fun p w' hw' hle => ?_)
        (.cons ⟨?_, by omega⟩ .nil), ⟨tail, ?_⟩, fun a ha => h.text a (by simp [ha])⟩
      · rw [List.drop_set, if_neg (by omega)]
        exact str_set hw' (by omega) _
      · have hset : (w.map some
            ++ some e :: (rest.map some ++ some nul :: tail)).set w.length
              (some nul)
            = w.map some ++ some nul :: (rest.map some ++ some nul :: tail) := by
          simp
        rw [List.drop_set, if_neg (by omega), hstart, Nat.add_sub_cancel_left,
          hset, str_append hwnul]
      · have hstop : c.drop (saved + d.length + w.length)
            = some e :: (rest.map some ++ some nul :: tail) := drop_text hstart
        rw [List.drop_set, if_pos (Nat.lt_succ_self _), ← List.drop_drop, hstop]
        rfl

end Calls

end Cells

end OperatingSystem.Lib
