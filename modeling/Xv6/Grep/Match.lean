import Mathlib.Data.List.Forall2
import Mathlib.Tactic.Common

/-!
# The matcher of `grep`

`match`, `matchhere` and `matchstar` of `user/grep.c`.  A C string is the list of its characters before the
NUL, so `*text == '\0'` is `text = []`, and a pointer never moves past the NUL.

* `Item`, `Reading`, `reading` — a pattern read as an optional `^`, items `c` or `c*`, and an optional `$`.
* `Splits`, `Reading.Matches` — what a pattern means.
* `matchstar_iff`, `matchhere_iff`, `grepMatch_iff` — the functions compute that meaning.

Both functions recurse on the lengths of the pattern and the text, so they return on every input.
-/

namespace Xv6.Grep

def CARET : UInt8 := 94
def DOLLAR : UInt8 := 36
def STAR : UInt8 := 42
def DOT : UInt8 := 46

mutual

/-- Search for `re` at the beginning of `text`. -/
def matchhere (re text : List UInt8) : Bool :=
  match re with
  | [] => true
  | [c] =>
    if c = DOLLAR then text.isEmpty
    else match text with
      | [] => false
      | t :: text => if c = DOT ∨ c = t then matchhere [] text else false
  | c :: x :: re =>
    if x = STAR then matchstar c re text
    else match text with
      | [] => false
      | t :: text => if c = DOT ∨ c = t then matchhere (x :: re) text else false
termination_by re.length + text.length

/-- Search for `c*re` at the beginning of `text`. -/
def matchstar (c : UInt8) (re text : List UInt8) : Bool :=
  if matchhere re text then true
  else match text with
    | [] => false
    | t :: text => if t = c ∨ c = DOT then matchstar c re text else false
termination_by re.length + text.length + 1

end

/-- The loop of `match`: every suffix of `text`, the empty one too. -/
def matchLoop (re : List UInt8) : List UInt8 → Bool
  | [] => matchhere re []
  | t :: text => if matchhere re (t :: text) then true else matchLoop re text

/-- `match`. -/
def grepMatch (re text : List UInt8) : Bool :=
  match re with
  | [] => matchLoop [] text
  | c :: re => if c = CARET then matchhere re text else matchLoop (c :: re) text

/-! ## What a pattern means -/

inductive Item where
  | one (c : UInt8)
  | star (c : UInt8)
  deriving DecidableEq, Repr

/-- A pattern as it is read. -/
structure Reading where
  atStart : Bool
  items : List Item
  atEnd : Bool
  deriving DecidableEq, Repr

/-- The items, and whether a final `$` follows them. -/
def readItems : List UInt8 → List Item × Bool
  | [] => ([], false)
  | [c] => if c = DOLLAR then ([], true) else ([.one c], false)
  | c :: x :: re =>
    if x = STAR then (.star c :: (readItems re).1, (readItems re).2)
    else (.one c :: (readItems (x :: re)).1, (readItems (x :: re)).2)

def reading (re : List UInt8) : Reading :=
  match re with
  | [] => ⟨false, [], false⟩
  | c :: re' => if c = CARET then ⟨true, (readItems re').1, (readItems re').2⟩
    else ⟨false, (readItems re).1, (readItems re).2⟩

def Item.text : Item → List UInt8
  | .one c => [c]
  | .star c => [c, STAR]

def Reading.text (r : Reading) : List UInt8 :=
  (if r.atStart then [CARET] else []) ++ (r.items.flatMap Item.text ++ if r.atEnd then [DOLLAR] else [])

/-- `.` stands for any character. -/
def Fits (c t : UInt8) : Prop := c = DOT ∨ t = c

/-- The piece of text that an item stands for. -/
def Item.Matches : Item → List UInt8 → Prop
  | .one c, w => ∃ t, w = [t] ∧ Fits c t
  | .star c, w => ∀ t ∈ w, Fits c t

/-- The text is made of pieces that match the items in order. -/
def Splits (items : List Item) (w : List UInt8) : Prop :=
  ∃ pieces : List (List UInt8), pieces.flatten = w ∧ List.Forall₂ Item.Matches items pieces

/-- Some substring matches the items; it starts at `0` or ends at the end where the pattern says so. -/
def Reading.Matches (r : Reading) (text : List UInt8) : Prop :=
  ∃ pre w post, text = pre ++ w ++ post ∧ (r.atStart → pre = []) ∧ (r.atEnd → post = []) ∧ Splits r.items w

/-! ## Readings -/

theorem readItems_text : ∀ re : List UInt8,
    (readItems re).1.flatMap Item.text ++ (if (readItems re).2 then [DOLLAR] else []) = re
  | [] => rfl
  | [c] => by
    unfold readItems
    split
    · rename_i hc
      simp [hc]
    · simp [Item.text]
  | c :: x :: re => by
    unfold readItems
    split
    · rename_i hx
      have ih := readItems_text re
      simp [Item.text, hx, ih]
    · have ih := readItems_text (x :: re)
      simp [Item.text, ih]

/-- A reading is a reading of the whole pattern. -/
theorem reading_text (re : List UInt8) : (reading re).text = re := by
  unfold reading Reading.text
  split
  · rfl
  · rename_i c re'
    split
    · rename_i hc
      simp [hc, readItems_text]
    · simp [readItems_text]

/-! ## Pieces -/

variable {c : UInt8} {items : List Item} {e : Bool} {re text : List UInt8}

/-- The text begins with pieces that match the items, and ends there if `e`. -/
def Here (items : List Item) (e : Bool) (text : List UInt8) : Prop :=
  ∃ w post, text = w ++ post ∧ (e → post = []) ∧ Splits items w

theorem splits_nil {w : List UInt8} : Splits [] w ↔ w = [] := by
  constructor
  · rintro ⟨pieces, rfl, h⟩
    cases h
    rfl
  · rintro rfl
    exact ⟨[], rfl, .nil⟩

theorem splits_cons {i : Item} {w : List UInt8} :
    Splits (i :: items) w ↔ ∃ u v, w = u ++ v ∧ i.Matches u ∧ Splits items v := by
  constructor
  · rintro ⟨pieces, rfl, h⟩
    cases h with
    | cons hi hrest => exact ⟨_, _, List.flatten_cons, hi, _, rfl, hrest⟩
  · rintro ⟨u, _, rfl, hi, pieces, rfl, hrest⟩
    exact ⟨u :: pieces, List.flatten_cons, .cons hi hrest⟩

theorem here_nil : Here [] e text ↔ (e → text = []) := by
  constructor
  · rintro ⟨w, post, rfl, he, hw⟩ h
    rw [splits_nil.1 hw, he h]
    rfl
  · intro h
    exact ⟨[], text, rfl, h, splits_nil.2 rfl⟩

theorem here_cons {i : Item} :
    Here (i :: items) e text ↔ ∃ u rest, text = u ++ rest ∧ i.Matches u ∧ Here items e rest := by
  constructor
  · rintro ⟨w, post, rfl, he, hw⟩
    obtain ⟨u, v, rfl, hi, hv⟩ := splits_cons.1 hw
    exact ⟨u, v ++ post, List.append_assoc .., hi, v, post, rfl, he, hv⟩
  · rintro ⟨u, _, rfl, hi, v, post, rfl, he, hv⟩
    exact ⟨u ++ v, post, (List.append_assoc ..).symm, he, splits_cons.2 ⟨u, v, rfl, hi, hv⟩⟩

theorem here_one : Here (.one c :: items) e text ↔ ∃ t rest, text = t :: rest ∧ Fits c t ∧ Here items e rest := by
  rw [here_cons]
  constructor
  · rintro ⟨_, rest, rfl, ⟨t, rfl, ht⟩, hrest⟩
    exact ⟨t, rest, rfl, ht, hrest⟩
  · rintro ⟨t, rest, rfl, ht, hrest⟩
    exact ⟨[t], rest, rfl, ⟨t, rfl, ht⟩, hrest⟩

/-! ## The functions -/

/-- `matchstar` tries every number of characters that fit `c`. -/
theorem matchstar_iff (c : UInt8) (re : List UInt8) : ∀ text : List UInt8,
    matchstar c re text = true ↔
      ∃ u rest, text = u ++ rest ∧ (∀ t ∈ u, Fits c t) ∧ matchhere re rest = true
  | [] => by
    rw [matchstar]
    constructor
    · intro h
      exact ⟨[], [], rfl, fun _ ht => (nomatch ht), by simpa using h⟩
    · rintro ⟨u, rest, h, -, hre⟩
      obtain ⟨rfl, rfl⟩ := List.append_eq_nil_iff.1 h.symm
      simp [hre]
  | t :: text => by
    have ih := matchstar_iff c re text
    rw [matchstar]
    constructor
    · intro h
      split at h
      · rename_i hre
        exact ⟨[], t :: text, rfl, fun _ ht => (nomatch ht), hre⟩
      · split at h
        · rename_i ht
          obtain ⟨u, rest, rfl, hu, hre⟩ := ih.1 h
          refine ⟨t :: u, rest, rfl, fun x hx => ?_, hre⟩
          obtain rfl | hx := List.mem_cons.1 hx
          · exact ht.symm
          · exact hu x hx
        · cases h
    · rintro ⟨u, rest, h, hu, hre⟩
      cases u with
      | nil =>
        obtain rfl : t :: text = rest := h
        simp [hre]
      | cons x u =>
        obtain ⟨rfl, rfl⟩ := List.cons_eq_cons.1 h
        have ht : t = c ∨ c = DOT := (hu t List.mem_cons_self).symm
        have htail : matchstar c re (u ++ rest) = true :=
          ih.2 ⟨u, rest, rfl, fun y hy => hu y (List.mem_cons_of_mem t hy), hre⟩
        simp [ht, htail]

theorem not_here_one : ¬ Here (.one c :: items) e [] := by
  rw [here_one]
  rintro ⟨t, rest, h, -⟩
  cases h

/-- One character that is not starred. -/
theorem matchone_iff {t : UInt8} {b : Bool} (h : b = true ↔ Here items e text) :
    (if c = DOT ∨ c = t then b else false) = true ↔ Here (.one c :: items) e (t :: text) := by
  have hfits : c = DOT ∨ c = t ↔ Fits c t := or_congr Iff.rfl eq_comm
  rw [here_one]
  simp only [hfits, Bool.if_false_right, Bool.and_eq_true, decide_eq_true_eq, h]
  constructor
  · rintro ⟨ht, hrest⟩
    exact ⟨t, text, rfl, ht, hrest⟩
  · rintro ⟨_, _, heq, ht, hrest⟩
    obtain ⟨rfl, rfl⟩ := List.cons_eq_cons.1 heq
    exact ⟨ht, hrest⟩

/-- **`matchhere`** matches the items of `re` at the beginning of the text. -/
theorem matchhere_iff : ∀ re text : List UInt8,
    matchhere re text = true ↔ Here (readItems re).1 (readItems re).2 text
  | [], text => by
    rw [matchhere, readItems, here_nil]
    simp
  | [c], text => by
    rw [matchhere.eq_def, readItems]
    dsimp only
    by_cases hc : c = DOLLAR
    · rw [if_pos hc, if_pos hc, here_nil]
      simp
    · rw [if_neg hc, if_neg hc]
      cases text with
      | nil => simp [not_here_one]
      | cons t text => exact matchone_iff (matchhere_iff [] text)
  | c :: x :: re, text => by
    rw [matchhere.eq_def, readItems]
    dsimp only
    by_cases hx : x = STAR
    · rw [if_pos hx, if_pos hx, matchstar_iff, here_cons]
      simp only [matchhere_iff re]
      rfl
    · rw [if_neg hx, if_neg hx]
      cases text with
      | nil => simp [not_here_one]
      | cons t text => exact matchone_iff (matchhere_iff (x :: re) text)

/-- The loop of `match` tries every suffix. -/
theorem matchLoop_iff (re : List UInt8) : ∀ text : List UInt8,
    matchLoop re text = true ↔ ∃ pre rest, text = pre ++ rest ∧ matchhere re rest = true
  | [] => by
    rw [matchLoop]
    constructor
    · exact fun h => ⟨[], [], rfl, h⟩
    · rintro ⟨pre, rest, h, hre⟩
      obtain ⟨rfl, rfl⟩ := List.append_eq_nil_iff.1 h.symm
      exact hre
  | t :: text => by
    have ih := matchLoop_iff re text
    rw [matchLoop]
    constructor
    · intro h
      split at h
      · rename_i hre
        exact ⟨[], t :: text, rfl, hre⟩
      · obtain ⟨pre, rest, rfl, hre⟩ := ih.1 h
        exact ⟨t :: pre, rest, rfl, hre⟩
    · rintro ⟨pre, rest, h, hre⟩
      cases pre with
      | nil =>
        obtain rfl : t :: text = rest := h
        simp [hre]
      | cons x pre =>
        obtain ⟨rfl, rfl⟩ := List.cons_eq_cons.1 h
        have htail : matchLoop re (pre ++ rest) = true := ih.2 ⟨pre, rest, rfl, hre⟩
        simp [htail]

/-- A pattern without `^` may match anywhere. -/
theorem matchLoop_reading (re text : List UInt8) :
    matchLoop re text = true ↔ Reading.Matches ⟨false, (readItems re).1, (readItems re).2⟩ text := by
  rw [matchLoop_iff]
  constructor
  · rintro ⟨pre, rest, rfl, hre⟩
    obtain ⟨w, post, rfl, he, hw⟩ := (matchhere_iff re rest).1 hre
    exact ⟨pre, w, post, (List.append_assoc ..).symm, fun h => (nomatch h), he, hw⟩
  · rintro ⟨pre, w, post, rfl, -, he, hw⟩
    exact ⟨pre, w ++ post, List.append_assoc .., (matchhere_iff re _).2 ⟨w, post, rfl, he, hw⟩⟩

/-- **`match`** computes the meaning of the pattern. -/
theorem grepMatch_iff (re text : List UInt8) : grepMatch re text = true ↔ (reading re).Matches text := by
  cases re with
  | nil => exact matchLoop_reading [] text
  | cons c re =>
    unfold grepMatch reading
    by_cases hc : c = CARET
    · simp only [hc, if_true]
      rw [matchhere_iff]
      constructor
      · rintro ⟨w, post, rfl, he, hw⟩
        exact ⟨[], w, post, rfl, fun _ => rfl, he, hw⟩
      · rintro ⟨pre, w, post, rfl, hs, he, hw⟩
        rw [hs rfl]
        exact ⟨w, post, rfl, he, hw⟩
    · simp only [hc, if_false]
      exact matchLoop_reading (c :: re) text

/-- **The matcher computes the pattern's meaning**: it returns `1` exactly on the texts that the pattern, read
as it stands, matches. -/
theorem grep_computes_meaning (re text : List UInt8) :
    (reading re).text = re ∧ (grepMatch re text = true ↔ (reading re).Matches text) :=
  ⟨reading_text re, grepMatch_iff re text⟩

end Xv6.Grep
