import Mathlib

/-!
# Radix tables in memory

A memory `m : Nat → Nat → Nat` gives entry `i` of the page at address `a` as `m a i`.  A table of
level `n + 1` holds pointers to tables of level `n`; a table of level `0` holds the leaf entries.

* `lookup m px n t` — the leaf entry on the path `px` (`px l` is the index at level `l`) below the
  table `t`; `0` when a table on the way is missing.
* `leafTable m px n t` — the table of level `0` on that path, if it is there.
* `tables m n t` — the pages of all tables below `t`, with multiplicity: a tree has no duplicates.
* `Inner P m n t` — the pointers to tables satisfy `P`.
* `path b v` — the digits of `v` in base `b`, the path of leaf number `v`.

Principal results: all of them depend on the pages in `tables m n t` only (`tables_congr`,
`lookup_congr`); what a write to a leaf entry does (`lookup_setLeaf`, `tables_setLeaf`); what a
change below one entry does (`Descend`).
-/

namespace Radix

/-- How an entry is read: `valid` when it points somewhere, to the page `child`. -/
structure Format where
  fan : Nat
  valid : Nat → Bool
  child : Nat → Nat
  valid_zero : valid 0 = false

variable (f : Format)

def lookup (m : Nat → Nat → Nat) (px : Nat → Nat) : Nat → Nat → Nat
  | 0, t => m t (px 0)
  | n + 1, t =>
    if f.valid (m t (px (n + 1))) then lookup m px n (f.child (m t (px (n + 1)))) else 0

def leafTable (m : Nat → Nat → Nat) (px : Nat → Nat) : Nat → Nat → Option Nat
  | 0, t => some t
  | n + 1, t =>
    if f.valid (m t (px (n + 1))) then leafTable m px n (f.child (m t (px (n + 1)))) else none

def tables (m : Nat → Nat → Nat) : Nat → Nat → Multiset Nat
  | 0, t => {t}
  | n + 1, t =>
    t ::ₘ ∑ i ∈ Finset.range f.fan,
      if f.valid (m t i) then tables m n (f.child (m t i)) else 0

/-- The tables below one entry of a table of level `n + 1`. -/
def below (m : Nat → Nat → Nat) (n w : Nat) : Multiset Nat :=
  if f.valid w then tables f m n (f.child w) else 0

def Inner (P : Nat → Prop) (m : Nat → Nat → Nat) : Nat → Nat → Prop
  | 0, _ => True
  | n + 1, t => ∀ i, i < f.fan → f.valid (m t i) = true → P (m t i) ∧ Inner P m n (f.child (m t i))

variable {f} {m m' : Nat → Nat → Nat} {px px' : Nat → Nat} {n t : Nat} {P : Nat → Prop}

theorem lookup_zero : lookup f m px 0 t = m t (px 0) := rfl

theorem lookup_succ : lookup f m px (n + 1) t =
    if f.valid (m t (px (n + 1))) then lookup f m px n (f.child (m t (px (n + 1)))) else 0 := rfl

theorem leafTable_zero : leafTable f m px 0 t = some t := rfl

theorem leafTable_succ : leafTable f m px (n + 1) t =
    if f.valid (m t (px (n + 1))) then leafTable f m px n (f.child (m t (px (n + 1)))) else none := rfl

theorem inner_succ : Inner f P m (n + 1) t ↔ ∀ i, i < f.fan → f.valid (m t i) = true →
    P (m t i) ∧ Inner f P m n (f.child (m t i)) := Iff.rfl

theorem tables_zero : tables f m 0 t = {t} := rfl

theorem tables_succ : tables f m (n + 1) t = t ::ₘ ∑ i ∈ Finset.range f.fan, below f m n (m t i) := rfl

theorem tables_split {i : Nat} (hi : i < f.fan) :
    tables f m (n + 1) t = t ::ₘ (below f m n (m t i) +
      ∑ j ∈ (Finset.range f.fan).erase i, below f m n (m t j)) := by
  rw [tables_succ, ← Finset.add_sum_erase _ _ (Finset.mem_range.2 hi)]

theorem below_of_valid {w : Nat} (h : f.valid w = true) : below f m n w = tables f m n (f.child w) :=
  if_pos h

theorem below_of_not_valid {w : Nat} (h : ¬ f.valid w = true) : below f m n w = 0 := if_neg h

theorem self_mem_tables (n t : Nat) : t ∈ tables f m n t := by
  cases n with
  | zero | succ n => simp [tables]

theorem child_mem_tables {i a : Nat} (hi : i < f.fan) (hv : f.valid (m t i) = true)
    (ha : a ∈ tables f m n (f.child (m t i))) : a ∈ tables f m (n + 1) t := by
  rw [tables_split hi, below_of_valid hv]
  simp [ha]

/-! ## Only the pages of the tables matter -/

theorem tables_congr (h : ∀ a ∈ tables f m n t, ∀ i, m' a i = m a i) :
    tables f m' n t = tables f m n t := by
  induction n generalizing t with
  | zero => rfl
  | succ n ih =>
    have ht : ∀ i, m' t i = m t i := h t (self_mem_tables _ _)
    simp only [tables_succ, ht]
    congr 1
    refine Finset.sum_congr rfl fun i hi => ?_
    unfold below
    split
    · rename_i hv
      exact ih fun a ha => h a (child_mem_tables (Finset.mem_range.1 hi) hv ha)
    · rfl

theorem lookup_congr (hpx : ∀ l, px l < f.fan) (h : ∀ a ∈ tables f m n t, ∀ i, m' a i = m a i) :
    lookup f m' px n t = lookup f m px n t := by
  induction n generalizing t with
  | zero => exact h t (self_mem_tables _ _) _
  | succ n ih =>
    have ht : ∀ i, m' t i = m t i := h t (self_mem_tables _ _)
    simp only [lookup, ht]
    split
    · rename_i hv
      exact ih fun a ha => h a (child_mem_tables (hpx _) hv ha)
    · rfl

theorem leafTable_congr (hpx : ∀ l, px l < f.fan) (h : ∀ a ∈ tables f m n t, ∀ i, m' a i = m a i) :
    leafTable f m' px n t = leafTable f m px n t := by
  induction n generalizing t with
  | zero => rfl
  | succ n ih =>
    have ht : ∀ i, m' t i = m t i := h t (self_mem_tables _ _)
    simp only [leafTable, ht]
    split
    · rename_i hv
      exact ih fun a ha => h a (child_mem_tables (hpx _) hv ha)
    · rfl

theorem inner_congr (h : ∀ a ∈ tables f m n t, ∀ i, m' a i = m a i) :
    Inner f P m' n t ↔ Inner f P m n t := by
  induction n generalizing t with
  | zero => rfl
  | succ n ih =>
    have ht : ∀ i, m' t i = m t i := h t (self_mem_tables _ _)
    simp only [Inner, ht]
    refine forall_congr' fun i => forall_congr' fun hi => forall_congr' fun hv => ?_
    rw [ih fun a ha => h a (child_mem_tables hi hv ha)]

theorem leafTable_mem {q : Nat} (hpx : ∀ l, px l < f.fan) (h : leafTable f m px n t = some q) :
    q ∈ tables f m n t := by
  induction n generalizing t with
  | zero => cases h; exact self_mem_tables _ _
  | succ n ih =>
    simp only [leafTable] at h
    split at h
    · rename_i hv
      exact child_mem_tables (hpx _) hv (ih h)
    · cases h

theorem lookup_of_leafTable {q : Nat} (h : leafTable f m px n t = some q) :
    lookup f m px n t = m q (px 0) := by
  induction n generalizing t with
  | zero => cases h; rfl
  | succ n ih =>
    simp only [leafTable] at h
    simp only [lookup]
    split at h
    · rename_i hv
      rw [if_pos hv]
      exact ih h
    · cases h

theorem lookup_of_leafTable_none (h : leafTable f m px n t = none) : lookup f m px n t = 0 := by
  induction n generalizing t with
  | zero => cases h
  | succ n ih =>
    simp only [leafTable] at h
    simp only [lookup]
    split at h
    · rename_i hv
      rw [if_pos hv]
      exact ih h
    · rename_i hv
      rw [if_neg hv]

/-! ## Changing the tables below one entry -/

/-- A table of level `n + 1` whose tables do not repeat: the pages below entry `i`, those below
the other entries, and the table itself. -/
theorem nodup_split {i : Nat} {F : Multiset Nat} (hi : i < f.fan)
    (h : (tables f m (n + 1) t + F).Nodup) :
    (below f m n (m t i) + F).Nodup ∧ t ∉ below f m n (m t i) + F ∧
      ∀ j, j < f.fan → j ≠ i → ∀ a ∈ below f m n (m t j), a ∉ below f m n (m t i) + F ∧ a ≠ t := by
  rw [tables_split hi, Multiset.cons_add, Multiset.nodup_cons] at h
  obtain ⟨ht, hrest⟩ := h
  rw [add_right_comm] at hrest ht
  obtain ⟨h1, h2, h3⟩ := Multiset.nodup_add.1 hrest
  refine ⟨h1, fun h => ht (Multiset.mem_add.2 (Or.inl h)), fun j hj hji a ha => ?_⟩
  have ha' : a ∈ ∑ k ∈ (Finset.range f.fan).erase i, below f m n (m t k) := by
    rw [← Finset.add_sum_erase _ _ (Finset.mem_erase.2 ⟨hji, Finset.mem_range.2 hj⟩)]
    exact Multiset.mem_add.2 (Or.inl ha)
  refine ⟨fun h => Multiset.disjoint_left.1 h3 h ha', ?_⟩
  rintro rfl
  exact ht (Multiset.mem_add.2 (Or.inr ha'))

section descend

variable {i : Nat} {F : Multiset Nat}

/-- The memory changes below entry `i`, in the pages `F`, and possibly in the entry itself. -/
structure Descend (f : Format) (m m' : Nat → Nat → Nat) (n t i : Nat) (F : Multiset Nat) : Prop where
  index : i < f.fan
  nodup : (tables f m (n + 1) t + F).Nodup
  entry : ∀ j, j ≠ i → m' t j = m t j
  agree : ∀ a, a ≠ t → a ∉ below f m n (m t i) + F → ∀ j, m' a j = m a j

theorem Descend.below_other (h : Descend f m m' n t i F) {j : Nat} (hj : j < f.fan) (hji : j ≠ i) :
    ∀ a ∈ below f m n (m t j), ∀ k, m' a k = m a k := by
  intro a ha
  obtain ⟨h1, h2⟩ := (nodup_split h.index h.nodup).2.2 j hj hji a ha
  exact h.agree a h2 h1

theorem Descend.tables (h : Descend f m m' n t i F) :
    Radix.tables f m' (n + 1) t = t ::ₘ (below f m' n (m' t i) +
      ∑ j ∈ (Finset.range f.fan).erase i, below f m n (m t j)) := by
  rw [tables_split h.index]
  congr 2
  refine Finset.sum_congr rfl fun j hj => ?_
  obtain ⟨hji, hj⟩ := Finset.mem_erase.1 hj
  have ho := h.below_other (Finset.mem_range.1 hj) hji
  rw [h.entry j hji]
  unfold below at ho ⊢
  split
  · rename_i hv
    rw [if_pos hv] at ho
    exact tables_congr ho
  · rfl

theorem Descend.lookup (h : Descend f m m' n t i F) (hpx : ∀ l, px l < f.fan) :
    Radix.lookup f m' px (n + 1) t =
      if px (n + 1) = i then
        if f.valid (m' t i) then Radix.lookup f m' px n (f.child (m' t i)) else 0
      else Radix.lookup f m px (n + 1) t := by
  by_cases hi : px (n + 1) = i
  · rw [if_pos hi]
    simp only [Radix.lookup, hi]
  · rw [if_neg hi]
    simp only [Radix.lookup, h.entry _ hi]
    split
    · rename_i hv
      have ho := h.below_other (hpx _) hi
      rw [below_of_valid hv] at ho
      exact lookup_congr hpx ho
    · rfl

theorem Descend.leafTable (h : Descend f m m' n t i F) (hpx : ∀ l, px l < f.fan) :
    Radix.leafTable f m' px (n + 1) t =
      if px (n + 1) = i then
        if f.valid (m' t i) then Radix.leafTable f m' px n (f.child (m' t i)) else none
      else Radix.leafTable f m px (n + 1) t := by
  by_cases hi : px (n + 1) = i
  · rw [if_pos hi]
    simp only [Radix.leafTable, hi]
  · rw [if_neg hi]
    simp only [Radix.leafTable, h.entry _ hi]
    split
    · rename_i hv
      have ho := h.below_other (hpx _) hi
      rw [below_of_valid hv] at ho
      exact leafTable_congr hpx ho
    · rfl

/-- The pointers of the table stay as they are, or the changed one satisfies `P` again. -/
theorem Descend.inner (h : Descend f m m' n t i F) (hin : Inner f P m (n + 1) t)
    (hi : f.valid (m' t i) = true → P (m' t i) ∧ Inner f P m' n (f.child (m' t i))) :
    Inner f P m' (n + 1) t := by
  intro j hj hv
  by_cases hji : j = i
  · subst hji
    exact hi hv
  · rw [h.entry j hji] at hv ⊢
    have ho := h.below_other hj hji
    rw [below_of_valid hv] at ho
    exact ⟨(hin j hj hv).1, (inner_congr ho).2 (hin j hj hv).2⟩

end descend

/-! ## Writing a leaf entry -/

/-- One entry replaced. -/
def setEntry (m : Nat → Nat → Nat) (q k w : Nat) : Nat → Nat → Nat :=
  fun a i => if a = q ∧ i = k then w else m a i

theorem setEntry_of_ne {q k w a : Nat} (h : a ≠ q) (i : Nat) : setEntry m q k w a i = m a i := by
  simp [setEntry, h]

/-- On the way to the leaf table `q`: entry `px (n + 1)` is valid, and a write to `q` is a change below it. -/
structure SetLeaf (f : Format) (m : Nat → Nat → Nat) (px : Nat → Nat) (n t q w : Nat) : Prop where
  valid : f.valid (m t (px (n + 1))) = true
  leaf : leafTable f m px n (f.child (m t (px (n + 1)))) = some q
  nodup : (tables f m n (f.child (m t (px (n + 1))))).Nodup
  entry : ∀ j, setEntry m q (px 0) w t j = m t j
  descend : Descend f m (setEntry m q (px 0) w) n t (px (n + 1)) 0

theorem setLeaf {q : Nat} (w : Nat) (hpx : ∀ l, px l < f.fan) (hnd : (tables f m (n + 1) t).Nodup)
    (hq : leafTable f m px (n + 1) t = some q) : SetLeaf f m px n t q w := by
  simp only [leafTable] at hq
  split at hq
  · rename_i hv
    have hnd' : (tables f m (n + 1) t + 0).Nodup := by rwa [add_zero]
    have hsplit := nodup_split (hpx (n + 1)) hnd'
    rw [add_zero, below_of_valid hv] at hsplit
    have hmem := leafTable_mem hpx hq
    have hqt : q ≠ t := by rintro rfl; exact hsplit.2.1 hmem
    refine ⟨hv, hq, hsplit.1, fun j => setEntry_of_ne hqt.symm j, hpx _, hnd', fun j _ => setEntry_of_ne hqt.symm j,
      fun a _ ha j => ?_⟩
    rw [add_zero, below_of_valid hv] at ha
    exact setEntry_of_ne (by rintro rfl; exact ha hmem) j
  · cases hq

theorem tables_setLeaf {q w : Nat} (hpx : ∀ l, px l < f.fan) (hnd : (tables f m n t).Nodup)
    (hq : leafTable f m px n t = some q) :
    tables f (setEntry m q (px 0) w) n t = tables f m n t := by
  induction n generalizing t with
  | zero => rfl
  | succ n ih =>
    have h := setLeaf w hpx hnd hq
    rw [h.descend.tables, tables_split (hpx (n + 1)), h.entry, below_of_valid h.valid, below_of_valid h.valid,
      ih h.nodup h.leaf]

/-- **A write to a leaf entry** changes the lookup on that path only. -/
theorem lookup_setLeaf {q w : Nat} (hpx : ∀ l, px l < f.fan) (hpx' : ∀ l, px' l < f.fan)
    (hnd : (tables f m n t).Nodup) (hq : leafTable f m px n t = some q) :
    lookup f (setEntry m q (px 0) w) px' n t =
      if ∀ l, l ≤ n → px' l = px l then w else lookup f m px' n t := by
  induction n generalizing t with
  | zero =>
    cases hq
    simp [lookup, setEntry]
  | succ n ih =>
    have h := setLeaf w hpx hnd hq
    rw [h.descend.lookup hpx', h.entry]
    by_cases hi : px' (n + 1) = px (n + 1)
    · rw [if_pos hi, if_pos h.valid, ih h.nodup h.leaf]
      have hiff : (∀ l, l ≤ n + 1 → px' l = px l) ↔ ∀ l, l ≤ n → px' l = px l := by
        constructor
        · intro h l hl; exact h l (by omega)
        · intro h l hl
          rcases Nat.lt_or_ge l (n + 1) with hlt | hge
          · exact h l (by omega)
          · rw [show l = n + 1 by omega]; exact hi
      simp only [hiff]
      split
      · rfl
      · simp only [lookup, hi, if_pos h.valid]
    · rw [if_neg hi, if_neg]
      intro hall
      exact hi (hall (n + 1) (by omega))

theorem leafTable_setLeaf {q w : Nat} (hpx : ∀ l, px l < f.fan) (hpx' : ∀ l, px' l < f.fan)
    (hnd : (tables f m n t).Nodup) (hq : leafTable f m px n t = some q) :
    leafTable f (setEntry m q (px 0) w) px' n t = leafTable f m px' n t := by
  induction n generalizing t with
  | zero => rfl
  | succ n ih =>
    have h := setLeaf w hpx hnd hq
    rw [h.descend.leafTable hpx', h.entry]
    by_cases hi : px' (n + 1) = px (n + 1)
    · rw [if_pos hi, if_pos h.valid, ih h.nodup h.leaf]
      simp only [leafTable, hi, if_pos h.valid]
    · rw [if_neg hi]

theorem inner_setLeaf {q w : Nat} (hpx : ∀ l, px l < f.fan) (hnd : (tables f m n t).Nodup)
    (hq : leafTable f m px n t = some q) (hin : Inner f P m n t) :
    Inner f P (setEntry m q (px 0) w) n t := by
  induction n generalizing t with
  | zero => trivial
  | succ n ih =>
    have h := setLeaf w hpx hnd hq
    refine h.descend.inner hin fun _ => ?_
    rw [h.entry]
    obtain ⟨h1, h2⟩ := hin _ (hpx _) h.valid
    exact ⟨h1, ih h.nodup h.leaf h2⟩

/-! ## Leaves by number -/

/-- Digit `l` of `v`. -/
def path (b v l : Nat) : Nat := v / b ^ l % b

theorem path_lt {b : Nat} (hb : 0 < b) (v l : Nat) : path b v l < b := Nat.mod_lt _ hb

theorem path_succ (b v l : Nat) : path b v (l + 1) = path b (v / b) l := by
  simp only [path]
  rw [Nat.div_div_eq_div_mul, ← Nat.pow_succ']

/-- A number below `b ^ (n + 1)` is known by its `n + 1` digits. -/
theorem path_inj {b : Nat} : ∀ (n : Nat) {v v' : Nat}, v < b ^ (n + 1) → v' < b ^ (n + 1) →
    (∀ l, l ≤ n → path b v' l = path b v l) → v' = v
  | 0, v, v', hv, hv', h => by
    have h0 := h 0 (Nat.le_refl _)
    simp only [path, Nat.pow_zero, Nat.div_one, Nat.zero_add, Nat.pow_one] at h0 hv hv'
    rwa [Nat.mod_eq_of_lt hv, Nat.mod_eq_of_lt hv'] at h0
  | n + 1, v, v', hv, hv', h => by
    have h0 := h 0 (Nat.zero_le _)
    simp only [path, Nat.pow_zero, Nat.div_one] at h0
    have hdiv : v' / b = v / b := by
      refine path_inj (b := b) n ?_ ?_ fun l hl => ?_
      · exact Nat.div_lt_of_lt_mul (by rwa [Nat.pow_succ'] at hv)
      · exact Nat.div_lt_of_lt_mul (by rwa [Nat.pow_succ'] at hv')
      · rw [← path_succ, ← path_succ]
        exact h (l + 1) (by omega)
    rw [← Nat.div_add_mod v' b, ← Nat.div_add_mod v b, hdiv, h0]

theorem path_slot_top {b i n v : Nat} (hi : i < b) (hv : v < b ^ (n + 1)) :
    path b (i * b ^ (n + 1) + v) (n + 1) = i := by
  have hpos : 0 < b ^ (n + 1) := Nat.pow_pos (by omega)
  rw [path, Nat.mul_comm, Nat.mul_add_div hpos, Nat.div_eq_of_lt hv, Nat.add_zero, Nat.mod_eq_of_lt hi]

theorem path_slot {b i n v l : Nat} (hb : 0 < b) (hl : l ≤ n) :
    path b (i * b ^ (n + 1) + v) l = path b v l := by
  have hsplit : i * b ^ (n + 1) = b ^ l * (b * (i * b ^ (n - l))) := by
    rw [show n + 1 = l + ((n - l) + 1) by omega, Nat.pow_add, Nat.pow_succ]
    ring
  rw [path, hsplit, Nat.mul_add_div (Nat.pow_pos hb), Nat.mul_add_mod]
  rfl

theorem lookup_px (h : ∀ l, l ≤ n → px' l = px l) : lookup f m px' n t = lookup f m px n t := by
  induction n generalizing t with
  | zero => simp only [lookup, h 0 (Nat.le_refl _)]
  | succ n ih =>
    simp only [lookup, h (n + 1) (Nat.le_refl _)]
    split
    · exact ih fun l hl => h l (by omega)
    · rfl

/-- The leaf table does not depend on the last digit. -/
theorem leafTable_px (h : ∀ l, 1 ≤ l → l ≤ n → px' l = px l) :
    leafTable f m px' n t = leafTable f m px n t := by
  induction n generalizing t with
  | zero => rfl
  | succ n ih =>
    simp only [leafTable, h (n + 1) (Nat.succ_pos n) (Nat.le_refl _)]
    split
    · exact ih fun l h1 hl => h l h1 (by omega)
    · rfl

/-- The leaves below entry `i` of a table. -/
theorem lookup_slot {i v : Nat} (hi : i < f.fan) (hv : v < f.fan ^ (n + 1)) :
    lookup f m (path f.fan (i * f.fan ^ (n + 1) + v)) (n + 1) t =
      if f.valid (m t i) then lookup f m (path f.fan v) n (f.child (m t i)) else 0 := by
  simp only [lookup, path_slot_top hi hv]
  split
  · exact lookup_px fun l hl => path_slot (by omega) hl
  · rfl

/-! ## Empty tables -/

theorem tables_empty (h : ∀ i, m t i = 0) : tables f m n t = {t} := by
  cases n with
  | zero => rfl
  | succ n =>
    rw [tables_succ]
    simp [h, below, f.valid_zero]

theorem inner_empty (h : ∀ i, m t i = 0) : Inner f P m n t := by
  cases n with
  | zero => trivial
  | succ n =>
    intro i _ hv
    rw [h, f.valid_zero] at hv
    cases hv

theorem lookup_empty (h : ∀ i, m t i = 0) : lookup f m px n t = 0 := by
  cases n with
  | zero => exact h _
  | succ n => simp [lookup, h, f.valid_zero]

attribute [irreducible] tables lookup leafTable Inner below

end Radix
