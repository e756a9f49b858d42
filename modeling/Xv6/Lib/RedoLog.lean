import Mathlib


/-!
# Redo logs

A disk `A → B` has one header block and `cap` log slots.  The header lists the home addresses of
the logged blocks; slot `i` holds the contents that belong at the `i`-th of them.

* `view` — what replaying the log would make of the home blocks.
* `Sane` — the header lists distinct home addresses, no more than there are slots.
* `view_slot`, `view_header`, `view_install`, `view_clear` — what each single-block write of a
  commit or of a recovery does to the view.  Only the header write that commits changes it.
* `replay`, `installed` — the writes of a recovery, and the disk after the first `k` of them;
  `view_installed`.
-/

set_option linter.unusedSectionVars false

namespace RedoLog

open Function

variable {A B : Type}

/-- A list of block writes, the first one first. -/
def applyWrites [DecidableEq A] (d : A → B) (ws : List (A × B)) : A → B :=
  ws.foldl (fun d w => Function.update d w.1 w.2) d

section

variable [DecidableEq A] {d : A → B} {a : A} {ws : List (A × B)}

theorem applyWrites_append (vs : List (A × B)) :
    applyWrites d (ws ++ vs) = applyWrites (applyWrites d ws) vs := by
  simp only [applyWrites, List.foldl_append]

theorem applyWrites_of_not_mem (h : ∀ w ∈ ws, w.1 ≠ a) : applyWrites d ws a = d a := by
  induction ws generalizing d with
  | nil => rfl
  | cons w ws ih =>
    have hw : a ≠ w.1 := (h w List.mem_cons_self).symm
    have := ih (d := update d w.1 w.2) fun v hv => h v (List.mem_cons_of_mem _ hv)
    rw [update_of_ne hw] at this
    exact this

end

/-- Where the log is on the disk and how its header is read. -/
structure Geometry (A B : Type) where
  header : A
  slot : Nat → A
  cap : Nat
  entries : B → List A
  slot_inj : ∀ i j, i < cap → j < cap → slot i = slot j → i = j
  slot_ne : ∀ i, i < cap → slot i ≠ header

namespace Geometry

variable (g : Geometry A B)

/-- A block outside the log area. -/
def Home (a : A) : Prop := a ≠ g.header ∧ ∀ i, i < g.cap → a ≠ g.slot i

/-- The entries of the header on disk. -/
def logged (d : A → B) : List A := g.entries (d g.header)

structure Listed (l : List A) : Prop where
  nodup : l.Nodup
  room : l.length ≤ g.cap
  home : ∀ a ∈ l, g.Home a

/-- The header on disk is one that a commit may have written. -/
def Sane (d : A → B) : Prop := g.Listed (g.logged d)

variable {g} in
theorem listed_nil : g.Listed [] := ⟨List.nodup_nil, Nat.zero_le _, by simp⟩

variable {g} in
theorem Listed.slot_ne_getElem {l : List A} (hl : g.Listed l) {i j : Nat} (hi : i < l.length)
    (hj : j < g.cap) : g.slot j ≠ l[i] :=
  fun h => (hl.home _ (List.getElem_mem hi)).2 j hj h.symm

variable [DecidableEq A]

/-- The home blocks as a replay of the log would leave them. -/
def view (d : A → B) (a : A) : B :=
  if a ∈ g.logged d then d (g.slot ((g.logged d).idxOf a)) else d a

variable {g} {d : A → B} {a : A} {v : B}

theorem view_of_logged_nil (h : g.logged d = []) : g.view d a = d a := by
  simp [view, h]

/-- The header block is only changed by a write to it. -/
theorem logged_update {x : A} (h : x ≠ g.header) : g.logged (update d x v) = g.logged d := by
  simp only [logged, update_of_ne h.symm]

/-- Writing the header `v` commits what the slots hold. -/
theorem view_header (hl : g.Listed (g.entries v)) (ha : g.Home a) :
    g.view (update d g.header v) a =
      if a ∈ g.entries v then d (g.slot ((g.entries v).idxOf a)) else d a := by
  have he : g.logged (update d g.header v) = g.entries v := by
    simp only [logged, update_self]
  simp only [view, he]
  split
  · rename_i hm
    have hlt := List.idxOf_lt_length_of_mem hm
    rw [update_of_ne (g.slot_ne _ (Nat.lt_of_lt_of_le hlt hl.room))]
  · rw [update_of_ne ha.1]

/-- Copying a slot to its home address does not change the view. -/
theorem view_install (hs : g.Sane d) {i : Nat} (hi : i < (g.logged d).length) :
    g.view (update d (g.logged d)[i] (d (g.slot i))) a = g.view d a := by
  have hh := hs.home _ (List.getElem_mem hi)
  simp only [view, logged_update hh.1]
  split
  · rename_i hm
    have hlt := List.idxOf_lt_length_of_mem hm
    rw [update_of_ne (hs.slot_ne_getElem hi (Nat.lt_of_lt_of_le hlt hs.room))]
  · rename_i hm
    rw [update_of_ne]
    rintro rfl
    exact hm (List.getElem_mem hi)

/-- Every logged block has reached its home address. -/
def Installed (g : Geometry A B) (d : A → B) : Prop :=
  ∀ a ∈ g.logged d, d a = d (g.slot ((g.logged d).idxOf a))

theorem Installed.view (h : g.Installed d) : g.view d a = d a := by
  simp only [Geometry.view]
  split
  · rename_i hm; exact (h a hm).symm
  · rfl

/-- Emptying the header once everything is installed does not change the view. -/
theorem view_clear (h : g.Installed d) (hv : g.entries v = []) (ha : g.Home a) :
    g.view (update d g.header v) a = g.view d a := by
  rw [view_header (by rw [hv]; exact listed_nil) ha, hv, if_neg (by simp), h.view]

/-! ## Recovery -/

/-- The writes by which a recovery installs the log, in order. -/
def replay (g : Geometry A B) (d : A → B) : List (A × B) :=
  (g.logged d).mapIdx fun i a => (a, d (g.slot i))

/-- The disk after the first `k` installs. -/
def installed (g : Geometry A B) (d : A → B) (k : Nat) : A → B :=
  applyWrites d ((g.replay d).take k)

@[simp] theorem length_replay : (g.replay d).length = (g.logged d).length := by simp [replay]

theorem replay_getElem {k : Nat} (hk : k < (g.logged d).length) :
    (g.replay d).take (k + 1) = (g.replay d).take k ++ [((g.logged d)[k], d (g.slot k))] := by
  rw [List.take_succ_eq_append_getElem (by simpa using hk)]
  simp [replay]

theorem installed_succ {k : Nat} (hk : k < (g.logged d).length) :
    g.installed d (k + 1) = update (g.installed d k) (g.logged d)[k] (d (g.slot k)) := by
  simp only [installed, replay_getElem hk, applyWrites_append]
  rfl

/-- Installing touches neither the header nor a slot. -/
theorem installed_of_not_logged (ha : a ∉ g.logged d) (k : Nat) : g.installed d k a = d a := by
  refine applyWrites_of_not_mem fun w hw => ?_
  have hw := List.mem_of_mem_take hw
  simp only [replay, List.mem_mapIdx] at hw
  obtain ⟨i, hi, rfl⟩ := hw
  rintro rfl
  exact ha (List.getElem_mem hi)

theorem installed_header (hs : g.Sane d) (k : Nat) : g.installed d k g.header = d g.header :=
  installed_of_not_logged (fun h => (hs.home _ h).1 rfl) k

theorem installed_slot (hs : g.Sane d) {i : Nat} (hi : i < g.cap) (k : Nat) :
    g.installed d k (g.slot i) = d (g.slot i) :=
  installed_of_not_logged (fun h => (hs.home _ h).2 i hi rfl) k

theorem logged_installed (hs : g.Sane d) (k : Nat) : g.logged (g.installed d k) = g.logged d := by
  simp only [logged, installed_header hs k]

theorem installed_getElem (hs : g.Sane d) {i k : Nat} (hi : i < (g.logged d).length) (hk : i < k)
    (hkn : k ≤ (g.logged d).length) : g.installed d k (g.logged d)[i] = d (g.slot i) := by
  induction k with
  | zero => omega
  | succ k ih =>
    rw [installed_succ (by omega)]
    by_cases hik : i = k
    · subst hik; rw [update_self]
    · rw [update_of_ne, ih (by omega) (by omega)]
      intro he
      exact hik ((List.Nodup.getElem_inj_iff hs.nodup).1 he)

/-- A recovery that is cut short has not changed the view. -/
theorem view_installed (hs : g.Sane d) (k : Nat) : g.view (g.installed d k) a = g.view d a := by
  simp only [view, logged_installed hs k]
  split
  · rename_i hm
    have hlt := List.idxOf_lt_length_of_mem hm
    exact installed_slot hs (Nat.lt_of_lt_of_le hlt hs.room) k
  · rename_i hm
    exact installed_of_not_logged hm k

theorem installed_all (hs : g.Sane d) : g.Installed (g.installed d (g.logged d).length) := by
  intro a ha
  rw [logged_installed hs] at ha ⊢
  have hlt := List.idxOf_lt_length_of_mem ha
  rw [installed_slot hs (Nat.lt_of_lt_of_le hlt hs.room)]
  have := installed_getElem hs hlt hlt (Nat.le_refl _)
  rwa [List.getElem_idxOf hlt] at this

end Geometry

end RedoLog
