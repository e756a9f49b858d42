import Mathlib.Data.List.Nodup
import Mathlib.Logic.Function.Basic

/-!
# Linked cells

* `Linked next x l e` — following `next` from `x` one meets the cells `l` and then `e`.
* `Linked.append_iff`, `Linked.append_right`, `Linked.last` — a chain taken apart at a cell.
* `Linked.splice` — some cells in the middle replaced by others.
-/

variable {α : Type}

def Linked (next : α → α) : α → List α → α → Prop
  | x, [], e => next x = e
  | x, y :: l, e => next x = y ∧ Linked next y l e

namespace Linked

variable {next next' : α → α} {x y e : α} {l l₁ l₂ l₃ : List α}

theorem append_iff : Linked next x (l₁ ++ y :: l₂) e ↔ Linked next x l₁ y ∧ Linked next y l₂ e := by
  induction l₁ generalizing x with
  | nil => exact Iff.rfl
  | cons z l ih => simp only [List.cons_append, Linked, ih, and_assoc]

/-- The second part of a chain, from the last cell of the first. -/
theorem append_right (h : Linked next x (l₁ ++ l₂) e) : Linked next (l₁.getLastD x) l₂ e := by
  induction l₁ generalizing x with
  | nil => exact h
  | cons z l ih =>
    rw [List.getLastD_cons]
    exact ih h.2

theorem head (h : Linked next x l e) : next x = l.headD e := by
  cases l with
  | nil => exact h
  | cons y l => exact h.1

theorem congr (h : Linked next x l e) (hn : ∀ z ∈ x :: l, next' z = next z) : Linked next' x l e := by
  induction l generalizing x with
  | nil => exact (hn x List.mem_cons_self).trans h
  | cons y l ih =>
    exact ⟨(hn x List.mem_cons_self).trans h.1, ih h.2 fun z hz => hn z (List.mem_cons_of_mem x hz)⟩

/-- The cells `l₂` make room for the cells `l`; the last cell before them is the only one of the others whose
pointer changes. -/
theorem splice (h : Linked next x (l₁ ++ (l₂ ++ l₃)) e) (hnd : (x :: l₁).Nodup)
    (h₁ : ∀ z ∈ x :: l₁, z ≠ l₁.getLastD x → next' z = next z) (h₃ : ∀ z ∈ l₃, next' z = next z)
    (hl : Linked next' (l₁.getLastD x) l (l₃.headD e)) : Linked next' x (l₁ ++ (l ++ l₃)) e := by
  induction l₁ generalizing x with
  | nil =>
    cases l₃ with
    | nil => simpa using hl
    | cons y l₃ =>
      have hy : Linked next y l₃ e := (append_iff.1 h).2
      exact append_iff.2 ⟨hl, hy.congr h₃⟩
  | cons y l₁ ih =>
    rw [List.getLastD_cons] at h₁ hl
    have hmem : l₁.getLastD y ∈ y :: l₁ := List.getLastD_mem_cons
    have hx : x ≠ l₁.getLastD y := fun hx => (List.nodup_cons.1 hnd).1 (hx ▸ hmem)
    exact ⟨(h₁ x List.mem_cons_self hx).trans h.1,
      ih h.2 (List.nodup_cons.1 hnd).2 (fun z hz => h₁ z (List.mem_cons_of_mem x hz)) hl⟩

end Linked

/-- A cell of a chain is the last one of a part of it. -/
theorem List.exists_getLastD {x y : α} {l : List α} (h : y ∈ x :: l) :
    ∃ l₁ l₂, l = l₁ ++ l₂ ∧ y = l₁.getLastD x := by
  rcases List.mem_cons.1 h with rfl | h
  · exact ⟨[], l, rfl, rfl⟩
  · obtain ⟨l₁, l₂, rfl⟩ := List.append_of_mem h
    exact ⟨l₁ ++ [y], l₂, by simp, by simp⟩
