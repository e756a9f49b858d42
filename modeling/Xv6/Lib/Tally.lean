import Mathlib.Algebra.BigOperators.Group.Finset.Basic
import Mathlib.Data.Fintype.Basic
import Mathlib.Data.Fintype.BigOperators

/-!
# Counting references

A family of slots `g : ι → Option α` holds references to objects.

* `tally g a` — the number of slots that refer to `a`.
* `tally_update` — the count after one slot has changed, without subtraction.
* `tally_pos` — the count is positive when some slot refers to `a`.
* `bump x a n` — the references `x` with `n` more to `a`.
-/

variable {ι α : Type} [Fintype ι] [DecidableEq α]

def tally (g : ι → Option α) (a : α) : Nat := (Finset.univ.filter fun i => g i = some a).card

theorem tally_pos {g : ι → Option α} {a : α} : 0 < tally g a ↔ ∃ i, g i = some a := by
  unfold tally
  rw [Finset.card_pos]
  constructor
  · rintro ⟨i, hi⟩
    exact ⟨i, (Finset.mem_filter.1 hi).2⟩
  · rintro ⟨i, hi⟩
    exact ⟨i, Finset.mem_filter.2 ⟨Finset.mem_univ i, hi⟩⟩

theorem tally_update [DecidableEq ι] (g : ι → Option α) (i : ι) (v : Option α) (a : α) :
    tally (Function.update g i v) a + (if g i = some a then 1 else 0) =
      tally g a + if v = some a then 1 else 0 := by
  unfold tally
  rw [Finset.card_filter, Finset.card_filter]
  have h1 := Finset.add_sum_erase Finset.univ
    (fun j => if Function.update g i v j = some a then 1 else 0) (Finset.mem_univ i)
  have h2 := Finset.add_sum_erase Finset.univ (fun j => if g j = some a then 1 else 0) (Finset.mem_univ i)
  have h3 : ∑ j ∈ Finset.univ.erase i, (if Function.update g i v j = some a then 1 else 0) =
      ∑ j ∈ Finset.univ.erase i, if g j = some a then 1 else 0 :=
    Finset.sum_congr rfl fun j hj => by rw [Function.update_of_ne (Finset.ne_of_mem_erase hj)]
  simp only [Function.update_self] at h1
  omega

section bump

variable (x : α → Int) (a : α)

def bump (n : Int) : α → Int := Function.update x a (x a + n)

theorem bump_apply (n : Int) (c : α) : bump x a n c = x c + if c = a then n else 0 := by
  unfold bump
  by_cases h : c = a
  · subst h
    rw [Function.update_self, if_pos rfl]
  · rw [Function.update_of_ne h, if_neg h, Int.add_zero]

@[simp] theorem bump_bump (m n : Int) : bump (bump x a m) a n = bump x a (m + n) := by
  funext c
  simp only [bump_apply]
  split <;> omega

@[simp] theorem bump_zero : bump x a 0 = x := by
  funext c
  simp [bump_apply]

theorem bump_comm (c : α) (m n : Int) : bump (bump x a m) c n = bump (bump x c n) a m := by
  funext d
  simp only [bump_apply]
  omega

end bump
