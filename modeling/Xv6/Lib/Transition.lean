import Mathlib.Tactic.ByContra

/-!
# Deterministic labelled transition systems

A system is a partial step function `step : σ → α → Option σ`; `none` means that the action is
not enabled.

* `runActs` — run a list of actions.
* `Reach` — the states reached from `init` by actions that all satisfy a guard `ok`, a
  predicate of the state before the action.
* `Reach.invariant` — the induction rule: a predicate that holds initially and is kept by every
  guarded step holds in every reached state.
* `Along` — a predicate of every state on the way of an action list.
* `along_iff_guardedActs` — a run is good exactly when it is guarded, if the guard keeps an invariant and every
  step without it is bad at once.
-/

namespace Transition

variable {σ α : Type}

/-- Run the actions in order; `none` as soon as one is not enabled. -/
def runActs (step : σ → α → Option σ) : σ → List α → Option σ
  | s, [] => some s
  | s, a :: as =>
    match step s a with
    | some s' => runActs step s' as
    | none => none

/-- The states reached from `init` by steps whose actions satisfy `ok` where they are taken. -/
inductive Reach (step : σ → α → Option σ) (ok : σ → α → Prop) (init : σ → Prop) : σ → Prop where
  | init {s : σ} : init s → Reach step ok init s
  | step {s s' : σ} {a : α} : Reach step ok init s → ok s a → step s a = some s' →
      Reach step ok init s'

variable {step : σ → α → Option σ} {ok ok' : σ → α → Prop} {init : σ → Prop}

/-- **Invariant rule.** -/
theorem Reach.invariant {I : σ → Prop} (h0 : ∀ s, init s → I s)
    (hs : ∀ s a s', I s → ok s a → step s a = some s' → I s') {s : σ}
    (h : Reach step ok init s) : I s := by
  induction h with
  | init hi => exact h0 _ hi
  | step _ ho he ih => exact hs _ _ _ ih ho he

/-- Every action of the list satisfies `ok` in the state where it is taken. -/
def GuardedActs (step : σ → α → Option σ) (ok : σ → α → Prop) : σ → List α → Prop
  | _, [] => True
  | s, a :: as => ok s a ∧ ∀ s', step s a = some s' → GuardedActs step ok s' as

/-- Every state on the way of the list satisfies `I`, the first and the last included. -/
def Along (step : σ → α → Option σ) (I : σ → Prop) : σ → List α → Prop
  | s, [] => I s
  | s, a :: as => I s ∧ ∀ s', step s a = some s' → Along step I s' as

theorem Along.head {I : σ → Prop} {s : σ} {as : List α} (h : Along step I s as) : I s := by
  cases as with
  | nil => exact h
  | cons a as => exact h.1

/-- **Rule for exact conditions on runs.** -/
theorem along_iff_guardedActs {I P : σ → Prop} (hP : ∀ s, I s → P s)
    (hstep : ∀ s a s', I s → ok s a → step s a = some s' → I s')
    (hbad : ∀ s a, I s → ¬ ok s a → ∃ s', step s a = some s' ∧ ¬ P s') (as : List α) {s : σ} (h : I s) :
    Along step P s as ↔ GuardedActs step ok s as := by
  induction as generalizing s with
  | nil => exact ⟨fun _ => trivial, fun _ => hP s h⟩
  | cons a as ih =>
    constructor
    · intro halong
      have hok : ok s a := by
        by_contra hnot
        obtain ⟨s', hs', hne⟩ := hbad s a h hnot
        exact hne (halong.2 s' hs').head
      exact ⟨hok, fun s' hs' => (ih (hstep s a s' h hok hs')).1 (halong.2 s' hs')⟩
    · intro hguard
      exact ⟨hP s h, fun s' hs' => (ih (hstep s a s' h hguard.1 hs')).2 (hguard.2 s' hs')⟩

/-- The states on the way of actions that all keep an invariant. -/
theorem along_of_forall {I P : σ → Prop} {g : α → Prop} (hP : ∀ s, I s → P s)
    (hstep : ∀ s a s', I s → g a → step s a = some s' → I s') {as : List α} (has : ∀ a ∈ as, g a) {s : σ}
    (h : I s) : Along step P s as := by
  induction as generalizing s with
  | nil => exact hP s h
  | cons a as ih =>
    refine ⟨hP s h, fun s' hs' => ih (fun b hb => has b (List.mem_cons_of_mem _ hb)) ?_⟩
    exact hstep s a s' h (has a List.mem_cons_self) hs'

theorem guardedActs_true (step : σ → α → Option σ) (s : σ) (as : List α) :
    GuardedActs step (fun _ _ => True) s as := by
  induction as generalizing s with
  | nil => trivial
  | cons a as ih => exact ⟨trivial, fun s' _ => ih s'⟩

/-- A guard that every enabled action of the list satisfies. -/
theorem guardedActs_of_enabled {s t : σ} {as : List α}
    (hok : ∀ s a s', a ∈ as → step s a = some s' → ok s a) (h : runActs step s as = some t) :
    GuardedActs step ok s as := by
  induction as generalizing s with
  | nil => trivial
  | cons a as ih =>
    simp only [Transition.runActs] at h
    split at h
    · rename_i s₁ h₁
      refine ⟨hok s a s₁ List.mem_cons_self h₁, fun s' hs' => ?_⟩
      rw [h₁] at hs'; cases hs'
      exact ih (fun s a s' ha => hok s a s' (List.mem_cons_of_mem _ ha)) h
    · cases h

theorem Reach.runActs {s : σ} (h : Reach step ok init s) :
    ∀ {as : List α} {s' : σ}, GuardedActs step ok s as → runActs step s as = some s' →
      Reach step ok init s' := by
  intro as
  induction as generalizing s with
  | nil =>
    intro s' _ hr
    simp only [Transition.runActs, Option.some.injEq] at hr
    subst hr; exact h
  | cons a as ih =>
    intro s' hg hr
    simp only [Transition.runActs] at hr
    split at hr
    · rename_i s1 h1
      exact ih (h.step hg.1 h1) (hg.2 _ h1) hr
    · cases hr

end Transition
