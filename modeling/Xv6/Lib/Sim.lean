import Xv6.Lib.Prog

/-!
# Simulation between programs

* `Res.Rel R` — two programs end in the same way, in states related by `R`.
* `Prog.Sim R x y` — from related states they do, with one rule for each constructor.
-/

variable {σ τ α β : Type} {R : σ → τ → Prop}

inductive Res.Rel (R : σ → τ → Prop) : Res σ α → Res τ α → Prop where
  | ok {a : α} {s : σ} {t : τ} : R s t → Res.Rel R (.ok a s) (.ok a t)
  | panic {m : String} {s : σ} {t : τ} : R s t → Res.Rel R (.panic m s) (.panic m t)
  | hang {s : σ} {t : τ} : R s t → Res.Rel R (.hang s) (.hang t)

namespace Prog

def Sim (R : σ → τ → Prop) (x : Prog σ α) (y : Prog τ α) : Prop := ∀ s t, R s t → Res.Rel R (x s) (y t)

theorem sim_pure (a : α) : Sim R (pure a) (pure a) := fun _ _ h => .ok h

theorem sim_panicWith (m : String) : Sim R (panicWith m : Prog σ α) (panicWith m) := fun _ _ h => .panic h

theorem sim_hang : Sim R (hang : Prog σ α) hang := fun _ _ h => .hang h

theorem sim_modify {f : σ → σ} {g : τ → τ} (h : ∀ s t, R s t → R (f s) (g t)) : Sim R (modify f) (modify g) :=
  fun s t hR => .ok (h s t hR)

theorem Sim.bind {x : Prog σ α} {y : Prog τ α} {f : α → Prog σ β} {g : α → Prog τ β} (h : Sim R x y)
    (hf : ∀ a, Sim R (f a) (g a)) : Sim R (x >>= f) (y >>= g) := by
  intro s t hR
  show Res.Rel R (Prog.bind x f s) (Prog.bind y g t)
  unfold Prog.bind
  have hxy := h s t hR
  cases hx : x s <;> cases hy : y t <;> rw [hx, hy] at hxy <;> cases hxy
  · rename_i hR'
    exact hf _ _ _ hR'
  · rename_i hR'
    exact .panic hR'
  · rename_i hR'
    exact .hang hR'

theorem sim_gets {f : σ → α} {g : τ → α} (h : ∀ s t, R s t → f s = g t) : Sim R (gets f) (gets g) := by
  intro s t hR
  show Res.Rel R (.ok (f s) s) (.ok (g t) t)
  rw [h s t hR]
  exact .ok hR

theorem sim_ite {c : Prop} [Decidable c] {x x' : Prog σ α} {y y' : Prog τ α} (h : Sim R x y) (h' : Sim R x' y') :
    Sim R (if c then x else x') (if c then y else y') := by
  split
  · exact h
  · exact h'

theorem sim_loop {b : Nat → Prog σ Unit} {b' : Nat → Prog τ Unit} (h : ∀ i, Sim R (b i) (b' i)) :
    ∀ n i, Sim R (loop b i n) (loop b' i n)
  | 0, _ => sim_pure ()
  | n + 1, i => (h i).bind fun _ => sim_loop h n (i + 1)

/-- Both programs read their states and go on from there. -/
theorem sim_get {f : σ → Prog σ α} {g : τ → Prog τ α} (h : ∀ s t, R s t → Res.Rel R (f s s) (g t t)) :
    Sim R (get >>= f) (get >>= g) := h

end Prog
