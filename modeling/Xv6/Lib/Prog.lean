/-!
# State programs that can panic

A program `Prog σ α` runs on a state `σ` and ends in one of three ways: with a result, in a panic
that carries its message and the state where it happened, or waiting for ever (`hang`).

* `wp x Q E s` — the weakest precondition: a result satisfies `Q`, and the state at a panic or a
  hang satisfies `E`.  `E := fun _ => True` is partial and `E := fun _ => False` total correctness.
* `wp_bind`, `wp_pure`, `wp_modify`, … — one rule for each constructor.
* `wpm x Q P H s` — a result satisfies `Q`, the message of a panic satisfies `P`, and a hang is possible
  only if `H`.
* `loop` — a counted loop, with the invariant rules `wp_loop` and `wpm_loop`.
* `zoom` — run a program on one component of the state; `withLocal` — with a local variable.
-/

/-- How a program ends. -/
inductive Res (σ α : Type) where
  | ok (a : α) (s : σ)
  | panic (msg : String) (s : σ)
  | hang (s : σ)

/-- The state where it ended. -/
def Res.state {σ α : Type} : Res σ α → σ
  | .ok _ s | .panic _ s | .hang s => s

def Prog (σ α : Type) := σ → Res σ α

namespace Prog

variable {σ τ α β : Type}

protected def bind (x : Prog σ α) (f : α → Prog σ β) : Prog σ β := fun s =>
  match x s with
  | .ok a s' => f a s'
  | .panic m s' => .panic m s'
  | .hang s' => .hang s'

instance : Monad (Prog σ) where
  pure a := fun s => .ok a s
  bind := Prog.bind

/-- The current state. -/
def get : Prog σ σ := fun s => .ok s s

/-- A value read off the current state. -/
def gets (f : σ → α) : Prog σ α := fun s => .ok (f s) s

def modify (f : σ → σ) : Prog σ Unit := fun s => .ok () (f s)

def panicWith (msg : String) : Prog σ α := fun s => .panic msg s

def hang : Prog σ α := fun s => .hang s

/-- Run `x` on the component `g s`, put back by `p`. -/
def zoom (g : σ → τ) (p : τ → σ → σ) (x : Prog τ α) : Prog σ α := fun s =>
  match x (g s) with
  | .ok a t => .ok a (p t s)
  | .panic m t => .panic m (p t s)
  | .hang t => .hang (p t s)

/-- Run `x` with a local variable that starts as `t`, and return its last value too. -/
def withLocal (t : τ) (x : Prog (σ × τ) α) : Prog σ (α × τ) := fun s =>
  match x (s, t) with
  | .ok a (s', t') => .ok (a, t') s'
  | .panic m (s', _) => .panic m s'
  | .hang (s', _) => .hang s'

/-- `body i, body (i + 1), …`, `n` times. -/
def loop (body : Nat → Prog σ Unit) : Nat → Nat → Prog σ Unit
  | _, 0 => pure ()
  | i, n + 1 => do
    body i
    loop body (i + 1) n

theorem pure_bind (a : α) (f : α → Prog σ β) : (pure a : Prog σ α) >>= f = f a := rfl

theorem bind_assoc (x : Prog σ α) (f : α → Prog σ β) {γ : Type} (g : β → Prog σ γ) :
    (x >>= f) >>= g = x >>= fun a => f a >>= g := by
  funext s
  simp only [bind, Prog.bind]
  cases x s <;> rfl

theorem ite_bind (c : Prop) [Decidable c] (x y : Prog σ α) (f : α → Prog σ β) :
    (if c then x else y) >>= f = if c then x >>= f else y >>= f := by
  split <;> rfl

/-- A sequence whose first program returns. -/
theorem bind_run {x : Prog σ α} {f : α → Prog σ β} {s s' : σ} {a : α} (h : x s = .ok a s') : (x >>= f) s = f a s' := by
  simp only [bind, Prog.bind, h]

theorem get_bind (f : σ → Prog σ β) (s : σ) : ((get : Prog σ σ) >>= f) s = f s s := rfl

/-- A sequence that returned. -/
theorem bind_ok {x : Prog σ α} {f : α → Prog σ β} {s s' : σ} {b : β} :
    (x >>= f) s = .ok b s' ↔ ∃ a s₁, x s = .ok a s₁ ∧ f a s₁ = .ok b s' := by
  simp only [bind, Prog.bind]
  cases hx : x s with
  | ok a s₁ =>
    constructor
    · intro h; exact ⟨a, s₁, rfl, h⟩
    · rintro ⟨_, _, h, hf⟩
      cases h
      exact hf
  | panic m s₁ => simp
  | hang s₁ => simp

/-! ## Weakest preconditions -/

def wp (x : Prog σ α) (Q : α → σ → Prop) (E : σ → Prop) (s : σ) : Prop :=
  match x s with
  | .ok a s' => Q a s'
  | .panic _ s' => E s'
  | .hang s' => E s'

variable {x : Prog σ α} {Q Q' : α → σ → Prop} {E E' : σ → Prop} {s s' : σ}

@[simp] theorem wp_pure (a : α) : wp (pure a : Prog σ α) Q E s ↔ Q a s := Iff.rfl
@[simp] theorem wp_get {Q : σ → σ → Prop} : wp (get : Prog σ σ) Q E s ↔ Q s s := Iff.rfl
@[simp] theorem wp_gets (f : σ → α) : wp (gets f) Q E s ↔ Q (f s) s := Iff.rfl
@[simp] theorem wp_modify {Q : Unit → σ → Prop} (f : σ → σ) :
    wp (modify f) Q E s ↔ Q () (f s) := Iff.rfl
@[simp] theorem wp_panicWith (m : String) : wp (panicWith m : Prog σ α) Q E s ↔ E s := Iff.rfl

theorem wp_bind (x : Prog σ α) (f : α → Prog σ β) {Q : β → σ → Prop} :
    wp (x >>= f) Q E s ↔ wp x (fun a s' => wp (f a) Q E s') E s := by
  simp only [wp, bind, Prog.bind]
  cases x s <;> rfl

theorem wp_zoom (g : σ → τ) (p : τ → σ → σ) (x : Prog τ α) :
    wp (zoom g p x) Q E s ↔ wp x (fun a t => Q a (p t s)) (fun t => E (p t s)) (g s) := by
  simp only [wp, zoom]
  cases x (g s) <;> rfl

theorem wp_ite (c : Prop) [Decidable c] (x y : Prog σ α) :
    wp (if c then x else y) Q E s ↔ if c then wp x Q E s else wp y Q E s := by
  split <;> rfl

/-- **Consequence.** -/
theorem wp_mono (h : wp x Q E s) (hQ : ∀ a s', Q a s' → Q' a s') (hE : ∀ s', E s' → E' s') :
    wp x Q' E' s := by
  simp only [wp] at h ⊢
  cases hx : x s with
  | ok a s' => rw [hx] at h; exact hQ a s' h
  | panic m s' | hang s' => rw [hx] at h; exact hE s' h

theorem wp_and (h : wp x Q E s) (h' : wp x Q' E' s) :
    wp x (fun a s' => Q a s' ∧ Q' a s') (fun s' => E s' ∧ E' s') s := by
  simp only [wp] at h h' ⊢
  cases hx : x s with
  | ok a s' | panic m s' | hang s' => rw [hx] at h h'; exact ⟨h, h'⟩

/-- **Sequencing**, with the specification of the first program. -/
theorem wp_seq {f : α → Prog σ β} {R : α → σ → Prop} {Q : β → σ → Prop} (h : wp x R E s)
    (hf : ∀ a s', R a s' → wp (f a) Q E s') : wp (x >>= f) Q E s :=
  (wp_bind x f).2 (wp_mono h hf (fun _ h => h))

/-- Partial correctness, read off a run that returned. -/
theorem wp_ok {a : α} (h : wp x Q E s) (hx : x s = .ok a s') : Q a s' := by
  simpa only [wp, hx] using h

/-- A totally correct program returns. -/
theorem wp_total (h : wp x Q (fun _ => False) s) : ∃ a s', x s = .ok a s' ∧ Q a s' := by
  simp only [wp] at h
  cases hx : x s with
  | ok a s' => rw [hx] at h; exact ⟨a, s', rfl, h⟩
  | panic m s' | hang s' => rw [hx] at h; exact h.elim

/-- **Loop rule.**  `I i` holds before the iteration with counter `i`. -/
theorem wp_loop {body : Nat → Prog σ Unit} (I : Nat → σ → Prop) {E : σ → Prop} :
    ∀ (n i : Nat) {s : σ}, (∀ j s, i ≤ j → j < i + n → I j s →
      wp (body j) (fun _ s' => I (j + 1) s') E s) → I i s →
      wp (loop body i n) (fun _ s' => I (i + n) s') E s
  | 0, _, _, _, h0 => h0
  | n + 1, i, s, hb, h0 => by
    refine wp_seq (hb i s (Nat.le_refl _) (by omega) h0) fun _ s' h1 => ?_
    have := wp_loop I n (i + 1) (fun j t hj hjn => hb j t (by omega) (by omega)) h1
    rwa [show i + (n + 1) = i + 1 + n by omega]

/-! ## Panics by their messages -/

def wpm (x : Prog σ α) (Q : α → σ → Prop) (P : String → Prop) (H : Prop) (s : σ) : Prop :=
  match x s with
  | .ok a s' => Q a s'
  | .panic m _ => P m
  | .hang _ => H

section messages

variable {P : String → Prop} {H : Prop}

@[simp] theorem wpm_pure (a : α) : wpm (pure a : Prog σ α) Q P H s ↔ Q a s := Iff.rfl
@[simp] theorem wpm_get {Q : σ → σ → Prop} : wpm (get : Prog σ σ) Q P H s ↔ Q s s := Iff.rfl
@[simp] theorem wpm_gets (f : σ → α) : wpm (gets f) Q P H s ↔ Q (f s) s := Iff.rfl
@[simp] theorem wpm_modify {Q : Unit → σ → Prop} (f : σ → σ) :
    wpm (modify f) Q P H s ↔ Q () (f s) := Iff.rfl
@[simp] theorem wpm_panicWith (m : String) : wpm (panicWith m : Prog σ α) Q P H s ↔ P m := Iff.rfl
@[simp] theorem wpm_hang : wpm (hang : Prog σ α) Q P H s ↔ H := Iff.rfl

theorem wpm_bind (x : Prog σ α) (f : α → Prog σ β) {Q : β → σ → Prop} :
    wpm (x >>= f) Q P H s ↔ wpm x (fun a s' => wpm (f a) Q P H s') P H s := by
  simp only [wpm, bind, Prog.bind]
  cases x s <;> rfl

theorem wpm_zoom (g : σ → τ) (p : τ → σ → σ) (x : Prog τ α) :
    wpm (zoom g p x) Q P H s ↔ wpm x (fun a t => Q a (p t s)) P H (g s) := by
  simp only [wpm, zoom]
  cases x (g s) <;> rfl

theorem wpm_withLocal {t : τ} (x : Prog (σ × τ) α) {Q : α × τ → σ → Prop} :
    wpm (withLocal t x) Q P H s ↔ wpm x (fun a st => Q (a, st.2) st.1) P H (s, t) := by
  simp only [wpm, withLocal]
  cases x (s, t) <;> rfl

/-- **Consequence**, for the messages too. -/
theorem wpm_weaken {P' : String → Prop} (h : wpm x Q P H s) (hQ : ∀ a s', Q a s' → Q' a s') (hP : ∀ m, P m → P' m) :
    wpm x Q' P' H s := by
  simp only [wpm] at h ⊢
  cases hx : x s with
  | ok a s' => rw [hx] at h; exact hQ a s' h
  | panic m s' => rw [hx] at h; exact hP m h
  | hang s' => rw [hx] at h; exact h

theorem wpm_mono (h : wpm x Q P H s) (hQ : ∀ a s', Q a s' → Q' a s') : wpm x Q' P H s :=
  wpm_weaken h hQ fun _ h => h

theorem wpm_seq {f : α → Prog σ β} {R : α → σ → Prop} {Q : β → σ → Prop} (h : wpm x R P H s)
    (hf : ∀ a s', R a s' → wpm (f a) Q P H s') : wpm (x >>= f) Q P H s :=
  (wpm_bind x f).2 (wpm_mono h hf)

/-- Another fact about the result. -/
theorem wpm_and {P' : String → Prop} {H' : Prop} (h : wpm x Q P H s) (h' : wpm x Q' P' H' s) :
    wpm x (fun a s' => Q a s' ∧ Q' a s') P H s := by
  simp only [wpm] at h h' ⊢
  cases hx : x s with
  | ok a s' => rw [hx] at h h'; exact ⟨h, h'⟩
  | panic m s' | hang s' => rw [hx] at h; exact h

/-- The run itself, for what is said about the states on the way. -/
theorem wpm_run (h : wpm x Q P H s) : wpm x (fun a s' => Q a s' ∧ x s = .ok a s') P H s := by
  simp only [wpm] at h ⊢
  cases hx : x s with
  | ok a s' => rw [hx] at h; exact ⟨h, rfl⟩
  | panic m s' | hang s' => rw [hx] at h; exact h

/-- A program that cannot panic. -/
theorem wpm_of_wp (h : wp x Q (fun _ => False) s) : wpm x Q P H s := by
  obtain ⟨a, s', hx, hq⟩ := wp_total h
  simpa only [wpm, hx] using hq

theorem wpm_ok {a : α} (h : wpm x Q P H s) (hx : x s = .ok a s') : Q a s' := by
  simpa only [wpm, hx] using h

theorem wpm_panic {m : String} (h : wpm x Q P H s) (hx : x s = .panic m s') : P m := by
  simpa only [wpm, hx] using h

/-- A program that neither panics nor hangs returns. -/
theorem wpm_total (h : wpm x Q (fun _ => False) False s) : ∃ a s', x s = .ok a s' ∧ Q a s' := by
  simp only [wpm] at h
  cases hx : x s with
  | ok a s' => rw [hx] at h; exact ⟨a, s', rfl, h⟩
  | panic m s' | hang s' => rw [hx] at h; exact h.elim

theorem wp_of_wpm (h : wpm x Q (fun _ => False) False s) : wp x Q E s := by
  obtain ⟨a, s', hx, hq⟩ := wpm_total h
  simpa only [wp, hx] using hq

/-- **Loop rule.** -/
theorem wpm_loop {body : Nat → Prog σ Unit} (I : Nat → σ → Prop) :
    ∀ (n i : Nat) {s : σ}, (∀ j s, i ≤ j → j < i + n → I j s →
      wpm (body j) (fun _ s' => I (j + 1) s') P H s) → I i s →
      wpm (loop body i n) (fun _ s' => I (i + n) s') P H s
  | 0, _, _, _, h0 => h0
  | n + 1, i, s, hb, h0 => by
    refine wpm_seq (hb i s (Nat.le_refl _) (by omega) h0) fun _ s' h1 => ?_
    have := wpm_loop I n (i + 1) (fun j t hj hjn => hb j t (by omega) (by omega)) h1
    rwa [show i + (n + 1) = i + 1 + n by omega]

end messages

end Prog
