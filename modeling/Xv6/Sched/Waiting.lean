import Xv6.Sched.Family

/-!
# `wait` and `exit`

`exit` calls `wakeup(p->parent)` before it makes itself a `ZOMBIE`, and `wait` looks at its children before it
sleeps.  Both hold `wait_lock` from the one to the other, so what they have seen stays true:

* `WaitsFor` — what a process in `wait` has seen of its children, and a process in `exit` of its parent.
* `Waiting` — a parent in `sleep(p, &wait_lock)` has no `ZOMBIE` child, except that `reparent` has handed one to
  `initproc` and is about to wake it.
* `wait_sleeps` — while `wait_lock` is free no process sleeps past an exited child.
-/

namespace Xv6.Sched

open Function

variable {κ : Type}

/-- The process is in `sleep(p, &wait_lock)` of `wait`, and has not been made runnable. -/
def AsleepInWait (s : Sys κ) (q : Nat) : Prop := s.core.InSleep q (.proc q) .wait

/-- No child of `i` below slot `j` has exited. -/
def NoZombie (s : Sys κ) (i j : Nat) : Prop := ∀ k, k < j → s.parent k = some i → s.state k ≠ .ZOMBIE

def WaitsFor (N : Nat) (s : Sys κ) (i : Nat) : Base → Top → Prop
  | .scan j _, .run => NoZombie s i j
  | .scan _ _, .wake _ _ => False
  | .scan j _, .sleep1 _ _ => j = 0 ∧ NoZombie s i N
  | .scan j _, _ => j = 0
  | .waitSleep, .run => NoZombie s i N
  | .waitSleep, .wake _ _ => False
  | .exitOwn _, .run => ∀ q, s.parent i = some q → ¬ AsleepInWait s q
  | .exitOwn _, .wake ch _ => ∀ q, s.parent i = some q → ch = .proc q
  | _, _ => True

structure Waiting (N : Nat) (s : Sys κ) : Prop where
  asleep : ∀ z q, s.state z = .ZOMBIE → s.parent z = some q → AsleepInWait s q →
    q = initproc ∧ ∃ e st j, s.base e = .reparent st j ∧ s.top e = .wake (.proc initproc) 0
  calls : ∀ i, WaitsFor N s i (s.base i) (s.top i)

/-! ## Frames -/

/-- A step by which no child exits or changes its parent, and no parent goes to sleep. -/
structure Quiet (s s' : Sys κ) : Prop where
  parent : s'.parent = s.parent
  zombie : ∀ k, s'.state k = .ZOMBIE → s.state k = .ZOMBIE
  asleep : ∀ q, AsleepInWait s' q → AsleepInWait s q

section frames

variable {N : Nat} {s s' : Sys κ} {i : Nat} {b : Base} {t : Top}

theorem NoZombie.quiet {j : Nat} (h : NoZombie s i j) (hq : Quiet s s') : NoZombie s' i j := by
  intro k hk hp
  rw [hq.parent] at hp
  exact mt (hq.zombie k) (h k hk hp)

theorem WaitsFor.quiet (h : WaitsFor N s i b t) (hq : Quiet s s') : WaitsFor N s' i b t := by
  cases b with
  | scan j k =>
    cases t with
    | run => exact NoZombie.quiet h hq
    | sleep1 ch lk => exact ⟨h.1, h.2.quiet hq⟩
    | _ => exact h
  | waitSleep =>
    cases t with
    | run => exact NoZombie.quiet h hq
    | _ => exact h
  | exitOwn st =>
    cases t with
    | run =>
      intro q hp
      rw [hq.parent] at hp
      exact mt (hq.asleep q) (h q hp)
    | wake ch j =>
      intro q hp
      rw [hq.parent] at hp
      exact h q hp
    | _ => exact h
  | _ => trivial

/-- Without `wait_lock` a process has seen nothing. -/
theorem WaitsFor.idle (h : WaitsFor N s i b t) (hsh : Shape i b t) (hn : ¬ InWait b t) : WaitsFor N s' i b t := by
  cases b with
  | scan j k =>
    cases t with
    | run => exact absurd (Or.inl ⟨rfl, rfl⟩) hn
    | sleep1 ch lk =>
      rcases hsh.scan j k rfl with hst | hsl
      · cases hst
      · cases hsl
        exact absurd (Or.inr ⟨_, rfl⟩) hn
    | _ => exact h
  | waitSleep =>
    cases t with
    | run => exact absurd (Or.inl ⟨rfl, rfl⟩) hn
    | _ => exact h
  | exitOwn st =>
    cases t with
    | run | wake ch j => exact absurd (Or.inl ⟨rfl, rfl⟩) hn
    | _ => exact h
  | _ => trivial

theorem SysInv.lock_of_inWait (hs : SysInv s) (hin : InWait (s.base i) (s.top i)) :
    ∃ c, s.mode c = .run i ∧ s.lock .wait = some c := by
  have hp : (s.top i).parked = false := by
    rcases hin with ⟨-, hst⟩ | ⟨ch, heq⟩
    · by_contra hp
      rw [Bool.not_eq_false] at hp
      rw [Top.straight_of_parked hp] at hst
      cases hst
    · rw [heq]
      rfl
  obtain ⟨c, hm⟩ := hs.core.onCpu i hp
  exact ⟨c, hm, hs.wait.held c i hm hin⟩

/-- While process `i` holds `wait_lock` no other process does. -/
theorem SysInv.alone {c : κ} (hs : SysInv s) (hm : s.mode c = .run i) (hl : s.lock .wait = none ∨ s.lock .wait = some c)
    (k : Nat) (hk : k ≠ i) : ¬ InWait (s.base k) (s.top k) := by
  intro hin
  obtain ⟨c', hm', hl'⟩ := hs.lock_of_inWait hin
  rcases hl with hl | hl
  · rw [hl] at hl'
    cases hl'
  · rw [hl] at hl'
    cases hl'
    rw [hm] at hm'
    cases hm'
    exact hk rfl

/-- A quiet step of process `i`; a slot on no CPU may be renewed. -/
theorem Waiting.quiet (h : Waiting N s) (hq : Quiet s s')
    (hk : ∀ k, k ≠ i → s'.base k = s.base k ∧ s'.top k = s.top k ∨
      s'.base k = .kernel ∧ (s.top k).straight = false)
    (hi : WaitsFor N s' i (s'.base i) (s'.top i))
    (hgive : ∀ st j, s.base i = .reparent st j → s.top i = .wake (.proc initproc) 0 →
      s'.base i = s.base i ∧ s'.top i = s.top i ∨ ¬ AsleepInWait s' initproc) : Waiting N s' where
  asleep z q hz hp hq' := by
    rw [hq.parent] at hp
    obtain ⟨hq0, e, st, j, hb, ht⟩ := h.asleep z q (hq.zombie z hz) hp (hq.asleep q hq')
    refine ⟨hq0, ?_⟩
    by_cases he : e = i
    · subst he
      rcases hgive st j hb ht with ⟨hb', ht'⟩ | hno
      · exact ⟨e, st, j, hb'.trans hb, ht'.trans ht⟩
      · exact absurd (hq0 ▸ hq') hno
    · rcases hk e he with ⟨hb', ht'⟩ | ⟨-, hst⟩
      · exact ⟨e, st, j, hb'.trans hb, ht'.trans ht⟩
      · rw [ht] at hst
        cases hst
  calls k := by
    by_cases hki : k = i
    · rw [hki]
      exact hi
    · rcases hk k hki with ⟨hb, ht⟩ | ⟨hb, -⟩
      · rw [hb, ht]
        exact (h.calls k).quiet hq
      · rw [hb]
        trivial

/-- A step of process `i` with `wait_lock`. -/
theorem Waiting.locked {c : κ} (hs : SysInv s) (h : Waiting N s) (hm : s.mode c = .run i)
    (hl : s.lock .wait = none ∨ s.lock .wait = some c) (hk : ∀ k, k ≠ i → s'.base k = s.base k ∧ s'.top k = s.top k)
    (hi : WaitsFor N s' i (s'.base i) (s'.top i))
    (hasleep : ∀ z q, s'.state z = .ZOMBIE → s'.parent z = some q → AsleepInWait s' q →
      q = initproc ∧ ∃ e st j, s'.base e = .reparent st j ∧ s'.top e = .wake (.proc initproc) 0) : Waiting N s' where
  asleep := hasleep
  calls k := by
    by_cases hki : k = i
    · rw [hki]
      exact hi
    · obtain ⟨hb, ht⟩ := hk k hki
      rw [hb, ht]
      exact (h.calls k).idle (hs.wait.shape k) (hs.alone hm hl k hki)

/-- What is in `wakeup(initproc)` of `reparent` holds `wait_lock`. -/
theorem Waiting.not_asleep {c : κ} (hs : SysInv s) (h : Waiting N s) (hm : s.mode c = .run i)
    (hl : s.lock .wait = none ∨ s.lock .wait = some c) (hi : s.top i ≠ .wake (.proc initproc) 0) {z q : Nat}
    (hz : s.state z = .ZOMBIE) (hp : s.parent z = some q) : ¬ AsleepInWait s q := by
  intro hq
  obtain ⟨-, e, st, j, hb, ht⟩ := h.asleep z q hz hp hq
  by_cases he : e = i
  · subst he
    exact hi ht
  · refine hs.alone hm hl e he (Or.inl ?_)
    rw [hb, ht]
    exact ⟨rfl, rfl⟩

theorem not_asleep_of_top {q : Nat} (ht : s.top q = t)
    (hne : ∀ ch lk, t ≠ .sleep2 ch lk ∧ t ≠ .asleep ch lk ∧ t ≠ .sched (.asleep ch lk)) : ¬ AsleepInWait s q := by
  have ht' : s.core.top q = t := ht
  rintro (hq | ⟨-, hq | hq⟩)
  · exact (hne _ _).1 (ht'.symm.trans hq)
  · exact (hne _ _).2.1 (ht'.symm.trans hq)
  · exact (hne _ _).2.2 (ht'.symm.trans hq)

theorem AsleepInWait.congr {q : Nat} (h : AsleepInWait s' q) (ht : s'.top q = s.top q)
    (hst : s'.state q = .SLEEPING → s.state q = .SLEEPING) : AsleepInWait s q := by
  unfold AsleepInWait Core.InSleep at h ⊢
  rw [show s'.core.top q = s.core.top q from ht] at h
  exact h.imp_right fun hr => ⟨hst hr.1, hr.2⟩

theorem quiet_of_top (hp : s'.parent = s.parent) (hz : ∀ k, s'.state k = .ZOMBIE → s.state k = .ZOMBIE)
    (hsl : ∀ k, k ≠ i → s'.top k = s.top k ∧ (s'.state k = .SLEEPING → s.state k = .SLEEPING))
    (hi : AsleepInWait s' i → AsleepInWait s i) : Quiet s s' := by
  refine ⟨hp, hz, fun q hq => ?_⟩
  by_cases hqi : q = i
  · rw [hqi] at hq ⊢
    exact hi hq
  · exact hq.congr (hsl q hqi).1 (hsl q hqi).2

theorem Waiting.still (h : Waiting N s) (hp : s'.parent = s.parent) (hb : s'.base = s.base) (ht : s'.top = s.top)
    (hz : ∀ k, s'.state k = .ZOMBIE → s.state k = .ZOMBIE) (hsl : ∀ k, s'.state k = .SLEEPING → s.state k = .SLEEPING) :
    Waiting N s' := by
  have hq : Quiet s s' := ⟨hp, hz, fun q hq => hq.congr (by rw [ht]) (hsl q)⟩
  refine h.quiet (i := 0) hq (fun k _ => Or.inl ⟨by rw [hb], by rw [ht]⟩) ?_ fun _ _ _ _ => Or.inl ⟨by rw [hb], by rw [ht]⟩
  rw [hb, ht]
  exact (h.calls 0).quiet hq

theorem eq_of_update {f : Nat → ProcState} {j k : Nat} {st st' : ProcState} (h : update f j st k = st')
    (hne : st ≠ st') : f k = st' := by
  by_cases hk : k = j
  · rw [hk, update_self] at h
    exact absurd h hne
  · rwa [update_of_ne hk] at h

end frames

/-! ## Steps -/

section steps

variable [DecidableEq κ] {N : Nat} {s : Sys κ} {c : κ} {i : Nat}

theorem waiting_sched {a : SchedAct} (h : Waiting N s) : Waiting N (a.next N s c) := by
  cases a with
  | choose i =>
    exact h.still rfl rfl rfl (fun _ hk => eq_of_update hk (by decide)) fun _ hk => eq_of_update hk (by decide)
  | skip i | load i | switch i | kvminithart i | leave i => exact h.still rfl rfl rfl (fun _ hk => hk) fun _ hk => hk

theorem waiting_irq {a : IrqAct} (h : Waiting N s) : Waiting N (a.next s c) := by
  cases a with
  | rouse ch j =>
    exact h.still rfl rfl rfl (fun _ hk => eq_of_update hk (by decide)) fun _ hk => eq_of_update hk (by decide)
  | _ => exact h.still rfl rfl rfl (fun _ hk => hk) fun _ hk => hk

omit [DecidableEq κ] in
/-- A quiet step of process `i` in `sleep`, `wakeup` or `sched`. -/
theorem Waiting.top {s' : Sys κ} {t t' : Top} (h : Waiting N s) (ht : s.top i = t) (hp : s'.parent = s.parent)
    (hb : s'.base = s.base) (ht' : s'.top = update s.top i t')
    (hz : ∀ k, s'.state k = .ZOMBIE → s.state k = .ZOMBIE)
    (hsl : ∀ k, k ≠ i → s'.state k = .SLEEPING → s.state k = .SLEEPING)
    (hi : (∀ ch lk, t' ≠ .sleep2 ch lk ∧ t' ≠ .asleep ch lk ∧ t' ≠ .sched (.asleep ch lk)) ∨
      (AsleepInWait s' i → AsleepInWait s i))
    (hw : Quiet s s' → WaitsFor N s i (s.base i) t → WaitsFor N s' i (s.base i) t')
    (hgive : t ≠ .wake (.proc initproc) 0 ∨ ∀ st j, s.base i = .reparent st j → ¬ AsleepInWait s' initproc) :
    Waiting N s' := by
  have hq : Quiet s s' := by
    refine quiet_of_top hp hz (fun k hk => ⟨by rw [ht', update_of_ne hk], hsl k hk⟩) ?_
    rcases hi with hne | hi
    · exact fun hq => absurd hq (not_asleep_of_top (by rw [ht', update_self]) hne)
    · exact hi
  refine h.quiet hq (fun k hk => Or.inl ⟨by rw [hb], by rw [ht', update_of_ne hk]⟩) ?_ fun st j hbi hti => Or.inr ?_
  · rw [hb, ht', update_self]
    exact hw hq (ht ▸ h.calls i)
  · rcases hgive with hgive | hgive
    · exact absurd (ht.symm.trans hti) hgive
    · exact hgive st j hbi

omit [DecidableEq κ] in
theorem WaitsFor.of_not_waits {b : Base} {t : Top} (hb : b.waits = false) : WaitsFor N s i b t := by
  cases b <;> trivial

omit [DecidableEq κ] in
theorem WaitsFor.wakes {s' : Sys κ} {b : Base} {ch : Chan} {j j' : Nat} (h : WaitsFor N s i b (.wake ch j)) (hq : Quiet s s') :
    WaitsFor N s' i b (.wake ch j') := by
  have h' := h.quiet hq
  cases b <;> exact h'

omit [DecidableEq κ] in
/-- In the middle of `sleep` a process has seen nothing. -/
theorem WaitsFor.sleeps {s' : Sys κ} {b : Base} {t t' : Top} (h : WaitsFor N s i b t) (ht : t.straight = false)
    (ht' : t'.straight = false) (hne : ∀ ch lk, t' ≠ .sleep1 ch lk) : WaitsFor N s' i b t' := by
  have hscan : ∀ j k, b = .scan j k → j = 0 := by
    rintro j k rfl
    cases t with
    | run | wake ch k => cases ht
    | sleep1 ch lk => exact h.1
    | _ => exact h
  cases b with
  | scan j k =>
    cases t' with
    | run | wake ch k => cases ht'
    | sleep1 ch lk => exact absurd rfl (hne ch lk)
    | _ => exact hscan j k rfl
  | waitSleep | exitOwn st =>
    cases t' with
    | run | wake ch k => cases ht'
    | _ => trivial
  | _ => trivial

theorem waiting_thread {a : ThreadAct} (hs : SysInv s) (hf : Family N s) (h : Waiting N s) (he : a.enabled N s c i)
    (hs' : SysInv (a.next s c i)) : Waiting N (a.next s c i) := by
  have hshape := hs.wait.shape i
  have hN : 0 < N := hf.tree.lt_of_ne_unused hf.tree.first.1.ne_unused
  have hgen : ∀ {b : Base}, b.generic = true → ∀ st j, b ≠ .reparent st j := by
    rintro _ hb st j rfl
    cases hb
  have hwoken : ∀ {s' : Sys κ}, SysInv s' → s'.mode c = .run i → s'.irq c = .none → s'.top i = .wake (.proc initproc) 1 →
      s'.lock .wait = some c → ¬ AsleepInWait s' initproc := fun hs' hm hq ht hl =>
    hs'.core.woken c (.proc initproc) 1 .wait (Or.inr ⟨i, hm, hq, ht⟩) hl initproc (by decide)
  have hlock : ∀ {st : Int} {j : Nat} {ch : Chan} {k : Nat}, s.Runs c i (s.base i) (.wake ch k) → s.base i = .reparent st j →
      s.lock .wait = some c := fun hr hb =>
    hs.wait.held c i hr.1 (Or.inl (by rw [hb, hr.2.2.2]; exact ⟨rfl, rfl⟩))
  cases a with
  | trap | usertrapret =>
    refine h.quiet (i := i) ⟨rfl, fun _ hk => hk, fun _ hq => hq⟩
      (fun k hk => Or.inl ⟨update_of_ne hk _ _, rfl⟩) ?_ fun st j hb => ?_
    · show WaitsFor N _ i (update s.base i _ i) _
      rw [update_self]
      trivial
    · rw [he.2.2.1] at hb
      cases hb
  | acquire n | release n | setFile fd f | chdir d | setkilled => exact h.still rfl rfl rfl (fun _ hk => hk) fun _ hk => hk
  | wakeup n =>
    exact h.top he.1.2.2.2 rfl rfl rfl (fun _ hk => hk) (fun _ _ hk => hk) (Or.inl (by simp))
      (fun _ _ => .of_not_waits (Base.waits_of_generic he.2)) (Or.inl (by simp))
  | pass ch j =>
    refine h.top he.1.2.2.2 rfl rfl rfl (fun _ hk => hk) (fun _ _ hk => hk) (Or.inl (by simp))
      (fun hq hw => hw.wakes hq) ?_
    by_cases hwk : Top.wake ch j = .wake (.proc initproc) 0
    · cases hwk
      exact Or.inr fun st j hb => hwoken hs' he.1.1 he.1.2.1 (update_self ..) (hlock he.1 hb)
    · exact Or.inl hwk
  | rouse ch j =>
    refine h.top he.1.2.2.2 rfl rfl rfl (fun _ hk => eq_of_update hk (by decide))
      (fun _ _ hk => eq_of_update hk (by decide)) (Or.inl (by simp)) (fun hq hw => hw.wakes hq) ?_
    by_cases hwk : Top.wake ch j = .wake (.proc initproc) 0
    · cases hwk
      exact Or.inr fun st j hb => hwoken hs' he.1.1 he.1.2.1 (update_self ..) (hlock he.1 hb)
    · exact Or.inl hwk
  | done ch =>
    refine h.top he.2.2.2 rfl rfl rfl (fun _ hk => hk) (fun _ _ hk => hk) (Or.inl (by simp)) (fun hq hw => ?_)
      (Or.inl (by simp; omega))
    cases hb : s.base i with
    | exitOwn st =>
      rw [hb] at hw
      intro q hp
      have hp' : s.parent i = some q := hp
      have hl := hs.wait.held c i he.1 (Or.inl (by rw [hb, he.2.2.2]; exact ⟨rfl, rfl⟩))
      have hq' := hs.core.woken c ch N .wait (Or.inr ⟨i, he.at⟩) hl q
        (hf.tree.lt_of_ne_unused (hf.tree.live i q hp').ne_unused)
      rw [hw q hp'] at hq'
      exact mt (hq.asleep q) hq'
    | scan j k | waitSleep =>
      rw [hb] at hw
      exact hw.elim
    | _ => trivial
  | sleep n m =>
    exact h.top he.1.2.2.2 rfl rfl rfl (fun _ hk => hk) (fun _ _ hk => hk) (Or.inl (by simp))
      (fun _ _ => .of_not_waits (Base.waits_of_generic he.2.1)) (Or.inl (by simp))
  | drop ch lk =>
    rw [he.1.2.2.2] at hshape
    have ht : (ThreadAct.next s c i (.drop ch lk)).core.top i = .sleep2 ch lk := update_self ..
    by_cases hlk : lk = .wait
    · subst hlk
      -- the process is in `wait`, which has seen its children
      obtain ⟨j, k, hb⟩ : ∃ j k, s.base i = .scan j k := by
        by_contra hne
        push Not at hne
        have hw : (s.base i).waits = true := by
          by_contra hw
          exact hshape.other (by simpa using hw) ch rfl
        cases hshape.waits hw hne
      have hw := h.calls i
      rw [hb, he.1.2.2.2] at hw
      refine h.locked hs he.1.1 (Or.inr he.2) (fun k hk => ⟨rfl, update_of_ne hk _ _⟩) ?_ fun z q hz hp hq => ?_
      · show WaitsFor N _ i (s.base i) (update s.top i _ i)
        rw [update_self, hb]
        exact hw.1
      · exfalso
        by_cases hqi : q = i
        · subst hqi
          exact hw.2 z (hf.tree.lt_of_ne_unused (by rw [show s.state z = _ from hz]; decide)) hp hz
        · exact h.not_asleep hs he.1.1 (Or.inr he.2) (by simp [he.1.2.2.2]) hz hp
            (hq.congr (update_of_ne hqi _ _) id)
    · refine h.top he.1.2.2.2 rfl rfl rfl (fun _ hk => hk) (fun _ _ hk => hk) (Or.inr fun hq => ?_)
        (fun _ hw => hw.sleeps rfl rfl (by simp)) (Or.inl (by simp))
      rcases hq with hq | ⟨-, hq | hq⟩ <;> rw [ht] at hq <;> cases hq
      exact absurd rfl hlk
  | doze ch lk =>
    refine h.top he.2.2.2 rfl rfl rfl (fun _ hk => eq_of_update hk (by decide)) (fun k hk hst => ?_) (Or.inr fun hq => ?_)
      (fun _ hw => hw.sleeps rfl rfl (by simp)) (Or.inl (by simp))
    · have hst' : update s.state i .SLEEPING k = .SLEEPING := hst
      rwa [update_of_ne hk] at hst'
    · have ht : (ThreadAct.next s c i (.doze ch lk)).core.top i = .sched (.asleep ch lk) := update_self ..
      rcases hq with hq | ⟨-, hq | hq⟩ <;> rw [ht] at hq <;> cases hq
      exact Or.inl he.2.2.2
  | swtch t =>
    have hp := (hs.core.at_runOk he.1.at).2.2.2
    refine h.top he.1.2.2.2 rfl rfl rfl (fun _ hk => hk) (fun _ _ hk => hk) (Or.inr fun hq => ?_)
      (fun _ hw => hw.sleeps rfl (Top.straight_of_parked hp) ?_) (Or.inl (by simp))
    · have ht : (ThreadAct.next s c i (.swtch t)).core.top i = t := update_self ..
      rcases hq with hq | ⟨hst, hq | hq⟩ <;> rw [ht] at hq
      · rw [hq] at hp
        cases hp
      · rw [hq] at he
        exact Or.inr ⟨hst, Or.inr he.1.2.2.2⟩
      · rw [hq] at hp
        cases hp
    · rintro ch lk rfl
      cases hp
  | rise ch lk =>
    exact h.top he.1.2.2.2 rfl rfl rfl (fun _ hk => hk) (fun _ _ hk => hk) (Or.inl (by simp))
      (fun _ hw => hw.sleeps rfl rfl (by simp)) (Or.inl (by simp))
  | regain ch lk =>
    rw [he.1.2.2.2] at hshape
    refine h.top he.1.2.2.2 rfl rfl rfl (fun _ hk => hk) (fun _ _ hk => hk) (Or.inl (by simp)) (fun _ hw => ?_)
      (Or.inl (by simp))
    cases hb : s.base i with
    | scan j k =>
      rw [hb] at hw
      obtain rfl : j = 0 := hw
      exact fun k hk => absurd hk (Nat.not_lt_zero k)
    | waitSleep | exitOwn st =>
      rw [hb] at hshape
      cases hshape.waits rfl (by simp)
    | _ => trivial
  | yield t =>
    obtain ⟨hr, ht, -, hn, -⟩ := he
    have hno : ¬ InWait (s.base i) t := by
      intro hin
      rw [← hr.2.2.2] at hin
      exact hs.core.counted.not_held hn .wait (hs.wait.held c i hr.1 hin)
    refine h.top hr.2.2.2 rfl rfl rfl (fun _ hk => eq_of_update hk (by decide)) (fun _ _ hk => eq_of_update hk (by decide))
      (Or.inl (by simp)) (fun _ hw => ?_) ?_
    · cases hst : t.straight with
      | true => exact .of_not_waits (Bool.eq_false_iff.2 fun hb => hno (Or.inl ⟨hb, hst⟩))
      | false => exact hw.sleeps hst rfl (by simp)
    · by_cases hwk : t = .wake (.proc initproc) 0
      · subst hwk
        exact Or.inr fun st j hb => absurd (Or.inl ⟨by rw [hb]; rfl, rfl⟩) hno
      · exact Or.inl hwk
  | resume t =>
    have hok := (hs.core.slot i).top
    rw [he.1.at.2.2] at hok
    rw [he.1.2.2.2] at hshape
    cases hst : t.straight with
    | true =>
      have hsl : t.sleepsOn = none := Top.sleepsOn_of_straight hst
      refine h.top he.1.2.2.2 rfl rfl rfl (fun _ hk => hk) (fun _ _ hk => hk) (Or.inl fun ch lk => ?_)
        (fun _ _ => .of_not_waits (hshape.not_waits rfl (by simp [Top.sleepsOn, hsl]))) (Or.inl (by simp))
      refine ⟨?_, ?_, ?_⟩ <;> rintro rfl <;> cases hst
    | false =>
      refine h.top he.1.2.2.2 rfl rfl rfl (fun _ hk => hk) (fun _ _ hk => hk) (Or.inl fun ch lk => ?_)
        (fun _ hw => hw.sleeps rfl hst ?_) (Or.inl (by simp))
      · refine ⟨?_, ?_, ?_⟩ <;> rintro rfl <;> cases hok.1
      · rintro ch lk rfl
        cases hok.1
  | forkret =>
    rw [he.1.2.2.2] at hshape
    exact h.top he.1.2.2.2 rfl rfl rfl (fun _ hk => hk) (fun _ _ hk => hk) (Or.inl (by simp))
      (fun _ _ => .of_not_waits (hshape.not_waits rfl (by simp [Top.sleepsOn]))) (Or.inl (by simp))

omit [DecidableEq κ] in
/-- A quiet step of process `i` that only changes the call it is in. -/
theorem Waiting.base {s' : Sys κ} {b b' : Base} (h : Waiting N s) (hr : s.Runs c i b .run) (hp : s'.parent = s.parent)
    (hb : s'.base = update s.base i b') (ht : s'.top = s.top)
    (hz : ∀ k, s'.state k = .ZOMBIE → s.state k = .ZOMBIE) (hsl : ∀ k, s'.state k = .SLEEPING → s.state k = .SLEEPING)
    (hw : Quiet s s' → WaitsFor N s i b .run → WaitsFor N s' i b' .run) : Waiting N s' := by
  have hq : Quiet s s' := ⟨hp, hz, fun q hq => hq.congr (by rw [ht]) (hsl q)⟩
  have hi := h.calls i
  rw [hr.2.2.1, hr.2.2.2] at hi
  refine h.quiet hq (fun k hk => Or.inl ⟨by rw [hb, update_of_ne hk], by rw [ht]⟩) ?_ fun st j _ htop => ?_
  · rw [hb, update_self, ht, hr.2.2.2]
    exact hw hq hi
  · rw [hr.2.2.2] at htop
    cases htop

omit [DecidableEq κ] in
theorem waiting_kill {a : KillAct} (h : Waiting N s) (he : a.enabled N s c i) : Waiting N (a.next s i) := by
  cases a with
  | call pid | fail pid => exact h.base he rfl rfl rfl (fun _ hk => hk) (fun _ hk => hk) fun _ _ => trivial
  | miss pid j => exact h.base he.1 rfl rfl rfl (fun _ hk => hk) (fun _ hk => hk) fun _ _ => trivial
  | hit pid j =>
    have hst : ∀ k st, st ≠ .RUNNABLE →
        (if s.state j = .SLEEPING then update s.state j .RUNNABLE else s.state) k = st → s.state k = st := by
      intro k st hne hk
      split at hk
      · exact eq_of_update hk hne.symm
      · exact hk
    rw [KillAct.next, Sys.killSlot_eq]
    exact h.base he.1 rfl rfl rfl (fun k hk => hst k _ (by decide) hk) (fun k hk => hst k _ (by decide) hk)
      fun _ _ => trivial

theorem waiting_exit {a : ExitAct} (hs : SysInv s) (h : Waiting N s) (he : a.enabled N s c i) :
    Waiting N (a.next s c i) := by
  cases a with
  | call st | close st fd | lock st | keep st j =>
    exact h.base he.1 rfl rfl rfl (fun _ hk => hk) (fun _ hk => hk) fun _ _ => trivial
  | closed st | iput st => exact h.base he rfl rfl rfl (fun _ hk => hk) (fun _ hk => hk) fun _ _ => trivial
  | give st j =>
    obtain ⟨hr, -, -⟩ := he
    have hl := hs.wait.held c i hr.1 (Or.inl (by rw [hr.2.2.1, hr.2.2.2]; exact ⟨rfl, rfl⟩))
    have hbase : ((ExitAct.give st j).next s c i).base = update s.base i (.reparent st (j + 1)) := rfl
    refine h.locked hs hr.1 (Or.inr hl) (fun k hk => ⟨update_of_ne hk _ _, update_of_ne hk _ _⟩) ?_
      fun z q hz hp hq => ?_
    · rw [hbase, update_self]
      trivial
    · have hp' : update s.parent j (some initproc) z = some q := hp
      by_cases hzj : z = j
      · rw [hzj, update_self] at hp'
        exact ⟨(Option.some.inj hp').symm, i, st, j + 1, update_self .., update_self ..⟩
      · rw [update_of_ne hzj] at hp'
        have hqi : q ≠ i := by
          rintro rfl
          exact not_asleep_of_top (update_self ..) (by simp) hq
        exact absurd (hq.congr (update_of_ne hqi _ _) id)
          (h.not_asleep hs hr.1 (Or.inr hl) (by simp [hr.2.2.2]) hz hp')
  | given st =>
    have hbase : ((ExitAct.given st).next s c i).base = update s.base i (.exitOwn st) := rfl
    have htop : ((ExitAct.given st).next s c i).top = update s.top i (.wake (s.parentChan i) 0) := rfl
    refine h.quiet (i := i) (quiet_of_top rfl (fun _ hk => hk) (fun k hk => ⟨update_of_ne hk _ _, id⟩) fun hq => ?_)
      (fun k hk => Or.inl ⟨update_of_ne hk _ _, update_of_ne hk _ _⟩) ?_ fun st j _ ht => ?_
    · exact absurd hq (not_asleep_of_top (update_self ..) (by simp))
    · rw [hbase, htop, update_self, update_self]
      intro q hp
      rw [Sys.parentChan, show s.parent i = some q from hp]
    · rw [he.2.2.2] at ht
      cases ht
  | zombie st =>
    obtain ⟨hr, -, hl⟩ := he
    have hw := h.calls i
    rw [hr.2.2.1, hr.2.2.2] at hw
    have hbase : ((ExitAct.zombie st).next s c i).base = update s.base i .zombie := rfl
    refine h.locked hs hr.1 (Or.inr hl) (fun k hk => ⟨update_of_ne hk _ _, update_of_ne hk _ _⟩) ?_
      fun z q hz hp hq => ?_
    · rw [hbase, update_self]
      trivial
    · exfalso
      have hq' : AsleepInWait s q := by
        have hqi : q ≠ i := by
          rintro rfl
          exact not_asleep_of_top (update_self ..) (by simp) hq
        exact hq.congr (update_of_ne hqi _ _) fun hst => eq_of_update hst (by decide)
      by_cases hzi : z = i
      · exact hw q (hzi ▸ hp) hq'
      · have hz' : update s.state i .ZOMBIE z = .ZOMBIE := hz
        rw [update_of_ne hzi] at hz'
        exact h.not_asleep hs hr.1 (Or.inr hl) (by simp [hr.2.2.2]) hz' hp hq'

theorem waiting_wait {a : WaitAct} (hs : SysInv s) (h : Waiting N s) (he : a.enabled N s c i) :
    Waiting N (a.next s c i) := by
  cases a with
  | call =>
    exact h.base he.1 rfl rfl rfl (fun _ hk => hk) (fun _ hk => hk) fun _ _ k hk => absurd hk (Nat.not_lt_zero k)
  | other j b =>
    refine h.base he.1 rfl rfl rfl (fun _ hk => hk) (fun _ hk => hk) fun hq hw k hk hp => ?_
    rcases Nat.lt_succ_iff_lt_or_eq.1 hk with hlt | rfl
    · exact NoZombie.quiet hw hq k hlt hp
    · exact absurd hp he.2.2
  | alive j b =>
    refine h.base he.1 rfl rfl rfl (fun _ hk => hk) (fun _ hk => hk) fun hq hw k hk hp => ?_
    rcases Nat.lt_succ_iff_lt_or_eq.1 hk with hlt | rfl
    · exact NoZombie.quiet hw hq k hlt hp
    · exact he.2.2.2.2
  | bad j b | childless | killed => exact h.base he.1 rfl rfl rfl (fun _ hk => hk) (fun _ hk => hk) fun _ _ => trivial
  | reap j b =>
    obtain ⟨hr, -, -, -, -, hl⟩ := he
    have hbase : ((WaitAct.reap j b).next s c i).base = update s.base i .kernel := rfl
    refine h.locked hs hr.1 (Or.inr hl) (fun k hk => ⟨update_of_ne hk _ _, rfl⟩) ?_ fun z q hz hp hq => ?_
    · rw [hbase, update_self]
      trivial
    · exfalso
      have hz' : s.state z = .ZOMBIE := eq_of_update hz (by decide)
      have hp' : update s.parent j none z = some q := hp
      by_cases hzj : z = j
      · rw [hzj, update_self] at hp'
        cases hp'
      · rw [update_of_ne hzj] at hp'
        exact h.not_asleep hs hr.1 (Or.inr hl) (by simp [hr.2.2.2]) hz' hp'
          (hq.congr rfl fun hst => eq_of_update hst (by decide))
  | notKilled => exact h.base he.1 rfl rfl rfl (fun _ hk => hk) (fun _ hk => hk) fun hq hw => NoZombie.quiet hw hq
  | sleep =>
    have hbase : (WaitAct.sleep.next s c i).base = update s.base i (.scan 0 false) := rfl
    have htop : (WaitAct.sleep.next s c i).top = update s.top i (.sleep1 (.proc i) .wait) := rfl
    have hw := h.calls i
    rw [he.1.2.2.1, he.1.2.2.2] at hw
    have hq : Quiet s (WaitAct.sleep.next s c i) := by
      refine quiet_of_top (i := i) rfl (fun _ hk => hk) (fun k hk => ⟨update_of_ne hk _ _, id⟩) fun hq => ?_
      exact absurd hq (not_asleep_of_top (update_self ..) (by simp))
    refine h.quiet (i := i) hq (fun k hk => Or.inl ⟨update_of_ne hk _ _, update_of_ne hk _ _⟩) ?_
      fun st j _ ht => ?_
    · rw [hbase, htop, update_self, update_self]
      exact ⟨rfl, NoZombie.quiet hw hq⟩
    · rw [he.1.2.2.2] at ht
      cases ht

theorem waiting_fork {a : ForkAct} (hs : SysInv s) (hf : Family N s) (h : Waiting N s) (he : a.enabled N s c i) :
    Waiting N (a.next s c i) := by
  have hparent : ∀ {j : Nat}, s.state j = .UNUSED → update s.parent j none = s.parent := fun hst =>
    update_eq_self_iff.2 (hf.tree.unused _ hst).symm
  -- a slot that is renewed is on no CPU, and nothing is known of it
  have hnew : ∀ {s' : Sys κ} {j : Nat} {b' : Base}, s.Runs c i (.alloc j) .run → s.state j = .UNUSED →
      s'.parent = s.parent → s'.base = update (update s.base j .kernel) i b' → b'.waits = false →
      s'.top = update s.top j .fresh → (∀ k, s'.state k = .ZOMBIE → s.state k = .ZOMBIE) →
      (∀ k, s'.state k = .SLEEPING → s.state k = .SLEEPING) → Waiting N s' := by
    intro s' j b' hr hst hp hb hb' ht hz hsl
    have hij : i ≠ j := by
      rintro rfl
      have hrun : s.state i = .RUNNING := (hs.core.at_runOk hr.at).1
      rw [hst] at hrun
      cases hrun
    have hq : Quiet s s' := quiet_of_top (i := j) hp hz (fun k hk => ⟨by rw [ht, update_of_ne hk], hsl k⟩)
      fun hq => absurd hq (not_asleep_of_top (by rw [ht, update_self]) (by simp))
    refine h.quiet (i := i) hq (fun k hk => ?_) ?_ fun st m _ htop => ?_
    · by_cases hkj : k = j
      · subst hkj
        refine Or.inr ⟨by rw [hb, update_of_ne hk, update_self], ?_⟩
        rcases (hs.core.slot k).unused hst with htop | htop
        · rw [show s.top k = _ from htop]
          rfl
        · rw [show s.top k = _ from htop]
          rfl
      · rw [hb, ht, update_of_ne hk, update_of_ne hkj, update_of_ne hkj]
        exact Or.inl ⟨rfl, rfl⟩
    · rw [hb, update_self]
      exact .of_not_waits hb'
    · rw [hr.2.2.2] at htop
      cases htop
  cases a with
  | call | full => exact h.base he rfl rfl rfl (fun _ hk => hk) (fun _ hk => hk) fun _ _ => trivial
  | used j => exact h.base he.1 rfl rfl rfl (fun _ hk => hk) (fun _ hk => hk) fun _ _ => trivial
  | fail j | leak j =>
    exact h.base he.1 (hparent he.2.2.2) rfl rfl (fun _ hk => eq_of_update hk (by decide))
      (fun _ hk => eq_of_update hk (by decide)) fun _ _ => trivial
  | nomem j a b =>
    obtain ⟨hr, -, -, hst, -⟩ := he
    have hstate : ((ForkAct.nomem j a b).next s c i).state = update s.state j .UNUSED := update_idem ..
    exact hnew hr hst (hparent hst) rfl rfl rfl (fun k hk => eq_of_update (hstate ▸ hk) (by decide))
      fun k hk => eq_of_update (hstate ▸ hk) (by decide)
  | copy j a b =>
    exact hnew he.1 he.2.2.2.1 rfl rfl rfl rfl (fun _ hk => eq_of_update hk (by decide))
      fun _ hk => eq_of_update hk (by decide)
  | link j =>
    obtain ⟨hr, hl⟩ := he
    have hused := hs.child.used i j (by rw [hr.2.2.1]; rfl)
    have hbase : ((ForkAct.link j).next s c i).base = update s.base i (.start j) := rfl
    refine h.locked hs hr.1 (Or.inl hl) (fun k hk => ⟨update_of_ne hk _ _, rfl⟩) ?_ fun z q hz hp hq => ?_
    · rw [hbase, update_self]
      trivial
    · have hzj : z ≠ j := by
        rintro rfl
        rw [show s.state z = .ZOMBIE from hz] at hused
        cases hused
      have hp' : update s.parent j (some i) z = some q := hp
      rw [update_of_ne hzj] at hp'
      exact absurd (hq.congr rfl id) (h.not_asleep hs hr.1 (Or.inl hl) (by simp [hr.2.2.2]) hz hp')
  | start j =>
    exact h.base he.1 rfl rfl rfl (fun _ hk => eq_of_update hk (by decide)) (fun _ hk => eq_of_update hk (by decide))
      fun _ _ => trivial

/-- **One step keeps what `wait` and `exit` have seen.** -/
theorem Waiting.step {a : Act κ} (hs : SysInv s) (hf : Family N s) (h : Waiting N s) (he : a.enabled N s) :
    Waiting N (a.next N s) := by
  have hs' := hs.step he
  cases a with
  | sched c a => exact waiting_sched h
  | irq c a => exact waiting_irq h
  | thread c i a => exact waiting_thread hs hf h he hs'
  | kill c i a => exact waiting_kill h he
  | fork c i a => exact waiting_fork hs hf h he
  | exit c i a => exact waiting_exit hs h he
  | wait c i a => exact waiting_wait hs h he

omit [DecidableEq κ] in
theorem Waiting.of_init (h : Init N s) : Waiting N s where
  asleep z q hz := by
    rcases (h.at_rest z).1 with hst | hst <;> rw [hst] at hz <;> cases hz
  calls i := by
    rw [(h.at_rest i).2.2]
    trivial

theorem waiting_of_reach (h : Reachable N s) : Waiting N s := by
  refine (h.invariant (I := fun s => SysInv s ∧ Family N s ∧ Waiting N s)
    (fun s hi => ⟨.of_init hi, .of_init hi, .of_init hi⟩) ?_).2.2
  intro s a s' hI _ hs
  obtain ⟨he, rfl⟩ := step_eq_some.1 hs
  exact ⟨hI.1.step he, hI.2.1.step hI.1 he, hI.2.2.step hI.1 hI.2.1 he⟩

/-- **`wait` never sleeps past an exited child.**  While `wait_lock` is free no process that is `SLEEPING` on
itself, or about to be, is the parent of a `ZOMBIE`. -/
theorem wait_sleeps (h : Reachable N s) (hfree : s.lock .wait = none) (z q : Nat) (hz : s.state z = .ZOMBIE)
    (hp : s.parent z = some q) : ¬ (s.state q = .SLEEPING ∧ s.chan q = .proc q) ∧ ¬ AsleepInWait s q := by
  have hs := inv_of_reach h
  have hno : ¬ AsleepInWait s q := by
    intro hq
    obtain ⟨-, e, st, j, hb, ht⟩ := (waiting_of_reach h).asleep z q hz hp hq
    obtain ⟨c, -, hl⟩ := hs.lock_of_inWait (i := e) (Or.inl (by rw [hb, ht]; exact ⟨rfl, rfl⟩))
    rw [hfree] at hl
    cases hl
  refine ⟨?_, hno⟩
  rintro ⟨hst, hch⟩
  have hok := (hs.core.slot q).top
  rw [show s.core.chan q = .proc q from hch] at hok
  obtain ⟨ch, lk, ht⟩ := (hs.core.slot q).sleeping hst
  have hch' : ch = .proc q := by
    rcases ht with ht | ht <;> rw [ht] at hok <;> exact hok.1.symm
  subst hch'
  have hsl : (s.top q).sleepsOn = some (.proc q, lk) := by
    rcases ht with ht | ht <;> rw [show s.top q = _ from ht] <;> rfl
  rcases sleepCall_of_reach h q _ _ hsl with ⟨n, m, hn, -⟩ | ⟨-, rfl⟩
  · cases hn
  · exact hno (Or.inr ⟨hst, ht⟩)

end steps

/-- The child has exited, its parent has been made runnable, and `wait_lock` is free. -/
theorem exit_ends :
    ((Transition.runActs (step 2) (boot Unit)
      (forkRun ++ (List.range NOFILE).map (fun fd => .exit () 1 (.close 7 fd)) ++ exitRun.take 10)).map fun s =>
        (s.lock .wait, s.state 1, s.parent 1)) = some (none, .ZOMBIE, some 0) := by
  decide +kernel

theorem wait_sleeps_child :
    ∃ s, Transition.runActs (step 2) (boot Unit)
        (forkRun ++ (List.range NOFILE).map (fun fd => .exit () 1 (.close 7 fd)) ++ exitRun.take 10) = some s ∧
      s.lock .wait = none ∧ s.state 1 = .ZOMBIE ∧ s.parent 1 = some 0 ∧
      ¬ (s.state 0 = .SLEEPING ∧ s.chan 0 = .proc 0) := by
  obtain ⟨s, hs, heq⟩ := Option.map_eq_some_iff.1 exit_ends
  simp only [Prod.mk.injEq] at heq
  obtain ⟨hl, hz, hp⟩ := heq
  exact ⟨s, hs, hl, hz, hp, (wait_sleeps (.of_run (by decide) hs) hl 1 0 hz hp).1⟩

end Xv6.Sched
