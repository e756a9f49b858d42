import Xv6.Sched.Core

/-!
# Sleeping and waking

* `sim` — a step of the system is a sequence of steps of its core.
* `WaitOk` — who holds `wait_lock`.
* `inv_of_reach` — the invariants hold in every state of every run.
* `sleep_wakeup` — no wakeup is lost, and `sleep` returns only for a reason.
-/

namespace Xv6.Sched

open Function

variable {κ : Type}

/-! ## The holder of `wait_lock` -/

/-- The part of `exit` and `wait` under `wait_lock`. -/
def Base.waits : Base → Bool
  | .reparent _ _ => true
  | .exitOwn _ => true
  | .scan _ _ => true
  | .waitSleep => true
  | _ => false

/-- The call of `sleep` that a process is in. -/
def Top.sleepsOn : Top → Option (Chan × Lock)
  | .sleep1 ch lk => some (ch, lk)
  | .sleep2 ch lk => some (ch, lk)
  | .asleep ch lk => some (ch, lk)
  | .slept ch lk => some (ch, lk)
  | .yielded t => t.sleepsOn
  | .sched t => t.sleepsOn
  | _ => none

/-- Running or in `wakeup`. -/
def Top.straight : Top → Bool
  | .run => true
  | .wake _ _ => true
  | _ => false

/-- The process holds `wait_lock`. -/
def InWait (b : Base) (t : Top) : Prop := (b.waits = true ∧ t.straight = true) ∨ ∃ ch, t = .sleep1 ch .wait

/-- Under `wait_lock` a process only runs or wakes, except that `wait` sleeps on itself. -/
structure Shape (i : Nat) (b : Base) (t : Top) : Prop where
  waits : b.waits = true → (∀ j h, b ≠ .scan j h) → t.straight = true
  scan : ∀ j h, b = .scan j h → t.straight = true ∨ t.sleepsOn = some (.proc i, .wait)
  other : b.waits = false → ∀ ch, t.sleepsOn ≠ some (ch, .wait)

structure WaitOk (s : Sys κ) : Prop where
  holder : ∀ c, s.lock .wait = some c → ∃ i, s.mode c = .run i ∧ InWait (s.base i) (s.top i)
  held : ∀ c i, s.mode c = .run i → InWait (s.base i) (s.top i) → s.lock .wait = some c
  shape : ∀ i, Shape i (s.base i) (s.top i)

/-- The slot that `fork` has allocated and not made runnable. -/
def Base.child : Base → Option Nat
  | .link j => some j
  | .start j => some j
  | _ => none

/-- A slot in the making belongs to one `fork`. -/
structure ChildOk (s : Sys κ) : Prop where
  used : ∀ i j, (s.base i).child = some j → s.state j = .USED
  uniq : ∀ i i' j, (s.base i).child = some j → (s.base i').child = some j → i = i'

structure SysInv (s : Sys κ) : Prop where
  core : s.core.Inv
  cproc : ∀ c, s.cproc c = (s.mode c).slot
  wait : WaitOk s
  child : ChildOk s

variable {b : Base} {i : Nat} {s : Sys κ} {t : Top} {c : κ}

theorem SysInv.uniq (h : SysInv s) {c' : κ} (hc : s.mode c = .run i) (hc' : s.mode c' = .run i) : c = c' :=
  h.core.uniq c c' i (by show (s.mode c).slot = _; rw [hc]; rfl) (by show (s.mode c').slot = _; rw [hc']; rfl)

/-! ## Simulation -/

theorem Sys.Runs.at (h : s.Runs c i b t) : s.core.At c i t :=
  ⟨h.1, h.2.1, h.2.2.2⟩

/-- A step on slot `j` that leaves the data of the others. -/
theorem elsewhere_update {x : Core κ} (j : Nat) (st : ProcState) (ch : Chan) (t : Top) :
    Core.Elsewhere j x { x with
      state := update x.state j st
      chan := update x.chan j ch
      top := update x.top j t } :=
  ⟨rfl, rfl, rfl, rfl, fun _ hi =>
    ⟨update_of_ne hi _ _, update_of_ne hi _ _, rfl, update_of_ne hi _ _⟩⟩

section sim

variable [DecidableEq κ] {N : Nat} {s : Sys κ} {c : κ} {i : Nat}

open Relation in
/-- A step of the system is a sequence of steps of its core. -/
abbrev Steps (N : Nat) (x y : Core κ) : Prop := ReflTransGen (Core.Step N) x y

theorem sim_sched {a : SchedAct} (he : a.enabled N s c) : Steps N s.core (a.next N s c).core := by
  cases a with
  | skip i => exact .single (.skip he.1)
  | choose i => exact .single (.choose he.1 he.2.1 he.2.2.2.1 he.2.2.2.2)
  | load i => exact .single (.load he)
  | switch i => exact .single (.switch he)
  | kvminithart i => exact .single (.kvminithart he)
  | leave i => exact .single (.leave he.1)

theorem sim_irq {a : IrqAct} (h : SysInv s) (he : a.enabled N s c) : Steps N s.core (a.next s c).core := by
  cases a with
  | enter => exact .single (.interrupt he.1 he.2.1)
  | acquire n => exact .single (.acquire he.2 (Or.inl he.1))
  | release n => exact .single (.release he.2 rfl (Or.inl he.1))
  | wakeup n => exact .single (.irqWake he)
  | pass ch j => exact .single (.irqPass he.1 (he.2.2.imp_left fun hc => (h.cproc c).symm.trans hc))
  | rouse ch j =>
    obtain ⟨hq, -, -, hl, hst, hch⟩ := he
    refine .head (Core.Step.rouse_wakeup hl hst hch) (.single (.irqPass (c := c) (j := j) hq ?_))
    exact Or.inr ⟨hl, fun hs => by simp [Core.setState] at hs⟩
  | done ch => exact .single (.irqDone he)
  | leave => exact .single (.irqLeave he.1 he.2)

theorem sim_thread {a : ThreadAct} (h : SysInv s) (he : a.enabled N s c i) : Steps N s.core (a.next s c i).core := by
  cases a with
  | trap | usertrapret | setFile fd f | chdir d | setkilled => exact .refl
  | acquire n => exact .single (.acquire he.2.2 (Or.inr ⟨i, Or.inl he.1.at⟩))
  | release n => exact .single (.release he.2.2 rfl (Or.inr ⟨i, Or.inl he.1.at⟩))
  | wakeup n => exact .single (.wake he.1.at)
  | pass ch j =>
    refine .single (.pass he.1.at (he.2.2.imp_left ?_))
    rintro rfl
    exact he.1.at.slot
  | rouse ch j =>
    obtain ⟨hr, -, -, hl, hst, hch⟩ := he
    refine .head (Core.Step.rouse_wakeup hl hst hch)
      (.single (.pass (c := c) (j := j) ⟨hr.1, hr.2.1, hr.2.2.2⟩ ?_))
    exact Or.inr ⟨hl, fun hs => by simp [Core.setState] at hs⟩
  | done ch => exact .single (.done he.at)
  | sleep n m =>
    obtain ⟨hr, -, hm, hl⟩ := he
    refine .head (.acquire (l := .proc i) hl (Or.inr ⟨i, Or.inl hr.at⟩))
      (.single (.sleep (c := c) ⟨hr.1, hr.2.1, hr.2.2.2⟩ (update_self ..) ?_ rfl))
    exact (Core.acquire_lock_of_ne (by simp)).trans hm
  | drop ch lk =>
    have hok := (h.core.slot i).top
    rw [he.1.at.2.2] at hok
    refine .head (.drop he.1.at) (.single (.release (c := c) (l := lk) he.2 hok ?_))
    exact Or.inr ⟨i, Or.inr (Or.inl ⟨ch, lk, he.1.1, he.1.2.1, update_self ..⟩)⟩
  | doze ch lk => exact .single (.doze he.at)
  | swtch t => exact .single (.swtch he.1.at he.2.2)
  | rise ch lk => exact .single (.rise he.1.at)
  | regain ch lk =>
    exact .head (.acquire (l := lk) he.2 (Or.inr ⟨i, Or.inr ⟨ch, lk, he.1.at⟩⟩))
      (.single (.regain (c := c) ⟨he.1.1, he.1.2.1, he.1.2.2.2⟩))
  | yield t => exact .single (.yield he.1.at he.2.1 he.2.2.2.1 he.2.2.2.2)
  | resume t => exact .single (.resume he.1.at)
  | forkret => exact .single (.forkret he.1.at)

theorem sim_kill {a : KillAct} (he : a.enabled N s c i) : Steps N s.core (a.next s i).core := by
  cases a with
  | call pid | miss pid j | fail pid => exact .refl
  | hit pid j =>
    obtain ⟨-, -, hl, -⟩ := he
    simp only [KillAct.next, Sys.killSlot]
    split
    · rename_i hst
      exact .single (.rouse hl hst (Or.inr ⟨pid, rfl⟩))
    · exact .refl

omit [DecidableEq κ] in
theorem Sys.killSlot_eq (s : Sys κ) (pid : Int) (j : Nat) :
    s.killSlot pid j = { s with
      killed := update s.killed j true
      state := if s.state j = .SLEEPING then update s.state j .RUNNABLE else s.state
      woke := if s.state j = .SLEEPING then update s.woke j (some (.kill pid)) else s.woke } := by
  by_cases hst : s.state j = .SLEEPING <;> simp [Sys.killSlot, Sys.rouse, hst]

/-- `freeproc` of a slot that is on no CPU. -/
theorem sim_freeproc {x : Core κ} (hx : x.Inv) {j : Nat} (hl : x.lock (.proc j) = none)
    (hst : x.state j = .UNUSED ∨ x.state j = .USED ∨ x.state j = .ZOMBIE) :
    Steps N x { x with
      state := update x.state j .UNUSED
      chan := update x.chan j .null } := by
  refine .single (.renew (j := j) hl hst ?_ (Or.inl ⟨update_self .., ?_⟩))
  · have hf := elsewhere_update (x := x) j .UNUSED .null (x.top j)
    rwa [update_eq_self] at hf
  · obtain ⟨-, hpark⟩ := hx.off_of_free hl (by rcases hst with hst | hst | hst <;> simp [hst])
    rcases hst with hst | hst | hst
    · exact (hx.slot j).unused hst
    · exact Or.inl ((hx.slot j).used hst)
    · rcases (hx.slot j).zombie hst with ht | ht
      · exact Or.inr ht
      · rw [ht] at hpark
        cases hpark

theorem sim_allocproc {x : Core κ} {j : Nat} (hl : x.lock (.proc j) = none) (hst : x.state j = .UNUSED) :
    Steps N x { x with state := update x.state j .USED, top := update x.top j .fresh } := by
  refine .single (.renew (j := j) hl (Or.inl hst) ?_
    (Or.inr ⟨Or.inl (update_self ..), update_self ..⟩))
  have hf := elsewhere_update (x := x) j .USED (x.chan j) .fresh
  rwa [update_eq_self] at hf

theorem sim_fork {a : ForkAct} (h : SysInv s) (he : a.enabled N s c i) : Steps N s.core (a.next s c i).core := by
  cases a with
  | call | used j | full | link j => exact .refl
  | fail j => exact sim_freeproc h.core he.2.2.1 (Or.inl he.2.2.2)
  | leak j =>
    exact (sim_freeproc h.core he.2.2.1 (Or.inl he.2.2.2)).trans
      (.single (.acquire (c := c) (l := .proc j) he.2.2.1
        (Or.inr ⟨i, Or.inl ⟨he.1.1, he.1.2.1, he.1.2.2.2⟩⟩)))
  | nomem j a b =>
    have halloc := sim_allocproc (N := N) (x := s.core) he.2.2.1 he.2.2.2.1
    exact halloc.trans (sim_freeproc (h.core.steps halloc) he.2.2.1 (Or.inr (Or.inl (update_self ..))))
  | copy j a b => exact sim_allocproc he.2.2.1 he.2.2.2.1
  | start j =>
    have hused := h.child.used i j (by rw [he.1.2.2.1]; rfl)
    refine .single (.renew (j := j) he.2 (Or.inr (Or.inl hused)) ?_
      (Or.inr ⟨Or.inr (update_self ..), (h.core.slot j).used hused⟩))
    exact ⟨rfl, rfl, rfl, rfl, fun k hk => ⟨update_of_ne hk _ _, rfl, rfl, rfl⟩⟩

theorem sim_exit {a : ExitAct} (he : a.enabled N s c i) : Steps N s.core (a.next s c i).core := by
  cases a with
  | call st | close st fd | closed st | iput st | keep st j => exact .refl
  | lock st => exact .single (.acquire he.2 (Or.inr ⟨i, Or.inl he.1.at⟩))
  | give st j => exact .single (.wake he.1.at)
  | given st => exact .single (.wake he.at)
  | zombie st =>
    obtain ⟨hr, hl, hw⟩ := he
    refine .head (.acquire (l := .proc i) hl (Or.inr ⟨i, Or.inl hr.at⟩)) (.head (.zombie (c := c) (i := i)
      ⟨hr.1, hr.2.1, hr.2.2.2⟩ (update_self ..)) (.single (.release (c := c) (l := .wait) ?_ rfl ?_)))
    · exact (Core.acquire_lock_of_ne (s := s.core) (c := c) (l := .proc i) (show Lock.wait ≠ .proc i by simp)).trans hw
    · exact Or.inr ⟨i, Or.inr (Or.inr ⟨.dead, hr.1, hr.2.1, update_self ..⟩)⟩

theorem sim_wait {a : WaitAct} (h : SysInv s) (he : a.enabled N s c i) : Steps N s.core (a.next s c i).core := by
  cases a with
  | call => exact .single (.acquire he.2 (Or.inr ⟨i, Or.inl he.1.at⟩))
  | other j hk | alive j hk | notKilled => exact .refl
  | bad j hk => exact .single (.release he.2.2.2.2.2 rfl (Or.inr ⟨i, Or.inl he.1.at⟩))
  | reap j hk =>
    obtain ⟨hr, -, -, hl, hst, hw⟩ := he
    have hrel : Steps N s.core (s.core.release c .wait) := .single (.release hw rfl (Or.inr ⟨i, Or.inl hr.at⟩))
    exact hrel.trans (sim_freeproc (h.core.steps hrel) ((Core.release_lock_of_ne (by simp)).trans hl)
      (Or.inr (Or.inr hst)))
  | childless => exact .single (.release he.2 rfl (Or.inr ⟨i, Or.inl he.1.at⟩))
  | killed => exact .single (.release he.2.2.2 rfl (Or.inr ⟨i, Or.inl he.1.at⟩))
  | sleep =>
    obtain ⟨hr, hl⟩ := he
    have hw : s.lock .wait = some c := by
      refine h.wait.held c i hr.1 (Or.inl ?_)
      rw [hr.2.2.1, hr.2.2.2]
      exact ⟨rfl, rfl⟩
    refine .head (.acquire (l := .proc i) hl (Or.inr ⟨i, Or.inl hr.at⟩))
      (.single (.sleep (c := c) ⟨hr.1, hr.2.1, hr.2.2.2⟩ (update_self ..) ?_ rfl))
    exact (Core.acquire_lock_of_ne (by simp)).trans hw

/-- **Simulation.** -/
theorem sim {a : Act κ} (h : SysInv s) (he : a.enabled N s) : Steps N s.core (a.next N s).core := by
  cases a with
  | sched c a => exact sim_sched he
  | irq c a => exact sim_irq h he
  | thread c i a => exact sim_thread h he
  | kill c i a => exact sim_kill he
  | fork c i a => exact sim_fork h he
  | exit c i a => exact sim_exit he
  | wait c i a => exact sim_wait h he

end sim

/-! ## The invariants of the system -/

theorem Top.sleepsOn_of_straight (h : t.straight = true) : t.sleepsOn = none := by
  cases t <;> first | rfl | cases h

theorem Shape.of_straight (ht : t.straight = true) : Shape i b t where
  waits _ _ := ht
  scan _ _ _ := Or.inl ht
  other _ ch := by simp [Top.sleepsOn_of_straight ht]

/-- Outside `wait_lock` the place of a process is not restricted, except that it does not sleep with `wait_lock`. -/
theorem Shape.of_other (hb : b.waits = false) (ht : ∀ ch, t.sleepsOn ≠ some (ch, .wait)) : Shape i b t where
  waits h := by
    rw [hb] at h
    cases h
  scan j k h := by
    rw [h] at hb
    cases hb
  other _ := ht

theorem Shape.not_waits (h : Shape i b t) (ht : t.straight = false)
    (hs : t.sleepsOn ≠ some (.proc i, .wait)) : b.waits = false := by
  by_contra hb
  rw [Bool.not_eq_false] at hb
  have hne : ∀ j k, b ≠ .scan j k := by
    intro j k hscan
    rcases h.scan j k hscan with hst | hsl
    · rw [ht] at hst
      cases hst
    · exact hs hsl
  have hst := h.waits hb hne
  rw [ht] at hst
  cases hst

theorem not_inWait_of_waits (hb : b.waits = false) (ht : ∀ ch, t ≠ .sleep1 ch .wait) : ¬ InWait b t := by
  rintro (⟨hw, -⟩ | ⟨ch, heq⟩)
  · rw [hb] at hw
    cases hw
  · exact ht ch heq

theorem not_inWait_of_top (ht : t.straight = false) (hs : ∀ ch, t ≠ .sleep1 ch .wait) : ¬ InWait b t := by
  rintro (⟨-, hst⟩ | ⟨ch, heq⟩)
  · rw [ht] at hst
    cases hst
  · exact hs ch heq

theorem Shape.congr {t' : Top} (h : Shape i b t) (hst : t'.straight = t.straight)
    (hsl : t'.sleepsOn = t.sleepsOn) : Shape i b t' := by
  obtain ⟨hwaits, hscan, hother⟩ := h
  rw [← hst] at hwaits
  rw [← hst, ← hsl] at hscan
  rw [← hsl] at hother
  exact ⟨hwaits, hscan, hother⟩

theorem Base.waits_of_generic (h : b.generic = true) : b.waits = false := by
  cases b <;> first | rfl | cases h

theorem Top.straight_of_parked (h : t.parked = true) : t.straight = false := by
  cases t <;> first | rfl | cases h

/-- What a step of CPU `c` does to `wait_lock`, when its process is under the lock iff `P` and then iff `P'`. -/
inductive WaitMove (c : κ) (l l' : Option κ) (P P' : Prop) : Prop where
  | keep (hl : l' = l) (hP : P' ↔ P)
  | take (hl : l = none) (hl' : l' = some c) (hP : P')
  | drop (hl : l = some c) (hl' : l' = none) (hP : ¬ P')

/-- A step of process `i` on CPU `c`, which may also renew slots that are on no CPU. -/
theorem WaitOk.own {s' : Sys κ} (h : SysInv s) (hm : s.mode c = .run i) (hmode : s'.mode = s.mode)
    (hk : ∀ k, k ≠ i → Shape k (s'.base k) (s'.top k) ∧
      ∀ c', s.mode c' = .run k → s'.base k = s.base k ∧ s'.top k = s.top k)
    (hshape : Shape i (s'.base i) (s'.top i))
    (hmove : WaitMove c (s.lock .wait) (s'.lock .wait) (InWait (s.base i) (s.top i)) (InWait (s'.base i) (s'.top i))) :
    WaitOk s' where
  shape k := by
    by_cases hki : k = i
    · exact hki ▸ hshape
    · exact (hk k hki).1
  holder c' hl := by
    rw [hmode]
    cases hmove with
    | keep hl₀ hP =>
      obtain ⟨k, hmk, hin⟩ := h.wait.holder c' (hl₀ ▸ hl)
      refine ⟨k, hmk, ?_⟩
      by_cases hki : k = i
      · subst hki
        exact hP.2 hin
      · obtain ⟨hb, ht⟩ := (hk k hki).2 c' hmk
        rw [hb, ht]
        exact hin
    | take hl₀ hl' hP =>
      rw [hl'] at hl
      cases hl
      exact ⟨i, hm, hP⟩
    | drop hl₀ hl' hP =>
      rw [hl'] at hl
      cases hl
  held c' k hmk hin := by
    rw [hmode] at hmk
    by_cases hki : k = i
    · subst hki
      obtain rfl := h.uniq hmk hm
      cases hmove with
      | keep hl hP => exact hl.trans (h.wait.held c' k hmk (hP.1 hin))
      | take hl hl' hP => exact hl'
      | drop hl hl' hP => exact absurd hin hP
    · obtain ⟨hb, ht⟩ := (hk k hki).2 c' hmk
      rw [hb, ht] at hin
      have hheld := h.wait.held c' k hmk hin
      cases hmove with
      | keep hl hP => exact hl.trans hheld
      | take hl hl' hP =>
        rw [hl] at hheld
        cases hheld
      | drop hl hl' hP =>
        rw [hl] at hheld
        cases hheld
        rw [hm] at hmk
        cases hmk
        exact absurd rfl hki

/-- A step of process `i` on CPU `c`. -/
theorem WaitOk.runs {s' : Sys κ} {b' : Base} {t' : Top} (h : SysInv s) (hr : s.Runs c i b t)
    (hmode : s'.mode = s.mode) (hb : s'.base = update s.base i b') (ht : s'.top = update s.top i t')
    (hshape : Shape i b' t') (hmove : WaitMove c (s.lock .wait) (s'.lock .wait) (InWait b t) (InWait b' t')) :
    WaitOk s' := by
  have hbi : s'.base i = b' := by rw [hb, update_self]
  have hti : s'.top i = t' := by rw [ht, update_self]
  refine .own h hr.1 hmode (fun k hk => ?_) (by rwa [hbi, hti]) (by rwa [hbi, hti, hr.2.2.1, hr.2.2.2])
  have hbk : s'.base k = s.base k := by rw [hb, update_of_ne hk]
  have htk : s'.top k = s.top k := by rw [ht, update_of_ne hk]
  refine ⟨?_, fun _ _ => ⟨hbk, htk⟩⟩
  rw [hbk, htk]
  exact h.wait.shape k

/-- A step that moves CPUs between places without `wait_lock`. -/
theorem WaitOk.moved {s' : Sys κ} (h : WaitOk s) (hlock : s'.lock .wait = s.lock .wait)
    (hshape : ∀ k, Shape k (s'.base k) (s'.top k))
    (hrun : ∀ c k, s'.mode c = .run k ∧ InWait (s'.base k) (s'.top k) ↔ s.mode c = .run k ∧ InWait (s.base k) (s.top k)) :
    WaitOk s' where
  shape := hshape
  holder c hl := by
    rw [hlock] at hl
    obtain ⟨k, hk⟩ := h.holder c hl
    exact ⟨k, (hrun c k).2 hk⟩
  held c k hm hin := by
    obtain ⟨hm', hin'⟩ := (hrun c k).1 ⟨hm, hin⟩
    rw [hlock]
    exact h.held c k hm' hin'

section wait

variable [DecidableEq κ] {N : Nat} {s : Sys κ} {c : κ} {i : Nat}

omit [DecidableEq κ] in
theorem Sys.Runs.top_eq {b : Base} (hr : s.Runs c i b .run) : s.top = update s.top i .run :=
  (update_eq_self_iff.2 hr.2.2.2.symm).symm

theorem wait_thread {a : ThreadAct} (h : SysInv s) (he : a.enabled N s c i) : WaitOk (a.next s c i) := by
  have hshape := h.wait.shape i
  -- a step that leaves the call that the process is in
  have same : ∀ {s' : Sys κ} {t t' : Top}, s.Runs c i (s.base i) t → s'.mode = s.mode → s'.base = s.base →
      s'.top = update s.top i t' → Shape i (s.base i) t' →
      WaitMove c (s.lock .wait) (s'.lock .wait) (InWait (s.base i) t) (InWait (s.base i) t') → WaitOk s' :=
    fun hr hmode hb ht => .runs h hr hmode (hb.trans (update_eq_self ..).symm) ht
  cases a with
  | trap | usertrapret =>
    exact .runs h he rfl rfl he.top_eq (.of_straight rfl) (.keep rfl (by simp [InWait, Base.waits]))
  | acquire n | release n | setFile fd f | chdir d | setkilled => exact { h.wait with }
  | wakeup n | pass ch j | rouse ch j =>
    exact same he.1 rfl rfl rfl (.of_straight rfl) (.keep rfl (by simp [InWait, Top.straight]))
  | done ch => exact same he rfl rfl rfl (.of_straight rfl) (.keep rfl (by simp [InWait, Top.straight]))
  | sleep n m =>
    have hb := Base.waits_of_generic he.2.1
    refine same he.1 rfl rfl rfl (.of_other hb (by simp [Top.sleepsOn])) (.keep rfl ?_)
    exact iff_of_false (not_inWait_of_waits hb (by simp)) (not_inWait_of_waits hb (by simp))
  | drop ch lk =>
    rw [he.1.2.2.2] at hshape
    refine same he.1 rfl rfl rfl (hshape.congr rfl rfl) ?_
    by_cases hlk : lk = .wait
    · subst hlk
      exact .drop he.2 rfl (not_inWait_of_top rfl (by simp))
    · refine .keep (update_of_ne (Ne.symm hlk) _ _) (iff_of_false (not_inWait_of_top rfl (by simp)) ?_)
      exact not_inWait_of_top rfl (by simpa using hlk)
  | doze ch lk =>
    rw [he.2.2.2] at hshape
    exact same he rfl rfl rfl (hshape.congr rfl rfl)
      (.keep rfl (iff_of_false (not_inWait_of_top rfl (by simp)) (not_inWait_of_top rfl (by simp))))
  | swtch t =>
    have hrun := h.core.at_runOk he.1.at
    have ht := Top.straight_of_parked hrun.2.2.2
    rw [he.1.2.2.2] at hshape
    refine .moved h.wait rfl (fun k => ?_) (fun c' k => ?_)
    · by_cases hk : k = i
      · subst hk
        show Shape k (s.base k) (update s.top k t k)
        rw [update_self]
        exact hshape.congr ht rfl
      · show Shape k (s.base k) (update s.top i t k)
        rw [update_of_ne hk]
        exact h.wait.shape k
    · show update s.mode c (.back i) c' = .run k ∧ InWait (s.base k) (update s.top i t k) ↔ _
      by_cases hc : c' = c
      · subst hc
        rw [update_self]
        refine iff_of_false (by simp) ?_
        rintro ⟨hmk, hin⟩
        obtain rfl : i = k := by simpa using he.1.1.symm.trans hmk
        rw [he.1.2.2.2] at hin
        exact not_inWait_of_top rfl (by simp) hin
      · rw [update_of_ne hc]
        refine and_congr_right fun hmk => ?_
        have hk : k ≠ i := by
          rintro rfl
          exact hc (h.uniq hmk he.1.1)
        rw [update_of_ne hk]
  | rise ch lk =>
    rw [he.1.2.2.2] at hshape
    exact same he.1 rfl rfl rfl (hshape.congr rfl rfl) (.keep rfl
      (iff_of_false (not_inWait_of_top rfl (by simp)) (not_inWait_of_top rfl (by simp))))
  | regain ch lk =>
    rw [he.1.2.2.2] at hshape
    refine same he.1 rfl rfl rfl (.of_straight rfl) ?_
    by_cases hlk : lk = .wait
    · subst hlk
      have hb : (s.base i).waits = true := by
        by_contra hb
        exact hshape.other (by simpa using hb) ch rfl
      exact .take he.2 rfl (Or.inl ⟨hb, rfl⟩)
    · have hb := hshape.not_waits rfl (by simp [Top.sleepsOn, hlk])
      exact .keep (update_of_ne (Ne.symm hlk) _ _)
        (iff_of_false (not_inWait_of_waits hb (by simp)) (not_inWait_of_waits hb (by simp)))
  | yield t =>
    obtain ⟨hr, ht, -, hn, -⟩ := he
    have hno : ¬ InWait (s.base i) t := by
      intro hin
      rw [← hr.2.2.2] at hin
      exact h.core.counted.not_held hn .wait (h.wait.held c i hr.1 hin)
    rw [hr.2.2.2] at hshape
    refine same hr rfl rfl rfl ⟨fun hb hne => ?_, fun j k hb => ?_, hshape.other⟩
      (.keep rfl (iff_of_false (not_inWait_of_top rfl (by simp)) hno))
    · exact absurd (Or.inl ⟨hb, hshape.waits hb hne⟩) hno
    · exact (hshape.scan j k hb).elim (fun hst => absurd (Or.inl ⟨by rw [hb]; rfl, hst⟩) hno) Or.inr
  | resume t =>
    have hok := (h.core.slot i).top
    rw [he.1.at.2.2] at hok
    rw [he.1.2.2.2] at hshape
    have hno : ¬ InWait (s.base i) (.yielded t) := not_inWait_of_top rfl (by simp)
    cases ht : t.straight with
    | true =>
      have hsl := Top.sleepsOn_of_straight ht
      have hb := hshape.not_waits rfl (by simp [Top.sleepsOn, hsl])
      refine same he.1 rfl rfl rfl (.of_straight ht) (.keep rfl (iff_of_false (not_inWait_of_waits hb ?_) hno))
      rintro ch rfl
      cases ht
    | false =>
      refine same he.1 rfl rfl rfl (hshape.congr ht rfl) (.keep rfl (iff_of_false (not_inWait_of_top ht ?_) hno))
      rintro ch rfl
      cases hok.1
  | forkret =>
    rw [he.1.2.2.2] at hshape
    have hb := hshape.not_waits rfl (by simp [Top.sleepsOn])
    exact same he.1 rfl rfl rfl (.of_straight rfl) (.keep rfl
      (iff_of_false (not_inWait_of_waits hb (by simp)) (not_inWait_of_waits hb (by simp))))

theorem wait_sched {a : SchedAct} (h : SysInv s) (he : a.enabled N s c) : WaitOk (a.next N s c) := by
  -- no CPU comes from or goes to a process that holds `wait_lock`
  have key : ∀ {s' : Sys κ} {m : Mode}, (∀ k, s.mode c ≠ .run k) → (∀ k, m = .run k → (s.top k).parked = true) →
      s'.lock .wait = s.lock .wait → s'.base = s.base → s'.top = s.top → s'.mode = update s.mode c m →
      WaitOk s' := by
    intro s' m hm hm' hl hb ht hmode
    refine .moved h.wait hl (by rw [hb, ht]; exact h.wait.shape) fun c' k => ?_
    rw [hmode, hb, ht]
    by_cases hc : c' = c
    · subst hc
      rw [update_self]
      refine iff_of_false ?_ fun hr => hm k hr.1
      rintro ⟨rfl, hin⟩
      refine not_inWait_of_top (Top.straight_of_parked (hm' k rfl)) ?_ hin
      intro ch hch
      have hp := hm' k rfl
      rw [hch] at hp
      cases hp
    · rw [update_of_ne hc]
  cases a with
  | skip i | choose i | leave i => exact key (by simp [he.1]) (by simp) rfl rfl rfl rfl
  | load i | kvminithart i => exact key (by simp [show s.mode c = _ from he]) (by simp) rfl rfl rfl rfl
  | switch i =>
    have hm : s.mode c = .loaded i := he
    refine key (by simp [hm]) ?_ rfl rfl rfl rfl
    rintro k hk
    cases hk
    have hcpu := h.core.cpu c
    rw [Core.CpuOk, show s.core.mode c = .loaded i from he] at hcpu
    exact hcpu.1.parked

omit [DecidableEq κ] in
theorem wait_kill {a : KillAct} (h : SysInv s) (he : a.enabled N s c i) : WaitOk (a.next s i) := by
  cases a with
  | call pid | fail pid =>
    exact .runs h he rfl rfl he.top_eq (.of_straight rfl) (.keep rfl (by simp [InWait, Base.waits]))
  | miss pid j =>
    exact .runs h he.1 rfl rfl he.1.top_eq (.of_straight rfl) (.keep rfl (by simp [InWait, Base.waits]))
  | hit pid j =>
    rw [KillAct.next, Sys.killSlot_eq]
    exact .runs h he.1 rfl rfl he.1.top_eq (.of_straight rfl) (.keep rfl (by simp [InWait, Base.waits]))

theorem wait_fork {a : ForkAct} (h : SysInv s) (he : a.enabled N s c i) : WaitOk (a.next s c i) := by
  -- the slot that is renewed is on no CPU
  have hnew : ∀ {s' : Sys κ} {j : Nat} {b b' : Base}, s.Runs c i b .run → s.lock (.proc j) = none → s.state j = .UNUSED →
      b.waits = false → b'.waits = false → s'.lock .wait = s.lock .wait → s'.mode = s.mode →
      s'.base = update (update s.base j .kernel) i b' → s'.top = update s.top j .fresh →
      WaitOk s' := by
    intro s' j b b' hr hl hst hb hb' hlock hmode hbase htop
    have hoff := (h.core.off_of_free hl (by simp [show s.core.state j = _ from hst])).1
    have hij : i ≠ j := by
      rintro rfl
      exact hoff c hr.at.slot
    have hbi : s'.base i = b' := by rw [hbase, update_self]
    have hti : s'.top i = .run := by rw [htop, update_of_ne hij, hr.2.2.2]
    refine .own h hr.1 hmode (fun k hk => ?_) (by rw [hti]; exact .of_straight rfl) (.keep hlock ?_)
    · have hbk : s'.base k = update s.base j .kernel k := by rw [hbase, update_of_ne hk]
      by_cases hkj : k = j
      · subst hkj
        refine ⟨?_, fun c' hmk => absurd ?_ (hoff c')⟩
        · rw [hbk, htop, update_self, update_self]
          exact .of_other rfl (by simp [Top.sleepsOn])
        · show (s.mode c').slot = _
          rw [hmk]
          rfl
      · rw [hbk, htop, update_of_ne hkj, update_of_ne hkj]
        exact ⟨h.wait.shape k, fun _ _ => ⟨rfl, rfl⟩⟩
    · rw [hbi, hti, hr.2.2.1, hr.2.2.2]
      exact iff_of_false (not_inWait_of_waits hb' (by simp)) (not_inWait_of_waits hb (by simp))
  cases a with
  | call | full => exact .runs h he rfl rfl he.top_eq (.of_straight rfl) (.keep rfl (by simp [InWait, Base.waits]))
  | used j | fail j | leak j | link j | start j =>
    exact .runs h he.1 rfl rfl he.1.top_eq (.of_straight rfl) (.keep rfl (by simp [InWait, Base.waits]))
  | nomem j a b | copy j a b => exact hnew he.1 he.2.2.1 he.2.2.2.1 rfl rfl rfl rfl rfl rfl

theorem wait_exit {a : ExitAct} (h : SysInv s) (he : a.enabled N s c i) : WaitOk (a.next s c i) := by
  cases a with
  | call st | close st fd | keep st j =>
    exact .runs h he.1 rfl rfl he.1.top_eq (.of_straight rfl) (.keep rfl (by simp [InWait, Base.waits]))
  | closed st | iput st =>
    exact .runs h he rfl rfl he.top_eq (.of_straight rfl) (.keep rfl (by simp [InWait, Base.waits]))
  | lock st => exact .runs h he.1 rfl rfl he.1.top_eq (.of_straight rfl) (.take he.2 rfl (Or.inl ⟨rfl, rfl⟩))
  | give st j => exact .runs h he.1 rfl rfl rfl (.of_straight rfl) (.keep rfl (by simp [InWait, Base.waits, Top.straight]))
  | given st => exact .runs h he rfl rfl rfl (.of_straight rfl) (.keep rfl (by simp [InWait, Base.waits, Top.straight]))
  | zombie st =>
    exact .runs h he.1 rfl rfl rfl (.of_other rfl (by simp [Top.sleepsOn]))
      (.drop he.2.2 rfl (not_inWait_of_top rfl (by simp)))

theorem wait_wait {a : WaitAct} (h : SysInv s) (he : a.enabled N s c i) : WaitOk (a.next s c i) := by
  cases a with
  | call => exact .runs h he.1 rfl rfl he.1.top_eq (.of_straight rfl) (.take he.2 rfl (Or.inl ⟨rfl, rfl⟩))
  | other j hk | alive j hk | notKilled =>
    exact .runs h he.1 rfl rfl he.1.top_eq (.of_straight rfl) (.keep rfl (by simp [InWait, Base.waits]))
  | bad j hk | reap j hk =>
    exact .runs h he.1 rfl rfl he.1.top_eq (.of_straight rfl)
      (.drop he.2.2.2.2.2 rfl (not_inWait_of_waits rfl (by simp)))
  | childless =>
    exact .runs h he.1 rfl rfl he.1.top_eq (.of_straight rfl) (.drop he.2 rfl (not_inWait_of_waits rfl (by simp)))
  | killed =>
    exact .runs h he.1 rfl rfl he.1.top_eq (.of_straight rfl)
      (.drop he.2.2.2 rfl (not_inWait_of_waits rfl (by simp)))
  | sleep =>
    exact .runs h he.1 rfl rfl rfl ⟨by simp, fun _ _ _ => Or.inr rfl, by simp [Base.waits]⟩
      (.keep rfl (by simp [InWait, Base.waits, Top.straight]))

end wait

section child

variable [DecidableEq κ] {N : Nat} {s s' : Sys κ} {c : κ} {i : Nat}

omit [DecidableEq κ] in
theorem ChildOk.frame (h : ChildOk s) (hb : ∀ k j, (s'.base k).child = some j → (s.base k).child = some j)
    (hst : ∀ j, s.state j = .USED → (∃ k, (s'.base k).child = some j) → s'.state j = .USED) : ChildOk s' where
  used k j hk := hst j (h.used k j (hb k j hk)) ⟨k, hk⟩
  uniq k k' j hk hk' := h.uniq k k' j (hb k j hk) (hb k' j hk')

theorem child_update {f : Nat → Base} {b : Base} (hb : b.child = none ∨ b.child = (f i).child) (k j : Nat)
    (h : (update f i b k).child = some j) : (f k).child = some j := by
  by_cases hk : k = i
  · subst hk
    rw [update_self] at h
    rcases hb with hb | hb
    · rw [hb] at h
      cases h
    · rwa [← hb]
  · rwa [update_of_ne hk] at h

theorem used_update {f : Nat → ProcState} {j : Nat} {st st' : ProcState} (hj : f j = st) (hst : st ≠ .USED) (k : Nat)
    (hk : f k = .USED) : update f j st' k = .USED := by
  rw [update_of_ne _, hk]
  rintro rfl
  exact hst (hj.symm.trans hk)

theorem child_sched {a : SchedAct} (h : SysInv s) (he : a.enabled N s c) : ChildOk (a.next N s c) := by
  cases a with
  | choose i => exact h.child.frame (fun _ _ hk => hk) fun k hk _ => used_update he.2.2.2.2 (by decide) k hk
  | skip i | load i | switch i | kvminithart i | leave i => exact { h.child with }

theorem child_irq {a : IrqAct} (h : SysInv s) (he : a.enabled N s c) : ChildOk (a.next s c) := by
  cases a with
  | rouse ch j => exact h.child.frame (fun _ _ hk => hk) fun k hk _ => used_update he.2.2.2.2.1 (by decide) k hk
  | enter | acquire n | release n | wakeup n | pass ch j | done ch | leave => exact { h.child with }

theorem child_thread {a : ThreadAct} (h : SysInv s) (he : a.enabled N s c i) : ChildOk (a.next s c i) := by
  cases a with
  | trap | usertrapret => exact h.child.frame (child_update (Or.inl rfl)) fun k hk _ => hk
  | rouse ch j => exact h.child.frame (fun _ _ hk => hk) fun k hk _ => used_update he.2.2.2.2.1 (by decide) k hk
  | doze ch lk =>
    have hst : s.state i = .RUNNING := (h.core.at_runOk he.at).1
    exact h.child.frame (fun _ _ hk => hk) fun k hk _ => used_update hst (by decide) k hk
  | yield t =>
    have hst : s.state i = .RUNNING := h.core.running_of_preemptible he.1.at he.2.1
    exact h.child.frame (fun _ _ hk => hk) fun k hk _ => used_update hst (by decide) k hk
  | _ => exact { h.child with }

omit [DecidableEq κ] in
theorem child_kill {a : KillAct} (h : SysInv s) (he : a.enabled N s c i) : ChildOk (a.next s i) := by
  cases a with
  | call pid | miss pid j | fail pid => exact h.child.frame (child_update (Or.inl rfl)) fun k hk _ => hk
  | hit pid j =>
    rw [KillAct.next, Sys.killSlot_eq]
    refine h.child.frame (child_update (Or.inl rfl)) fun k hk _ => ?_
    show (if s.state j = .SLEEPING then update s.state j .RUNNABLE else s.state) k = .USED
    split
    · rename_i hst
      exact used_update hst (by decide) k hk
    · exact hk

theorem child_exit {a : ExitAct} (h : SysInv s) (he : a.enabled N s c i) : ChildOk (a.next s c i) := by
  cases a with
  | zombie st =>
    have hst : s.state i = .RUNNING := (h.core.at_runOk he.1.at).1
    exact h.child.frame (child_update (Or.inl rfl)) fun k hk _ => used_update hst (by decide) k hk
  | _ => exact h.child.frame (child_update (Or.inl rfl)) fun k hk _ => hk

theorem child_wait {a : WaitAct} (h : SysInv s) (he : a.enabled N s c i) : ChildOk (a.next s c i) := by
  cases a with
  | reap j hk =>
    exact h.child.frame (child_update (Or.inl rfl)) fun k hk _ => used_update he.2.2.2.2.1 (by decide) k hk
  | _ => exact h.child.frame (child_update (Or.inl rfl)) fun k hk _ => hk

theorem child_fork {a : ForkAct} (h : SysInv s) (he : a.enabled N s c i) : ChildOk (a.next s c i) := by
  cases a with
  | call | used j | full => exact h.child.frame (child_update (Or.inl rfl)) fun k hk _ => hk
  | fail j | leak j =>
    exact h.child.frame (child_update (Or.inl rfl)) fun k hk _ => used_update he.2.2.2 (by decide) k hk
  | nomem j a b =>
    refine h.child.frame (fun k j' hk => child_update (Or.inl rfl) k j' (child_update (Or.inl rfl) k j' hk))
      fun k hk _ => ?_
    show update (update s.state j .USED) j .UNUSED k = .USED
    rw [update_idem]
    exact used_update he.2.2.2.1 (by decide) k hk
  | copy j a b =>
    obtain ⟨hr, -, hl, hst, -⟩ := he
    have hnot : ∀ k, (s.base k).child ≠ some j := by
      intro k hk
      have hused := h.child.used k j hk
      rw [hst] at hused
      cases hused
    -- only `i` has a new child, and no other process had it
    have hcases : ∀ k j', (update (update s.base j .kernel) i (.link j) k).child = some j' →
        k = i ∧ j' = j ∨ j' ≠ j ∧ (s.base k).child = some j' := by
      intro k j' hk
      by_cases hki : k = i
      · subst hki
        rw [update_self] at hk
        exact Or.inl ⟨rfl, (Option.some.inj hk).symm⟩
      · rw [update_of_ne hki] at hk
        have hold := child_update (Or.inl rfl) k j' hk
        exact Or.inr ⟨fun heq => hnot k (heq ▸ hold), hold⟩
    refine ⟨fun k j' hk => ?_, fun k k' j' hk hk' => ?_⟩
    · show update s.state j .USED j' = .USED
      rcases hcases k j' hk with ⟨-, rfl⟩ | ⟨hne, hold⟩
      · exact update_self ..
      · exact used_update hst (by decide) j' (h.child.used k j' hold)
    · rcases hcases k j' hk with ⟨rfl, rfl⟩ | ⟨hne, hold⟩
      · rcases hcases k' j' hk' with ⟨rfl, -⟩ | ⟨hne', -⟩
        · rfl
        · exact absurd rfl hne'
      · rcases hcases k' j' hk' with ⟨-, rfl⟩ | ⟨-, hold'⟩
        · exact absurd rfl hne
        · exact h.child.uniq k k' j' hold hold'
  | link j =>
    exact h.child.frame (child_update (Or.inr (by rw [he.1.2.2.1]; rfl))) fun k hk _ => hk
  | start j =>
    refine h.child.frame (child_update (Or.inl rfl)) fun k hk hchild => ?_
    show update s.state j .RUNNABLE k = .USED
    rw [update_of_ne _, hk]
    rintro rfl
    -- the child was in the making for `i` only, and `i` is through with it
    obtain ⟨m, hm⟩ := hchild
    have hold := child_update (Or.inl rfl) m k hm
    obtain rfl := h.child.uniq m i k hold (by rw [he.1.2.2.1]; rfl)
    have hnone : (update s.base m .kernel m).child = some k := hm
    rw [update_self] at hnone
    cases hnone

end child

section run

variable [DecidableEq κ] {N : Nat} {s : Sys κ}

theorem cproc_step {a : Act κ} (h : SysInv s) (he : a.enabled N s) (c : κ) :
    (a.next N s).cproc c = ((a.next N s).mode c).slot := by
  -- a CPU that keeps its process
  have key : ∀ {c' : κ} {m : Mode}, (s.mode c').slot = m.slot → s.cproc c = (update s.mode c' m c).slot := by
    intro c' m hm
    by_cases hc : c = c'
    · subst hc
      rw [update_self, ← hm]
      exact h.cproc c
    · rw [update_of_ne hc]
      exact h.cproc c
  cases a with
  | sched c' a =>
    cases a with
    | skip i => exact key (by rw [he.1]; rfl)
    | load i => exact key (by rw [show s.mode c' = .chosen i from he]; rfl)
    | switch i => exact key (by rw [show s.mode c' = .loaded i from he]; rfl)
    | kvminithart i => exact key (by rw [show s.mode c' = .back i from he]; rfl)
    | choose i | leave i =>
      show update s.cproc c' _ c = (update s.mode c' _ c).slot
      by_cases hc : c = c'
      · subst hc
        rw [update_self, update_self]
        rfl
      · rw [update_of_ne hc, update_of_ne hc]
        exact h.cproc c
  | thread c' i a =>
    cases a with
    | swtch t => exact key (by rw [he.1.1]; rfl)
    | _ => exact h.cproc c
  | irq c' a | fork c' i a | exit c' i a | wait c' i a => cases a <;> exact h.cproc c
  | kill c' i a =>
    cases a with
    | hit pid j =>
      show (KillAct.next s i (.hit pid j)).cproc c = ((KillAct.next s i (.hit pid j)).mode c).slot
      rw [KillAct.next, Sys.killSlot_eq]
      exact h.cproc c
    | _ => exact h.cproc c

/-- **One step keeps the invariants.** -/
theorem SysInv.step {a : Act κ} (h : SysInv s) (he : a.enabled N s) :
    SysInv (a.next N s) where
  core := h.core.steps (sim h he)
  cproc := cproc_step h he
  wait := by
    cases a with
    | sched c a => exact wait_sched h he
    | irq c a => cases a <;> exact { h.wait with }
    | thread c i a => exact wait_thread h he
    | kill c i a => exact wait_kill h he
    | fork c i a => exact wait_fork h he
    | exit c i a => exact wait_exit h he
    | wait c i a => exact wait_wait h he
  child := by
    cases a with
    | sched c a => exact child_sched h he
    | irq c a => exact child_irq h he
    | thread c i a => exact child_thread h he
    | kill c i a => exact child_kill h he
    | fork c i a => exact child_fork h he
    | exit c i a => exact child_exit h he
    | wait c i a => exact child_wait h he


omit [DecidableEq κ] in
theorem Init.at_rest (h : Init N s) (i : Nat) :
    (s.state i = .RUNNABLE ∨ s.state i = .UNUSED) ∧ s.top i = .fresh ∧ s.base i = .kernel := by
  by_cases hi : i = initproc
  · subst hi
    exact ⟨Or.inl h.first.1, h.first.2⟩
  · obtain ⟨hst, -, htop, hbase, -⟩ := h.unused i hi
    exact ⟨Or.inr hst, htop, hbase⟩

omit [DecidableEq κ] in
theorem Init.core_inv (h : Init N s) : s.core.Inv where
  counted c := ⟨∅, by simp [show s.core.lock = s.lock from rfl, h.locks], (h.cpus c).2.2.1.symm⟩
  cpu c := by
    obtain ⟨k, hk⟩ := (h.cpus c).1
    exact .of_scan hk (Or.inr (h.cpus c).2.2.1)
  slot i := by
    obtain ⟨hst, htop, -⟩ := h.at_rest i
    have hst' : s.core.state i = .RUNNABLE ∨ s.core.state i = .UNUSED := hst
    have htop' : s.core.top i = .fresh := htop
    refine ⟨?_, ?_, ?_, fun _ => Or.inl htop', fun _ => htop'⟩
    · rw [htop']
      trivial
    all_goals rcases hst' with hst' | hst' <;> simp [hst']
  uniq c c' i hc _ := by
    obtain ⟨k, hk⟩ := (h.cpus c).1
    rw [show s.core.mode c = .scan k from hk] at hc
    cases hc
  onCpu i hp := by
    rw [show s.core.top i = .fresh from (h.at_rest i).2.1] at hp
    cases hp
  woken c ch j lk _ hl := by
    rw [show s.core.lock lk = none from h.locks lk] at hl
    cases hl

omit [DecidableEq κ] in
theorem SysInv.of_init (h : Init N s) : SysInv s where
  core := h.core_inv
  cproc c := by
    obtain ⟨k, hk⟩ := (h.cpus c).1
    rw [hk]
    exact (h.cpus c).2.1
  wait :=
    { holder := fun c hl => by
        rw [h.locks] at hl
        cases hl
      held := fun c i hm _ => by
        obtain ⟨k, hk⟩ := (h.cpus c).1
        rw [hk] at hm
        cases hm
      shape := fun i => by
        rw [(h.at_rest i).2.1, (h.at_rest i).2.2]
        exact .of_other rfl (by simp [Top.sleepsOn]) }
  child :=
    { used := fun i j hj => by
        rw [(h.at_rest i).2.2] at hj
        cases hj
      uniq := fun i i' j hj _ => by
        rw [(h.at_rest i).2.2] at hj
        cases hj }

/-- The invariants hold under every restriction `ok` of the steps. -/
theorem inv_of_reach {ok : Sys κ → Act κ → Prop} (h : Transition.Reach (step N) ok (Init N) s) : SysInv s := by
  refine h.invariant (fun s => .of_init) fun s a s' hI _ hs => ?_
  obtain ⟨he, rfl⟩ := step_eq_some.1 hs
  exact hI.step he

/-! ## `sleep` and `wakeup` -/

/-- The calls of `sleep` in the source: outside `kernel/proc.c`, and in `wait`. -/
def SleepCall (i : Nat) (ch : Chan) (lk : Lock) : Prop :=
  (∃ n m, ch = .other n ∧ lk = .other m) ∨ ch = .proc i ∧ lk = .wait

/-- A process leaves `sleep(ch, lk)` only by its last step, and enters it only by a call. -/
theorem sleepsOn_step {a : Act κ} (h : SysInv s) (he : a.enabled N s) (i : Nat) :
    ((a.next N s).top i).sleepsOn = (s.top i).sleepsOn ∨
    (∃ c ch lk, a = .thread c i (.regain ch lk) ∧ (s.top i).sleepsOn = some (ch, lk)) ∨
    (s.top i).sleepsOn = none ∧ ∃ ch lk, ((a.next N s).top i).sleepsOn = some (ch, lk) ∧ SleepCall i ch lk := by
  -- a step of process `k` that stays in `sleep`, or outside
  have key : ∀ {k : Nat} {t t' : Top}, s.top k = t → t'.sleepsOn = t.sleepsOn →
      (update s.top k t' i).sleepsOn = (s.top i).sleepsOn := by
    intro k t t' hk ht
    by_cases hik : i = k
    · rw [hik, update_self, hk, ht]
    · rw [update_of_ne hik]
  -- a step of process `k` that calls `sleep`
  have call : ∀ {k : Nat} {t' : Top} {ch : Chan} {lk : Lock}, s.top k = .run → t'.sleepsOn = some (ch, lk) →
      SleepCall k ch lk → (update s.top k t' i).sleepsOn = (s.top i).sleepsOn ∨
        (s.top i).sleepsOn = none ∧ ∃ ch lk, (update s.top k t' i).sleepsOn = some (ch, lk) ∧ SleepCall i ch lk := by
    intro k t' ch lk hk ht hcall
    by_cases hik : i = k
    · subst hik
      rw [update_self, hk]
      exact Or.inr ⟨rfl, ch, lk, ht, hcall⟩
    · rw [update_of_ne hik]
      exact Or.inl rfl
  cases a with
  | sched c a | irq c a => cases a <;> exact Or.inl rfl
  | kill c k a =>
    cases a with
    | hit pid j =>
      left
      show ((KillAct.next s k (.hit pid j)).top i).sleepsOn = _
      rw [KillAct.next, Sys.killSlot_eq]
      rfl
    | _ => exact Or.inl rfl
  | thread c k a =>
    cases a with
    | trap | usertrapret | acquire n | release n | setFile fd f | chdir d | setkilled => exact Or.inl rfl
    | wakeup n | pass ch j | rouse ch j | drop ch lk | swtch t | rise ch lk | yield t | resume t | forkret =>
      exact Or.inl (key he.1.2.2.2 rfl)
    | done ch | doze ch lk => exact Or.inl (key he.2.2.2 rfl)
    | sleep n m => exact (call he.1.2.2.2 rfl (Or.inl ⟨n, m, rfl, rfl⟩)).imp_right Or.inr
    | regain ch lk =>
      by_cases hik : i = k
      · subst hik
        exact Or.inr (Or.inl ⟨c, ch, lk, rfl, by rw [he.1.2.2.2]; rfl⟩)
      · left
        show (update s.top k .run i).sleepsOn = _
        rw [update_of_ne hik]
  | fork c k a =>
    cases a with
    | nomem j a b | copy j a b =>
      rcases (h.core.slot j).unused he.2.2.2.1 with ht | ht
      · exact Or.inl (key ht rfl)
      · exact Or.inl (key ht rfl)
    | _ => exact Or.inl rfl
  | exit c k a =>
    cases a with
    | give st j | zombie st => exact Or.inl (key he.1.2.2.2 rfl)
    | given st => exact Or.inl (key he.2.2.2 rfl)
    | _ => exact Or.inl rfl
  | wait c k a =>
    cases a with
    | sleep => exact (call he.1.2.2.2 rfl (Or.inr ⟨rfl, rfl⟩)).imp_right Or.inr
    | _ => exact Or.inl rfl

/-- Every process in `sleep` is in one of these calls. -/
theorem sleepCall_of_reach (h : Reachable N s) (i : Nat) (ch : Chan) (lk : Lock)
    (hs : (s.top i).sleepsOn = some (ch, lk)) : SleepCall i ch lk := by
  revert i ch lk
  refine (h.invariant (I := fun s => SysInv s ∧ ∀ i ch lk, (s.top i).sleepsOn = some (ch, lk) → SleepCall i ch lk)
    (fun s hi => ⟨.of_init hi, fun i ch lk hs => ?_⟩) ?_).2
  · rw [(hi.at_rest i).2.1] at hs
    cases hs
  · intro s a s' hI _ hstep
    obtain ⟨he, rfl⟩ := step_eq_some.1 hstep
    refine ⟨hI.1.step he, fun i ch lk hs => ?_⟩
    rcases sleepsOn_step hI.1 he i with heq | ⟨c, ch', lk', rfl, -⟩ | ⟨-, ch', lk', heq, hcall⟩
    · exact hI.2 i ch lk (heq.symm.trans hs)
    · rw [show (Act.next N s (.thread c i (.regain ch' lk'))).top i = .run from update_self ..] at hs
      cases hs
    · cases heq.symm.trans hs
      exact hcall

/-- **No wakeup is lost.**  When CPU `c` is through `wakeup(ch)` with `lk` held, no process that released `lk`
in `sleep(ch, lk)` is still to be made runnable: one that is `SLEEPING` on `ch` sleeps with another lock.
A step by which a process leaves `sleep(ch, lk)` has `lk` held and `p->chan` zero, and the process was made
runnable by `wakeup(ch)` or by `kill`. -/
theorem sleep_wakeup (h : Reachable N s) (ch : Chan) (lk : Lock) :
    (∀ c, s.core.Wakes c ch N → s.lock lk = some c → ∀ i, i < N → ¬ s.core.InSleep i ch lk ∧
      (s.state i = .SLEEPING → s.chan i = ch →
        ∃ lk', lk' ≠ lk ∧ (s.top i = .asleep ch lk' ∨ s.top i = .sched (.asleep ch lk')))) ∧
    ∀ (a : Act κ) (i : Nat), a.enabled N s → (s.top i).sleepsOn = some (ch, lk) → ((a.next N s).top i).sleepsOn ≠ some (ch, lk) →
      ∃ c, s.mode c = .run i ∧ (a.next N s).top i = .run ∧ (a.next N s).lock lk = some c ∧
        (a.next N s).chan i = .null ∧ Roused ch ((a.next N s).woke i) := by
  have hinv := inv_of_reach h
  refine ⟨fun c hw hl i hi => ?_, fun a i he hs hs' => ?_⟩
  · have hnot := hinv.core.woken c ch N lk hw hl i hi
    refine ⟨hnot, fun hst hch => ?_⟩
    have hok := (hinv.core.slot i).top
    rw [show s.core.chan i = ch from hch] at hok
    obtain ⟨ch', lk', ht⟩ := (hinv.core.slot i).sleeping hst
    have hch' : ch' = ch := by
      rcases ht with ht | ht <;> rw [ht] at hok <;> exact hok.1.symm
    subst hch'
    refine ⟨lk', ?_, ht⟩
    rintro rfl
    exact hnot (Or.inr ⟨hst, ht⟩)
  · rcases sleepsOn_step hinv he i with heq | ⟨c, ch', lk', rfl, heq⟩ | ⟨hnone, -⟩
    · exact absurd (heq.trans hs) hs'
    · cases heq.symm.trans hs
      have hok := (hinv.core.slot i).top
      rw [he.1.at.2.2] at hok
      exact ⟨c, he.1.1, Function.update_self .., Function.update_self .., hok.1, hok.2.1⟩
    · rw [hnone] at hs
      cases hs

end run

/-- The first process sleeps with a lock, and an interrupt handler that holds the lock wakes it. -/
def napRun : List (Act Unit) :=
  [.sched () (.choose 0), .sched () (.load 0), .sched () (.switch 0), .thread () 0 .forkret, .thread () 0 (.acquire 0),
    .thread () 0 (.sleep 0 0), .thread () 0 (.drop (.other 0) (.other 0)), .thread () 0 (.doze (.other 0) (.other 0)),
    .thread () 0 (.swtch (.asleep (.other 0) (.other 0))), .sched () (.kvminithart 0), .sched () (.leave 0),
    .irq () .enter, .irq () (.acquire 0), .irq () (.wakeup 0), .irq () (.rouse (.other 0) 0)]

/-- Then it runs again, up to `acquire(lk)`. -/
def napEnd : List (Act Unit) :=
  [.irq () (.done (.other 0)), .irq () (.release 0), .irq () .leave, .sched () (.choose 0), .sched () (.load 0),
    .sched () (.switch 0), .thread () 0 (.rise (.other 0) (.other 0))]

/-- What the two parts of the run end with. -/
theorem napRun_ends :
    ((Transition.runActs (step 1) (boot Unit) napRun).map fun s => (s.irq (), s.lock (.other 0), s.top 0)) =
      some (.wake (.other 0) 1, some (), .asleep (.other 0) (.other 0)) ∧
    ((Transition.runActs (step 1) (boot Unit) (napRun ++ napEnd)).map fun s =>
      (decide ((Act.thread () 0 (.regain (.other 0) (.other 0))).enabled 1 s), s.top 0)) =
      some (true, .slept (.other 0) (.other 0)) := by
  decide +kernel

theorem sleep_wakeup_nap :
    (∃ s, Transition.runActs (step 1) (boot Unit) napRun = some s ∧ s.core.Wakes () (.other 0) 1 ∧
      s.lock (.other 0) = some () ∧ ¬ s.core.InSleep 0 (.other 0) (.other 0)) ∧
    ∃ s, Transition.runActs (step 1) (boot Unit) (napRun ++ napEnd) = some s ∧
      (Act.thread () 0 (.regain (.other 0) (.other 0))).enabled 1 s ∧
      Roused (.other 0) (((Act.thread () 0 (.regain (.other 0) (.other 0))).next 1 s).woke 0) := by
  obtain ⟨hrun, hend⟩ := napRun_ends
  rw [Option.map_eq_some_iff] at hrun hend
  obtain ⟨s, hs, heq⟩ := hrun
  obtain ⟨s', hs', heq'⟩ := hend
  simp only [Prod.mk.injEq, decide_eq_true_eq] at heq heq'
  refine ⟨⟨s, hs, Or.inl heq.1, heq.2.1, ?_⟩, s', hs', heq'.1, ?_⟩
  · exact ((sleep_wakeup (.of_run (by decide) hs) (.other 0) (.other 0)).1 () (Or.inl heq.1) heq.2.1 0 (by decide)).1
  · have htop : ((Act.thread () 0 (.regain (.other 0) (.other 0))).next 1 s').top 0 = .run := rfl
    obtain ⟨-, -, -, -, -, hroused⟩ := (sleep_wakeup (.of_run (by decide) hs') (.other 0) (.other 0)).2 _ 0 heq'.1
      (by rw [heq'.2]; rfl) (by rw [htop]; simp [Top.sleepsOn])
    exact hroused

end Xv6.Sched
