import Mathlib.Logic.Function.Basic
import Mathlib.Logic.Relation
import Xv6.Proc.Basic

/-!
# Interrupts across locks and context switches

`push_off`, `pop_off`, `acquire` and `release` of `kernel/spinlock.c` with `sched`, `yield` and `sleep` of
`kernel/proc.c`, for any number of CPUs, threads and locks.

* `Cpu` — `noff` and `intena` of `struct cpu`, and `sie`, the interrupt-enable bit.
* `Frame` — a thread or an interrupt handler on top of it: where it is in these functions, and the locks that it
  holds.  `Frame.entry` is the bit before its outermost `push_off`; it is a record that no step depends on.
* `Step` — the code between two points where an interrupt or another CPU can come in.  With interrupts off no
  other code runs on a CPU, and no CPU uses the `struct cpu` of another one.
* `Inv` — `noff` counts the locks of the thread that is running, and `intena` is its `entry`.
* `interrupts_restored` — `pop_off` and `sched` do not panic, and the last `pop_off` restores the bit.

The scheduler takes part with its own frames: between switches it takes and drops locks as threads do.
-/

namespace Xv6

open Function

namespace Spinlock

inductive Lock (τ ℓ : Type) where
  /-- `p->lock`. -/
  | proc (t : τ)
  | other (x : ℓ)
  deriving DecidableEq

inductive Actor (κ τ : Type) where
  | scheduler (c : κ)
  | proc (t : τ)
  deriving DecidableEq

/-- What goes on after `acquire` or `release`. -/
inductive Cont (τ ℓ : Type) where
  /-- The caller. -/
  | ret
  | yield
  /-- `sleep` up to `sched`, and after it. -/
  | sleep (lk : Lock τ ℓ)
  | wake (lk : Lock τ ℓ)

inductive Pc (τ ℓ : Type) where
  | run
  /-- In `push_off` of `acquire(l)`, between `intr_get` and `intr_off`. -/
  | push (l : Lock τ ℓ) (old : Bool) (k : Cont τ ℓ)
  /-- In `acquire(l)` after `push_off`. -/
  | spin (l : Lock τ ℓ) (k : Cont τ ℓ)
  /-- In `release` before `pop_off`. -/
  | pop (k : Cont τ ℓ)
  /-- In `sleep` before `release(lk)`. -/
  | drop (lk : Lock τ ℓ)
  /-- Before `sched`; in its `swtch`, with the local variable; after it. -/
  | sched (k : Cont τ ℓ)
  | off (intena : Bool) (k : Cont τ ℓ)
  | back (k : Cont τ ℓ)
  /-- Before `forkret`. -/
  | fresh
  /-- A scheduler in its `swtch`. -/
  | away

structure Frame (τ ℓ : Type) where
  pc : Pc τ ℓ
  held : List (Lock τ ℓ)
  entry : Option Bool

structure Cpu where
  noff : Nat
  intena : Bool
  sie : Bool

/-- `push_off` after `old = intr_get()`. -/
def Cpu.pushOff (x : Cpu) (old : Bool) : Cpu where
  noff := x.noff + 1
  intena := if x.noff = 0 then old else x.intena
  sie := false

def Cpu.popOff (x : Cpu) : Except String Cpu :=
  if x.sie then .error "pop_off - interruptible"
  else if x.noff < 1 then .error "pop_off"
  else .ok { x with noff := x.noff - 1, sie := if x.noff - 1 = 0 ∧ x.intena then true else x.sie }

structure Sys (κ τ ℓ : Type) where
  cpu : κ → Cpu
  /-- `c->proc`. -/
  cur : κ → Option τ
  lock : Lock τ ℓ → Option κ
  state : τ → ProcState
  top : Actor κ τ → Frame τ ℓ
  /-- The frames that interrupts have stopped. -/
  below : Actor κ τ → List (Frame τ ℓ)

variable {κ τ ℓ : Type}

namespace Sys

/-- Who runs on a CPU. -/
def actor (s : Sys κ τ ℓ) (c : κ) : Actor κ τ :=
  match s.cur c with
  | none => .scheduler c
  | some t => .proc t

def frame (s : Sys κ τ ℓ) (c : κ) : Frame τ ℓ := s.top (s.actor c)

/-- The checks of `sched`. -/
def schedCheck [DecidableEq κ] (s : Sys κ τ ℓ) (c : κ) (t : τ) : Except String Unit :=
  if s.lock (.proc t) ≠ some c then .error "sched p->lock"
  else if (s.cpu c).noff ≠ 1 then .error "sched locks"
  else if s.state t = .RUNNING then .error "sched running"
  else if (s.cpu c).sie then .error "sched interruptible"
  else .ok ()

variable [DecidableEq κ] [DecidableEq τ] [DecidableEq ℓ]

def setCpu (s : Sys κ τ ℓ) (c : κ) (x : Cpu) : Sys κ τ ℓ := { s with cpu := Function.update s.cpu c x }

def setTop (s : Sys κ τ ℓ) (a : Actor κ τ) (f : Frame τ ℓ) : Sys κ τ ℓ := { s with top := Function.update s.top a f }

def setBelow (s : Sys κ τ ℓ) (a : Actor κ τ) (fs : List (Frame τ ℓ)) : Sys κ τ ℓ :=
  { s with below := Function.update s.below a fs }

def setLock (s : Sys κ τ ℓ) (l : Lock τ ℓ) (o : Option κ) : Sys κ τ ℓ := { s with lock := Function.update s.lock l o }

def setState (s : Sys κ τ ℓ) (t : τ) (st : ProcState) : Sys κ τ ℓ := { s with state := Function.update s.state t st }

def setCur (s : Sys κ τ ℓ) (c : κ) (o : Option τ) : Sys κ τ ℓ := { s with cur := Function.update s.cur c o }

/-- The running frame goes on as `f`, with the CPU as `x`. -/
def put (s : Sys κ τ ℓ) (c : κ) (x : Cpu) (f : Frame τ ℓ) : Sys κ τ ℓ := (s.setCpu c x).setTop (s.actor c) f

end Sys

open Spinlock.Sys

variable [DecidableEq κ] [DecidableEq τ] [DecidableEq ℓ]

inductive Step : Sys κ τ ℓ → Sys κ τ ℓ → Prop where
  /-- `intr_on` or `intr_off` outside all locks. -/
  | intr {s : Sys κ τ ℓ} {c : κ} {b : Bool} : (s.frame c).pc = .run → (s.frame c).held = [] →
      Step s (s.put c { s.cpu c with sie := b } (s.frame c))
  /-- The trap turns interrupts off, and the return from it on again. -/
  | interrupt {s : Sys κ τ ℓ} {c : κ} : (s.cpu c).sie = true →
      Step s ((s.put c { s.cpu c with sie := false } ⟨.run, [], none⟩).setBelow (s.actor c)
        (s.frame c :: s.below (s.actor c)))
  | iret {s : Sys κ τ ℓ} {c : κ} {f : Frame τ ℓ} {fs : List (Frame τ ℓ)} : (s.frame c).pc = .run →
      (s.frame c).held = [] → s.below (s.actor c) = f :: fs →
      Step s ((s.put c { s.cpu c with sie := true } f).setBelow (s.actor c) fs)
  -- the three calls of `acquire`, up to `intr_get`
  | acquire {s : Sys κ τ ℓ} {c : κ} {l : Lock τ ℓ} : (s.frame c).pc = .run → l ∉ (s.frame c).held →
      Step s (s.put c (s.cpu c) ⟨.push l (s.cpu c).sie .ret, (s.frame c).held,
        if (s.frame c).held = [] then some (s.cpu c).sie else (s.frame c).entry⟩)
  | yield {s : Sys κ τ ℓ} {c : κ} {t : τ} : s.cur c = some t → (s.frame c).pc = .run → (s.frame c).held = [] →
      Step s (s.put c (s.cpu c) ⟨.push (.proc t) (s.cpu c).sie .yield, [], some (s.cpu c).sie⟩)
  | sleep {s : Sys κ τ ℓ} {c : κ} {t : τ} {lk : Lock τ ℓ} : s.cur c = some t → (s.frame c).pc = .run →
      (s.frame c).held = [lk] → lk ≠ .proc t →
      Step s (s.put c (s.cpu c) { s.frame c with pc := .push (.proc t) (s.cpu c).sie (.sleep lk) })
  | pushed {s : Sys κ τ ℓ} {c : κ} {l : Lock τ ℓ} {old : Bool} {k : Cont τ ℓ} : (s.frame c).pc = .push l old k →
      Step s (s.put c ((s.cpu c).pushOff old) { s.frame c with pc := .spin l k })
  | acquired {s : Sys κ τ ℓ} {c : κ} {l : Lock τ ℓ} : (s.frame c).pc = .spin l .ret → s.lock l = none →
      Step s ((s.put c (s.cpu c) { s.frame c with pc := .run, held := l :: (s.frame c).held }).setLock l (some c))
  | acquiredYield {s : Sys κ τ ℓ} {c : κ} {t : τ} {l : Lock τ ℓ} : s.cur c = some t →
      (s.frame c).pc = .spin l .yield → s.lock l = none →
      Step s (((s.put c (s.cpu c) { s.frame c with pc := .sched .yield, held := l :: (s.frame c).held }).setLock l
        (some c)).setState t .RUNNABLE)
  | acquiredSleep {s : Sys κ τ ℓ} {c : κ} {l lk : Lock τ ℓ} : (s.frame c).pc = .spin l (.sleep lk) →
      s.lock l = none →
      Step s ((s.put c (s.cpu c) { s.frame c with pc := .drop lk, held := l :: (s.frame c).held }).setLock l (some c))
  -- the calls of `release`, up to `pop_off`
  | release {s : Sys κ τ ℓ} {c : κ} {l : Lock τ ℓ} : (s.frame c).pc = .run → l ∈ (s.frame c).held →
      Step s ((s.put c (s.cpu c) { s.frame c with pc := .pop .ret, held := (s.frame c).held.erase l }).setLock l none)
  | releaseSleep {s : Sys κ τ ℓ} {c : κ} {lk : Lock τ ℓ} : (s.frame c).pc = .drop lk →
      Step s ((s.put c (s.cpu c) { s.frame c with pc := .pop (.sleep lk), held := (s.frame c).held.erase lk }).setLock
        lk none)
  | releaseYielded {s : Sys κ τ ℓ} {c : κ} {t : τ} : s.cur c = some t → (s.frame c).pc = .back .yield →
      Step s ((s.put c (s.cpu c) { s.frame c with pc := .pop .ret, held := (s.frame c).held.erase (.proc t) }).setLock
        (.proc t) none)
  | releaseSlept {s : Sys κ τ ℓ} {c : κ} {t : τ} {lk : Lock τ ℓ} : s.cur c = some t →
      (s.frame c).pc = .back (.sleep lk) →
      Step s ((s.put c (s.cpu c) { s.frame c with
        pc := .pop (.wake lk), held := (s.frame c).held.erase (.proc t) }).setLock (.proc t) none)
  | popped {s : Sys κ τ ℓ} {c : κ} {x : Cpu} : (s.frame c).pc = .pop .ret → (s.cpu c).popOff = .ok x →
      Step s (s.put c x ⟨.run, (s.frame c).held, if (s.frame c).held = [] then none else (s.frame c).entry⟩)
  | poppedSleep {s : Sys κ τ ℓ} {c : κ} {t : τ} {lk : Lock τ ℓ} {x : Cpu} : s.cur c = some t →
      (s.frame c).pc = .pop (.sleep lk) → (s.cpu c).popOff = .ok x →
      Step s ((s.put c x { s.frame c with pc := .sched (.sleep lk) }).setState t .SLEEPING)
  /-- `sleep` goes on to `acquire(lk)`. -/
  | poppedWake {s : Sys κ τ ℓ} {c : κ} {lk : Lock τ ℓ} {x : Cpu} : (s.frame c).pc = .pop (.wake lk) →
      (s.cpu c).popOff = .ok x → Step s (s.put c x { s.frame c with pc := .push lk x.sie .ret })
  /-- `p->lock` stays locked, and is the scheduler's to release. -/
  | sched {s : Sys κ τ ℓ} {c : κ} {t : τ} {k : Cont τ ℓ} : s.cur c = some t → (s.frame c).pc = .sched k →
      s.schedCheck c t = .ok () →
      Step s (((s.setTop (.proc t) ⟨.off (s.cpu c).intena k, [], (s.frame c).entry⟩).setTop (.scheduler c)
        ⟨.run, [.proc t], none⟩).setCur c none)
  /-- The scheduler switches to a thread, which restores `intena`. -/
  | switch {s : Sys κ τ ℓ} {c : κ} {t : τ} {intena : Bool} {k : Cont τ ℓ} : s.cur c = none →
      (s.frame c).pc = .run → (s.frame c).held = [.proc t] → s.below (.scheduler c) = [] →
      s.state t = .RUNNABLE → (s.top (.proc t)).pc = .off intena k →
      Step s (((((s.setCpu c { s.cpu c with intena := intena }).setTop (.scheduler c) ⟨.away, [], none⟩).setTop
        (.proc t) ⟨.back k, [.proc t], (s.top (.proc t)).entry⟩).setState t .RUNNING).setCur c (some t))
  /-- The first time, to `forkret`. -/
  | first {s : Sys κ τ ℓ} {c : κ} {t : τ} : s.cur c = none → (s.frame c).pc = .run → (s.frame c).held = [.proc t] →
      s.below (.scheduler c) = [] → s.state t = .RUNNABLE → (s.top (.proc t)).pc = .fresh →
      Step s ((((s.setTop (.scheduler c) ⟨.away, [], none⟩).setTop (.proc t) ⟨.run, [.proc t], none⟩).setState t
        .RUNNING).setCur c (some t))
  /-- `wakeup`, `kill` and `fork` make a thread runnable with its lock held. -/
  | runnable {s : Sys κ τ ℓ} {c : κ} {t : τ} : (s.frame c).pc = .run → .proc t ∈ (s.frame c).held →
      s.state t ≠ .RUNNING → Step s (s.setState t .RUNNABLE)

/-- The schedulers are running, with any interrupt bits, and no thread has run yet. -/
structure Start (s : Sys κ τ ℓ) : Prop where
  noff : ∀ c, (s.cpu c).noff = 0
  cur : ∀ c, s.cur c = none
  lock : ∀ l, s.lock l = none
  state : ∀ t, s.state t ≠ .RUNNING
  scheduler : ∀ c, s.top (.scheduler c) = ⟨.run, [], none⟩
  thread : ∀ t, s.top (.proc t) = ⟨.fresh, [], none⟩
  below : ∀ a, s.below a = []

def Reachable (s : Sys κ τ ℓ) : Prop := ∃ s₀ : Sys κ τ ℓ, Start s₀ ∧ Relation.ReflTransGen Step s₀ s

/-! ## The invariant -/

/-- The calls of `push_off` that the frame has not undone. -/
def Frame.depth (f : Frame τ ℓ) : Nat :=
  f.held.length + match f.pc with
    | .spin .. | .pop .. => 1
    | _ => 0

/-- A call of `acquire(l)` with these locks held. -/
def CallOk (me : Option τ) (l : Lock τ ℓ) (held : List (Lock τ ℓ)) : Cont τ ℓ → Prop
  | .ret => True
  | .yield => held = [] ∧ ∃ t, me = some t ∧ l = .proc t
  | .sleep lk => held = [lk] ∧ ∃ t, me = some t ∧ l = .proc t
  | .wake _ => False

/-- A call of `release` that leaves these locks. -/
def PopOk (me : Option τ) (held : List (Lock τ ℓ)) : Cont τ ℓ → Prop
  | .ret => True
  | .yield => False
  | .sleep _ => ∃ t, me = some t ∧ held = [.proc t]
  | .wake _ => held = []

/-- A call of `sched`. -/
def SchedOk (me : Option τ) (held : List (Lock τ ℓ)) : Cont τ ℓ → Prop
  | .ret | .wake _ => False
  | .yield | .sleep _ => ∃ t, me = some t ∧ held = [.proc t]

/-- The locks that a running frame holds where it is. -/
def Shape (me : Option τ) (f : Frame τ ℓ) : Prop :=
  match f.pc with
  | .run => True
  | .push l _ k | .spin l k => l ∉ f.held ∧ CallOk me l f.held k
  | .pop k => PopOk me f.held k
  | .drop lk => ∃ t, me = some t ∧ f.held = [.proc t, lk]
  | .sched k | .back k => SchedOk me f.held k
  | .off .. | .fresh | .away => False

/-- `p->state` is not `RUNNING` here. -/
def Frame.InSched (f : Frame τ ℓ) : Prop := ∃ k, f.pc = .sched k

/-- A frame that runs on the CPU `x`. -/
structure FrameOk (me : Option τ) (x : Cpu) (f : Frame τ ℓ) : Prop where
  nodup : f.held.Nodup
  shape : Shape me f
  noff : x.noff = f.depth
  sie : 0 < f.depth → x.sie = false
  /-- An interrupt between `intr_get` and `intr_off` leaves the bit as it was. -/
  old : ∀ l old k, f.pc = .push l old k → f.depth = 0 → x.sie = old
  entry : ∀ b, f.entry = some b → (0 < f.depth ∧ x.intena = b) ∨ (f.depth = 0 ∧ ∃ l k, f.pc = .push l b k)

/-- A frame that an interrupt has stopped. -/
structure Parked (me : Option τ) (f : Frame τ ℓ) : Prop where
  held : f.held = []
  pc : (f.pc = .run ∧ f.entry = none) ∨
    ∃ l k, f.pc = .push l true k ∧ CallOk me l [] k ∧ ∀ b, f.entry = some b → b = true

/-- A thread that is not running. -/
structure Offline (t : τ) (f : Frame τ ℓ) : Prop where
  held : f.held = []
  pc : (f.pc = .fresh ∧ f.entry = none) ∨
    ∃ intena k, f.pc = .off intena k ∧ SchedOk (some t) [.proc t] k ∧ ∀ b, f.entry = some b → b = intena

def Actor.self : Actor κ τ → Option τ
  | .scheduler _ => none
  | .proc t => some t

structure Inv (s : Sys κ τ ℓ) : Prop where
  inj : ∀ {c c' t}, s.cur c = some t → s.cur c' = some t → c = c'
  running : ∀ c, FrameOk (s.cur c) (s.cpu c) (s.frame c)
  parked : ∀ a, ∀ f ∈ s.below a, Parked a.self f
  lock : ∀ c l, s.lock l = some c ↔ l ∈ (s.frame c).held
  offline : ∀ t, (∀ c, s.cur c ≠ some t) → Offline t (s.top (.proc t))
  state : ∀ c t, s.cur c = some t → (s.state t = .RUNNING ↔ ¬ (s.frame c).InSched)

variable {s s' : Sys κ τ ℓ} {c c' : κ} {t : τ} {x : Cpu} {f : Frame τ ℓ}

omit [DecidableEq κ] [DecidableEq τ] [DecidableEq ℓ] in
theorem actor_none (h : s.cur c = none) : s.actor c = .scheduler c := by simp [actor, h]

omit [DecidableEq κ] [DecidableEq τ] [DecidableEq ℓ] in
theorem actor_some (h : s.cur c = some t) : s.actor c = .proc t := by simp [actor, h]

omit [DecidableEq κ] [DecidableEq τ] [DecidableEq ℓ] in
theorem actor_self (s : Sys κ τ ℓ) (c : κ) : (s.actor c).self = s.cur c := by
  cases h : s.cur c with
  | none | some t => simp [actor, h, Actor.self]

omit [DecidableEq κ] [DecidableEq τ] [DecidableEq ℓ] in
/-- Different CPUs run different frames. -/
theorem Inv.actor_ne (h : Inv s) (hne : c' ≠ c) : s.actor c' ≠ s.actor c := by
  intro heq
  cases hc : s.cur c with
  | none =>
    cases hc' : s.cur c' with
    | none =>
      rw [actor_none hc, actor_none hc'] at heq
      exact hne (by injection heq)
    | some t => rw [actor_none hc, actor_some hc'] at heq; cases heq
  | some t =>
    cases hc' : s.cur c' with
    | none => rw [actor_some hc, actor_none hc'] at heq; cases heq
    | some t' =>
      rw [actor_some hc, actor_some hc'] at heq
      injection heq with heq
      exact hne (h.inj hc' (heq ▸ hc))

omit [DecidableEq κ] [DecidableEq τ] [DecidableEq ℓ] in
theorem Inv.thread_ne (h : Inv s) {t' : τ} (ht : s.cur c = some t) (ht' : s.cur c' = some t') (hne : c' ≠ c) :
    t' ≠ t := by
  rintro rfl
  exact hne (h.inj ht' ht)

omit [DecidableEq ℓ] in
/-- A step of the frame that runs on `c`. -/
theorem Inv.put (h : Inv s) (hcur : s'.cur = s.cur) (hcpu : s'.cpu = update s.cpu c x)
    (htop : s'.top = update s.top (s.actor c) f) (hframe : FrameOk (s.cur c) x f)
    (hparked : ∀ a, ∀ g ∈ s'.below a, Parked a.self g)
    (hlock : ∀ l, s'.lock l = some c ↔ l ∈ f.held) (hlocks : ∀ l c', c' ≠ c → (s'.lock l = some c' ↔ s.lock l = some c'))
    (hstate : ∀ t, s.cur c = some t → (s'.state t = .RUNNING ↔ ¬ f.InSched))
    (hstates : ∀ c' t, c' ≠ c → s.cur c' = some t → s'.state t = s.state t) : Inv s' := by
  have hactor : ∀ c', s'.actor c' = s.actor c' := fun c' => by simp [actor, hcur]
  have hself : s'.frame c = f := by rw [frame, hactor, htop, update_self]
  have hother : ∀ c', c' ≠ c → s'.frame c' = s.frame c' := by
    intro c' hne
    rw [frame, hactor, htop, update_of_ne (h.actor_ne hne)]
    rfl
  refine ⟨?_, fun c' => ?_, hparked, fun c' l => ?_, fun t ht => ?_, fun c' t ht => ?_⟩
  · rw [hcur]
    exact h.inj
  · by_cases hc : c' = c
    · rw [hc, hself, hcur, hcpu, update_self]
      exact hframe
    · rw [hother c' hc, hcur, hcpu, update_of_ne hc]
      exact h.running c'
  · by_cases hc : c' = c
    · rw [hc, hself]
      exact hlock l
    · rw [hother c' hc, hlocks l c' hc]
      exact h.lock c' l
  · rw [hcur] at ht
    have hne : Actor.proc t ≠ s.actor c := by
      intro heq
      have := actor_self s c
      rw [← heq] at this
      exact ht c this.symm
    rw [htop, update_of_ne hne]
    exact h.offline t ht
  · rw [hcur] at ht
    by_cases hc : c' = c
    · rw [hc] at ht ⊢
      rw [hself]
      exact hstate t ht
    · rw [hother c' hc, hstates c' t hc ht]
      exact h.state c' t ht

/-! ## Steps of one frame -/

section frames

omit [DecidableEq κ] [DecidableEq τ] [DecidableEq ℓ]

variable {me : Option τ} {l lk : Lock τ ℓ} {old : Bool} {k : Cont τ ℓ} {y : Cpu}

theorem popOff_ok (h : x.popOff = .ok y) : y.noff = x.noff - 1 ∧ y.intena = x.intena ∧
    (y.noff = 0 → y.sie = x.intena) ∧ (0 < y.noff → y.sie = false) := by
  unfold Cpu.popOff at h
  split at h
  · cases h
  · rename_i hsie
    split at h
    · cases h
    · cases h
      have hx : x.sie = false := by simpa using hsie
      refine ⟨rfl, rfl, fun h0 => ?_, fun h0 => ?_⟩
      · have h0' : x.noff - 1 = 0 := h0
        cases hi : x.intena <;> simp [h0', hx]
      · have h0' : ¬ x.noff - 1 = 0 := Nat.ne_of_gt h0
        simp [h0', hx]

/-- The bit is on only outside all locks. -/
theorem FrameOk.depth_zero (h : FrameOk me x f) (hsie : x.sie = true) : f.depth = 0 := by
  by_contra hne
  rw [h.sie (Nat.pos_of_ne_zero hne)] at hsie
  cases hsie

/-- In a call of `acquire` or `release` that is not the last, `intena` is the bit of the sequence. -/
theorem FrameOk.intena (h : FrameOk me x f) (hd : 0 < f.depth) {b : Bool} (hb : f.entry = some b) : x.intena = b := by
  rcases h.entry b hb with ⟨-, hi⟩ | ⟨h0, -⟩
  · exact hi
  · omega

theorem FrameOk.closed (h : FrameOk me x f) (hpc : f.pc = .run) (hheld : f.held = []) : f.entry = none := by
  cases he : f.entry with
  | none => rfl
  | some b =>
    have h0 : f.depth = 0 := by simp [Frame.depth, hpc, hheld]
    rcases h.entry b he with ⟨hpos, -⟩ | ⟨-, l, k, hp⟩
    · omega
    · rw [hpc] at hp
      cases hp

/-- Where an interrupt can stop a frame. -/
theorem FrameOk.parked (h : FrameOk me x f) (hsie : x.sie = true) : Parked me f := by
  have h0 := h.depth_zero hsie
  have hheld : f.held = [] := List.length_eq_zero_iff.1 (Nat.eq_zero_of_add_eq_zero_right h0)
  have hshape := h.shape
  refine ⟨hheld, ?_⟩
  unfold Shape at hshape
  cases hpc : f.pc with
  | run => exact Or.inl ⟨rfl, h.closed hpc hheld⟩
  | push l old k =>
    rw [hpc] at hshape
    obtain rfl : true = old := hsie.symm.trans (h.old l old k hpc h0)
    refine Or.inr ⟨l, k, rfl, hheld ▸ hshape.2, fun b hb => ?_⟩
    rcases h.entry b hb with ⟨hpos, -⟩ | ⟨-, l', k', hp⟩
    · omega
    · rw [hpc] at hp
      injection hp with _ hb' _
      exact hb'.symm
  | spin l k | pop k => simp [Frame.depth, hpc] at h0
  | drop lk =>
    rw [hpc] at hshape
    obtain ⟨t, -, hh⟩ := hshape
    rw [hheld] at hh
    cases hh
  | sched k | back k =>
    rw [hpc, hheld] at hshape
    cases k <;> first | exact hshape.elim | (obtain ⟨t, -, hh⟩ := hshape; cases hh)
  | off b k | fresh | away =>
    rw [hpc] at hshape
    exact hshape.elim

theorem Parked.not_inSched (h : Parked me f) : ¬ f.InSched := by
  rintro ⟨k, hk⟩
  rcases h.pc with ⟨hpc, -⟩ | ⟨l, k', hpc, -⟩ <;> rw [hpc] at hk <;> cases hk

theorem Parked.frameOk (h : Parked me f) (hnoff : x.noff = 0) (hsie : x.sie = true) : FrameOk me x f := by
  have hheld := h.held
  rcases h.pc with ⟨hpc, he⟩ | ⟨l, k, hpc, hcall, he⟩
  · have h0 : f.depth = 0 := by simp [Frame.depth, hpc, hheld]
    refine ⟨by simp [hheld], by simp [Shape, hpc], hnoff.trans h0.symm, fun hp => by omega, fun l o k hp => ?_,
      fun b hb => ?_⟩
    · rw [hpc] at hp
      cases hp
    · rw [he] at hb
      cases hb
  · have h0 : f.depth = 0 := by simp [Frame.depth, hpc, hheld]
    refine ⟨by simp [hheld], by simp [Shape, hpc, hheld, hcall], hnoff.trans h0.symm, fun hp => by omega,
      fun l' o k' hp _ => ?_, fun b hb => Or.inr ⟨h0, l, k, ?_⟩⟩
    · rw [hpc] at hp
      injection hp with _ ho _
      rw [hsie, ho]
    · rw [he b hb]
      exact hpc

/-- A call of `acquire`, after `intr_get`. -/
theorem FrameOk.call (h : FrameOk me x f) (hpc : f.pc = .run) (hl : l ∉ f.held) (hcall : CallOk me l f.held k)
    {e : Option Bool} (he : f.held = [] → ∀ b, e = some b → b = x.sie) (he' : f.held ≠ [] → e = f.entry) :
    FrameOk me x ⟨.push l x.sie k, f.held, e⟩ := by
  have hd : f.depth = f.held.length := by simp [Frame.depth, hpc]
  have hd' : Frame.depth ⟨.push l x.sie k, f.held, e⟩ = f.held.length := by simp [Frame.depth]
  refine ⟨h.nodup, ⟨hl, hcall⟩, ?_, fun hp => ?_, fun l' o k' hp _ => ?_, fun b hb => ?_⟩
  · rw [hd', h.noff, hd]
  · rw [hd'] at hp
    exact h.sie (hd ▸ hp)
  · injection hp
  · rw [hd']
    by_cases hheld : f.held = []
    · refine Or.inr ⟨by rw [hheld]; rfl, l, k, ?_⟩
      rw [he hheld b hb]
    · have hpos : 0 < f.held.length := List.length_pos_iff.2 hheld
      exact Or.inl ⟨hpos, h.intena (hd ▸ hpos) (he' hheld ▸ hb)⟩

/-- The rest of `push_off`. -/
theorem FrameOk.pushed (h : FrameOk me x f) (hpc : f.pc = .push l old k) :
    FrameOk me (x.pushOff old) { f with pc := .spin l k } := by
  have hd : f.depth = f.held.length := by simp [Frame.depth, hpc]
  have hd' : Frame.depth { f with pc := .spin l k } = f.held.length + 1 := by simp [Frame.depth]
  have hshape := h.shape
  simp only [Shape, hpc] at hshape
  refine ⟨h.nodup, hshape, ?_, fun _ => rfl, fun l' o k' hp => (nomatch hp), fun b hb => Or.inl ⟨by omega, ?_⟩⟩
  · rw [hd']
    show x.noff + 1 = _
    rw [h.noff, hd]
  · show (if x.noff = 0 then old else x.intena) = b
    rcases h.entry b hb with ⟨hpos, hi⟩ | ⟨h0, l', k', hp⟩
    · rw [if_neg (by rw [h.noff]; omega)]
      exact hi
    · rw [if_pos (h.noff.trans h0)]
      rw [hpc] at hp
      injection hp

/-- A step inside the sequence: as many calls of `push_off` are open as before. -/
theorem FrameOk.inside (h : FrameOk me x f) {g : Frame τ ℓ} (hd : g.depth = f.depth) (hpos : 0 < f.depth)
    (he : g.entry = f.entry) (hnd : g.held.Nodup) (hshape : Shape me g) : FrameOk me x g := by
  refine ⟨hnd, hshape, hd ▸ h.noff, fun _ => h.sie hpos, fun _ _ _ _ h0 => ?_, fun b hb => Or.inl ⟨hd ▸ hpos, ?_⟩⟩
  · omega
  · exact h.intena hpos (he ▸ hb)

/-- After `pop_off`. -/
theorem FrameOk.popped (h : FrameOk me x f) (hpc : f.pc = .pop k) (hy : x.popOff = .ok y) {g : Frame τ ℓ}
    (hd : g.depth = f.held.length) (hnd : g.held.Nodup) (hshape : Shape me g)
    (hold : ∀ l o k, g.pc = .push l o k → g.depth = 0 → y.sie = o)
    (he : ∀ b, g.entry = some b → f.entry = some b ∧ (g.depth = 0 → ∃ l k, g.pc = .push l y.sie k)) :
    FrameOk me y g := by
  obtain ⟨hnoff, hintena, hzero, hpos⟩ := popOff_ok hy
  have hf : f.depth = f.held.length + 1 := by simp [Frame.depth, hpc]
  have hg : y.noff = g.depth := by rw [hnoff, h.noff, hf, hd, Nat.add_sub_cancel]
  refine ⟨hnd, hshape, hg, fun hp => hpos (hg ▸ hp), hold, fun b hb => ?_⟩
  obtain ⟨heq, hpush⟩ := he b hb
  have hi : x.intena = b := h.intena (by omega) heq
  by_cases h0 : g.depth = 0
  · obtain ⟨l, k, hp⟩ := hpush h0
    refine Or.inr ⟨h0, l, k, ?_⟩
    rw [hp, hzero (hg.trans h0), hi]
  · exact Or.inl ⟨Nat.pos_of_ne_zero h0, hintena.trans hi⟩

end frames

/-! ## Steps of the system -/

variable {l : Lock τ ℓ}

omit [DecidableEq κ] [DecidableEq τ] [DecidableEq ℓ] in
theorem Inv.runs (h : Inv s) (hpc : ¬ (s.frame c).InSched) (hnew : ¬ f.InSched) (ht : s.cur c = some t) :
    s.state t = .RUNNING ↔ ¬ f.InSched :=
  iff_of_true ((h.state c t ht).2 hpc) hnew

omit [DecidableEq ℓ] in
/-- The locks stay as they are. -/
theorem Inv.keep (h : Inv s) (hpc : ¬ (s.frame c).InSched) (hnew : ¬ f.InSched)
    (hframe : FrameOk (s.cur c) x f) (hheld : f.held = (s.frame c).held) : Inv (s.put c x f) :=
  h.put rfl rfl rfl hframe h.parked (fun l => by rw [hheld]; exact h.lock c l) (fun _ _ _ => Iff.rfl)
    (fun _ => h.runs hpc hnew) fun _ _ _ _ => rfl

/-- A free lock is taken. -/
theorem Inv.take (h : Inv s) (hfree : s.lock l = none) (hframe : FrameOk (s.cur c) x f)
    (hheld : f.held = l :: (s.frame c).held) {r : τ → ProcState}
    (hstate : ∀ t, s.cur c = some t → (r t = .RUNNING ↔ ¬ f.InSched))
    (hstates : ∀ c' t, c' ≠ c → s.cur c' = some t → r t = s.state t) :
    Inv { (s.put c x f).setLock l (some c) with state := r } := by
  refine h.put rfl rfl rfl hframe h.parked (fun m => ?_) (fun m c' hne => ?_) hstate hstates
  · show update s.lock l (some c) m = some c ↔ _
    rw [hheld, List.mem_cons]
    by_cases hm : m = l
    · rw [hm, update_self]
      exact ⟨fun _ => Or.inl rfl, fun _ => rfl⟩
    · rw [update_of_ne hm, h.lock c m]
      exact ⟨Or.inr, fun hor => hor.resolve_left hm⟩
  · show update s.lock l (some c) m = some c' ↔ _
    by_cases hm : m = l
    · rw [hm, update_self, hfree]
      exact ⟨fun heq => absurd (Option.some.inj heq).symm hne, fun heq => nomatch heq⟩
    · rw [update_of_ne hm]

/-- A lock is given back. -/
theorem Inv.give (h : Inv s) (hpc : ¬ (s.frame c).InSched) (hnew : ¬ f.InSched)
    (hl : l ∈ (s.frame c).held) (hframe : FrameOk (s.cur c) x f) (hheld : f.held = (s.frame c).held.erase l) :
    Inv ((s.put c x f).setLock l none) := by
  have hown := (h.lock c l).2 hl
  have hnd := (h.running c).nodup
  refine h.put rfl rfl rfl hframe h.parked (fun m => ?_) (fun m c' hne => ?_)
    (fun _ => h.runs hpc hnew) fun _ _ _ _ => rfl
  · show update s.lock l none m = some c ↔ _
    rw [hheld, hnd.mem_erase_iff]
    by_cases hm : m = l
    · rw [hm, update_self]
      exact ⟨fun heq => (nomatch heq), fun hand => absurd rfl hand.1⟩
    · rw [update_of_ne hm, h.lock c m]
      exact ⟨fun hmem => ⟨hm, hmem⟩, fun hand => hand.2⟩
  · show update s.lock l none m = some c' ↔ _
    by_cases hm : m = l
    · rw [hm, update_self, hown]
      exact ⟨fun heq => (nomatch heq), fun heq => absurd (Option.some.inj heq).symm hne⟩
    · rw [update_of_ne hm]

omit [DecidableEq ℓ] in
/-- The frames that interrupts have stopped change. -/
theorem Inv.stack (h : Inv s) (hpc : ¬ (s.frame c).InSched) (hnew : ¬ f.InSched)
    (hframe : FrameOk (s.cur c) x f) (hheld : f.held = (s.frame c).held) {fs : List (Frame τ ℓ)}
    (hfs : ∀ g ∈ fs, Parked (s.cur c) g) :
    Inv ((s.put c x f).setBelow (s.actor c) fs) := by
  refine h.put rfl rfl rfl hframe (fun a g hg => ?_) (fun l => by rw [hheld]; exact h.lock c l) (fun _ _ _ => Iff.rfl)
    (fun _ => h.runs hpc hnew) fun _ _ _ _ => rfl
  have hg' : g ∈ update s.below (s.actor c) fs a := hg
  by_cases ha : a = s.actor c
  · rw [ha, update_self] at hg'
    rw [ha, actor_self]
    exact hfs g hg'
  · rw [update_of_ne ha] at hg'
    exact h.parked a g hg'

omit [DecidableEq κ] [DecidableEq τ] [DecidableEq ℓ] in
theorem Inv.parked_actor (h : Inv s) {fs : List (Frame τ ℓ)} (hfs : s.below (s.actor c) = fs) :
    ∀ g ∈ fs, Parked (s.cur c) g := by
  intro g hg
  have hp := h.parked (s.actor c) g (hfs ▸ hg)
  rw [actor_self] at hp
  exact hp

omit [DecidableEq κ] [DecidableEq τ] [DecidableEq ℓ] in
theorem Start.inv (h : Start s) : Inv s := by
  have hframe : ∀ c, s.frame c = ⟨.run, [], none⟩ := fun c => by
    rw [frame, actor_none (h.cur c), h.scheduler]
  refine ⟨fun {c c' t} hc => ?_, fun c => ?_, fun a f hf => ?_, fun c l => ?_, fun t _ => ?_, fun c t hc => ?_⟩
  · rw [h.cur] at hc
    cases hc
  · rw [hframe]
    exact ⟨List.nodup_nil, trivial, h.noff c, fun hp => (nomatch hp), fun _ _ _ hp => (nomatch hp),
      fun _ hb => (nomatch hb)⟩
  · rw [h.below] at hf
    cases hf
  · rw [hframe, h.lock]
    exact ⟨fun heq => (nomatch heq), fun hm => (nomatch hm)⟩
  · rw [h.thread]
    exact ⟨rfl, Or.inl ⟨rfl, rfl⟩⟩
  · rw [h.cur] at hc
    cases hc

omit [DecidableEq τ] [DecidableEq ℓ] in
theorem SchedOk.of_self {held : List (Lock τ ℓ)} {k : Cont τ ℓ} (h : SchedOk (some t) held k) : held = [.proc t] := by
  cases k with
  | ret | wake lk => exact h.elim
  | yield | sleep lk =>
    obtain ⟨t', ht, hh⟩ := h
    rw [Option.some.inj ht]
    exact hh

omit [DecidableEq ℓ] in
/-- CPU `c` goes from its scheduler to the thread `t` or back, with the lock of `t` held. -/
theorem Inv.hand (h : Inv s) (hc : s.cur c = some t ∨ s.cur c = none ∧ ∀ c', s.cur c' ≠ some t)
    (hc' : s'.cur c = none ∨ s'.cur c = some t) (hcur : ∀ c', c' ≠ c → s'.cur c' = s.cur c')
    (hcpu : ∀ c', c' ≠ c → s'.cpu c' = s.cpu c') (htop : ∀ a, a ≠ .scheduler c → a ≠ .proc t → s'.top a = s.top a)
    (hbelow : s'.below = s.below) (hlock : s'.lock = s.lock) (hheld : (s'.frame c).held = (s.frame c).held)
    (hframe : FrameOk (s'.cur c) (s'.cpu c) (s'.frame c)) (hoff : s'.cur c = none → Offline t (s'.top (.proc t)))
    (hst : s'.cur c = some t → (s'.state t = .RUNNING ↔ ¬ (s'.frame c).InSched))
    (hstates : ∀ t', t' ≠ t → s'.state t' = s.state t') : Inv s' := by
  have hother : ∀ c', c' ≠ c → s.cur c' ≠ some t := by
    intro c₁ hne h1
    rcases hc with h2 | ⟨-, h2⟩
    · exact hne (h.inj h1 h2)
    · exact h2 c₁ h1
  have hsame : ∀ c', c' ≠ c → s'.frame c' = s.frame c' := by
    intro c₁ hne
    have hactor : s'.actor c₁ = s.actor c₁ := by simp [actor, hcur c₁ hne]
    rw [frame, hactor]
    cases h1 : s.cur c₁ with
    | none =>
      have ha := actor_none h1
      exact htop _ (by rw [ha]; simpa using hne) (by rw [ha]; simp)
    | some t' =>
      have ha := actor_some h1
      have hne' : t' ≠ t := fun heq => hother c₁ hne (heq ▸ h1)
      exact htop _ (by rw [ha]; simp) (by rw [ha]; simpa using hne')
  have hself : ∀ t', s'.cur c = some t' → t' = t := by
    intro t' h1
    rcases hc' with h2 | h2 <;> rw [h2] at h1 <;> cases h1
    rfl
  refine ⟨fun {c₁ c₂ t'} h1 h2 => ?_, fun c₁ => ?_, ?_, fun c₁ l => ?_, fun t' ht' => ?_, fun c₁ t' ht' => ?_⟩
  · by_cases e1 : c₁ = c <;> by_cases e2 : c₂ = c
    · rw [e1, e2]
    · rw [hcur c₂ e2, hself t' (e1 ▸ h1)] at h2
      exact absurd h2 (hother c₂ e2)
    · rw [hcur c₁ e1, hself t' (e2 ▸ h2)] at h1
      exact absurd h1 (hother c₁ e1)
    · rw [hcur c₁ e1] at h1
      rw [hcur c₂ e2] at h2
      exact h.inj h1 h2
  · by_cases e : c₁ = c
    · exact e ▸ hframe
    · rw [hcur c₁ e, hcpu c₁ e, hsame c₁ e]
      exact h.running c₁
  · rw [hbelow]
    exact h.parked
  · rw [hlock]
    by_cases e : c₁ = c
    · rw [e, hheld]
      exact h.lock c l
    · rw [hsame c₁ e]
      exact h.lock c₁ l
  · by_cases heq : t' = t
    · rw [heq] at ht' ⊢
      exact hoff (hc'.resolve_right (ht' c))
    · rw [htop _ (by simp) (by simpa using heq)]
      refine h.offline t' fun c₁ h1 => ?_
      by_cases e : c₁ = c
      · rw [e] at h1
        rcases hc with h2 | ⟨h2, -⟩ <;> rw [h2] at h1 <;> cases h1
        exact heq rfl
      · exact ht' c₁ ((hcur c₁ e).trans h1)
  · by_cases e : c₁ = c
    · rw [e] at ht' ⊢
      have heq := hself t' ht'
      rw [heq] at ht' ⊢
      exact hst ht'
    · rw [hcur c₁ e] at ht'
      rw [hstates t' fun heq => hother c₁ e (heq ▸ ht'), hsame c₁ e]
      exact h.state c₁ t' ht'

omit [DecidableEq ℓ] in
/-- `sched` hands the CPU and `p->lock` to the scheduler. -/
theorem Inv.sched (h : Inv s) {k : Cont τ ℓ} (ht : s.cur c = some t) (hpc : (s.frame c).pc = .sched k) :
    Inv (((s.setTop (.proc t) ⟨.off (s.cpu c).intena k, [], (s.frame c).entry⟩).setTop (.scheduler c)
      ⟨.run, [.proc t], none⟩).setCur c none) := by
  have hf := h.running c
  have hshape := hf.shape
  simp only [Shape, hpc, ht] at hshape
  have hheld := hshape.of_self
  have hdepth : (s.frame c).depth = 1 := by simp [Frame.depth, hpc, hheld]
  generalize hs' : ((s.setTop (.proc t) ⟨.off (s.cpu c).intena k, [], (s.frame c).entry⟩).setTop (.scheduler c)
      ⟨.run, [.proc t], none⟩).setCur c none = s'
  have hc0 : s'.cur c = none := by simp [← hs', setCur]
  have hframe : s'.frame c = ⟨.run, [.proc t], none⟩ := by
    rw [frame, actor_none hc0]
    simp [← hs', setCur, setTop]
  refine h.hand (Or.inl ht) (Or.inl hc0) (fun c' hne => ?_) (fun _ _ => ?_) (fun a h1 h2 => ?_) ?_ ?_ ?_ ?_
    (fun _ => ?_) (fun h1 => ?_) fun _ _ => ?_
  · simp [← hs', setCur, setTop, update_of_ne hne]
  · rw [← hs']
    rfl
  · simp [← hs', setCur, setTop, update_of_ne h1, update_of_ne h2]
  · rw [← hs']
    rfl
  · rw [← hs']
    rfl
  · rw [hframe, hheld]
  · rw [hframe, hc0, show s'.cpu = s.cpu by rw [← hs']; rfl]
    refine ⟨List.nodup_singleton _, trivial, hf.noff.trans hdepth, fun _ => hf.sie (by omega),
      fun _ _ _ hp => (nomatch hp), fun _ hb => (nomatch hb)⟩
  · have htop : s'.top (.proc t) = ⟨.off (s.cpu c).intena k, [], (s.frame c).entry⟩ := by
      simp [← hs', setCur, setTop]
    rw [htop]
    exact ⟨rfl, Or.inr ⟨_, k, rfl, hheld ▸ hshape, fun b hb => (hf.intena (by omega) hb).symm⟩⟩
  · rw [hc0] at h1
    cases h1
  · rw [← hs']
    rfl

omit [DecidableEq κ] [DecidableEq τ] [DecidableEq ℓ] in
/-- A runnable thread whose lock this scheduler holds is not running: it would be in `sched` with the same lock. -/
theorem Inv.not_running (h : Inv s) (hc : s.cur c = none) (hheld : (s.frame c).held = [.proc t])
    (hst : s.state t = .RUNNABLE) : ∀ c', s.cur c' ≠ some t := by
  intro c' hc'
  have hlock : s.lock (.proc t) = some c := (h.lock c _).2 (by simp [hheld])
  have hin : (s.frame c').InSched := by
    by_contra hno
    have hr := (h.state c' t hc').2 hno
    rw [hst] at hr
    cases hr
  obtain ⟨k, hk⟩ := hin
  have hshape := (h.running c').shape
  simp only [Shape, hk, hc'] at hshape
  have hown := (h.lock c' (.proc t)).2 (by simp [hshape.of_self])
  rw [hlock] at hown
  rw [← Option.some.inj hown, hc] at hc'
  cases hc'

omit [DecidableEq ℓ] in
/-- The scheduler hands the CPU and `p->lock` to a thread. -/
theorem Inv.switch (h : Inv s) (hc : s.cur c = none) (hheld : (s.frame c).held = [.proc t])
    (hst : s.state t = .RUNNABLE) (hf : FrameOk (some t) x f) (hfh : f.held = [.proc t]) (hnew : ¬ f.InSched) :
    Inv (((((s.setCpu c x).setTop (.scheduler c) ⟨.away, [], none⟩).setTop (.proc t) f).setState t
      .RUNNING).setCur c (some t)) := by
  generalize hs' : ((((s.setCpu c x).setTop (.scheduler c) ⟨.away, [], none⟩).setTop (.proc t) f).setState t
      .RUNNING).setCur c (some t) = s'
  have hc0 : s'.cur c = some t := by simp [← hs', setCur]
  have hframe : s'.frame c = f := by
    rw [frame, actor_some hc0]
    simp [← hs', setCur, setState, setTop]
  refine h.hand (Or.inr ⟨hc, h.not_running hc hheld hst⟩) (Or.inr hc0) (fun c' hne => ?_) (fun c' hne => ?_)
    (fun a h1 h2 => ?_) ?_ ?_ ?_ ?_ (fun h1 => ?_) (fun _ => ?_) fun t' hne => ?_
  · simp [← hs', setCur, setState, setTop, setCpu, update_of_ne hne]
  · simp [← hs', setCur, setState, setTop, setCpu, update_of_ne hne]
  · simp [← hs', setCur, setState, setTop, setCpu, update_of_ne h1, update_of_ne h2]
  · rw [← hs']
    rfl
  · rw [← hs']
    rfl
  · rw [hframe, hheld, hfh]
  · rw [hframe, hc0, show s'.cpu c = x by simp [← hs', setCur, setState, setTop, setCpu]]
    exact hf
  · rw [hc0] at h1
    cases h1
  · rw [hframe, show s'.state t = .RUNNING by simp [← hs', setCur, setState]]
    exact iff_of_true rfl hnew
  · simp [← hs', setCur, setState, setTop, setCpu, update_of_ne hne]

theorem Step.inv (h : Inv s) (hs : Step s s') : Inv s' := by
  cases hs with
  | @intr c b hpc hheld =>
    have hf := h.running c
    have h0 : (s.frame c).depth = 0 := by simp [Frame.depth, hpc, hheld]
    have hsched : ¬ (s.frame c).InSched := by simp [Frame.InSched, hpc]
    refine h.keep hsched hsched ?_ rfl
    refine ⟨hf.nodup, hf.shape, hf.noff, fun hp => ?_, fun l o k hp => ?_, hf.entry⟩
    · omega
    · rw [hpc] at hp
      cases hp
  | @interrupt c hsie =>
    have hf := h.running c
    have h0 := hf.depth_zero hsie
    have hpark := hf.parked hsie
    refine h.stack hpark.not_inSched (by simp [Frame.InSched]) ?_ hpark.held.symm fun g hg => ?_
    · exact ⟨List.nodup_nil, trivial, hf.noff.trans h0, fun hp => (nomatch hp), fun _ _ _ hp => (nomatch hp),
        fun _ hb => (nomatch hb)⟩
    · rcases List.mem_cons.1 hg with rfl | hg
      · exact hpark
      · exact h.parked_actor rfl g hg
  | @iret c f fs hpc hheld hfs =>
    have hf := h.running c
    have h0 : (s.frame c).depth = 0 := by simp [Frame.depth, hpc, hheld]
    have hpark := h.parked_actor hfs
    have hfp := hpark f List.mem_cons_self
    refine h.stack (by simp [Frame.InSched, hpc]) hfp.not_inSched ?_ ?_ fun g hg => hpark g (List.mem_cons_of_mem f hg)
    · exact hfp.frameOk (hf.noff.trans h0) rfl
    · rw [hheld, hfp.held]
  | @acquire c l hpc hl =>
    refine h.keep (by simp [Frame.InSched, hpc]) (by simp [Frame.InSched]) ?_ rfl
    refine (h.running c).call hpc hl ?_ (fun hh b hb => ?_) fun hh => if_neg hh
    · trivial
    · rw [if_pos hh] at hb
      exact (Option.some.inj hb).symm
  | @yield c t ht hpc hheld =>
    have hf := (h.running c).call (l := .proc t) (k := .yield) (e := some (s.cpu c).sie) hpc (by simp [hheld])
      ⟨hheld, t, ht, rfl⟩ (fun _ b hb => (Option.some.inj hb).symm) fun hh => absurd hheld hh
    rw [hheld] at hf
    exact h.keep (by simp [Frame.InSched, hpc]) (by simp [Frame.InSched]) hf hheld.symm
  | @sleep c t lk ht hpc hheld hne =>
    refine h.keep (by simp [Frame.InSched, hpc]) (by simp [Frame.InSched]) ?_ rfl
    refine (h.running c).call hpc ?_ ?_ (fun hh => ?_) fun _ => rfl
    · rw [hheld, List.mem_singleton]
      exact fun heq => hne heq.symm
    · exact ⟨hheld, t, ht, rfl⟩
    · rw [hheld] at hh
      cases hh
  | @pushed c l old k hpc => exact h.keep (by simp [Frame.InSched, hpc]) (by simp [Frame.InSched]) ((h.running c).pushed hpc) rfl
  | @acquired c l hpc hfree =>
    have hf := h.running c
    have hshape := hf.shape
    simp only [Shape, hpc] at hshape
    refine h.take (r := s.state) hfree ?_ rfl (fun t ht => ?_) fun _ _ _ _ => rfl
    · refine hf.inside ?_ ?_ rfl (List.nodup_cons.2 ⟨hshape.1, hf.nodup⟩) ?_
      · simp [Frame.depth, hpc]
      · simp [Frame.depth, hpc]
      · trivial
    · exact h.runs (by simp [Frame.InSched, hpc]) (by simp [Frame.InSched]) ht
  | @acquiredYield c t l ht hpc hfree =>
    have hf := h.running c
    have hshape := hf.shape
    simp only [Shape, hpc] at hshape
    obtain ⟨hl, hheld, t', ht', rfl⟩ := hshape
    refine h.take (r := update s.state t .RUNNABLE) hfree ?_ rfl (fun t'' ht'' => ?_) fun c' t'' hne hc' => ?_
    · refine hf.inside ?_ ?_ rfl (List.nodup_cons.2 ⟨hl, hf.nodup⟩) ?_
      · simp [Frame.depth, hpc]
      · simp [Frame.depth, hpc]
      · exact ⟨t', ht', by simp [hheld]⟩
    · rw [Option.some.inj (ht''.symm.trans ht), update_self]
      exact iff_of_false (by simp) (not_not.2 ⟨_, rfl⟩)
    · exact update_of_ne (h.thread_ne ht hc' hne) ..
  | @acquiredSleep c l lk hpc hfree =>
    have hf := h.running c
    have hshape := hf.shape
    simp only [Shape, hpc] at hshape
    obtain ⟨hl, hheld, t', ht', rfl⟩ := hshape
    refine h.take (r := s.state) hfree ?_ rfl (fun t ht => ?_) fun _ _ _ _ => rfl
    · refine hf.inside ?_ ?_ rfl (List.nodup_cons.2 ⟨hl, hf.nodup⟩) ?_
      · simp [Frame.depth, hpc]
      · simp [Frame.depth, hpc]
      · exact ⟨t', ht', by simp [hheld]⟩
    · exact h.runs (by simp [Frame.InSched, hpc]) (by simp [Frame.InSched]) ht
  | @release c l hpc hl =>
    have hf := h.running c
    have hpos : 0 < (s.frame c).held.length := List.length_pos_of_mem hl
    refine h.give (by simp [Frame.InSched, hpc]) (by simp [Frame.InSched]) hl ?_ rfl
    refine hf.inside ?_ ?_ rfl (hf.nodup.erase l) ?_
    · simp only [Frame.depth, hpc, List.length_erase_of_mem hl]
      omega
    · simp only [Frame.depth, hpc]
      omega
    · trivial
  | @releaseSleep c lk hpc =>
    have hf := h.running c
    have hshape := hf.shape
    simp only [Shape, hpc] at hshape
    obtain ⟨t, ht, hheld⟩ := hshape
    have hl : lk ∈ (s.frame c).held := by simp [hheld]
    have hne : Lock.proc t ≠ lk := by
      have hnd := hf.nodup
      rw [hheld] at hnd
      simpa using hnd
    refine h.give (by simp [Frame.InSched, hpc]) (by simp [Frame.InSched]) hl ?_ rfl
    refine hf.inside ?_ ?_ rfl (hf.nodup.erase lk) ?_
    · simp [Frame.depth, hpc, hheld]
    · simp [Frame.depth, hpc, hheld]
    · exact ⟨t, ht, by simp [hheld, hne]⟩
  | @releaseYielded c t ht hpc =>
    have hf := h.running c
    have hshape := hf.shape
    simp only [Shape, hpc, ht] at hshape
    have hheld := hshape.of_self
    refine h.give (by simp [Frame.InSched, hpc]) (by simp [Frame.InSched]) (by simp [hheld]) ?_ rfl
    refine hf.inside ?_ ?_ rfl (hf.nodup.erase _) ?_
    · simp [Frame.depth, hpc, hheld]
    · simp [Frame.depth, hpc, hheld]
    · trivial
  | @releaseSlept c t lk ht hpc =>
    have hf := h.running c
    have hshape := hf.shape
    simp only [Shape, hpc, ht] at hshape
    have hheld := hshape.of_self
    refine h.give (by simp [Frame.InSched, hpc]) (by simp [Frame.InSched]) (by simp [hheld]) ?_ rfl
    refine hf.inside ?_ ?_ rfl (hf.nodup.erase _) ?_
    · simp [Frame.depth, hpc, hheld]
    · simp [Frame.depth, hpc, hheld]
    · simp [Shape, PopOk, hheld]
  | @popped c x hpc hx =>
    have hf := h.running c
    refine h.keep (by simp [Frame.InSched, hpc]) (by simp [Frame.InSched]) ?_ rfl
    refine hf.popped hpc hx rfl hf.nodup ?_ (fun _ _ _ hp => (nomatch hp)) fun b hb => ?_
    · trivial
    · by_cases hh : (s.frame c).held = []
      · rw [if_pos hh] at hb
        cases hb
      · rw [if_neg hh] at hb
        exact ⟨hb, fun h0 => absurd (List.length_eq_zero_iff.1 h0) hh⟩
  | @poppedSleep c t lk x ht hpc hx =>
    have hf := h.running c
    have hshape := hf.shape
    simp only [Shape, hpc] at hshape
    obtain ⟨t', ht', hheld⟩ := hshape
    have hframe : FrameOk (s.cur c) x { s.frame c with pc := .sched (.sleep lk) } := by
      refine hf.popped hpc hx rfl hf.nodup ⟨t', ht', hheld⟩ (fun _ _ _ hp => (nomatch hp)) fun b hb => ⟨hb, fun h0 => ?_⟩
      simp [Frame.depth, hheld] at h0
    refine h.put rfl rfl rfl hframe h.parked (fun l => h.lock c l) (fun _ _ _ => Iff.rfl) (fun t'' ht'' => ?_)
      fun c' t'' hne hc' => update_of_ne (h.thread_ne ht hc' hne) ..
    rw [Option.some.inj (ht''.symm.trans ht)]
    exact iff_of_false (by simp [setState]) (not_not.2 ⟨_, rfl⟩)
  | @poppedWake c lk x hpc hx =>
    have hf := h.running c
    have hshape := hf.shape
    simp only [Shape, hpc] at hshape
    have hheld : (s.frame c).held = [] := hshape
    refine h.keep (by simp [Frame.InSched, hpc]) (by simp [Frame.InSched]) ?_ rfl
    refine hf.popped hpc hx rfl hf.nodup ?_ (fun l o k hp _ => ?_) fun b hb => ⟨hb, fun _ => ⟨lk, .ret, rfl⟩⟩
    · exact ⟨by simp [hheld], trivial⟩
    · injection hp
  | @sched c t k ht hpc hcheck => exact h.sched ht hpc
  | @switch c t intena k hc hpc hheld hb hst hoff =>
    have hf := h.running c
    have hd : (s.frame c).depth = 1 := by simp [Frame.depth, hpc, hheld]
    have hthread : ∀ c', s.cur c' ≠ some t := h.not_running hc hheld hst
    rcases (h.offline t hthread).pc with ⟨hfresh, -⟩ | ⟨b, k', hoff', hok, he⟩
    · rw [hfresh] at hoff
      cases hoff
    · rw [hoff'] at hoff
      injection hoff with hb' hk
      rw [hb'] at he
      rw [hk] at hok
      refine h.switch hc hheld hst ?_ rfl (by simp [Frame.InSched])
      refine ⟨List.nodup_singleton _, hok, hf.noff.trans hd, fun _ => hf.sie (by omega), fun _ _ _ hp => (nomatch hp),
        fun b hb => Or.inl ⟨Nat.one_pos, (he b hb).symm⟩⟩
  | @first c t hc hpc hheld hb hst hoff =>
    have hf := h.running c
    have hd : (s.frame c).depth = 1 := by simp [Frame.depth, hpc, hheld]
    have hself : s.setCpu c (s.cpu c) = s := by simp [setCpu]
    have hnew := h.switch (x := s.cpu c) (f := ⟨.run, [.proc t], none⟩) hc hheld hst
      ⟨List.nodup_singleton _, trivial, hf.noff.trans hd, fun _ => hf.sie (by omega), fun _ _ _ hp => (nomatch hp),
        fun _ hb => (nomatch hb)⟩ rfl (by simp [Frame.InSched])
    rw [hself] at hnew
    exact hnew
  | @runnable c t hpc hl hst =>
    refine ⟨h.inj, h.running, h.parked, h.lock, h.offline, fun c' t' ht' => ?_⟩
    by_cases heq : t' = t
    · rw [heq] at ht' ⊢
      exact iff_of_false (by simp [setState]) fun hno => hst ((h.state c' t ht').2 hno)
    · have hsame : (s.setState t .RUNNABLE).state t' = s.state t' := update_of_ne heq ..
      rw [hsame]
      exact h.state c' t' ht'

theorem Reachable.inv (h : Reachable s) : Inv s := by
  obtain ⟨s₀, hstart, hrun⟩ := h
  induction hrun with
  | refl => exact hstart.inv
  | tail _ hstep ih => exact hstep.inv ih

/-! ## No panic, and the bit comes back -/

omit [DecidableEq κ] [DecidableEq τ] [DecidableEq ℓ] in
/-- In `release` the counter is positive and interrupts are off. -/
theorem FrameOk.popOff (h : FrameOk me x f) (hpc : f.pc = .pop k) :
    ∃ y, x.popOff = .ok y ∧ (f.held = [] → ∀ b, f.entry = some b → y.sie = b) := by
  have hpos : 0 < f.depth := by simp [Frame.depth, hpc]
  have hsie : x.sie = false := h.sie hpos
  have hnoff : ¬ x.noff < 1 := by
    rw [h.noff]
    omega
  refine ⟨_, by rw [Cpu.popOff, hsie, if_neg (by simp), if_neg hnoff], fun hheld b hb => ?_⟩
  have hlast : x.noff - 1 = 0 := by simp [h.noff, Frame.depth, hpc, hheld]
  cases b <;> simp [hlast, h.intena hpos hb]

omit [DecidableEq τ] [DecidableEq ℓ] in
/-- A thread that calls `sched` holds its own lock and no other one, and is not `RUNNING` any more. -/
theorem Inv.schedCheck (h : Inv s) {k : Cont τ ℓ} (ht : s.cur c = some t) (hpc : (s.frame c).pc = .sched k) :
    s.schedCheck c t = .ok () := by
  have hf := h.running c
  have hshape := hf.shape
  simp only [Shape, hpc, ht] at hshape
  have hheld := hshape.of_self
  have hd : (s.frame c).depth = 1 := by simp [Frame.depth, hpc, hheld]
  have hlock : s.lock (.proc t) = some c := (h.lock c _).2 (by simp [hheld])
  have hnoff : (s.cpu c).noff = 1 := hf.noff.trans hd
  have hsie : (s.cpu c).sie = false := hf.sie (by omega)
  have hst : s.state t ≠ .RUNNING := fun hr => (h.state c t ht).1 hr ⟨k, hpc⟩
  simp [Sys.schedCheck, hlock, hnoff, hst, hsie]

/-- In every run of any number of threads on any number of CPUs, `pop_off` and `sched` do not panic, and the
`pop_off` that ends a thread's outermost critical section leaves the interrupt bit as the section found it. -/
theorem interrupts_restored (h : Reachable s) (c : κ) :
    (∀ k, (s.frame c).pc = .pop k → ∃ x, (s.cpu c).popOff = .ok x ∧
      ((s.frame c).held = [] → ∀ b, (s.frame c).entry = some b → x.sie = b)) ∧
    ∀ t k, s.cur c = some t → (s.frame c).pc = .sched k → s.schedCheck c t = .ok () := by
  have hinv := h.inv
  constructor
  · intro k hpc
    exact (hinv.running c).popOff hpc
  · intro t k ht hpc
    exact hinv.schedCheck ht hpc

/-- One CPU with interrupts on, and one thread. -/
def booted : Sys Unit Unit Unit where
  cpu _ := ⟨0, false, true⟩
  cur _ := none
  lock _ := none
  state _ := .RUNNABLE
  top
    | .scheduler _ => ⟨.run, [], none⟩
    | .proc _ => ⟨.fresh, [], none⟩
  below _ := []

/-- The scheduler takes the thread's lock and switches to it; the thread releases the lock, and then takes and
releases another one. -/
theorem interrupts_restored_booted : ∃ s : Sys Unit Unit Unit, Reachable s ∧ (s.frame ()).pc = .pop .ret ∧
    ∃ x, (s.cpu ()).popOff = .ok x ∧ x.sie = true := by
  have hrun : ∃ s : Sys Unit Unit Unit, Relation.ReflTransGen Step booted s ∧ (s.frame ()).pc = .pop .ret ∧
      (s.frame ()).held = [] ∧ (s.frame ()).entry = some true := by
    have hrun := Relation.ReflTransGen.refl (r := Step) (a := booted)
    have hrun := hrun.tail (.acquire (c := ()) (l := .proc ()) rfl List.not_mem_nil)
    have hrun := hrun.tail (.pushed (c := ()) rfl)
    have hrun := hrun.tail (.acquired (c := ()) rfl rfl)
    have hrun := hrun.tail (.first (c := ()) (t := ()) rfl rfl rfl rfl rfl rfl)
    have hrun := hrun.tail (.release (c := ()) (l := .proc ()) rfl (List.mem_singleton.2 rfl))
    have hrun := hrun.tail (.popped (c := ()) rfl rfl)
    have hrun := hrun.tail (.acquire (c := ()) (l := .other ()) rfl List.not_mem_nil)
    have hrun := hrun.tail (.pushed (c := ()) rfl)
    have hrun := hrun.tail (.acquired (c := ()) rfl rfl)
    have hrun := hrun.tail (.release (c := ()) (l := .other ()) rfl (List.mem_singleton.2 rfl))
    exact ⟨_, hrun, rfl, rfl, rfl⟩
  obtain ⟨s, hrun, hpc, hheld, hentry⟩ := hrun
  have hs : Reachable s := ⟨booted, ⟨fun _ => rfl, fun _ => rfl, fun _ => rfl, fun _ => nofun, fun _ => rfl,
    fun _ => rfl, fun _ => rfl⟩, hrun⟩
  obtain ⟨x, hx, hsie⟩ := (interrupts_restored hs ()).1 .ret hpc
  exact ⟨s, hs, hpc, x, hx, hsie hheld true hentry⟩

end Spinlock

end Xv6
