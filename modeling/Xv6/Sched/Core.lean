import Xv6.Sched.Model

/-!
# Locks, CPUs and sleeping processes

The part of the system that `sleep` and `wakeup` are about, as a machine of its own.

* `Core` — states, channels, locks and CPUs; `Core.Step` — what a step of the system does to it, in pieces.
* `Core.Inv` — who holds which lock, where each process is, and what a `wakeup` has reached.
* `Core.Inv.step` — every piece keeps it.
* `sim` — a step of the system is a sequence of pieces.
-/

namespace Xv6.Sched

open Function

variable {κ : Type}

structure Core (κ : Type) where
  state : Nat → ProcState
  chan : Nat → Chan
  top : Nat → Top
  woke : Nat → Option Cause
  lock : Lock → Option κ
  noff : κ → Nat
  mode : κ → Mode
  irq : κ → Irq

def Sys.core (s : Sys κ) : Core κ := ⟨s.state, s.chan, s.top, s.woke, s.lock, s.noff, s.mode, s.irq⟩

/-! ## Where a process is -/

def Mode.slot : Mode → Option Nat
  | .scan _ => none
  | .chosen i => some i
  | .loaded i => some i
  | .run i => some i
  | .back i => some i
  | .left i => some i

/-- Where a process is while it is not on a CPU. -/
def Top.parked : Top → Bool
  | .asleep _ _ => true
  | .yielded _ => true
  | .fresh => true
  | .dead => true
  | _ => false

/-- The states of a process that has left its CPU. -/
def Off (st : ProcState) : Prop := st = .SLEEPING ∨ st = .RUNNABLE ∨ st = .ZOMBIE

def Lock.isProc : Lock → Bool
  | .proc _ => true
  | _ => false

/-- `sleep(ch, lk)` has been made runnable by `wakeup(ch)` or `kill`. -/
def Roused (ch : Chan) (w : Option Cause) : Prop := w = some (.wakeup ch) ∨ ∃ pid, w = some (.kill pid)

namespace Core

/-- The process `i` on CPU `c`, outside interrupt handlers. -/
def At (s : Core κ) (c : κ) (i : Nat) (t : Top) : Prop := s.mode c = .run i ∧ s.irq c = .none ∧ s.top i = t

/-! ## Steps -/

section steps

variable [DecidableEq κ]

def acquire (s : Core κ) (c : κ) (l : Lock) : Core κ :=
  { s with lock := Function.update s.lock l (some c), noff := Function.update s.noff c (s.noff c + 1) }

def release (s : Core κ) (c : κ) (l : Lock) : Core κ :=
  { s with lock := Function.update s.lock l none, noff := Function.update s.noff c (s.noff c - 1) }

def setTop (s : Core κ) (i : Nat) (t : Top) : Core κ := { s with top := Function.update s.top i t }

def setState (s : Core κ) (i : Nat) (st : ProcState) : Core κ := { s with state := Function.update s.state i st }

def setMode (s : Core κ) (c : κ) (m : Mode) : Core κ := { s with mode := Function.update s.mode c m }

def setIrq (s : Core κ) (c : κ) (q : Irq) : Core κ := { s with irq := Function.update s.irq c q }

theorem acquire_lock_of_ne {s : Core κ} {c : κ} {l l' : Lock} (h : l' ≠ l) : (s.acquire c l).lock l' = s.lock l' :=
  update_of_ne h _ _

theorem release_lock_of_ne {s : Core κ} {c : κ} {l l' : Lock} (h : l' ≠ l) : (s.release c l).lock l' = s.lock l' :=
  update_of_ne h _ _

/-- The loop of `wakeup(ch)` on CPU `c` has nothing to do at slot `j`. -/
def Passes (s : Core κ) (c : κ) (ch : Chan) (j : Nat) : Prop :=
  (s.mode c).slot = some j ∨ s.lock (.proc j) = none ∧ ¬ (s.state j = .SLEEPING ∧ s.chan j = ch)

/-- Only the data of slot `j` changes. -/
structure Elsewhere (j : Nat) (s s' : Core κ) : Prop where
  mode : s'.mode = s.mode
  irq : s'.irq = s.irq
  noff : s'.noff = s.noff
  lock : s'.lock = s.lock
  slots : ∀ i, i ≠ j → s'.state i = s.state i ∧ s'.chan i = s.chan i ∧ s'.woke i = s.woke i ∧ s'.top i = s.top i

inductive Step (N : Nat) : Core κ → Core κ → Prop where
  | acquire {s : Core κ} {c : κ} {l : Lock} (hl : s.lock l = none)
      (hc : s.irq c = .active ∨ ∃ i, s.At c i .run ∨ ∃ ch lk, s.At c i (.slept ch lk)) : Step N s (s.acquire c l)
  | release {s : Core κ} {c : κ} {l : Lock} (hl : s.lock l = some c) (hp : l.isProc = false)
      (hc : s.irq c = .active ∨ ∃ i, s.At c i .run ∨ (∃ ch lk, s.At c i (.sleep2 ch lk)) ∨ ∃ t, s.At c i (.sched t)) :
      Step N s (s.release c l)
  -- interrupt handlers
  | interrupt {s : Core κ} {c : κ} (hq : s.irq c = .none) (hn : s.noff c = 0) : Step N s (s.setIrq c .active)
  | irqWake {s : Core κ} {c : κ} {ch : Chan} (hq : s.irq c = .active) : Step N s (s.setIrq c (.wake ch 0))
  | irqPass {s : Core κ} {c : κ} {ch : Chan} {j : Nat} (hq : s.irq c = .wake ch j) (hp : s.Passes c ch j) :
      Step N s (s.setIrq c (.wake ch (j + 1)))
  | irqDone {s : Core κ} {c : κ} {ch : Chan} (hq : s.irq c = .wake ch N) : Step N s (s.setIrq c .active)
  | irqLeave {s : Core κ} {c : κ} (hq : s.irq c = .active) (hn : s.noff c = 0) : Step N s (s.setIrq c .none)
  -- processes
  | wake {s : Core κ} {c : κ} {i : Nat} {ch : Chan} (h : s.At c i .run) : Step N s (s.setTop i (.wake ch 0))
  | pass {s : Core κ} {c : κ} {i : Nat} {ch : Chan} {j : Nat} (h : s.At c i (.wake ch j)) (hp : s.Passes c ch j) :
      Step N s (s.setTop i (.wake ch (j + 1)))
  | done {s : Core κ} {c : κ} {i : Nat} {ch : Chan} (h : s.At c i (.wake ch N)) : Step N s (s.setTop i .run)
  | sleep {s : Core κ} {c : κ} {i : Nat} {ch : Chan} {lk : Lock} (h : s.At c i .run)
      (hi : s.lock (.proc i) = some c) (hlk : s.lock lk = some c) (hp : lk.isProc = false) :
      Step N s (s.setTop i (.sleep1 ch lk))
  | drop {s : Core κ} {c : κ} {i : Nat} {ch : Chan} {lk : Lock} (h : s.At c i (.sleep1 ch lk)) :
      Step N s (s.setTop i (.sleep2 ch lk))
  | doze {s : Core κ} {c : κ} {i : Nat} {ch : Chan} {lk : Lock} (h : s.At c i (.sleep2 ch lk)) :
      Step N s { (s.setState i .SLEEPING).setTop i (.sched (.asleep ch lk)) with
        chan := Function.update s.chan i ch
        woke := Function.update s.woke i none }
  | zombie {s : Core κ} {c : κ} {i : Nat} (h : s.At c i .run) (hi : s.lock (.proc i) = some c) :
      Step N s ((s.setState i .ZOMBIE).setTop i (.sched .dead))
  | yield {s : Core κ} {c : κ} {i : Nat} {t : Top} (h : s.At c i t) (ht : t.preemptible) (hn : s.noff c = 0)
      (hi : s.lock (.proc i) = none) :
      Step N s (((s.acquire c (.proc i)).setState i .RUNNABLE).setTop i (.sched (.yielded t)))
  | swtch {s : Core κ} {c : κ} {i : Nat} {t : Top} (h : s.At c i (.sched t)) (hn : s.noff c = 1) :
      Step N s ((s.setTop i t).setMode c (.back i))
  | rise {s : Core κ} {c : κ} {i : Nat} {ch : Chan} {lk : Lock} (h : s.At c i (.asleep ch lk)) :
      Step N s { (s.release c (.proc i)).setTop i (.slept ch lk) with chan := Function.update s.chan i .null }
  | resume {s : Core κ} {c : κ} {i : Nat} {t : Top} (h : s.At c i (.yielded t)) :
      Step N s ((s.release c (.proc i)).setTop i t)
  | forkret {s : Core κ} {c : κ} {i : Nat} (h : s.At c i .fresh) : Step N s ((s.release c (.proc i)).setTop i .run)
  | regain {s : Core κ} {c : κ} {i : Nat} {ch : Chan} {lk : Lock} (h : s.At c i (.slept ch lk)) :
      Step N s (s.setTop i .run)
  -- the scheduler
  | skip {s : Core κ} {c : κ} {i i' : Nat} (h : s.mode c = .scan i) : Step N s (s.setMode c (.scan i'))
  | choose {s : Core κ} {c : κ} {i : Nat} (h : s.mode c = .scan i) (hq : s.irq c = .none) (hl : s.lock (.proc i) = none)
      (hst : s.state i = .RUNNABLE) :
      Step N s (((s.acquire c (.proc i)).setState i .RUNNING).setMode c (.chosen i))
  | load {s : Core κ} {c : κ} {i : Nat} (h : s.mode c = .chosen i) : Step N s (s.setMode c (.loaded i))
  | switch {s : Core κ} {c : κ} {i : Nat} (h : s.mode c = .loaded i) : Step N s (s.setMode c (.run i))
  | kvminithart {s : Core κ} {c : κ} {i : Nat} (h : s.mode c = .back i) : Step N s (s.setMode c (.left i))
  | leave {s : Core κ} {c : κ} {i i' : Nat} (h : s.mode c = .left i) :
      Step N s ((s.release c (.proc i)).setMode c (.scan i'))
  -- slots that no CPU has
  | rouse {s : Core κ} {j : Nat} {cause : Cause} (hl : s.lock (.proc j) = none) (hst : s.state j = .SLEEPING)
      (hcause : Roused (s.chan j) (some cause)) :
      Step N s { s.setState j .RUNNABLE with woke := Function.update s.woke j (some cause) }
  | renew {s s' : Core κ} {j : Nat} (hl : s.lock (.proc j) = none)
      (hst : s.state j = .UNUSED ∨ s.state j = .USED ∨ s.state j = .ZOMBIE) (hf : Elsewhere j s s')
      (hst' : (s'.state j = .UNUSED ∧ (s'.top j = .fresh ∨ s'.top j = .dead)) ∨
        ((s'.state j = .USED ∨ s'.state j = .RUNNABLE) ∧ s'.top j = .fresh)) : Step N s s'

theorem Step.rouse_wakeup {N : Nat} {s : Core κ} {j : Nat} {ch : Chan} (hl : s.lock (.proc j) = none)
    (hst : s.state j = .SLEEPING) (hch : s.chan j = ch) :
    Step N s { s.setState j .RUNNABLE with woke := update s.woke j (some (.wakeup ch)) } :=
  .rouse hl hst (Or.inl (by rw [hch]))

end steps

/-! ## The invariant -/

/-- `noff` counts the locks that the CPU holds. -/
def Counted (s : Core κ) : Prop :=
  ∀ c, ∃ L : Finset Lock, (∀ l, l ∈ L ↔ s.lock l = some c) ∧ L.card = s.noff c

/-- What holds of process `i` while CPU `c` runs it, by where it is. -/
def RunOk (s : Core κ) (c : κ) (i : Nat) : Top → Prop
  | .sleep1 _ lk =>
    s.state i = .RUNNING ∧ s.lock (.proc i) = some c ∧ s.irq c = .none ∧ s.lock lk = some c
  | .sleep2 _ _ => s.state i = .RUNNING ∧ s.lock (.proc i) = some c ∧ s.irq c = .none
  | .sched t => Off (s.state i) ∧ s.lock (.proc i) = some c ∧ s.irq c = .none ∧ t.parked
  | t =>
    s.state i = .RUNNING ∧ (t.parked → s.lock (.proc i) = some c ∧ s.irq c = .none ∧ s.noff c = 1)

/-- The lock of `i` is handed over between CPU `c` and the process. -/
structure Handoff (s : Core κ) (c : κ) (i : Nat) : Prop where
  lock : s.lock (.proc i) = some c
  irq : s.irq c = .none
  noff : s.noff c = 1
  parked : (s.top i).parked

def CpuOk (s : Core κ) (c : κ) : Prop :=
  match s.mode c with
  | .scan _ => s.irq c = .none → s.noff c = 0
  | .chosen i => s.Handoff c i ∧ s.state i = .RUNNING
  | .loaded i => s.Handoff c i ∧ s.state i = .RUNNING
  | .run i => s.RunOk c i (s.top i)
  | .back i => s.Handoff c i ∧ Off (s.state i)
  | .left i => s.Handoff c i ∧ Off (s.state i)

/-- What `sleep` knows when it returns. -/
def SleptOk (ch : Chan) (chan : Chan) (w : Option Cause) (lk : Lock) : Prop :=
  chan = .null ∧ Roused ch w ∧ lk.isProc = false

/-- What holds of a process by where it is, on a CPU or not. -/
def TopOk (st : ProcState) (chan : Chan) (w : Option Cause) : Top → Prop
  | .sleep1 _ lk => lk.isProc = false
  | .sleep2 _ lk => lk.isProc = false
  | .asleep ch lk => chan = ch ∧ lk.isProc = false ∧ (st = .SLEEPING ∨ Roused ch w)
  | .slept ch lk => SleptOk ch chan w lk
  | .yielded t => t.preemptible ∧ TopOk .RUNNING chan w t
  | .sched t => TopOk st chan w t
  | _ => True

structure SlotOk (s : Core κ) (i : Nat) : Prop where
  top : TopOk (s.state i) (s.chan i) (s.woke i) (s.top i)
  sleeping : s.state i = .SLEEPING → ∃ ch lk, s.top i = .asleep ch lk ∨ s.top i = .sched (.asleep ch lk)
  zombie : s.state i = .ZOMBIE → s.top i = .dead ∨ s.top i = .sched .dead
  unused : s.state i = .UNUSED → s.top i = .fresh ∨ s.top i = .dead
  used : s.state i = .USED → s.top i = .fresh

/-- The process `i` is in `sleep(ch, lk)`, has released `lk`, and has not been made runnable. -/
def InSleep (s : Core κ) (i : Nat) (ch : Chan) (lk : Lock) : Prop :=
  s.top i = .sleep2 ch lk ∨ s.state i = .SLEEPING ∧ (s.top i = .asleep ch lk ∨ s.top i = .sched (.asleep ch lk))

/-- CPU `c` is in `wakeup(ch)` at slot `j`. -/
def Wakes (s : Core κ) (c : κ) (ch : Chan) (j : Nat) : Prop :=
  s.irq c = .wake ch j ∨ ∃ i, s.At c i (.wake ch j)

structure Inv (s : Core κ) : Prop where
  counted : s.Counted
  cpu : ∀ c, s.CpuOk c
  slot : ∀ i, s.SlotOk i
  uniq : ∀ c c' i, (s.mode c).slot = some i → (s.mode c').slot = some i → c = c'
  onCpu : ∀ i, (s.top i).parked = false → ∃ c, s.mode c = .run i
  /-- What a `wakeup` has passed does not sleep on its channel with a lock that the waker holds. -/
  woken : ∀ c ch j lk, s.Wakes c ch j → s.lock lk = some c → ∀ i, i < j → ¬ s.InSleep i ch lk

/-! ## Locks -/

section locks

variable {s s' : Core κ} {c : κ} {l : Lock}

theorem Counted.acquire [DecidableEq κ] (h : s.Counted) (hl : s.lock l = none) : (s.acquire c l).Counted := by
  intro c'
  obtain ⟨L, hL, hcard⟩ := h c'
  by_cases hc : c' = c
  · subst hc
    have hnot : l ∉ L := by
      rw [hL, hl]
      simp
    refine ⟨insert l L, fun l' => ?_, ?_⟩
    · simp only [Core.acquire, Finset.mem_insert, hL, update_apply]
      by_cases hl' : l' = l
      · simp [hl']
      · simp [hl']
    · rw [Finset.card_insert_of_notMem hnot, hcard]
      simp [Core.acquire]
  · refine ⟨L, fun l' => ?_, ?_⟩
    · rw [hL]
      simp only [Core.acquire, update_apply]
      by_cases hl' : l' = l
      · simp [hl', hl, Ne.symm hc]
      · simp [hl']
    · simp [Core.acquire, update_of_ne hc, hcard]

theorem Counted.release [DecidableEq κ] (h : s.Counted) (hl : s.lock l = some c) : (s.release c l).Counted := by
  intro c'
  obtain ⟨L, hL, hcard⟩ := h c'
  by_cases hc : c' = c
  · subst hc
    have hmem : l ∈ L := (hL l).2 hl
    refine ⟨L.erase l, fun l' => ?_, ?_⟩
    · simp only [Core.release, Finset.mem_erase, hL, update_apply]
      by_cases hl' : l' = l
      · simp [hl']
      · simp [hl']
    · rw [Finset.card_erase_of_mem hmem, hcard]
      simp [Core.release]
  · refine ⟨L, fun l' => ?_, ?_⟩
    · rw [hL]
      simp only [Core.release, update_apply]
      by_cases hl' : l' = l
      · simp [hl', hl, Ne.symm hc]
      · simp [hl']
    · simp [Core.release, update_of_ne hc, hcard]

/-- A CPU with `noff = 0` holds no lock. -/
theorem Counted.not_held (h : s.Counted) (hn : s.noff c = 0) (l : Lock) : s.lock l ≠ some c := by
  obtain ⟨L, hL, hcard⟩ := h c
  intro hl
  have hmem := (hL l).2 hl
  rw [hn, Finset.card_eq_zero] at hcard
  rw [hcard] at hmem
  cases hmem

end locks

/-! ## Frames -/

section frames

variable {s s' : Core κ} {c : κ} {i : Nat}

/-- A CPU is not concerned when its own data, its process and its locks stay. -/
theorem CpuOk.frame (h : s.CpuOk c) (hm : s'.mode c = s.mode c) (hq : s'.irq c = s.irq c) (hn : s'.noff c = s.noff c)
    (hslot : ∀ i, (s.mode c).slot = some i → s'.top i = s.top i ∧ s'.state i = s.state i)
    (hl : ∀ l, s.lock l = some c → s'.lock l = some c) : s'.CpuOk c := by
  have hhand : ∀ i, (s.mode c).slot = some i → s.Handoff c i → s'.Handoff c i := fun i hi hh =>
    ⟨hl _ hh.lock, hq.trans hh.irq, hn.trans hh.noff, by rw [(hslot i hi).1]; exact hh.parked⟩
  unfold CpuOk at h ⊢
  rw [hm]
  cases hmode : s.mode c with
  | scan i =>
    rw [hmode] at h
    simp only at h ⊢
    rw [hq, hn]
    exact h
  | chosen i | loaded i | back i | left i =>
    have hi : (s.mode c).slot = some i := by rw [hmode]; rfl
    rw [hmode] at h
    simp only at h ⊢
    rw [(hslot i hi).2]
    exact ⟨hhand i hi h.1, h.2⟩
  | run i =>
    have hi : (s.mode c).slot = some i := by rw [hmode]; rfl
    rw [hmode] at h
    simp only at h ⊢
    rw [(hslot i hi).1]
    cases htop : s.top i with
    | sleep1 ch lk =>
      rw [htop] at h
      exact ⟨(hslot i hi).2.trans h.1, hl _ h.2.1, hq.trans h.2.2.1, hl _ h.2.2.2⟩
    | sleep2 ch lk =>
      rw [htop] at h
      exact ⟨(hslot i hi).2.trans h.1, hl _ h.2.1, hq.trans h.2.2⟩
    | sched t =>
      rw [htop] at h
      exact ⟨(hslot i hi).2 ▸ h.1, hl _ h.2.1, hq.trans h.2.2.1, h.2.2.2⟩
    | _ =>
      rw [htop] at h
      exact ⟨(hslot i hi).2.trans h.1, fun hp => ⟨hl _ (h.2 hp).1, hq.trans (h.2 hp).2.1, hn.trans (h.2 hp).2.2⟩⟩

theorem SlotOk.frame (h : s.SlotOk i) (hst : s'.state i = s.state i) (hch : s'.chan i = s.chan i)
    (hw : s'.woke i = s.woke i) (ht : s'.top i = s.top i) : s'.SlotOk i where
  top := by rw [hst, hch, hw, ht]; exact h.top
  sleeping := by rw [hst, ht]; exact h.sleeping
  zombie := by rw [hst, ht]; exact h.zombie
  unused := by rw [hst, ht]; exact h.unused
  used := by rw [hst, ht]; exact h.used

end frames

namespace Inv

variable {s : Core κ} {c : κ} {i j : Nat}

theorem runOk (h : s.Inv) (hm : s.mode c = .run i) : s.RunOk c i (s.top i) := by
  have hcpu := h.cpu c
  unfold CpuOk at hcpu
  rw [hm] at hcpu
  exact hcpu

theorem at_runOk {t : Top} (h : s.Inv) (hat : s.At c i t) : s.RunOk c i t := hat.2.2 ▸ h.runOk hat.1

theorem running_of_preemptible {t : Top} (h : s.Inv) (hat : s.At c i t) (ht : t.preemptible = true) :
    s.state i = .RUNNING := by
  have hrun := h.at_runOk hat
  cases t with
  | run | wake ch j | slept ch lk => exact hrun.1
  | _ => cases ht

/-- A CPU holds the lock of its process, or runs it outside `sleep`, `yield` and `sched`. -/
theorem slot_cases (h : s.Inv) (hslot : (s.mode c).slot = some j) :
    s.lock (.proc j) = some c ∧ s.irq c = .none ∨
      s.mode c = .run j ∧ s.state j = .RUNNING ∧ (s.top j).preemptible = true := by
  have hcpu := h.cpu c
  unfold CpuOk at hcpu
  cases hmode : s.mode c with
  | scan i =>
    rw [hmode] at hslot
    cases hslot
  | chosen i | loaded i | back i | left i =>
    rw [hmode] at hslot hcpu
    cases hslot
    exact Or.inl ⟨hcpu.1.lock, hcpu.1.irq⟩
  | run i =>
    rw [hmode] at hslot
    cases hslot
    have hrun := h.runOk hmode
    cases htop : s.top j with
    | sleep1 ch lk | sched t =>
      rw [htop] at hrun
      exact Or.inl ⟨hrun.2.1, hrun.2.2.1⟩
    | sleep2 ch lk =>
      rw [htop] at hrun
      exact Or.inl ⟨hrun.2.1, hrun.2.2⟩
    | asleep ch lk | yielded t | fresh | dead =>
      rw [htop] at hrun
      exact Or.inl ⟨(hrun.2 rfl).1, (hrun.2 rfl).2.1⟩
    | run | wake ch n | slept ch lk =>
      rw [htop] at hrun
      exact Or.inr ⟨rfl, hrun.1, rfl⟩

/-- A slot whose lock is free and that is not running is on no CPU. -/
theorem off_of_free (h : s.Inv) (hl : s.lock (.proc j) = none) (hst : s.state j ≠ .RUNNING) :
    (∀ c, (s.mode c).slot ≠ some j) ∧ (s.top j).parked = true := by
  have hoff : ∀ c, (s.mode c).slot ≠ some j := by
    intro c hslot
    rcases h.slot_cases hslot with ⟨hlock, -⟩ | ⟨-, hrun, -⟩
    · rw [hl] at hlock
      cases hlock
    · exact hst hrun
  refine ⟨hoff, ?_⟩
  by_contra hp
  obtain ⟨c, hc⟩ := h.onCpu j (by simpa using hp)
  exact hoff c (by rw [hc]; rfl)

/-- A process in `sleep` before `swtch`, or in `sched`, holds its lock. -/
theorem locked_of_top (h : s.Inv) (ht : (s.top j).parked = false) (hp : (s.top j).preemptible = false) :
    ∃ c, s.mode c = .run j ∧ s.lock (.proc j) = some c ∧ s.irq c = .none := by
  obtain ⟨c, hc⟩ := h.onCpu j ht
  rcases h.slot_cases (j := j) (c := c) (by rw [hc]; rfl) with ⟨hlock, hirq⟩ | ⟨-, -, hpre⟩
  · exact ⟨c, hc, hlock, hirq⟩
  · rw [hp] at hpre
    cases hpre

/-- The process on a CPU in `wakeup` is running, and not in `sleep`. -/
theorem running_of_wakes (h : s.Inv) {ch : Chan} {n : Nat} (hw : s.Wakes c ch n) (hslot : (s.mode c).slot = some j) :
    s.state j = .RUNNING ∧ (s.top j).preemptible = true := by
  rcases hw with hq | ⟨i, hat⟩
  · rcases h.slot_cases hslot with ⟨-, hirq⟩ | ⟨-, hrun, hpre⟩
    · rw [hq] at hirq
      cases hirq
    · exact ⟨hrun, hpre⟩
  · have hrun := h.at_runOk hat
    obtain ⟨hm, -, ht⟩ := hat
    rw [hm] at hslot
    cases hslot
    exact ⟨hrun.1, by rw [ht]; rfl⟩

/-- **What `wakeup` passes** does not sleep on its channel. -/
theorem not_inSleep_of_passes (h : s.Inv) {ch : Chan} (hw : s.Wakes c ch j) (hp : s.Passes c ch j) (lk : Lock) :
    ¬ s.InSleep j ch lk := by
  intro hsleep
  rcases hp with hslot | ⟨hl, hnot⟩
  · obtain ⟨hrun, hpre⟩ := h.running_of_wakes hw hslot
    rcases hsleep with ht | ⟨hst, -⟩
    · rw [ht] at hpre
      cases hpre
    · rw [hrun] at hst
      cases hst
  · have hfree : ∀ {P : Prop} {t}, s.top j = t → t.parked = false → t.preemptible = false → P := by
      rintro P t rfl hpark hpre
      obtain ⟨c', -, hc', -⟩ := h.locked_of_top hpark hpre
      rw [hl] at hc'
      cases hc'
    rcases hsleep with ht | ⟨hst, ht | ht⟩
    · exact hfree ht rfl rfl
    · have htop := (h.slot j).top
      rw [ht] at htop
      exact hnot ⟨hst, htop.1⟩
    · exact hfree ht rfl rfl

end Inv

/-! ## Steps of one CPU and its process -/

/-- Only CPU `c`, its locks and slot `i` change. -/
structure Frame (c : κ) (i : Nat) (s s' : Core κ) : Prop where
  mode : ∀ c', c' ≠ c → s'.mode c' = s.mode c'
  irq : ∀ c', c' ≠ c → s'.irq c' = s.irq c'
  noff : ∀ c', c' ≠ c → s'.noff c' = s.noff c'
  lock : ∀ c' l, c' ≠ c → (s'.lock l = some c' ↔ s.lock l = some c')
  state : ∀ i', i' ≠ i → s'.state i' = s.state i'
  chan : ∀ i', i' ≠ i → s'.chan i' = s.chan i'
  woke : ∀ i', i' ≠ i → s'.woke i' = s.woke i'
  top : ∀ i', i' ≠ i → s'.top i' = s.top i'

namespace Frame

variable {c : κ} {i : Nat} {s s' s'' : Core κ}

theorem refl (c : κ) (i : Nat) (s : Core κ) : Frame c i s s :=
  ⟨fun _ _ => rfl, fun _ _ => rfl, fun _ _ => rfl, fun _ _ _ => Iff.rfl, fun _ _ => rfl, fun _ _ => rfl,
    fun _ _ => rfl, fun _ _ => rfl⟩

theorem trans (h : Frame c i s s') (h' : Frame c i s' s'') : Frame c i s s'' where
  mode c' hc := (h'.mode c' hc).trans (h.mode c' hc)
  irq c' hc := (h'.irq c' hc).trans (h.irq c' hc)
  noff c' hc := (h'.noff c' hc).trans (h.noff c' hc)
  lock c' l hc := (h'.lock c' l hc).trans (h.lock c' l hc)
  state i' hi := (h'.state i' hi).trans (h.state i' hi)
  chan i' hi := (h'.chan i' hi).trans (h.chan i' hi)
  woke i' hi := (h'.woke i' hi).trans (h.woke i' hi)
  top i' hi := (h'.top i' hi).trans (h.top i' hi)

variable [DecidableEq κ]

theorem acquire {l : Lock} (hl : s.lock l = none) : Frame c i s (s.acquire c l) :=
  { refl c i s with
    noff := fun _ hc => update_of_ne hc _ _
    lock := fun c' l' hc => by
      simp only [Core.acquire, update_apply]
      split
      · rename_i heq
        simp [heq, hl, Ne.symm hc]
      · rfl }

theorem release {l : Lock} (hl : s.lock l = some c) : Frame c i s (s.release c l) :=
  { refl c i s with
    noff := fun _ hc => update_of_ne hc _ _
    lock := fun c' l' hc => by
      simp only [Core.release, update_apply]
      split
      · rename_i heq
        simp [heq, hl, Ne.symm hc]
      · rfl }

theorem setMode (m : Mode) : Frame c i s (s.setMode c m) :=
  { refl c i s with mode := fun _ hc => update_of_ne hc _ _ }

omit [DecidableEq κ] in
theorem setTop (t : Top) : Frame c i s (s.setTop i t) :=
  { refl c i s with top := fun _ hi => update_of_ne hi _ _ }

omit [DecidableEq κ] in
theorem setState (st : ProcState) : Frame c i s (s.setState i st) :=
  { refl c i s with state := fun _ hi => update_of_ne hi _ _ }

omit [DecidableEq κ] in
theorem setChan (ch : Chan) : Frame c i s { s with chan := update s.chan i ch } :=
  { refl c i s with chan := fun _ hi => update_of_ne hi _ _ }

omit [DecidableEq κ] in
theorem setWoke (w : Option Cause) : Frame c i s { s with woke := update s.woke i w } :=
  { refl c i s with woke := fun _ hi => update_of_ne hi _ _ }

end Frame

/-- **A step of one CPU**: it is enough to look at the CPU and its process. -/
theorem Inv.own {s s' : Core κ} {c : κ} {i : Nat} (h : s.Inv) (hf : Frame c i s s')
    (hslot : (s.mode c).slot = some i ∨ (s.mode c).slot = none ∧ ∀ c', (s.mode c').slot ≠ some i)
    (hslot' : ∀ k, (s'.mode c).slot = some k → k = i) (hcounted : s'.Counted) (hcpu : s'.CpuOk c) (hi : s'.SlotOk i)
    (hpark : (s'.top i).parked = false → s'.mode c = .run i)
    (hwakes : ∀ ch j lk, s'.Wakes c ch j → s'.lock lk = some c → ∀ i', i' < j → ¬ s'.InSleep i' ch lk)
    (hsleep : ∀ ch lk, s'.InSleep i ch lk → s.InSleep i ch lk ∨ ∀ c', c' ≠ c → s.lock lk ≠ some c') : s'.Inv := by
  have hother : ∀ c', c' ≠ c → (s.mode c').slot ≠ some i := by
    intro c' hc hsl
    rcases hslot with hown | ⟨-, hoff⟩
    · exact hc (h.uniq c' c i hsl hown)
    · exact hoff c' hsl
  have hsame : ∀ i', i' ≠ i → ∀ ch lk, s'.InSleep i' ch lk ↔ s.InSleep i' ch lk := by
    intro i' hi' ch lk
    unfold InSleep
    rw [hf.top i' hi', hf.state i' hi']
  refine ⟨hcounted, fun c' => ?_, fun i' => ?_, fun c₁ c₂ k h₁ h₂ => ?_, fun i' hp => ?_, fun c' ch j lk hw hl => ?_⟩
  · by_cases hc : c' = c
    · exact hc ▸ hcpu
    · refine (h.cpu c').frame (hf.mode c' hc) (hf.irq c' hc) (hf.noff c' hc) (fun k hk => ?_) fun l hl =>
        (hf.lock c' l hc).2 hl
      have hki : k ≠ i := by
        rintro rfl
        exact hother c' hc hk
      exact ⟨hf.top k hki, hf.state k hki⟩
  · by_cases hi' : i' = i
    · exact hi' ▸ hi
    · exact (h.slot i').frame (hf.state i' hi') (hf.chan i' hi') (hf.woke i' hi') (hf.top i' hi')
  · by_cases hc₁ : c₁ = c
    · by_cases hc₂ : c₂ = c
      · rw [hc₁, hc₂]
      · subst hc₁
        rw [hf.mode c₂ hc₂] at h₂
        exact absurd (hslot' k h₁ ▸ h₂) (hother c₂ hc₂)
    · rw [hf.mode c₁ hc₁] at h₁
      by_cases hc₂ : c₂ = c
      · subst hc₂
        exact absurd (hslot' k h₂ ▸ h₁) (hother c₁ hc₁)
      · rw [hf.mode c₂ hc₂] at h₂
        exact h.uniq c₁ c₂ k h₁ h₂
  · by_cases hi' : i' = i
    · subst hi'
      exact ⟨c, hpark hp⟩
    · rw [hf.top i' hi'] at hp
      obtain ⟨c', hc'⟩ := h.onCpu i' hp
      refine ⟨c', (hf.mode c' ?_).trans hc'⟩
      rintro rfl
      have hsl : (s.mode c').slot = some i' := by rw [hc']; rfl
      rcases hslot with hown | ⟨hnone, -⟩
      · rw [hsl] at hown
        exact hi' (Option.some.inj hown)
      · rw [hsl] at hnone
        cases hnone
  · by_cases hc : c' = c
    · subst hc
      exact hwakes ch j lk hw hl
    · have hw' : s.Wakes c' ch j := by
        rcases hw with hq | ⟨k, hm, hq, ht⟩
        · exact Or.inl (hf.irq c' hc ▸ hq)
        · rw [hf.mode c' hc] at hm
          rw [hf.irq c' hc] at hq
          have hki : k ≠ i := by
            rintro rfl
            exact hother c' hc (by rw [hm]; rfl)
          rw [hf.top k hki] at ht
          exact Or.inr ⟨k, hm, hq, ht⟩
      have hl' := (hf.lock c' lk hc).1 hl
      intro i' hi' hin
      by_cases hii : i' = i
      · subst hii
        rcases hsleep ch lk hin with hin | hfree
        · exact h.woken c' ch j lk hw' hl' i' hi' hin
        · exact hfree c' hc hl'
      · exact h.woken c' ch j lk hw' hl' i' hi' ((hsame i' hii ch lk).1 hin)

/-- A step of a CPU that concerns its locks and its interrupt handler. -/
theorem Inv.cpuOnly {s s' : Core κ} {c : κ} (h : s.Inv) (hmode : s'.mode = s.mode) (hstate : s'.state = s.state)
    (hchan : s'.chan = s.chan) (hwoke : s'.woke = s.woke) (htop : s'.top = s.top)
    (hf : ∀ c', c' ≠ c → s'.irq c' = s.irq c' ∧ s'.noff c' = s.noff c' ∧
      ∀ l, s'.lock l = some c' ↔ s.lock l = some c')
    (hcounted : s'.Counted) (hcpu : s'.CpuOk c)
    (hwakes : ∀ ch j lk, s'.Wakes c ch j → s'.lock lk = some c → ∀ i', i' < j → ¬ s.InSleep i' ch lk) : s'.Inv := by
  have hsleep : ∀ i ch lk, s'.InSleep i ch lk ↔ s.InSleep i ch lk := fun i ch lk => by
    unfold InSleep
    rw [htop, hstate]
  refine ⟨hcounted, fun c' => ?_, fun i => ?_, hmode ▸ h.uniq, hmode ▸ htop ▸ h.onCpu, fun c' ch j lk hw hl => ?_⟩
  · by_cases hc : c' = c
    · exact hc ▸ hcpu
    · obtain ⟨hq, hn, hlock⟩ := hf c' hc
      exact (h.cpu c').frame (congrFun hmode c') hq hn (fun k _ => ⟨congrFun htop k, congrFun hstate k⟩)
        fun l hl => (hlock l).2 hl
  · exact (h.slot i).frame (congrFun hstate i) (congrFun hchan i) (congrFun hwoke i) (congrFun htop i)
  · intro i hi hin
    rw [hsleep] at hin
    by_cases hc : c' = c
    · subst hc
      exact hwakes ch j lk hw hl i hi hin
    · obtain ⟨hq, -, hlock⟩ := hf c' hc
      refine h.woken c' ch j lk ?_ ((hlock lk).1 hl) i hi hin
      simpa only [Wakes, At, hmode, hq, htop] using hw

/-- A step on a slot that no CPU has. -/
theorem Inv.off {s s' : Core κ} {j : Nat} (h : s.Inv) (he : Elsewhere j s s') (hoff : ∀ c, (s.mode c).slot ≠ some j)
    (hpark : (s'.top j).parked = true) (hj : s'.SlotOk j) (hst : s'.state j ≠ .SLEEPING) : s'.Inv := by
  obtain ⟨hmode, hirq, hnoff, hlock, hf⟩ := he
  have hne : ∀ {c k}, (s.mode c).slot = some k → k ≠ j := fun hk hkj => hoff _ (hkj ▸ hk)
  refine ⟨?_, fun c => ?_, fun i => ?_, hmode ▸ h.uniq, fun i hp => ?_, fun c ch n lk hw hl i hi hin => ?_⟩
  · have hcounted := h.counted
    unfold Counted at hcounted ⊢
    rwa [hlock, hnoff]
  · refine (h.cpu c).frame (congrFun hmode c) (congrFun hirq c) (congrFun hnoff c) (fun k hk => ?_) fun l hl => hlock ▸ hl
    obtain ⟨h₁, -, -, h₂⟩ := hf k (hne hk)
    exact ⟨h₂, h₁⟩
  · by_cases hij : i = j
    · exact hij ▸ hj
    · obtain ⟨h₁, h₂, h₃, h₄⟩ := hf i hij
      exact (h.slot i).frame h₁ h₂ h₃ h₄
  · have hij : i ≠ j := by
      rintro rfl
      rw [hpark] at hp
      cases hp
    rw [(hf i hij).2.2.2] at hp
    rw [hmode]
    exact h.onCpu i hp
  · have hw' : s.Wakes c ch n := by
      rcases hw with hq | ⟨k, hm, hq, ht⟩
      · exact Or.inl (hirq ▸ hq)
      · rw [hmode] at hm
        rw [hirq] at hq
        rw [(hf k (hne (c := c) (by rw [hm]; rfl))).2.2.2] at ht
        exact Or.inr ⟨k, hm, hq, ht⟩
    by_cases hij : i = j
    · subst hij
      rcases hin with ht | ⟨hs, -⟩
      · rw [ht] at hpark
        cases hpark
      · exact hst hs
    · refine h.woken c ch n lk hw' (hlock ▸ hl) i hi ?_
      unfold InSleep at hin ⊢
      rwa [(hf i hij).1, (hf i hij).2.2.2] at hin

/-! ## Every step keeps the invariant -/

section intro

variable {s : Core κ} {c : κ} {i : Nat}

variable {ch : Chan} {P : Prop} {t : Top}

theorem At.slot (h : s.At c i t) : (s.mode c).slot = some i := by
  rw [h.1]
  rfl

theorem CpuOk.of_scan {k : Nat} (hm : s.mode c = .scan k) (hq : s.irq c ≠ .none ∨ s.noff c = 0) : s.CpuOk c := by
  unfold CpuOk
  rw [hm]
  exact fun hnone => hq.resolve_left fun hne => hne hnone

theorem CpuOk.of_run (hm : s.mode c = .run i) (h : s.RunOk c i (s.top i)) : s.CpuOk c := by
  unfold CpuOk
  rw [hm]
  exact h

theorem RunOk.of_preemptible (hst : s.state i = .RUNNING) (ht : t.preemptible = true) : s.RunOk c i t := by
  cases t with
  | run | wake ch j | slept ch lk => exact ⟨hst, fun hp => by cases hp⟩
  | _ => cases ht

theorem RunOk.of_parked (hst : s.state i = .RUNNING) (ht : t.parked = true) (hl : s.lock (.proc i) = some c)
    (hq : s.irq c = .none) (hn : s.noff c = 1) : s.RunOk c i t := by
  cases t with
  | asleep ch lk | yielded t | fresh | dead => exact ⟨hst, fun _ => ⟨hl, hq, hn⟩⟩
  | _ => cases ht

theorem SlotOk.of_running (hst : s.state i = .RUNNING) (ht : TopOk .RUNNING (s.chan i) (s.woke i) (s.top i)) :
    s.SlotOk i where
  top := hst ▸ ht
  sleeping h := by rw [hst] at h; cases h
  zombie h := by rw [hst] at h; cases h
  unused h := by rw [hst] at h; cases h
  used h := by rw [hst] at h; cases h

theorem InSleep.false_of_running {lk : Lock} (h : s.InSleep i ch lk)
    (hst : s.state i = .RUNNING) (ht : ∀ ch lk, s.top i ≠ .sleep2 ch lk) : P := by
  rcases h with h | ⟨h, -⟩
  · exact absurd h (ht ch lk)
  · rw [hst] at h
    cases h

theorem Wakes.false_of_at {j : Nat} (hw : s.Wakes c ch j) (hat : s.At c i t) (ht : ∀ ch j, t ≠ .wake ch j) : P := by
  rcases hw with hq | ⟨k, hm, -, htop⟩
  · rw [hat.2.1] at hq
    cases hq
  · rw [hat.1] at hm
    cases hm
    exact absurd (hat.2.2.symm.trans htop) (ht ch j)

theorem Wakes.false_of_active {j : Nat} (hw : s.Wakes c ch j) (hq : s.irq c = .active) : P := by
  rcases hw with hq' | ⟨k, -, hq', -⟩
  · rw [hq] at hq'
    cases hq'
  · rw [hq] at hq'
    cases hq'

theorem Wakes.false_of_mode {j : Nat} (hw : s.Wakes c ch j) (hq : s.irq c = .none)
    (hm : ∀ i, s.mode c ≠ .run i) : P := by
  rcases hw with hq' | ⟨k, hm', -, -⟩
  · rw [hq] at hq'
    cases hq'
  · exact absurd hm' (hm k)

/-- In an interrupt handler the CPU is in the scheduler's loop or runs a process outside `sleep` and `sched`. -/
theorem Inv.irq_cases (h : s.Inv) (hq : s.irq c ≠ .none) :
    (∃ k, s.mode c = .scan k) ∨ ∃ i, s.mode c = .run i ∧ s.state i = .RUNNING ∧ (s.top i).preemptible = true := by
  cases hslot : (s.mode c).slot with
  | none =>
    cases hm : s.mode c with
    | scan k => exact Or.inl ⟨k, rfl⟩
    | _ =>
      rw [hm] at hslot
      cases hslot
  | some i =>
    rcases h.slot_cases hslot with ⟨-, hnone⟩ | hrun
    · exact absurd hnone hq
    · exact Or.inr ⟨i, hrun⟩

theorem Inv.handoff {m : Mode} (h : s.Inv) (hm : s.mode c = m)
    (hin : m = .chosen i ∨ m = .loaded i ∨ m = .back i ∨ m = .left i) : s.Handoff c i := by
  have hcpu := h.cpu c
  unfold CpuOk at hcpu
  rw [hm] at hcpu
  rcases hin with rfl | rfl | rfl | rfl <;> exact hcpu.1

end intro

section process

variable {s : Core κ} {c : κ} {i : Nat}

/-- A process goes on outside `sleep`, `yield` and `sched`. -/
theorem Inv.setTop {t t' : Top} (h : s.Inv) (hat : s.At c i t) (ht : t.preemptible = true) (ht' : t'.preemptible = true)
    (hok : TopOk .RUNNING (s.chan i) (s.woke i) t')
    (hwakes : ∀ ch j lk, t' = .wake ch j → s.lock lk = some c → ∀ i', i' < j → i' ≠ i → ¬ s.InSleep i' ch lk) :
    (s.setTop i t').Inv := by
  have hst := h.running_of_preemptible hat ht
  have htop : (s.setTop i t').top i = t' := update_self ..
  have hne : ∀ ch lk, (s.setTop i t').top i ≠ .sleep2 ch lk := by
    intro ch lk heq
    rw [htop] at heq
    rw [heq] at ht'
    cases ht'
  refine h.own (Frame.setTop t') (Or.inl hat.slot) (fun k hk => ?_) h.counted (.of_run hat.1 ?_) (.of_running hst ?_)
    (fun _ => hat.1) (fun ch j lk hw hl i' hi' hin => ?_) fun ch lk hin => hin.false_of_running hst hne
  · exact (Option.some.inj (hat.slot.symm.trans hk)).symm
  · rw [htop]
    exact .of_preemptible hst ht'
  · rw [htop]
    exact hok
  · by_cases hii : i' = i
    · subst hii
      exact hin.false_of_running hst hne
    · refine hwakes ch j lk ?_ hl i' hi' hii ?_
      · rcases hw with hq | ⟨k, hm, -, hk⟩
        · exact absurd hq (by show s.irq c ≠ _; rw [hat.2.1]; simp)
        · have hki : k = i := by
            have hm' : s.mode c = .run k := hm
            rw [hat.1] at hm'
            cases hm'
            rfl
          rw [hki, htop] at hk
          exact hk
      · unfold InSleep at hin ⊢
        rwa [show (s.setTop i t').top i' = s.top i' from update_of_ne hii _ _] at hin

variable {ch : Chan}

theorem Inv.pass {j : Nat} (h : s.Inv) (hat : s.At c i (.wake ch j)) (hp : s.Passes c ch j) :
    (s.setTop i (.wake ch (j + 1))).Inv := by
  refine h.setTop hat rfl rfl trivial fun ch' j' lk heq hl i' hi' _ => ?_
  cases heq
  have hw' : s.Wakes c ch j := Or.inr ⟨i, hat⟩
  rcases Nat.lt_succ_iff_lt_or_eq.1 hi' with hlt | rfl
  · exact h.woken c ch j lk hw' hl i' hlt
  · exact h.not_inSleep_of_passes hw' hp lk

/-- A process that is on its CPU and will not be a waker: the two conditions on sleepers for `Inv.own`. -/
theorem Inv.ownAt {s' : Core κ} {t : Top} (h : s.Inv) (hf : Frame c i s s') (hat : s.At c i t)
    (hslot' : (s'.mode c).slot = some i) (hcounted : s'.Counted) (hcpu : s'.CpuOk c) (hi : s'.SlotOk i)
    (hpark : (s'.top i).parked = false → s'.mode c = .run i) (hwakes : ∀ ch j, ¬ s'.Wakes c ch j)
    (hsleep : ∀ ch lk, s'.InSleep i ch lk → s.InSleep i ch lk ∨ s.lock lk = some c) : s'.Inv := by
  refine h.own hf (Or.inl hat.slot) (fun k hk => ?_) hcounted hcpu hi hpark (fun ch j lk hw => absurd hw (hwakes ch j))
    fun ch lk hin => (hsleep ch lk hin).imp_right fun hl c' hc hl' => ?_
  · exact (Option.some.inj (hslot'.symm.trans hk)).symm
  · rw [hl] at hl'
    exact hc (Option.some.inj hl').symm

theorem Inv.sleep {lk : Lock} (h : s.Inv) (hat : s.At c i .run) (hi : s.lock (.proc i) = some c)
    (hlk : s.lock lk = some c) (hp : lk.isProc = false) : (s.setTop i (.sleep1 ch lk)).Inv := by
  have hst := (h.at_runOk hat).1
  have htop : (s.setTop i (.sleep1 ch lk)).top i = .sleep1 ch lk := update_self ..
  have hat' : (s.setTop i (.sleep1 ch lk)).At c i (.sleep1 ch lk) := ⟨hat.1, hat.2.1, htop⟩
  refine h.ownAt (Frame.setTop _) hat hat.slot h.counted (.of_run hat.1 ?_) (.of_running hst ?_) (fun _ => hat.1)
    (fun ch j hw => hw.false_of_at hat' (by simp)) fun ch lk hin => hin.false_of_running hst (by simp [htop])
  · rw [htop]
    exact ⟨hst, hi, hat.2.1, hlk⟩
  · rw [htop]
    exact hp

/-- `release(lk)` in `sleep`: the process counts as asleep from here on. -/
theorem Inv.drop {lk : Lock} (h : s.Inv) (hat : s.At c i (.sleep1 ch lk)) : (s.setTop i (.sleep2 ch lk)).Inv := by
  obtain ⟨hst, hi, hq, hlk⟩ := h.at_runOk hat
  have htop : (s.setTop i (.sleep2 ch lk)).top i = .sleep2 ch lk := update_self ..
  have hat' : (s.setTop i (.sleep2 ch lk)).At c i (.sleep2 ch lk) := ⟨hat.1, hat.2.1, htop⟩
  have hok := (h.slot i).top
  rw [hat.2.2] at hok
  refine h.ownAt (Frame.setTop _) hat hat.slot h.counted (.of_run hat.1 ?_) (.of_running hst ?_) (fun _ => hat.1)
    (fun ch j hw => hw.false_of_at hat' (by simp)) fun ch' lk' hin => Or.inr ?_
  · rw [htop]
    exact ⟨hst, hi, hq⟩
  · rw [htop]
    exact hok
  · rcases hin with hin | ⟨hin, -⟩
    · rw [htop] at hin
      cases hin
      exact hlk
    · exact absurd hin (by show s.state i ≠ _; rw [hst]; simp)

theorem Inv.doze {lk : Lock} (h : s.Inv) (hat : s.At c i (.sleep2 ch lk)) :
    Inv { (s.setState i .SLEEPING).setTop i (.sched (.asleep ch lk)) with
      chan := update s.chan i ch
      woke := update s.woke i none } := by
  obtain ⟨-, hi, hq⟩ := h.at_runOk hat
  have hok := (h.slot i).top
  rw [hat.2.2] at hok
  have hf : Frame c i s { (s.setState i .SLEEPING).setTop i (.sched (.asleep ch lk)) with
      chan := update s.chan i ch
      woke := update s.woke i none } :=
    (((Frame.setState .SLEEPING).trans (Frame.setTop _)).trans (Frame.setChan ch)).trans (Frame.setWoke none)
  refine h.ownAt hf hat hat.slot h.counted (.of_run hat.1 ?_) ⟨?_, ?_, ?_, ?_, ?_⟩ (fun _ => hat.1)
    (fun ch' j hw => hw.false_of_at (t := .sched (.asleep ch lk)) ⟨hat.1, hat.2.1, update_self ..⟩ (by simp))
    fun ch' lk' hin => Or.inl ?_
  · simp only [Core.setTop, update_self]
    exact ⟨Or.inl (update_self ..), hi, hq, rfl⟩
  · simp only [Core.setTop, Core.setState, update_self]
    exact ⟨rfl, hok, Or.inl rfl⟩
  · exact fun _ => ⟨ch, lk, Or.inr (update_self ..)⟩
  · simp [Core.setTop, Core.setState]
  · simp [Core.setTop, Core.setState]
  · simp [Core.setTop, Core.setState]
  · simp only [InSleep, Core.setTop, Core.setState, update_self] at hin
    rcases hin with hin | ⟨-, hin | hin⟩
    · cases hin
    · cases hin
    · cases hin
      exact Or.inl hat.2.2

theorem Inv.zombie (h : s.Inv) (hat : s.At c i .run) (hi : s.lock (.proc i) = some c) :
    ((s.setState i .ZOMBIE).setTop i (.sched .dead)).Inv := by
  have htop : ((s.setState i .ZOMBIE).setTop i (.sched .dead)).top i = .sched .dead := update_self ..
  have hst : ((s.setState i .ZOMBIE).setTop i (.sched .dead)).state i = .ZOMBIE := update_self ..
  have hat' : ((s.setState i .ZOMBIE).setTop i (.sched .dead)).At c i (.sched .dead) := ⟨hat.1, hat.2.1, htop⟩
  refine h.ownAt ((Frame.setState .ZOMBIE).trans (Frame.setTop _)) hat hat.slot h.counted (.of_run hat.1 ?_)
    ⟨?_, ?_, fun _ => Or.inr htop, ?_, ?_⟩ (fun _ => hat.1) (fun ch j hw => hw.false_of_at hat' (by simp))
    fun ch lk hin => ?_
  · rw [htop]
    exact ⟨Or.inr (Or.inr hst), hi, hat.2.1, rfl⟩
  · rw [htop]
    trivial
  · simp [hst]
  · simp [hst]
  · simp [hst]
  · simp [InSleep, hst, htop] at hin

/-- What a parked process knows does not depend on its state once it is runnable. -/
theorem TopOk.of_ne_sleeping {st st' : ProcState} {w : Option Cause} {t : Top} (h : TopOk st ch w t)
    (hst : st ≠ .SLEEPING) : TopOk st' ch w t := by
  induction t with
  | asleep ch' lk => exact ⟨h.1, h.2.1, Or.inr (h.2.2.resolve_left hst)⟩
  | sched t ih => exact ih h
  | _ => exact h

/-- A process that slept on its channel becomes runnable. -/
theorem Inv.rouse {j : Nat} {cause : Cause} (h : s.Inv) (hl : s.lock (.proc j) = none) (hst : s.state j = .SLEEPING)
    (hcause : Roused (s.chan j) (some cause)) :
    Inv { s.setState j .RUNNABLE with woke := update s.woke j (some cause) } := by
  obtain ⟨hoff, hpark⟩ := h.off_of_free hl (by rw [hst]; simp)
  have hst' : (s.setState j .RUNNABLE).state j = .RUNNABLE := update_self ..
  refine h.off (j := j) ⟨rfl, rfl, rfl, rfl, fun i hi => ⟨?_, rfl, ?_, rfl⟩⟩ hoff hpark ⟨?_, ?_, ?_, ?_, ?_⟩ ?_
  · exact update_of_ne hi _ _
  · exact update_of_ne hi _ _
  · obtain ⟨ch, lk, ht | ht⟩ := (h.slot j).sleeping hst
    · have hok := (h.slot j).top
      rw [ht] at hok
      simp only [hst', update_self]
      show TopOk _ (s.chan j) _ (s.top j)
      rw [ht]
      exact ⟨hok.1, hok.2.1, Or.inr (hok.1 ▸ hcause)⟩
    · rw [ht] at hpark
      cases hpark
  all_goals simp [hst']

/-- A slot that is free, in the making, or a zombie gets a new life or loses the old one. -/
theorem Inv.renew {s' : Core κ} {j : Nat} (h : s.Inv) (hl : s.lock (.proc j) = none)
    (hst : s.state j = .UNUSED ∨ s.state j = .USED ∨ s.state j = .ZOMBIE) (hf : Elsewhere j s s')
    (hst' : (s'.state j = .UNUSED ∧ (s'.top j = .fresh ∨ s'.top j = .dead)) ∨
      ((s'.state j = .USED ∨ s'.state j = .RUNNABLE) ∧ s'.top j = .fresh)) : s'.Inv := by
  obtain ⟨hoff, -⟩ := h.off_of_free hl (by rcases hst with hst | hst | hst <;> simp [hst])
  refine h.off hf hoff ?_ ⟨?_, ?_, ?_, ?_, ?_⟩ ?_
  · rcases hst' with ⟨-, ht | ht⟩ | ⟨-, ht⟩ <;> rw [ht] <;> rfl
  · rcases hst' with ⟨-, ht | ht⟩ | ⟨-, ht⟩ <;> rw [ht] <;> trivial
  all_goals rcases hst' with ⟨hs, ht | ht⟩ | ⟨hs | hs, ht⟩ <;> simp [hs, ht]

end process

section inv

variable {s : Core κ} {c : κ} {i : Nat} [DecidableEq κ]

theorem Inv.acquire {l : Lock} (h : s.Inv) (hl : s.lock l = none)
    (hc : s.irq c = .active ∨ ∃ i, s.At c i .run ∨ ∃ ch lk, s.At c i (.slept ch lk)) : (s.acquire c l).Inv := by
  have hf := Frame.acquire (c := c) (i := 0) hl
  refine h.cpuOnly rfl rfl rfl rfl rfl (fun c' hc' => ⟨rfl, hf.noff c' hc', fun l' => hf.lock c' l' hc'⟩)
    (h.counted.acquire hl) ?_ fun ch j lk hw _ => ?_
  · rcases hc with hq | ⟨i, hat | ⟨ch, lk, hat⟩⟩
    · rcases h.irq_cases (c := c) (by rw [hq]; simp) with ⟨k, hm⟩ | ⟨i, hm, hst, hpre⟩
      · exact .of_scan hm (Or.inl (by show s.irq c ≠ _; rw [hq]; simp))
      · exact .of_run hm (.of_preemptible hst hpre)
    all_goals
      exact .of_run hat.1 (.of_preemptible (h.at_runOk hat).1 (by show (s.top i).preemptible = _; rw [hat.2.2]; rfl))
  · rcases hc with hq | ⟨i, hat | ⟨ch, lk, hat⟩⟩
    · exact hw.false_of_active hq
    all_goals exact Wakes.false_of_at (s := s) hw hat (by simp)

theorem Inv.release {l : Lock} (h : s.Inv) (hl : s.lock l = some c) (hp : l.isProc = false)
    (hc : s.irq c = .active ∨ ∃ i, s.At c i .run ∨ (∃ ch lk, s.At c i (.sleep2 ch lk)) ∨ ∃ t, s.At c i (.sched t)) :
    (s.release c l).Inv := by
  have hf := Frame.release (i := 0) hl
  have hproc : ∀ k, (s.release c l).lock (.proc k) = s.lock (.proc k) := by
    intro k
    refine update_of_ne ?_ _ _
    rintro rfl
    cases hp
  refine h.cpuOnly rfl rfl rfl rfl rfl (fun c' hc' => ⟨rfl, hf.noff c' hc', fun l' => hf.lock c' l' hc'⟩)
    (h.counted.release hl) ?_ fun ch j lk hw _ => ?_
  · rcases hc with hq | ⟨i, hat | ⟨ch, lk, hat⟩ | ⟨t, hat⟩⟩
    · rcases h.irq_cases (c := c) (by rw [hq]; simp) with ⟨k, hm⟩ | ⟨i, hm, hst, hpre⟩
      · exact .of_scan hm (Or.inl (by show s.irq c ≠ _; rw [hq]; simp))
      · exact .of_run hm (.of_preemptible hst hpre)
    · exact .of_run hat.1 (.of_preemptible (h.at_runOk hat).1 (by show (s.top i).preemptible = _; rw [hat.2.2]; rfl))
    all_goals
      refine .of_run hat.1 ?_
      show RunOk _ c i (s.top i)
      have hrun := h.at_runOk hat
      rw [hat.2.2]
      exact ⟨hrun.1, (hproc i).trans hrun.2.1, hrun.2.2⟩
  · rcases hc with hq | ⟨i, hat | ⟨ch, lk, hat⟩ | ⟨t, hat⟩⟩
    · exact hw.false_of_active hq
    all_goals exact Wakes.false_of_at (s := s) hw hat (by simp)

/-- The interrupt handler of a CPU goes on. -/
theorem Inv.setIrq {q : Irq} (h : s.Inv)
    (hcpu : (∃ k, s.mode c = .scan k) ∧ (q ≠ .none ∨ s.noff c = 0) ∨
      ∃ i, s.mode c = .run i ∧ s.state i = .RUNNING ∧ (s.top i).preemptible = true)
    (hwakes : ∀ ch j lk, (s.setIrq c q).Wakes c ch j → s.lock lk = some c → ∀ i', i' < j → ¬ s.InSleep i' ch lk) :
    (s.setIrq c q).Inv := by
  refine h.cpuOnly rfl rfl rfl rfl rfl (fun c' hc' => ⟨update_of_ne hc' _ _, rfl, fun l' => Iff.rfl⟩)
    h.counted ?_ hwakes
  rcases hcpu with ⟨⟨k, hm⟩, hq⟩ | ⟨i, hm, hst, hpre⟩
  · exact .of_scan hm (hq.imp_left fun hne => by simpa [Core.setIrq] using hne)
  · exact .of_run hm (.of_preemptible hst hpre)

theorem Inv.interrupt (h : s.Inv) (hn : s.noff c = 0) : (s.setIrq c .active).Inv := by
  refine h.setIrq ?_ fun ch j lk _ hl => absurd hl (h.counted.not_held hn lk)
  cases hslot : (s.mode c).slot with
  | none =>
    cases hm : s.mode c with
    | scan k => exact Or.inl ⟨⟨k, rfl⟩, Or.inr hn⟩
    | _ =>
      rw [hm] at hslot
      cases hslot
  | some i =>
    rcases h.slot_cases hslot with ⟨hl, -⟩ | hrun
    · exact absurd hl (h.counted.not_held hn _)
    · exact Or.inr ⟨i, hrun⟩

/-- A step inside the handler. -/
theorem Inv.setIrq_of_ne {q : Irq} (h : s.Inv) (hq : s.irq c ≠ .none) (hq' : q ≠ .none ∨ s.noff c = 0)
    (hwakes : ∀ ch j lk, (s.setIrq c q).Wakes c ch j → s.lock lk = some c → ∀ i', i' < j → ¬ s.InSleep i' ch lk) :
    (s.setIrq c q).Inv :=
  h.setIrq ((h.irq_cases hq).imp_left fun hm => ⟨hm, hq'⟩) hwakes

theorem Wakes.of_setIrq {q : Irq} {ch : Chan} {j : Nat} (hw : (s.setIrq c q).Wakes c ch j) (hq : q ≠ .none) :
    q = .wake ch j := by
  rcases hw with hw | ⟨k, -, hw, -⟩
  · simpa [Core.setIrq] using hw
  · exact absurd (by simpa [Core.setIrq] using hw) hq

theorem Inv.irqPass {ch : Chan} {j : Nat} (h : s.Inv) (hq : s.irq c = .wake ch j) (hp : s.Passes c ch j) :
    (s.setIrq c (.wake ch (j + 1))).Inv := by
  refine h.setIrq_of_ne (by rw [hq]; simp) (Or.inl (by simp)) fun ch' j' lk hw hl i' hi' => ?_
  have heq := hw.of_setIrq (by simp)
  cases heq
  have hw' : s.Wakes c ch j := Or.inl hq
  rcases Nat.lt_succ_iff_lt_or_eq.1 hi' with hlt | rfl
  · exact h.woken c ch j lk hw' hl i' hlt
  · exact h.not_inSleep_of_passes hw' hp lk

theorem Inv.yield {t : Top} (h : s.Inv) (hat : s.At c i t) (ht : t.preemptible = true)
    (hi : s.lock (.proc i) = none) :
    (((s.acquire c (.proc i)).setState i .RUNNABLE).setTop i (.sched (.yielded t))).Inv := by
  have hst := h.running_of_preemptible hat ht
  have hok := (h.slot i).top
  rw [hst, hat.2.2] at hok
  have htop' : (((s.acquire c (.proc i)).setState i .RUNNABLE).setTop i (.sched (.yielded t))).top i =
      .sched (.yielded t) := update_self ..
  have hst' : (((s.acquire c (.proc i)).setState i .RUNNABLE).setTop i (.sched (.yielded t))).state i = .RUNNABLE :=
    update_self ..
  refine h.ownAt (((Frame.acquire hi).trans (Frame.setState .RUNNABLE)).trans (Frame.setTop _)) hat hat.slot
    (h.counted.acquire hi) (.of_run hat.1 ?_) ⟨?_, ?_, ?_, ?_, ?_⟩ (fun _ => hat.1)
    (fun ch j hw => hw.false_of_at ⟨hat.1, hat.2.1, htop'⟩ (by simp)) fun ch lk hin => ?_
  · rw [htop']
    exact ⟨Or.inr (Or.inl hst'), update_self .., hat.2.1, rfl⟩
  · rw [htop']
    exact ⟨ht, hok⟩
  all_goals simp only [InSleep, hst', htop'] at *
  all_goals simp at *

theorem Inv.swtch {t : Top} (h : s.Inv) (hat : s.At c i (.sched t)) (hn : s.noff c = 1) :
    ((s.setTop i t).setMode c (.back i)).Inv := by
  obtain ⟨hoff, hl, hq, hpark⟩ := h.at_runOk hat
  have htop : ((s.setTop i t).setMode c (.back i)).top i = t := update_self ..
  have hmode : ((s.setTop i t).setMode c (.back i)).mode c = .back i := update_self ..
  have hslot := h.slot i
  refine h.ownAt ((Frame.setTop t).trans (Frame.setMode _)) hat (by rw [hmode]; rfl) h.counted ?_ ⟨?_, ?_, ?_, ?_, ?_⟩
    (fun hp => ?_) (fun ch j hw => hw.false_of_mode hq (by simp [hmode])) fun ch lk hin => Or.inl ?_
  · unfold CpuOk
    rw [hmode]
    exact ⟨⟨hl, hq, hn, by rw [htop]; exact hpark⟩, hoff⟩
  · have hok := hslot.top
    rw [hat.2.2] at hok
    rw [htop]
    exact hok
  · intro hst
    obtain ⟨ch, lk, ht | ht⟩ := hslot.sleeping hst
    · rw [hat.2.2] at ht
      cases ht
    · rw [hat.2.2] at ht
      cases ht
      exact ⟨ch, lk, Or.inl htop⟩
  · intro hst
    rcases hslot.zombie hst with ht | ht
    · rw [hat.2.2] at ht
      cases ht
    · rw [hat.2.2] at ht
      cases ht
      exact Or.inl htop
  · intro hst
    rcases hslot.unused hst with ht | ht <;> rw [hat.2.2] at ht <;> cases ht
  · intro hst
    have ht := hslot.used hst
    rw [hat.2.2] at ht
    cases ht
  · rw [htop, hpark] at hp
    cases hp
  · rcases hin with ht | ⟨hst, ht | ht⟩
    · rw [htop] at ht
      rw [ht] at hpark
      cases hpark
    · rw [htop] at ht
      exact Or.inr ⟨hst, Or.inr (by rw [hat.2.2, ht])⟩
    · rw [htop] at ht
      rw [ht] at hpark
      cases hpark

/-- A process that has been switched in drops its lock and goes on. -/
theorem Inv.unpark {t t' : Top} {ch : Chan} (h : s.Inv) (hat : s.At c i t) (ht : t.parked = true)
    (ht' : t'.preemptible = true) (hok : TopOk .RUNNING ch (s.woke i) t') :
    Inv { (s.release c (.proc i)).setTop i t' with chan := update s.chan i ch } := by
  obtain ⟨hst, hl, hq, hn⟩ : s.state i = .RUNNING ∧ s.lock (.proc i) = some c ∧ s.irq c = .none ∧ s.noff c = 1 := by
    have hrun := h.at_runOk hat
    cases t with
    | asleep ch lk | yielded t | fresh | dead => exact ⟨hrun.1, hrun.2 rfl⟩
    | _ => cases ht
  have htop' : ((s.release c (.proc i)).setTop i t').top i = t' := update_self ..
  have hcounted := h.counted.release hl
  have hn' : (s.release c (.proc i)).noff c = 0 := by
    simp [Core.release, hn]
  have hne : ∀ ch lk, ((s.release c (.proc i)).setTop i t').top i ≠ .sleep2 ch lk := by
    intro ch lk heq
    rw [htop'] at heq
    rw [heq] at ht'
    cases ht'
  refine h.own (((Frame.release hl).trans (Frame.setTop t')).trans (Frame.setChan ch)) (Or.inl hat.slot)
    (fun k hk => (Option.some.inj (hat.slot.symm.trans hk)).symm) hcounted (.of_run hat.1 ?_) (.of_running hst ?_)
    (fun _ => hat.1) (fun ch j lk _ hl' => absurd hl' (hcounted.not_held hn' lk))
    fun ch lk hin => hin.false_of_running hst hne
  · simp only [htop']
    exact .of_preemptible hst ht'
  · simp only [htop', update_self]
    exact hok

/-- The CPU goes on around `swtch`. -/
theorem Inv.setMode {m : Mode} (h : s.Inv) (hslot : (s.mode c).slot = some i) (hslot' : m.slot = some i)
    (hcpu : (s.setMode c m).CpuOk c) (hpark : (s.top i).parked = true) (hw : ∀ ch j, ¬ (s.setMode c m).Wakes c ch j) :
    (s.setMode c m).Inv := by
  have hmode : (s.setMode c m).mode c = m := update_self ..
  refine h.own (Frame.setMode m) (Or.inl hslot) (fun k hk => ?_) h.counted hcpu
    ((h.slot i).frame rfl rfl rfl rfl) (fun hp => ?_) (fun ch j lk hw' => absurd hw' (hw ch j)) fun ch lk hin => Or.inl hin
  · rw [hmode, hslot'] at hk
    exact (Option.some.inj hk).symm
  · have hp' : (s.top i).parked = false := hp
    rw [hpark] at hp'
    cases hp'

theorem Inv.choose {k : Nat} (h : s.Inv) (hm : s.mode c = .scan k) (hq : s.irq c = .none) (hl : s.lock (.proc i) = none)
    (hst : s.state i = .RUNNABLE) : (((s.acquire c (.proc i)).setState i .RUNNING).setMode c (.chosen i)).Inv := by
  obtain ⟨hoff, hpark⟩ := h.off_of_free hl (by rw [hst]; simp)
  have hn : s.noff c = 0 := by
    have hcpu := h.cpu c
    unfold CpuOk at hcpu
    rw [hm] at hcpu
    exact hcpu hq
  have hmode : (((s.acquire c (.proc i)).setState i .RUNNING).setMode c (.chosen i)).mode c = .chosen i :=
    update_self ..
  have hst' : (((s.acquire c (.proc i)).setState i .RUNNING).setMode c (.chosen i)).state i = .RUNNING :=
    update_self ..
  have hok := (h.slot i).top
  refine h.own (((Frame.acquire hl).trans (Frame.setState .RUNNING)).trans (Frame.setMode _))
    (Or.inr ⟨by rw [hm]; rfl, hoff⟩) (fun k hk => ?_) (h.counted.acquire hl) ?_ (.of_running hst' ?_) (fun hp => ?_)
    (fun ch j lk hw => hw.false_of_mode hq (by simp [hmode]))
    fun ch lk hin => hin.false_of_running hst' fun ch lk ht => ?_
  · rw [hmode] at hk
    exact (Option.some.inj hk).symm
  · unfold CpuOk
    rw [hmode]
    refine ⟨⟨update_self .., hq, ?_, hpark⟩, hst'⟩
    simp [Core.setMode, Core.setState, Core.acquire, hn]
  · exact hok.of_ne_sleeping (by rw [hst]; simp)
  · have hp' : (s.top i).parked = false := hp
    rw [hpark] at hp'
    cases hp'
  · have ht' : s.top i = .sleep2 ch lk := ht
    rw [ht'] at hpark
    cases hpark

theorem Inv.leave {k : Nat} (h : s.Inv) (hm : s.mode c = .left i) :
    ((s.release c (.proc i)).setMode c (.scan k)).Inv := by
  have hcpu := h.cpu c
  unfold CpuOk at hcpu
  rw [hm] at hcpu
  obtain ⟨⟨hl, hq, hn, hpark⟩, -⟩ := hcpu
  have hmode : ((s.release c (.proc i)).setMode c (.scan k)).mode c = .scan k := update_self ..
  refine h.own ((Frame.release hl).trans (Frame.setMode _)) (Or.inl (by rw [hm]; rfl)) (fun k hk => ?_)
    (h.counted.release hl) (.of_scan hmode (Or.inr ?_)) ((h.slot i).frame rfl rfl rfl rfl) (fun hp => ?_)
    (fun ch j lk hw => hw.false_of_mode hq (by simp [hmode])) fun ch lk hin => Or.inl hin
  · rw [hmode] at hk
    cases hk
  · simp [Core.setMode, Core.release, hn]
  · have hp' : (s.top i).parked = false := hp
    rw [hpark] at hp'
    cases hp'

theorem Inv.skip {k k' : Nat} (h : s.Inv) (hm : s.mode c = .scan k) : (s.setMode c (.scan k')).Inv := by
  have hslot : ∀ c', ((s.setMode c (.scan k')).mode c').slot = (s.mode c').slot := by
    intro c'
    by_cases hc : c' = c
    · subst hc
      rw [hm]
      simp [Core.setMode, Mode.slot]
    · simp [Core.setMode, update_of_ne hc]
  have hrun : ∀ c' j, (s.setMode c (.scan k')).mode c' = .run j ↔ s.mode c' = .run j := by
    intro c' j
    by_cases hc : c' = c
    · subst hc
      simp [Core.setMode, hm]
    · simp [Core.setMode, update_of_ne hc]
  refine ⟨h.counted, fun c' => ?_, fun i => (h.slot i).frame rfl rfl rfl rfl, fun c₁ c₂ j h₁ h₂ => ?_, fun j hp => ?_,
    fun c' ch j lk hw hl => ?_⟩
  · by_cases hc : c' = c
    · subst hc
      refine .of_scan (k := k') (update_self ..) ?_
      have hcpu := h.cpu c'
      unfold CpuOk at hcpu
      rw [hm] at hcpu
      exact (Classical.em (s.irq c' = .none)).symm.imp_right hcpu
    · exact (h.cpu c').frame (update_of_ne hc _ _) rfl rfl (fun _ _ => ⟨rfl, rfl⟩) fun _ hl => hl
  · rw [hslot] at h₁ h₂
    exact h.uniq c₁ c₂ j h₁ h₂
  · obtain ⟨c', hc'⟩ := h.onCpu j hp
    exact ⟨c', (hrun c' j).2 hc'⟩
  · refine h.woken c' ch j lk (hw.imp_right ?_) hl
    rintro ⟨i, hm', hq, ht⟩
    exact ⟨i, (hrun c' i).1 hm', hq, ht⟩

/-- **Every step keeps the invariant.** -/
theorem Inv.step {N : Nat} {s s' : Core κ} (h : s.Inv) (hstep : Step N s s') : s'.Inv := by
  cases hstep with
  | acquire hl hc => exact h.acquire hl hc
  | release hl hp hc => exact h.release hl hp hc
  | interrupt hq hn => exact h.interrupt hn
  | irqWake hq =>
    refine h.setIrq_of_ne (by rw [hq]; simp) (Or.inl (by simp)) fun ch j lk hw _ i' hi' => ?_
    have heq := hw.of_setIrq (by simp)
    cases heq
    exact absurd hi' (Nat.not_lt_zero i')
  | irqPass hq hp => exact h.irqPass hq hp
  | irqDone hq =>
    refine h.setIrq_of_ne (by rw [hq]; simp) (Or.inl (by simp)) fun ch j lk hw _ i' _ => ?_
    have heq := hw.of_setIrq (by simp)
    cases heq
  | irqLeave hq hn =>
    exact h.setIrq_of_ne (by rw [hq]; simp) (Or.inr hn) fun ch j lk _ hl => absurd hl (h.counted.not_held hn lk)
  | wake hat =>
    refine h.setTop hat rfl rfl trivial fun ch j lk heq _ i' hi' => ?_
    cases heq
    exact absurd hi' (Nat.not_lt_zero i')
  | pass hat hp => exact h.pass hat hp
  | done hat | regain hat => exact h.setTop hat rfl rfl trivial (by simp)
  | sleep hat hi hlk hp => exact h.sleep hat hi hlk hp
  | drop hat => exact h.drop hat
  | doze hat => exact h.doze hat
  | zombie hat hi => exact h.zombie hat hi
  | yield hat ht hn hi => exact h.yield hat ht hi
  | swtch hat hn => exact h.swtch hat hn
  | @rise c i ch lk hat =>
    have hok := (h.slot i).top
    have hrun := h.at_runOk hat
    rw [hat.2.2, hrun.1] at hok
    exact h.unpark hat rfl rfl ⟨rfl, hok.2.2.resolve_left (by simp), hok.2.1⟩
  | @resume c i t hat =>
    have hok := (h.slot i).top
    rw [hat.2.2] at hok
    have hun := h.unpark hat rfl hok.1 hok.2
    rwa [update_eq_self] at hun
  | @forkret c i hat =>
    have hun := h.unpark hat rfl (show Top.run.preemptible = true from rfl)
      (show TopOk .RUNNING (s.chan i) (s.woke i) .run from trivial)
    rwa [update_eq_self] at hun
  | skip hm => exact h.skip hm
  | choose hm hq hl hst => exact h.choose hm hq hl hst
  | @load c i hm =>
    have hh := h.handoff hm (Or.inl rfl)
    have hmode : (s.setMode c (.loaded i)).mode c = .loaded i := update_self ..
    refine h.setMode (i := i) (by rw [hm]; rfl) rfl ?_ hh.parked fun ch j hw => hw.false_of_mode hh.irq (by simp [hmode])
    have hcpu := h.cpu c
    unfold CpuOk at hcpu ⊢
    rw [hm] at hcpu
    rw [hmode]
    exact ⟨⟨hh.lock, hh.irq, hh.noff, hh.parked⟩, hcpu.2⟩
  | @switch c i hm =>
    have hh := h.handoff hm (Or.inr (Or.inl rfl))
    have hmode : (s.setMode c (.run i)).mode c = .run i := update_self ..
    have hst : s.state i = .RUNNING := by
      have hcpu := h.cpu c
      unfold CpuOk at hcpu
      rw [hm] at hcpu
      exact hcpu.2
    refine h.setMode (i := i) (by rw [hm]; rfl) rfl (.of_run hmode ?_) hh.parked fun ch j hw => ?_
    · exact .of_parked hst hh.parked hh.lock hh.irq hh.noff
    · refine hw.false_of_at (t := s.top i) ⟨hmode, hh.irq, rfl⟩ fun ch j heq => ?_
      have hpark := hh.parked
      rw [heq] at hpark
      cases hpark
  | @kvminithart c i hm =>
    have hh := h.handoff hm (Or.inr (Or.inr (Or.inl rfl)))
    have hmode : (s.setMode c (.left i)).mode c = .left i := update_self ..
    refine h.setMode (i := i) (by rw [hm]; rfl) rfl ?_ hh.parked fun ch j hw => hw.false_of_mode hh.irq (by simp [hmode])
    have hcpu := h.cpu c
    unfold CpuOk at hcpu ⊢
    rw [hm] at hcpu
    rw [hmode]
    exact ⟨⟨hh.lock, hh.irq, hh.noff, hh.parked⟩, hcpu.2⟩
  | leave hm => exact h.leave hm
  | rouse hl hst hcause => exact h.rouse hl hst hcause
  | renew hl hst hf hst' => exact h.renew hl hst hf hst'

theorem Inv.steps {N : Nat} {s s' : Core κ} (h : s.Inv) (hsteps : Relation.ReflTransGen (Step N) s s') : s'.Inv := by
  induction hsteps with
  | refl => exact h
  | tail _ hstep ih => exact ih.step hstep

end inv

end Core

end Xv6.Sched
