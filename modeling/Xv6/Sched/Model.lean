import Xv6.Proc.Basic
import Xv6.Lib.Transition

/-!
# Processes and CPUs

The process table of `kernel/proc.c` with any number of CPUs: `scheduler`, `sched`, `yield`, `sleep`,
`wakeup`, `kill`, `fork`, `exit`, `wait` and the trap path, interleaved at the granularity of locks.

* `Base` — the call that a process is in; `Top` — where it is in `wakeup`, `sleep`, `yield` or `sched` on the
  way; `Mode` — where a CPU is.
* `Sys` — the process table, the locks, the CPUs.  A section under one `p->lock` that takes no other lock of
  the table is one step.  The fields `birth` to `kills` only record: no step depends on them.
* `enabled`, `next` — the steps.  A panic is a step that is not enabled.

Left to the caller: the code of system calls and interrupt handlers outside `kernel/proc.c` takes and drops
locks, sleeps, wakes and changes the files of its process in any order.  It sleeps and wakes on channels that
are not processes, and does not take `wait_lock`.
-/

namespace Xv6.Sched

/-- A sleep channel; `wait` sleeps on the process itself. -/
inductive Chan where
  | null
  | proc (i : Nat)
  | other (n : Nat)
  deriving DecidableEq

inductive Lock where
  /-- `p->lock`. -/
  | proc (i : Nat)
  /-- `wait_lock`. -/
  | wait
  | other (n : Nat)
  deriving DecidableEq

inductive Satp where
  | kernel
  /-- `MAKE_SATP(p->kpagetable)`. -/
  | table (t : Option Nat)
  /-- `MAKE_SATP(p->pagetable)`. -/
  | user (i : Nat)
  deriving DecidableEq

inductive Stack where
  /-- The stack of the scheduler. -/
  | boot
  | page (p : Option Nat)
  | user
  deriving DecidableEq

/-- The call that a process is in. -/
inductive Base where
  | user
  /-- Code outside `kernel/proc.c`. -/
  | kernel
  /-- `exit`: the files below `fd` are closed; then the working directory; then `wait_lock` is taken. -/
  | closing (status : Int) (fd : Nat)
  | cwd (status : Int)
  | exitLock (status : Int)
  /-- `reparent` at slot `j`. -/
  | reparent (status : Int) (j : Nat)
  /-- `exit` between `wakeup(p->parent)` and `acquire(&p->lock)`. -/
  | exitOwn (status : Int)
  | zombie
  /-- `kill(pid)` at slot `j`. -/
  | kill (pid : Int) (j : Nat)
  /-- `allocproc` at slot `j`; then the child gets its parent; then it becomes runnable. -/
  | alloc (j : Nat)
  | link (j : Nat)
  | start (j : Nat)
  /-- `wait` at slot `j`, and before `sleep(p, &wait_lock)`. -/
  | scan (j : Nat) (havekids : Bool)
  | waitSleep
  deriving DecidableEq

/-- Where a process is in the functions that take it off a CPU, or in `wakeup`. -/
inductive Top where
  | run
  /-- `wakeup(ch)` at slot `j`. -/
  | wake (ch : Chan) (j : Nat)
  /-- `sleep(ch, lk)` with `p->lock` and `lk`; with `p->lock` only; in `swtch`; before `acquire(lk)`. -/
  | sleep1 (ch : Chan) (lk : Lock)
  | sleep2 (ch : Chan) (lk : Lock)
  | asleep (ch : Chan) (lk : Lock)
  | slept (ch : Chan) (lk : Lock)
  /-- In the `swtch` of `yield`. -/
  | yielded (t : Top)
  /-- Before `forkret`. -/
  | fresh
  | dead
  /-- In `sched` before `swtch`, which returns to `t`. -/
  | sched (t : Top)
  deriving DecidableEq

/-- Where a CPU is: in `scheduler` before it takes the lock of slot `i`, after `c->proc = p`, after `w_satp`;
in the process; after `swtch`, after `kvminithart`. -/
inductive Mode where
  | scan (i : Nat)
  | chosen (i : Nat)
  | loaded (i : Nat)
  | run (i : Nat)
  | back (i : Nat)
  | left (i : Nat)
  deriving DecidableEq

/-- The interrupt handler of a CPU. -/
inductive Irq where
  | none
  | active
  | wake (ch : Chan) (j : Nat)
  deriving DecidableEq

/-- What made a process runnable that slept. -/
inductive Cause where
  | wakeup (ch : Chan)
  | kill (pid : Int)
  deriving DecidableEq

/-- What `allocproc` does not write. -/
structure Leftover where
  killed : Bool
  chan : Chan
  xstate : Int
  parent : Option Nat
  ofile : Nat → Option Nat
  cwd : Option Nat

/-- A process that has exited, or that `wait` has returned. -/
structure Exit where
  birth : Nat
  pid : Int
  xstate : Int
  deriving DecidableEq

/-- What a call of `kill` found: the state and the pid of the slot that it changed. -/
structure Killed where
  pid : Int
  found : Option (ProcState × Int)
  deriving DecidableEq

structure Sys (κ : Type) where
  -- `struct proc`
  state : Nat → ProcState
  chan : Nat → Chan
  killed : Nat → Bool
  xstate : Nat → Int
  pid : Nat → Int
  parent : Nat → Option Nat
  ofile : Nat → Nat → Option Nat
  cwd : Nat → Option Nat
  kpagetable : Nat → Option Nat
  /-- The page of the kernel stack; `procinit` puts another address into slots that were never used. -/
  kstack : Nat → Option Nat
  /-- `p->context.sp`. -/
  contextSp : Nat → Stack
  /-- `p->trapframe->kernel_satp` and `p->trapframe->kernel_sp`. -/
  kernelSatp : Nat → Satp
  kernelSp : Nat → Stack
  base : Nat → Base
  top : Nat → Top
  nextpid : Int
  lock : Lock → Option κ
  -- `struct cpu` and registers
  mode : κ → Mode
  cproc : κ → Option Nat
  noff : κ → Nat
  satp : κ → Satp
  stack : κ → Stack
  irq : κ → Irq
  -- records
  /-- Processes are numbered as they are created. -/
  birth : Nat → Nat
  births : Nat
  woke : Nat → Option Cause
  exits : List Exit
  reaped : List Exit
  allocated : List Leftover
  kills : List Killed

variable {κ : Type} [DecidableEq κ]

namespace Sys

def acquire (s : Sys κ) (c : κ) (l : Lock) : Sys κ :=
  { s with lock := Function.update s.lock l (some c), noff := Function.update s.noff c (s.noff c + 1) }

def release (s : Sys κ) (c : κ) (l : Lock) : Sys κ :=
  { s with lock := Function.update s.lock l none, noff := Function.update s.noff c (s.noff c - 1) }

def setTop (s : Sys κ) (i : Nat) (t : Top) : Sys κ := { s with top := Function.update s.top i t }

def setBase (s : Sys κ) (i : Nat) (b : Base) : Sys κ := { s with base := Function.update s.base i b }

def setMode (s : Sys κ) (c : κ) (m : Mode) : Sys κ := { s with mode := Function.update s.mode c m }

def setIrq (s : Sys κ) (c : κ) (q : Irq) : Sys κ := { s with irq := Function.update s.irq c q }

def setState (s : Sys κ) (i : Nat) (st : ProcState) : Sys κ := { s with state := Function.update s.state i st }

/-- The body of the loop of `wakeup` for a process that sleeps on `ch`. -/
def rouse (s : Sys κ) (j : Nat) (cause : Cause) : Sys κ :=
  { s with state := Function.update s.state j .RUNNABLE, woke := Function.update s.woke j (some cause) }

def freeproc (s : Sys κ) (p : Nat) : Sys κ :=
  { s with
    kstack := Function.update s.kstack p none
    kpagetable := Function.update s.kpagetable p none
    pid := Function.update s.pid p 0
    parent := Function.update s.parent p none
    chan := Function.update s.chan p .null
    killed := Function.update s.killed p false
    xstate := Function.update s.xstate p 0
    state := Function.update s.state p .UNUSED }

/-- `nextpid + 1` for `int`. -/
def allocpid (s : Sys κ) : Sys κ := { s with nextpid := Int.bmod (s.nextpid + 1) (2 ^ 32) }

def leftover (s : Sys κ) (p : Nat) : Leftover :=
  ⟨s.killed p, s.chan p, s.xstate p, s.parent p, s.ofile p, s.cwd p⟩

/-- What `allocproc` writes when it finds slot `p` and gets the pages `a` for the root of the kernel page
table and `b` for the kernel stack. -/
def allocproc (s : Sys κ) (p a b : Nat) : Sys κ :=
  { s.allocpid with
    pid := Function.update s.pid p s.nextpid
    state := Function.update s.state p .USED
    kpagetable := Function.update s.kpagetable p (some a)
    kstack := Function.update s.kstack p (some b)
    contextSp := Function.update s.contextSp p (.page (some b))
    top := Function.update s.top p .fresh
    base := Function.update s.base p .kernel
    birth := Function.update s.birth p s.births
    births := s.births + 1
    allocated := s.allocated ++ [s.leftover p] }

/-- What `fork` copies from `p` to `np`. -/
def copyProc (s : Sys κ) (p np : Nat) : Sys κ :=
  { s with
    kernelSatp := Function.update s.kernelSatp np (s.kernelSatp p)
    kernelSp := Function.update s.kernelSp np (s.kernelSp p)
    ofile := Function.update s.ofile np fun fd =>
      if fd < NOFILE ∧ (s.ofile p fd).isSome then s.ofile p fd else s.ofile np fd
    cwd := Function.update s.cwd np (s.cwd p) }

/-- The chan that `wakeup(p->parent)` is called with. -/
def parentChan (s : Sys κ) (p : Nat) : Chan :=
  match s.parent p with
  | some q => .proc q
  | none => .null

/-- The process `i` on CPU `c`, outside interrupt handlers. -/
def Runs (s : Sys κ) (c : κ) (i : Nat) (b : Base) (t : Top) : Prop :=
  s.mode c = .run i ∧ s.irq c = .none ∧ s.base i = b ∧ s.top i = t

instance (s : Sys κ) (c : κ) (i : Nat) (b : Base) (t : Top) : Decidable (s.Runs c i b t) :=
  inferInstanceAs (Decidable (_ ∧ _ ∧ _ ∧ _))

end Sys

/-- `initproc`: `userinit` finds the first slot. -/
def initproc : Nat := 0

/-- Code outside `kernel/proc.c`, which may lock, sleep and wake. -/
def Base.generic : Base → Bool
  | .kernel => true
  | .closing _ _ => true
  | .cwd _ => true
  | _ => false

/-! ## The scheduler -/

inductive SchedAct where
  | skip (i : Nat)
  | choose (i : Nat)
  | load (i : Nat)
  | switch (i : Nat)
  | kvminithart (i : Nat)
  | leave (i : Nat)

def SchedAct.enabled (N : Nat) (s : Sys κ) (c : κ) : SchedAct → Prop
  | .skip i => s.mode c = .scan i ∧ s.irq c = .none ∧ i < N ∧ s.lock (.proc i) = none ∧ s.state i ≠ .RUNNABLE
  | .choose i => s.mode c = .scan i ∧ s.irq c = .none ∧ i < N ∧ s.lock (.proc i) = none ∧ s.state i = .RUNNABLE
  | .load i => s.mode c = .chosen i
  | .switch i => s.mode c = .loaded i
  | .kvminithart i => s.mode c = .back i
  | .leave i => s.mode c = .left i ∧ s.lock (.proc i) = some c

instance (a : SchedAct) (N : Nat) (s : Sys κ) (c : κ) : Decidable (a.enabled N s c) := by
  cases a <;> dsimp only [SchedAct.enabled] <;> infer_instance

def SchedAct.next (N : Nat) (s : Sys κ) (c : κ) : SchedAct → Sys κ
  | .skip i => s.setMode c (.scan ((i + 1) % N))
  | .choose i =>
    { ((s.acquire c (.proc i)).setState i .RUNNING).setMode c (.chosen i) with
      cproc := Function.update s.cproc c (some i) }
  | .load i => { s.setMode c (.loaded i) with satp := Function.update s.satp c (.table (s.kpagetable i)) }
  | .switch i => { s.setMode c (.run i) with stack := Function.update s.stack c (s.contextSp i) }
  | .kvminithart i => { s.setMode c (.left i) with satp := Function.update s.satp c .kernel }
  | .leave i =>
    { (s.release c (.proc i)).setMode c (.scan ((i + 1) % N)) with cproc := Function.update s.cproc c none }

/-! ## Interrupt handlers -/

inductive IrqAct where
  | enter
  | acquire (n : Nat)
  | release (n : Nat)
  | wakeup (n : Nat)
  /-- The loop of `wakeup` passes slot `j`. -/
  | pass (ch : Chan) (j : Nat)
  | rouse (ch : Chan) (j : Nat)
  | done (ch : Chan)
  | leave

/-- An interrupt comes only when the CPU holds no lock; from user space it comes through `usertrap`. -/
def IrqAct.enabled (N : Nat) (s : Sys κ) (c : κ) : IrqAct → Prop
  | .enter => s.irq c = .none ∧ s.noff c = 0 ∧ ∀ i ∈ s.cproc c, s.base i ≠ .user
  | .acquire n => s.irq c = .active ∧ s.lock (.other n) = none
  | .release n => s.irq c = .active ∧ s.lock (.other n) = some c
  | .wakeup _ => s.irq c = .active
  | .pass ch j =>
    s.irq c = .wake ch j ∧ j < N ∧
      (s.cproc c = some j ∨ s.lock (.proc j) = none ∧ ¬ (s.state j = .SLEEPING ∧ s.chan j = ch))
  | .rouse ch j =>
    s.irq c = .wake ch j ∧ j < N ∧ s.cproc c ≠ some j ∧ s.lock (.proc j) = none ∧ s.state j = .SLEEPING ∧ s.chan j = ch
  | .done ch => s.irq c = .wake ch N
  | .leave => s.irq c = .active ∧ s.noff c = 0

instance (a : IrqAct) (N : Nat) (s : Sys κ) (c : κ) : Decidable (a.enabled N s c) := by
  cases a <;> dsimp only [IrqAct.enabled] <;> infer_instance

def IrqAct.next (s : Sys κ) (c : κ) : IrqAct → Sys κ
  | .enter => s.setIrq c .active
  | .acquire n => s.acquire c (.other n)
  | .release n => s.release c (.other n)
  | .wakeup n => s.setIrq c (.wake (.other n) 0)
  | .pass ch j => s.setIrq c (.wake ch (j + 1))
  | .rouse ch j => (s.rouse j (.wakeup ch)).setIrq c (.wake ch (j + 1))
  | .done _ => s.setIrq c .active
  | .leave => s.setIrq c .none

/-! ## Traps, locks, `sleep`, `wakeup`, `yield` -/

inductive ThreadAct where
  /-- `uservec` and `usertrapret`. -/
  | trap
  | usertrapret
  | acquire (n : Nat)
  | release (n : Nat)
  | setFile (fd : Nat) (f : Option Nat)
  | chdir (d : Option Nat)
  | setkilled
  | wakeup (n : Nat)
  | pass (ch : Chan) (j : Nat)
  | rouse (ch : Chan) (j : Nat)
  | done (ch : Chan)
  /-- `sleep`: `acquire(&p->lock)`; `release(lk)`; `p->chan = chan`, `p->state = SLEEPING`. -/
  | sleep (n m : Nat)
  | drop (ch : Chan) (lk : Lock)
  | doze (ch : Chan) (lk : Lock)
  /-- `swtch` in `sched`. -/
  | swtch (t : Top)
  /-- `sleep` after `sched`: `p->chan = 0`, `release(&p->lock)`; `acquire(lk)`. -/
  | rise (ch : Chan) (lk : Lock)
  | regain (ch : Chan) (lk : Lock)
  | yield (t : Top)
  | resume (t : Top)
  | forkret

/-- A timer interrupt comes only when the CPU holds no lock. -/
def Top.preemptible : Top → Bool
  | .run => true
  | .wake _ _ => true
  | .slept _ _ => true
  | _ => false

def ThreadAct.enabled (N : Nat) (s : Sys κ) (c : κ) (i : Nat) : ThreadAct → Prop
  | .trap => s.Runs c i .user .run
  | .usertrapret => s.Runs c i .kernel .run
  | .acquire n => s.Runs c i (s.base i) .run ∧ (s.base i).generic ∧ s.lock (.other n) = none
  | .release n => s.Runs c i (s.base i) .run ∧ (s.base i).generic ∧ s.lock (.other n) = some c
  | .setFile fd _ => s.Runs c i .kernel .run ∧ fd < NOFILE
  | .chdir _ => s.Runs c i .kernel .run
  | .setkilled => s.Runs c i .kernel .run ∧ s.lock (.proc i) = none
  | .wakeup _ => s.Runs c i (s.base i) .run ∧ (s.base i).generic
  | .pass ch j =>
    s.Runs c i (s.base i) (.wake ch j) ∧ j < N ∧
      (j = i ∨ s.lock (.proc j) = none ∧ ¬ (s.state j = .SLEEPING ∧ s.chan j = ch))
  | .rouse ch j =>
    s.Runs c i (s.base i) (.wake ch j) ∧ j < N ∧ j ≠ i ∧ s.lock (.proc j) = none ∧ s.state j = .SLEEPING ∧ s.chan j = ch
  | .done ch => s.Runs c i (s.base i) (.wake ch N)
  | .sleep _ m =>
    s.Runs c i (s.base i) .run ∧ (s.base i).generic ∧ s.lock (.other m) = some c ∧ s.lock (.proc i) = none
  | .drop ch lk => s.Runs c i (s.base i) (.sleep1 ch lk) ∧ s.lock lk = some c
  | .doze ch lk => s.Runs c i (s.base i) (.sleep2 ch lk)
  | .swtch t => s.Runs c i (s.base i) (.sched t) ∧ s.lock (.proc i) = some c ∧ s.noff c = 1
  | .rise ch lk => s.Runs c i (s.base i) (.asleep ch lk) ∧ s.lock (.proc i) = some c
  | .regain ch lk => s.Runs c i (s.base i) (.slept ch lk) ∧ s.lock lk = none
  | .yield t =>
    s.Runs c i (s.base i) t ∧ t.preemptible ∧ s.base i ≠ .user ∧ s.noff c = 0 ∧ s.lock (.proc i) = none
  | .resume t => s.Runs c i (s.base i) (.yielded t) ∧ s.lock (.proc i) = some c
  | .forkret => s.Runs c i (s.base i) .fresh ∧ s.lock (.proc i) = some c

instance (a : ThreadAct) (N : Nat) (s : Sys κ) (c : κ) (i : Nat) : Decidable (a.enabled N s c i) := by
  cases a <;> dsimp only [ThreadAct.enabled] <;> infer_instance

def ThreadAct.next (s : Sys κ) (c : κ) (i : Nat) : ThreadAct → Sys κ
  | .trap =>
    { s.setBase i .kernel with
      satp := Function.update s.satp c (s.kernelSatp i)
      stack := Function.update s.stack c (s.kernelSp i) }
  | .usertrapret =>
    { s.setBase i .user with
      kernelSatp := Function.update s.kernelSatp i (s.satp c)
      kernelSp := Function.update s.kernelSp i (.page (s.kstack i))
      satp := Function.update s.satp c (.user i)
      stack := Function.update s.stack c .user }
  | .acquire n => s.acquire c (.other n)
  | .release n => s.release c (.other n)
  | .setFile fd f => { s with ofile := Function.update s.ofile i (Function.update (s.ofile i) fd f) }
  | .chdir d => { s with cwd := Function.update s.cwd i d }
  | .setkilled => { s with killed := Function.update s.killed i true }
  | .wakeup n => s.setTop i (.wake (.other n) 0)
  | .pass ch j => s.setTop i (.wake ch (j + 1))
  | .rouse ch j => (s.rouse j (.wakeup ch)).setTop i (.wake ch (j + 1))
  | .done _ => s.setTop i .run
  | .sleep n m => (s.acquire c (.proc i)).setTop i (.sleep1 (.other n) (.other m))
  | .drop ch lk => (s.release c lk).setTop i (.sleep2 ch lk)
  | .doze ch lk =>
    { (s.setState i .SLEEPING).setTop i (.sched (.asleep ch lk)) with
      chan := Function.update s.chan i ch
      woke := Function.update s.woke i none }
  | .swtch t =>
    { (s.setTop i t).setMode c (.back i) with
      contextSp := Function.update s.contextSp i (s.stack c)
      stack := Function.update s.stack c .boot }
  | .rise ch lk =>
    { (s.release c (.proc i)).setTop i (.slept ch lk) with chan := Function.update s.chan i .null }
  | .regain _ lk => (s.acquire c lk).setTop i .run
  | .yield t => ((s.acquire c (.proc i)).setState i .RUNNABLE).setTop i (.sched (.yielded t))
  | .resume t => (s.release c (.proc i)).setTop i t
  | .forkret => (s.release c (.proc i)).setTop i .run

/-! ## `kill` -/

inductive KillAct where
  | call (pid : Int)
  | miss (pid : Int) (j : Nat)
  | hit (pid : Int) (j : Nat)
  | fail (pid : Int)

def KillAct.enabled (N : Nat) (s : Sys κ) (c : κ) (i : Nat) : KillAct → Prop
  | .call _ => s.Runs c i .kernel .run
  | .miss pid j => s.Runs c i (.kill pid j) .run ∧ j < N ∧ s.lock (.proc j) = none ∧ s.pid j ≠ pid
  | .hit pid j => s.Runs c i (.kill pid j) .run ∧ j < N ∧ s.lock (.proc j) = none ∧ s.pid j = pid
  | .fail pid => s.Runs c i (.kill pid N) .run

/-- The slot that `kill` finds: `p->killed = 1`, and a process that sleeps becomes runnable. -/
def Sys.killSlot (s : Sys κ) (pid : Int) (j : Nat) : Sys κ :=
  let s := { s with killed := Function.update s.killed j true }
  if s.state j = .SLEEPING then s.rouse j (.kill pid) else s

instance (a : KillAct) (N : Nat) (s : Sys κ) (c : κ) (i : Nat) : Decidable (a.enabled N s c i) := by
  cases a <;> dsimp only [KillAct.enabled] <;> infer_instance

def KillAct.next (s : Sys κ) (i : Nat) : KillAct → Sys κ
  | .call pid => s.setBase i (.kill pid 0)
  | .miss pid j => s.setBase i (.kill pid (j + 1))
  | .hit pid j => { (s.killSlot pid j).setBase i .kernel with kills := s.kills ++ [⟨pid, some (s.state j, s.pid j)⟩] }
  | .fail pid => { s.setBase i .kernel with kills := s.kills ++ [⟨pid, none⟩] }

/-! ## `fork` -/

inductive ForkAct where
  | call
  | used (j : Nat)
  | full
  /-- `allocproc` fails, and frees slot `j`; on the last path it keeps `p->lock`. -/
  | fail (j : Nat)
  | leak (j : Nat)
  /-- `uvmcopy` fails. -/
  | nomem (j a b : Nat)
  | copy (j a b : Nat)
  | link (j : Nat)
  | start (j : Nat)

/-- The pages that `kalloc` returns are in no process. -/
def Sys.FreshPages (N : Nat) (s : Sys κ) (a b : Nat) : Prop := ∀ i, i < N → s.kpagetable i ≠ some a ∧ s.kstack i ≠ some b

def ForkAct.enabled (N : Nat) (s : Sys κ) (c : κ) (i : Nat) : ForkAct → Prop
  | .call => s.Runs c i .kernel .run
  | .used j => s.Runs c i (.alloc j) .run ∧ j < N ∧ s.lock (.proc j) = none ∧ s.state j ≠ .UNUSED
  | .full => s.Runs c i (.alloc N) .run
  | .fail j => s.Runs c i (.alloc j) .run ∧ j < N ∧ s.lock (.proc j) = none ∧ s.state j = .UNUSED
  | .leak j => s.Runs c i (.alloc j) .run ∧ j < N ∧ s.lock (.proc j) = none ∧ s.state j = .UNUSED
  | .nomem j a b =>
    s.Runs c i (.alloc j) .run ∧ j < N ∧ s.lock (.proc j) = none ∧ s.state j = .UNUSED ∧ s.FreshPages N a b
  | .copy j a b =>
    s.Runs c i (.alloc j) .run ∧ j < N ∧ s.lock (.proc j) = none ∧ s.state j = .UNUSED ∧ s.FreshPages N a b
  | .link j => s.Runs c i (.link j) .run ∧ s.lock .wait = none
  | .start j => s.Runs c i (.start j) .run ∧ s.lock (.proc j) = none

instance (a : ForkAct) (N : Nat) (s : Sys κ) (c : κ) (i : Nat) : Decidable (a.enabled N s c i) := by
  cases a <;> dsimp only [ForkAct.enabled, Sys.FreshPages] <;> infer_instance

def ForkAct.next (s : Sys κ) (c : κ) (i : Nat) : ForkAct → Sys κ
  | .call => s.setBase i (.alloc 0)
  | .used j => s.setBase i (.alloc (j + 1))
  | .full => s.setBase i .kernel
  | .fail j => (s.allocpid.freeproc j).setBase i .kernel
  | .leak j => ((s.acquire c (.proc j)).allocpid.freeproc j).setBase i .kernel
  | .nomem j a b => ((s.allocproc j a b).freeproc j).setBase i .kernel
  | .copy j a b => ((s.allocproc j a b).copyProc i j).setBase i (.link j)
  | .link j => { s.setBase i (.start j) with parent := Function.update s.parent j (some i) }
  | .start j => (s.setState j .RUNNABLE).setBase i .kernel

/-! ## `exit` -/

inductive ExitAct where
  | call (status : Int)
  | close (status : Int) (fd : Nat)
  | closed (status : Int)
  | iput (status : Int)
  | lock (status : Int)
  | keep (status : Int) (j : Nat)
  | give (status : Int) (j : Nat)
  | given (status : Int)
  | zombie (status : Int)

def ExitAct.enabled (N : Nat) (s : Sys κ) (c : κ) (i : Nat) : ExitAct → Prop
  | .call _ => s.Runs c i .kernel .run ∧ i ≠ initproc
  | .close st fd => s.Runs c i (.closing st fd) .run ∧ fd < NOFILE
  | .closed st => s.Runs c i (.closing st NOFILE) .run
  | .iput st => s.Runs c i (.cwd st) .run
  | .lock st => s.Runs c i (.exitLock st) .run ∧ s.lock .wait = none
  | .keep st j => s.Runs c i (.reparent st j) .run ∧ j < N ∧ s.parent j ≠ some i
  | .give st j => s.Runs c i (.reparent st j) .run ∧ j < N ∧ s.parent j = some i
  | .given st => s.Runs c i (.reparent st N) .run
  | .zombie st => s.Runs c i (.exitOwn st) .run ∧ s.lock (.proc i) = none ∧ s.lock .wait = some c

instance (a : ExitAct) (N : Nat) (s : Sys κ) (c : κ) (i : Nat) : Decidable (a.enabled N s c i) := by
  cases a <;> dsimp only [ExitAct.enabled] <;> infer_instance

def ExitAct.next (s : Sys κ) (c : κ) (i : Nat) : ExitAct → Sys κ
  | .call st => s.setBase i (.closing st 0)
  | .close st fd =>
    { s.setBase i (.closing st (fd + 1)) with
      ofile := Function.update s.ofile i (Function.update (s.ofile i) fd none) }
  | .closed st => s.setBase i (.cwd st)
  | .iput st => { s.setBase i (.exitLock st) with cwd := Function.update s.cwd i none }
  | .lock st => (s.acquire c .wait).setBase i (.reparent st 0)
  | .keep st j => s.setBase i (.reparent st (j + 1))
  | .give st j =>
    { (s.setBase i (.reparent st (j + 1))).setTop i (.wake (.proc initproc) 0) with
      parent := Function.update s.parent j (some initproc) }
  | .given st => (s.setBase i (.exitOwn st)).setTop i (.wake (s.parentChan i) 0)
  | .zombie st =>
    { ((((s.acquire c (.proc i)).release c .wait).setState i .ZOMBIE).setBase i .zombie).setTop i (.sched .dead) with
      xstate := Function.update s.xstate i st
      exits := s.exits ++ [⟨s.birth i, s.pid i, st⟩] }

/-! ## `wait` -/

inductive WaitAct where
  | call
  | other (j : Nat) (h : Bool)
  | alive (j : Nat) (h : Bool)
  /-- `copyout` fails. -/
  | bad (j : Nat) (h : Bool)
  | reap (j : Nat) (h : Bool)
  | childless
  /-- `killed(p)`. -/
  | killed
  | notKilled
  | sleep

def WaitAct.enabled (N : Nat) (s : Sys κ) (c : κ) (i : Nat) : WaitAct → Prop
  | .call => s.Runs c i .kernel .run ∧ s.lock .wait = none
  | .other j h => s.Runs c i (.scan j h) .run ∧ j < N ∧ s.parent j ≠ some i
  | .alive j h =>
    s.Runs c i (.scan j h) .run ∧ j < N ∧ s.parent j = some i ∧ s.lock (.proc j) = none ∧ s.state j ≠ .ZOMBIE
  | .bad j h =>
    s.Runs c i (.scan j h) .run ∧ j < N ∧ s.parent j = some i ∧ s.lock (.proc j) = none ∧ s.state j = .ZOMBIE ∧
      s.lock .wait = some c
  | .reap j h =>
    s.Runs c i (.scan j h) .run ∧ j < N ∧ s.parent j = some i ∧ s.lock (.proc j) = none ∧ s.state j = .ZOMBIE ∧
      s.lock .wait = some c
  | .childless => s.Runs c i (.scan N false) .run ∧ s.lock .wait = some c
  | .killed => s.Runs c i (.scan N true) .run ∧ s.lock (.proc i) = none ∧ s.killed i = true ∧ s.lock .wait = some c
  | .notKilled => s.Runs c i (.scan N true) .run ∧ s.lock (.proc i) = none ∧ s.killed i = false
  | .sleep => s.Runs c i .waitSleep .run ∧ s.lock (.proc i) = none

instance (a : WaitAct) (N : Nat) (s : Sys κ) (c : κ) (i : Nat) : Decidable (a.enabled N s c i) := by
  cases a <;> dsimp only [WaitAct.enabled] <;> infer_instance

def WaitAct.next (s : Sys κ) (c : κ) (i : Nat) : WaitAct → Sys κ
  | .call => (s.acquire c .wait).setBase i (.scan 0 false)
  | .other j h => s.setBase i (.scan (j + 1) h)
  | .alive j _ => s.setBase i (.scan (j + 1) true)
  | .bad _ _ => (s.release c .wait).setBase i .kernel
  | .reap j _ =>
    { ((s.release c .wait).freeproc j).setBase i .kernel with
      reaped := s.reaped ++ [⟨s.birth j, s.pid j, s.xstate j⟩] }
  | .childless => (s.release c .wait).setBase i .kernel
  | .killed => (s.release c .wait).setBase i .kernel
  | .notKilled => s.setBase i .waitSleep
  | .sleep => ((s.acquire c (.proc i)).setBase i (.scan 0 false)).setTop i (.sleep1 (.proc i) .wait)

/-! ## The system -/

inductive Act (κ : Type) where
  | sched (c : κ) (a : SchedAct)
  | irq (c : κ) (a : IrqAct)
  | thread (c : κ) (i : Nat) (a : ThreadAct)
  | kill (c : κ) (i : Nat) (a : KillAct)
  | fork (c : κ) (i : Nat) (a : ForkAct)
  | exit (c : κ) (i : Nat) (a : ExitAct)
  | wait (c : κ) (i : Nat) (a : WaitAct)

def Act.enabled (N : Nat) (s : Sys κ) : Act κ → Prop
  | .sched c a => a.enabled N s c
  | .irq c a => a.enabled N s c
  | .thread c i a => a.enabled N s c i
  | .kill c i a => a.enabled N s c i
  | .fork c i a => a.enabled N s c i
  | .exit c i a => a.enabled N s c i
  | .wait c i a => a.enabled N s c i

def Act.next (N : Nat) (s : Sys κ) : Act κ → Sys κ
  | .sched c a => a.next N s c
  | .irq c a => a.next s c
  | .thread c i a => a.next s c i
  | .kill _ i a => a.next s i
  | .fork c i a => a.next s c i
  | .exit c i a => a.next s c i
  | .wait c i a => a.next s c i

instance (a : Act κ) (N : Nat) (s : Sys κ) : Decidable (a.enabled N s) := by
  cases a <;> dsimp only [Act.enabled] <;> infer_instance

/-- After `userinit`: the first process is runnable, and every CPU enters `scheduler`. -/
structure Init (N : Nat) (s : Sys κ) : Prop where
  slots : 0 < N
  first : s.state initproc = .RUNNABLE ∧ s.top initproc = .fresh ∧ s.base initproc = .kernel
  table : ∃ a b, s.kpagetable initproc = some a ∧ s.kstack initproc = some b ∧ s.contextSp initproc = .page (some b)
  unused : ∀ i, i ≠ initproc → s.state i = .UNUSED ∧ s.pid i = 0 ∧ s.top i = .fresh ∧ s.base i = .kernel ∧
    s.kpagetable i = none ∧ s.kstack i = none
  clean : ∀ i, s.killed i = false ∧ s.chan i = .null ∧ s.xstate i = 0 ∧ s.parent i = none
  files : ∀ i, (i ≠ initproc → s.cwd i = none) ∧ ∀ fd, s.ofile i fd = none
  locks : ∀ l, s.lock l = none
  cpus : ∀ c, (∃ i, s.mode c = .scan i) ∧ s.cproc c = none ∧ s.noff c = 0 ∧ s.satp c = .kernel ∧ s.stack c = .boot ∧
    s.irq c = .none
  records : s.birth initproc < s.births ∧ s.exits = [] ∧ s.reaped = [] ∧ s.allocated = [] ∧ s.kills = []

/-- One step of the system. -/
def step (N : Nat) (s : Sys κ) (a : Act κ) : Option (Sys κ) := if a.enabled N s then some (a.next N s) else none

theorem step_eq_some {N : Nat} {s s' : Sys κ} {a : Act κ} : step N s a = some s' ↔ a.enabled N s ∧ a.next N s = s' := by
  simp [step]

/-- The states of the system. -/
def Reachable (N : Nat) (s : Sys κ) : Prop := Transition.Reach (step N) (fun _ _ => True) (Init N) s

/-- The system after `userinit`. -/
def boot (κ : Type) : Sys κ where
  state i := if i = initproc then .RUNNABLE else .UNUSED
  chan _ := .null
  killed _ := false
  xstate _ := 0
  pid i := if i = initproc then 1 else 0
  parent _ := none
  ofile _ _ := none
  cwd i := if i = initproc then some 0 else none
  kpagetable i := if i = initproc then some 0 else none
  kstack i := if i = initproc then some 1 else none
  contextSp i := if i = initproc then .page (some 1) else .boot
  kernelSatp _ := .kernel
  kernelSp _ := .boot
  base _ := .kernel
  top _ := .fresh
  nextpid := 2
  lock _ := none
  mode _ := .scan 0
  cproc _ := none
  noff _ := 0
  satp _ := .kernel
  stack _ := .boot
  irq _ := .none
  birth _ := 0
  births := 1
  woke _ := none
  exits := []
  reaped := []
  allocated := []
  kills := []

theorem boot_init {κ : Type} {N : Nat} (hN : 0 < N) : Init N (boot κ) where
  slots := hN
  first := ⟨rfl, rfl, rfl⟩
  table := ⟨0, 1, rfl, rfl, rfl⟩
  unused i hi := by simp [boot, hi]
  clean i := ⟨rfl, rfl, rfl, rfl⟩
  files i := ⟨fun hi => by simp [boot, hi], fun _ => rfl⟩
  locks _ := rfl
  cpus _ := ⟨⟨0, rfl⟩, rfl, rfl, rfl, rfl, rfl⟩
  records := by simp [boot]

theorem Reachable.of_run {N : Nat} {s : Sys κ} {acts : List (Act κ)} (hN : 0 < N)
    (hs : Transition.runActs (step N) (boot κ) acts = some s) : Reachable N s :=
  (Transition.Reach.init (boot_init hN)).runActs (Transition.guardedActs_true _ _ _) hs

/-- The first process forks and sleeps in `wait`; the child calls `exit`. -/
def forkRun : List (Act Unit) :=
  [.sched () (.choose 0), .sched () (.load 0), .sched () (.switch 0), .thread () 0 .forkret, .fork () 0 .call,
    .fork () 0 (.used 0), .fork () 0 (.copy 1 2 3), .fork () 0 (.link 1), .fork () 0 (.start 1), .wait () 0 .call,
    .wait () 0 (.other 0 false), .wait () 0 (.alive 1 false), .wait () 0 .notKilled, .wait () 0 .sleep,
    .thread () 0 (.drop (.proc 0) .wait), .thread () 0 (.doze (.proc 0) .wait),
    .thread () 0 (.swtch (.asleep (.proc 0) .wait)), .sched () (.kvminithart 0), .sched () (.leave 0),
    .sched () (.choose 1), .sched () (.load 1), .sched () (.switch 1), .thread () 1 .forkret, .exit () 1 (.call 7)]

/-- The child exits, and `wait` comes to it. -/
def exitRun : List (Act Unit) :=
  [.exit () 1 (.closed 7), .exit () 1 (.iput 7), .exit () 1 (.lock 7), .exit () 1 (.keep 7 0), .exit () 1 (.keep 7 1),
    .exit () 1 (.given 7), .thread () 1 (.rouse (.proc 0) 0), .thread () 1 (.pass (.proc 0) 1),
    .thread () 1 (.done (.proc 0)), .exit () 1 (.zombie 7), .thread () 1 (.swtch .dead), .sched () (.kvminithart 1),
    .sched () (.leave 1), .sched () (.choose 0), .sched () (.load 0), .sched () (.switch 0),
    .thread () 0 (.rise (.proc 0) .wait), .thread () 0 (.regain (.proc 0) .wait), .wait () 0 (.other 0 false)]

def childRun : List (Act Unit) := forkRun ++ (List.range NOFILE).map (fun fd => .exit () 1 (.close 7 fd)) ++ exitRun

end Xv6.Sched
