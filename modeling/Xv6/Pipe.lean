import Xv6.Kernel.State
import Xv6.Lib.Ring
import Xv6.Lib.Transition

/-!
# Pipes at lock granularity

`pipewrite`, `piperead` and `pipeclose` of `kernel/pipe.c` with `sleep`, `wakeup` and `kill` of
`kernel/proc.c`, for one pipe and `n` processes.

* `Pc` — where a process stands; each constructor is a point where others may run.  `wakeup` takes
  the lock of one process after the other, so it is left to look at the rest of a list.
* `sleep` takes `p->lock` before it releases `pi->lock` and keeps it until the process is
  `SLEEPING`; whoever looks at the state of a process takes `p->lock`.  Releasing `pi->lock` and
  falling asleep are therefore one step.
* `rd`, `wr` — some descriptor refers to the end.  `fileclose` calls `pipeclose` for the last one, and
  a process inside a call has its descriptor open.
* `accepted`, `delivered`, `written` — the history of the bytes, which no step reads.
-/

namespace Xv6

def PIPESIZE : Nat := 512

/-- `struct pipe`; the counters are below `2 ^ 32`. -/
structure PipeData extends Pipe where
  data : Nat → UInt8
  nread : Nat
  nwrite : Nat

/-- `pi->nwrite == pi->nread + PIPESIZE`. -/
def PipeData.Full (pi : PipeData) : Prop := pi.nwrite = (pi.nread + PIPESIZE) % 2 ^ 32

instance (pi : PipeData) : Decidable pi.Full := inferInstanceAs (Decidable (_ = _))

/-- `pi->data[pi->nwrite++ % PIPESIZE] = ch`. -/
def PipeData.put (pi : PipeData) (ch : UInt8) : PipeData :=
  { pi with data := Function.update pi.data (pi.nwrite % PIPESIZE) ch, nwrite := (pi.nwrite + 1) % 2 ^ 32 }

/-- `pi->data[pi->nread++ % PIPESIZE]`: the byte. -/
def PipeData.front (pi : PipeData) : UInt8 := pi.data (pi.nread % PIPESIZE)

def PipeData.advance (pi : PipeData) : PipeData := { pi with nread := (pi.nread + 1) % 2 ^ 32 }

/-- `pipeclose` clears the flag of its end. -/
def PipeData.close (pi : PipeData) (writable : Bool) : PipeData :=
  if writable then { pi with writeopen := false } else { pi with readopen := false }

namespace PipeSys

/-- `&pi->nread` and `&pi->nwrite`. -/
inductive Chan where
  | nread
  | nwrite
  deriving DecidableEq

/-- What follows a `wakeup`. -/
inductive After where
  | wSleep (i : Nat)
  | wRet (i : Nat)
  | rRet (i : Nat)
  | cRet
  deriving DecidableEq

inductive Pc (n : Nat) where
  /-- Not in a call on this pipe. -/
  | idle
  /-- Before `acquire(&pi->lock)` in `pipewrite`, at first and after `sleep`. -/
  | wEnter (i : Nat)
  | wLoop (i : Nat)
  | wBody (i : Nat)
  | wAsleep (i : Nat)
  | rEnter
  | rLoop
  /-- `killed(pr)` was 0 and `sleep` is about to be called. -/
  | rSleep
  | rAsleep
  | rCopy (i : Nat)
  | cEnter (writable : Bool)
  | wake (chan : Chan) (rest : List (Fin n)) (after : After)
  deriving DecidableEq

/-- A process, with the arguments of its last call: `src` is what `copyin` finds at `addr + i` and
`dst` says where `copyout` succeeds. -/
structure Thread (n : Nat) where
  pc : Pc n
  killed : Bool
  len : Nat
  src : Nat → Option UInt8
  dst : Nat → Bool
  ret : Int

structure Sys (n : Nat) where
  pi : PipeData
  lock : Option (Fin n)
  rd : Bool
  wr : Bool
  thread : Fin n → Thread n
  accepted : List (Fin n × UInt8)
  delivered : List (Fin n × UInt8)
  written : Fin n → List UInt8

variable {n : Nat}

/-- `SLEEPING` with this `chan`. -/
def Pc.asleep : Chan → Pc n → Bool
  | .nread, .rAsleep => true
  | .nwrite, .wAsleep _ => true
  | _, _ => false

/-- After `sleep` a process goes for `pi->lock` again. -/
def Pc.awake : Pc n → Pc n
  | .rAsleep => .rEnter
  | .wAsleep i => .wEnter i
  | pc => pc

def Pc.inWrite : Pc n → Bool
  | .wEnter _ | .wLoop _ | .wBody _ | .wAsleep _ => true
  | .wake _ _ (.wSleep _) | .wake _ _ (.wRet _) => true
  | _ => false

def Pc.inRead : Pc n → Bool
  | .rEnter | .rLoop | .rSleep | .rAsleep | .rCopy _ => true
  | .wake _ _ (.rRet _) => true
  | _ => false

/-- The first `i` bytes of the buffer. -/
def Thread.sent (t : Thread n) (i : Nat) : List UInt8 := (List.range i).filterMap t.src

namespace Sys

def upd (s : Sys n) (p : Fin n) (f : Thread n → Thread n) : Sys n :=
  { s with thread := Function.update s.thread p (f (s.thread p)) }

def goto (s : Sys n) (p : Fin n) (pc : Pc n) : Sys n := s.upd p fun t => { t with pc := pc }

/-- `wakeup` looks at process `q`. -/
def wakeOne (s : Sys n) (chan : Chan) (q : Fin n) : Sys n :=
  if (s.thread q).pc.asleep chan then s.goto q (s.thread q).pc.awake else s

/-- `wakeup(chan)`, with all processes still to be looked at. -/
def wakeup (s : Sys n) (p : Fin n) (chan : Chan) (after : After) : Sys n :=
  s.goto p (.wake chan (List.finRange n) after)

/-- `acquire(&pi->lock)`. -/
def acquire (s : Sys n) (p : Fin n) (pc : Pc n) : Option (Sys n) :=
  if s.lock = none then some { s.goto p pc with lock := some p } else none

/-- `release(&pi->lock)`, then `pc`. -/
def release (s : Sys n) (p : Fin n) (pc : Pc n) : Sys n := { s.goto p pc with lock := none }

/-- `release(&pi->lock); return r`. -/
def ret (s : Sys n) (p : Fin n) (r : Int) : Sys n :=
  { s.upd p fun t => { t with pc := .idle, ret := r } with lock := none }

/-- `pipewrite` returns `r` after it has taken `i` bytes. -/
def retWrite (s : Sys n) (p : Fin n) (i : Nat) (r : Int) : Sys n :=
  { s.ret p r with written := Function.update s.written p (s.written p ++ (s.thread p).sent i) }

/-- One byte into the ring. -/
def put (s : Sys n) (p : Fin n) (i : Nat) (ch : UInt8) : Sys n :=
  { s.goto p (.wLoop (i + 1)) with pi := s.pi.put ch, accepted := s.accepted ++ [(p, ch)] }

/-- One byte out of the ring; when `copyout` fails it is lost. -/
def take (s : Sys n) (p : Fin n) (i : Nat) : Sys n :=
  if (s.thread p).dst i then
    { s.goto p (.rCopy (i + 1)) with
        pi := s.pi.advance, delivered := s.delivered ++ [(p, s.pi.front)] }
  else { s.wakeup p .nwrite (.rRet i) with pi := s.pi.advance }

/-- The end of a `wakeup`. -/
def afterWake (s : Sys n) (p : Fin n) : After → Sys n
  | .wSleep i => s.release p (.wAsleep i)
  | .wRet i => s.retWrite p i i
  | .rRet i => s.ret p i
  | .cRet => s.ret p 0

/-- The next step of process `p`. -/
def run (s : Sys n) (p : Fin n) : Option (Sys n) :=
  match (s.thread p).pc with
  | .idle | .wAsleep _ | .rAsleep => none
  | .wEnter i => s.acquire p (.wLoop i)
  | .wLoop i =>
    if i < (s.thread p).len then
      if !s.pi.readopen || (s.thread p).killed then some (s.retWrite p i (-1))
      else some (s.goto p (.wBody i))
    else some (s.wakeup p .nread (.wRet i))
  | .wBody i =>
    if s.pi.Full then some (s.wakeup p .nread (.wSleep i))
    else match (s.thread p).src i with
      | none => some (s.wakeup p .nread (.wRet i))
      | some ch => some (s.put p i ch)
  | .rEnter => s.acquire p .rLoop
  | .rLoop =>
    if s.pi.nread = s.pi.nwrite ∧ s.pi.writeopen then
      if (s.thread p).killed then some (s.ret p (-1)) else some (s.goto p .rSleep)
    else some (s.goto p (.rCopy 0))
  | .rSleep => some (s.release p .rAsleep)
  | .rCopy i =>
    if i < (s.thread p).len ∧ s.pi.nread ≠ s.pi.nwrite then some (s.take p i)
    else some (s.wakeup p .nwrite (.rRet i))
  | .cEnter writable =>
    (s.acquire p (.wake (if writable then .nread else .nwrite) (List.finRange n) .cRet)).map
      fun s' => { s' with pi := s.pi.close writable }
  | .wake chan (q :: rest) after => some ((s.wakeOne chan q).goto p (.wake chan rest after))
  | .wake _ [] after => some (s.afterWake p after)

end Sys

inductive Act (n : Nat) where
  | write (p : Fin n) (src : Nat → Option UInt8) (len : Nat)
  | read (p : Fin n) (dst : Nat → Bool) (len : Nat)
  | close (p : Fin n) (writable : Bool)
  | kill (p : Fin n)
  | run (p : Fin n)

/-- A call starts, a process is killed, or a process goes on.  A negative `n` is a length of 0. -/
def step (s : Sys n) : Act n → Option (Sys n)
  | .write p src len =>
    if (s.thread p).pc = .idle ∧ s.wr then
      some (s.upd p fun t => { t with pc := .wEnter 0, src := src, len := len })
    else none
  | .read p dst len =>
    if (s.thread p).pc = .idle ∧ s.rd then
      some (s.upd p fun t => { t with pc := .rEnter, dst := dst, len := len })
    else none
  | .close p true =>
    if (s.thread p).pc = .idle ∧ s.wr ∧ ∀ q, (s.thread q).pc.inWrite = false then
      some { s.goto p (.cEnter true) with wr := false }
    else none
  | .close p false =>
    if (s.thread p).pc = .idle ∧ s.rd ∧ ∀ q, (s.thread q).pc.inRead = false then
      some { s.goto p (.cEnter false) with rd := false }
    else none
  | .kill p => some (s.upd p fun t => { t with killed := true, pc := t.pc.awake })
  | .run p => s.run p

/-- A pipe as `pipealloc` makes it; the counters may start anywhere. -/
structure Init (s : Sys n) : Prop where
  counters : s.pi.nread = s.pi.nwrite
  nread_lt : s.pi.nread < 2 ^ 32
  readopen : s.pi.readopen = true
  writeopen : s.pi.writeopen = true
  lock : s.lock = none
  idle : ∀ p, (s.thread p).pc = .idle
  accepted : s.accepted = []
  delivered : s.delivered = []
  written : ∀ p, s.written p = []

/-- A pipe with the counters at `c` and nobody in a call. -/
def Sys.fresh (n c : Nat) : Sys n where
  pi := { readopen := true, writeopen := true, data := fun _ => 0, nread := c, nwrite := c }
  lock := none
  rd := true
  wr := true
  thread := fun _ => { pc := .idle, killed := false, len := 0, src := fun _ => none, dst := fun _ => true, ret := 0 }
  accepted := []
  delivered := []
  written := fun _ => []

theorem fresh_init {c : Nat} (hc : c < 2 ^ 32) : Init (Sys.fresh n c) where
  counters := rfl
  nread_lt := hc
  readopen := rfl
  writeopen := rfl
  lock := rfl
  idle _ := rfl
  accepted := rfl
  delivered := rfl
  written _ := rfl

/-! ## What a step can do -/

section cases

variable {s s' : Sys n} {p q : Fin n}

@[simp] theorem upd_thread_self (f : Thread n → Thread n) : (s.upd p f).thread p = f (s.thread p) :=
  Function.update_self ..

theorem upd_thread_ne (f : Thread n → Thread n) (h : q ≠ p) : (s.upd p f).thread q = s.thread q :=
  Function.update_of_ne h ..

theorem goto_ne (pc : Pc n) (h : q ≠ p) : (s.goto p pc).thread q = s.thread q := upd_thread_ne _ h

theorem goto_pc (pc : Pc n) : ((s.goto p pc).thread p).pc = pc := by
  unfold Sys.goto
  rw [upd_thread_self]

theorem ret_ne (r : Int) (h : q ≠ p) : (s.ret p r).thread q = s.thread q :=
  upd_thread_ne (s := s) (fun t => { t with pc := .idle, ret := r }) h

theorem ret_self (r : Int) : (s.ret p r).thread p = { s.thread p with pc := .idle, ret := r } :=
  upd_thread_self (s := s) fun t => { t with pc := .idle, ret := r }

theorem ret_pc (r : Int) : ((s.ret p r).thread p).pc = .idle := by rw [ret_self]

theorem retWrite_thread (i : Nat) (r : Int) : (s.retWrite p i r).thread = (s.ret p r).thread := rfl

theorem retWrite_written (i : Nat) (r : Int) : (s.retWrite p i r).written =
    Function.update s.written p (s.written p ++ (s.thread p).sent i) := rfl

/-- The process that looks at `q` is not asleep itself. -/
theorem wakeOne_holder {chan chan' : Chan} {rest : List (Fin n)} {after : After}
    (hpc : (s.thread p).pc = .wake chan rest after) : (s.wakeOne chan' q).thread p = s.thread p := by
  unfold Sys.wakeOne
  split
  · rename_i hq
    refine upd_thread_ne _ ?_
    rintro rfl
    rw [hpc] at hq
    cases chan' <;> cases hq
  · rfl

/-- The step of a process, with the tests that have led to it. -/
inductive Ran (s : Sys n) (p : Fin n) : Sys n → Prop where
  | wEnter {i : Nat} : (s.thread p).pc = .wEnter i → s.lock = none →
      Ran s p { s.goto p (.wLoop i) with lock := some p }
  | wGone {i : Nat} : (s.thread p).pc = .wLoop i → i < (s.thread p).len →
      s.pi.readopen = false ∨ (s.thread p).killed = true → Ran s p (s.retWrite p i (-1))
  | wGo {i : Nat} : (s.thread p).pc = .wLoop i → s.pi.readopen = true → Ran s p (s.goto p (.wBody i))
  | wEnd {i : Nat} : (s.thread p).pc = .wLoop i → Ran s p (s.wakeup p .nread (.wRet i))
  | wFull {i : Nat} : (s.thread p).pc = .wBody i → s.pi.Full → Ran s p (s.wakeup p .nread (.wSleep i))
  | wFault {i : Nat} : (s.thread p).pc = .wBody i → Ran s p (s.wakeup p .nread (.wRet i))
  | wPut {i : Nat} {ch : UInt8} : (s.thread p).pc = .wBody i → ¬ s.pi.Full →
      (s.thread p).src i = some ch → Ran s p (s.put p i ch)
  | rEnter : (s.thread p).pc = .rEnter → s.lock = none → Ran s p { s.goto p .rLoop with lock := some p }
  | rKilled : (s.thread p).pc = .rLoop → Ran s p (s.ret p (-1))
  | rWait : (s.thread p).pc = .rLoop → s.pi.nread = s.pi.nwrite → s.pi.writeopen = true →
      Ran s p (s.goto p .rSleep)
  | rGo : (s.thread p).pc = .rLoop → Ran s p (s.goto p (.rCopy 0))
  | rSleep : (s.thread p).pc = .rSleep → Ran s p (s.release p .rAsleep)
  | rTake {i : Nat} : (s.thread p).pc = .rCopy i → i < (s.thread p).len → s.pi.nread ≠ s.pi.nwrite →
      Ran s p (s.take p i)
  | rEnd {i : Nat} : (s.thread p).pc = .rCopy i → Ran s p (s.wakeup p .nwrite (.rRet i))
  | cEnter {w : Bool} : (s.thread p).pc = .cEnter w → s.lock = none →
      Ran s p { s.goto p (.wake (if w then .nread else .nwrite) (List.finRange n) .cRet) with
        lock := some p, pi := s.pi.close w }
  | scan {chan : Chan} {q : Fin n} {rest : List (Fin n)} {after : After} :
      (s.thread p).pc = .wake chan (q :: rest) after →
      Ran s p ((s.wakeOne chan q).goto p (.wake chan rest after))
  | woken {chan : Chan} {after : After} : (s.thread p).pc = .wake chan [] after →
      Ran s p (s.afterWake p after)

theorem acquire_some {pc : Pc n} (h : s.acquire p pc = some s') :
    s.lock = none ∧ s' = { s.goto p pc with lock := some p } := by
  unfold Sys.acquire at h
  split at h
  · rename_i hl
    cases h
    exact ⟨hl, rfl⟩
  · cases h

theorem ran_wLoop {i : Nat} (hpc : (s.thread p).pc = .wLoop i) (h : s.run p = some s') : Ran s p s' := by
  unfold Sys.run at h
  rw [hpc] at h
  dsimp only at h
  split at h
  · rename_i hi
    split at h
    · rename_i hgone
      cases h
      rw [Bool.or_eq_true, Bool.not_eq_true'] at hgone
      exact .wGone hpc hi hgone
    · rename_i hgo
      cases h
      rw [Bool.or_eq_true, Bool.not_eq_true', not_or, Bool.not_eq_false] at hgo
      exact .wGo hpc hgo.1
  · cases h
    exact .wEnd hpc

theorem ran_wBody {i : Nat} (hpc : (s.thread p).pc = .wBody i) (h : s.run p = some s') : Ran s p s' := by
  unfold Sys.run at h
  rw [hpc] at h
  dsimp only at h
  split at h
  · rename_i hfull
    cases h
    exact .wFull hpc hfull
  · rename_i hroom
    split at h
    · cases h
      exact .wFault hpc
    · rename_i ch hch
      cases h
      exact .wPut hpc hroom hch

theorem ran_rLoop (hpc : (s.thread p).pc = .rLoop) (h : s.run p = some s') : Ran s p s' := by
  unfold Sys.run at h
  rw [hpc] at h
  dsimp only at h
  split at h
  · rename_i hempty
    split at h
    · cases h
      exact .rKilled hpc
    · cases h
      exact .rWait hpc hempty.1 hempty.2
  · cases h
    exact .rGo hpc

theorem ran_rCopy {i : Nat} (hpc : (s.thread p).pc = .rCopy i) (h : s.run p = some s') : Ran s p s' := by
  unfold Sys.run at h
  rw [hpc] at h
  dsimp only at h
  split at h
  · rename_i hi
    cases h
    exact .rTake hpc hi.1 hi.2
  · cases h
    exact .rEnd hpc

/-- **Inversion** of `run`. -/
theorem run_cases (h : s.run p = some s') : Ran s p s' := by
  cases hpc : (s.thread p).pc with
  | wLoop i => exact ran_wLoop hpc h
  | wBody i => exact ran_wBody hpc h
  | rLoop => exact ran_rLoop hpc h
  | rCopy i => exact ran_rCopy hpc h
  | idle | wAsleep i | rAsleep =>
    unfold Sys.run at h
    rw [hpc] at h
    cases h
  | wEnter i =>
    unfold Sys.run at h
    rw [hpc] at h
    obtain ⟨hl, rfl⟩ := acquire_some h
    exact .wEnter hpc hl
  | rEnter =>
    unfold Sys.run at h
    rw [hpc] at h
    obtain ⟨hl, rfl⟩ := acquire_some h
    exact .rEnter hpc hl
  | rSleep =>
    unfold Sys.run at h
    rw [hpc] at h
    cases h
    exact .rSleep hpc
  | cEnter w =>
    unfold Sys.run at h
    rw [hpc] at h
    obtain ⟨s1, h1, rfl⟩ := Option.map_eq_some_iff.1 h
    obtain ⟨hl, rfl⟩ := acquire_some h1
    exact .cEnter hpc hl
  | wake chan rest after =>
    unfold Sys.run at h
    rw [hpc] at h
    cases rest with
    | nil =>
      cases h
      exact .woken hpc
    | cons q rest =>
      cases h
      exact .scan hpc

end cases

end PipeSys

end Xv6
