import Xv6.Kernel.State

/-!
# Processes

`kernel/proc.c`: allocation and freeing of processes, `fork`, `exit`, `wait` and `growproc`.  The
scheduler is left out: a process that is `RUNNABLE` may make a system call at any time.
-/

namespace Xv6

open Prog ByteStore

/-- A field of `k` bytes in the page at `pa`. -/
def Mem.setField (s : Mem) (pa off k v : Nat) : Mem :=
  { s with page := Function.update s.page pa (writeLE (s.page pa) off k v) }

/-- Offsets in `struct trapframe`. -/
def TF_EPC : Nat := 24
def TF_SP : Nat := 48
def TF_A0 : Nat := 112
def TF_A1 : Nat := 120

/-- `sizeof(struct trapframe)`. -/
def TF_SIZE : Nat := 288

/-- `*dst = *src` for trapframes. -/
def Mem.copyTrapframe (s : Mem) (dst src : Nat) : Mem :=
  { s with page := Function.update s.page dst fun i =>
      if i.val < TF_SIZE then s.page src i else s.page dst i }

/-! ## Page tables of processes -/

def procPagetable (K : KernelImage) (trapframe : Nat) : Prog Mem (Option Nat) := do
  match ← uvmcreate with
  | none => pure none
  | some pagetable => do
    let r ← mappages pagetable TRAMPOLINE PGSIZE K.trampoline (PTE_R ||| PTE_X)
    if r < 0 then do
      uvmfree K pagetable 0
      pure none
    else do
      let r ← mappages pagetable TRAPFRAME PGSIZE trapframe (PTE_R ||| PTE_W)
      if r < 0 then do
        uvmunmap K pagetable TRAMPOLINE 1 false
        uvmfree K pagetable 0
        pure none
      else pure (some pagetable)

def procFreepagetable (K : KernelImage) (pagetable sz : Nat) : Prog Mem Unit := do
  uvmunmap K pagetable TRAMPOLINE 1 false
  uvmunmap K pagetable TRAPFRAME 1 false
  uvmfree K pagetable sz

def procKpagetableInit (K : KernelImage) : Prog Mem (Option Nat) := do
  match ← uvmcreate with
  | none => pure none
  | some kpagetable => do
    kvmmap kpagetable UART0 UART0 PGSIZE (PTE_R ||| PTE_W)
    kvmmap kpagetable VIRTIO0 VIRTIO0 PGSIZE (PTE_R ||| PTE_W)
    kvmmap kpagetable CLINT CLINT 0x10000 (PTE_R ||| PTE_W)
    kvmmap kpagetable PLIC PLIC 0x400000 (PTE_R ||| PTE_W)
    kvmmap kpagetable KERNBASE KERNBASE (K.etext - KERNBASE) (PTE_R ||| PTE_X)
    kvmmap kpagetable K.etext K.etext (PHYSTOP - K.etext) (PTE_R ||| PTE_W)
    kvmmap kpagetable TRAMPOLINE K.trampoline PGSIZE (PTE_R ||| PTE_X)
    pure (some kpagetable)

namespace Kernel

variable (K : KernelImage)

def allocpid : Prog Kernel Nat := do
  let k ← get
  modify fun k => { k with nextpid := k.nextpid + 1 }
  pure k.nextpid

def freeproc (i : Fin NPROC) : Prog Kernel Unit := do
  let p ← readProc i
  (if p.trapframe ≠ 0 then vm (kfree K p.trapframe) else pure ())
  modifyProc i fun p => { p with trapframe := 0 }
  (if p.pagetable ≠ 0 ∧ p.usyscall ≠ 0 then vm (uvmunmap K p.pagetable USYSCALL 1 false) else pure ())
  (if p.pagetable ≠ 0 then vm (procFreepagetable K p.pagetable p.sz) else pure ())
  modifyProc i fun p => { p with pagetable := 0 }
  (if p.usyscall ≠ 0 then do
    vm (kfree K p.usyscall)
    modifyProc i fun p => { p with usyscall := 0 }
  else pure ())
  (if p.kstack ≠ 0 then vm (kfree K p.kstack) else pure ())
  modifyProc i fun p => { p with kstack := 0 }
  (if p.kpagetable ≠ 0 ∧ p.sz > 0 then vm (kvmdealloc p.kpagetable p.sz 0) else pure ())
  (if p.kpagetable ≠ 0 then vm (procFreeKpagetable K p.kpagetable) else pure ())
  modifyProc i fun p =>
    { p with kpagetable := 0, sz := 0, pid := 0, parent := none, name := [], killed := false,
             xstate := 0, state := .UNUSED }

/-- The loop of `allocproc`: the first unused slot, with its lock held. -/
def findUnused : List (Fin NPROC) → Prog Kernel (Option (Fin NPROC))
  | [] => pure none
  | i :: is => do
    acquire i
    let p ← readProc i
    if p.state = .UNUSED then pure (some i)
    else do
      release i
      findUnused is

/-- `freeproc(p); release(&p->lock); return 0`. -/
def allocFail (i : Fin NPROC) : Prog Kernel (Option (Fin NPROC)) := do
  freeproc K i
  release i
  pure none

/-- The rest of `allocproc`, once the user page table is complete. -/
def allocKernel (i : Fin NPROC) : Prog Kernel (Option (Fin NPROC)) := do
  match ← vm (procKpagetableInit K) with
  | none => allocFail K i
  | some kpagetable => do
    modifyProc i fun p => { p with kpagetable := kpagetable }
    match ← vm kalloc with
    | none => do
      -- the lock stays taken here
      freeproc K i
      pure none
    | some pa => do
      modifyProc i fun p => { p with kstack := pa }
      vm (kvmmap kpagetable (KSTACK i) pa PGSIZE (PTE_R ||| PTE_W))
      pure (some i)

/-- The rest of `allocproc`, once there is a trapframe. -/
def allocUser (i : Fin NPROC) (pid trapframe : Nat) : Prog Kernel (Option (Fin NPROC)) := do
  match ← vm (procPagetable K trapframe) with
  | none => do
    modifyProc i fun p => { p with pagetable := 0 }
    allocFail K i
  | some pagetable => do
    modifyProc i fun p => { p with pagetable := pagetable }
    match ← vm kalloc with
    | none => do
      modifyProc i fun p => { p with usyscall := 0 }
      allocFail K i
    | some usyscall => do
      modifyProc i fun p => { p with usyscall := usyscall }
      vm (modify fun s => s.setField usyscall 0 4 pid)
      let r ← vm (mappages pagetable USYSCALL PGSIZE usyscall (PTE_R ||| PTE_U))
      if r < 0 then allocFail K i else allocKernel K i

def allocproc : Prog Kernel (Option (Fin NPROC)) := do
  match ← findUnused (List.finRange NPROC) with
  | none => pure none
  | some i => do
    let pid ← allocpid
    modifyProc i fun p => { p with pid := pid, state := .USED }
    match ← vm kalloc with
    | none => do
      modifyProc i fun p => { p with trapframe := 0 }
      allocFail K i
    | some trapframe => do
      modifyProc i fun p => { p with trapframe := trapframe }
      allocUser K i pid trapframe

/-- `initcode` has 52 bytes. -/
def initcode : List UInt8 :=
  [0x17, 0x05, 0x00, 0x00, 0x13, 0x05, 0x45, 0x02, 0x97, 0x05, 0x00, 0x00, 0x93, 0x85, 0x35, 0x02,
   0x93, 0x08, 0x70, 0x00, 0x73, 0x00, 0x00, 0x00, 0x93, 0x08, 0x20, 0x00, 0x73, 0x00, 0x00, 0x00,
   0xef, 0xf0, 0x9f, 0xff, 0x2f, 0x69, 0x6e, 0x69, 0x74, 0x00, 0x00, 0x24, 0x00, 0x00, 0x00, 0x00,
   0x00, 0x00, 0x00, 0x00]

/-- `safestrcpy(p->name, s, sizeof(p->name))`. -/
def procName (s : List UInt8) : List UInt8 := s.take 15

def userinit : Prog Kernel Unit := do
  match ← allocproc K with
  | none => panicWith "kerneltrap"
  | some i => do
    modify fun k => { k with initproc := some i }
    let p ← readProc i
    vm (uvmfirst p.pagetable initcode)
    modifyProc i fun p => { p with sz := PGSIZE }
    vm (u2kvmcopy p.pagetable p.kpagetable 0 PGSIZE)
    vm (modify fun s => s.setField p.trapframe TF_EPC 8 0)
    vm (modify fun s => s.setField p.trapframe TF_SP 8 PGSIZE)
    modifyProc i fun p => { p with name := "initcode".toUTF8.toList }
    let cwd ← fsys (Fs.namei none [Fs.SLASH])
    modifyProc i fun p => { p with cwd := cwd, state := .RUNNABLE }
    release i

/-- `sz + n` in 64 bits. -/
def addSize (sz : Nat) (n : Int) : Nat := ((sz + n) % 2 ^ 64).toNat

def growproc (i : Fin NPROC) (n : Int) : Prog Kernel Int := do
  let p ← readProc i
  if n > 0 then
    if PGROUNDUP (addSize p.sz n) ≥ USER_TOP then pure (-1)
    else do
      let sz ← vm (uvmalloc K p.pagetable p.sz (addSize p.sz n) PTE_W)
      if sz = 0 then pure (-1)
      else do
        vm (u2kvmcopy p.pagetable p.kpagetable p.sz sz)
        modifyProc i fun p => { p with sz := sz }
        pure 0
  else if n < 0 then do
    vm (kvmdealloc p.kpagetable p.sz (addSize p.sz n))
    let sz ← vm (uvmdealloc K p.pagetable p.sz (addSize p.sz n))
    modifyProc i fun p => { p with sz := sz }
    pure 0
  else pure 0

/-- The loop of `fork` over the open files. -/
def dupFiles (i j : Fin NPROC) : List (Fin NOFILE) → Prog Kernel Unit
  | [] => pure ()
  | fd :: fds => do
    let p ← readProc i
    (match p.ofile fd with
      | none => pure ()
      | some f => do
        filedup f
        modifyProc j fun np => { np with ofile := Function.update np.ofile fd (some f) })
    dupFiles i j fds

def fork (i : Fin NPROC) : Prog Kernel Int := do
  match ← allocproc K with
  | none => pure (-1)
  | some j => do
    let p ← readProc i
    let np ← readProc j
    let r ← vm (uvmcopy K p.pagetable np.pagetable p.sz)
    if r < 0 then do
      freeproc K j
      release j
      pure (-1)
    else do
      modifyProc j fun np => { np with sz := p.sz }
      vm (u2kvmcopy np.pagetable np.kpagetable 0 p.sz)
      vm (modify fun s => s.copyTrapframe np.trapframe p.trapframe)
      vm (modify fun s => s.setField np.trapframe TF_A0 8 0)
      dupFiles i j (List.finRange NOFILE)
      match p.cwd with
      | none => panicWith "kerneltrap"
      | some ip => do
        let cwd ← fsys (Fs.idup ip)
        modifyProc j fun np => { np with cwd := some cwd, name := procName p.name }
        release j
        modifyProc j fun np => { np with parent := some i }
        acquire j
        modifyProc j fun np => { np with state := .RUNNABLE }
        release j
        pure np.pid

/-- The loop of `reparent`. -/
def reparentLoop (me : Fin NPROC) : List (Fin NPROC) → Prog Kernel Unit
  | [] => pure ()
  | i :: is => do
    let pp ← readProc i
    (if pp.parent = some me then do
      modify fun k => k.updProc i fun pp => { pp with parent := k.initproc }
      wakeup me
    else pure ())
    reparentLoop me is

def reparent (me : Fin NPROC) : Prog Kernel Unit := reparentLoop me (List.finRange NPROC)

/-- The loop of `exit` over the open files. -/
def closeFiles (me : Fin NPROC) : List (Fin NOFILE) → Prog Kernel Unit
  | [] => pure ()
  | fd :: fds => do
    let p ← readProc me
    (match p.ofile fd with
      | none => pure ()
      | some f => do
        fileclose K me f
        modifyProc me fun p => { p with ofile := Function.update p.ofile fd none })
    closeFiles me fds

/-- Up to the call of `sched`, which gives the CPU to another process and the lock back. -/
def exit (me : Fin NPROC) (status : Int) : Prog Kernel Unit := do
  let k ← get
  if k.initproc = some me then panicWith "init exiting"
  else do
    closeFiles K me (List.finRange NOFILE)
    let p ← readProc me
    iputFile p.cwd
    modifyProc me fun p => { p with cwd := none }
    reparent me
    wakeup me
    acquire me
    modifyProc me fun p => { p with xstate := status, state := .ZOMBIE }
    release me

/-- The scan of `wait` over the process table: `some r` is the result of `wait`, `none` means that
no child has exited; the Boolean is `havekids`. -/
def waitLoop (me : Fin NPROC) (addr : Nat) : List (Fin NPROC) → Bool → Prog Kernel (Option Int × Bool)
  | [], havekids => pure (none, havekids)
  | i :: is, havekids => do
    let pp ← readProc i
    if pp.parent = some me then do
      acquire i
      if pp.state = .ZOMBIE then do
        let p ← readProc me
        let r ← (if addr ≠ 0 then
          vm (copyout p.pagetable addr ((List.range 4).map fun b =>
            UInt8.ofNat ((pp.xstate % 2 ^ 32).toNat / 256 ^ b)))
        else pure 0)
        if r < 0 then do
          release i
          pure (some (-1), true)
        else do
          freeproc K i
          release i
          pure (some pp.pid, true)
      else do
        release i
        waitLoop me addr is true
    else waitLoop me addr is havekids

/-- A process that has to wait for a child sleeps, and has not completed its call. -/
def wait (me : Fin NPROC) (addr : Nat) : Prog Kernel Int := do
  let (r, havekids) ← waitLoop K me addr (List.finRange NPROC) false
  match r with
  | some r => pure r
  | none => do
    let p ← readProc me
    if !havekids || p.killed then pure (-1) else hang

end Kernel

end Xv6
