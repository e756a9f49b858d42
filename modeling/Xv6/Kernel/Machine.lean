import Xv6.Kernel.Sysfile
import Xv6.Lib.Transition

/-!
# The machine

* `boot` — `main` of `kernel/main.c` up to `userinit`: the allocator, the kernel's page table with a
  stack for each process, the process table and the rings of the disk.
* `Kernel.Act`, `Kernel.syscall` — the system calls, and a store of user code to its own memory.
* `Kernel.step` — a process that can run makes a call and the call returns; a call that panics or
  waits for ever is not a step.

Left out are the calls that change no modelled state (`getpid`, `sleep`, `uptime`) and `pgaccess`,
which clears the accessed bits that the hardware sets.
-/

namespace Xv6

open Prog

namespace Kernel

variable (K : KernelImage)

/-! ## Boot -/

/-- `proc_mapstacks`. -/
def procMapstacks (kpgtbl : Nat) : List (Fin NPROC) → Prog Mem Unit
  | [] => pure ()
  | i :: is => do
    match ← kalloc with
    | none => panicWith "kalloc"
    | some pa => do
      kvmmap kpgtbl (KSTACK i) pa PGSIZE (PTE_R ||| PTE_W)
      procMapstacks kpgtbl is

/-- `kvmmake` does not check its first `kalloc`: clearing page `0` faults. -/
def kvmmake : Prog Mem Nat := do
  match ← kalloc with
  | none => panicWith "kerneltrap"
  | some kpgtbl => do
    modify fun s => s.fill kpgtbl 0
    kvmmap kpgtbl UART0 UART0 PGSIZE (PTE_R ||| PTE_W)
    kvmmap kpgtbl VIRTIO0 VIRTIO0 PGSIZE (PTE_R ||| PTE_W)
    kvmmap kpgtbl PLIC PLIC 0x400000 (PTE_R ||| PTE_W)
    kvmmap kpgtbl KERNBASE KERNBASE (K.etext - KERNBASE) (PTE_R ||| PTE_X)
    kvmmap kpgtbl K.etext K.etext (PHYSTOP - K.etext) (PTE_R ||| PTE_W)
    kvmmap kpgtbl TRAMPOLINE K.trampoline PGSIZE (PTE_R ||| PTE_X)
    procMapstacks kpgtbl (List.finRange NPROC)
    pure kpgtbl

def kvminit : Prog Kernel Unit := do
  let kpgtbl ← vm (kvmmake K)
  modify fun k => { k with kernelPagetable := kpgtbl }

def procinit : Prog Kernel Unit :=
  modify fun k => { k with proc := fun i => { k.proc i with state := .UNUSED, kstack := KSTACK i } }

/-- The three pages of `virtio_disk_init`, cleared once all have been allocated. -/
def virtioDiskInit : Prog Kernel Unit := do
  let desc ← vm kalloc
  let avail ← vm kalloc
  let used ← vm kalloc
  match desc, avail, used with
  | some desc, some avail, some used => do
    vm (modify fun s => ((s.fill desc 0).fill avail 0).fill used 0)
    modify fun k => { k with disk := [desc, avail, used] }
  | _, _, _ => panicWith "virtio disk kalloc"

def boot : Prog Kernel Unit := do
  vm (kinit K)
  kvminit K
  procinit
  virtioDiskInit
  userinit K

/-! ## System calls -/

/-- The loop of `kill`.  Every slot is looked at, also an unused one. -/
def killLoop (pid : Int) : List (Fin NPROC) → Prog Kernel Int
  | [] => pure (-1)
  | i :: is => do
    acquire i
    let p ← readProc i
    if (p.pid : Int) = pid then do
      modifyProc i fun p =>
        { p with killed := true, state := if p.state = .SLEEPING then .RUNNABLE else p.state }
      release i
      pure 0
    else do
      release i
      killLoop pid is

def kill (pid : Int) : Prog Kernel Int := killLoop pid (List.finRange NPROC)

def sysSbrk (i : Fin NPROC) (n : Int) : Prog Kernel Int := do
  let p ← readProc i
  let r ← growproc K i n
  if r < 0 then pure (-1) else pure p.sz

/-- What a process can do.  A path or string is what `argstr` fetches, `none` when it fails. -/
inductive Act where
  | fork
  | sbrk (n : Int)
  | exec (path : Option (List UInt8)) (argv : List (List UInt8)) (fetched : Bool)
  | exit (status : Int)
  | wait (addr : Nat)
  | kill (pid : Int)
  | pipe (fdarray : Nat)
  | close (fd : Int)
  | dup (fd : Int)
  | open (path : Option (List UInt8)) (omode : Nat)
  | read (fd : Int) (addr : Nat) (n : Int)
  | write (fd : Int) (addr : Nat) (n : Int)
  | fstat (fd : Int) (addr : Nat)
  | link (old new : Option (List UInt8))
  | unlink (path : Option (List UInt8))
  | mkdir (path : Option (List UInt8))
  | mknod (path : Option (List UInt8)) (major minor : Nat)
  | chdir (path : Option (List UInt8))
  /-- User code writes to its memory, on pages with `PTE_V`, `PTE_U` and `PTE_W`. -/
  | store (addr : Nat) (bs : List UInt8)

def syscall (i : Fin NPROC) : Act → Prog Kernel Int
  | .fork => fork K i
  | .sbrk n => sysSbrk K i n
  | .exec path argv fetched => sysExec K i path argv fetched
  | .exit status => do
    exit K i status
    pure 0
  | .wait addr => wait K i addr
  | .kill pid => kill pid
  | .pipe fdarray => sysPipe K i fdarray
  | .close fd => sysClose K i fd
  | .dup fd => sysDup i fd
  | .open path omode => sysOpen K i path omode
  | .read fd addr n => sysRead i fd addr n
  | .write fd addr n => sysWrite i fd addr n
  | .fstat fd addr => sysFstat i fd addr
  | .link old new => sysLink i old new
  | .unlink path => sysUnlink i path
  | .mkdir path => sysMkdir i path
  | .mknod path major minor => sysMknod i path major minor
  | .chdir path => sysChdir i path
  | .store addr bs => do
    let p ← readProc i
    vm (copyout p.pagetable addr bs)

/-- One completed call. -/
def step (k : Kernel) (a : Fin NPROC × Act) : Option Kernel :=
  if (k.proc a.1).state = .RUNNABLE then
    match syscall K a.1 a.2 k with
    | .ok _ k' => some k'
    | .panic _ _ => none
    | .hang _ => none
  else none

end Kernel

end Xv6
