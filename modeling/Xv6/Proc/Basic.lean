import Xv6.Vm.Shadow

/-!
# The process record

`struct proc` of `kernel/proc.h`, without the fields that only the scheduler uses (`chan`,
`context`).  A null pointer is `0` for the addresses of pages and `none` for the tables of files,
inodes and processes.
-/

namespace Xv6

/-- `enum procstate`. -/
inductive ProcState where
  | UNUSED
  | USED
  | SLEEPING
  | RUNNABLE
  | RUNNING
  | ZOMBIE
  deriving DecidableEq, Repr

structure Proc where
  locked : Bool
  state : ProcState
  killed : Bool
  xstate : Int
  pid : Nat
  parent : Option (Fin NPROC)
  kstack : Nat
  sz : Nat
  pagetable : Nat
  kpagetable : Nat
  trapframe : Nat
  ofile : Fin NOFILE → Option (Fin NFILE)
  cwd : Option (Fin NINODE)
  name : List UInt8
  usyscall : Nat

/-- A slot of the process table that nothing has written. -/
def Proc.zero : Proc where
  locked := false
  state := .UNUSED
  killed := false
  xstate := 0
  pid := 0
  parent := none
  kstack := 0
  sz := 0
  pagetable := 0
  kpagetable := 0
  trapframe := 0
  ofile := fun _ => none
  cwd := none
  name := []
  usyscall := 0

/-! ## Shadow coherence -/

/-- Two entries map the same page with the same permissions; the first not for the user. -/
structure SameMapping (k e : Nat) : Prop where
  valid : hasFlag k PTE_V = true
  page : PTE2PA k = PTE2PA e
  read : hasFlag k PTE_R = hasFlag e PTE_R
  write : hasFlag k PTE_W = hasFlag e PTE_W
  exec : hasFlag k PTE_X = hasFlag e PTE_X
  user : hasFlag k PTE_U = false

/-- The kernel page table of `p` shadows its user page table below `p->sz`.  `uvmalloc`, `uvmfirst`
and `uvmcopy` make every user page readable, and `growproc` and `exec` keep `p->sz` below
`USER_TOP`. -/
structure Coherent (s : Mem) (p : Proc) : Prop where
  size : p.sz < USER_TOP
  mapped : ∀ v, v < npages p.sz → hasFlag (s.entry p.pagetable v) PTE_V = true ∧
    hasFlag (s.entry p.pagetable v) PTE_R = true
  shadow : ∀ v, v < npages p.sz → SameMapping (s.entry p.kpagetable v) (s.entry p.pagetable v)

end Xv6
