import Xv6.Param
import Xv6.Lib.Radix

/-!
# Sv39 page-table entries and the memory layout

The constants and macros of `kernel/riscv.h` and `kernel/memlayout.h`.  A `uint64` is a natural
number below `2 ^ 64`; shifts and masks by powers of two are written with `/`, `*` and `%`.

* `PA2PTE`, `PTE2PA`, `PTE_FLAGS` — the page address and the flags of an entry.
* `PX` — the index of a virtual address at a level of the page table.
* `pteFormat` — entries as `Radix` tables read them.
-/

namespace Xv6

def PGSIZE : Nat := 4096
def PGSHIFT : Nat := 12

theorem PGSIZE_pos : 0 < PGSIZE := by decide

def PGROUNDUP (sz : Nat) : Nat := (sz + PGSIZE - 1) % 2 ^ 64 / PGSIZE * PGSIZE
def PGROUNDDOWN (a : Nat) : Nat := a / PGSIZE * PGSIZE

def PTE_V : Nat := 1
def PTE_R : Nat := 2
def PTE_W : Nat := 4
def PTE_X : Nat := 8
def PTE_U : Nat := 16

def PA2PTE (pa : Nat) : Nat := pa / 2 ^ 12 * 2 ^ 10
def PTE2PA (pte : Nat) : Nat := pte / 2 ^ 10 * 2 ^ 12 % 2 ^ 64
def PTE_FLAGS (pte : Nat) : Nat := pte % 2 ^ 10

/-- `pte & flag`, as a condition. -/
def hasFlag (pte flag : Nat) : Bool := pte &&& flag != 0

/-- `flags & (~PTE_U)`. -/
def clearU (flags : Nat) : Nat := flags &&& (2 ^ 64 - 1 - PTE_U)

def PX (level va : Nat) : Nat := va / 2 ^ (PGSHIFT + 9 * level) % 512

def MAXVA : Nat := 2 ^ 38

def UART0 : Nat := 0x10000000
def VIRTIO0 : Nat := 0x10001000
def CLINT : Nat := 0x2000000
def PLIC : Nat := 0x0c000000
def USER_TOP : Nat := 0x80000000
def KERNBASE : Nat := 0x80000000
def PHYSTOP : Nat := KERNBASE + 128 * 1024 * 1024
def TRAMPOLINE : Nat := MAXVA - PGSIZE
def KSTACK (p : Nat) : Nat := TRAMPOLINE - p * 2 * PGSIZE - 3 * PGSIZE
def TRAPFRAME : Nat := TRAMPOLINE - PGSIZE
def USYSCALL : Nat := TRAPFRAME - PGSIZE

theorem PHYSTOP_eq : PHYSTOP = 0x88000000 := by decide

/-! ## Entries -/

theorem hasFlag_mod {w fl : Nat} (h : fl < 2 ^ 10) : hasFlag w fl = hasFlag (PTE_FLAGS w) fl := by
  have h1 : fl = (2 ^ 10 - 1) &&& fl := by
    rw [Nat.and_comm, Nat.and_two_pow_sub_one_eq_mod, Nat.mod_eq_of_lt h]
  have h2 : w &&& fl = PTE_FLAGS w &&& fl := by
    rw [PTE_FLAGS, ← Nat.and_two_pow_sub_one_eq_mod, Nat.and_assoc, ← h1]
  simp only [hasFlag, h2]

theorem hasFlag_or (a b fl : Nat) : hasFlag (a ||| b) fl = (hasFlag a fl || hasFlag b fl) := by
  rw [Bool.eq_iff_iff]
  simp only [hasFlag, Nat.and_or_distrib_right, bne_iff_ne, Bool.or_eq_true, ne_eq, Nat.or_eq_zero_iff]
  tauto

theorem or_eq_add {pa fl : Nat} (h : fl < 2 ^ 10) : PA2PTE pa ||| fl = PA2PTE pa + fl := by
  unfold PA2PTE
  rw [← Nat.shiftLeft_eq, Nat.shiftLeft_add_eq_or_of_lt h]

theorem PTE_FLAGS_or {pa fl : Nat} (h : fl < 2 ^ 10) : PTE_FLAGS (PA2PTE pa ||| fl) = fl := by
  rw [or_eq_add h, PTE_FLAGS, PA2PTE]
  omega

/-- A page address that fits the page-number field of an entry. -/
def PageAddr (pa : Nat) : Prop := pa % PGSIZE = 0 ∧ pa < 2 ^ 56

theorem PTE2PA_or {pa fl : Nat} (hpa : PageAddr pa) (h : fl < 2 ^ 10) :
    PTE2PA (PA2PTE pa ||| fl) = pa := by
  obtain ⟨h1, h2⟩ := hpa
  rw [or_eq_add h, PTE2PA, PA2PTE]
  simp only [PGSIZE] at h1
  omega

theorem pte_lt {pa fl : Nat} (hpa : PageAddr pa) (h : fl < 2 ^ 10) : PA2PTE pa ||| fl < 2 ^ 64 := by
  obtain ⟨h1, h2⟩ := hpa
  rw [or_eq_add h, PA2PTE]
  omega

/-- How `walk` reads a page-table page. -/
def pteFormat : Radix.Format where
  fan := 512
  valid w := hasFlag w PTE_V
  child w := PTE2PA w
  valid_zero := by decide

/-! ## Rounding -/

theorem PGROUNDUP_eq {sz : Nat} (h : sz ≤ 2 ^ 64 - PGSIZE) :
    PGROUNDUP sz = (sz + (PGSIZE - 1)) / PGSIZE * PGSIZE := by
  unfold PGROUNDUP
  simp only [PGSIZE] at *
  omega

end Xv6
