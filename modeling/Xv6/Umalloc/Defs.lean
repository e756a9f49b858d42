import Mathlib.Logic.Function.Basic
import Mathlib.Logic.Relation
import Xv6.Lib.Prog
import Xv6.Lib.Tiling
import Xv6.Riscv

/-!
# The allocator of user programs

`free`, `morecore` and `malloc` of `user/umalloc.c`.

* Memory is the header at each address; `base` is the address of the static `base`, and address `0` is the
  null pointer.
* What `sbrk` answers is an argument of the call: `none` is `-1`.  `Heap.core` records what it has returned.
* The two search loops take fuel, and `hang` stands for a search that needs more.
* `Step` — a program that calls `malloc` and `free`, gives `free` only live pointers, and otherwise writes
  only into its live blocks.
-/

namespace Xv6

open Prog

namespace Umalloc

/-- `sizeof(Header)`. -/
def HEADER : Nat := 16

/-- `union header`. -/
structure Header where
  ptr : Nat
  size : Nat
  deriving DecidableEq, Repr

structure Heap where
  hdr : Nat → Header
  freep : Nat
  /-- The memory obtained from `sbrk`. -/
  core : List Seg

namespace Heap

def set (h : Heap) (p : Nat) (x : Header) : Heap := { h with hdr := Function.update h.hdr p x }

def setPtr (h : Heap) (p q : Nat) : Heap := h.set p { h.hdr p with ptr := q }

def setSize (h : Heap) (p n : Nat) : Heap := h.set p { h.hdr p with size := n }

end Heap

/-- The loop of `free`. -/
def freeLoop (bp : Nat) : Nat → Nat → Prog Heap Nat
  | 0, _ => hang
  | n + 1, p => do
    let h ← get
    if bp > p ∧ bp < (h.hdr p).ptr then pure p
    else if p ≥ (h.hdr p).ptr ∧ (bp > p ∨ bp < (h.hdr p).ptr) then pure p
    else freeLoop bp n (h.hdr p).ptr

/-- The first `if` of `free`: join `bp` to the block above, or link it. -/
def joinUp (h : Heap) (bp p : Nat) : Heap :=
  let next := (h.hdr p).ptr
  if bp + HEADER * (h.hdr bp).size = next then
    h.set bp ⟨(h.hdr next).ptr, ((h.hdr bp).size + (h.hdr next).size) % 2 ^ 32⟩
  else h.setPtr bp next

/-- The second `if`: join `bp` to the block below, or link it. -/
def joinDown (h : Heap) (bp p : Nat) : Heap :=
  if p + HEADER * (h.hdr p).size = bp then
    h.set p ⟨(h.hdr bp).ptr, ((h.hdr p).size + (h.hdr bp).size) % 2 ^ 32⟩
  else h.setPtr p bp

def free (fuel ap : Nat) : Prog Heap Unit := do
  let bp := ap - HEADER
  let h ← get
  let p ← freeLoop bp fuel h.freep
  modify fun h => joinUp h bp p
  modify fun h => joinDown h bp p
  modify fun h => { h with freep := p }

/-- What `morecore` asks for. -/
def coreUnits (nu : Nat) : Nat := if nu < 4096 then 4096 else nu

/-- `sbrk(n)` with its answer. -/
def sbrk (answer : Option Nat) (n : Nat) : Prog Heap (Option Nat) := do
  match answer with
  | none => pure none
  | some p => do
    modify fun h => { h with core := ⟨p, p + n⟩ :: h.core }
    pure (some p)

/-- `0` is the result when there is no memory. -/
def morecore (fuel : Nat) (answer : Option Nat) (nu : Nat) : Prog Heap Nat := do
  match ← sbrk answer (coreUnits nu * HEADER) with
  | none => pure 0
  | some p => do
    modify fun h => h.setSize p (coreUnits nu)
    free fuel (p + HEADER)
    gets Heap.freep

/-- Take `nunits` out of the block at `p`, from its end if it is larger. -/
def take (h : Heap) (nunits prevp p : Nat) : Nat × Heap :=
  if (h.hdr p).size = nunits then (p, { h.setPtr prevp (h.hdr p).ptr with freep := prevp })
  else
    let rest := (h.hdr p).size - nunits
    let q := p + HEADER * rest
    (q, { (h.setSize p rest).setSize q nunits with freep := prevp })

/-- The loop of `malloc`. -/
def mallocLoop (answer : Option Nat) (nunits : Nat) : Nat → Nat → Nat → Prog Heap Nat
  | 0, _, _ => hang
  | n + 1, prevp, p => do
    let h ← get
    if (h.hdr p).size ≥ nunits then do
      modify fun h => (take h nunits prevp p).2
      pure ((take h nunits prevp p).1 + HEADER)
    else if p = h.freep then do
      let q ← morecore n answer nunits
      if q = 0 then pure 0
      else do
        let h ← get
        mallocLoop answer nunits n q (h.hdr q).ptr
    else mallocLoop answer nunits n p (h.hdr p).ptr

/-- `nunits`.  The division is in 64 bits, the result in 32. -/
def unitsOf (nbytes : Nat) : Nat := ((nbytes + HEADER - 1) / HEADER + 1) % 2 ^ 32

def malloc (base fuel : Nat) (answer : Option Nat) (nbytes : Nat) : Prog Heap Nat := do
  let h ← get
  (if h.freep = 0 then modify fun h => { h.set base ⟨base, 0⟩ with freep := base } else pure ())
  let h ← get
  mallocLoop answer (unitsOf nbytes) fuel h.freep (h.hdr h.freep).ptr

/-! ## Programs -/

/-- The heap, and the pointers that `malloc` has returned and that have not been freed, with the sizes asked
for. -/
structure World where
  heap : Heap
  live : List (Nat × Nat)

/-- The block behind a pointer. -/
def blockOf (h : Heap) (ap : Nat) : Seg :=
  ⟨ap - HEADER, ap - HEADER + HEADER * (h.hdr (ap - HEADER)).size⟩

/-- The request fits a positive `int`, also with its header. -/
def SmallRequest (nbytes : Nat) : Prop := ((nbytes + HEADER - 1) / HEADER + 1) * HEADER < 2 ^ 31

/-- `sbrk` fails, or returns memory above `base` and everything it has returned before; `growproc` gives no
memory from `USER_TOP` on. -/
def GoodAnswer (base : Nat) (h : Heap) (n : Nat) : Option Nat → Prop
  | none => True
  | some p => base + HEADER ≤ p ∧ (∀ r ∈ h.core, r.hi ≤ p) ∧ p + n ≤ USER_TOP

/-- With enough fuel `x` returns `a` in the heap `h'`. -/
def Returns {α : Type} (x : Nat → Prog Heap α) (h : Heap) (a : α) (h' : Heap) : Prop :=
  ∃ n, ∀ fuel, n ≤ fuel → x fuel h = .ok a h'

/-- One call of a program, or one of its own writes. -/
inductive Step (base : Nat) : World → World → Prop where
  | malloc {w : World} {h' : Heap} {nbytes ap : Nat} {answer : Option Nat} : SmallRequest nbytes →
      GoodAnswer base w.heap (coreUnits (unitsOf nbytes) * HEADER) answer →
      Returns (fun fuel => Umalloc.malloc base fuel answer nbytes) w.heap ap h' →
      Step base w ⟨h', if ap = 0 then w.live else (ap, nbytes) :: w.live⟩
  | free {w : World} {h' : Heap} {nbytes ap : Nat} : (ap, nbytes) ∈ w.live →
      Returns (fun fuel => Umalloc.free fuel ap) w.heap () h' → Step base w ⟨h', w.live.erase (ap, nbytes)⟩
  /-- A write into a live block, behind its header. -/
  | store {w : World} {a nbytes ap : Nat} {x : Header} : (ap, nbytes) ∈ w.live → ap ≤ a →
      a < (blockOf w.heap ap).hi → Step base w { w with heap := w.heap.set a x }

/-- Before the first call. -/
def Start (w : World) : Prop := w.heap.freep = 0 ∧ w.heap.core = [] ∧ w.live = []

/-- What a program can get to. -/
def Reachable (base : Nat) (w : World) : Prop := ∃ w₀, Start w₀ ∧ Relation.ReflTransGen (Step base) w₀ w

end Umalloc

end Xv6
