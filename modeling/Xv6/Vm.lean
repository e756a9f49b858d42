import Xv6.Kalloc

/-!
# Page tables

`kernel/vm.c` and `kernel/vmcopyin.c`.  A page table is the address of its root page.  The pointer
to an entry that `walk` returns is the page it lies in and its index there; `none` is the null
pointer.  The loops of the source run from one page address to another in steps of `PGSIZE`; here
they count the pages, and the addresses are natural numbers (`walk` panics above `MAXVA`, long
before a `uint64` would wrap around).
-/

namespace Xv6

open Prog

/-- The number of iterations of `for(a = lo; a < hi; a += PGSIZE)`. -/
def pagesBetween (lo hi : Nat) : Nat := (hi - lo + (PGSIZE - 1)) / PGSIZE

/-- The loop of `walk`, from a page-table page of the given level. -/
def walkFrom (va : Nat) (alloc : Bool) : Nat → Nat → Prog Mem (Option (Nat × Nat))
  | 0, pagetable => pure (some (pagetable, PX 0 va))
  | level + 1, pagetable => do
    let pte ← gets fun s => s.pte pagetable (PX (level + 1) va)
    if hasFlag pte PTE_V then walkFrom va alloc level (PTE2PA pte)
    else if alloc then
      match ← kalloc with
      | none => pure none
      | some child => do
        modify fun s => s.fill child 0
        modify fun s => s.setPte pagetable (PX (level + 1) va) (PA2PTE child ||| PTE_V)
        walkFrom va alloc level child
    else pure none

def walk (pagetable va : Nat) (alloc : Bool) : Prog Mem (Option (Nat × Nat)) :=
  if va ≥ MAXVA then panicWith "walk" else walkFrom va alloc 2 pagetable

/-- `0` when the address is not mapped for the user. -/
def walkaddr (pagetable va : Nat) : Prog Mem Nat :=
  if va ≥ MAXVA then pure 0 else do
    match ← walk pagetable va false with
    | none => pure 0
    | some (t, i) =>
      let pte ← gets fun s => s.pte t i
      if !hasFlag pte PTE_V then pure 0
      else if !hasFlag pte PTE_U then pure 0
      else pure (PTE2PA pte)

/-- The loop of `mappages` over `n` pages. -/
def mapLoop (pagetable perm : Nat) : Nat → Nat → Nat → Prog Mem Int
  | 0, _, _ => pure 0
  | n + 1, a, pa => do
    match ← walk pagetable a true with
    | none => pure (-1)
    | some (t, i) =>
      let pte ← gets fun s => s.pte t i
      if hasFlag pte PTE_V then panicWith "mappages: remap"
      else do
        modify fun s => s.setPte t i (PA2PTE pa ||| perm ||| PTE_V)
        mapLoop pagetable perm n (a + PGSIZE) (pa + PGSIZE)

def mappages (pagetable va size pa perm : Nat) : Prog Mem Int :=
  if va % PGSIZE ≠ 0 then panicWith "mappages: va not aligned"
  else if size % PGSIZE ≠ 0 then panicWith "mappages: size not aligned"
  else if size = 0 then panicWith "mappages: size"
  else mapLoop pagetable perm (size / PGSIZE) va pa

def kvmmap (kpgtbl va pa sz perm : Nat) : Prog Mem Unit := do
  let r ← mappages kpgtbl va sz pa perm
  if r ≠ 0 then panicWith "kvmmap" else pure ()

/-- One iteration of `uvmunmap`. -/
def unmapPage (K : KernelImage) (pagetable a : Nat) (doFree : Bool) : Prog Mem Unit := do
  match ← walk pagetable a false with
  | none => panicWith "uvmunmap: walk"
  | some (t, i) =>
    let pte ← gets fun s => s.pte t i
    if !hasFlag pte PTE_V then panicWith "uvmunmap: not mapped"
    else if PTE_FLAGS pte = PTE_V then panicWith "uvmunmap: not a leaf"
    else do
      (if doFree then kfree K (PTE2PA pte) else pure ())
      modify fun s => s.setPte t i 0

/-- The end of the range is a `uint64`. -/
def uvmunmap (K : KernelImage) (pagetable va npages : Nat) (doFree : Bool) : Prog Mem Unit :=
  if va % PGSIZE ≠ 0 then panicWith "uvmunmap: not aligned"
  else loop (fun j => unmapPage K pagetable (va + j * PGSIZE) doFree) 0
    (pagesBetween va ((va + npages * PGSIZE) % 2 ^ 64))

/-- `none` when there is no page. -/
def uvmcreate : Prog Mem (Option Nat) := do
  match ← kalloc with
  | none => pure none
  | some pagetable => do
    modify fun s => s.fill pagetable 0
    pure (some pagetable)

/-- The source uses the result of `kalloc` unchecked; a null pointer faults in `memset`. -/
def uvmfirst (pagetable : Nat) (src : List UInt8) : Prog Mem Unit :=
  if src.length ≥ PGSIZE then panicWith "uvmfirst: more than a page" else do
    match ← kalloc with
    | none => panicWith "kerneltrap"
    | some mem => do
      modify fun s => s.fill mem 0
      let _ ← mappages pagetable 0 PGSIZE mem (PTE_W ||| PTE_R ||| PTE_X ||| PTE_U)
      modify fun s => s.setBytes mem 0 src

def uvmdealloc (K : KernelImage) (pagetable oldsz newsz : Nat) : Prog Mem Nat :=
  if newsz ≥ oldsz then pure oldsz else do
    (if PGROUNDUP newsz < PGROUNDUP oldsz then
      uvmunmap K pagetable (PGROUNDUP newsz) ((PGROUNDUP oldsz - PGROUNDUP newsz) / PGSIZE) true
    else pure ())
    pure newsz

/-- The loop of `uvmalloc` with `n` pages to go; `oldsz` has been rounded up. -/
def allocLoop (K : KernelImage) (pagetable oldsz newsz xperm : Nat) : Nat → Nat → Prog Mem Nat
  | 0, _ => pure newsz
  | n + 1, a => do
    match ← kalloc with
    | none => do
      let _ ← uvmdealloc K pagetable a oldsz
      pure 0
    | some mem => do
      modify fun s => s.fill mem 0
      let r ← mappages pagetable a PGSIZE mem (PTE_R ||| PTE_U ||| xperm)
      if r ≠ 0 then do
        kfree K mem
        let _ ← uvmdealloc K pagetable a oldsz
        pure 0
      else allocLoop K pagetable oldsz newsz xperm n (a + PGSIZE)

/-- `0` on failure. -/
def uvmalloc (K : KernelImage) (pagetable oldsz newsz xperm : Nat) : Prog Mem Nat :=
  if newsz < oldsz then pure oldsz
  else allocLoop K pagetable (PGROUNDUP oldsz) newsz xperm (pagesBetween (PGROUNDUP oldsz) newsz)
    (PGROUNDUP oldsz)

/-- What `freewalk` and `proc_free_kpagetable` do with entry `i`: `below` is their recursive call,
`leaf` what they do with a leaf entry. -/
def freeEntry (leaf : Nat → Nat → Prog Mem Unit) (below : Nat → Prog Mem Unit) (pagetable i : Nat) :
    Prog Mem Unit := do
  let pte ← gets fun s => s.pte pagetable i
  if hasFlag pte PTE_V && !hasFlag pte (PTE_R ||| PTE_W ||| PTE_X) then do
    below (PTE2PA pte)
    modify fun s => s.setPte pagetable i 0
  else if hasFlag pte PTE_V then leaf pagetable i
  else pure ()

/-- The recursion of the source ends because page tables are three deep; here it is cut at `depth`. -/
def freeTables (K : KernelImage) (leaf : Nat → Nat → Prog Mem Unit) : Nat → Nat → Prog Mem Unit
  | 0, _ => hang
  | depth + 1, pagetable => do
    loop (freeEntry leaf (freeTables K leaf depth) pagetable) 0 512
    kfree K pagetable

def freewalk (K : KernelImage) : Nat → Prog Mem Unit :=
  freeTables K (fun _ _ => panicWith "freewalk: leaf") 3

def procFreeKpagetable (K : KernelImage) : Nat → Prog Mem Unit :=
  freeTables K (fun pagetable i => modify fun s => s.setPte pagetable i 0) 3

def uvmfree (K : KernelImage) (pagetable sz : Nat) : Prog Mem Unit := do
  (if sz > 0 then uvmunmap K pagetable 0 (PGROUNDUP sz / PGSIZE) true else pure ())
  freewalk K pagetable

/-- The loop of `uvmcopy`, from page `i`, with `n` pages to go. -/
def copyLoop (K : KernelImage) (old new : Nat) : Nat → Nat → Prog Mem Int
  | 0, _ => pure 0
  | n + 1, i => do
    match ← walk old (i * PGSIZE) false with
    | none => panicWith "uvmcopy: pte should exist"
    | some (t, j) =>
      let pte ← gets fun s => s.pte t j
      if !hasFlag pte PTE_V then panicWith "uvmcopy: page not present"
      else
        match ← kalloc with
        | none => do
          uvmunmap K new 0 i true
          pure (-1)
        | some mem => do
          modify fun s => { s with page := Function.update s.page mem (s.page (PTE2PA pte)) }
          let r ← mappages new (i * PGSIZE) PGSIZE mem (PTE_FLAGS pte)
          if r ≠ 0 then do
            kfree K mem
            uvmunmap K new 0 i true
            pure (-1)
          else copyLoop K old new n (i + 1)

def uvmcopy (K : KernelImage) (old new sz : Nat) : Prog Mem Int :=
  copyLoop K old new (pagesBetween 0 sz) 0

def uvmclear (pagetable va : Nat) : Prog Mem Unit := do
  match ← walk pagetable va false with
  | none => panicWith "uvmclear"
  | some (t, i) => modify fun s => s.setPte t i (clearU (s.pte t i))

/-- The loop of `copyout`; every iteration copies at least one byte, so `src.length` of them do. -/
def copyoutLoop (pagetable : Nat) : Nat → Nat → List UInt8 → Prog Mem Int
  | 0, _, _ => pure 0
  | fuel + 1, dstva, src =>
    if src = [] then pure 0
    else if PGROUNDDOWN dstva ≥ MAXVA then pure (-1)
    else do
      match ← walk pagetable (PGROUNDDOWN dstva) false with
      | none => pure (-1)
      | some (t, i) =>
        let pte ← gets fun s => s.pte t i
        if !hasFlag pte PTE_V || !hasFlag pte PTE_U || !hasFlag pte PTE_W then pure (-1)
        else do
          let n := min (PGSIZE - (dstva - PGROUNDDOWN dstva)) src.length
          modify fun s => s.setBytes (PTE2PA pte) (dstva - PGROUNDDOWN dstva) (src.take n)
          copyoutLoop pagetable fuel (PGROUNDDOWN dstva + PGSIZE) (src.drop n)

def copyout (pagetable dstva : Nat) (src : List UInt8) : Prog Mem Int :=
  copyoutLoop pagetable src.length dstva src

/-- One iteration of `u2kvmcopy`. -/
def shadowPage (pagetable kpagetable i : Nat) : Prog Mem Unit := do
  match ← walk pagetable i false with
  | none => panicWith "u2kvmcopy: src pte does not exist"
  | some (t, j) =>
    match ← walk kpagetable i true with
    | none => panicWith "u2kvmcopy: pte walk failed"
    | some (t', j') => do
      let pte ← gets fun s => s.pte t j
      modify fun s => s.setPte t' j' (PA2PTE (PTE2PA pte) ||| clearU (PTE_FLAGS pte))

def u2kvmcopy (pagetable kpagetable oldsz newsz : Nat) : Prog Mem Unit :=
  if newsz < oldsz then pure ()
  else loop (fun j => shadowPage pagetable kpagetable (PGROUNDUP oldsz + j * PGSIZE)) 0
    (pagesBetween (PGROUNDUP oldsz) newsz)

/-- Does nothing in either case, as in the source. -/
def kvmdealloc (_pagetable oldsz newsz : Nat) : Prog Mem Unit :=
  if newsz ≥ oldsz then pure () else pure ()

/-- A load by the kernel through the page table `kpagetable`: the page must be readable and not a
user page.  Anything else is a fault, on which `kerneltrap` panics. -/
def kload (kpagetable va : Nat) : Prog Mem UInt8 :=
  if va ≥ MAXVA then panicWith "kerneltrap" else do
    match ← walk kpagetable va false with
    | none => panicWith "kerneltrap"
    | some (t, i) =>
      let pte ← gets fun s => s.pte t i
      if hasFlag pte PTE_V && hasFlag pte PTE_R && !hasFlag pte PTE_U then
        gets fun s => s.byte (PTE2PA pte + va % PGSIZE)
      else panicWith "kerneltrap"

/-- `memmove` of `n` bytes from the virtual address `va`. -/
def kloadBytes (kpagetable : Nat) : Nat → Nat → Prog Mem (List UInt8)
  | 0, _ => pure []
  | n + 1, va => do
    let b ← kload kpagetable va
    let bs ← kloadBytes kpagetable n (va + 1)
    pure (b :: bs)

/-- `copyin_new` of a process with size `sz` that runs on `kpagetable`; `none` is the result `-1`,
`some` the bytes stored in `dst`.  The length of `memmove` is a `uint`. -/
def copyinNew (kpagetable sz srcva len : Nat) : Prog Mem (Option (List UInt8)) :=
  if srcva ≥ sz ∨ (srcva + len) % 2 ^ 64 > sz ∨ (srcva + len) % 2 ^ 64 < srcva then pure none
  else do
    let bs ← kloadBytes kpagetable (len % 2 ^ 32) srcva
    pure (some bs)

/-- The loop of `copyinstr_new`: `n` bytes have been read, `fuel` more are allowed. -/
def copyinstrLoop (kpagetable sz srcva : Nat) : Nat → Nat → Prog Mem (Option (List UInt8))
  | 0, _ => pure none
  | fuel + 1, n =>
    if (srcva + n) % 2 ^ 64 ≥ sz then pure none
    else do
      let c ← kload kpagetable ((srcva + n) % 2 ^ 64)
      if c = 0 then pure (some [c])
      else do
        match ← copyinstrLoop kpagetable sz srcva fuel (n + 1) with
        | none => pure none
        | some cs => pure (some (c :: cs))

def copyinstrNew (kpagetable sz srcva max : Nat) : Prog Mem (Option (List UInt8)) :=
  if srcva ≥ sz then pure none else copyinstrLoop kpagetable sz srcva max 0

-- the elaborator would otherwise run it at the literal addresses of the kernel's page table
attribute [irreducible] kvmmap

end Xv6
