import Xv6.Kernel.Proc

/-!
# `exec`

`kernel/exec.c` and `sys_exec` of `kernel/sysfile.c`, with every failure exit.  Strings are lists of
bytes without the final NUL.  The listing that `vmprint` makes for process 1 is left out.
-/

namespace Xv6

open Prog

/-- The `k`-byte little-endian number at `off`. -/
def leAt (bs : List UInt8) (off : Nat) : Nat → Nat
  | 0 => 0
  | k + 1 => (bs.getD off 0).toNat + 256 * leAt bs (off + 1) k

def ELF_MAGIC : Nat := 0x464C457F
def ELF_PROG_LOAD : Nat := 1

/-- `sizeof(struct elfhdr)` and `sizeof(struct proghdr)`. -/
def ELFHDR_SIZE : Nat := 64
def PROGHDR_SIZE : Nat := 56

/-- The fields of `struct elfhdr` that `exec` reads. -/
structure ElfHdr where
  magic : Nat
  entry : Nat
  phoff : Nat
  phnum : Nat

def ElfHdr.parse (bs : List UInt8) : ElfHdr where
  magic := leAt bs 0 4
  entry := leAt bs 24 8
  phoff := leAt bs 32 8
  phnum := leAt bs 56 2

/-- The fields of `struct proghdr` that `exec` reads. -/
structure ProgHdr where
  type : Nat
  flags : Nat
  off : Nat
  vaddr : Nat
  filesz : Nat
  memsz : Nat

def ProgHdr.parse (bs : List UInt8) : ProgHdr where
  type := leAt bs 0 4
  flags := leAt bs 4 4
  off := leAt bs 8 8
  vaddr := leAt bs 16 8
  filesz := leAt bs 32 8
  memsz := leAt bs 40 8

def flags2perm (flags : Nat) : Nat :=
  (if hasFlag flags 1 then PTE_X else 0) ||| (if hasFlag flags 2 then PTE_W else 0)

/-- `either_copyout` to the kernel address `dst`, which lies in the page that `loadseg` fills. -/
def copyToPage (dst : Nat) (bs : List UInt8) : Prog Mem Bool := do
  modify fun s => s.setBytes (PGROUNDDOWN dst) (dst % PGSIZE) bs
  pure true

namespace Kernel

variable (K : KernelImage)

/-- The loop of `loadseg` from page `j` of the segment, with `n` pages to go. -/
def loadsegLoop (pagetable va : Nat) (ip : Fin NINODE) (offset sz : Nat) : Nat → Nat → Prog Kernel Int
  | 0, _ => pure 0
  | n + 1, j => do
    let pa ← vm (walkaddr pagetable (va + j * PGSIZE))
    if pa = 0 then panicWith "loadseg: address should exist"
    else do
      let m := min (sz - j * PGSIZE) PGSIZE
      let r ← fsysVm (Fs.readi copyToPage ip pa ((offset + j * PGSIZE) % 2 ^ 32) m)
      if r ≠ m then pure (-1) else loadsegLoop pagetable va ip offset sz n (j + 1)

def loadseg (pagetable va : Nat) (ip : Fin NINODE) (offset sz : Nat) : Prog Kernel Int :=
  loadsegLoop pagetable va ip offset sz (pagesBetween 0 sz) 0

/-- The loop over the program headers, from file offset `off` with `n` headers to go.  The result is
`sz`, and whether no step failed. -/
def loadLoop (ip : Fin NINODE) (pagetable : Nat) : Nat → Nat → Nat → Prog Kernel (Bool × Nat)
  | 0, _, sz => pure (true, sz)
  | n + 1, off, sz => do
    let (r, bs) ← fsys (Fs.readiKernel ip (off % 2 ^ 32) PROGHDR_SIZE)
    let ph := ProgHdr.parse bs
    if r ≠ PROGHDR_SIZE then pure (false, sz)
    else if ph.type ≠ ELF_PROG_LOAD then loadLoop ip pagetable n (off + PROGHDR_SIZE) sz
    else if ph.memsz < ph.filesz then pure (false, sz)
    else if (ph.vaddr + ph.memsz) % 2 ^ 64 < ph.vaddr then pure (false, sz)
    else if ph.vaddr % PGSIZE ≠ 0 then pure (false, sz)
    else do
      let sz1 ← vm (uvmalloc K pagetable sz ((ph.vaddr + ph.memsz) % 2 ^ 64) (flags2perm ph.flags))
      if sz1 = 0 then pure (false, sz)
      else do
        let r ← loadseg pagetable ph.vaddr ip (ph.off % 2 ^ 32) (ph.filesz % 2 ^ 32)
        if r < 0 then pure (false, sz1) else loadLoop ip pagetable n (off + PROGHDR_SIZE) sz1

/-- The label `bad`, once there is a page table: `ip` is the inode if it is still held. -/
def execBad (pagetable sz : Nat) (usyscallMapped : Bool) (ip : Option (Fin NINODE)) : Prog Kernel Int := do
  (if usyscallMapped then vm (uvmunmap K pagetable USYSCALL 1 false) else pure ())
  vm (procFreepagetable K pagetable sz)
  (match ip with
    | none => pure ()
    | some ip => fsys (do
      Fs.iunlockput ip
      Fs.endOp))
  pure (-1)

/-- `sp -= n; sp -= sp % 16` in 64 bits. -/
def pushDown (sp n : Nat) : Nat :=
  let sp := (sp + 2 ^ 64 - n) % 2 ^ 64
  sp - sp % 16

/-- Push the argument strings: `sp` and `ustack` at the end, or `none`. -/
def pushArgs (pagetable stackbase : Nat) : List (List UInt8) → Nat → Nat → List Nat →
    Prog Kernel (Option (Nat × List Nat))
  | [], _, sp, ustack => pure (some (sp, ustack))
  | arg :: args, argc, sp, ustack =>
    if argc ≥ MAXARG then pure none
    else
      let sp := pushDown sp (arg.length + 1)
      if sp < stackbase then pure none
      else do
        let r ← vm (copyout pagetable sp (arg ++ [0]))
        if r < 0 then pure none else pushArgs pagetable stackbase args (argc + 1) sp (ustack ++ [sp])

/-- The bytes of an array of 64-bit words. -/
def wordBytes (ws : List Nat) : List UInt8 :=
  ws.flatMap fun w => (List.range 8).map fun b => UInt8.ofNat (w / 256 ^ b)

/-- The last element of a path. -/
def baseName (path : List UInt8) : List UInt8 :=
  (path.reverse.takeWhile (· ≠ Fs.SLASH)).reverse

/-- From "arguments to user main" on: the new image replaces the old one. -/
def execCommit (i : Fin NPROC) (path : List UInt8) (entry pagetable sz sp argc : Nat)
    (usyscallMapped : Bool) : Prog Kernel Int := do
  let p ← readProc i
  vm (modify fun s => s.setField p.trapframe TF_A1 8 sp)
  modifyProc i fun p => { p with name := procName (baseName path), pagetable := pagetable, sz := sz }
  vm (modify fun s => s.setField p.trapframe TF_EPC 8 entry)
  vm (modify fun s => s.setField p.trapframe TF_SP 8 sp)
  (if p.usyscall ≠ 0 ∧ usyscallMapped then vm (uvmunmap K p.pagetable USYSCALL 1 false) else pure ())
  vm (procFreepagetable K p.pagetable p.sz)
  pure argc

/-- Pushing the arguments, once the shadow mappings have been replaced. -/
def execArgs (i : Fin NPROC) (path : List UInt8) (argv : List (List UInt8)) (entry pagetable sz : Nat)
    (usyscallMapped : Bool) : Prog Kernel Int := do
  match ← pushArgs pagetable (sz - PGSIZE) argv 0 sz [] with
  | none => execBad K pagetable sz usyscallMapped none
  | some (sp, ustack) => do
    let sp := pushDown sp ((argv.length + 1) * 8)
    if sp < sz - PGSIZE then execBad K pagetable sz usyscallMapped none
    else do
      let r ← vm (copyout pagetable sp (wordBytes (ustack ++ [0])))
      if r < 0 then execBad K pagetable sz usyscallMapped none
      else execCommit K i path entry pagetable sz sp argv.length usyscallMapped

/-- The stack, the shadow mappings and the rest, once the file has been read and closed. -/
def execStack (i : Fin NPROC) (path : List UInt8) (argv : List (List UInt8)) (entry pagetable sz : Nat) :
    Prog Kernel Int := do
  let sz1 ← vm (uvmalloc K pagetable (PGROUNDUP sz) (PGROUNDUP sz + 2 * PGSIZE) PTE_W)
  if sz1 = 0 then execBad K pagetable (PGROUNDUP sz) false none
  else do
    vm (uvmclear pagetable (sz1 - 2 * PGSIZE))
    if PGROUNDUP sz1 ≥ USER_TOP then execBad K pagetable sz1 false none
    else do
      let p ← readProc i
      vm (kvmdealloc p.kpagetable p.sz 0)
      vm (u2kvmcopy pagetable p.kpagetable 0 sz1)
      if p.usyscall ≠ 0 then do
        vm (modify fun s => s.setField p.usyscall 0 4 p.pid)
        let r ← vm (mappages pagetable USYSCALL PGSIZE p.usyscall (PTE_R ||| PTE_U))
        if r < 0 then execBad K pagetable sz1 false none
        else execArgs K i path argv entry pagetable sz1 true
      else execArgs K i path argv entry pagetable sz1 false

/-- `iunlockput(ip); end_op(); return -1`, before there is a page table. -/
def execClose (ip : Fin NINODE) : Prog Kernel Int := do
  fsys (do
    Fs.iunlockput ip
    Fs.endOp)
  pure (-1)

/-- `sys_exec` passes at most `MAXARG - 1` strings. -/
def exec (i : Fin NPROC) (path : List UInt8) (argv : List (List UInt8)) : Prog Kernel Int := do
  let p ← readProc i
  fsys Fs.beginOp
  match ← fsys (Fs.namei p.cwd path) with
  | none => do
    fsys Fs.endOp
    pure (-1)
  | some ip => do
    fsys (Fs.ilock ip)
    let (r, bs) ← fsys (Fs.readiKernel ip 0 ELFHDR_SIZE)
    let elf := ElfHdr.parse bs
    if r ≠ ELFHDR_SIZE then execClose ip
    else if elf.magic ≠ ELF_MAGIC then execClose ip
    else do
      match ← vm (procPagetable K p.trapframe) with
      | none => execClose ip
      | some pagetable => do
        let (loaded, sz) ← loadLoop K ip pagetable elf.phnum elf.phoff 0
        if !loaded then execBad K pagetable sz false (some ip)
        else do
          fsys (do
            Fs.iunlockput ip
            Fs.endOp)
          execStack K i path argv elf.entry pagetable sz

/-- The pages for the strings of `argv`: whether there were enough, and what has been allocated. -/
def allocArgs : Nat → List Nat → Prog Kernel (Bool × List Nat)
  | 0, pages => pure (true, pages)
  | n + 1, pages => do
    match ← vm kalloc with
    | none => pure (false, pages)
    | some pa => allocArgs n (pages ++ [pa])

def freeArgs : List Nat → Prog Kernel Unit
  | [] => pure ()
  | pa :: pas => do
    vm (kfree K pa)
    freeArgs pas

/-- `argv` has a string for each page that the loop asks for; `fetched` says that `fetchaddr` and
`fetchstr` never failed. -/
def sysExec (i : Fin NPROC) (path : Option (List UInt8)) (argv : List (List UInt8)) (fetched : Bool) :
    Prog Kernel Int := do
  match path with
  | none => pure (-1)
  | some path => do
    let (ok, pages) ← allocArgs (min argv.length MAXARG) []
    if !ok || !fetched || decide (argv.length ≥ MAXARG) then do
      freeArgs K pages
      pure (-1)
    else do
      let ret ← exec K i path argv
      freeArgs K pages
      pure ret

end Kernel

end Xv6
