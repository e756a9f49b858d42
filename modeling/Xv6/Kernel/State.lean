import Xv6.Fs.Defs
import Xv6.Proc.Basic

/-!
# The kernel's state, and files and pipes

`kernel/file.c` and the life of the pipes of `kernel/pipe.c` (the bytes in a pipe are left out).

* `Kernel` — physical memory, the process table, the file system and the file table.
* `filealloc`, `filedup`, `fileclose`, `pipealloc`, `pipeclose`.

One system call runs at a time, to its end.  A lock that is found taken is never released in such a
run, so taking it hangs; `itable.lock`, `ftable.lock`, `wait_lock` and the locks of pipes are free
between calls and are left out.
-/

namespace Xv6

open Prog

inductive FileType where
  | FD_NONE
  | FD_PIPE
  | FD_INODE
  | FD_DEVICE
  deriving DecidableEq, Repr

/-- `struct file`. -/
structure File where
  type : FileType
  ref : Int
  readable : Bool
  writable : Bool
  pipe : Nat
  ip : Option (Fin NINODE)
  off : Nat
  major : Nat

def File.zero : File := ⟨.FD_NONE, 0, false, false, 0, none, 0, 0⟩

/-- `struct pipe` without its data. -/
structure Pipe where
  readopen : Bool
  writeopen : Bool

structure Kernel where
  mem : Mem
  /-- `kernel_pagetable`. -/
  kernelPagetable : Nat
  /-- `disk.desc`, `disk.avail` and `disk.used`. -/
  disk : List Nat
  proc : Fin NPROC → Proc
  nextpid : Nat
  initproc : Option (Fin NPROC)
  fs : Fs
  file : Fin NFILE → File
  /-- The pipe in the page at this address. -/
  pipe : Nat → Pipe

namespace Kernel

variable {α : Type}

def vm (x : Prog Mem α) : Prog Kernel α := zoom Kernel.mem (fun m k => { k with mem := m }) x

def fsys (x : Prog Fs α) : Prog Kernel α := zoom Kernel.fs (fun f k => { k with fs := f }) x

/-- A program that reads or writes files and memory. -/
def fsysVm (x : Prog (Fs × Mem) α) : Prog Kernel α :=
  zoom (fun k => (k.fs, k.mem)) (fun fm k => { k with fs := fm.1, mem := fm.2 }) x

def readProc (i : Fin NPROC) : Prog Kernel Proc := gets fun k => k.proc i

def updProc (k : Kernel) (i : Fin NPROC) (f : Proc → Proc) : Kernel :=
  { k with proc := Function.update k.proc i (f (k.proc i)) }

def modifyProc (i : Fin NPROC) (f : Proc → Proc) : Prog Kernel Unit := modify fun k => k.updProc i f

def updFile (k : Kernel) (i : Fin NFILE) (f : File → File) : Kernel :=
  { k with file := Function.update k.file i (f (k.file i)) }

def modifyFile (i : Fin NFILE) (f : File → File) : Prog Kernel Unit := modify fun k => k.updFile i f

/-! ## `p->lock` -/

def acquire (i : Fin NPROC) : Prog Kernel Unit := do
  let p ← readProc i
  if p.locked then hang else modifyProc i fun p => { p with locked := true }

def release (i : Fin NPROC) : Prog Kernel Unit := modifyProc i fun p => { p with locked := false }

/-- The locks that `wakeup` takes: those of all processes but `me`. -/
def wakeupLocks (me : Fin NPROC) : List (Fin NPROC) → Prog Kernel Unit
  | [] => pure ()
  | i :: is => do
    (if i ≠ me then do
      acquire i
      release i
    else pure ())
    wakeupLocks me is

/-- No process sleeps between completed calls, so `wakeup` changes no state. -/
def wakeup (me : Fin NPROC) : Prog Kernel Unit := wakeupLocks me (List.finRange NPROC)

/-! ## Files -/

def filealloc : Prog Kernel (Option (Fin NFILE)) := do
  let k ← get
  match (List.finRange NFILE).find? fun f => decide ((k.file f).ref = 0) with
  | none => pure none
  | some f => do
    modifyFile f fun x => { x with ref := 1 }
    pure (some f)

def filedup (f : Fin NFILE) : Prog Kernel Unit := do
  let k ← get
  if (k.file f).ref < 1 then panicWith "filedup"
  else modifyFile f fun x => { x with ref := x.ref + 1 }

def modifyPipe (pi : Nat) (f : Pipe → Pipe) : Prog Kernel Unit :=
  modify fun k => { k with pipe := Function.update k.pipe pi (f (k.pipe pi)) }

def pipeclose (K : KernelImage) (me : Fin NPROC) (pi : Nat) (writable : Bool) : Prog Kernel Unit := do
  (if writable then do
    modifyPipe pi fun x => { x with writeopen := false }
    wakeup me
  else do
    modifyPipe pi fun x => { x with readopen := false }
    wakeup me)
  let k ← get
  if !(k.pipe pi).readopen && !(k.pipe pi).writeopen then vm (kfree K pi) else pure ()

/-- A null `ff.ip` would fault in `iput`. -/
def iputFile (ip : Option (Fin NINODE)) : Prog Kernel Unit :=
  match ip with
  | none => panicWith "kerneltrap"
  | some ip => fsys (do
    Fs.beginOp
    Fs.iput ip
    Fs.endOp)

def fileclose (K : KernelImage) (me : Fin NPROC) (f : Fin NFILE) : Prog Kernel Unit := do
  let k ← get
  if (k.file f).ref < 1 then panicWith "fileclose"
  else if (k.file f).ref - 1 > 0 then modifyFile f fun x => { x with ref := x.ref - 1 }
  else do
    let ff := k.file f
    modifyFile f fun x => { x with ref := 0, type := .FD_NONE }
    match ff.type with
    | .FD_PIPE => pipeclose K me ff.pipe ff.writable
    | .FD_INODE => iputFile ff.ip
    | .FD_DEVICE => iputFile ff.ip
    | .FD_NONE => pure ()

/-- `none` is the result `-1`. -/
def pipealloc (K : KernelImage) (me : Fin NPROC) : Prog Kernel (Option (Fin NFILE × Fin NFILE)) := do
  match ← filealloc with
  | none => pure none
  | some f0 =>
    match ← filealloc with
    | none => do
      fileclose K me f0
      pure none
    | some f1 =>
      match ← vm kalloc with
      | none => do
        fileclose K me f0
        fileclose K me f1
        pure none
      | some pi => do
        modifyPipe pi fun _ => { readopen := true, writeopen := true }
        modifyFile f0 fun x => { x with type := .FD_PIPE, readable := true, writable := false, pipe := pi }
        modifyFile f1 fun x => { x with type := .FD_PIPE, readable := false, writable := true, pipe := pi }
        pure (some (f0, f1))

end Kernel

end Xv6
