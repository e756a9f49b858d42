import Xv6.Kernel.Exec

/-!
# File system calls

The system calls of `kernel/sysfile.c`.  A path is the string that `argstr` has fetched, `none` when
it could not.
-/

namespace Xv6

open Prog

namespace Fs

/-- The inode is returned locked. -/
def create (cwd : Option (Fin NINODE)) (path : List UInt8) (type major minor : Nat) :
    Prog Fs (Option (Fin NINODE)) := do
  match ← nameiparent cwd path with
  | none => pure none
  | some (dp, name) => do
    ilock dp
    match ← dirlookup dp name with
    | some (ip, _) => do
      iunlockput dp
      ilock ip
      let s ← get
      if type = T_FILE ∧ ((s.inode ip).d.type = T_FILE ∨ (s.inode ip).d.type = T_DEVICE) then
        pure (some ip)
      else do
        iunlockput ip
        pure none
    | none => do
      let s ← get
      match ← ialloc (s.inode dp).dev type with
      | none => do
        iunlockput dp
        pure none
      | some ip => do
        ilock ip
        modifyD ip fun d => { d with major := major, minor := minor, nlink := 1 }
        iupdate ip
        let s ← get
        let dots ← (if type = T_DIR then do
          let r ← dirlink ip [46] (s.inode ip).inum
          if r < 0 then pure false
          else do
            let r ← dirlink ip [46, 46] (s.inode dp).inum
            pure (decide (r ≥ 0))
        else pure true)
        let linked ← (if dots then do
          let r ← dirlink dp name (s.inode ip).inum
          pure (decide (r ≥ 0))
        else pure false)
        if linked then do
          (if type = T_DIR then do
            modifyD dp fun d => { d with nlink := (d.nlink + 1) % 2 ^ 16 }
            iupdate dp
          else pure ())
          iunlockput dp
          pure (some ip)
        else do
          modifyD ip fun d => { d with nlink := 0 }
          iupdate ip
          iunlockput ip
          iunlockput dp
          pure none

/-- `sys_link` after the paths have been fetched. -/
def link (cwd : Option (Fin NINODE)) (old new : List UInt8) : Prog Fs Int := do
  beginOp
  match ← namei cwd old with
  | none => do
    endOp
    pure (-1)
  | some ip => do
    ilock ip
    let s ← get
    if (s.inode ip).d.type = T_DIR then do
      iunlockput ip
      endOp
      pure (-1)
    else do
      modifyD ip fun d => { d with nlink := (d.nlink + 1) % 2 ^ 16 }
      iupdate ip
      iunlock ip
      let done ← (do
        match ← nameiparent cwd new with
        | none => pure false
        | some (dp, name) => do
          ilock dp
          let s ← get
          let ok ← (if (s.inode dp).dev ≠ (s.inode ip).dev then pure false
            else do
              let r ← dirlink dp name (s.inode ip).inum
              pure (decide (r ≥ 0)))
          iunlockput dp
          pure ok)
      if done then do
        iput ip
        endOp
        pure 0
      else do
        ilock ip
        modifyD ip fun d => { d with nlink := (d.nlink + 2 ^ 16 - 1) % 2 ^ 16 }
        iupdate ip
        iunlockput ip
        endOp
        pure (-1)

/-- The loop of `isdirempty` from offset `off`. -/
def isdiremptyLoop (dp : Fin NINODE) : Nat → Nat → Prog Fs Bool
  | 0, _ => pure true
  | fuel + 1, off => do
    let s ← get
    if off < (s.inode dp).d.size then do
      let (r, de) ← readiKernel dp off 16
      if r ≠ 16 then panicWith "isdirempty: readi"
      else if direntInum de ≠ 0 then pure false
      else isdiremptyLoop dp fuel (off + 16)
    else pure true

def isdirempty (dp : Fin NINODE) : Prog Fs Bool := do
  let s ← get
  isdiremptyLoop dp (s.inode dp).d.size 32

/-- `iunlockput(dp); end_op(); return -1`. -/
def unlinkBad (dp : Fin NINODE) : Prog Fs Int := do
  iunlockput dp
  endOp
  pure (-1)

/-- `sys_unlink` after the path has been fetched.  `nlink < 1` is a comparison of shorts. -/
def unlink (cwd : Option (Fin NINODE)) (path : List UInt8) : Prog Fs Int := do
  beginOp
  match ← nameiparent cwd path with
  | none => do
    endOp
    pure (-1)
  | some (dp, name) => do
    ilock dp
    if dirName name = [46] ∨ dirName name = [46, 46] then unlinkBad dp
    else do
      match ← dirlookup dp name with
      | none => unlinkBad dp
      | some (ip, off) => do
        ilock ip
        let s ← get
        if (s.inode ip).d.nlink = 0 ∨ (s.inode ip).d.nlink ≥ 2 ^ 15 then panicWith "unlink: nlink < 1"
        else do
          let keep ← (if (s.inode ip).d.type = T_DIR then do
            let empty ← isdirempty ip
            pure !empty
          else pure false)
          if keep then do
            iunlockput ip
            unlinkBad dp
          else do
            let r ← writeiKernel dp (List.replicate 16 0) off
            if r ≠ 16 then panicWith "unlink: writei"
            else do
              (if (s.inode ip).d.type = T_DIR then do
                modifyD dp fun d => { d with nlink := (d.nlink + 2 ^ 16 - 1) % 2 ^ 16 }
                iupdate dp
              else pure ())
              iunlockput dp
              modifyD ip fun d => { d with nlink := (d.nlink + 2 ^ 16 - 1) % 2 ^ 16 }
              iupdate ip
              iunlockput ip
              endOp
              pure 0

/-- `sys_mkdir` and `sys_mknod`: the path is fetched inside the transaction. -/
def mkfile (cwd : Option (Fin NINODE)) (path : Option (List UInt8)) (type major minor : Nat) :
    Prog Fs Int := do
  beginOp
  match path with
  | none => do
    endOp
    pure (-1)
  | some path => do
    match ← create cwd path type major minor with
    | none => do
      endOp
      pure (-1)
    | some ip => do
      iunlockput ip
      endOp
      pure 0

def mkdir (cwd : Option (Fin NINODE)) (path : Option (List UInt8)) : Prog Fs Int :=
  mkfile cwd path T_DIR 0 0

def mknod (cwd : Option (Fin NINODE)) (path : Option (List UInt8)) (major minor : Nat) : Prog Fs Int :=
  mkfile cwd path T_DEVICE (major % 2 ^ 16) (minor % 2 ^ 16)

end Fs

namespace Kernel

variable (K : KernelImage)

theorem toNat_lt_NOFILE {fd : Int} (h : 0 ≤ fd ∧ fd < NOFILE) : fd.toNat < NOFILE := by omega

/-- `none` is the result `-1`. -/
def argfd (i : Fin NPROC) (fd : Int) : Prog Kernel (Option (Fin NOFILE × Fin NFILE)) := do
  let p ← readProc i
  if h : 0 ≤ fd ∧ fd < NOFILE then
    match p.ofile ⟨fd.toNat, toNat_lt_NOFILE h⟩ with
    | none => pure none
    | some f => pure (some (⟨fd.toNat, toNat_lt_NOFILE h⟩, f))
  else pure none

/-- `none` is the result `-1`. -/
def fdalloc (i : Fin NPROC) (f : Fin NFILE) : Prog Kernel (Option (Fin NOFILE)) := do
  let p ← readProc i
  match (List.finRange NOFILE).find? fun fd => decide (p.ofile fd = none) with
  | none => pure none
  | some fd => do
    modifyProc i fun p => { p with ofile := Function.update p.ofile fd (some f) }
    pure (some fd)

def clearFd (i : Fin NPROC) (fd : Fin NOFILE) : Prog Kernel Unit :=
  modifyProc i fun p => { p with ofile := Function.update p.ofile fd none }

def sysDup (i : Fin NPROC) (fd : Int) : Prog Kernel Int := do
  match ← argfd i fd with
  | none => pure (-1)
  | some (_, f) =>
    match ← fdalloc i f with
    | none => pure (-1)
    | some fd => do
      filedup f
      pure fd.val

def sysClose (i : Fin NPROC) (fd : Int) : Prog Kernel Int := do
  match ← argfd i fd with
  | none => pure (-1)
  | some (fd, f) => do
    clearFd i fd
    fileclose K i f
    pure 0

/-- A null `f->ip` would fault. -/
def fileInode (f : Fin NFILE) : Prog Kernel (Fin NINODE) := do
  let k ← get
  match (k.file f).ip with
  | none => panicWith "kerneltrap"
  | some ip => pure ip

/-- `either_copyout` to a user address. -/
def copyoutUser (pagetable dst : Nat) (bs : List UInt8) : Prog Mem Bool := do
  let r ← copyout pagetable dst bs
  pure (decide (r ≥ 0))

def CONSOLE : Nat := 1

/-- `consoleinit` fills only the entry of the console. -/
def hasDevice (major : Nat) : Bool := decide (major < NDEV ∧ major = CONSOLE)

/-- The bytes in pipes and on the console are left out, and so is a call that moves some. -/
def fileread (i : Fin NPROC) (f : Fin NFILE) (addr : Nat) (n : Nat) : Prog Kernel Int := do
  let k ← get
  if !(k.file f).readable then pure (-1)
  else
    match (k.file f).type with
    | .FD_INODE => do
      let ip ← fileInode f
      fsys (Fs.ilock ip)
      let p ← readProc i
      let r ← fsysVm (Fs.readi (copyoutUser p.pagetable) ip addr (k.file f).off n)
      (if r > 0 then modifyFile f fun x => { x with off := (x.off + r.toNat) % 2 ^ 32 } else pure ())
      fsys (Fs.iunlock ip)
      pure r
    | .FD_DEVICE => if !hasDevice (k.file f).major then pure (-1) else hang
    | .FD_NONE => panicWith "fileread"
    | .FD_PIPE => hang

/-- The loop of `filewrite`; `w` bytes have been written. -/
def filewriteLoop (i : Fin NPROC) (f : Fin NFILE) (addr n : Nat) : Nat → Nat → Prog Kernel Nat
  | 0, w => pure w
  | fuel + 1, w =>
    if w < n then do
      let n1 := min (n - w) ((MAXOPBLOCKS - 1 - 1 - 2) / 2 * BSIZE)
      let ip ← fileInode f
      fsys Fs.beginOp
      fsys (Fs.ilock ip)
      let p ← readProc i
      let k ← get
      let r ← fsysVm (Fs.writei (fun src m => copyinNew p.kpagetable p.sz src m) ip
        ((addr + w) % 2 ^ 64) (k.file f).off n1)
      (if r > 0 then modifyFile f fun x => { x with off := (x.off + r.toNat) % 2 ^ 32 } else pure ())
      fsys (Fs.iunlock ip)
      fsys Fs.endOp
      if r ≠ n1 then pure w else filewriteLoop i f addr n fuel (w + n1)
    else pure w

def filewrite (i : Fin NPROC) (f : Fin NFILE) (addr n : Nat) : Prog Kernel Int := do
  let k ← get
  if !(k.file f).writable then pure (-1)
  else
    match (k.file f).type with
    | .FD_INODE => do
      let w ← filewriteLoop i f addr n n 0
      pure (if w = n then n else -1)
    | .FD_DEVICE => if !hasDevice (k.file f).major then pure (-1) else hang
    | .FD_NONE => panicWith "filewrite"
    | .FD_PIPE => hang

/-- `struct stat`; the four bytes of padding are written as zeros. -/
def statBytes (i : Inode) : List UInt8 :=
  let le := fun (k v : Nat) => (List.range k).map fun b => UInt8.ofNat (v / 256 ^ b)
  le 4 i.dev ++ le 4 i.inum ++ le 2 i.d.type ++ le 2 i.d.nlink ++ le 4 0 ++ le 8 i.d.size

def statInode (i : Fin NPROC) (f : Fin NFILE) (addr : Nat) : Prog Kernel Int := do
  let ip ← fileInode f
  fsys (Fs.ilock ip)
  let k ← get
  fsys (Fs.iunlock ip)
  let p ← readProc i
  vm (copyout p.pagetable addr (statBytes (k.fs.inode ip)))

def filestat (i : Fin NPROC) (f : Fin NFILE) (addr : Nat) : Prog Kernel Int := do
  let k ← get
  match (k.file f).type with
  | .FD_INODE | .FD_DEVICE => statInode i f addr
  | .FD_NONE | .FD_PIPE => pure (-1)

def sysFstat (i : Fin NPROC) (fd : Int) (addr : Nat) : Prog Kernel Int := do
  match ← argfd i fd with
  | none => pure (-1)
  | some (_, f) => filestat i f addr

/-- `n` is an `int`; a negative one is converted to a huge `uint` by `readi`. -/
def sysRead (i : Fin NPROC) (fd : Int) (addr : Nat) (n : Int) : Prog Kernel Int := do
  match ← argfd i fd with
  | none => pure (-1)
  | some (_, f) => fileread i f addr (n % 2 ^ 32).toNat

/-- A negative `n` writes nothing and is not equal to the count `0`. -/
def sysWrite (i : Fin NPROC) (fd : Int) (addr : Nat) (n : Int) : Prog Kernel Int := do
  match ← argfd i fd with
  | none => pure (-1)
  | some (_, f) => do
    let r ← filewrite i f addr n.toNat
    pure (if n < 0 then -1 else r)

def sysLink (i : Fin NPROC) (old new : Option (List UInt8)) : Prog Kernel Int := do
  let p ← readProc i
  match old, new with
  | some old, some new => fsys (Fs.link p.cwd old new)
  | _, _ => pure (-1)

def sysUnlink (i : Fin NPROC) (path : Option (List UInt8)) : Prog Kernel Int := do
  let p ← readProc i
  match path with
  | some path => fsys (Fs.unlink p.cwd path)
  | none => pure (-1)

def sysMkdir (i : Fin NPROC) (path : Option (List UInt8)) : Prog Kernel Int := do
  let p ← readProc i
  fsys (Fs.mkdir p.cwd path)

def sysMknod (i : Fin NPROC) (path : Option (List UInt8)) (major minor : Nat) : Prog Kernel Int := do
  let p ← readProc i
  fsys (Fs.mknod p.cwd path major minor)

def sysChdir (i : Fin NPROC) (path : Option (List UInt8)) : Prog Kernel Int := do
  let p ← readProc i
  fsys Fs.beginOp
  match path with
  | none => do
    fsys Fs.endOp
    pure (-1)
  | some path =>
    match ← fsys (Fs.namei p.cwd path) with
    | none => do
      fsys Fs.endOp
      pure (-1)
    | some ip => do
      fsys (Fs.ilock ip)
      let k ← get
      if (k.fs.inode ip).d.type ≠ T_DIR then do
        fsys (Fs.iunlockput ip)
        fsys Fs.endOp
        pure (-1)
      else do
        fsys (Fs.iunlock ip)
        (match p.cwd with
          | none => panicWith "kerneltrap"
          | some cwd => fsys (Fs.iput cwd))
        fsys Fs.endOp
        modifyProc i fun p => { p with cwd := some ip }
        pure 0

/-- The inode that `sys_open` opens, locked; `none` after `end_op`. -/
def openInode (i : Fin NPROC) (path : List UInt8) (omode : Nat) : Prog Kernel (Option (Fin NINODE)) := do
  let p ← readProc i
  if hasFlag omode O_CREATE then do
    match ← fsys (Fs.create p.cwd path T_FILE 0 0) with
    | none => do
      fsys Fs.endOp
      pure none
    | some ip => pure (some ip)
  else do
    match ← fsys (Fs.namei p.cwd path) with
    | none => do
      fsys Fs.endOp
      pure none
    | some ip => do
      fsys (Fs.ilock ip)
      let k ← get
      if (k.fs.inode ip).d.type = T_DIR ∧ omode ≠ O_RDONLY then do
        fsys (Fs.iunlockput ip)
        fsys Fs.endOp
        pure none
      else pure (some ip)

/-- The failure exit of `sys_open` after the inode has been found. -/
def openBad (ip : Fin NINODE) : Prog Kernel Int := do
  fsys (Fs.iunlockput ip)
  fsys Fs.endOp
  pure (-1)

def sysOpen (i : Fin NPROC) (path : Option (List UInt8)) (omode : Nat) : Prog Kernel Int := do
  match path with
  | none => pure (-1)
  | some path => do
    fsys Fs.beginOp
    match ← openInode i path omode with
    | none => pure (-1)
    | some ip => do
      let k ← get
      let d := (k.fs.inode ip).d
      if d.type = T_DEVICE ∧ (d.major ≥ 2 ^ 15 ∨ d.major ≥ NDEV) then openBad ip
      else do
        match ← filealloc with
        | none => openBad ip
        | some f =>
          match ← fdalloc i f with
          | none => do
            fileclose K i f
            openBad ip
          | some fd => do
            (if d.type = T_DEVICE then
              modifyFile f fun x => { x with type := .FD_DEVICE, major := d.major }
            else modifyFile f fun x => { x with type := .FD_INODE, off := 0 })
            modifyFile f fun x =>
              { x with ip := some ip, readable := !hasFlag omode O_WRONLY,
                       writable := hasFlag omode O_WRONLY || hasFlag omode O_RDWR }
            (if hasFlag omode O_TRUNC ∧ d.type = T_FILE then fsys (Fs.itrunc ip) else pure ())
            fsys (Fs.iunlock ip)
            fsys Fs.endOp
            pure fd.val

/-- `copyout` of one file descriptor. -/
def putFd (i : Fin NPROC) (addr : Nat) (fd : Fin NOFILE) : Prog Kernel Int := do
  let p ← readProc i
  vm (copyout p.pagetable addr ((List.range 4).map fun b => UInt8.ofNat (fd.val / 256 ^ b)))

def sysPipe (i : Fin NPROC) (fdarray : Nat) : Prog Kernel Int := do
  match ← pipealloc K i with
  | none => pure (-1)
  | some (rf, wf) =>
    match ← fdalloc i rf with
    | none => do
      fileclose K i rf
      fileclose K i wf
      pure (-1)
    | some fd0 =>
      match ← fdalloc i wf with
      | none => do
        clearFd i fd0
        fileclose K i rf
        fileclose K i wf
        pure (-1)
      | some fd1 => do
        let r0 ← putFd i fdarray fd0
        let r ← (if r0 < 0 then pure (-1) else putFd i ((fdarray + 4) % 2 ^ 64) fd1)
        if r < 0 then do
          clearFd i fd0
          clearFd i fd1
          fileclose K i rf
          fileclose K i wf
          pure (-1)
        else pure 0

end Kernel

end Xv6
