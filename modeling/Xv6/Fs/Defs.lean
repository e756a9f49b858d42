import Xv6.Bio
import Xv6.Log.Header

/-!
# The file system

`kernel/fs.c` over a flat block store: that the buffer cache and the log implement one is
`Trans.cache_refines_flat_store`.  The log's counters are kept, since `begin_op`, `log_write` and
`end_op` check them, and so are the buffers that the running call has locked.

* `Fs` — the super block, the log, the store, the locked buffers and the table of in-memory inodes.
* A `short` is a natural number below `2 ^ 16`, negative from `2 ^ 15` on; a `uint` is below `2 ^ 32`.
* `readi` and `writei` copy to and from a memory outside the file system, which is a second
  component of the state; `copy` and `fetch` stand for `either_copyout` and `either_copyin`.
-/

namespace Xv6

open Prog ByteStore

structure Super where
  size : Nat
  ninodes : Nat
  inodestart : Nat
  bmapstart : Nat

/-- The fields that `struct dinode` and `struct inode` share; `addrs` has `NDIRECT + 1` entries. -/
structure Dinode where
  type : Nat
  major : Nat
  minor : Nat
  nlink : Nat
  size : Nat
  addrs : Nat → Nat

/-- `struct inode`. -/
structure Inode where
  dev : Nat
  inum : Nat
  ref : Int
  locked : Bool
  valid : Bool
  d : Dinode

structure Fs where
  sb : Super
  log : Log
  store : Nat → Block
  /-- The blocks whose buffers the running call holds between `bread` and `brelse`. -/
  held : List Nat
  inode : Fin NINODE → Inode

namespace Super

def IBLOCK (sb : Super) (i : Nat) : Nat := i / IPB + sb.inodestart
def BBLOCK (sb : Super) (b : Nat) : Nat := b / BPB + sb.bmapstart

end Super

namespace Fs

/-! ## The log -/

/-- `none` in the log means that the caller sleeps until another operation has ended. -/
def beginOp : Prog Fs Unit := do
  let s ← get
  match s.log.beginOp with
  | none => hang
  | some l => modify fun s => { s with log := l }

/-- `commit` empties the header. -/
def endOp : Prog Fs Unit := do
  let s ← get
  match s.log.endOp with
  | .error m => panicWith m
  | .ok (l, doCommit) =>
    if doCommit then modify fun s => { s with log := { l with lh := [] }.endCommit }
    else modify fun s => { s with log := l }

/-- A call that asks for a buffer it holds itself sleeps for ever. -/
def bread (bno : Nat) : Prog Fs Block := do
  let s ← get
  if bno ∈ s.held then hang
  else do
    modify fun s => { s with held := bno :: s.held }
    pure (s.store bno)

def brelse (bno : Nat) : Prog Fs Unit := do
  let s ← get
  if bno ∈ s.held then modify fun s => { s with held := s.held.erase bno }
  else panicWith "brelse"

/-- The buffer of block `bno` has been filled with `data`. -/
def logWrite (bno : Nat) (data : Block) : Prog Fs Unit := do
  let s ← get
  match s.log.logWrite bno with
  | .error m => panicWith m
  | .ok (l, _) => modify fun s => { s with log := l, store := Function.update s.store bno data }

/-! ## Blocks -/

/-- `data[bi/8] & (1 << (bi % 8))`. -/
def bitAt (d : Block) (bi : Nat) : Bool := (byte d (bi / 8)).toNat.testBit (bi % 8)

/-- `data[bi/8] |= m` and `data[bi/8] &= ~m`. -/
def setBitAt (d : Block) (bi : Nat) (v : Bool) : Block :=
  let x := (byte d (bi / 8)).toNat
  let m := 1 <<< (bi % 8)
  setByte d (bi / 8) (UInt8.ofNat (if v then x ||| m else x &&& (255 - m)))

def bzero (bno : Nat) : Prog Fs Unit := do
  let _ ← bread bno
  logWrite bno fun _ => 0
  brelse bno

/-- The two loops of `balloc`, from block `b` with `n` blocks to go.  The source holds the buffer of a
bitmap block until it has looked at all its bits. -/
def ballocLoop : Nat → Nat → Prog Fs Nat
  | 0, _ => pure 0
  | n + 1, b => do
    let s ← get
    let bp ← bread (s.sb.BBLOCK b)
    if !bitAt bp (b % BPB) then do
      logWrite (s.sb.BBLOCK b) (setBitAt bp (b % BPB) true)
      brelse (s.sb.BBLOCK b)
      bzero b
      pure b
    else do
      brelse (s.sb.BBLOCK b)
      ballocLoop n (b + 1)

/-- `0` when the disk is full. -/
def balloc : Prog Fs Nat := do
  let s ← get
  ballocLoop s.sb.size 0

def bfree (b : Nat) : Prog Fs Unit := do
  let s ← get
  let bp ← bread (s.sb.BBLOCK b)
  if !bitAt bp (b % BPB) then panicWith "freeing free block"
  else do
    logWrite (s.sb.BBLOCK b) (setBitAt bp (b % BPB) false)
    brelse (s.sb.BBLOCK b)

/-! ## Inodes -/

/-- The offset of inode `i` in its block. -/
def dinodeOff (i : Nat) : Nat := i % IPB * 64

def readDinode (b : Block) (off : Nat) : Dinode where
  type := readLE b off 2
  major := readLE b (off + 2) 2
  minor := readLE b (off + 4) 2
  nlink := readLE b (off + 6) 2
  size := readLE b (off + 8) 4
  addrs := fun i => readLE b (off + 12 + 4 * i) 4

/-- `memmove(dip->addrs, ip->addrs, …)`, the first `n` words. -/
def writeAddrs (addrs : Nat → Nat) (b : Block) (off : Nat) : Nat → Block
  | 0 => b
  | n + 1 => writeLE (writeAddrs addrs b off n) (off + 4 * n) 4 (addrs n)

def writeDinode (d : Dinode) (b : Block) (off : Nat) : Block :=
  let b := writeLE b off 2 d.type
  let b := writeLE b (off + 2) 2 d.major
  let b := writeLE b (off + 4) 2 d.minor
  let b := writeLE b (off + 6) 2 d.nlink
  let b := writeLE b (off + 8) 4 d.size
  writeAddrs d.addrs b (off + 12) (NDIRECT + 1)

def updInode (s : Fs) (ip : Fin NINODE) (f : Inode → Inode) : Fs :=
  { s with inode := Function.update s.inode ip (f (s.inode ip)) }

/-- Change the fields that are kept on disk too. -/
def updD (s : Fs) (ip : Fin NINODE) (f : Dinode → Dinode) : Fs :=
  s.updInode ip fun i => { i with d := f i.d }

def modifyInode (ip : Fin NINODE) (f : Inode → Inode) : Prog Fs Unit := modify fun s => s.updInode ip f
def modifyD (ip : Fin NINODE) (f : Dinode → Dinode) : Prog Fs Unit := modify fun s => s.updD ip f

def iupdate (ip : Fin NINODE) : Prog Fs Unit := do
  let s ← get
  let i := s.inode ip
  let bp ← bread (s.sb.IBLOCK i.inum)
  logWrite (s.sb.IBLOCK i.inum) (writeDinode i.d bp (dinodeOff i.inum))
  brelse (s.sb.IBLOCK i.inum)

def iget (dev inum : Nat) : Prog Fs (Fin NINODE) := do
  let s ← get
  match (List.finRange NINODE).find? fun i =>
    decide ((s.inode i).ref > 0 ∧ (s.inode i).dev = dev ∧ (s.inode i).inum = inum) with
  | some ip => do
    modifyInode ip fun i => { i with ref := i.ref + 1 }
    pure ip
  | none =>
    match (List.finRange NINODE).find? fun i => decide ((s.inode i).ref = 0) with
    | none => panicWith "iget: no inodes"
    | some ip => do
      modifyInode ip fun i => { i with dev := dev, inum := inum, ref := 1, valid := false }
      pure ip

/-- The loop of `ialloc` from `inum` on, with `n` inodes to go. -/
def iallocLoop (dev type : Nat) : Nat → Nat → Prog Fs (Option (Fin NINODE))
  | 0, _ => pure none
  | n + 1, inum => do
    let s ← get
    let bp ← bread (s.sb.IBLOCK inum)
    if (readDinode bp (dinodeOff inum)).type = 0 then do
      -- `memset(dip, 0, sizeof(*dip)); dip->type = type`
      logWrite (s.sb.IBLOCK inum) (writeDinode ⟨type, 0, 0, 0, 0, fun _ => 0⟩ bp (dinodeOff inum))
      brelse (s.sb.IBLOCK inum)
      let ip ← iget dev inum
      pure (some ip)
    else do
      brelse (s.sb.IBLOCK inum)
      iallocLoop dev type n (inum + 1)

def ialloc (dev type : Nat) : Prog Fs (Option (Fin NINODE)) := do
  let s ← get
  iallocLoop dev type (s.sb.ninodes - 1) 1

def idup (ip : Fin NINODE) : Prog Fs (Fin NINODE) := do
  modifyInode ip fun i => { i with ref := i.ref + 1 }
  pure ip

/-- In a run of completed operations nobody releases a lock that is found taken. -/
def acquiresleep (ip : Fin NINODE) : Prog Fs Unit := do
  let s ← get
  if (s.inode ip).locked then hang
  else modifyInode ip fun i => { i with locked := true }

def ilock (ip : Fin NINODE) : Prog Fs Unit := do
  let s ← get
  if (s.inode ip).ref < 1 then panicWith "ilock"
  else do
    acquiresleep ip
    let s ← get
    let i := s.inode ip
    if i.valid then pure ()
    else do
      let bp ← bread (s.sb.IBLOCK i.inum)
      modifyInode ip fun i => { i with d := readDinode bp (dinodeOff i.inum) }
      brelse (s.sb.IBLOCK i.inum)
      modifyInode ip fun i => { i with valid := true }
      if (readDinode bp (dinodeOff i.inum)).type = 0 then panicWith "ilock: no type" else pure ()

def iunlock (ip : Fin NINODE) : Prog Fs Unit := do
  let s ← get
  if !(s.inode ip).locked ∨ (s.inode ip).ref < 1 then panicWith "iunlock"
  else modifyInode ip fun i => { i with locked := false }

/-- `0` when the disk is full. -/
def bmap (ip : Fin NINODE) (bn : Nat) : Prog Fs Nat := do
  let s ← get
  if bn < NDIRECT then
    if (s.inode ip).d.addrs bn = 0 then do
      let addr ← balloc
      if addr = 0 then pure 0
      else do
        modifyD ip fun d => { d with addrs := Function.update d.addrs bn addr }
        pure addr
    else pure ((s.inode ip).d.addrs bn)
  else if bn - NDIRECT < NINDIRECT then do
    let ind ← (if (s.inode ip).d.addrs NDIRECT = 0 then do
      let addr ← balloc
      if addr = 0 then pure 0
      else do
        modifyD ip fun d => { d with addrs := Function.update d.addrs NDIRECT addr }
        pure addr
    else pure ((s.inode ip).d.addrs NDIRECT))
    if ind = 0 then pure 0
    else do
      let bp ← bread ind
      let addr ← (if readLE bp (4 * (bn - NDIRECT)) 4 = 0 then do
        let addr ← balloc
        (if addr ≠ 0 then logWrite ind (writeLE bp (4 * (bn - NDIRECT)) 4 addr) else pure ())
        pure addr
      else pure (readLE bp (4 * (bn - NDIRECT)) 4))
      brelse ind
      pure addr
  else panicWith "bmap: out of range"

def itrunc (ip : Fin NINODE) : Prog Fs Unit := do
  loop (fun i => do
    let s ← get
    if (s.inode ip).d.addrs i ≠ 0 then do
      bfree ((s.inode ip).d.addrs i)
      modifyD ip fun d => { d with addrs := Function.update d.addrs i 0 }
    else pure ()) 0 NDIRECT
  let s ← get
  let ind := (s.inode ip).d.addrs NDIRECT
  (if ind ≠ 0 then do
    let bp ← bread ind
    loop (fun j => if readLE bp (4 * j) 4 ≠ 0 then bfree (readLE bp (4 * j) 4) else pure ()) 0 NINDIRECT
    brelse ind
    bfree ind
    modifyD ip fun d => { d with addrs := Function.update d.addrs NDIRECT 0 }
  else pure ())
  modifyD ip fun d => { d with size := 0 }
  iupdate ip

def iput (ip : Fin NINODE) : Prog Fs Unit := do
  let s ← get
  (if (s.inode ip).ref = 1 ∧ (s.inode ip).valid ∧ (s.inode ip).d.nlink = 0 then do
    acquiresleep ip
    itrunc ip
    modifyD ip fun d => { d with type := 0 }
    iupdate ip
    modifyInode ip fun i => { i with valid := false, locked := false }
  else pure ())
  modifyInode ip fun i => { i with ref := i.ref - 1 }

def iunlockput (ip : Fin NINODE) : Prog Fs Unit := do
  iunlock ip
  iput ip

/-! ## Inode contents -/

/-- The `m` bytes of a block from `off` on. -/
def blockBytes (b : Block) (off m : Nat) : List UInt8 := (List.range m).map fun i => byte b (off + i)

/-- The block with `bs` copied to offset `off`. -/
def setBlockBytes (b : Block) (off : Nat) (bs : List UInt8) : Block := fun i =>
  if off ≤ i.val then bs.getD (i.val - off) (b i) else b i

section contents

variable {τ : Type}

def fsPart {α : Type} (x : Prog Fs α) : Prog (Fs × τ) α := zoom Prod.fst (fun f s => (f, s.2)) x
def outPart {α : Type} (x : Prog τ α) : Prog (Fs × τ) α := zoom Prod.snd (fun t s => (s.1, t)) x

/-- The loop of `readi`; every iteration copies at least one byte. -/
def readLoop (copy : Nat → List UInt8 → Prog τ Bool) (ip : Fin NINODE) (n : Nat) :
    Nat → Nat → Nat → Nat → Prog (Fs × τ) Int
  | 0, _, _, tot => pure tot
  | fuel + 1, dst, off, tot =>
    if tot < n then do
      let addr ← fsPart (bmap ip (off / BSIZE))
      if addr = 0 then pure tot
      else do
        let bp ← fsPart (bread addr)
        let m := min (n - tot) (BSIZE - off % BSIZE)
        let copied ← outPart (copy dst (blockBytes bp (off % BSIZE) m))
        fsPart (brelse addr)
        if copied then readLoop copy ip n fuel (dst + m) (off + m) (tot + m)
        else pure (-1)
    else pure tot

def readi (copy : Nat → List UInt8 → Prog τ Bool) (ip : Fin NINODE) (dst off n : Nat) :
    Prog (Fs × τ) Int := do
  let s ← get
  let size := (s.1.inode ip).d.size
  if off > size ∨ (off + n) % 2 ^ 32 < off then pure 0
  else
    let n := if off + n > size then size - off else n
    readLoop copy ip n n dst off 0

/-- The loop of `writei`; it returns `tot`, and `off` where it stopped. -/
def writeLoop (fetch : Nat → Nat → Prog τ (Option (List UInt8))) (ip : Fin NINODE) (n : Nat) :
    Nat → Nat → Nat → Nat → Prog (Fs × τ) (Nat × Nat)
  | 0, _, off, tot => pure (tot, off)
  | fuel + 1, src, off, tot =>
    if tot < n then do
      let addr ← fsPart (bmap ip (off / BSIZE))
      if addr = 0 then pure (tot, off)
      else do
        let bp ← fsPart (bread addr)
        let m := min (n - tot) (BSIZE - off % BSIZE)
        match ← outPart (fetch src m) with
        | none => do
          fsPart (brelse addr)
          pure (tot, off)
        | some bs => do
          fsPart (logWrite addr (setBlockBytes bp (off % BSIZE) (bs.take m)))
          fsPart (brelse addr)
          writeLoop fetch ip n fuel (src + m) (off + m) (tot + m)
    else pure (tot, off)

def writei (fetch : Nat → Nat → Prog τ (Option (List UInt8))) (ip : Fin NINODE) (src off n : Nat) :
    Prog (Fs × τ) Int := do
  let s ← get
  let size := (s.1.inode ip).d.size
  if off > size ∨ (off + n) % 2 ^ 32 < off then pure (-1)
  else if off + n > MAXFILE * BSIZE then pure (-1)
  else do
    let (tot, off) ← writeLoop fetch ip n n src off 0
    fsPart (do
      let s ← get
      (if off > (s.inode ip).d.size then modifyD ip fun d => { d with size := off } else pure ())
      iupdate ip)
    pure tot

end contents

/-- `readi` into a kernel buffer: the result and the bytes that were copied. -/
def readiKernel (ip : Fin NINODE) (off n : Nat) : Prog Fs (Int × List UInt8) :=
  withLocal [] (readi (fun _ bs => do
    modify fun buf => buf ++ bs
    pure true) ip 0 off n)

/-- `writei` from a kernel buffer. -/
def writeiKernel (ip : Fin NINODE) (bs : List UInt8) (off : Nat) : Prog Fs Int := do
  let r ← withLocal () (writei (fun src m => pure (some ((bs.drop src).take m))) ip 0 off bs.length)
  pure r.1

/-! ## Directories -/

/-- A name of at most `DIRSIZ` characters, as `strncmp` and `strncpy` see it. -/
def dirName (bs : List UInt8) : List UInt8 := (bs.take DIRSIZ).takeWhile (· ≠ 0)

/-- `de.inum` and `de.name` of the 16 bytes of a `struct dirent`. -/
def direntInum (bs : List UInt8) : Nat := (bs.getD 0 0).toNat + 256 * (bs.getD 1 0).toNat
def direntName (bs : List UInt8) : List UInt8 := dirName (bs.drop 2)

def direntBytes (inum : Nat) (name : List UInt8) : List UInt8 :=
  [UInt8.ofNat inum, UInt8.ofNat (inum / 256)] ++ dirName name ++
    List.replicate (DIRSIZ - (dirName name).length) 0

/-- The loop of `dirlookup` from offset `off`: the inode number and the offset of the entry. -/
def lookupLoop (dp : Fin NINODE) (name : List UInt8) : Nat → Nat → Prog Fs (Option (Nat × Nat))
  | 0, _ => pure none
  | fuel + 1, off => do
    let s ← get
    if off < (s.inode dp).d.size then do
      let (r, de) ← readiKernel dp off 16
      if r ≠ 16 then panicWith "dirlookup read"
      else if direntInum de ≠ 0 ∧ dirName name = direntName de then pure (some (direntInum de, off))
      else lookupLoop dp name fuel (off + 16)
    else pure none

/-- The inode and `*poff`. -/
def dirlookup (dp : Fin NINODE) (name : List UInt8) : Prog Fs (Option (Fin NINODE × Nat)) := do
  let s ← get
  if (s.inode dp).d.type ≠ T_DIR then panicWith "dirlookup not DIR"
  else do
    match ← lookupLoop dp name (s.inode dp).d.size 0 with
    | none => pure none
    | some (inum, off) => do
      let ip ← iget (s.inode dp).dev inum
      pure (some (ip, off))

/-- The loop of `dirlink` that looks for an empty entry. -/
def emptyLoop (dp : Fin NINODE) : Nat → Nat → Prog Fs Nat
  | 0, off => pure off
  | fuel + 1, off => do
    let s ← get
    if off < (s.inode dp).d.size then do
      let (r, de) ← readiKernel dp off 16
      if r ≠ 16 then panicWith "dirlink read"
      else if direntInum de = 0 then pure off
      else emptyLoop dp fuel (off + 16)
    else pure off

def dirlink (dp : Fin NINODE) (name : List UInt8) (inum : Nat) : Prog Fs Int := do
  match ← dirlookup dp name with
  | some (ip, _) => do
    iput ip
    pure (-1)
  | none => do
    let s ← get
    let off ← emptyLoop dp (s.inode dp).d.size 0
    let r ← writeiKernel dp (direntBytes inum name) off
    if r ≠ 16 then pure (-1) else pure 0

/-! ## Paths -/

def SLASH : UInt8 := 47

/-- The next path element and the path after it; `none` when there is none. -/
def skipelem (path : List UInt8) : Option (List UInt8 × List UInt8) :=
  let path := path.dropWhile (· = SLASH)
  if path = [] then none
  else some ((path.takeWhile (· ≠ SLASH)).take DIRSIZ,
    (path.dropWhile (· ≠ SLASH)).dropWhile (· = SLASH))

/-- The loop of `namex`; `name` is the last element that `skipelem` copied. -/
def namexLoop (nameiparent : Bool) : Nat → Fin NINODE → List UInt8 → List UInt8 →
    Prog Fs (Option (Fin NINODE × List UInt8))
  | 0, _, _, _ => hang
  | fuel + 1, ip, path, name =>
    match skipelem path with
    | none =>
      if nameiparent then do
        iput ip
        pure none
      else pure (some (ip, name))
    | some (name, path) => do
      ilock ip
      let s ← get
      if (s.inode ip).d.type ≠ T_DIR then do
        iunlockput ip
        pure none
      else if nameiparent ∧ path = [] then do
        iunlock ip
        pure (some (ip, name))
      else do
        match ← dirlookup ip name with
        | none => do
          iunlockput ip
          pure none
        | some (next, _) => do
          iunlockput ip
          namexLoop nameiparent fuel next path name

/-- `cwd` is the current directory of the calling process. -/
def namex (cwd : Option (Fin NINODE)) (path : List UInt8) (nameiparent : Bool) :
    Prog Fs (Option (Fin NINODE × List UInt8)) := do
  let ip ← (if path.head? = some SLASH then iget ROOTDEV ROOTINO
    else match cwd with
      | some ip => idup ip
      | none => panicWith "kerneltrap")
  namexLoop nameiparent (path.length + 1) ip path []

def namei (cwd : Option (Fin NINODE)) (path : List UInt8) : Prog Fs (Option (Fin NINODE)) := do
  match ← namex cwd path false with
  | none => pure none
  | some (ip, _) => pure (some ip)

def nameiparent (cwd : Option (Fin NINODE)) (path : List UInt8) :
    Prog Fs (Option (Fin NINODE × List UInt8)) := namex cwd path true

end Fs

end Xv6
