import Mathlib

/-!
# Compile-time constants

The numeric parameters of `kernel/param.h` and `kernel/fs.h` that the modelled code reads.
-/

namespace Xv6

/-! ## `param.h` -/

def NPROC : Nat := 64
def NOFILE : Nat := 16
def NFILE : Nat := 100
def NINODE : Nat := 50
def NDEV : Nat := 10
def ROOTDEV : Nat := 1
def MAXARG : Nat := 32
def MAXOPBLOCKS : Nat := 10
def LOGSIZE : Nat := MAXOPBLOCKS * 3
def NBUF : Nat := MAXOPBLOCKS * 3
def FSSIZE : Nat := 2000
def MAXPATH : Nat := 128

/-! ## `fs.h` -/

def ROOTINO : Nat := 1
def BSIZE : Nat := 1024
def NDIRECT : Nat := 12
def NINDIRECT : Nat := BSIZE / 4
def MAXFILE : Nat := NDIRECT + NINDIRECT
/-- Inodes per block: `struct dinode` has 64 bytes. -/
def IPB : Nat := BSIZE / 64
/-- Bitmap bits per block. -/
def BPB : Nat := BSIZE * 8
def DIRSIZ : Nat := 14

/-! ## `stat.h` and `fcntl.h` -/

def T_DIR : Nat := 1
def T_FILE : Nat := 2
def T_DEVICE : Nat := 3

def O_RDONLY : Nat := 0
def O_WRONLY : Nat := 1
def O_RDWR : Nat := 2
def O_CREATE : Nat := 0x200
def O_TRUNC : Nat := 0x400

end Xv6
