import Xv6.Lib.ByteView

/-!
# Kernel parameters and on-disk constants

The constants of `kernel/param.h` and `kernel/fs.h` that the modelled functions
read, under their source names.
-/

namespace Xv6

def MAXOPBLOCKS : Nat := 10

def LOGBLOCKS : Nat := MAXOPBLOCKS * 3

def BSIZE : Nat := 1024

def FSSIZE : Nat := 2000

/-- `sizeof(struct dinode)`: four shorts, the size and `NDIRECT + 1` addresses. -/
def DINODESIZE : Nat := 64

def IPB : Nat := BSIZE / DINODESIZE

def BPB : Nat := BSIZE * 8

def FSMAGIC : Nat := 0x10203040

/-- `struct superblock`: the disk layout, boot block, super block, log, inode blocks,
    free bit map and data blocks. -/
structure Superblock where
  magic : Nat
  size : Nat
  nblocks : Nat
  ninodes : Nat
  nlog : Nat
  logstart : Nat
  inodestart : Nat
  bmapstart : Nat
deriving DecidableEq, Repr

/-- The contents of one disk block, by byte offset below `BSIZE`. -/
abbrev Block := ByteView.Bytes

/-- The disk, by block number. -/
abbrev Disk := Nat → Block

end Xv6
