import Xv6.Param

/-!
# The disk layout that `mkfs` computes

The globals of `mkfs/mkfs.c` and the super block that its `main` writes to block 1.
The stores through `xint` are in the byte order of the target, so the kernel reads
back the numbers below.
-/

namespace Xv6.Mkfs

def NINODES : Nat := 200

def nbitmap : Nat := FSSIZE / BPB + 1

def ninodeblocks : Nat := NINODES / IPB + 1

/-- The course image reserves 30 total log blocks, including its header. -/
def nlog : Nat := LOGBLOCKS

def nmeta : Nat := 2 + nlog + ninodeblocks + nbitmap

def nblocks : Nat := FSSIZE - nmeta

def sb : Superblock where
  magic := FSMAGIC
  size := FSSIZE
  nblocks := nblocks
  ninodes := NINODES
  nlog := nlog
  logstart := 2
  inodestart := 2 + nlog
  bmapstart := 2 + nlog + ninodeblocks

end Xv6.Mkfs
