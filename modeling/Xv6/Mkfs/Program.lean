import Xv6.Fs.Path
import Xv6.Mkfs.Superblock

/-!
# `mkfs`

`mkfs/mkfs.c`, over the image file `fsfd` as a disk with a length.  `xshort` and `xint` put a
number into the byte order of the target, so a store through them is a little-endian store.
`mkfs` ends with exit status 0, or stops in `die` or at a failed assertion.
-/

namespace Xv6.Mkfs

open ByteView Hoare Fs

def T_FILE : UInt16 := 2

/-- How `mkfs` stops before its end. -/
inductive Abort where
  /-- `die`, with exit status 1. -/
  | die
  | assert
deriving DecidableEq, Repr

/-- The image file, and the variables of `mkfs.c` that change. -/
structure State where
  disk : Disk
  /-- The length of the image file, in blocks. -/
  nsect : Nat
  freeinode : Nat
  /-- The first free block that we can allocate. -/
  freeblock : Nat

abbrev MkfsM (α : Type) := Prog Abort State α

def assert (c : Prop) [Decidable c] : MkfsM Unit := if c then return () else fail .assert

/-! ### Sectors and inodes -/

/-- The block at the offset `sec * BSIZE`, which is a `uint`. -/
def sector (sec : Nat) : Nat := sec * BSIZE % 2 ^ 32 / BSIZE

def wsect (sec : Nat) (buf : Block) : MkfsM Unit :=
  modify fun s => { s with
    disk := Function.update s.disk (sector sec) buf
    nsect := max s.nsect (sector sec + 1) }

/-- A read past the end of the image file fails. -/
def rsect (sec : Nat) : MkfsM Block := do
  let s ← get
  if sector sec < s.nsect then return s.disk (sector sec) else fail .die

def winode (inum : Nat) (ip : Dinode) : MkfsM Unit := do
  let buf ← rsect (IBLOCK sb inum)
  wsect (IBLOCK sb inum) (putDinode buf (dinodeOff inum) ip)

def rinode (inum : Nat) : MkfsM Dinode := do
  let buf ← rsect (IBLOCK sb inum)
  return getDinode buf (dinodeOff inum)

def ialloc (type : UInt16) : MkfsM Nat := do
  let inum := (← get).freeinode
  modify fun s => { s with freeinode := s.freeinode + 1 }
  winode inum { Dinode.zero with type := type, nlink := 1 }
  return inum

/-- A bitmap block with the first `n` bits set. -/
def setBits (blk : Block) : Nat → Block
  | 0 => blk
  | n + 1 => setBit (setBits blk n) n

def balloc (used : Nat) : MkfsM Unit := do
  assert (used < BPB)
  wsect sb.bmapstart (setBits (fun _ => 0) used)

/-! ### `iappend` -/

/-- `freeblock++` -/
def nextBlock : MkfsM UInt32 := do
  let x := UInt32.ofNat (← get).freeblock
  modify fun s => { s with freeblock := s.freeblock + 1 }
  return x

/-- `din.addrs[k]`, which is set to a new block if there is none. -/
def addrOrNext (din : Dinode) (k : Fin (NDIRECT + 1)) : MkfsM (Dinode × UInt32) :=
  if din.addrs k = 0 then do
    let x ← nextBlock
    return (din.setAddr k x, x)
  else return (din, din.addrs k)

/-- The block `x` that holds block `fbn` of the file. -/
def blockFor (din : Dinode) (fbn : Nat) : MkfsM (Dinode × UInt32) :=
  if h : fbn < NDIRECT then addrOrNext din ⟨fbn, Nat.lt_succ_of_lt h⟩
  else do
    let (din, addr) ← addrOrNext din (Fin.last NDIRECT)
    let indirect ← rsect addr.toNat
    let x := UInt32.ofNat (getLE indirect (4 * (fbn - NDIRECT)) 4)
    if x = 0 then
      let x ← nextBlock
      wsect addr.toNat (putLE indirect (4 * (fbn - NDIRECT)) 4 x.toNat)
      return (din, x)
    else return (din, x)

/-- `bcopy(p, buf + o, n)`, for the bytes `p`. -/
def bcopy (p : List UInt8) (buf : Block) (o : Nat) : Block :=
  fun i => if o ≤ i ∧ i < o + p.length then p.getD (i - o) 0 else buf i

/-- The variables of the loop in `iappend`, with the bytes that are left. -/
structure AppendVars where
  din : Dinode
  off : UInt32
  p : List UInt8

/-- `n1`: the part of the bytes left that lies in one block. -/
def AppendVars.n1 (v : AppendVars) : Nat :=
  min v.p.length ((v.off.toNat / BSIZE + 1) * BSIZE - v.off.toNat)

def appendBody (v : AppendVars) : MkfsM (AppendVars × Bool) :=
  if 0 < v.p.length then do
    let fbn := v.off.toNat / BSIZE
    assert (fbn < MAXFILE)
    let (din, x) ← blockFor v.din fbn
    let buf ← rsect x.toNat
    wsect x.toNat (bcopy (v.p.take v.n1) buf (v.off.toNat - fbn * BSIZE))
    return (⟨din, v.off + UInt32.ofNat v.n1, v.p.drop v.n1⟩, true)
  else return (v, false)

/-- Append the bytes `p` to inode `inum`. -/
def iappend (inum : Nat) (p : List UInt8) : MkfsM Unit := do
  let din ← rinode inum
  let v ← loop appendBody (p.length + 1) ⟨din, din.size, p⟩
  winode inum (v.din.setSize v.off)

/-! ### `main` -/

/-- What one `read` of at most `BSIZE` bytes returns. -/
abbrev Piece := { p : List UInt8 // p ≠ [] ∧ p.length ≤ BSIZE }

/-- A file named on the command line. -/
structure HostFile where
  /-- The argument, without its NUL. -/
  name : List UInt8
  nul : 0 ∉ name
  /-- What the calls of `read` return one after the other, or none if `open` fails. -/
  pieces : Option (List Piece)

def HostFile.bytes (f : HostFile) : List UInt8 := (f.pieces.getD []).flatMap Subtype.val

def userDir : List UInt8 := [117, 115, 101, 114, 47]

def underscore : UInt8 := 95

/-- The name without `"user/"`. -/
def HostFile.basename (f : HostFile) : List UInt8 :=
  if f.name.take 5 = userDir then f.name.drop 5 else f.name

/-- `shortname`: skip leading _ in name when writing to file system. -/
def HostFile.shortname (f : HostFile) : List UInt8 :=
  if f.basename.head? = some underscore then f.basename.tail else f.basename

/-- The bytes of a `struct dirent`. -/
def dirent (inum : Nat) (name : List UInt8) : List UInt8 :=
  (List.range DIRENTSIZE).map (mkDirent inum fun k => name.getD k 0)

/-- `while ((cc = read(fd, buf, sizeof(buf))) > 0) iappend(inum, buf, cc);` -/
def appendAll (inum : Nat) : List Piece → MkfsM Unit
  | [] => return ()
  | p :: ps => do
    iappend inum p.val
    appendAll inum ps

/-- The loop over the arguments, at one of them. -/
def addFile (rootino : Nat) (f : HostFile) : MkfsM Unit := do
  assert (slash ∉ f.basename)
  match f.pieces with
  | none => fail .die
  | some pieces =>
    assert (f.shortname.length ≤ DIRSIZ)
    let inum ← ialloc T_FILE
    iappend rootino (dirent inum f.shortname)
    appendAll inum pieces

def addFiles (rootino : Nat) : List HostFile → MkfsM Unit
  | [] => return ()
  | f :: fs => do
    addFile rootino f
    addFiles rootino fs

/-- Fix size of root inode dir. -/
def fixSize (rootino : Nat) : MkfsM Unit := do
  let din ← rinode rootino
  winode rootino (din.setSize (UInt32.ofNat ((din.size.toNat / BSIZE + 1) * BSIZE)))

/-- The fields of the super block in the order of `struct superblock`. -/
def sbWord (k : Nat) : Nat :=
  [sb.magic, sb.size, sb.nblocks, sb.ninodes, sb.nlog, sb.logstart, sb.inodestart,
    sb.bmapstart].getD k 0

def sbBlock : Block := putArray (fun _ => 0) 0 4 sbWord 8

def dot : List UInt8 := [46]

def dotdot : List UInt8 := [46, 46]

-- irreducible: its first loop has `FSSIZE` rounds, which no proof should run through
@[irreducible] def main (files : List HostFile) : MkfsM Unit := do
  forRange (fun i => wsect i fun _ => 0) 0 FSSIZE
  wsect 1 sbBlock
  let rootino ← ialloc T_DIR
  assert (rootino = ROOTINO)
  iappend rootino (dirent rootino dot)
  iappend rootino (dirent rootino dotdot)
  addFiles rootino files
  fixSize rootino
  balloc (← get).freeblock

/-- `fsfd` has been opened and truncated. -/
def start : State where
  disk := fun _ _ => 0
  nsect := 0
  freeinode := 1
  freeblock := nmeta

/-- The run of `mkfs` on these files: the final state if the exit status is 0. -/
def mkfs (files : List HostFile) : Except Abort State := (main files start).map Prod.snd

end Xv6.Mkfs
