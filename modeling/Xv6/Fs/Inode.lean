import Xv6.Fs.Format
import Xv6.Lib.Hoare
import Xv6.Log.GroupCommit

/-!
# Blocks, inodes and directories

`kernel/fs.c` over the logged disk: by the refinement of the block layer `bread` returns
the current contents of a block, and a modified buffer is handed to `log_write`, which may
panic.  One device is modelled.  An inode pointer is its index in `itable`.

`balloc` may report that it is out of blocks at any call, whatever the bitmap says:
`outOfBlocks` lists these calls.
-/

namespace Xv6.Fs

open ByteView Hoare Function

inductive Panic where
  /-- `"freeing free block"` -/
  | freeingFreeBlock
  /-- `"iget: no inodes"` -/
  | igetNoInodes
  /-- `"ilock"` -/
  | ilock
  /-- `"ilock: no type"` -/
  | ilockNoType
  /-- `"iunlock"` -/
  | iunlock
  /-- `"bmap: out of range"` -/
  | bmapOutOfRange
  /-- `"dirlookup not DIR"` -/
  | dirlookupNotDir
  /-- `"dirlookup read"` -/
  | dirlookupRead
  /-- `"dirlink read"` -/
  | dirlinkRead
  /-- Not a panic of the source: a null pointer is followed. -/
  | nullPointer
  | log (e : Log.Panic)
deriving DecidableEq, Repr

/-- Why an operation does not return. -/
inductive Stop where
  | panic (p : Panic)
  /-- It waits for a sleep lock that is held. -/
  | asleep
deriving DecidableEq, Repr

/-- `struct inode`. -/
structure Inode where
  inum : Nat
  /-- Reference count. -/
  ref : Nat
  /-- The sleep lock is held. -/
  lock : Bool
  /-- Inode has been read from disk? -/
  valid : Bool
  /-- Copy of disk inode. -/
  copy : Dinode

structure State where
  disk : Disk
  /-- `itable.inode[NINODE]` -/
  inode : Nat → Inode
  log : Log.LogState
  /-- The calls of `balloc` that find no block. -/
  outOfBlocks : Nat → Bool
  /-- The number of calls of `balloc` so far. -/
  ballocs : Nat

abbrev FsM (α : Type) := Prog Stop State α

def State.setInode (s : State) (ip : Nat) (x : Inode) : State :=
  { s with inode := update s.inode ip x }

@[simp] theorem State.setInode_self (s : State) (ip : Nat) (x : Inode) :
    (s.setInode ip x).inode ip = x := by
  simp [State.setInode]

theorem State.setInode_ne (s : State) {ip j : Nat} (x : Inode) (h : j ≠ ip) :
    (s.setInode ip x).inode j = s.inode j := by
  simp [State.setInode, h]

theorem State.setInode_eq_self (s : State) (ip : Nat) : s.setInode ip (s.inode ip) = s := by
  simp [State.setInode]

@[simp] theorem State.setInode_disk (s : State) (ip : Nat) (x : Inode) :
    (s.setInode ip x).disk = s.disk := rfl

def setInode (ip : Nat) (f : Inode → Inode) : FsM Unit :=
  modify fun s => s.setInode ip (f (s.inode ip))

def Dinode.setAddr (x : Dinode) (k : Fin (NDIRECT + 1)) (addr : UInt32) : Dinode :=
  { x with addrs := update x.addrs k addr }

@[simp] theorem Dinode.setAddr_self (x : Dinode) (k : Fin (NDIRECT + 1)) (addr : UInt32) :
    (x.setAddr k addr).addrs k = addr := by
  simp [Dinode.setAddr]

def Dinode.setSize (x : Dinode) (size : UInt32) : Dinode := { x with size := size }

def Inode.setCopy (x : Inode) (copy : Dinode) : Inode := { x with copy := copy }

def setAddr (ip : Nat) (k : Fin (NDIRECT + 1)) (addr : UInt32) : FsM Unit :=
  setInode ip fun x => x.setCopy (x.copy.setAddr k addr)

def setSize (ip : Nat) (size : UInt32) : FsM Unit :=
  setInode ip fun x => x.setCopy (x.copy.setSize size)

def bread (b : Nat) : FsM Block := do
  return (← get).disk b

/-- `log_write` of the buffer of block `b`, whose new contents are `v`. -/
def logWrite (b : Nat) (v : Block) : FsM Unit := do
  match Log.logWrite (← get).log b with
  | .error e => fail (.panic (.log e))
  | .ok (l, _) => modify fun s => { s with disk := update s.disk b v, log := l }

/-- `begin_op()`, which waits where `Log.beginOp` does not get through. -/
def beginOp : FsM Unit := do
  match Log.beginOp (← get).log with
  | none => fail .asleep
  | some l => modify fun s => { s with log := l }

/-- `end_op()`; the commit of the last outstanding operation empties the log. -/
def endOp : FsM Unit := do
  match Log.endOp (← get).log with
  | .error e => fail (.panic (.log e))
  | .ok (l, true) => modify fun s => { s with log := Log.endCommit { l with lh := [] } }
  | .ok (l, false) => modify fun s => { s with log := l }

section Functions

variable (sb : Superblock)

/-! ### Blocks -/

def bzero (bno : Nat) : FsM Unit := do
  let _ ← bread bno
  logWrite bno fun _ => 0

/-- The scan of the bitmap block for the blocks from `b` on. -/
def ballocFrom (b : Nat) : FsM (Option UInt32) := do
  let bp ← bread (BBLOCK sb b)
  findFirst (fun bi =>
    if bitClear bp bi then do
      logWrite (BBLOCK sb b) (setBit bp bi)
      bzero (b + bi)
      return some (UInt32.ofNat (b + bi))
    else return none) 0 (min BPB (sb.size - b))

/-- Allocate a zeroed disk block.  Returns 0 if out of disk space. -/
def balloc : FsM UInt32 := do
  let s ← get
  modify fun s => { s with ballocs := s.ballocs + 1 }
  if s.outOfBlocks s.ballocs then return 0
  else
    let r ← findFirst (fun k => ballocFrom sb (k * BPB)) 0 ((sb.size + BPB - 1) / BPB)
    return r.getD 0

def bfree (b : UInt32) : FsM Unit := do
  let bp ← bread (BBLOCK sb b.toNat)
  if bitClear bp (b.toNat % BPB) then fail (.panic .freeingFreeBlock)
  else logWrite (BBLOCK sb b.toNat) (clearBit bp (b.toNat % BPB))

/-! ### Inodes -/

/-- Find the inode with number `inum` and return the in-memory copy.  Does not lock the
    inode and does not read it from disk. -/
def iget (inum : Nat) : FsM Nat := do
  let s ← get
  match (List.range NINODE).find? fun i => decide (0 < (s.inode i).ref ∧ (s.inode i).inum = inum) with
  | some i =>
    setInode i fun x => { x with ref := x.ref + 1 }
    return i
  | none =>
    match (List.range NINODE).find? fun i => decide ((s.inode i).ref = 0) with
    | some i =>
      -- recycle an inode entry
      setInode i fun x => { x with inum := inum, ref := 1, valid := false }
      return i
    | none => fail (.panic .igetNoInodes)

/-- Allocate an inode.  Mark it as allocated by giving it type `type`. -/
def ialloc (type : UInt16) : FsM (Option Nat) :=
  findFirst (fun inum => do
    let bp ← bread (IBLOCK sb inum)
    if (getDinode bp (dinodeOff inum)).type = 0 then
      logWrite (IBLOCK sb inum) (putDinode bp (dinodeOff inum) { Dinode.zero with type := type })
      return some (← iget inum)
    else return none) 1 (sb.ninodes - 1)

/-- Copy a modified in-memory inode to disk. -/
def iupdate (ip : Nat) : FsM Unit := do
  let x := (← get).inode ip
  let bp ← bread (IBLOCK sb x.inum)
  logWrite (IBLOCK sb x.inum) (putDinode bp (dinodeOff x.inum) x.copy)

def idup (ip : Nat) : FsM Nat := do
  setInode ip fun x => { x with ref := x.ref + 1 }
  return ip

/-- Lock the given inode.  Reads the inode from disk if necessary. -/
def ilock (ip : Nat) : FsM Unit := do
  let x := (← get).inode ip
  if x.ref < 1 then fail (.panic .ilock)
  else if x.lock then fail .asleep
  else
    setInode ip fun x => { x with lock := true }
    if x.valid then return ()
    else
      let bp ← bread (IBLOCK sb x.inum)
      let dip := getDinode bp (dinodeOff x.inum)
      setInode ip fun x => { x with copy := dip, valid := true }
      if dip.type = 0 then fail (.panic .ilockNoType) else return ()

def iunlock (ip : Nat) : FsM Unit := do
  let x := (← get).inode ip
  if x.lock = false ∨ x.ref < 1 then fail (.panic .iunlock)
  else setInode ip fun x => { x with lock := false }

/-- Mark the on-disk inode free. -/
def ifree (inum : Nat) : FsM Unit := do
  let bp ← bread (IBLOCK sb inum)
  logWrite (IBLOCK sb inum) (putDinode bp (dinodeOff inum)
    { getDinode bp (dinodeOff inum) with type := 0 })

/-! ### Inode content -/

/-- `ip->addrs[k]`, allocating a block for it if there is none. -/
def addrOrAlloc (ip : Nat) (k : Fin (NDIRECT + 1)) : FsM UInt32 := do
  let addr := ((← get).inode ip).copy.addrs k
  if addr = 0 then
    let addr ← balloc sb
    if addr = 0 then return 0
    else
      setAddr ip k addr
      return addr
  else return addr

/-- Return the disk block address of the `bn`th block in inode `ip`.  If there is no such
    block, `bmap` allocates one.  Returns 0 if out of disk space. -/
def bmap (ip bn : Nat) : FsM UInt32 :=
  if h : bn < NDIRECT then addrOrAlloc sb ip ⟨bn, Nat.lt_succ_of_lt h⟩
  else if bn - NDIRECT < NINDIRECT then do
    -- load indirect block, allocating if necessary
    let addr ← addrOrAlloc sb ip (Fin.last NDIRECT)
    if addr = 0 then return 0
    else
      let bp ← bread addr.toNat
      let a := UInt32.ofNat (getLE bp (4 * (bn - NDIRECT)) 4)
      if a = 0 then
        let a ← balloc sb
        if a = 0 then return 0
        else
          logWrite addr.toNat (putLE bp (4 * (bn - NDIRECT)) 4 a.toNat)
          return a
      else return a
  else fail (.panic .bmapOutOfRange)

/-- Free the block of `ip->addrs[k]`, if there is one. -/
def freeAddr (ip : Nat) (k : Fin (NDIRECT + 1)) : FsM Unit := do
  let addr := ((← get).inode ip).copy.addrs k
  if addr = 0 then return ()
  else
    bfree sb addr
    setAddr ip k 0

/-- The indirect block and the blocks it lists. -/
def freeIndirect (ip : Nat) : FsM Unit := do
  let addr := ((← get).inode ip).copy.addrs (Fin.last NDIRECT)
  if addr = 0 then return ()
  else
    let bp ← bread addr.toNat
    forRange (fun j =>
      let a := UInt32.ofNat (getLE bp (4 * j) 4)
      if a = 0 then return () else bfree sb a) 0 NINDIRECT
    bfree sb addr
    setAddr ip (Fin.last NDIRECT) 0

/-- Truncate inode (discard contents). -/
def itrunc (ip : Nat) : FsM Unit := do
  forRange (fun i => if h : i < NDIRECT + 1 then freeAddr sb ip ⟨i, h⟩ else return ()) 0 NDIRECT
  freeIndirect sb ip
  setSize ip 0
  iupdate sb ip

/-- Drop a reference to an in-memory inode.  If that was the last reference and the inode
    has no links to it, free the inode (and its content) on disk. -/
def iput (ip : Nat) : FsM Unit := do
  let x := (← get).inode ip
  if x.ref = 1 ∧ x.valid = true ∧ x.copy.nlink = 0 then
    if x.lock then fail .asleep
    else
      itrunc sb ip
      setInode ip fun x => { x with valid := false }
      setInode ip fun x => { x with ref := x.ref - 1 }
      ifree sb x.inum
  else setInode ip fun x => { x with ref := x.ref - 1 }

def iunlockput (ip : Nat) : FsM Unit := do
  iunlock ip
  iput sb ip

/-- `min(n - tot, BSIZE - off % BSIZE)`: the part of a transfer that lies in one block. -/
def chunk (n tot off : UInt32) : UInt32 :=
  let a := n - tot
  let b := UInt32.ofNat BSIZE - off % UInt32.ofNat BSIZE
  if a < b then a else b

structure ReadVars where
  tot : UInt32
  off : UInt32
  data : List UInt8
  failed : Bool

def readBody (ip : Nat) (fault : Nat → Bool) (n : UInt32) (v : ReadVars) :
    FsM (ReadVars × Bool) :=
  if v.tot < n then do
    let addr ← bmap sb ip (v.off.toNat / BSIZE)
    if addr = 0 then return (v, false)
    else
      let bp ← bread addr.toNat
      let m := chunk n v.tot v.off
      if fault v.tot.toNat then return ({ v with failed := true }, false)
      else
        let bytes := (List.range m.toNat).map fun k => bp (v.off.toNat % BSIZE + k)
        return ({ v with tot := v.tot + m, off := v.off + m, data := v.data ++ bytes }, true)
  else return (v, false)

/-- Read data from inode.  `fault` lists the offsets at which the copy out fails; the result
    is the return value with the bytes delivered. -/
def readi (ip : Nat) (fault : Nat → Bool) (off n : UInt32) : FsM (Int × List UInt8) := do
  let size := ((← get).inode ip).copy.size
  if size < off ∨ off + n < off then return (0, [])
  else
    let n := if size < off + n then size - off else n
    let v ← loop (readBody sb ip fault n) (n.toNat + 1) ⟨0, off, [], false⟩
    return (if v.failed then -1 else v.tot.toNat, v.data)

/-- How many of the bytes `[tot, tot + m)` of the source can be read before a bad address. -/
def readable (src : Nat → Option UInt8) (tot m : Nat) : Nat :=
  ((List.range m).takeWhile fun k => (src (tot + k)).isSome).length

/-- `either_copyin(bp->data + o, user_src, src + tot, m)`: a failed copy may have updated a
    part of the block. -/
def copyIn (blk : Block) (o : Nat) (src : Nat → Option UInt8) (tot m : Nat) : Block :=
  fun i => if o ≤ i ∧ i < o + readable src tot m then (src (tot + (i - o))).getD 0 else blk i

structure WriteVars where
  tot : UInt32
  off : UInt32

def writeBody (ip : Nat) (src : Nat → Option UInt8) (n : UInt32) (v : WriteVars) :
    FsM (WriteVars × Bool) :=
  if v.tot < n then do
    let addr ← bmap sb ip (v.off.toNat / BSIZE)
    if addr = 0 then return (v, false)
    else
      let bp ← bread addr.toNat
      let m := chunk n v.tot v.off
      logWrite addr.toNat (copyIn bp (v.off.toNat % BSIZE) src v.tot.toNat m.toNat)
      if readable src v.tot.toNat m.toNat < m.toNat then return (v, false)
      else return (⟨v.tot + m, v.off + m⟩, true)
  else return (v, false)

/-- `if (off > ip->size) ip->size = off;` -/
def extend (ip : Nat) (off : UInt32) : FsM Unit := do
  let size := ((← get).inode ip).copy.size
  if size < off then setSize ip off else return ()

/-- Write data to inode.  Byte `k` of the source is `src k`, or none if its address is bad.
    Returns the number of bytes successfully written. -/
def writei (ip : Nat) (src : Nat → Option UInt8) (off n : UInt32) : FsM Int := do
  let size := ((← get).inode ip).copy.size
  if size < off ∨ off + n < off then return -1
  else if MAXFILE * BSIZE < (off + n).toNat then return -1
  else
    let v ← loop (writeBody sb ip src n) (n.toNat + 1) ⟨0, off⟩
    extend ip v.off
    -- the loop may have added a block to `ip->addrs[]` even if the size did not change
    iupdate sb ip
    return v.tot.toNat

/-! ### Directories -/

def DIRSIZ : Nat := 14

/-- `sizeof(struct dirent)` -/
def DIRENTSIZE : Nat := 16

/-- The characters of a name, from its first byte on. -/
abbrev Name := Nat → UInt8

/-- `strncmp` of `n` bytes from position `i` on returns 0. -/
def strncmpFrom (p q : Name) (i : Nat) : Nat → Bool
  | 0 => true
  | n + 1 => if p i ≠ 0 ∧ p i = q i then strncmpFrom p q (i + 1) n else p i == q i

/-- `namecmp(s, t) == 0` -/
def nameEq (s t : Name) : Bool := strncmpFrom s t 0 DIRSIZ

/-- `strncpy(dst, name, n)`: the bytes up to the first NUL, then zeros. -/
def strncpy (name : Name) (k : Nat) : UInt8 :=
  if (List.range k).all fun j => decide (name j ≠ 0) then name k else 0

def direntInum (de : List UInt8) : Nat := getLE (fun k => de.getD k 0) 0 2

def direntName (de : List UInt8) : Name := fun k => de.getD (2 + k) 0

def mkDirent (inum : Nat) (name : Name) : Nat → UInt8 :=
  putLE (fun k => strncpy name (k - 2)) 0 2 inum

/-- The number of entries that a scan of a directory of `size` bytes looks at. -/
def direntCount (size : UInt32) : Nat := (size.toNat + DIRENTSIZE - 1) / DIRENTSIZE

/-- Look for a directory entry in a directory; the result has its byte offset. -/
def dirlookup (dp : Nat) (name : Name) : FsM (Option (Nat × Nat)) := do
  let x := ((← get).inode dp).copy
  if x.type ≠ T_DIR then fail (.panic .dirlookupNotDir)
  else
    findFirst (fun k => do
      let (r, de) ← readi sb dp (fun _ => false) (UInt32.ofNat (k * DIRENTSIZE))
        (UInt32.ofNat DIRENTSIZE)
      if r ≠ DIRENTSIZE then fail (.panic .dirlookupRead)
      else if direntInum de = 0 then return none
      else if nameEq name (direntName de) then
        let ip ← iget (direntInum de)
        return some (ip, k * DIRENTSIZE)
      else return none) 0 (direntCount x.size)

/-- Write a new directory entry into the directory `dp`.  Returns 0 on success, -1 on
    failure. -/
def dirlink (dp : Nat) (name : Name) (inum : Nat) : FsM Int := do
  match ← dirlookup sb dp name with
  | some (ip, _) =>
    iput sb ip
    return -1
  | none =>
    let x := ((← get).inode dp).copy
    -- look for an empty dirent
    let empty ← findFirst (fun k => do
      let (r, de) ← readi sb dp (fun _ => false) (UInt32.ofNat (k * DIRENTSIZE))
        (UInt32.ofNat DIRENTSIZE)
      if r ≠ DIRENTSIZE then fail (.panic .dirlinkRead)
      else if direntInum de = 0 then return some k
      else return none) 0 (direntCount x.size)
    let off := (empty.getD (direntCount x.size)) * DIRENTSIZE
    let r ← writei sb dp (fun k => some (mkDirent inum name k)) (UInt32.ofNat off)
      (UInt32.ofNat DIRENTSIZE)
    if r ≠ DIRENTSIZE then return -1 else return 0

end Functions

end Xv6.Fs
