import Xv6.Param

/-!
# The on-disk format of the file system

`struct dinode`, the free bitmap and the block address macros of `kernel/fs.h`, as bytes
of disk blocks.  Each store has its load: a dinode that was stored is read back and its
neighbours in the block are unchanged, and likewise for a bit of the bitmap.
-/

namespace Xv6.Fs

open ByteView Function

def NDIRECT : Nat := 12

def NINDIRECT : Nat := BSIZE / 4

def MAXFILE : Nat := NDIRECT + NINDIRECT

def NINODE : Nat := 50

def ROOTINO : Nat := 1

def T_DIR : UInt16 := 1

/-- `struct dinode`; the in-memory `struct inode` has a copy of it. -/
structure Dinode where
  type : UInt16
  major : UInt16
  minor : UInt16
  nlink : UInt16
  size : UInt32
  addrs : Fin (NDIRECT + 1) → UInt32

/-- `memset(dip, 0, sizeof(*dip))` -/
def Dinode.zero : Dinode := ⟨0, 0, 0, 0, 0, fun _ => 0⟩

/-- Block containing inode `i`. -/
def IBLOCK (sb : Superblock) (i : Nat) : Nat := i / IPB + sb.inodestart

/-- Block of free map containing bit for block `b`. -/
def BBLOCK (sb : Superblock) (b : Nat) : Nat := b / BPB + sb.bmapstart

/-! ### Dinodes -/

/-- The offset of inode `i` in its block. -/
def dinodeOff (i : Nat) : Nat := i % IPB * DINODESIZE

/-- Load the dinode at offset `o`. -/
def getDinode (blk : Block) (o : Nat) : Dinode where
  type := UInt16.ofNat (getLE blk o 2)
  major := UInt16.ofNat (getLE blk (o + 2) 2)
  minor := UInt16.ofNat (getLE blk (o + 4) 2)
  nlink := UInt16.ofNat (getLE blk (o + 6) 2)
  size := UInt32.ofNat (getLE blk (o + 8) 4)
  addrs k := UInt32.ofNat (getLE blk (o + 12 + 4 * k) 4)

/-- `addrs` as an array in memory. -/
def addrWord (addrs : Fin (NDIRECT + 1) → UInt32) (k : Nat) : Nat :=
  if h : k < NDIRECT + 1 then (addrs ⟨k, h⟩).toNat else 0

/-- Store a dinode at offset `o`, field by field as `iupdate` does. -/
def putDinode (blk : Block) (o : Nat) (x : Dinode) : Block :=
  let blk := putLE blk o 2 x.type.toNat
  let blk := putLE blk (o + 2) 2 x.major.toNat
  let blk := putLE blk (o + 4) 2 x.minor.toNat
  let blk := putLE blk (o + 6) 2 x.nlink.toNat
  let blk := putLE blk (o + 8) 4 x.size.toNat
  putArray blk (o + 12) 4 (addrWord x.addrs) (NDIRECT + 1)

theorem getLE_putLE_u16 (f : Bytes) (o : Nat) (x : UInt16) :
    UInt16.ofNat (getLE (putLE f o 2 x.toNat) o 2) = x := by
  rw [getLE_putLE_of_lt _ x.toNat_lt, UInt16.ofNat_toNat]

theorem getLE_putLE_u32 (f : Bytes) (o : Nat) (x : UInt32) :
    UInt32.ofNat (getLE (putLE f o 4 x.toNat) o 4) = x := by
  rw [getLE_putLE_of_lt _ x.toNat_lt, UInt32.ofNat_toNat]

theorem getDinode_putDinode (blk : Block) (o : Nat) (x : Dinode) :
    getDinode (putDinode blk o x) o = x := by
  obtain ⟨type, major, minor, nlink, size, addrs⟩ := x
  simp only [getDinode, putDinode, Dinode.mk.injEq]
  refine ⟨?_, ?_, ?_, ?_, ?_, funext fun k => ?_⟩
  · rw [getLE_putArray_disjoint _ (by omega), getLE_putLE_disjoint _ (by omega),
      getLE_putLE_disjoint _ (by omega), getLE_putLE_disjoint _ (by omega),
      getLE_putLE_disjoint _ (by omega), getLE_putLE_u16]
  · rw [getLE_putArray_disjoint _ (by omega), getLE_putLE_disjoint _ (by omega),
      getLE_putLE_disjoint _ (by omega), getLE_putLE_disjoint _ (by omega), getLE_putLE_u16]
  · rw [getLE_putArray_disjoint _ (by omega), getLE_putLE_disjoint _ (by omega),
      getLE_putLE_disjoint _ (by omega), getLE_putLE_u16]
  · rw [getLE_putArray_disjoint _ (by omega), getLE_putLE_disjoint _ (by omega), getLE_putLE_u16]
  · rw [getLE_putArray_disjoint _ (by omega), getLE_putLE_u32]
  · have hword : addrWord addrs k = (addrs k).toNat := dif_pos k.isLt
    rw [getLE_putArray _ k.isLt (by rw [hword]; exact (addrs k).toNat_lt), hword,
      UInt32.ofNat_toNat]

theorem putDinode_outside (blk : Block) (o : Nat) (x : Dinode) {i : Nat}
    (h : i < o ∨ o + DINODESIZE ≤ i) : putDinode blk o x i = blk i := by
  have hsize : DINODESIZE = 12 + 4 * (NDIRECT + 1) := rfl
  simp only [putDinode]
  rw [putArray_outside _ _ _ _ _ _ (by omega), putLE_outside _ _ _ _ _ (by omega),
    putLE_outside _ _ _ _ _ (by omega), putLE_outside _ _ _ _ _ (by omega),
    putLE_outside _ _ _ _ _ (by omega), putLE_outside _ _ _ _ _ (by omega)]

theorem getDinode_congr {f g : Block} {o : Nat}
    (h : ∀ i, o ≤ i → i < o + DINODESIZE → f i = g i) : getDinode f o = getDinode g o := by
  have hsize : DINODESIZE = 12 + 4 * (NDIRECT + 1) := rfl
  have hload : ∀ o' n, o ≤ o' → o' + n ≤ o + DINODESIZE → getLE f o' n = getLE g o' n :=
    fun o' n hlo hhi => getLE_congr fun i h1 h2 => h i (by omega) (by omega)
  simp only [getDinode, Dinode.mk.injEq]
  refine ⟨?_, ?_, ?_, ?_, ?_, funext fun k => ?_⟩
  · rw [hload _ _ (by omega) (by omega)]
  · rw [hload _ _ (by omega) (by omega)]
  · rw [hload _ _ (by omega) (by omega)]
  · rw [hload _ _ (by omega) (by omega)]
  · rw [hload _ _ (by omega) (by omega)]
  · have hk := k.isLt
    rw [hload _ _ (by omega) (by omega)]

/-- Dinode number `i` of a disk. -/
def dinodeAt (sb : Superblock) (d : Disk) (i : Nat) : Dinode :=
  getDinode (d (IBLOCK sb i)) (dinodeOff i)

theorem dinodeAt_update (sb : Superblock) (d : Disk) (i : Nat) (x : Dinode) :
    dinodeAt sb (update d (IBLOCK sb i)
      (putDinode (d (IBLOCK sb i)) (dinodeOff i) x)) = update (dinodeAt sb d) i x := by
  funext j
  unfold dinodeAt
  by_cases hji : j = i
  · rw [hji, update_self, update_self, getDinode_putDinode]
  · rw [update_of_ne hji]
    by_cases hblk : IBLOCK sb j = IBLOCK sb i
    · -- another inode of the same block lies elsewhere in it
      rw [hblk, update_self]
      refine getDinode_congr fun k hlo hhi => putDinode_outside _ _ _ ?_
      have hne : j % IPB ≠ i % IPB := by
        unfold IBLOCK at hblk
        intro hmod
        have hj := Nat.div_add_mod j IPB
        have hi := Nat.div_add_mod i IPB
        have hdiv : j / IPB = i / IPB := by omega
        rw [hdiv, hmod] at hj
        omega
      simp only [dinodeOff, show DINODESIZE = 64 from rfl] at hlo hhi ⊢
      omega
    · rw [update_of_ne hblk]

/-- The disk with dinode `i` stored. -/
def setDinode (sb : Superblock) (d : Disk) (i : Nat) (x : Dinode) : Disk :=
  update d (IBLOCK sb i) (putDinode (d (IBLOCK sb i)) (dinodeOff i) x)

theorem dinodeAt_setDinode (sb : Superblock) (d : Disk) (i : Nat) (x : Dinode) :
    dinodeAt sb (setDinode sb d i x) = update (dinodeAt sb d) i x :=
  dinodeAt_update sb d i x

/-! ### The free bitmap -/

/-- `m = 1 << (bi % 8)` -/
def mask (bi : Nat) : UInt8 := 1 <<< UInt8.ofNat (bi % 8)

/-- Bit `bi` of a bitmap block is clear: the block it stands for is free. -/
def bitClear (blk : Block) (bi : Nat) : Prop := blk (bi / 8) &&& mask bi = 0

instance (blk : Block) (bi : Nat) : Decidable (bitClear blk bi) := by
  unfold bitClear; infer_instance

/-- `bp->data[bi / 8] |= m` -/
def setBit (blk : Block) (bi : Nat) : Block :=
  update blk (bi / 8) (blk (bi / 8) ||| mask bi)

/-- `bp->data[bi / 8] &= ~m` -/
def clearBit (blk : Block) (bi : Nat) : Block :=
  update blk (bi / 8) (blk (bi / 8) &&& ~~~ mask bi)

theorem toBitVec_mask (bi : Nat) : (mask bi).toBitVec = BitVec.twoPow 8 (bi % 8) := by
  have hlt : bi % 8 < 8 := Nat.mod_lt _ (by decide)
  have hall : ∀ k < 8, ((1 : UInt8) <<< UInt8.ofNat k).toBitVec = BitVec.twoPow 8 k := by decide
  exact hall _ hlt

theorem bitClear_iff (blk : Block) (bi : Nat) :
    bitClear blk bi ↔ (blk (bi / 8)).toBitVec.getLsbD (bi % 8) = false := by
  have hlt : bi % 8 < 8 := Nat.mod_lt _ (by decide)
  rw [bitClear, ← UInt8.toBitVec_inj, UInt8.toBitVec_and, toBitVec_mask]
  constructor
  · intro h
    have hbit := congrArg (fun v => BitVec.getLsbD v (bi % 8)) h
    simpa [BitVec.getLsbD_twoPow, hlt] using hbit
  · intro h
    refine BitVec.eq_of_getLsbD_eq fun k hk => ?_
    by_cases hkb : bi % 8 = k
    · subst hkb
      simp [h]
    · simp [BitVec.getLsbD_twoPow, hkb]

theorem bitClear_setBit {blk : Block} {bi bj : Nat} :
    bitClear (setBit blk bi) bj ↔ bitClear blk bj ∧ bj ≠ bi := by
  have hlt : bj % 8 < 8 := Nat.mod_lt _ (by decide)
  rw [bitClear_iff, bitClear_iff, setBit]
  by_cases hbyte : bj / 8 = bi / 8
  · rw [hbyte, update_self, UInt8.toBitVec_or, toBitVec_mask, BitVec.getLsbD_or,
      BitVec.getLsbD_twoPow, Bool.or_eq_false_iff]
    have hiff : (decide (bi % 8 < 8) && decide (bi % 8 = bj % 8)) = false ↔ bj ≠ bi := by
      simp only [Bool.and_eq_false_iff, decide_eq_false_iff_not]
      omega
    rw [hiff]
  · have hne : bj ≠ bi := fun heq => hbyte (by rw [heq])
    rw [update_of_ne hbyte]
    simp [hne]

theorem bitClear_clearBit {blk : Block} {bi bj : Nat} :
    bitClear (clearBit blk bi) bj ↔ bitClear blk bj ∨ bj = bi := by
  have hlt : bj % 8 < 8 := Nat.mod_lt _ (by decide)
  rw [bitClear_iff, bitClear_iff, clearBit]
  by_cases hbyte : bj / 8 = bi / 8
  · rw [hbyte, update_self, UInt8.toBitVec_and, UInt8.toBitVec_not, toBitVec_mask,
      BitVec.getLsbD_and, BitVec.getLsbD_not, BitVec.getLsbD_twoPow, Bool.and_eq_false_iff]
    have hiff : (decide (bj % 8 < 8) && !(decide (bi % 8 < 8) && decide (bi % 8 = bj % 8))) = false ↔
        bj = bi := by
      simp only [Bool.and_eq_false_iff, decide_eq_false_iff_not, Bool.not_eq_false',
        Bool.and_eq_true, decide_eq_true_eq]
      omega
    rw [hiff]
  · have hne : bj ≠ bi := fun heq => hbyte (by rw [heq])
    rw [update_of_ne hbyte]
    simp [hne]

/-- Block `b` is marked free. -/
def markedFree (sb : Superblock) (d : Disk) (b : Nat) : Prop := bitClear (d (BBLOCK sb b)) (b % BPB)

theorem BBLOCK_mod_inj {sb : Superblock} {b c : Nat} (hblk : BBLOCK sb b = BBLOCK sb c)
    (hmod : b % BPB = c % BPB) : b = c := by
  unfold BBLOCK at hblk
  have hb := Nat.div_add_mod b BPB
  have hc := Nat.div_add_mod c BPB
  have hdiv : b / BPB = c / BPB := by omega
  rw [hdiv, hmod] at hb
  omega

theorem markedFree_setBit {sb : Superblock} {d : Disk} {b c : Nat} :
    markedFree sb (update d (BBLOCK sb b) (setBit (d (BBLOCK sb b)) (b % BPB))) c ↔
      markedFree sb d c ∧ c ≠ b := by
  unfold markedFree
  by_cases hblk : BBLOCK sb c = BBLOCK sb b
  · rw [hblk, update_self, bitClear_setBit]
    refine and_congr_right fun _ => not_congr ⟨BBLOCK_mod_inj hblk, fun h => by rw [h]⟩
  · have hne : c ≠ b := fun heq => hblk (by rw [heq])
    rw [update_of_ne hblk]
    simp [hne]

theorem markedFree_clearBit {sb : Superblock} {d : Disk} {b c : Nat} :
    markedFree sb (update d (BBLOCK sb b) (clearBit (d (BBLOCK sb b)) (b % BPB))) c ↔
      markedFree sb d c ∨ c = b := by
  unfold markedFree
  by_cases hblk : BBLOCK sb c = BBLOCK sb b
  · rw [hblk, update_self, bitClear_clearBit]
    exact or_congr_right ⟨BBLOCK_mod_inj hblk, fun h => by rw [h]⟩
  · have hne : c ≠ b := fun heq => hblk (by rw [heq])
    rw [update_of_ne hblk]
    simp [hne]

end Xv6.Fs
