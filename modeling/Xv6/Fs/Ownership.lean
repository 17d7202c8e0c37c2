import Xv6.Fs.Inode
import Xv6.Lib.Ledger

/-!
# Who owns a block

Every data block is free, or named by exactly one address of one allocated inode, or in
the hands of the running operation.  The bitmap says which blocks are free.  The addresses
of an inode are those of its dinode and those in its indirect block.
-/

namespace Xv6.Fs

open ByteView Hoare Ledger Function

/-- The places of an inode that hold a block address. -/
inductive Slot where
  | direct (i : Fin NDIRECT)
  | indirect
  /-- Entry `j` of the indirect block. -/
  | entry (j : Fin NINDIRECT)
deriving DecidableEq

/-- The place of `addrs[k]`. -/
def addrSlot (k : Fin (NDIRECT + 1)) : Slot :=
  if h : (k : Nat) < NDIRECT then .direct ⟨k, h⟩ else .indirect

/-- The address at a place of an inode, 0 if there is none. -/
def Dinode.block (x : Dinode) (d : Disk) : Slot → Nat
  | .direct i => (x.addrs i.castSucc).toNat
  | .indirect => (x.addrs (Fin.last NDIRECT)).toNat
  | .entry j =>
    if x.addrs (Fin.last NDIRECT) = 0 then 0
    else getLE (d (x.addrs (Fin.last NDIRECT)).toNat) (4 * j) 4

/-- An address, if there is one. -/
def nonzero (n : Nat) : Option Nat := if n = 0 then none else some n

@[simp] theorem nonzero_eq_some {n b : Nat} : nonzero n = some b ↔ n = b ∧ b ≠ 0 := by
  unfold nonzero
  split
  · rename_i h
    simp only [reduceCtorEq, false_iff, not_and, not_not]
    rintro rfl
    exact h
  · rename_i h
    simp only [Option.some.injEq]
    exact ⟨fun heq => ⟨heq, heq ▸ h⟩, fun heq => heq.1⟩

@[simp] theorem nonzero_eq_none {n : Nat} : nonzero n = none ↔ n = 0 := by
  unfold nonzero
  split <;> simp [*]

/-- The block that a place of an inode owns, the inodes being `D`. -/
def owner (sb : Superblock) (D : Nat → Dinode) (d : Disk) (p : Nat × Slot) : Option Nat :=
  if p.1 < sb.ninodes ∧ (D p.1).type ≠ 0 then nonzero ((D p.1).block d p.2) else none

/-- The regions of the disk follow each other: inode blocks, bitmap, data blocks from
    `first` on. -/
structure Layout (sb : Superblock) (first : Nat) : Prop where
  inodes : sb.inodestart + sb.ninodes / IPB < sb.bmapstart
  bitmap : sb.bmapstart + sb.size / BPB < first
  first_le : first ≤ sb.size
  size_lt : sb.size < 2 ^ 31

/-- The bitmap has the bits of the metadata blocks and of the blocks that are owned or
    loose, and no others. -/
structure Books (sb : Superblock) (first : Nat) (own : Nat × Slot → Option Nat) (d : Disk)
    (loose : List Nat) : Prop where
  exact : Exact own loose (markedFree sb d) fun b => first ≤ b ∧ b < sb.size
  metadata : ∀ b < first, ¬ markedFree sb d b

/-- Every panic but `"freeing free block"`, and waiting. -/
def Benign (e : Stop) : Prop := e ≠ .panic .freeingFreeBlock

/-- `log_write` may panic. -/
class LogMayPanic (E : Stop → Prop) : Prop where
  log : ∀ e, E (.panic (.log e))

instance : LogMayPanic Benign := ⟨fun _ h => by cases h⟩

/-- A call of `balloc` in `s` finds no block: it is one of those that do, or no block is free. -/
def NoRoom (sb : Superblock) (s : State) : Prop :=
  s.outOfBlocks s.ballocs = true ∨ ∀ b < sb.size, ¬ markedFree sb s.disk b

section Blocks

variable {sb : Superblock} {first : Nat} {own : Nat × Slot → Option Nat} {loose : List Nat}
  {s : State} {E : Stop → Prop}

theorem Layout.first_pos (hL : Layout sb first) : 0 < first :=
  Nat.lt_of_le_of_lt (Nat.zero_le _) hL.bitmap

theorem Layout.IBLOCK_lt (hL : Layout sb first) {i : Nat} (hi : i < sb.ninodes) :
    IBLOCK sb i < sb.bmapstart := by
  have hdiv : i / IPB ≤ sb.ninodes / IPB := Nat.div_le_div_right (Nat.le_of_lt hi)
  have := hL.inodes
  unfold IBLOCK
  omega

theorem Layout.BBLOCK_lt (hL : Layout sb first) {b : Nat} (hb : b < sb.size) :
    BBLOCK sb b < first := by
  have hdiv : b / BPB ≤ sb.size / BPB := Nat.div_le_div_right (Nat.le_of_lt hb)
  have := hL.bitmap
  unfold BBLOCK
  omega

theorem bmapstart_le_BBLOCK (b : Nat) : sb.bmapstart ≤ BBLOCK sb b := Nat.le_add_left _ _

theorem Layout.bmapstart_lt (hL : Layout sb first) : sb.bmapstart < first :=
  Nat.lt_of_le_of_lt (Nat.le_add_right _ _) hL.bitmap

theorem Layout.dinodeAt_congr (hL : Layout sb first) {d d' : Disk}
    (h : ∀ b < sb.bmapstart, d' b = d b) {i : Nat} (hi : i < sb.ninodes) :
    dinodeAt sb d' i = dinodeAt sb d i := by
  unfold dinodeAt
  rw [h _ (hL.IBLOCK_lt hi)]

theorem Books.congr {d d' : Disk} {own' : Nat × Slot → Option Nat} (hL : Layout sb first)
    (h : Books sb first own d loose) (hown : ∀ p, own' p = own p)
    (hbit : ∀ b < sb.size, d' (BBLOCK sb b) = d (BBLOCK sb b)) :
    Books sb first own' d' loose := by
  have hmark : ∀ b < sb.size, (markedFree sb d' b ↔ markedFree sb d b) := by
    intro b hb
    unfold markedFree
    rw [hbit b hb]
  refine ⟨h.exact.congr hown fun b hb => hmark b hb.2, fun b hb => ?_⟩
  rw [hmark b (Nat.lt_of_lt_of_le hb hL.first_le)]
  exact h.metadata b hb

theorem wp_logWrite [LogMayPanic E] {b : Nat} {v : Block} {Q : Unit → State → Prop}
    (h : ∀ l, Q () { s with disk := update s.disk b v, log := l }) :
    wp (logWrite b v) E Q s := by
  simp only [logWrite, wp_bind, wp_get]
  cases Log.logWrite s.log b with
  | error e => exact LogMayPanic.log e
  | ok r => exact h r.1

/-- Between `s` and `s'` there may have been calls of `balloc`. -/
structure Counted (s s' : State) : Prop where
  outOfBlocks : s'.outOfBlocks = s.outOfBlocks
  ballocs : s.ballocs ≤ s'.ballocs

theorem Counted.refl : Counted s s := ⟨rfl, Nat.le_refl _⟩

theorem Counted.trans {s' s'' : State} (h : Counted s s') (h' : Counted s' s'') : Counted s s'' :=
  ⟨h'.outOfBlocks.trans h.outOfBlocks, Nat.le_trans h.ballocs h'.ballocs⟩

/-- What `balloc` leaves alone: it changes the bitmap and the block it returns. -/
structure AllocFrame (sb : Superblock) (s s' : State) (b : Nat) : Prop extends Counted s s' where
  inode : s'.inode = s.inode
  disk : ∀ c, c ≠ b → c ≠ BBLOCK sb b → s'.disk c = s.disk c

/-- What a scan of the bitmap in `balloc` changes before it has found a block. -/
structure Scanned (s t : State) : Prop where
  inode : t.inode = s.inode
  disk : t.disk = s.disk
  outOfBlocks : t.outOfBlocks = s.outOfBlocks
  ballocs : t.ballocs = s.ballocs + 1

theorem Scanned.counted {t : State} (h : Scanned s t) : Counted s t :=
  ⟨h.outOfBlocks, h.ballocs ▸ Nat.le_succ _⟩

/-- **`balloc`** returns 0, or a zeroed block that was free and is now loose. -/
theorem wp_balloc [LogMayPanic E] (hL : Layout sb first) (h : Books sb first own s.disk loose) :
    wp (balloc sb) E (fun a s' =>
      (a = 0 ∧ Scanned s s' ∧ NoRoom sb s) ∨
      (a ≠ 0 ∧ Books sb first own s'.disk (a.toNat :: loose) ∧
        s'.disk a.toNat = (fun _ => 0) ∧ AllocFrame sb s s' a.toNat)) s := by
  simp only [balloc, wp_bind, wp_get, wp_modify]
  split
  · rename_i hout
    exact Or.inl ⟨rfl, ⟨rfl, rfl, rfl, rfl⟩, Or.inl hout⟩
  · -- the scans leave the state alone until they find a free block
    rw [wp_bind]
    refine wp_findFirst (I := fun k t => Scanned s t ∧
        ∀ b < sb.size, b < k * BPB → ¬ markedFree sb s.disk b) _
      ⟨⟨rfl, rfl, rfl, rfl⟩, fun b _ hb => absurd hb (by omega)⟩
      ?_ ?_
    swap
    · rintro t ⟨ht, hused⟩
      refine Or.inl ⟨rfl, ht, Or.inr fun b hb => hused b hb ?_⟩
      rw [Nat.zero_add]
      have hB : 0 < BPB := by decide
      have hceil := Nat.lt_div_mul_add (a := sb.size + BPB - 1) hB
      omega
    rintro k t _ _ ⟨ht, hused⟩
    simp only [ballocFrom, wp_bind, bread, wp_get, wp_pure]
    refine wp_findFirst (I := fun i t => Scanned s t ∧
        ∀ b < sb.size, b < k * BPB + i → ¬ markedFree sb s.disk b) _
      ⟨ht, fun b hb hlt => hused b hb (by omega)⟩ ?_ ?_
    swap
    · rintro u ⟨hu, hused⟩
      refine ⟨hu, fun b hb hlt => hused b hb ?_⟩
      rw [Nat.add_mul, Nat.one_mul] at hlt
      omega
    rintro bi u _ hbi ⟨hu, hused⟩
    have hbiB : bi < BPB := Nat.lt_of_lt_of_le hbi (by rw [Nat.zero_add]; exact Nat.min_le_left ..)
    have hsize : k * BPB + bi < sb.size := by
      have : bi < sb.size - k * BPB :=
        Nat.lt_of_lt_of_le hbi (by rw [Nat.zero_add]; exact Nat.min_le_right ..)
      omega
    rw [ht.disk]
    -- the bit that is looked at is the one of block `b`
    have hblk : BBLOCK sb (k * BPB) = BBLOCK sb (k * BPB + bi) := by
      unfold BBLOCK
      rw [Nat.mul_div_cancel _ (by decide), Nat.add_comm (k * BPB), Nat.add_mul_div_right _ _
        (by decide), Nat.div_eq_of_lt hbiB, Nat.zero_add]
    have hmod : (k * BPB + bi) % BPB = bi := by
      rw [Nat.add_comm, Nat.add_mul_mod_self_right, Nat.mod_eq_of_lt hbiB]
    rw [hblk]
    split
    · rename_i hclear
      generalize hb : k * BPB + bi = b at *
      have hfree : markedFree sb s.disk b := by
        unfold markedFree
        rw [hmod]
        exact hclear
      have hfirst : first ≤ b := Nat.not_lt.mp fun hlt => h.metadata b hlt hfree
      have hpos := hL.first_pos
      have hnat : (UInt32.ofNat b).toNat = b := by
        rw [UInt32.toNat_ofNat']
        exact Nat.mod_eq_of_lt (by have := hL.size_lt; omega)
      have hmark : ∀ c < sb.size, (markedFree sb (update
          (update s.disk (BBLOCK sb b) (setBit (s.disk (BBLOCK sb b)) bi)) b
          fun _ => 0) c ↔ markedFree sb s.disk c ∧ c ≠ b) := by
        intro c hc
        have hne : BBLOCK sb c ≠ b := by
          have := hL.BBLOCK_lt hc
          omega
        rw [← markedFree_setBit, hmod]
        unfold markedFree
        rw [update_of_ne hne]
      rw [wp_bind]
      refine wp_logWrite fun l => ?_
      simp only [bzero, wp_bind, bread, wp_get, wp_pure]
      refine wp_logWrite fun l' => Or.inr ⟨?_, ?_, ?_, ⟨⟨hu.outOfBlocks, hu.counted.ballocs⟩,
        hu.inode, fun c hcb hcB => ?_⟩⟩
      · intro hzero
        have := congrArg UInt32.toNat hzero
        rw [Option.getD_some, hnat] at this
        simp at this
        omega
      · simp only [Option.getD_some, hnat, hu.disk]
        refine ⟨h.exact.alloc ⟨hfirst, hsize⟩ hfree fun c hc => hmark c hc.2, fun c hc hcl => ?_⟩
        have hcs := Nat.lt_of_lt_of_le hc hL.first_le
        exact h.metadata c hc ((hmark c hcs).mp hcl).1
      · simp only [Option.getD_some, hnat, update_self]
      · simp only [Option.getD_some, hnat] at hcb hcB ⊢
        rw [update_of_ne hcb, update_of_ne hcB, hu.disk]
    · rename_i hset
      refine ⟨hu, fun b hb hlt => ?_⟩
      by_cases heq : b = k * BPB + bi
      · subst heq
        unfold markedFree
        rwa [hmod]
      · exact hused b hb (by omega)

/-- **`bfree`** of a loose block does not panic and makes it free. -/
theorem wp_bfree {b : UInt32} (h : Books sb first own s.disk (b.toNat :: loose)) :
    wp (bfree sb b) Benign (fun _ s' => s'.inode = s.inode ∧ Books sb first own s'.disk loose ∧
      ∀ c, c ≠ BBLOCK sb b.toNat → s'.disk c = s.disk c) s := by
  have hmem := h.exact.mem b.toNat List.mem_cons_self
  have hused : ¬ bitClear (s.disk (BBLOCK sb b.toNat)) (b.toNat % BPB) :=
    h.exact.not_free_of_loose List.mem_cons_self
  simp only [bfree, wp_bind, bread, wp_get, wp_pure, if_neg hused]
  refine wp_logWrite fun l => ⟨rfl, ⟨?_, fun c hc => ?_⟩, fun c hc => ?_⟩
  · exact h.exact.release fun c _ => markedFree_clearBit
  · rw [markedFree_clearBit, not_or]
    exact ⟨h.metadata c hc, by omega⟩
  · exact update_of_ne hc _ _

end Blocks

end Xv6.Fs
