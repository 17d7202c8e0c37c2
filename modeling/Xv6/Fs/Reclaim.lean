import Xv6.Fs.Agreement

/-!
# Boot-time reclamation

`fsinit` ends with `ireclaim`, which frees the inodes that a crash has left without links: it
goes through `iget`, `ilock`, `iunlock` and `iput`, each orphan in a transaction of its own.
What it frees is exactly what the orphans own, and what is linked stays as it is.

A transaction logs the bitmap blocks of what it frees and the block of the dinode.  `log_write`
panics on a full log even for a block that is in it already, so the bitmap may have two blocks
less than the log has.
-/

namespace Xv6.Fs

open ByteView Hoare Ledger Transition Function

/-! ### The transaction of one orphan -/

/-- No operation is running, and nothing is logged. -/
structure Idle (l : Log.LogState) : Prop where
  outstanding : l.outstanding = 0
  committing : l.committing = false
  lh : l.lh = []

/-- The blocks that freeing inode `i` may log: the bitmap and the block of the dinode. -/
def freeingBlocks (sb : Superblock) (i : Nat) : Finset Nat :=
  insert (IBLOCK sb i) ((Finset.range ((sb.size + BPB - 1) / BPB)).image (· + sb.bmapstart))

/-- One operation is running, and it frees inode `i`. -/
structure Freeing (sb : Superblock) (i : Nat) (l : Log.LogState) : Prop where
  outstanding : l.outstanding = 1
  committing : l.committing = false
  nodup : l.lh.Nodup
  logged : ∀ b ∈ l.lh, b ∈ freeingBlocks sb i

/-- The bitmap leaves room in the log. -/
def SmallBitmap (sb : Superblock) : Prop := sb.size ≤ (LOGBLOCKS - 2) * BPB

section Log

variable {sb : Superblock} {i b : Nat} {l : Log.LogState} {s : State} {E : Stop → Prop}

theorem card_freeingBlocks (h : SmallBitmap sb) : (freeingBlocks sb i).card < LOGBLOCKS := by
  have hcard := Finset.card_insert_le (IBLOCK sb i)
    ((Finset.range ((sb.size + BPB - 1) / BPB)).image (· + sb.bmapstart))
  have himage := Finset.card_image_le (s := Finset.range ((sb.size + BPB - 1) / BPB))
    (f := (· + sb.bmapstart))
  rw [Finset.card_range] at himage
  have hdiv : (sb.size + BPB - 1) / BPB ≤ LOGBLOCKS - 2 := by
    unfold SmallBitmap at h
    rw [show LOGBLOCKS - 2 = 28 from rfl, show BPB = 8192 from rfl] at *
    omega
  have hlog : LOGBLOCKS - 2 + 1 < LOGBLOCKS := by decide
  unfold freeingBlocks
  omega

theorem IBLOCK_mem_freeingBlocks : IBLOCK sb i ∈ freeingBlocks sb i := Finset.mem_insert_self ..

theorem BBLOCK_mem_freeingBlocks (hb : b < sb.size) : BBLOCK sb b ∈ freeingBlocks sb i := by
  refine Finset.mem_insert_of_mem (Finset.mem_image.mpr ⟨b / BPB, Finset.mem_range.mpr ?_, rfl⟩)
  rw [show BPB = 8192 from rfl]
  omega

theorem Freeing.wp_logWrite (h : Freeing sb i s.log) (hsmall : SmallBitmap sb)
    (hb : b ∈ freeingBlocks sb i) {v : Block} {Q : Unit → State → Prop}
    (hQ : ∀ l, Freeing sb i l → Q () { s with disk := update s.disk b v, log := l }) :
    wp (logWrite b v) E Q s := by
  have hlen : s.log.lh.length < LOGBLOCKS := by
    refine Nat.lt_of_le_of_lt ?_ (card_freeingBlocks (i := i) hsmall)
    rw [← List.toFinset_card_of_nodup h.nodup]
    exact Finset.card_le_card fun c hc => h.logged c (List.mem_toFinset.mp hc)
  have hout : 1 ≤ s.log.outstanding := by rw [h.outstanding]
  simp only [logWrite, wp_bind, wp_get]
  by_cases hmem : b ∈ s.log.lh
  · rw [Log.logWrite_eq_ok.mpr ⟨hlen, hout, Or.inl ⟨hmem, rfl, rfl⟩⟩]
    exact hQ _ h
  · rw [Log.logWrite_eq_ok.mpr ⟨hlen, hout, Or.inr ⟨hmem, rfl, rfl⟩⟩]
    refine hQ _ ⟨h.outstanding, h.committing, ?_, fun c hc => ?_⟩
    · exact List.nodup_append.mpr ⟨h.nodup, List.nodup_singleton _, fun c hc c' hc' heq =>
        hmem (List.mem_singleton.mp hc' ▸ heq ▸ hc)⟩
    · rcases List.mem_append.mp hc with hc | hc
      · exact h.logged c hc
      · exact List.mem_singleton.mp hc ▸ hb

theorem Idle.wp_beginOp (h : Idle s.log) {Q : Unit → State → Prop}
    (hQ : ∀ l, Freeing sb i l → Q () { s with log := l }) : wp beginOp E Q s := by
  have hbegin : Log.beginOp s.log = some { s.log with outstanding := s.log.outstanding + 1 } := by
    refine Log.beginOp_eq_some.mpr ⟨h.committing, ?_, rfl⟩
    rw [h.outstanding, h.lh]
    decide
  simp only [beginOp, wp_bind, wp_get, hbegin]
  refine hQ _ ⟨by rw [h.outstanding]; rfl, h.committing, ?_, ?_⟩
  · rw [h.lh]
    exact List.nodup_nil
  · rw [h.lh]
    exact fun _ hb => absurd hb (List.not_mem_nil)

theorem Freeing.wp_endOp (h : Freeing sb i s.log) {Q : Unit → State → Prop}
    (hQ : ∀ l, Idle l → Q () { s with log := l }) : wp endOp E Q s := by
  simp only [endOp, wp_bind, wp_get,
    Log.endOp_eq_ok.mpr ⟨h.committing, Or.inl ⟨h.outstanding, rfl, rfl⟩⟩]
  exact hQ _ ⟨rfl, rfl, rfl⟩

end Log

/-! ### What an inode owns is freed -/

/-- The block at a place of the inode `x`. -/
def Dinode.blockAt (x : Dinode) (d : Disk) (k : Slot) : Option Nat := nonzero (x.block d k)

/-- The blocks of `x` are pairwise distinct data blocks in use. -/
structure OwnsBlocks (sb : Superblock) (first : Nat) (x : Dinode) (d : Disk) : Prop where
  data : ∀ k b, x.blockAt d k = some b → first ≤ b ∧ b < sb.size
  used : ∀ k b, x.blockAt d k = some b → ¬ markedFree sb d b
  once : ∀ k l b, x.blockAt d k = some b → x.blockAt d l = some b → k = l

/-- From the disk `d` the blocks at the places in `P` have become free, in the transaction
    that frees inode `i`. -/
structure Freed (sb : Superblock) (first i : Nat) (x : Dinode) (P : Slot → Prop) (d : Disk)
    (s : State) : Prop where
  log : Freeing sb i s.log
  free : ∀ b, markedFree sb s.disk b ↔ markedFree sb d b ∨ ∃ k, P k ∧ x.blockAt d k = some b
  disk : ∀ b, b < sb.bmapstart ∨ first ≤ b → s.disk b = d b

/-- The inode with `addrs[0..n-1]` cleared. -/
def Dinode.dropAddrs (x : Dinode) (n : Nat) : Dinode :=
  { x with addrs := fun k => if (k : Nat) < n then 0 else x.addrs k }

section Truncate

variable {sb : Superblock} {first i ip : Nat} {x : Dinode} {P P' : Slot → Prop} {d : Disk}
  {s : State} {E : Stop → Prop}

theorem Freed.congr (h : Freed sb first i x P d s)
    (hP : ∀ k b, x.blockAt d k = some b → (P' k ↔ P k)) : Freed sb first i x P' d s := by
  refine ⟨h.log, fun b => (h.free b).trans (or_congr_right ?_), h.disk⟩
  exact exists_congr fun k => and_congr_left fun hk => (hP k b hk).symm

/-- **`bfree`** of the block at a place. -/
theorem Freed.wp_bfree (hL : Layout sb first) (hsmall : SmallBitmap sb)
    (hO : OwnsBlocks sb first x d) (h : Freed sb first i x P d s) {k : Slot} (hk : ¬ P k)
    {a : UInt32} (ha : x.blockAt d k = some a.toNat) :
    wp (bfree sb a) E (fun _ s' => s'.inode = s.inode ∧
      Freed sb first i x (fun l => P l ∨ l = k) d s') s := by
  obtain ⟨hfirst, hsize⟩ := hO.data k _ ha
  have hused : ¬ bitClear (s.disk (BBLOCK sb a.toNat)) (a.toNat % BPB) := by
    refine (not_congr (h.free _)).mpr ?_
    rintro (hfree | ⟨l, hl, hla⟩)
    · exact hO.used k _ ha hfree
    · exact hk (hO.once l k _ hla ha ▸ hl)
  simp only [bfree, wp_bind, bread, wp_get, wp_pure]
  rw [if_neg hused]
  refine h.log.wp_logWrite hsmall (BBLOCK_mem_freeingBlocks hsize) fun l hl =>
    ⟨rfl, hl, fun b => ?_, fun b hb => ?_⟩
  · show markedFree sb (update s.disk _ _) b ↔ _
    rw [markedFree_clearBit, h.free, or_assoc]
    refine or_congr_right ⟨?_, ?_⟩
    · rintro (⟨l, hl, hb⟩ | rfl)
      · exact ⟨l, Or.inl hl, hb⟩
      · exact ⟨k, Or.inr rfl, ha⟩
    · rintro ⟨l, hl | rfl, hb⟩
      · exact Or.inl ⟨l, hl, hb⟩
      · exact Or.inr (Option.some.inj (hb.symm.trans ha))
  · have hlo := @bmapstart_le_BBLOCK sb a.toNat
    have hhi := hL.BBLOCK_lt hsize
    rw [← h.disk b hb]
    exact update_of_ne (by omega) _ _

theorem dropAddrs_succ {n : Nat} (hn : n < NDIRECT + 1) :
    (x.dropAddrs n).setAddr ⟨n, hn⟩ 0 = x.dropAddrs (n + 1) := by
  unfold Dinode.dropAddrs Dinode.setAddr
  congr 1
  funext k
  by_cases hk : k = ⟨n, hn⟩
  · rw [hk, update_self, if_pos (Nat.lt_succ_self n)]
  · rw [update_of_ne hk]
    dsimp only
    have hne : (k : Nat) ≠ n := fun heq => hk (Fin.ext heq)
    by_cases hlt : (k : Nat) < n
    · rw [if_pos hlt, if_pos (by omega)]
    · rw [if_neg hlt, if_neg (by omega)]

theorem dropAddrs_self {n : Nat} (hn : n < NDIRECT + 1) :
    (x.dropAddrs n).addrs ⟨n, hn⟩ = x.addrs ⟨n, hn⟩ := if_neg (Nat.lt_irrefl n)

theorem dropAddrs_succ_of_zero {n : Nat} (hn : n < NDIRECT + 1) (hzero : x.addrs ⟨n, hn⟩ = 0) :
    x.dropAddrs (n + 1) = x.dropAddrs n := by
  rw [← dropAddrs_succ hn, Dinode.setAddr, ← hzero, ← dropAddrs_self hn, update_eq_self]

/-- The in-memory inode `ip`, with its first `n` addresses cleared. -/
def State.Dropped (s₀ : State) (ip : Nat) (x : Dinode) (n : Nat) (s : State) : Prop :=
  s.inode = update s₀.inode ip ((s₀.inode ip).setCopy (x.dropAddrs n))

theorem State.Dropped.copy {s₀ : State} {n : Nat} (h : s₀.Dropped ip x n s) :
    (s.inode ip).copy = x.dropAddrs n := by
  rw [h, update_self]
  rfl

theorem State.Dropped.setAddr {s₀ : State} {n : Nat} (h : s₀.Dropped ip x n s)
    (hn : n < NDIRECT + 1) :
    s₀.Dropped ip x (n + 1)
      (s.setInode ip ((s.inode ip).setCopy ((s.inode ip).copy.setAddr ⟨n, hn⟩ 0))) := by
  unfold State.Dropped State.setInode
  dsimp only
  rw [h.copy, dropAddrs_succ hn, h, update_self, update_idem]
  rfl

/-- The places of the direct addresses below `n`. -/
def directBelow (n : Nat) (k : Slot) : Prop := ∃ j : Fin NDIRECT, k = .direct j ∧ (j : Nat) < n

theorem directBelow_succ {n : Nat} (hn : n < NDIRECT) (k : Slot) :
    directBelow (n + 1) k ↔ directBelow n k ∨ k = .direct ⟨n, hn⟩ := by
  constructor
  · rintro ⟨j, rfl, hj⟩
    by_cases hlt : (j : Nat) < n
    · exact Or.inl ⟨j, rfl, hlt⟩
    · exact Or.inr (congrArg Slot.direct (Fin.ext (by dsimp only; omega)))
  · rintro (⟨j, rfl, hj⟩ | rfl)
    · exact ⟨j, rfl, by omega⟩
    · exact ⟨⟨n, hn⟩, rfl, Nat.lt_succ_self n⟩

theorem Freed.wp_freeAddr {s₀ : State} (hL : Layout sb first) (hsmall : SmallBitmap sb)
    (hO : OwnsBlocks sb first x d) {n : Nat} (h : Freed sb first i x (directBelow n) d s)
    (hcopy : s₀.Dropped ip x n s) (hn : n < NDIRECT) :
    wp (freeAddr sb ip ⟨n, Nat.lt_succ_of_lt hn⟩) E (fun _ s' =>
      Freed sb first i x (directBelow (n + 1)) d s' ∧ s₀.Dropped ip x (n + 1) s') s := by
  have hn' : n < NDIRECT + 1 := Nat.lt_succ_of_lt hn
  simp only [freeAddr, wp_bind, wp_get]
  rw [hcopy.copy, dropAddrs_self hn']
  split
  · rename_i hzero
    refine ⟨h.congr fun k b hb => ?_, ?_⟩
    · rw [directBelow_succ hn]
      refine or_iff_left ?_
      rintro rfl
      obtain ⟨hb, hpos⟩ := nonzero_eq_some.mp hb
      exact hpos (hb ▸ congrArg UInt32.toNat hzero)
    · rw [State.Dropped, dropAddrs_succ_of_zero hn' hzero]
      exact hcopy
  · rename_i hne
    have hblock : x.blockAt d (.direct ⟨n, hn⟩) = some (x.addrs ⟨n, hn'⟩).toNat :=
      nonzero_eq_some.mpr ⟨rfl, fun hz => hne (UInt32.toNat_inj.mp hz)⟩
    have hfresh : ¬ directBelow n (.direct ⟨n, hn⟩) := by
      rintro ⟨j, hj, hlt⟩
      cases hj
      exact Nat.lt_irrefl n hlt
    rw [wp_bind]
    refine wp_mono (h.wp_bfree hL hsmall hO hfresh hblock) ?_
    rintro _ t ⟨hinode, ht⟩
    have hcopy' : s₀.Dropped ip x n t := hinode.trans hcopy
    simp only [setAddr, setInode, wp_modify]
    refine ⟨?_, hcopy'.setAddr hn'⟩
    obtain ⟨hlog, hfree, hdisk⟩ := ht.congr fun k _ _ => directBelow_succ hn k
    exact ⟨hlog, hfree, hdisk⟩

/-- The places of the direct addresses, and of the first `n` entries of the indirect block. -/
def entryBelow (n : Nat) (k : Slot) : Prop :=
  (∃ j, k = .direct j) ∨ ∃ j : Fin NINDIRECT, k = .entry j ∧ (j : Nat) < n

theorem entryBelow_succ {n : Nat} (hn : n < NINDIRECT) (k : Slot) :
    entryBelow (n + 1) k ↔ entryBelow n k ∨ k = .entry ⟨n, hn⟩ := by
  unfold entryBelow
  rw [or_assoc]
  refine or_congr_right ⟨?_, ?_⟩
  · rintro ⟨j, rfl, hj⟩
    by_cases hlt : (j : Nat) < n
    · exact Or.inl ⟨j, rfl, hlt⟩
    · exact Or.inr (congrArg Slot.entry (Fin.ext (by dsimp only; omega)))
  · rintro (⟨j, rfl, hj⟩ | rfl)
    · exact ⟨j, rfl, by omega⟩
    · exact ⟨⟨n, hn⟩, rfl, Nat.lt_succ_self n⟩

theorem Freed.wp_freeIndirect {s₀ : State} (hL : Layout sb first) (hsmall : SmallBitmap sb)
    (hO : OwnsBlocks sb first x d) (h : Freed sb first i x (directBelow NDIRECT) d s)
    (hcopy : s₀.Dropped ip x NDIRECT s) :
    wp (freeIndirect sb ip) E (fun _ s' =>
      Freed sb first i x (fun _ => True) d s' ∧ s₀.Dropped ip x (NDIRECT + 1) s') s := by
  have hlast : (x.dropAddrs NDIRECT).addrs (Fin.last NDIRECT) = x.addrs (Fin.last NDIRECT) :=
    dropAddrs_self (Nat.lt_succ_self _)
  simp only [freeIndirect, wp_bind, wp_get]
  rw [hcopy.copy, hlast]
  split
  · rename_i hzero
    refine ⟨h.congr fun k b hb => ?_, ?_⟩
    · -- without an indirect block there are direct addresses only
      obtain ⟨hb, hpos⟩ := nonzero_eq_some.mp hb
      refine ⟨fun _ => ?_, fun _ => trivial⟩
      cases k with
      | direct j => exact ⟨j, rfl, j.2⟩
      | indirect => exact absurd (hb ▸ congrArg UInt32.toNat hzero) hpos
      | entry j => exact absurd (hb ▸ if_pos hzero) hpos
    · rw [State.Dropped, dropAddrs_succ_of_zero (Nat.lt_succ_self _) hzero]
      exact hcopy
  · rename_i hne
    have hindirect : x.blockAt d .indirect = some (x.addrs (Fin.last NDIRECT)).toNat :=
      nonzero_eq_some.mpr ⟨rfl, fun hz => hne (UInt32.toNat_inj.mp hz)⟩
    have hread : s.disk (x.addrs (Fin.last NDIRECT)).toNat = d (x.addrs (Fin.last NDIRECT)).toNat :=
      h.disk _ (Or.inr (hO.data _ _ hindirect).1)
    have hentry : ∀ (n : Nat) (hn : n < NINDIRECT), x.block d (.entry ⟨n, hn⟩) =
        getLE (d (x.addrs (Fin.last NDIRECT)).toNat) (4 * n) 4 := fun n hn => if_neg hne
    simp only [bread, wp_bind, wp_get, wp_pure]
    rw [hread]
    refine wp_forRange (I := fun n t => Freed sb first i x (entryBelow n) d t ∧
        s₀.Dropped ip x NDIRECT t) NINDIRECT ⟨h.congr fun k _ _ => ?_, hcopy⟩ ?_ ?_
    · constructor
      · rintro (⟨j, rfl⟩ | ⟨j, -, hj⟩)
        · exact ⟨j, rfl, j.2⟩
        · exact absurd hj (Nat.not_lt_zero _)
      · rintro ⟨j, rfl, -⟩
        exact Or.inl ⟨j, rfl⟩
    · rintro n t _ hn ⟨ht, htcopy⟩
      rw [Nat.zero_add] at hn
      split
      · rename_i hzero
        refine ⟨ht.congr fun k b hb => ?_, htcopy⟩
        rw [entryBelow_succ hn]
        refine or_iff_left ?_
        rintro rfl
        obtain ⟨hb, hpos⟩ := nonzero_eq_some.mp hb
        exact hpos (hb ▸ (hentry n hn).trans (ofNat_getLE_eq_zero.mp hzero))
      · rename_i hnz
        have hblock : x.blockAt d (.entry ⟨n, hn⟩) = some
            (UInt32.ofNat (getLE (d (x.addrs (Fin.last NDIRECT)).toNat) (4 * n) 4)).toNat := by
          rw [toNat_ofNat_getLE]
          refine nonzero_eq_some.mpr ⟨hentry n hn, fun hz => hnz (ofNat_getLE_eq_zero.mpr hz)⟩
        have hfresh : ¬ entryBelow n (.entry ⟨n, hn⟩) := by
          rintro (⟨j, hj⟩ | ⟨j, hj, hlt⟩)
          · cases hj
          · cases hj
            exact Nat.lt_irrefl n hlt
        refine wp_mono (ht.wp_bfree hL hsmall hO hfresh hblock) ?_
        rintro _ u ⟨hinode, hu⟩
        exact ⟨hu.congr fun k _ _ => entryBelow_succ hn k, hinode.trans htcopy⟩
    · rintro t ⟨ht, htcopy⟩
      have hfresh : ¬ entryBelow (0 + NINDIRECT) .indirect := by
        rintro (⟨j, hj⟩ | ⟨j, hj, -⟩) <;> cases hj
      refine wp_mono (ht.wp_bfree hL hsmall hO hfresh hindirect) ?_
      rintro _ u ⟨hinode, hu⟩
      have hucopy : s₀.Dropped ip x NDIRECT u := hinode.trans htcopy
      simp only [setAddr, setInode, wp_modify]
      refine ⟨?_, hucopy.setAddr (Nat.lt_succ_self _)⟩
      have hall : ∀ k b, x.blockAt d k = some b →
          (True ↔ entryBelow (0 + NINDIRECT) k ∨ k = .indirect) := fun k b _ => by
        refine ⟨fun _ => ?_, fun _ => trivial⟩
        cases k with
        | direct j => exact Or.inl (Or.inl ⟨j, rfl⟩)
        | indirect => exact Or.inr rfl
        | entry j => exact Or.inl (Or.inr ⟨j, rfl, by rw [Nat.zero_add]; exact j.2⟩)
      obtain ⟨hlog, hfree, hdisk⟩ := hu.congr hall
      exact ⟨hlog, hfree, hdisk⟩

/-- What is left of a truncated inode. -/
def Dinode.truncated (x : Dinode) : Dinode := { x with addrs := fun _ => 0, size := 0 }

theorem dropAddrs_all : (x.dropAddrs (NDIRECT + 1)).setSize 0 = x.truncated := by
  unfold Dinode.dropAddrs Dinode.setSize Dinode.truncated
  congr 1
  funext k
  exact if_pos k.2

/-- **`itrunc`** frees what the inode owns and writes it back. -/
theorem wp_itrunc_frees (hL : Layout sb first) (hsmall : SmallBitmap sb)
    (hlog : Freeing sb (s.inode ip).inum s.log)
    (hO : OwnsBlocks sb first (s.inode ip).copy s.disk) :
    wp (itrunc sb ip) E (fun _ s' => Freeing sb (s.inode ip).inum s'.log ∧
      s'.inode = update s.inode ip ((s.inode ip).setCopy (s.inode ip).copy.truncated) ∧
      ∃ t, Freed sb first (s.inode ip).inum (s.inode ip).copy (fun _ => True) s.disk t ∧
        s'.disk = setDinode sb t.disk (s.inode ip).inum (s.inode ip).copy.truncated) s := by
  unfold itrunc
  rw [wp_bind]
  refine wp_forRange (I := fun n t => Freed sb first (s.inode ip).inum (s.inode ip).copy
      (directBelow n) s.disk t ∧ s.Dropped ip (s.inode ip).copy n t) NDIRECT ⟨⟨hlog, fun b => ?_,
      fun _ _ => rfl⟩, ?_⟩ (fun n t _ hn ⟨ht, hcopy⟩ => ?_) fun t ⟨ht, hcopy⟩ => ?_
  · refine (or_iff_left ?_).symm
    rintro ⟨k, ⟨j, -, hj⟩, -⟩
    exact Nat.not_lt_zero _ hj
  · unfold State.Dropped Dinode.dropAddrs
    simp only [Nat.not_lt_zero, if_false]
    exact (update_eq_self _ _).symm
  · have hn' : n < NDIRECT := by omega
    rw [dif_pos (Nat.lt_succ_of_lt hn')]
    exact ht.wp_freeAddr hL hsmall hO hcopy hn'
  · rw [wp_bind]
    refine wp_mono (ht.wp_freeIndirect hL hsmall hO hcopy) fun _ u ⟨hu, hucopy⟩ => ?_
    simp only [wp_bind, setSize, setInode, wp_modify, iupdate, wp_get, bread, wp_pure]
    have hinode : (u.setInode ip ((u.inode ip).setCopy ((u.inode ip).copy.setSize 0))).inode =
        update s.inode ip ((s.inode ip).setCopy (s.inode ip).copy.truncated) := by
      unfold State.setInode
      dsimp only
      rw [hucopy.copy, dropAddrs_all, hucopy, update_self, update_idem]
      rfl
    have hself := congrFun hinode ip
    rw [update_self] at hself
    rw [hself]
    have hulog : Freeing sb (s.inode ip).inum
        (u.setInode ip ((u.inode ip).setCopy ((u.inode ip).copy.setSize 0))).log := hu.log
    exact hulog.wp_logWrite hsmall IBLOCK_mem_freeingBlocks fun l hl => ⟨hl, hinode, u, hu, rfl⟩

/-- From the disk `d` to `d'` inode `i`, which was `x`, has been freed with its blocks. -/
structure FreedInode (sb : Superblock) (first i : Nat) (x : Dinode) (d d' : Disk) : Prop where
  dinode : (dinodeAt sb d' i).type = 0
  others : ∀ j < sb.ninodes, j ≠ i → dinodeAt sb d' j = dinodeAt sb d j
  data : ∀ b, first ≤ b → d' b = d b
  free : ∀ b, markedFree sb d' b ↔ markedFree sb d b ∨ ∃ k, x.blockAt d k = some b

theorem Freed.inode (hL : Layout sb first) (h : Freed sb first i x (fun _ => True) d s)
    (hlt : i < sb.ninodes) {y : Dinode} :
    FreedInode sb first i x d (setDinode sb (setDinode sb s.disk i y) i { y with type := 0 }) := by
  have hblock := hL.IBLOCK_lt hlt
  have hrest : ∀ b, sb.bmapstart ≤ b →
      setDinode sb (setDinode sb s.disk i y) i { y with type := 0 } b = s.disk b := fun b hb => by
    unfold setDinode
    rw [update_of_ne (by omega), update_of_ne (by omega)]
  refine ⟨?_, fun j hj hji => ?_, fun b hb => ?_, fun b => ?_⟩
  · rw [dinodeAt_setDinode, update_self]
  · rw [dinodeAt_setDinode, update_of_ne hji, dinodeAt_setDinode,
      update_of_ne hji]
    exact hL.dinodeAt_congr (fun b hb => h.disk b (Or.inl hb)) hj
  · have := hL.bmapstart_lt
    rw [hrest b (by omega)]
    exact h.disk b (Or.inr hb)
  · unfold markedFree
    rw [hrest _ (bmapstart_le_BBLOCK b)]
    refine (h.free b).trans (or_congr_right (exists_congr fun _ => ?_))
    exact and_iff_right trivial

/-- **`iput`** of the last reference to an unlinked inode. -/
theorem wp_iput_last (hL : Layout sb first) (hsmall : SmallBitmap sb)
    (hentry : s.inode ip = ⟨i, 1, false, true, x⟩) (hlog : Freeing sb i s.log)
    (hlt : i < sb.ninodes) (hO : OwnsBlocks sb first x s.disk) (hnlink : x.nlink = 0) :
    wp (iput sb ip) E (fun _ s' => Freeing sb i s'.log ∧
      (∃ y, s'.inode = update s.inode ip ⟨i, 0, false, false, y⟩) ∧
      FreedInode sb first i x s.disk s'.disk) s := by
  have hlog' : Freeing sb (s.inode ip).inum s.log := by rw [hentry]; exact hlog
  have hO' : OwnsBlocks sb first (s.inode ip).copy s.disk := by rw [hentry]; exact hO
  have htrunc := wp_itrunc_frees (E := E) hL hsmall hlog' hO'
  simp only [hentry] at htrunc
  simp only [iput, wp_bind, wp_get, hentry]
  rw [if_pos ⟨trivial, trivial, hnlink⟩, if_neg Bool.false_ne_true, wp_bind]
  refine wp_mono htrunc ?_
  rintro _ t ⟨htlog, htinode, u, hu, htdisk⟩
  simp only [wp_bind, setInode, wp_modify, ifree, bread, wp_get, wp_pure, State.setInode,
    update_self, update_idem, htinode, htdisk, Inode.setCopy]
  have hread : getDinode (setDinode sb u.disk i x.truncated (IBLOCK sb i)) (dinodeOff i) =
      x.truncated := by
    have h := congrFun (dinodeAt_setDinode sb u.disk i x.truncated) i
    rwa [update_self] at h
  rw [hread]
  have hv : Freeing sb i (State.mk (setDinode sb u.disk i x.truncated) (update s.inode ip
    ⟨i, 1 - 1, false, false, x.truncated⟩) t.log t.outOfBlocks t.ballocs).log := htlog
  exact hv.wp_logWrite hsmall IBLOCK_mem_freeingBlocks fun l hl =>
    ⟨hl, ⟨x.truncated, rfl⟩, hu.inode hL hlt⟩

end Truncate

/-! ### `ireclaim` -/

/-- What `ireclaim` finds at boot: the log is empty, an entry of `itable` is free, free entries
    are unlocked, and no other one is for an orphan. -/
structure Booting (sb : Superblock) (s : State) : Prop where
  log : Idle s.log
  room : ∃ ip < NINODE, (s.inode ip).ref = 0
  unlocked : ∀ ip < NINODE, (s.inode ip).ref = 0 → (s.inode ip).lock = false
  linked : ∀ ip < NINODE, 0 < (s.inode ip).ref → ¬ Orphan sb s.disk (s.inode ip).inum

/-- Inode `i` is an orphan that `ireclaim` has come past. -/
def Passed (sb : Superblock) (d : Disk) (n i : Nat) : Prop := 1 ≤ i ∧ i < n ∧ Orphan sb d i

/-- `ireclaim`, which began in `s`, has come to inode `n` and is in the state `t`. -/
structure Progress (sb : Superblock) (first : Nat) (s : State) (n : Nat) (t : State) : Prop where
  log : Idle t.log
  table : ∀ ip, (t.inode ip).ref = (s.inode ip).ref ∧ (t.inode ip).lock = (s.inode ip).lock ∧
    (0 < (s.inode ip).ref → (t.inode ip).inum = (s.inode ip).inum)
  freed : ∀ i, Passed sb s.disk n i → (dinodeAt sb t.disk i).type = 0
  kept : ∀ i < sb.ninodes, ¬ Passed sb s.disk n i → dinodeAt sb t.disk i = dinodeAt sb s.disk i
  data : ∀ b, first ≤ b → t.disk b = s.disk b
  free : ∀ b, markedFree sb t.disk b ↔ markedFree sb s.disk b ∨
    ∃ i, Passed sb s.disk n i ∧ ∃ k, diskOwner sb s.disk (i, k) = some b

section Reclaim

variable {sb : Superblock} {first n : Nat} {s t : State} {E : Stop → Prop}

theorem passed_succ {d : Disk} {i : Nat} (hn : 1 ≤ n) :
    Passed sb d (n + 1) i ↔ Passed sb d n i ∨ i = n ∧ Orphan sb d n := by
  unfold Passed
  constructor
  · rintro ⟨hlo, hhi, ho⟩
    by_cases hi : i = n
    · exact Or.inr ⟨hi, hi ▸ ho⟩
    · exact Or.inl ⟨hlo, by omega, ho⟩
  · rintro (⟨hlo, hhi, ho⟩ | ⟨rfl, ho⟩)
    · exact ⟨hlo, by omega, ho⟩
    · exact ⟨hn, by omega, ho⟩

theorem not_passed_self {d : Disk} : ¬ Passed sb d n n := fun h => Nat.lt_irrefl n h.2.1

theorem Progress.diskOwner (hwf : WellFormed sb first s.disk) (h : Progress sb first s n t)
    {i : Nat} (hi : i < sb.ninodes) (hp : ¬ Passed sb s.disk n i) (k : Slot) :
    diskOwner sb t.disk (i, k) = Fs.diskOwner sb s.disk (i, k) := by
  have hD : owner sb (dinodeAt sb t.disk) t.disk (i, k) =
      owner sb (dinodeAt sb s.disk) t.disk (i, k) := by
    simp only [owner, h.kept i hi hp]
  -- the indirect block is a data block
  exact hD.trans (owner_congr_disk fun b hb => h.data b (hwf.data _ b hb).1)

theorem Progress.blockAt (hwf : WellFormed sb first s.disk) (h : Progress sb first s n t)
    (hlt : n < sb.ninodes) (horphan : Orphan sb s.disk n) (k : Slot) :
    (dinodeAt sb t.disk n).blockAt t.disk k = Fs.diskOwner sb s.disk (n, k) := by
  rw [← h.diskOwner hwf hlt not_passed_self]
  refine (if_pos ⟨hlt, ?_⟩).symm
  rw [h.kept n hlt not_passed_self]
  exact horphan.1

theorem Progress.ownsBlocks (hwf : WellFormed sb first s.disk)
    (h : Progress sb first s n t) (hlt : n < sb.ninodes) (horphan : Orphan sb s.disk n) :
    OwnsBlocks sb first (dinodeAt sb t.disk n) t.disk := by
  have hblock := h.blockAt hwf hlt horphan
  refine ⟨fun k b hb => ?_, fun k b hb => ?_, fun k l b hk hl => ?_⟩
  · rw [hblock] at hb
    exact hwf.data _ b hb
  · rw [hblock] at hb
    rw [h.free]
    rintro (hfree | ⟨i, hi, l, hl⟩)
    · exact (hwf.bitmap b (hwf.data _ b hb).2).mpr (Or.inr ⟨_, hb⟩) hfree
    · have heq : i = n := congrArg Prod.fst (hwf.distinct _ _ b hl hb)
      exact not_passed_self (heq ▸ hi)
  · rw [hblock] at hk hl
    exact congrArg Prod.snd (hwf.distinct _ _ b hk hl)

theorem Progress.wp_reclaim (hL : Layout sb first) (hsmall : SmallBitmap sb)
    (hwf : WellFormed sb first s.disk) (hboot : Booting sb s) (h : Progress sb first s n t)
    (hn : 1 ≤ n) (hlt : n < sb.ninodes) :
    wp (reclaim sb n) E (fun _ t' => Progress sb first s (n + 1) t') t := by
  have hsame : dinodeAt sb t.disk n = dinodeAt sb s.disk n := h.kept n hlt not_passed_self
  simp only [reclaim, wp_bind, bread, wp_get, wp_pure, wp_when]
  refine ⟨fun horphan => ?_, fun hnot => ?_⟩
  swap
  · have hiff : ∀ i, Passed sb s.disk (n + 1) i ↔ Passed sb s.disk n i := fun i => by
      rw [passed_succ hn]
      refine or_iff_left ?_
      rintro ⟨-, ho⟩
      unfold Orphan at ho
      rw [← hsame] at ho
      exact hnot ho
    refine ⟨h.log, h.table, fun i hi => h.freed i ((hiff i).mp hi), fun i hi hp =>
      h.kept i hi fun hp' => hp ((hiff i).mpr hp'), h.data, fun b => ?_⟩
    simp only [hiff]
    exact h.free b
  have horphan' : Orphan sb s.disk n := by
    unfold Orphan
    rw [← hsame]
    exact horphan
  have hO := h.ownsBlocks hwf hlt horphan'
  -- the orphan gets a free entry
  refine wp_mono (wp_iget n fun hfull => ?_) fun ip t₁ hgot => ?_
  · obtain ⟨ip, hip, href⟩ := hboot.room
    have := hfull ip hip
    rw [(h.table ip).1] at this
    omega
  obtain ⟨hip, ⟨href, hinum, -⟩ | ⟨href, -, rfl⟩⟩ := hgot
  · rw [(h.table ip).1] at href
    rw [(h.table ip).2.2 href] at hinum
    exact absurd (hinum ▸ horphan') (hboot.linked ip hip href)
  have href₀ : (s.inode ip).ref = 0 := (h.table ip).1 ▸ href
  have hlock : (t.inode ip).lock = false := by
    rw [(h.table ip).2.1]
    exact hboot.unlocked ip hip href₀
  have hidle : Idle (t.setInode ip { t.inode ip with inum := n, ref := 1, valid := false }).log :=
    h.log
  refine hidle.wp_beginOp fun l (hl : Freeing sb n l) => ?_
  simp only [ilock, wp_bind, wp_get, State.setInode, update_self, hlock, setInode,
    wp_modify, bread, wp_pure, update_idem, Bool.false_eq_true, if_false,
    Nat.lt_irrefl]
  rw [if_neg horphan.1, wp_pure]
  simp only [iunlock, wp_bind, wp_get, update_self, setInode, wp_modify, State.setInode,
    update_idem, Bool.true_eq_false, Nat.lt_irrefl, or_self, if_false]
  have hput := wp_iput_last (E := E) (s := { t with
    inode := update t.inode ip ⟨n, 1, false, true, dinodeAt sb t.disk n⟩, log := l })
    hL hsmall (update_self ..) hl hlt hO horphan.2
  simp only [update_idem] at hput
  refine wp_mono hput ?_
  rintro _ u ⟨hulog, ⟨y, huinode⟩, hfreed⟩
  refine hulog.wp_endOp fun l' hl' => ?_
  refine ⟨hl', fun j => ?_, fun i hi => ?_, fun i hi hp => ?_, fun b hb => ?_, fun b => ?_⟩
  · show (u.inode j).ref = _ ∧ (u.inode j).lock = _ ∧ (_ → (u.inode j).inum = _)
    rw [huinode]
    by_cases hj : j = ip
    · subst hj
      rw [update_self]
      exact ⟨href₀.symm, (hboot.unlocked j hip href₀).symm, fun hpos => by omega⟩
    · rw [update_of_ne hj]
      exact h.table j
  · show (dinodeAt sb u.disk i).type = 0
    by_cases hin : i = n
    · rw [hin]
      exact hfreed.dinode
    · have hp : Passed sb s.disk n i := ((passed_succ hn).mp hi).resolve_right fun hc => hin hc.1
      rw [hfreed.others i (Nat.lt_trans hp.2.1 hlt) hin]
      exact h.freed i hp
  · show dinodeAt sb u.disk i = _
    have hin : i ≠ n := fun heq => hp ((passed_succ hn).mpr (Or.inr ⟨heq, horphan'⟩))
    rw [hfreed.others i hi hin]
    exact h.kept i hi fun hp' => hp ((passed_succ hn).mpr (Or.inl hp'))
  · exact (hfreed.data b hb).trans (h.data b hb)
  · show markedFree sb u.disk b ↔ _
    refine (hfreed.free b).trans ?_
    rw [h.free b, or_assoc]
    simp only [passed_succ hn, h.blockAt hwf hlt horphan']
    refine or_congr_right ⟨?_, ?_⟩
    · rintro (⟨i, hi, hk⟩ | hk)
      · exact ⟨i, Or.inl hi, hk⟩
      · exact ⟨n, Or.inr ⟨rfl, horphan'⟩, hk⟩
    · rintro ⟨i, hi | ⟨rfl, -⟩, hk⟩
      · exact Or.inl ⟨i, hi, hk⟩
      · exact Or.inr hk

/-- **Boot-time reclamation.**  `ireclaim` returns, and leaves no orphan; of the bitmap it has
    cleared exactly the bits of what the orphans owned; inodes with links are as they were, with
    their contents; and so are the reference counts. -/
theorem ireclaim_frees_orphans (hL : Layout sb first) (hsmall : SmallBitmap sb)
    (hwf : WellFormed sb first s.disk) (hboot : Booting sb s) :
    ∃ s', ireclaim sb s = .ok ((), s') ∧
      (∀ i, 1 ≤ i → i < sb.ninodes → ¬ Orphan sb s'.disk i) ∧
      (∀ b, markedFree sb s'.disk b ↔ markedFree sb s.disk b ∨
        ∃ i, 1 ≤ i ∧ i < sb.ninodes ∧ Orphan sb s.disk i ∧
          ∃ k, diskOwner sb s.disk (i, k) = some b) ∧
      (∀ i < sb.ninodes, (dinodeAt sb s.disk i).nlink ≠ 0 →
        dinodeAt sb s'.disk i = dinodeAt sb s.disk i ∧
        ∀ k b, diskOwner sb s.disk (i, k) = some b →
          diskOwner sb s'.disk (i, k) = some b ∧ s'.disk b = s.disk b) ∧
      ∀ ip, (s'.inode ip).ref = (s.inode ip).ref := by
  have hstart : Progress sb first s 1 s :=
    ⟨hboot.log, fun _ => ⟨rfl, rfl, fun _ => rfl⟩, fun i hi => absurd hi.2.1 (Nat.not_lt.mpr hi.1),
      fun _ _ _ => rfl, fun _ _ => rfl, fun b => by
        refine (or_iff_left ?_).symm
        rintro ⟨i, hi, -⟩
        exact absurd hi.2.1 (Nat.not_lt.mpr hi.1)⟩
  have hrun : wp (ireclaim sb) (fun _ => False)
      (fun _ t => ∃ n, sb.ninodes ≤ n ∧ n ≤ max 1 sb.ninodes ∧ Progress sb first s n t) s := by
    refine wp_forRange (I := fun n t => Progress sb first s n t) _ hstart
      (fun n t hlo hhi ht => ht.wp_reclaim hL hsmall hwf hboot hlo (by omega)) fun t ht =>
        ⟨_, by omega, by omega, ht⟩
  obtain ⟨_, s', hok, n, hlo, hhi, h⟩ := wp_total hrun
  have hpassed : ∀ i, Passed sb s.disk n i ↔ 1 ≤ i ∧ i < sb.ninodes ∧ Orphan sb s.disk i :=
    fun i => by
      unfold Passed
      have : 1 ≤ i → (i < n ↔ i < sb.ninodes) := by omega
      exact and_congr_right fun h1 => and_congr_left fun _ => this h1
  refine ⟨s', hok, fun i hi hlt horphan => ?_, fun b => ?_, fun i hi hlink => ?_,
    fun ip => (h.table ip).1⟩
  · by_cases hp : Passed sb s.disk n i
    · exact horphan.1 (h.freed i hp)
    · refine hp ((hpassed i).mpr ⟨hi, hlt, ?_⟩)
      unfold Orphan at horphan
      rwa [h.kept i hlt hp] at horphan
  · rw [h.free b]
    simp only [hpassed, and_assoc]
  · have hp : ¬ Passed sb s.disk n i := fun hp => hlink hp.2.2.2
    refine ⟨h.kept i hi hp, fun k b hb => ⟨?_, h.data b (hwf.data _ b hb).1⟩⟩
    rw [h.diskOwner hwf hi hp, hb]

end Reclaim

/-! ### An interrupted creation -/

section Example

/-- A file is created and written to, and the power fails before it gets a name. -/
def createCalls : List Call :=
  [.op .beginOp, .op (.ialloc 2), .op (.ilock 0), .op (.writei 0 (fun _ => some 7) 0 3), .op .endOp]

def interrupted : State := createCalls.foldl callAfter boot

/-- The machine starts again from the disk. -/
def restarted : State := { boot with disk := interrupted.disk }

theorem interrupted_reachable :
    Reachable boot (callStep Mkfs.sb) (CallAllowed Mkfs.sb) interrupted := by
  have h₁ := reachable_callAfter (s := boot) (c := .op .beginOp) .init trivial (by decide)
  have h₂ := reachable_callAfter (c := .op (.ialloc 2)) h₁ trivial (by decide)
  have h₃ := reachable_callAfter (c := .op (.ilock 0)) h₂ ⟨by decide, by decide⟩
    (by decide)
  have h₄ := reachable_callAfter (c := .op (.writei 0 (fun _ => some 7) 0 3)) h₃
    ⟨by decide, by decide, by decide⟩ (by decide)
  have h₅ := reachable_callAfter (c := .op .endOp) h₄ trivial (by decide)
  simpa only [interrupted, createCalls, List.foldl_cons, List.foldl_nil] using h₅

theorem restarted_wellFormed : WellFormed Mkfs.sb Mkfs.nmeta restarted.disk :=
  (interrupted_reachable.invariant (I := Consistent Mkfs.sb Mkfs.nmeta)
    ⟨boot_wellFormed, boot_noHole, boot_cached⟩ fun _ hI hok hstep =>
      (callStep_consistent mkfs_layout hI hok hstep).1).wellFormed

theorem restarted_booting : Booting Mkfs.sb restarted :=
  ⟨⟨rfl, rfl, rfl⟩, ⟨0, by decide, rfl⟩, fun _ _ _ => rfl, fun _ _ href =>
    absurd href (Nat.lt_irrefl 0)⟩

set_option maxRecDepth 8000 in
theorem ireclaim_frees_orphans_restarted :
    (Orphan Mkfs.sb restarted.disk 1 ∧
      diskOwner Mkfs.sb restarted.disk (1, .direct ⟨0, by decide⟩) = some Mkfs.nmeta) ∧
    ∃ s', ireclaim Mkfs.sb restarted = .ok ((), s') ∧
      (∀ i, 1 ≤ i → i < Mkfs.sb.ninodes → ¬ Orphan Mkfs.sb s'.disk i) ∧
      (∀ b, markedFree Mkfs.sb s'.disk b ↔ markedFree Mkfs.sb restarted.disk b ∨
        ∃ i, 1 ≤ i ∧ i < Mkfs.sb.ninodes ∧ Orphan Mkfs.sb restarted.disk i ∧
          ∃ k, diskOwner Mkfs.sb restarted.disk (i, k) = some b) ∧
      (∀ i < Mkfs.sb.ninodes, (dinodeAt Mkfs.sb restarted.disk i).nlink ≠ 0 →
        dinodeAt Mkfs.sb s'.disk i = dinodeAt Mkfs.sb restarted.disk i ∧
        ∀ k b, diskOwner Mkfs.sb restarted.disk (i, k) = some b →
          diskOwner Mkfs.sb s'.disk (i, k) = some b ∧ s'.disk b = restarted.disk b) ∧
      ∀ ip, (s'.inode ip).ref = (restarted.inode ip).ref :=
  ⟨⟨⟨by decide, by decide⟩, by decide⟩,
    ireclaim_frees_orphans mkfs_layout (by unfold SmallBitmap; decide) restarted_wellFormed
      restarted_booting⟩

end Example

/-! ### A bitmap of 29 blocks -/

section Wide

/-- A disk whose bitmap has 29 blocks, and which has one inode besides number 0. -/
def wideSb : Superblock where
  magic := FSMAGIC
  size := 29 * BPB
  nblocks := 29 * BPB - 64
  ninodes := 2
  nlog := LOGBLOCKS + 1
  logstart := 2
  inodestart := 33
  bmapstart := 34

/-- A data block in every part of the bitmap. -/
def wideBlock (g : Nat) : Nat := 64 + g * BPB

/-- The number of a place of an inode. -/
def Slot.index : Slot → Nat
  | .direct i => i
  | .indirect => NDIRECT
  | .entry j => NDIRECT + 1 + j

/-- An orphan that owns all of them. -/
def wideOrphan : Dinode :=
  { Dinode.zero with type := 2, addrs := fun k => UInt32.ofNat (wideBlock k) }

def wideIndirect : Block := fun i =>
  if i / 4 < 16 then putLE (fun _ => 0) (i / 4 * 4) 4 (wideBlock (NDIRECT + 1 + i / 4)) i else 0

/-- The disk `d` with the bits of the blocks `wideBlock 0`, ..., `wideBlock (n - 1)` set. -/
def markWide (d : Disk) : Nat → Disk
  | 0 => d
  | n + 1 =>
    let d := markWide d n
    update d (BBLOCK wideSb (wideBlock n))
      (setBit (d (BBLOCK wideSb (wideBlock n))) (wideBlock n % BPB))

def wideDisk : Disk :=
  markWide (update (setDinode wideSb (emptyDisk wideSb 64) 1 wideOrphan)
    (wideBlock NDIRECT) wideIndirect) 29

def wideState : State := { boot with disk := wideDisk }

theorem wide_layout : Layout wideSb 64 := ⟨by decide, by decide, by decide, by decide⟩

theorem markWide_of_ne (d : Disk) {n c : Nat} (hn : n ≤ 29) (hc : c < 34 ∨ 64 ≤ c) :
    markWide d n c = d c := by
  induction n with
  | zero => rfl
  | succ n ih =>
    have hblk : BBLOCK wideSb (wideBlock n) = n + 34 := by
      simp only [BBLOCK, wideBlock, wideSb, show BPB = 8192 from rfl]
      omega
    simp only [markWide]
    rw [update_of_ne (by omega), ih (by omega)]

theorem markedFree_markWide (d : Disk) (n : Nat) {b : Nat} :
    markedFree wideSb (markWide d n) b ↔ markedFree wideSb d b ∧ ∀ g < n, b ≠ wideBlock g := by
  induction n with
  | zero => simp [markWide]
  | succ n ih =>
    simp only [markWide]
    rw [markedFree_setBit, ih, and_assoc]
    refine and_congr_right fun _ => ⟨fun h g hg => ?_, fun h => ⟨fun g hg => h g (by omega), ?_⟩⟩
    · by_cases hgn : g = n
      · exact hgn ▸ h.2
      · exact h.1 g (by omega)
    · exact h n (by omega)

theorem wideDisk_of_ne {c : Nat} (hc : c < 34 ∨ 64 ≤ c) (hne : c ≠ wideBlock NDIRECT) :
    wideDisk c = setDinode wideSb (emptyDisk wideSb 64) 1 wideOrphan c := by
  rw [wideDisk, markWide_of_ne _ (Nat.le_refl _) hc, update_of_ne hne]

theorem dinodeAt_wideDisk {i : Nat} (hi : i < wideSb.ninodes) :
    dinodeAt wideSb wideDisk i =
      update (dinodeAt wideSb (emptyDisk wideSb 64)) 1 wideOrphan i := by
  have hblk := wide_layout.IBLOCK_lt hi
  have hlow : IBLOCK wideSb i < 34 := hblk
  rw [← dinodeAt_setDinode, dinodeAt, dinodeAt, wideDisk_of_ne (Or.inl hlow)]
  unfold wideBlock
  omega

theorem Slot.index_inj {k l : Slot} (h : k.index = l.index) : k = l := by
  cases k <;> cases l <;> simp only [Slot.index] at h
  case direct.direct i j => exact congrArg Slot.direct (Fin.ext h)
  case entry.entry i j => exact congrArg Slot.entry (Fin.ext (by omega))
  all_goals first | rfl | omega

theorem Slot.exists_index {g : Nat} (hg : g < NDIRECT + 1 + NINDIRECT) : ∃ k : Slot, k.index = g := by
  by_cases hdirect : g < NDIRECT
  · exact ⟨.direct ⟨g, hdirect⟩, rfl⟩
  by_cases hind : g = NDIRECT
  · exact ⟨.indirect, hind.symm⟩
  · exact ⟨.entry ⟨g - (NDIRECT + 1), by omega⟩, by simp only [Slot.index]; omega⟩

set_option maxRecDepth 8000 in
theorem block_wideOrphan (k : Slot) : wideOrphan.block wideDisk k =
    if k.index < 29 then wideBlock k.index else 0 := by
  have haddr : ∀ k : Fin (NDIRECT + 1), (wideOrphan.addrs k).toNat = wideBlock k := by decide
  have hentries : ∀ j : Fin NINDIRECT, getLE wideIndirect (4 * j) 4 =
      if NDIRECT + 1 + (j : Nat) < 29 then wideBlock (NDIRECT + 1 + j) else 0 := by
    decide
  cases k with
  | direct i =>
    have hlt : (i : Nat) < 29 := Nat.lt_trans i.2 (by decide)
    rw [Slot.index, if_pos hlt]
    exact haddr i.castSucc
  | indirect => exact haddr (Fin.last NDIRECT)
  | entry j =>
    have hind : wideDisk (wideBlock NDIRECT) = wideIndirect := by
      rw [wideDisk, markWide_of_ne _ (Nat.le_refl _) (Or.inr (by decide)), update_self]
    have hnz : wideOrphan.addrs (Fin.last NDIRECT) ≠ 0 := by decide
    simp only [Dinode.block, if_neg hnz]
    rw [haddr, Fin.val_last, hind, hentries]
    rfl

theorem diskOwner_wideDisk {p : Nat × Slot} {b : Nat} : diskOwner wideSb wideDisk p = some b ↔
    p.1 = 1 ∧ p.2.index < 29 ∧ b = wideBlock p.2.index := by
  obtain ⟨i, k⟩ := p
  have hpos : ∀ g, wideBlock g ≠ 0 := fun g => by unfold wideBlock; omega
  by_cases hi : i = 1
  · subst hi
    have hdin : dinodeAt wideSb wideDisk 1 = wideOrphan := by
      rw [dinodeAt_wideDisk (by decide), update_self]
    have hlive : 1 < wideSb.ninodes ∧ wideOrphan.type ≠ 0 := by decide
    simp only [diskOwner, owner, hdin, if_pos hlive, nonzero_eq_some, block_wideOrphan, true_and]
    split
    · rename_i hlt
      exact ⟨fun h => ⟨hlt, h.1.symm⟩, fun h => ⟨h.2.symm, h.2 ▸ hpos _⟩⟩
    · rename_i hge
      exact ⟨fun h => absurd h.1.symm h.2, fun h => absurd h.1 hge⟩
  · refine ⟨fun h => ?_, fun h => absurd h.1 hi⟩
    have hlive : ¬ (i < wideSb.ninodes ∧ (dinodeAt wideSb wideDisk i).type ≠ 0) := by
      rintro ⟨hlt, htype⟩
      rw [dinodeAt_wideDisk hlt, update_of_ne hi] at htype
      exact htype (dinodeAt_emptyDisk wide_layout hlt)
    rw [diskOwner, owner, if_neg hlive] at h
    cases h

theorem wideDisk_wellFormed : WellFormed wideSb 64 wideDisk := by
  have hB : BPB = 8192 := rfl
  refine ⟨?_, ?_, fun b hb => ?_⟩
  · rintro ⟨i, k⟩ ⟨j, l⟩ b hk hl
    obtain ⟨hi, -, hbk⟩ := diskOwner_wideDisk.mp hk
    obtain ⟨hj, -, hbl⟩ := diskOwner_wideDisk.mp hl
    dsimp only at hi hj hbk hbl
    have hindex : k.index = l.index := by
      unfold wideBlock at hbk hbl
      rw [hB] at hbk hbl
      omega
    rw [hi, hj, Slot.index_inj hindex]
  · intro p b hp
    obtain ⟨-, hlt, rfl⟩ := diskOwner_wideDisk.mp hp
    simp only [wideBlock, wideSb, hB]
    omega
  · have hbefore : markedFree wideSb (update (setDinode wideSb (emptyDisk wideSb 64) 1
        wideOrphan) (wideBlock NDIRECT) wideIndirect) b ↔ 64 ≤ b := by
      have hblk : BBLOCK wideSb b < 64 := wide_layout.BBLOCK_lt hb
      have hlow : 34 ≤ BBLOCK wideSb b := Nat.le_add_left _ _
      have hzero : markedFree wideSb (fun _ _ => 0) b := by simp [markedFree, bitClear]
      have hempty := @markedFree_markUsed wideSb (fun _ _ => 0) 64 b
      rw [and_iff_right hzero] at hempty
      rw [← hempty, markedFree, markedFree, update_of_ne (by unfold wideBlock; omega),
        setDinode, update_of_ne (by rw [show IBLOCK wideSb 1 = 33 from rfl]; omega)]
      rfl
    rw [wideDisk, markedFree_markWide, hbefore, ← wideDisk]
    constructor
    · intro h
      by_cases hlt : b < 64
      · exact Or.inl hlt
      · have hnot : ¬ ∀ g < 29, b ≠ wideBlock g := fun hall => h ⟨Nat.not_lt.mp hlt, hall⟩
        push Not at hnot
        obtain ⟨g, hg, rfl⟩ := hnot
        obtain ⟨k, rfl⟩ := Slot.exists_index (Nat.lt_trans hg (by decide))
        exact Or.inr ⟨(1, k), diskOwner_wideDisk.mpr ⟨rfl, hg, rfl⟩⟩
    · rintro (hlt | ⟨p, hp⟩) ⟨hge, hall⟩
      · omega
      · obtain ⟨-, hg, hb'⟩ := diskOwner_wideDisk.mp hp
        exact hall _ hg hb'

/-- **A wide bitmap fills the log.**  The disk is well formed and the machine has just started;
    the one orphan owns a block in each of the 29 parts of the bitmap.  Truncating it logs 29
    bitmap blocks and the block of its dinode, and then `ifree` finds the log full. -/
theorem ireclaim_panics_wide : Layout wideSb 64 ∧ WellFormed wideSb 64 wideState.disk ∧
    Booting wideSb wideState ∧ Orphan wideSb wideState.disk 1 ∧
    ireclaim wideSb wideState = .error (.panic (.log .tooBigATransaction)) :=
  ⟨wide_layout, wideDisk_wellFormed,
    ⟨⟨rfl, rfl, rfl⟩, ⟨0, by decide, rfl⟩, fun _ _ _ => rfl, fun _ _ href =>
      absurd href (Nat.lt_irrefl 0)⟩,
    ⟨by decide +kernel, by decide +kernel⟩, stop?_eq_some.mp (by decide +kernel)⟩

end Wide

end Xv6.Fs
