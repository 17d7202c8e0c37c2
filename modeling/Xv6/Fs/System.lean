import Xv6.Fs.Table
import Xv6.Mkfs.Superblock

/-!
# The file system over whole runs

The operations of `fs.c` as a transition system: a run takes any complete operations in any
order, on any inodes in use.  Block ownership is exact in every state that it reaches.
-/

namespace Xv6.Fs

open ByteView Hoare Ledger Transition

/-! ### Directories -/

/-- The bytes of entry `k` of a directory. -/
def direntAt (x : Dinode) (d : Disk) (k : Nat) : List UInt8 :=
  (List.range DIRENTSIZE).map fun j => x.fileByte d (k * DIRENTSIZE + j)

/-- Some entry of a directory of `size` bytes cannot be read as a whole. -/
def PartialEntry (size : UInt32) : Prop :=
  ∃ k < direntCount size, readLen size (UInt32.ofNat (k * DIRENTSIZE)) (UInt32.ofNat DIRENTSIZE) ≠
    DIRENTSIZE

section Directory

variable {sb : Superblock} {first dp : Nat} {s : State} {E : Stop → Prop}

theorem direntCount_lt {size : UInt32} {k : Nat} (hk : k < direntCount size) :
    k * DIRENTSIZE < size.toNat := by
  unfold direntCount at hk
  rw [show DIRENTSIZE = 16 from rfl] at hk ⊢
  omega

theorem wp_readDirent {k : Nat} (hdense : (s.inode dp).copy.Dense s.disk)
    (hk : k < 0 + direntCount (s.inode dp).copy.size) :
    wp (readi sb dp (fun _ => false) (UInt32.ofNat (k * DIRENTSIZE)) (UInt32.ofNat DIRENTSIZE)) E
      (fun r s' => s' = s ∧ (r.1 ≠ DIRENTSIZE → PartialEntry (s.inode dp).copy.size) ∧
        (r.1 = DIRENTSIZE → r.2 = direntAt (s.inode dp).copy s.disk k)) s := by
  rw [Nat.zero_add] at hk
  have hlt := direntCount_lt hk
  have hoff : (UInt32.ofNat (k * DIRENTSIZE)).toNat = k * DIRENTSIZE := by
    rw [UInt32.toNat_ofNat']
    exact Nat.mod_eq_of_lt (Nat.lt_trans hlt (UInt32.toNat_lt _))
  refine wp_mono (wp_readi _ _ _ hdense) fun r t ⟨hst, hread⟩ => ⟨hst, fun hne => ?_, fun heq => ?_⟩
  · exact ⟨k, hk, fun heq => hne (by rw [(hread fun _ => rfl).1, heq])⟩
  · obtain ⟨hr, hde⟩ := hread fun _ => rfl
    have hlen : readLen (s.inode dp).copy.size (UInt32.ofNat (k * DIRENTSIZE))
        (UInt32.ofNat DIRENTSIZE) = DIRENTSIZE := by
      rw [hr] at heq
      exact_mod_cast heq
    rw [hde, hlen, hoff]
    rfl

/-- **`dirlookup`** changes nothing but the reference that it takes to the inode found. -/
theorem wp_dirlookup (name : Name) (hdense : (s.inode dp).copy.Dense s.disk)
    (hdir : (s.inode dp).copy.type ≠ T_DIR → E (.panic .dirlookupNotDir))
    (hpart : PartialEntry (s.inode dp).copy.size → E (.panic .dirlookupRead))
    (hfull : (∀ j < NINODE, 0 < (s.inode j).ref) → E (.panic .igetNoInodes)) :
    wp (dirlookup sb dp name) E (fun r s' => match r with
      | none => s' = s
      | some (ip, _) => ∃ k < direntCount (s.inode dp).copy.size,
          direntInum (direntAt (s.inode dp).copy s.disk k) ≠ 0 ∧
          nameEq name (direntName (direntAt (s.inode dp).copy s.disk k)) = true ∧
          Got s (direntInum (direntAt (s.inode dp).copy s.disk k)) ip s') s := by
  simp only [dirlookup, wp_bind, wp_get]
  split
  · rename_i hne
    exact hdir hne
  · refine wp_findFirst (I := fun _ t => t = s) _ rfl (fun k t _ hk ht => ?_) fun t ht => ht
    subst ht
    rw [wp_bind]
    refine wp_mono (wp_readDirent hdense hk) ?_
    rintro ⟨r, de⟩ u ⟨hu, hshort, hde⟩
    subst hu
    dsimp only at hshort hde ⊢
    split
    · rename_i hne
      exact hpart (hshort hne)
    rename_i heq
    rw [hde (not_not.mp heq)]
    split
    · exact rfl
    · rename_i hinum
      split
      · rename_i hname
        rw [wp_bind]
        exact wp_mono (wp_iget _ hfull) fun ip t' hgot => ⟨k, by omega, hinum, hname, hgot⟩
      · exact rfl

/-- **`dirlink`** keeps the state consistent, and writes no dinode but that of the
    directory. -/
theorem wp_dirlink (hL : Layout sb first) (h : Consistent sb first s) (hr : Ready dp s)
    (name : Name) (inum : Nat) :
    wp (dirlink sb dp name inum) Benign (fun _ s' => Consistent sb first s' ∧
      OthersKept sb (· = (s.inode dp).inum) s s') s := by
  have hdense := h.dense hr
  unfold dirlink
  rw [wp_bind]
  refine wp_mono (wp_dirlookup name hdense (fun _ h => by cases h) (fun _ h => by cases h)
    fun _ h => by cases h) fun r t ht => ?_
  cases r with
  | some found =>
    obtain ⟨k, -, -, -, hgot⟩ := ht
    rw [wp_bind]
    refine wp_mono (wp_and (wp_iput hL (hgot.consistent h) hgot.1 hgot.ref_pos)
      (wp_iput_eq hgot.not_last)) ?_
    rintro _ u ⟨⟨hu, _⟩, heq⟩
    refine ⟨hu, .of_disk_eq ?_⟩
    rw [heq, State.setInode_disk, hgot.disk]
  | none =>
    subst ht
    simp only [wp_bind, wp_get]
    -- whichever entry is chosen, one `writei` follows
    have hwrite : ∀ off, wp (writei sb dp (fun k => some (mkDirent inum name k)) off
        (UInt32.ofNat DIRENTSIZE)) Benign (fun r u => wp (if r ≠ DIRENTSIZE then pure (-1)
          else pure 0 : FsM Int) Benign (fun _ s' => Consistent sb first s' ∧
            OthersKept sb (· = (t.inode dp).inum) t s') u) t := fun off =>
      wp_mono (wp_writei hL h hr _ _ _) fun r v hv => by split <;> exact ⟨hv.1, hv.2.2.1⟩
    refine wp_findFirst (I := fun _ u => u = t) _ rfl (fun k u _ hk hu => ?_) fun u hu => ?_
    · subst hu
      rw [wp_bind]
      refine wp_mono (wp_readDirent hdense hk) ?_
      rintro ⟨r, de⟩ v ⟨hv, _, _⟩
      subst hv
      dsimp only
      split
      · exact fun h => by cases h
      split
      · exact hwrite _
      · exact rfl
    · subst hu
      exact hwrite _

end Directory

/-! ### The system -/

/-- The operations that a kernel thread takes on the file system, with their arguments. -/
inductive Op where
  | beginOp
  | endOp
  | ialloc (type : UInt16)
  | iget (inum : Nat)
  | idup (ip : Nat)
  | ilock (ip : Nat)
  | iunlock (ip : Nat)
  | iput (ip : Nat)
  | readi (ip : Nat) (fault : Nat → Bool) (off n : UInt32)
  | writei (ip : Nat) (src : Nat → Option UInt8) (off n : UInt32)
  | itrunc (ip : Nat)
  | dirlookup (dp : Nat) (name : Name)
  | dirlink (dp : Nat) (name : Name) (inum : Nat)
  /-- Set these fields of the in-memory inode, and call `iupdate`. -/
  | iupdate (ip : Nat) (major minor nlink : UInt16)

/-- The fields that system calls set in an inode they have locked. -/
def Dinode.setFields (x : Dinode) (major minor nlink : UInt16) : Dinode :=
  { x with major := major, minor := minor, nlink := nlink }

section System

variable (sb : Superblock)

def exec : Op → FsM Unit
  | .beginOp => beginOp
  | .endOp => endOp
  | .ialloc type => do let _ ← ialloc sb type
  | .iget inum => do let _ ← iget inum
  | .idup ip => do let _ ← idup ip
  | .ilock ip => ilock sb ip
  | .iunlock ip => iunlock ip
  | .iput ip => iput sb ip
  | .readi ip fault off n => do let _ ← readi sb ip fault off n
  | .writei ip src off n => do let _ ← writei sb ip src off n
  | .itrunc ip => itrunc sb ip
  | .dirlookup dp name => do let _ ← dirlookup sb dp name
  | .dirlink dp name inum => do let _ ← dirlink sb dp name inum
  | .iupdate ip major minor nlink => do
    setInode ip fun x => x.setCopy (x.copy.setFields major minor nlink)
    iupdate sb ip

def step (s : State) (op : Op) : Outcome Panic State :=
  match exec sb op s with
  | .ok (_, s') => .done s'
  | .error .asleep => .blocked
  | .error (.panic e) => .fail e

/-- Operations are called on inodes in use.  `balloc` may fail whenever it likes; so may the
    copies of `readi` and `writei`. -/
def Allowed (s : State) : Op → Prop
  | .idup ip | .iput ip => ip < NINODE ∧ 0 < (s.inode ip).ref
  | .ilock ip => ip < NINODE ∧ (s.inode ip).inum < sb.ninodes
  | .iunlock ip => ip < NINODE
  | .readi ip .. | .writei ip .. | .itrunc ip | .dirlookup ip _ | .dirlink ip .. | .iupdate ip .. =>
    Ready ip s
  | _ => True

/-- The dinode that an operation may write. -/
def Op.Target (s : State) : Op → Nat → Prop
  | .ialloc _, i => FirstFree sb s.disk i
  | .iput ip, i | .writei ip .., i | .itrunc ip, i | .dirlink ip .., i | .iupdate ip .., i =>
    i = (s.inode ip).inum
  | _, _ => False

variable {sb} {first : Nat} {s s' s₀ : State} {op : Op}

/-- **Every operation keeps the state consistent** and writes no dinode but its own, and does
    not find a free block in its hands. -/
theorem wp_exec (hL : Layout sb first) (h : Consistent sb first s) (hok : Allowed sb s op) :
    wp (exec sb op) Benign (fun _ s' => Consistent sb first s' ∧
      OthersKept sb (op.Target sb s) s s') s := by
  cases op with
  | beginOp => exact wp_beginOp (by rintro ⟨⟩) fun l => ⟨h.setLog l, .of_disk_eq rfl⟩
  | endOp => exact wp_endOp (fun _ h => by cases h) fun l => ⟨h.setLog l, .of_disk_eq rfl⟩
  | ialloc type =>
    simp only [exec, wp_bind]
    exact wp_ialloc hL h type
  | iget inum =>
    simp only [exec, wp_bind]
    exact wp_mono (wp_iget inum fun _ h => by cases h) fun _ _ hgot =>
      ⟨hgot.consistent h, .of_disk_eq hgot.disk⟩
  | idup ip =>
    simp only [exec, wp_bind]
    exact wp_mono (wp_idup h hok.1 hok.2) fun _ _ ht => ⟨ht.1, .of_disk_eq ht.2⟩
  | ilock ip => exact wp_mono (wp_ilock h hok.1 hok.2) fun _ _ ht => ⟨ht.1, .of_disk_eq ht.2⟩
  | iunlock ip => exact wp_mono (wp_iunlock h hok) fun _ _ ht => ⟨ht.1, .of_disk_eq ht.2⟩
  | iput ip => exact wp_iput hL h hok.1 hok.2
  | readi ip fault off n =>
    simp only [exec, wp_bind]
    refine wp_mono (wp_readi fault off n (h.dense hok)) ?_
    rintro _ t ⟨ht, _⟩
    subst ht
    exact ⟨h, .of_disk_eq rfl⟩
  | writei ip src off n =>
    simp only [exec, wp_bind]
    exact wp_mono (wp_writei hL h hok src off n) fun _ _ ht => ⟨ht.1, ht.2.2.1⟩
  | itrunc ip => exact wp_mono (wp_itrunc hL h hok) fun _ _ ht => ⟨ht.1, ht.2.2.1⟩
  | dirlookup dp name =>
    simp only [exec, wp_bind]
    refine wp_mono (wp_dirlookup name (h.dense hok) (fun _ h => by cases h)
      (fun _ h => by cases h) fun _ h => by cases h) fun r t ht => ?_
    cases r with
    | none =>
      subst ht
      exact ⟨h, .of_disk_eq rfl⟩
    | some found =>
      obtain ⟨k, -, -, -, hgot⟩ := ht
      exact ⟨hgot.consistent h, .of_disk_eq hgot.disk⟩
  | dirlink dp name inum =>
    simp only [exec, wp_bind]
    exact wp_dirlink hL h hok name inum
  | iupdate ip major minor nlink =>
    simp only [exec, wp_bind, setInode, wp_modify]
    have hrun := (h.running hL hok).1
    have hclosing := Changed.refl.closing_setCopy hL h hok hrun
      (x := (s.inode ip).copy.setFields major minor nlink) rfl hrun.live fun bn hbn => by
        have hsame : ((s.inode ip).copy.setFields major minor nlink).fileBlock s.disk =
            (s.inode ip).copy.fileBlock s.disk := Dinode.fileBlock_congr rfl
        rw [hsame]
        exact h.dense hok bn hbn
    exact wp_mono (wp_iupdate hL h hok hclosing) fun _ _ ht => ⟨ht.1, ht.2.2.1⟩

theorem step_consistent (hL : Layout sb first) (h : Consistent sb first s)
    (hok : Allowed sb s op) (hs : step sb s op = .done s') : Consistent sb first s' := by
  unfold step at hs
  split at hs
  · rename_i hexec
    cases hs
    exact (wp_ok (wp_exec hL h hok) hexec).1
  · cases hs
  · cases hs

theorem step_ne_freeingFreeBlock (hL : Layout sb first) (h : Consistent sb first s)
    (hok : Allowed sb s op) : step sb s op ≠ .fail .freeingFreeBlock := by
  intro hs
  unfold step at hs
  split at hs
  · cases hs
  · cases hs
  · rename_i hexec
    cases hs
    exact wp_error (wp_exec hL h hok) hexec rfl

theorem reachable_consistent (hL : Layout sb first) (h₀ : Consistent sb first s₀)
    (hs : Reachable s₀ (step sb) (Allowed sb) s) : Consistent sb first s :=
  hs.invariant h₀ fun _ hI hok hstep => step_consistent hL hI hok hstep

/-- **Every data block has one owner or is free, in every state of every run.**  From a
    well-formed disk without holes below the sizes of its files, and an inode table that
    agrees with it, any sequence of complete operations leads to such states only, and none
    of the operations frees a free block. -/
theorem blocks_owned_once (hL : Layout sb first) (hwf : WellFormed sb first s₀.disk)
    (hhole : NoHole sb s₀.disk) (hcached : Cached sb s₀)
    (hs : Reachable s₀ (step sb) (Allowed sb) s) :
    WellFormed sb first s.disk ∧ NoHole sb s.disk ∧
      ∀ op, Allowed sb s op → step sb s op ≠ .fail .freeingFreeBlock := by
  have h := reachable_consistent hL ⟨hwf, hhole, hcached⟩ hs
  exact ⟨h.wellFormed, h.noHole, fun op hok => step_ne_freeingFreeBlock hL h hok⟩

end System

/-! ### An empty file system -/

section Empty

variable (sb : Superblock)

/-- The disk `d` with the bits of the blocks below `n` set. -/
def markUsed (d : Disk) : Nat → Disk
  | 0 => d
  | n + 1 =>
    let d := markUsed d n
    Function.update d (BBLOCK sb n) (setBit (d (BBLOCK sb n)) (n % BPB))

variable {sb} {first : Nat} {d : Disk}

theorem markedFree_markUsed (n : Nat) {b : Nat} :
    markedFree sb (markUsed sb d n) b ↔ markedFree sb d b ∧ n ≤ b := by
  induction n with
  | zero => simp [markUsed]
  | succ n ih =>
    simp only [markUsed]
    rw [markedFree_setBit, ih, and_assoc]
    refine and_congr_right fun _ => ?_
    omega

theorem markUsed_of_lt (n : Nat) {b : Nat} (hb : b < sb.bmapstart) :
    markUsed sb d n b = d b := by
  induction n with
  | zero => rfl
  | succ n ih =>
    have hne : b ≠ BBLOCK sb n := Nat.ne_of_lt (Nat.lt_of_lt_of_le hb (bmapstart_le_BBLOCK n))
    simp only [markUsed, Function.update_of_ne hne, ih]

/-- A disk of zeros whose bitmap has the bits of the metadata blocks. -/
def emptyDisk (sb : Superblock) (first : Nat) : Disk := markUsed sb (fun _ _ => 0) first

theorem dinodeAt_emptyDisk (hL : Layout sb first) {i : Nat} (hi : i < sb.ninodes) :
    (dinodeAt sb (emptyDisk sb first) i).type = 0 := by
  unfold dinodeAt emptyDisk
  rw [markUsed_of_lt first (hL.IBLOCK_lt hi)]
  simp [getDinode, getLE]

theorem emptyDisk_wellFormed (hL : Layout sb first) :
    WellFormed sb first (emptyDisk sb first) := by
  have hnone : ∀ p, diskOwner sb (emptyDisk sb first) p = none := by
    intro p
    rw [diskOwner, owner, if_neg]
    exact fun hp => hp.2 (dinodeAt_emptyDisk hL hp.1)
  refine ⟨by simp [hnone], by simp [hnone], fun b _ => ?_⟩
  have hzero : markedFree sb (fun _ _ => 0) b := by simp [markedFree, bitClear]
  rw [emptyDisk, markedFree_markUsed]
  simp only [hzero, true_and, Nat.not_le, ← emptyDisk.eq_def, hnone, reduceCtorEq, exists_false,
    or_false]

theorem emptyDisk_noHole (hL : Layout sb first) : NoHole sb (emptyDisk sb first) :=
  fun _ hi hlive => absurd (dinodeAt_emptyDisk hL hi) hlive

/-- The kernel on the empty file system that `mkfs` lays out. -/
def boot : State where
  disk := emptyDisk Mkfs.sb Mkfs.nmeta
  inode := fun _ => ⟨0, 0, false, false, Dinode.zero⟩
  log := .init
  outOfBlocks := fun _ => false
  ballocs := 0

theorem mkfs_layout : Layout Mkfs.sb Mkfs.nmeta := ⟨by decide, by decide, by decide, by decide⟩

theorem boot_wellFormed : WellFormed Mkfs.sb Mkfs.nmeta boot.disk :=
  emptyDisk_wellFormed mkfs_layout

theorem boot_noHole : NoHole Mkfs.sb boot.disk := emptyDisk_noHole mkfs_layout

theorem boot_cached : Cached Mkfs.sb boot :=
  ⟨fun _ _ _ _ href => absurd href (by simp [boot]), fun _ hr => absurd hr.ref (by simp [boot]),
    fun _ hr => absurd hr.ref (by simp [boot]), fun _ hr => absurd hr.ref (by simp [boot])⟩

/-- The state after an operation, if it completes. -/
def after (s : State) (op : Op) : State := (step Mkfs.sb s op).state?.getD s

theorem reachable_after {s₀ s : State} {op : Op}
    (hs : Reachable s₀ (step Mkfs.sb) (Allowed Mkfs.sb) s) (hok : Allowed Mkfs.sb s op)
    (hdone : (step Mkfs.sb s op).state?.isSome = true) :
    Reachable s₀ (step Mkfs.sb) (Allowed Mkfs.sb) (after s op) := by
  obtain ⟨t, ht⟩ := Option.isSome_iff_exists.mp hdone
  refine .step hs hok ?_
  rw [after, ht]
  exact Outcome.state?_eq_some.mp ht

theorem Consistent.after {s : State} (h : Consistent Mkfs.sb Mkfs.nmeta s) (op : Op)
    (hok : Allowed Mkfs.sb s op) (hdone : (step Mkfs.sb s op).state?.isSome = true) :
    Consistent Mkfs.sb Mkfs.nmeta (Fs.after s op) :=
  reachable_consistent mkfs_layout h (reachable_after .init hok hdone)

theorem boot_consistent : Consistent Mkfs.sb Mkfs.nmeta boot :=
  ⟨boot_wellFormed, boot_noHole, boot_cached⟩

def afterIalloc : State := after (after boot .beginOp) (.ialloc 2)

theorem afterIalloc_reachable :
    Reachable boot (step Mkfs.sb) (Allowed Mkfs.sb) afterIalloc := by
  have hbegin : (step Mkfs.sb boot .beginOp).state?.isSome = true := by decide
  have hialloc : (step Mkfs.sb (after boot .beginOp) (.ialloc 2)).state?.isSome = true := by
    decide
  exact reachable_after (reachable_after .init trivial hbegin) trivial hialloc

theorem blocks_owned_once_afterIalloc :
    WellFormed Mkfs.sb Mkfs.nmeta afterIalloc.disk ∧ NoHole Mkfs.sb afterIalloc.disk ∧
      ∀ op, Allowed Mkfs.sb afterIalloc op → step Mkfs.sb afterIalloc op ≠ .fail .freeingFreeBlock :=
  blocks_owned_once mkfs_layout boot_wellFormed boot_noHole boot_cached afterIalloc_reachable

end Empty

end Xv6.Fs
