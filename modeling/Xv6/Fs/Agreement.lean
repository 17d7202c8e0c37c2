import Xv6.Fs.Lookup

/-!
# In-memory and on-disk inodes agree

A run takes the operations of the file system and `ireclaim`, which frees the inodes that a
crash has left without links.  At every operation boundary an entry of `itable` that has been
read from disk is a copy of its dinode, and an operation writes no dinode but its own.
-/

namespace Xv6.Fs

open ByteView Hoare Transition

/-! ### `ireclaim` -/

section Functions

variable (sb : Superblock)

/-- `ireclaim` at inode `inum`. -/
def reclaim (inum : Nat) : FsM Unit := do
  let bp ← bread (IBLOCK sb inum)
  let dip := getDinode bp (dinodeOff inum)
  when (dip.type ≠ 0 ∧ dip.nlink = 0) do
    -- is an orphaned inode
    let ip ← iget inum
    beginOp
    ilock sb ip
    iunlock ip
    iput sb ip
    endOp

def ireclaim : FsM Unit := forRange (reclaim sb) 1 (sb.ninodes - 1)

/-- Inode `i` is allocated and nothing links to it. -/
def Orphan (d : Disk) (i : Nat) : Prop :=
  (dinodeAt sb d i).type ≠ 0 ∧ (dinodeAt sb d i).nlink = 0

variable {sb} {first : Nat} {s : State}

theorem wp_reclaim (hL : Layout sb first) (h : Consistent sb first s) {inum : Nat}
    (hlt : inum < sb.ninodes) :
    wp (reclaim sb inum) Benign (fun _ s' => Consistent sb first s' ∧
      OthersKept sb (fun i => i = inum ∧ Orphan sb s.disk inum) s s') s := by
  simp only [reclaim, wp_bind, bread, wp_get, wp_pure, wp_when]
  refine ⟨fun horphan => ?_, fun _ => ⟨h, .of_disk_eq rfl⟩⟩
  refine wp_mono (wp_iget inum fun _ h => by cases h) fun ip s₁ hgot =>
    wp_beginOp (by rintro ⟨⟩) fun l => ?_
  have hcons : Consistent sb first { s₁ with log := l } := (hgot.consistent h).setLog l
  have hinum : (s₁.inode ip).inum = inum := hgot.inum_eq
  have hlive : (dinodeAt sb s₁.disk (s₁.inode ip).inum).type ≠ 0 := by
    rw [hinum, hgot.disk]
    exact horphan.1
  refine wp_mono (wp_and (wp_ilock hcons hgot.1 (by rw [hinum]; exact hlt))
    (wp_ilock_eq hcons.cached hgot.1 hgot.ref_pos hlive fun _ h => by cases h)) ?_
  rintro _ s₂ ⟨⟨hcons₂, _⟩, _, heq₂⟩
  subst heq₂
  refine wp_mono (wp_and (wp_iunlock hcons₂ hgot.1) (wp_iunlock_eq (by
    rw [State.setInode_self]; exact hgot.ref_pos) (by rw [State.setInode_self]))) ?_
  rintro _ s₃ ⟨⟨hcons₃, _⟩, heq₃⟩
  subst heq₃
  refine wp_mono (wp_iput hL hcons₃ hgot.1 (by simpa using hgot.ref_pos)) ?_
  rintro _ s₄ ⟨hcons₄, hkept⟩
  refine wp_endOp (fun _ h => by cases h) fun l' => ⟨hcons₄.setLog l', fun i hi hN => ?_⟩
  refine (hkept i hi fun heq => hN ⟨?_, horphan⟩).trans (by rw [← hgot.disk]; rfl)
  simpa [hinum] using heq

/-- **`ireclaim`** keeps the state consistent, and writes the dinodes of orphaned inodes
    only. -/
theorem wp_ireclaim (hL : Layout sb first) (h : Consistent sb first s) :
    wp (ireclaim sb) Benign (fun _ s' => Consistent sb first s' ∧
      OthersKept sb (Orphan sb s.disk) s s') s := by
  unfold ireclaim
  refine wp_forRange (I := fun _ t => Consistent sb first t ∧ OthersKept sb (Orphan sb s.disk) s t) _
    ⟨h, .of_disk_eq rfl⟩ (fun inum t hlo hhi ⟨ht, hkept⟩ => ?_) fun t ht => ht
  have hlt : inum < sb.ninodes := by omega
  refine wp_mono (wp_reclaim hL ht hlt) fun _ u ⟨hu, hkept'⟩ => ⟨hu, hkept.trans (hkept'.mono ?_)⟩
  rintro i ⟨rfl, horphan⟩
  -- an inode that is no orphan now was none at the start
  by_contra hnot
  unfold Orphan at horphan
  rw [hkept i (hL.IBLOCK_lt hlt) hnot] at horphan
  exact hnot horphan

end Functions

/-! ### Runs -/

/-- An operation of the file system, or `ireclaim`. -/
inductive Call where
  | op (o : Op)
  | ireclaim

section Runs

variable (sb : Superblock)

def Call.exec : Call → FsM Unit
  | .op o => Fs.exec sb o
  | .ireclaim => Fs.ireclaim sb

/-- A complete call. -/
def callStep (s : State) (c : Call) : Outcome Panic State :=
  match c.exec sb s with
  | .ok (_, s') => .done s'
  | .error .asleep => .blocked
  | .error (.panic e) => .fail e

def CallAllowed (s : State) : Call → Prop
  | .op o => Allowed sb s o
  | .ireclaim => True

/-- The dinodes that a call may write. -/
def Call.Target (s : State) : Call → Nat → Prop
  | .op o => o.Target sb s
  | .ireclaim => Orphan sb s.disk

variable {sb} {first : Nat} {s s' s₀ : State} {c : Call}

theorem callStep_consistent (hL : Layout sb first) (h : Consistent sb first s)
    (hok : CallAllowed sb s c) (hs : callStep sb s c = .done s') :
    Consistent sb first s' ∧ OthersKept sb (c.Target sb s) s s' := by
  have hexec : wp (c.exec sb) Benign (fun _ s' => Consistent sb first s' ∧
      OthersKept sb (c.Target sb s) s s') s := by
    cases c with
    | op o => exact wp_exec hL h hok
    | ireclaim => exact wp_ireclaim hL h
  unfold callStep at hs
  split at hs
  · rename_i heq
    cases hs
    exact wp_ok hexec heq
  · cases hs
  · cases hs

/-- **In-memory and on-disk inodes agree**, at every operation boundary of every run from a
    well-formed disk without holes and a table that agrees with it: an entry that is in use,
    has been read and is not locked is a copy of its dinode, no two entries in use have one
    number, and a call leaves every dinode alone that is not its own. -/
theorem inodes_agree (hL : Layout sb first) (hwf : WellFormed sb first s₀.disk)
    (hhole : NoHole sb s₀.disk) (hcached : Cached sb s₀)
    (hs : Reachable s₀ (callStep sb) (CallAllowed sb) s) :
    (∀ ip < NINODE, 0 < (s.inode ip).ref → (s.inode ip).valid = true →
      (s.inode ip).lock = false →
      (s.inode ip).copy = getDinode (s.disk (IBLOCK sb (s.inode ip).inum))
        (dinodeOff (s.inode ip).inum)) ∧
    (∀ i < NINODE, ∀ j < NINODE, 0 < (s.inode i).ref → 0 < (s.inode j).ref →
      (s.inode i).inum = (s.inode j).inum → i = j) ∧
    ∀ c s', CallAllowed sb s c → callStep sb s c = .done s' →
      OthersKept sb (c.Target sb s) s s' := by
  have h : Consistent sb first s := hs.invariant ⟨hwf, hhole, hcached⟩ fun _ hI hok hstep =>
    (callStep_consistent hL hI hok hstep).1
  exact ⟨fun ip hip href hvalid _ => h.cached.copy ip ⟨hip, href, hvalid⟩, h.cached.unique,
    fun c s' hok hstep => (callStep_consistent hL h hok hstep).2⟩

end Runs

/-! ### An orphan is reclaimed, and a disk whose blocks overlap -/

section Example

/-- The state after a call, if it completes. -/
def callAfter (s : State) (c : Call) : State := (callStep Mkfs.sb s c).state?.getD s

theorem reachable_callAfter {s₀ s : State} {c : Call}
    (hs : Reachable s₀ (callStep Mkfs.sb) (CallAllowed Mkfs.sb) s) (hok : CallAllowed Mkfs.sb s c)
    (hdone : (callStep Mkfs.sb s c).state?.isSome = true) :
    Reachable s₀ (callStep Mkfs.sb) (CallAllowed Mkfs.sb) (callAfter s c) := by
  obtain ⟨t, ht⟩ := Option.isSome_iff_exists.mp hdone
  refine .step hs hok ?_
  rw [callAfter, ht]
  exact Outcome.state?_eq_some.mp ht

/-- An inode is allocated and never linked; `ireclaim` frees it. -/
def orphanCalls : List Call :=
  [.op .beginOp, .op (.ialloc 2), .op (.iput 0), .op .endOp, .ireclaim]

def reclaimed : State := orphanCalls.foldl callAfter boot

theorem reclaimed_reachable :
    Reachable boot (callStep Mkfs.sb) (CallAllowed Mkfs.sb) reclaimed := by
  have h₁ := reachable_callAfter (s := boot) (c := .op .beginOp) .init trivial (by decide)
  have h₂ := reachable_callAfter (c := .op (.ialloc 2)) h₁ trivial (by decide)
  have h₃ := reachable_callAfter (c := .op (.iput 0)) h₂ ⟨by decide, by decide⟩
    (by decide)
  have h₄ := reachable_callAfter (c := .op .endOp) h₃ trivial (by decide)
  have h₅ := reachable_callAfter (c := .ireclaim) h₄ trivial (by decide +kernel)
  simpa only [reclaimed, orphanCalls, List.foldl_cons, List.foldl_nil] using h₅

theorem inodes_agree_reclaimed :
    (∀ ip < NINODE, 0 < (reclaimed.inode ip).ref → (reclaimed.inode ip).valid = true →
      (reclaimed.inode ip).lock = false →
      (reclaimed.inode ip).copy = getDinode
        (reclaimed.disk (IBLOCK Mkfs.sb (reclaimed.inode ip).inum))
        (dinodeOff (reclaimed.inode ip).inum)) ∧
    (∀ i < NINODE, ∀ j < NINODE, 0 < (reclaimed.inode i).ref → 0 < (reclaimed.inode j).ref →
      (reclaimed.inode i).inum = (reclaimed.inode j).inum → i = j) ∧
    ∀ c s', CallAllowed Mkfs.sb reclaimed c → callStep Mkfs.sb reclaimed c = .done s' →
      OthersKept Mkfs.sb (c.Target Mkfs.sb reclaimed) reclaimed s' :=
  inodes_agree mkfs_layout boot_wellFormed boot_noHole boot_cached reclaimed_reachable

/-- The dinode of a directory without entries. -/
def overlapDir : Dinode := { Dinode.zero with type := T_DIR, nlink := 1 }

/-- The dinode of a file whose block is the inode block of the directory. -/
def overlapFile : Dinode :=
  { type := 2, major := 0, minor := 0, nlink := 1, size := 128
    addrs := fun k => if k = 0 then UInt32.ofNat Mkfs.sb.inodestart else 0 }

/-- Both inodes are in memory, and a transaction has begun. -/
def overlap : State where
  disk := setDinode Mkfs.sb (setDinode Mkfs.sb (fun _ _ => 0) 1 overlapDir) 2 overlapFile
  inode := fun ip =>
    if ip = 0 then ⟨1, 1, false, true, overlapDir⟩
    else if ip = 1 then ⟨2, 1, false, true, overlapFile⟩
    else ⟨0, 0, false, false, Dinode.zero⟩
  log := { Log.LogState.init with outstanding := 1 }
  outOfBlocks := fun _ => false
  ballocs := 0

/-- Two bytes of the file are written, at the place of the dinode of the directory. -/
def overlapWrite : Op := .writei 1 (fun _ => some 7) 64 2

set_option maxRecDepth 8000 in
theorem overlap_noHole : NoHole Mkfs.sb overlap.disk := by
  have hlive : ∀ i < Mkfs.sb.ninodes, (dinodeAt Mkfs.sb overlap.disk i).type ≠ 0 →
      (dinodeAt Mkfs.sb overlap.disk i).size.toNat ≤ BSIZE ∧
        ((dinodeAt Mkfs.sb overlap.disk i).size = 0 ∨
          (dinodeAt Mkfs.sb overlap.disk i).fileBlock overlap.disk 0 ≠ 0) := by
    decide
  intro i hi htype bn hbn
  obtain ⟨hsize, hzero | hblock⟩ := hlive i hi htype
  · rw [hzero] at hbn
    exact absurd hbn (Nat.not_lt_zero _)
  · have hbn0 : bn = 0 := by
      rw [show BSIZE = 1024 from rfl] at hbn hsize
      omega
    rw [hbn0]
    exact hblock

theorem overlap_cached : Cached Mkfs.sb overlap := by
  have hready : ∀ ip, 0 < (overlap.inode ip).ref → ip = 0 ∨ ip = 1 := by
    intro ip href
    by_contra hne
    obtain ⟨h0, h1⟩ := not_or.mp hne
    simp [overlap, h0, h1] at href
  refine ⟨fun i _ j _ hi hj heq => ?_, fun ip hr => ?_, fun ip hr => ?_, fun ip hr => ?_⟩
  · rcases hready i hi with rfl | rfl <;> rcases hready j hj with rfl | rfl <;>
      first | rfl | exact absurd heq (by decide)
  · rcases hready ip hr.ref with rfl | rfl <;> decide
  · rcases hready ip hr.ref with rfl | rfl <;> decide
  · have hdinodes : dinodeAt Mkfs.sb overlap.disk = Function.update (Function.update
        (dinodeAt Mkfs.sb fun _ _ => 0) 1 overlapDir) 2 overlapFile := by
      rw [overlap, dinodeAt_setDinode, dinodeAt_setDinode]
    rw [hdinodes]
    rcases hready ip hr.ref with rfl | rfl <;> simp [overlap]

/-- **Without block ownership the inodes do not agree**: the state has no holes and its table
    agrees with its disk, and a complete `writei` to the file changes the dinode of the
    directory under its in-memory copy. -/
theorem inodes_disagree_overlap :
    NoHole Mkfs.sb overlap.disk ∧ Cached Mkfs.sb overlap ∧ Allowed Mkfs.sb overlap overlapWrite ∧
      step Mkfs.sb overlap overlapWrite = .done (after overlap overlapWrite) ∧
      0 < ((after overlap overlapWrite).inode 0).ref ∧
      ((after overlap overlapWrite).inode 0).valid = true ∧
      ((after overlap overlapWrite).inode 0).lock = false ∧
      ((after overlap overlapWrite).inode 0).copy ≠
        dinodeAt Mkfs.sb (after overlap overlapWrite).disk
          ((after overlap overlapWrite).inode 0).inum := by
  have hdone : (step Mkfs.sb overlap overlapWrite).state?.isSome = true := by decide
  obtain ⟨t, ht⟩ := Option.isSome_iff_exists.mp hdone
  refine ⟨overlap_noHole, overlap_cached, ⟨by decide, by decide, by decide⟩, ?_,
    by decide, by decide, by decide, fun heq => ?_⟩
  · rw [after, ht]
    exact Outcome.state?_eq_some.mp ht
  · have htype : ((after overlap overlapWrite).inode 0).copy.type ≠
        (dinodeAt Mkfs.sb (after overlap overlapWrite).disk
          ((after overlap overlapWrite).inode 0).inum).type := by
      decide
    exact htype (congrArg Dinode.type heq)

end Example

end Xv6.Fs
