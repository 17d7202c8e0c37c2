import Xv6.Process.Directories
import Xv6.Mkfs.Mounted

/-!
# Logging outside of transactions

`sys_chdir` calls `namei` before it opens a transaction, and a lookup in a directory with a hole
allocates a block for it.  The root directory of an image of `mkfs` has a hole at its end if its
entries fill its blocks; on any other image no block is ever logged outside of a transaction.
-/

namespace Xv6.Process

open ByteView Hoare Vm Fs Transition Mkfs Function

/-! ### Images without a hole are intact -/

section Image

variable {files : List HostFile} {s : Mkfs.State} {i k : Nat}

theorem blankTail_byte (blk : Block) (j : Nat) : blankTail blk j = blk j ∨ blankTail blk j = 0 := by
  have hupdate : update blk (BSIZE - 1) 0 j = blk j ∨
      update blk (BSIZE - 1) 0 j = 0 := by
    by_cases hj : j = BSIZE - 1
    · rw [hj, update_self]
      exact Or.inr rfl
    · exact Or.inl (update_of_ne hj ..)
  rcases blankTail_cases blk with ⟨-, heq⟩ | ⟨i, -, heq⟩ <;> rw [heq]
  · exact hupdate
  · dsimp only
    split
    · exact Or.inr rfl
    · exact hupdate

theorem tested_byte (d : Disk) (b j : Nat) : tested d b j = d b j ∨ tested d b j = 0 := by
  by_cases hb : b = 47
  · rw [hb, tested, update_self]
    exact blankTail_byte _ _
  · exact Or.inl (by rw [tested, update_of_ne hb])

theorem tested_dinodeAt (d : Disk) (hi : i < NINODES) :
    dinodeAt Mkfs.sb (tested d) i = dinodeAt Mkfs.sb d i := by
  have hlt := (IBLOCK_lt (lt_roomForInodes hi)).2
  have hmap : Mkfs.sb.bmapstart < 47 := by decide
  rw [dinodeAt, tested, update_of_ne (by omega)]
  rfl

theorem tested_fileBlock (h : Made (table files) s) (hi : i < NINODES)
    (hlive : (dinodeAt Mkfs.sb s.disk i).type ≠ 0) (bn : Nat) :
    (dinodeAt Mkfs.sb s.disk i).fileBlock (tested s.disk) bn =
      (dinodeAt Mkfs.sb s.disk i).fileBlock s.disk bn := by
  unfold Dinode.fileBlock
  split
  · rename_i hbn
    cases slotOf bn hbn with
    | direct j => rfl
    | indirect => rfl
    | entry j =>
      simp only [Dinode.block]
      split
      · rfl
      · rename_i hne
        have hhigh : nmeta + 2 ≤ ((dinodeAt Mkfs.sb s.disk i).addrs (Fin.last NDIRECT)).toNat := by
          refine h.high i _ ?_
          rw [owner, if_pos ⟨hi, hlive⟩, nonzero_eq_some]
          exact ⟨rfl, fun hz => hne (UInt32.toNat_inj.mp hz)⟩
        have hmeta : nmeta + 2 = 48 := by decide
        rw [tested, update_of_ne (by omega)]
  · rfl

theorem tested_direntInum (h : Made (table files) s)
    (hlive : (dinodeAt Mkfs.sb s.disk ROOTINO).type ≠ 0)
    (hsmall : direntInum (direntAt (dinodeAt Mkfs.sb s.disk ROOTINO) s.disk k) < 256) :
    direntInum (direntAt (dinodeAt Mkfs.sb s.disk ROOTINO) (tested s.disk) k) =
        direntInum (direntAt (dinodeAt Mkfs.sb s.disk ROOTINO) s.disk k) ∨
      direntInum (direntAt (dinodeAt Mkfs.sb s.disk ROOTINO) (tested s.disk) k) = 0 := by
  have hinum : ∀ d : Disk, direntInum (direntAt (dinodeAt Mkfs.sb s.disk ROOTINO) d k) =
      ((dinodeAt Mkfs.sb s.disk ROOTINO).fileByte d (k * DIRENTSIZE + 0)).toNat +
        256 * ((dinodeAt Mkfs.sb s.disk ROOTINO).fileByte d (k * DIRENTSIZE + 1)).toNat :=
    fun d => rfl
  have hbyte : ∀ j, (dinodeAt Mkfs.sb s.disk ROOTINO).fileByte (tested s.disk) j =
      (dinodeAt Mkfs.sb s.disk ROOTINO).fileByte s.disk j ∨
      (dinodeAt Mkfs.sb s.disk ROOTINO).fileByte (tested s.disk) j = 0 := fun j => by
    unfold Dinode.fileByte
    rw [tested_fileBlock h (by decide) hlive]
    exact tested_byte _ _ _
  rw [hinum] at hsmall ⊢
  rw [hinum]
  rcases hbyte (k * DIRENTSIZE + 0) with hlow | hlow <;>
    rcases hbyte (k * DIRENTSIZE + 1) with hhigh | hhigh <;> rw [hlow, hhigh]
  · exact Or.inl rfl
  · refine Or.inl ?_
    have : (0 : UInt8).toNat = 0 := rfl
    omega
  · refine Or.inr ?_
    have : (0 : UInt8).toNat = 0 := rfl
    omega
  · exact Or.inr rfl

/-- **An image without a hole is intact**, and `blocktest` leaves it so. -/
theorem intact_of_made (h : Made (table files) s) (hcount : files.length ≤ NINODES - 2)
    (hmod : (files.length + 2) % (BSIZE / DIRENTSIZE) ≠ 0) : Intact Mkfs.sb s.disk := by
  obtain ⟨htype, hnlink, hsize, -⟩ := h.root hcount
  have hlive : (dinodeAt Mkfs.sb s.disk ROOTINO).type ≠ 0 := by
    rw [htype]
    decide
  have hwhole : (dinodeAt Mkfs.sb s.disk ROOTINO).size.toNat % DIRENTSIZE = 0 := by
    rw [hsize, show BSIZE = 64 * DIRENTSIZE from rfl, ← Nat.mul_assoc, Nat.mul_mod_left]
  have hsame : ∀ i < Mkfs.sb.ninodes,
      dinodeAt Mkfs.sb (tested s.disk) i = dinodeAt Mkfs.sb s.disk i := fun i => tested_dinodeAt _
  have hlinked : ∀ i, Linked Mkfs.sb (tested s.disk) i ↔ Linked Mkfs.sb s.disk i := fun i => by
    constructor <;> rintro ⟨hlt, hl, hn⟩
    · rw [hsame i hlt] at hl hn
      exact ⟨hlt, hl, hn⟩
    · rw [← hsame i hlt] at hl hn
      exact ⟨hlt, hl, hn⟩
  have hroot : Linked Mkfs.sb s.disk ROOTINO :=
    ⟨by decide, hlive, by rw [hnlink]; decide⟩
  refine ⟨⟨hroot, fun i hi hdir => ?_, fun i hi hdir k hk hne => ?_⟩, h.noHole hmod,
    ⟨(hlinked _).mpr hroot, fun i hi hdir => ?_, fun i hi hdir k hk hne => ?_⟩, fun i hi hl => ?_, hsame⟩
  · obtain rfl := h.directory hi.lt hdir
    exact hwhole
  · obtain rfl := h.directory hi.lt hdir
    exact (h.linked_dirent hcount hmod hk).resolve_left hne
  · rw [hsame i hi.lt] at hdir ⊢
    obtain rfl := h.directory hi.lt hdir
    exact hwhole
  · rw [hsame i hi.lt] at hdir hk hne ⊢
    obtain rfl := h.directory hi.lt hdir
    have hlink := h.linked_dirent hcount hmod hk
    have hsmall : direntInum (direntAt (dinodeAt Mkfs.sb s.disk ROOTINO) s.disk k) < 256 := by
      rcases hlink with hzero | hlink
      · rw [hzero]
        decide
      · exact Nat.lt_trans hlink.lt (by decide)
    have heq := (tested_direntInum h hlive hsmall).resolve_right hne
    rw [heq] at hne ⊢
    exact (hlinked _).mpr (hlink.resolve_left hne)
  · rw [hsame i hi] at hl ⊢
    intro bn hbn
    rw [tested_fileBlock h hi hl]
    exact h.noHole hmod i hi hl bn hbn

end Image

/-! ### Runs -/

section Runs

variable {img : Image} {files : List HostFile} {s : Mkfs.State} {k k₀ : Kernel} {c : Syscall}
  {p ip : Nat}

/-- **No block is logged outside of a transaction**, in any run on an image whose root directory
    does not end at the end of a block. -/
theorem no_log_write_outside (hcount : files.length ≤ NINODES - 2)
    (hmod : (files.length + 2) % (BSIZE / DIRENTSIZE) ≠ 0) (hs : mkfs files = .ok s)
    (h₀ : Start Mkfs.sb k₀) (hdisk : k₀.fs.disk = s.disk)
    (hk : Reachable k₀ (stepCall img Mkfs.sb) (fun k c => allowedCall k c = true) k)
    (hok : allowedCall k c = true) : stepCall img Mkfs.sb k c ≠ .fail (.fs outsideOfTrans) := by
  have hintact : Intact Mkfs.sb k₀.fs.disk := hdisk ▸ intact_of_made (mkfs_made hcount hs).1 hcount hmod
  have hfits : ∀ k c, ChdirFits (intactDisk (G := fun _ => True) hintact trivial) k c := by
    intro k c
    cases c with
    | blocktest => trivial
    | op o => cases o <;> first | exact fun _ _ _ => trivial | trivial
  have h : Balanced (intactDisk (G := fun _ => True) hintact trivial) k :=
    hk.invariant (h₀.balanced (h₀.quiet hintact trivial)) fun {_ _ c} _ hI hok hstep =>
      stepCall_balanced hI hok (hfits _ c) hstep
  exact fun hfail => stepCall_stops h hok (hfits k c) hfail rfl

theorem mounted_of_started (h : Made (table files) s) (hcount : files.length ≤ NINODES - 2)
    (hk : Started Mkfs.sb p ip k) (hdisk : k.fs.disk = s.disk) : Mounted s.disk k.fs := by
  obtain ⟨htype, -⟩ := h.root hcount
  have hin : ∀ j, 0 < (k.fs.inode j).ref → j = ip := fun j hj => by
    by_contra hne
    exact absurd (hk.unused j hne) (Nat.ne_of_gt hj)
  have hcopy : ∀ j, Ready j k.fs → (k.fs.inode j).inum = ROOTINO ∧
      (k.fs.inode j).copy = dinodeAt Mkfs.sb k.fs.disk ROOTINO := fun j hj => by
    obtain rfl := hin j hj.ref
    exact ⟨hk.root.2.1, hk.copy hj.valid⟩
  have hroom : ∀ j, j ≠ ip → (k.fs.inode j).ref = 0 := hk.unused
  refine ⟨hdisk, ⟨fun i _ j _ hi hj _ => (hin i hi).trans (hin j hj).symm, fun j hj => ?_,
    fun j hj => ?_, fun j hj => ?_⟩, ?_, hk.lock⟩
  · rw [(hcopy j hj).1]
    decide
  · rw [(hcopy j hj).2, hdisk, htype]
    decide
  · rw [(hcopy j hj).1, (hcopy j hj).2]
  · exact ⟨(ip + 1) % NINODE, Nat.mod_lt _ (by decide), (ip + 2) % NINODE, Nat.mod_lt _ (by decide),
      by rw [show NINODE = 50 from rfl]; omega,
      hk.unused _ (by rw [show NINODE = 50 from rfl]; omega),
      hk.unused _ (by rw [show NINODE = 50 from rfl]; omega)⟩

/-- **A lookup in a full root directory panics**: on an image whose root directory ends at the end
    of a block, `chdir` to a name that is not there logs a block outside of a transaction. -/
theorem chdir_outside (henc : Encodable files)
    (hmod : (files.length + 2) % (BSIZE / DIRENTSIZE) = 0) (hs : mkfs files = .ok s)
    (hfree : used files < FSSIZE) (hk : Started Mkfs.sb p ip k) (hdisk : k.fs.disk = s.disk)
    (hout : Outside k.fs) (hblocks : k.fs.outOfBlocks k.fs.ballocs = false) {name : List UInt8}
    (hne : name ≠ []) (hslash : slash ∉ name) (hnul : 0 ∉ name) (hlen : name.length ≤ DIRSIZ)
    (habsent : ∀ e ∈ entries files, name ≠ e.2) :
    stepCall img Mkfs.sb k (.op (.chdir p (slash :: name))) = .fail (.fs outsideOfTrans) := by
  obtain ⟨h, -, hused⟩ := mkfs_made henc.count hs
  obtain ⟨htype, -, hsize, hend, -⟩ := h.root henc.count
  have hhole : (dinodeAt Mkfs.sb s.disk ROOTINO).fileBlock s.disk (rootEnd files) = 0 := by
    by_contra hne
    refine h.root_dense_iff.mp (fun b hb => ?_) hmod
    rcases Nat.lt_or_ge b (rootEnd files) with hlt | hge
    · exact h.root_block hlt
    · rw [hsize] at hb
      have := Nat.lt_of_mul_lt_mul_right hb
      obtain rfl : b = rootEnd files := by omega
      exact hne
  have hmarked : markedFree Mkfs.sb s.disk (used files) :=
    (h.markedFree (Nat.lt_trans hfree (by decide))).mpr (Nat.le_of_eq hused)
  have hnamei : wp (namei Mkfs.sb (k.proc p).cwd (slash :: name)) (· = outsideOfTrans)
      (fun _ _ => False) k.fs := by
    refine Mounted.wp_namei h henc.count (mounted_of_started h henc.count hk hdisk) hne hslash
      fun dp u hu => ?_
    have hcopy := hu.copy
    obtain ⟨hlog, hout', hballocs⟩ := hu.rest
    refine wp_mono (wp_dirlookup_outside ⟨by rw [hlog]; exact hout.outstanding,
      by rw [hlog]; exact hout.notFull⟩ (by rw [hout', hballocs]; exact hblocks) hfree
      (by rw [hu.disk]; exact hmarked) (by rw [hcopy]; exact htype) hend
      (by rw [hcopy]; exact hsize) ?_ (by rw [hcopy, hu.disk]; exact hhole) ?_) fun _ _ hf => hf.elim
    · rw [hcopy, hu.disk]
      exact fun b hb => h.root_block hb
    · rw [hcopy, hu.disk]
      exact fun j _ hblock => h.not_found henc hnul hlen (fun e he => habsent e he) hblock
  have hexec : wp (execCall img Mkfs.sb (.op (.chdir p (slash :: name))))
      (· = .fs outsideOfTrans) (fun _ _ => False) k := by
    simp only [execCall, exec, chdir, wp_bind, wp_get]
    exact wp_zoom.mpr (wp_mono_error (wp_mono hnamei fun _ _ hf => hf.elim)
      fun e he => congrArg Stop.fs he)
  obtain ⟨e, herror, rfl⟩ := wp_fails hexec
  rw [stepCall, herror]
  rfl

end Runs

/-! ### A full root directory -/

section Example

def initElf : HostFile where
  name := [105, 110, 105, 116]
  nul := by decide
  pieces := some [⟨[127, 69, 76, 70] ++ List.replicate 60 0, by decide⟩]

/-- With its own two, the root directory has as many entries as a block. -/
def fullRoot : List HostFile := initElf :: emptyFiles 61

set_option maxRecDepth 8000 in
theorem fullRoot_encodable : Encodable fullRoot := by
  refine ⟨by decide, ?_, by decide, by decide, by decide,
    by decide, by decide, by decide, by decide⟩
  simp [fullRoot, emptyFiles, initElf, emptyFile]

/-- `initKernel` on another disk. -/
def startOn (d : Disk) : Kernel := initKernel.setFs { initKernel.fs with disk := d }

theorem startOn_started (d : Disk) : Started Mkfs.sb 0 0 (startOn d) :=
  ⟨initKernel_started.first, initKernel_started.lt, initKernel_started.live, initKernel_started.cwd,
    initKernel_started.others, initKernel_started.root, nofun, initKernel_started.unused,
    initKernel_started.lock⟩

theorem no_log_write_outside_empty : ∃ s, mkfs (emptyFiles 2) = .ok s ∧
    stepCall smallImage Mkfs.sb (startOn s.disk) (.op (.chdir 0 [slash, 120])) ≠
      .fail (.fs outsideOfTrans) := by
  obtain ⟨s, hs⟩ := mkfs_emptyFiles (n := 2) (by decide)
  exact ⟨s, hs, no_log_write_outside (by decide) (by decide) hs (.started (startOn_started _)) rfl
    .init rfl⟩

set_option maxRecDepth 8000 in
/-- **`chdir("/x")` panics**, as the first call on an image with a full root directory. -/
theorem chdir_fullRoot : ∃ s, mkfs fullRoot = .ok s ∧ Started Mkfs.sb 0 0 (startOn s.disk) ∧
    (startOn s.disk).fs.disk = s.disk ∧
    allowedCall (startOn s.disk) (.op (.chdir 0 [slash, 120])) = true ∧
    stepCall smallImage Mkfs.sb (startOn s.disk) (.op (.chdir 0 [slash, 120])) =
      .fail (.fs (.panic (.log .logWriteOutsideOfTrans))) := by
  obtain ⟨s, hs, -⟩ := mkfs_ok (wp_main fullRoot_encodable.count) fun _ hnot =>
    hnot fullRoot_encodable.acceptable
  have hout : Outside (startOn s.disk).fs := ⟨Int.zero_lt_one, (by decide : 0 < LOGBLOCKS)⟩
  exact ⟨s, hs, startOn_started _, rfl, rfl, chdir_outside fullRoot_encodable (by decide)
    hs (by decide) (startOn_started _) rfl hout rfl (by decide) (by decide) (by decide)
    (by decide) (by decide)⟩

end Example

end Xv6.Process
