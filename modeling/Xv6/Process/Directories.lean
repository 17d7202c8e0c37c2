import Xv6.Process.References
import Xv6.Fs.Quiet

/-!
# Current directories

The linked `sys_chdir` takes whatever `namei` returns, so that a process can make a file its
current directory.  If every `chdir` is to a directory, current directories are directories, on a
disk that is intact and that `blocktest` leaves intact.
-/

namespace Xv6.Process

open ByteView Hoare Vm Fs Transition Function

/-! ### `blocktest` -/

theorem emptyLine_eq_some {c : Block} {i : Nat} (h : emptyLine c = some i) :
    i < BSIZE - 1 ∧ ∀ j < i, ¬ (c j = 10 ∧ c (j + 1) = 10) := by
  obtain ⟨-, hmem, hfirst⟩ := List.find?_range_eq_some.mp h
  refine ⟨List.mem_range.mp hmem, fun j hj hboth => ?_⟩
  have hj' := hfirst j hj
  simp only [hboth, and_self, decide_true, Bool.not_true] at hj'
  cases hj'

theorem emptyLine_eq_none {c : Block} :
    emptyLine c = none ↔ ∀ j < BSIZE - 1, ¬ (c j = 10 ∧ c (j + 1) = 10) := by
  simp only [emptyLine, List.find?_eq_none, List.mem_range, decide_eq_true_eq]

theorem blankTail_cases (blk : Block) :
    (emptyLine (update blk (BSIZE - 1) 0) = none ∧
      blankTail blk = update blk (BSIZE - 1) 0) ∨
    ∃ i, emptyLine (update blk (BSIZE - 1) 0) = some i ∧
      blankTail blk = fun k => if i ≤ k ∧ k < BSIZE then 0
        else update blk (BSIZE - 1) 0 k := by
  unfold blankTail
  dsimp only
  split
  · rename_i i hi
    exact Or.inr ⟨i, hi, rfl⟩
  · rename_i hnone
    exact Or.inl ⟨hnone, rfl⟩

theorem blankTail_eq_self {c : Block} (hend : c (BSIZE - 1) = 0) (hnone : emptyLine c = none) :
    blankTail c = c := by
  have hsame : update c (BSIZE - 1) 0 = c := update_eq_self_iff.mpr hend.symm
  unfold blankTail
  simp only [hsame, hnone]

theorem blankTail_blankTail (blk : Block) : blankTail (blankTail blk) = blankTail blk := by
  have hB : BSIZE = 1024 := rfl
  rcases blankTail_cases blk with ⟨hnone, heq⟩ | ⟨i, hi, heq⟩ <;> rw [heq]
  · exact blankTail_eq_self (update_self ..) hnone
  · obtain ⟨hlt, hfirst⟩ := emptyLine_eq_some hi
    refine blankTail_eq_self (if_pos ⟨by omega, by omega⟩) (emptyLine_eq_none.mpr fun j hj => ?_)
    rintro ⟨hleft, hright⟩
    -- the empty line that was found is the first one, and what follows is clear
    have hji : j + 1 < i := by
      by_contra hge
      rw [if_pos ⟨by omega, by omega⟩] at hright
      cases hright
    rw [if_neg (by omega)] at hleft hright
    exact hfirst j (by omega) ⟨hleft, hright⟩

/-- The disk after `blocktest`. -/
def tested (d : Disk) : Disk := update d 47 (blankTail (d 47))

theorem tested_tested (d : Disk) : tested (tested d) = tested d := by
  simp only [tested, update_self, update_idem, blankTail_blankTail]

/-- Directories are intact and files have no holes, also after `blocktest`. -/
structure Intact (sb : Superblock) (d : Disk) : Prop where
  tree : Tree sb d
  noHole : NoHole sb d
  tree' : Tree sb (tested d)
  noHole' : NoHole sb (tested d)
  same : ∀ i < sb.ninodes, dinodeAt sb (tested d) i = dinodeAt sb d i

/-- The disks of a run that begins with the disk `d₀`. -/
def Along (d₀ d : Disk) : Prop := d = d₀ ∨ d = tested d₀

section Discipline

variable {sb : Superblock} {d₀ : Disk} {G : Dinode → Prop} {base : Nat → Nat} {s : Fs.State}

theorem Intact.sealed (h : Intact sb d₀) : Sealed sb (Along d₀) := by
  have hsame : ∀ d, Along d₀ d → ∀ i < sb.ninodes, dinodeAt sb d i = dinodeAt sb d₀ i := by
    rintro d (rfl | rfl) i hi
    · rfl
    · exact h.same i hi
  refine ⟨fun d hd => ?_, fun d hd => ?_, fun d d' hd hd' i hi =>
    (hsame d hd i hi).trans (hsame d' hd' i hi).symm⟩
  · rcases hd with rfl | rfl
    · exact h.tree
    · exact h.tree'
  · rcases hd with rfl | rfl
    · exact h.noHole
    · exact h.noHole'

theorem Quiet.setDisk {𝒟 : Disk → Prop} {held : List Nat} {locked : Option Nat}
    (h : Quiet sb 𝒟 G base held locked s) {d : Disk} (hd : 𝒟 d)
    (hsame : ∀ i < sb.ninodes, dinodeAt sb d i = dinodeAt sb s.disk i) :
    Quiet sb 𝒟 G base held locked { s with disk := d } := by
  refine ⟨⟨h.lt, h.ref, h.lock⟩, ⟨hd, fun j hj => ?_, fun j hj hv => ?_⟩, h.ready, fun j hj => ?_⟩
  · obtain ⟨hlt, hlive, hlinks⟩ := h.linked j hj
    have heq := hsame _ hlt
    exact ⟨hlt, by rw [heq]; exact hlive, by rw [heq]; exact hlinks⟩
  · exact (h.copy j hj hv).trans (hsame _ (h.linked j hj).lt).symm
  · have hpos : 0 < (s.inode j).ref := by
      rw [h.ref]
      omega
    dsimp only
    rw [hsame _ (h.linked j hpos).lt]
    exact h.good j hj

theorem Quiet.wp_blocktest (hintact : Intact sb d₀) (h : Quiet sb (Along d₀) G base [] none s) :
    wp blocktest InTrans (fun _ => Quiet sb (Along d₀) G base [] none) s := by
  have hnext : Along d₀ (tested s.disk) := by
    rcases h.disk with hd | hd
    · exact Or.inr (congrArg tested hd)
    · exact Or.inr (by rw [hd, tested_tested])
  exact Quiet.setDisk h hnext (hintact.sealed.same _ _ hnext h.disk)

/-- **The discipline of an intact disk**: no block is logged, and the inodes that processes are
    at satisfy `G`, if the root directory does. -/
def intactDisk (hintact : Intact sb d₀) (hroot : G (dinodeAt sb d₀ ROOTINO)) :
    Discipline sb InTrans where
  H := Quiet sb (Along d₀) G
  Fit ip s := G (dinodeAt sb s.disk (s.inode ip).inum)
  holding h := h.toHolding
  fit h hpos := h.good _ hpos
  adopt h hfit := h.adopt hfit
  disown h := h.disown
  wp_beginOp h := h.wp_beginOp
  wp_endOp h := h.wp_endOp
  wp_idup h hpos := wp_mono (h.wp_idup (h.toHolding.ref_pos_of_base hpos))
    fun _ _ hs => ⟨hs.1, hs.2.1, by rw [hs.2.2.1, hs.2.2.2]; exact h.good _ hpos⟩
  wp_iput h := h.wp_iput
  wp_ilock h := h.wp_ilock
  wp_readi off n h := h.wp_readi hintact.sealed _ off n
  wp_iunlockput h := h.wp_iunlockput
  wp_namei path h hcwd := wp_mono (h.wp_namei hintact.sealed
    (fun c hc => h.toHolding.ref_pos_of_base (hcwd c hc)) path) fun r _ hs => by cases r <;> exact hs
  wp_blocktest h := Quiet.wp_blocktest hintact h
  wp_root h := (wp_namei_root _).mpr (wp_mono (h.wp_iget (hintact.sealed.tree _ h.disk).root)
    fun ip _ hs => ⟨ip, rfl, hs.1, by
      rw [hs.2.1, hs.2.2, hintact.sealed.same _ _ h.disk (Or.inl rfl) _ hintact.tree.root.lt]
      exact hroot⟩)

end Discipline

/-! ### Runs -/

section Runs

variable {img : Image} {sb : Superblock} {k k₀ : Kernel}

theorem Start.entry (h : Start sb k) {j : Nat} (hj : 0 < (k.fs.inode j).ref) :
    (k.fs.inode j).inum = ROOTINO ∧
      ((k.fs.inode j).valid = true → (k.fs.inode j).copy = dinodeAt sb k.fs.disk ROOTINO) := by
  cases h with
  | fresh h => exact absurd (h.inode j).1 (Nat.ne_of_gt hj)
  | @started p ip h =>
    have hji : j = ip := by
      by_contra hne
      exact absurd (h.unused j hne) (Nat.ne_of_gt hj)
    rw [hji]
    exact ⟨h.root.2.1, h.copy⟩

theorem Start.quiet {G : Dinode → Prop} (h : Start sb k) (hintact : Intact sb k.fs.disk)
    (hroot : G (dinodeAt sb k.fs.disk ROOTINO)) :
    Quiet sb (Along k.fs.disk) G (occupants k) [] none k.fs := by
  refine ⟨h.holding, ⟨Or.inl rfl, fun j hj => ?_, fun j hj hv => ?_⟩, nofun, fun j hj => ?_⟩
  · rw [(h.entry hj).1]
    exact hintact.tree.root
  · rw [(h.entry hj).1]
    exact (h.entry hj).2 hv
  · have hpos : 0 < (k.fs.inode j).ref := by
      rw [h.holding.ref j]
      omega
    rw [(h.entry hpos).1]
    exact hroot

/-- A `chdir` that finds something finds a directory. -/
def chdirFindsDir (sb : Superblock) (k : Kernel) : Syscall → Bool
  | .op (.chdir p path) =>
    match namei sb (k.proc p).cwd path k.fs with
    | .ok (some ip, s) => decide ((dinodeAt sb s.disk (s.inode ip).inum).type = T_DIR)
    | _ => true
  | _ => true

theorem chdirFits_of_findsDir {d₀ : Disk} (hintact : Intact sb d₀)
    (hroot : (dinodeAt sb d₀ ROOTINO).type = T_DIR) {c : Syscall}
    (h : chdirFindsDir sb k c = true) :
    ChdirFits (intactDisk (G := fun x => x.type = T_DIR) hintact hroot) k c := by
  cases c with
  | blocktest => trivial
  | op o =>
    cases o with
    | chdir p path =>
      intro ip s hs
      simp only [chdirFindsDir, hs, decide_eq_true_eq] at h
      exact h
    | _ => trivial

/-- **Current directories are directories**, in every state of every run in which each `chdir`
    that finds something finds a directory. -/
theorem cwd_is_directory (hintact : Intact sb k₀.fs.disk)
    (hroot : (dinodeAt sb k₀.fs.disk ROOTINO).type = T_DIR) (h₀ : Start sb k₀)
    (hk : Reachable k₀ (stepCall img sb)
      (fun k c => allowedCall k c = true ∧ chdirFindsDir sb k c = true) k) :
    k.first = false → ∀ p < NPROC, (k.proc p).Live → ∃ ip < NINODE, (k.proc p).cwd = some ip ∧
      1 ≤ (k.fs.inode ip).ref ∧ (dinodeAt sb k.fs.disk (k.fs.inode ip).inum).type = T_DIR := by
  have h : Balanced (intactDisk (G := fun x => x.type = T_DIR) hintact hroot) k :=
    hk.invariant (h₀.balanced (h₀.quiet hintact hroot)) fun _ hI hok hstep =>
      stepCall_balanced hI hok.1 (chdirFits_of_findsDir hintact hroot hok.2) hstep
  intro hfirst p hp hlive
  obtain ⟨ip, hip⟩ := Option.ne_none_iff_exists'.mp (h.settled hfirst p hp hlive)
  have hquiet : Quiet sb (Along k₀.fs.disk) (fun x => x.type = T_DIR) (occupants k) [] none k.fs :=
    h.files
  have hpos := occupants_pos hp hip
  have href : 1 ≤ (k.fs.inode ip).ref := by
    rw [hquiet.ref ip]
    omega
  exact ⟨ip, hquiet.lt ip href, hip, href, hquiet.good ip hpos⟩

end Runs

/-! ### A file as a current directory -/

section Example

set_option maxRecDepth 8000 in
theorem initDisk_live : ∀ i < Mkfs.sb.ninodes,
    (dinodeAt Mkfs.sb initDisk i).type ≠ 0 → i = ROOTINO ∨ i = 2 := by
  decide

set_option maxRecDepth 8000 in
theorem tested_initDisk : tested initDisk = initDisk := by
  have hend : initDisk 47 (BSIZE - 1) = 0 := by decide
  have hnone : emptyLine (initDisk 47) = none := by decide
  rw [tested, blankTail_eq_self hend hnone, update_eq_self]

set_option maxRecDepth 8000 in
theorem initDisk_tree : Tree Mkfs.sb initDisk := by
  have hsize : (dinodeAt Mkfs.sb initDisk ROOTINO).size = 16 := by decide
  have hroot : ∀ i, Linked Mkfs.sb initDisk i → (dinodeAt Mkfs.sb initDisk i).type = T_DIR →
      i = ROOTINO := by
    intro i hi hdir
    rcases initDisk_live i hi.lt hi.live with hi' | rfl
    · exact hi'
    · exact absurd hdir (by decide)
  refine ⟨⟨by decide, by decide, by decide⟩, fun i hi hdir => ?_,
    fun i hi hdir k hk _ => ?_⟩ <;> obtain rfl := hroot i hi hdir
  · rw [hsize]
    rfl
  · rw [hsize] at hk
    obtain rfl : k = 0 := by
      have : k < 1 := hk
      omega
    have hinum : direntInum (direntAt (dinodeAt Mkfs.sb initDisk ROOTINO) initDisk 0) = 2 := by
      decide
    rw [hinum]
    exact ⟨by decide, by decide, by decide⟩

theorem initDisk_noHole : NoHole Mkfs.sb initDisk := by
  intro i hi hlive bn hbn
  have hzero : ∀ i, (dinodeAt Mkfs.sb initDisk i).size.toNat ≤ BSIZE →
      bn * BSIZE < (dinodeAt Mkfs.sb initDisk i).size.toNat → bn = 0 := fun i hle hlt => by
    rw [show BSIZE = 1024 from rfl] at hle hlt
    omega
  rcases initDisk_live i hi hlive with rfl | rfl
  · obtain rfl := hzero _ (by decide) hbn
    decide
  · obtain rfl := hzero _ (by decide) hbn
    decide

theorem initDisk_intact : Intact Mkfs.sb initDisk := by
  refine ⟨initDisk_tree, initDisk_noHole, ?_, ?_, ?_⟩ <;> rw [tested_initDisk]
  · exact initDisk_tree
  · exact initDisk_noHole
  · exact fun _ _ => rfl

/-- The process has a child, and goes to the root directory that it is in. -/
def staysCalls : List Syscall := [.op (.kfork 0), .op (.chdir 0 [slash])]

theorem staysCalls_run : (run (stepCall smallImage Mkfs.sb)
    (fun k c => decide (allowedCall k c = true ∧ chdirFindsDir Mkfs.sb k c = true)) initKernel
    staysCalls).isSome = true := by
  decide +kernel

def staysState : Kernel := finalState (stepCall smallImage Mkfs.sb)
  (fun k c => decide (allowedCall k c = true ∧ chdirFindsDir Mkfs.sb k c = true)) initKernel
  staysCalls

theorem cwd_is_directory_staysState : staysState.first = false ∧ ∀ p < NPROC,
    (staysState.proc p).Live → ∃ ip < NINODE, (staysState.proc p).cwd = some ip ∧
      1 ≤ (staysState.fs.inode ip).ref ∧
      (dinodeAt Mkfs.sb staysState.fs.disk (staysState.fs.inode ip).inum).type = T_DIR := by
  have hfirst : staysState.first = false := by decide +kernel
  exact ⟨hfirst, cwd_is_directory initDisk_intact (by decide) (.started initKernel_started)
    ((reachable_finalState staysCalls_run).mono fun _ _ hok => of_decide_eq_true hok) hfirst⟩

/-- **A process whose current directory is a file**: `chdir("init")` succeeds. -/
theorem chdir_to_file : Started Mkfs.sb 0 0 initKernel ∧ Intact Mkfs.sb initKernel.fs.disk ∧
    Reachable initKernel (stepCall smallImage Mkfs.sb) (fun k c => allowedCall k c = true)
      initState ∧
    initState.first = false ∧ (initState.proc 0).Live ∧ (initState.proc 0).cwd = some 1 ∧
    (dinodeAt Mkfs.sb initState.fs.disk (initState.fs.inode 1).inum).type ≠ T_DIR :=
  ⟨initKernel_started, initDisk_intact, reachable_finalState initCalls_run, by decide +kernel,
    by decide +kernel, by decide +kernel, by decide +kernel⟩

end Example

end Xv6.Process
