import Xv6.Process.System
import Xv6.Fs.Lookup

/-!
# `kexec` is all or nothing

On an intact file system `kexec` does not panic, whatever the file contains, and when it
fails nothing is different.
-/

namespace Xv6.Process

open ByteView Hoare Ledger Vm Fs Transition

/-- What `kexec` needs of the file system: consistent block ownership and no holes, intact
    directories, and room in `itable`. -/
structure Usable (sb : Superblock) (first : Nat) (s : Fs.State) (cwd : Option Nat) : Prop where
  consistent : Consistent sb first s
  tree : Tree sb s.disk
  room : Room s
  cwd : ∃ c, cwd = some c ∧ Cwd sb s c

/-- The file system as it was: the same blocks, references and locks, and the operation
    ended. -/
structure AsBefore (s₀ s : Fs.State) : Prop where
  disk : s.disk = s₀.disk
  ref : ∀ j, (s.inode j).ref = (s₀.inode j).ref
  inum : ∀ j, 0 < (s₀.inode j).ref → (s.inode j).inum = (s₀.inode j).inum
  lock : ∀ j, (s.inode j).lock = (s₀.inode j).lock
  outstanding : s.log.outstanding = s₀.log.outstanding
  committing : s.log.committing = false

section Files

variable {sb : Superblock} {first : Nat} {s₀ s : Fs.State} {l : Log.LogState}

def begun (s₀ : Fs.State) (l : Log.LogState) : Fs.State := { s₀ with log := l }

theorem wp_beginOp_eq :
    wp beginOp Waits (fun _ s => ∃ l, Log.beginOp s₀.log = some l ∧ s = begun s₀ l) s₀ := by
  simp only [beginOp, wp_bind, wp_get]
  split
  · exact rfl
  · rename_i l hl
    exact ⟨l, hl, rfl⟩

theorem wp_endOp_eq (hl : Log.beginOp s₀.log = some l) (h : Released sb first (begun s₀ l) s) :
    wp endOp Waits (fun _ => AsBefore s₀) s := by
  have hlog : s.log = l := h.log
  have hbegin : l.committing = false ∧ l.outstanding = s₀.log.outstanding + 1 := by
    unfold Log.beginOp at hl
    split at hl
    · cases hl
    split at hl
    · cases hl
    · rename_i hcommitting _
      cases hl
      exact ⟨by simpa using hcommitting, rfl⟩
  obtain ⟨hcommitting, hout⟩ := hbegin
  have hafter : ∀ l', l'.outstanding = s₀.log.outstanding → l'.committing = false →
      AsBefore s₀ { s with log := l' } := fun l' ho hc =>
    ⟨h.disk, h.ref, h.inum, fun j => (h.lock j).trans (Bool.or_false _), ho, hc⟩
  simp only [endOp, wp_bind, wp_get, hlog, Log.endOp, hcommitting]
  rw [if_neg (by simp)]
  have hzero : l.outstanding - 1 = s₀.log.outstanding := by omega
  split
  · rename_i heq
    split at heq <;> cases heq
  · rename_i heq
    split at heq
    · cases heq
      exact hafter _ hzero rfl
    · cases heq
  · rename_i heq
    split at heq
    · cases heq
    · cases heq
      exact hafter _ hzero rfl

/-- The calls of `kexec` on an intact file system. -/
def intactFileCalls {cwd : Nat} (hcons : Consistent sb first s₀) (htree : Tree sb s₀.disk)
    (hroom : Room s₀) (hcwd : Cwd sb s₀ cwd) (path : List UInt8) :
    FileCalls sb Waits (some cwd) path where
  start s := s = s₀
  opened s := ∃ l, Log.beginOp s₀.log = some l ∧ s = begun s₀ l
  found ip s := ∃ l, Log.beginOp s₀.log = some l ∧ Held sb first (begun s₀ l) ip false s
  locked ip s := ∃ l, Log.beginOp s₀.log = some l ∧ Held sb first (begun s₀ l) ip true s
  released s := ∃ l, Log.beginOp s₀.log = some l ∧ Released sb first (begun s₀ l) s
  finished s := AsBefore s₀ s
  wp_beginOp s hs := hs ▸ wp_beginOp_eq
  wp_namei s := by
    rintro ⟨l, hl, rfl⟩
    have hcwd' : Cwd sb (begun s₀ l) cwd := ⟨hcwd.lt, hcwd.ref, hcwd.inum_lt, hcwd.live⟩
    have htree' : Tree sb (begun s₀ l).disk := htree
    refine wp_mono (wp_namei htree' hroom hcwd' (hcons.setLog l) path)
      fun r s' hs' => ?_
    cases r with
    | none => exact ⟨l, hl, hs'⟩
    | some ip => exact ⟨l, hl, hs'⟩
  wp_ilock ip s := fun ⟨l, hl, h⟩ => wp_mono (h.wp_ilock fun _ => rfl) fun _ _ h' => ⟨l, hl, h'.1⟩
  wp_readi ip s off n := fun ⟨l, hl, h⟩ =>
    wp_mono (wp_readi _ off n (h.consistent.dense h.ready)) fun _ _ h' => ⟨l, hl, h'.1 ▸ h⟩
  wp_iunlockput ip s := fun ⟨l, hl, h⟩ => wp_mono h.wp_iunlockput fun _ _ h' => ⟨l, hl, h'⟩
  wp_endOp s := fun ⟨l, hl, h⟩ => wp_endOp_eq hl h

end Files

/-- Nothing that a process has is different, and neither is the file system or the set of free
    pages. -/
structure Unchanged (k k' : Kernel) : Prop where
  proc : k'.proc = k.proc
  leaf : ∀ p, k.InUse p → ∀ v < VPAGES, k'.leaf p v = k.leaf p v
  contents : ∀ p, k.InUse p → ∀ v < VPAGES, ∀ e, k.leaf p v = some e →
    k'.mem.page (PTE2PA e) = k.mem.page (PTE2PA e)
  trapframe : ∀ p, k.InUse p → k'.mem.page (k.proc p).trapframe = k.mem.page (k.proc p).trapframe
  freelist : k'.mem.freelist.Perm k.mem.freelist
  files : AsBefore k.fs k'.fs

section Kexec

variable {img : Image} {boot : List Nat} {k k₀ : Kernel} {p : Nat} {sb : Superblock} {first : Nat}

theorem Restored.freelist (h₀ : Sound img boot k₀) (h : Restored img boot k₀ k) :
    k.mem.freelist.Perm k₀.mem.freelist := by
  have hown : ∀ s, own k₀.root k₀.tf k.mem s = own k₀.root k₀.tf k₀.mem s := fun s => by
    by_cases hs : s.Of none
    · rw [own_root_none rfl hs, own_root_none rfl hs]
    · exact h.frame.own hs
  refine (List.perm_ext_iff_of_nodup h.pages.nodup h₀.pages.nodup).mpr fun pa => ?_
  have hiff : Allocatable img pa → (pa ∈ k.mem.freelist ↔ pa ∈ k₀.mem.freelist) := fun hpa => by
    rw [h.pages.exact.free_iff pa hpa, h₀.pages.exact.free_iff pa hpa]
    simp only [hown]
  exact ⟨fun hmem => (hiff (h.pages.free pa hmem)).mp hmem,
    fun hmem => (hiff (h₀.pages.free pa hmem)).mpr hmem⟩

/-- What a process maps is not touched while another address space is built. -/
theorem Restored.contents (h₀ : Sound img boot k₀) (h : Restored img boot k₀ k)
    (huse : k₀.InUse p) {v e : Nat} (hv : v < VPAGES) (hleaf : k₀.leaf p v = some e) :
    k.mem.page (PTE2PA e) = k₀.mem.page (PTE2PA e) := by
  obtain ⟨hroot, htf, hspace⟩ := h₀.alive huse.1 huse.2
  have halloc : Allocatable img (k₀.proc p).trapframe := h₀.pages.exact.owned (.trapframe p) _ htf
  refine h.frame _ ?_
  by_cases huser : v < UPAGES
  · refine Or.inl ⟨.page (some p) v, Option.some_ne_none p, ?_⟩
    rw [own_page huser, hroot]
    exact congrArg (Option.map PTE2PA) hleaf
  by_cases htrap : v = UPAGES
  · subst htrap
    obtain rfl := Option.some.inj (hleaf.symm.trans hspace.trapframe)
    rw [PTE2PA_entry halloc.1 halloc.lt (by decide)]
    exact Or.inl ⟨.trapframe p, not_false, htf⟩
  by_cases htramp : v = UPAGES + 1
  · subst htramp
    obtain rfl := Option.some.inj (hleaf.symm.trans hspace.trampoline)
    rw [PTE2PA_entry img.trampoline_aligned img.trampoline_lt_pow (by decide)]
    refine Or.inr (Or.inr fun hpa => ?_)
    have hend := hpa.2.1
    have hlt := img.trampoline_lt
    have hpos : 0 < PGSIZE := by decide
    omega
  · have hnone := hspace.upper v (by omega) hv
    exact absurd (hleaf.symm.trans hnone) (by simp)

theorem Restored.unchanged (h₀ : Sound img boot k₀) (h : Restored img boot k₀ k)
    (hfs : AsBefore k₀.fs k.fs) : Unchanged k₀ k := by
  refine ⟨h.proc, fun p huse v _ => ?_, fun p huse v hv e hleaf => h.contents h₀ huse hv hleaf,
    fun p huse => ?_, h.freelist h₀, hfs⟩
  · have hleaf := h.frame.leaf (show some p ≠ none by simp) v
    rw [(h₀.alive huse.1 huse.2).1] at hleaf
    unfold Kernel.leaf
    rw [h.proc]
    exact hleaf
  · exact h.frame _ (Or.inl ⟨.trapframe p, not_false, (h₀.alive huse.1 huse.2).2.1⟩)

end Kexec

/-! ### An empty root directory, and a full table -/

section Example

/-- The root directory is made, and stays in use. -/
def rootOps : List Fs.Op :=
  [.beginOp, .ialloc T_DIR, .ilock 0, .iupdate 0 0 0 1, .iunlock 0, .endOp]

def rootFiles : Fs.State := rootOps.foldl Fs.after Fs.boot

/-- The first process runs in the root directory. -/
def rootKernel : Kernel :=
  (smallState.setFs rootFiles).setProc 0 (((smallState.setFs rootFiles).proc 0).setCwd (some 0))

theorem rootFiles_consistent : Consistent Mkfs.sb Mkfs.nmeta rootFiles := by
  have h₁ := boot_consistent.after .beginOp trivial (by decide)
  have h₂ := h₁.after (.ialloc T_DIR) trivial (by decide)
  have h₃ := h₂.after (.ilock 0) ⟨by decide, by decide⟩ (by decide)
  have h₄ := h₃.after (.iupdate 0 0 0 1) ⟨by decide, by decide, by decide⟩
    (by decide)
  have h₅ := h₄.after (.iunlock 0) (by decide : 0 < NINODE) (by decide)
  exact h₅.after .endOp trivial (by decide)

set_option maxRecDepth 8000 in
theorem rootFiles_live : ∀ i < Mkfs.sb.ninodes,
    (dinodeAt Mkfs.sb rootFiles.disk i).type ≠ 0 → i = ROOTINO := by
  decide

theorem rootFiles_tree : Tree Mkfs.sb rootFiles.disk := by
  have hsize : (dinodeAt Mkfs.sb rootFiles.disk ROOTINO).size = 0 := by decide
  refine ⟨⟨by decide, by decide, by decide⟩, fun i hi _ => ?_, fun i hi _ k hk => ?_⟩
  · rw [rootFiles_live i hi.lt hi.live, hsize]
    rfl
  · rw [rootFiles_live i hi.lt hi.live, hsize] at hk
    exact absurd hk (by simp [direntCount, DIRENTSIZE])

theorem rootFiles_usable : Usable Mkfs.sb Mkfs.nmeta rootFiles (some 0) :=
  ⟨rootFiles_consistent, rootFiles_tree,
    ⟨1, by decide, 2, by decide, by decide, by decide +kernel, by decide +kernel⟩,
    0, rfl, by decide, by decide +kernel, by decide +kernel, by decide +kernel⟩

theorem rootKernel_sound : Sound smallImage [] rootKernel :=
  (smallState_sound.setFs rootFiles).setCwd 0 (some 0)

theorem rootKernel_inUse : rootKernel.InUse 0 := ⟨by decide, by decide +kernel⟩

/-- Fifty inodes are in use, each the current directory of a process: `chdir` does not ask
    whether it is given a directory. -/
def fullFiles : Fs.State :=
  { Fs.boot with inode := fun i => ⟨i + 2, 1, false, false, Dinode.zero⟩ }

theorem fullFiles_consistent : Consistent Mkfs.sb Mkfs.nmeta fullFiles :=
  ⟨boot_wellFormed, boot_noHole, fun i _ j _ _ _ heq => Nat.add_right_cancel heq,
    fun _ hr => absurd hr.valid (by simp [fullFiles]),
    fun _ hr => absurd hr.valid (by simp [fullFiles]),
    fun _ hr => absurd hr.valid (by simp [fullFiles])⟩

end Example

end Xv6.Process
