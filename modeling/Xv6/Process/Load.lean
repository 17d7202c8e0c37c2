import Xv6.Process.Lifecycle

/-!
# `kexec` builds an address space beside the old one

Until it commits, `kexec` has a page table that belongs to no process.  What it needs of the
file system is a protocol for its calls, so that it can be specified with any knowledge of
the file system, or with none.
-/

namespace Xv6.Process

open ByteView Hoare Ledger Vm Fs Function

/-- What the calls that `kexec` makes to the file system keep, from one to the next. -/
structure FileCalls (sb : Superblock) (E : Fs.Stop → Prop) (cwd : Option Nat)
    (path : List UInt8) where
  start : Fs.State → Prop
  opened : Fs.State → Prop
  found : Nat → Fs.State → Prop
  locked : Nat → Fs.State → Prop
  released : Fs.State → Prop
  finished : Fs.State → Prop
  wp_beginOp : ∀ s, start s → wp beginOp E (fun _ => opened) s
  wp_namei : ∀ s, opened s → wp (namei sb cwd path) E (fun r s' => match r with
    | none => released s'
    | some ip => found ip s') s
  wp_ilock : ∀ ip s, found ip s → wp (ilock sb ip) E (fun _ => locked ip) s
  wp_readi : ∀ ip s off n, locked ip s →
    wp (readi sb ip (fun _ => false) off n) E (fun _ => locked ip) s
  wp_iunlockput : ∀ ip s, locked ip s → wp (iunlockput sb ip) E (fun _ => released) s
  wp_endOp : ∀ s, released s → wp endOp E (fun _ => finished) s

def anyFileCalls (sb : Superblock) (cwd : Option Nat) (path : List UInt8) :
    FileCalls sb (fun _ => True) cwd path where
  start _ := True
  opened _ := True
  found _ _ := True
  locked _ _ := True
  released _ := True
  finished _ := True
  wp_beginOp _ _ := wp_any fun _ => trivial
  wp_namei _ _ := wp_mono (wp_any fun _ => trivial) fun r _ _ => by cases r <;> trivial
  wp_ilock _ _ _ := wp_any fun _ => trivial
  wp_readi _ _ _ _ _ := wp_any fun _ => trivial
  wp_iunlockput _ _ _ := wp_any fun _ => trivial
  wp_endOp _ _ := wp_any fun _ => trivial

/-- From `k₀` on an address space has been built at `pagetable`, and nothing that a process
    has is different. -/
structure Built (img : Image) (boot : List Nat) (trapframe : Nat) (k₀ : Kernel)
    (pagetable sz : Nat) (k : Kernel) : Prop where
  proc : k.proc = k₀.proc
  frame : Frame img k₀.root k₀.tf none boot k₀.mem k.mem
  pages : Pages img (update k₀.root none (some pagetable)) k₀.tf k.mem boot
  space : AddressSpace img k.mem (some pagetable) trapframe sz

def UserAll (m : Mem) (r : Option Nat) (n : Nat) : Prop :=
  ∀ v < n, ∃ e, m.leaf r v = some e ∧ e &&& PTE_U ≠ 0

/-- Nothing that a process has is different from what it was in `k₀`. -/
structure Restored (img : Image) (boot : List Nat) (k₀ k : Kernel) : Prop where
  proc : k.proc = k₀.proc
  frame : Frame img k₀.root k₀.tf none boot k₀.mem k.mem
  pages : Pages img k₀.root k₀.tf k.mem boot

section Building

variable {img : Image} {boot : List Nat} {k₀ k : Kernel} {trapframe pagetable sz : Nat} {m : Mem}

theorem root_congr {k k' : Kernel} (h : k'.proc = k.proc) : k'.root = k.root := by
  funext o
  cases o with
  | none => rfl
  | some p => simp only [Kernel.root, h]

theorem tf_congr {k k' : Kernel} (h : k'.proc = k.proc) : k'.tf = k.tf := by
  funext p
  simp only [Kernel.tf, h]

theorem Restored.sound (h₀ : Sound img boot k₀) (h : Restored img boot k₀ k) :
    Sound img boot k := by
  refine h₀.change NPROC ?_ (fun q _ => by rw [h.proc]) (fun q _ => h.frame.leaf (by simp))
    fun hlt => absurd hlt (Nat.lt_irrefl _)
  rw [root_congr h.proc, tf_congr h.proc]
  exact h.pages

theorem Built.setFs (h : Built img boot trapframe k₀ pagetable sz k) (s : Fs.State) :
    Built img boot trapframe k₀ pagetable sz (k.setFs s) :=
  ⟨h.proc, h.frame, h.pages, h.space⟩

theorem Built.root (pagetable : Nat) (k₀ : Kernel) :
    update k₀.root none (some pagetable) none = some pagetable :=
  update_self ..

theorem Built.setMem {sz' : Nat} (h : Built img boot trapframe k₀ pagetable sz k)
    (hframe : Frame img (update k₀.root none (some pagetable)) k₀.tf none boot k.mem m)
    (hpages : Pages img (update k₀.root none (some pagetable)) k₀.tf m boot)
    (hspace : AddressSpace img m (some pagetable) trapframe sz') :
    Built img boot trapframe k₀ pagetable sz' (k.setMem m) :=
  ⟨h.proc, h.frame.trans hframe.of_update_root, hpages, hspace⟩

theorem Built.keep (h : Built img boot trapframe k₀ pagetable sz k)
    (hframe : Frame img (update k₀.root none (some pagetable)) k₀.tf none boot k.mem m)
    (hpages : Pages img (update k₀.root none (some pagetable)) k₀.tf m boot)
    (hleaf : ∀ w < VPAGES, m.leaf (some pagetable) w = k.mem.leaf (some pagetable) w) :
    Built img boot trapframe k₀ pagetable sz (k.setMem m) :=
  h.setMem hframe hpages (h.space.congr hleaf)

theorem Built.extend {newsz perm : Nat} (h : Built img boot trapframe k₀ pagetable sz k)
    (hframe : Frame img (update k₀.root none (some pagetable)) k₀.tf none boot k.mem m)
    (hpages : Pages img (update k₀.root none (some pagetable)) k₀.tf m boot)
    (hle : sz ≤ newsz) (hnew : newsz ≤ TRAPFRAME)
    (hext : Extended k.mem m (some pagetable) (npages sz) (npages newsz) perm) :
    Built img boot trapframe k₀ pagetable newsz (k.setMem m) := by
  have hT : TRAPFRAME = (2 ^ 26 - 2) * 4096 := rfl
  have hU : UPAGES = 2 ^ 26 - 2 := rfl
  have hn := npages_eq newsz (by omega)
  refine h.setMem hframe hpages (h.space.resize hnew
    (hext.mapped h.space.mapped (npages_le_of_le (by omega) hle)) fun w hw hwV => ?_)
  exact (hext w hwV).2 (by omega)

theorem Built.npages_le (h : Built img boot trapframe k₀ pagetable sz k) : npages sz ≤ NPAGES := by
  have hT : TRAPFRAME = (2 ^ 26 - 2) * 4096 := rfl
  have hU : UPAGES = 2 ^ 26 - 2 := rfl
  have hsz := h.space.size
  have hn := npages_eq sz (by omega)
  refine h.pages.mapped_le (o := none) (by omega) fun w hw => ?_
  rw [Built.root]
  exact (h.space.mapped w (by omega)).mpr hw

theorem entry_user {pa xperm : Nat} : (PA2PTE pa ||| (PTE_R ||| PTE_U ||| xperm) ||| PTE_V) &&& PTE_U ≠ 0 := by
  intro hzero
  have hbit := congrArg (Nat.testBit · 4) hzero
  have huser : PTE_U.testBit 4 = true := by decide
  simp [Nat.testBit_and, Nat.testBit_or, huser] at hbit

theorem UserAll.extend {m' : Mem} {r : Option Nat} {n n' xperm : Nat} (h : UserAll m r n)
    (hn' : n' ≤ VPAGES) (hext : Extended m m' r n n' (PTE_R ||| PTE_U ||| xperm)) :
    UserAll m' r n' := by
  intro v hv
  obtain ⟨hnew, hold⟩ := hext v (by omega)
  by_cases hin : n ≤ v ∧ v < n'
  · obtain ⟨pa, hpa⟩ := hnew hin
    exact ⟨_, hpa, entry_user⟩
  · rw [hold hin]
    exact h v (by omega)

theorem Built.own_userPage (h : Built img boot trapframe k₀ pagetable sz k)
    (huser : UserAll k.mem (some pagetable) (npages sz)) {va : Nat} (hva : va < sz) :
    userPage k.mem (some pagetable) va ≠ 0 ∧
      own (update k₀.root none (some pagetable)) k₀.tf k.mem
        (.page none (va / PGSIZE)) = some (userPage k.mem (some pagetable) va) := by
  have hT : TRAPFRAME = (2 ^ 26 - 2) * 4096 := rfl
  have hU : UPAGES = 2 ^ 26 - 2 := rfl
  have hP : PGSIZE = 4096 := rfl
  have hM : MAXVA = 2 ^ 38 := rfl
  have hsz := h.space.size
  have hn := npages_eq sz (by omega)
  obtain ⟨e, he, hbit⟩ := huser (va / PGSIZE) (by rw [hP]; omega)
  have hpage : userPage k.mem (some pagetable) va = PTE2PA e := by
    unfold userPage
    rw [if_pos (by omega), he]
    exact if_neg hbit
  have hown : own (update k₀.root none (some pagetable)) k₀.tf k.mem
      (.page none (va / PGSIZE)) = some (PTE2PA e) := by
    rw [own_page (by rw [hP]; omega), Built.root, he, Option.map_some]
  rw [hpage]
  exact ⟨(h.pages.exact.owned _ _ hown).ne_zero, hown⟩

end Building

/-! ### Loading the program -/

section Loading

variable {img : Image} {boot : List Nat} {k₀ k : Kernel} {trapframe pagetable size ip : Nat}
  {sb : Superblock} {E : Stop → Prop} {Ef : Fs.Stop → Prop} {cwd : Option Nat} {path : List UInt8}

/-- The new address space with `size` bytes of user memory, all open to the user, and the
    program file locked. -/
structure Loading (img : Image) (boot : List Nat) (trapframe : Nat) (k₀ : Kernel)
    (P : FileCalls sb Ef cwd path) (ip pagetable size : Nat) (k : Kernel) : Prop
    extends Built img boot trapframe k₀ pagetable size k where
  user : UserAll k.mem (some pagetable) (npages size)
  file : P.locked ip k.fs

variable {P : FileCalls sb Ef cwd path}

theorem Loading.write (h : Loading img boot trapframe k₀ P ip pagetable size k) {va : Nat}
    (hva : va < size) (b : Bytes) : Loading img boot trapframe k₀ P ip pagetable size
      (k.setMem (k.mem.setPage (userPage k.mem (some pagetable) va) b)) := by
  obtain ⟨hpages, hkeeps⟩ := h.pages.setMapped b (h.own_userPage h.user hva).2
  have hleaf : ∀ w, (k.mem.setPage (userPage k.mem (some pagetable) va) b).leaf
      (some pagetable) w = k.mem.leaf (some pagetable) w := fun w => by
    have := hkeeps.leaf none w
    rwa [Built.root] at this
  refine ⟨h.toBuilt.keep hkeeps.frame hpages fun w _ => hleaf w, fun v hv => ?_, h.file⟩
  rw [setMem_mem, hleaf]
  exact h.user v hv

theorem wp_loadseg (hE : ∀ e, Ef e → E (.fs e))
    (h : Loading img boot trapframe k₀ P ip pagetable size k) {va : Nat} {offset sz : UInt32}
    (hva : va + sz.toNat ≤ size) :
    wp (loadseg sb pagetable va ip offset sz) E
      (fun _ k' => Loading img boot trapframe k₀ P ip pagetable size k') k := by
  have hP : PGSIZE = 4096 := rfl
  have hT : TRAPFRAME = (2 ^ 26 - 2) * 4096 := rfl
  have hsize := h.space.size
  have hn := npages_eq size (by omega)
  have hphys := h.npages_le
  rw [show NPAGES = 32768 from rfl] at hphys
  unfold loadseg
  rw [wp_bind]
  refine wp_loop (I := fun v k' => Loading img boot trapframe k₀ P ip pagetable size k')
    (fun v => sz.toNat / PGSIZE + 1 - v.i.toNat / PGSIZE) h
    (Nat.lt_of_le_of_lt (Nat.sub_le _ _) (Nat.lt_succ_self _)) ?_
  rintro ⟨i, failed⟩ k' h'
  unfold loadBody
  dsimp only
  split
  · rename_i hi
    rw [UInt32.lt_iff_toNat_lt] at hi
    have haddr : u64 (va + i.toNat) = va + i.toNat := by
      unfold u64
      omega
    have hlt : va + i.toNat < size := by omega
    rw [haddr]
    simp only [wp_bind, wp_vm]
    refine wp_mono (wp_walkaddr _) ?_
    rintro pa m ⟨hm, hpa⟩
    subst hm
    rw [if_neg (hpa ▸ (h'.own_userPage h'.user hlt).1)]
    generalize (if sz - i < UInt32.ofNat PGSIZE then sz - i else UInt32.ofNat PGSIZE) = n
    simp only [wp_bind, wp_fs]
    refine wp_mono (wp_mono_error (P.wp_readi ip _ _ _ h'.file) hE) ?_
    rintro ⟨r, data⟩ s hs
    dsimp only
    simp only [wp_vm, wp_modify]
    have hread : Loading img boot trapframe k₀ P ip pagetable size (k'.setFs s) :=
      ⟨h'.toBuilt.setFs s, h'.user, hs⟩
    have hwrite := hread.write hlt (splice (k'.mem.page pa) 0 data.length fun k => data.getD k 0)
    rw [setFs_mem, ← hpa] at hwrite
    split
    · exact ⟨fun h => absurd h (by simp), fun _ => hwrite⟩
    · refine ⟨fun _ => ⟨hwrite, ?_⟩, fun h => absurd h (by simp)⟩
      have hnext : (i + UInt32.ofNat PGSIZE).toNat = i.toNat + PGSIZE := by
        rw [UInt32.toNat_add, UInt32.toNat_ofNat', hP]
        omega
      show sz.toNat / PGSIZE + 1 - (i + UInt32.ofNat PGSIZE).toNat / PGSIZE < _
      rw [hnext, hP]
      omega
  · exact ⟨fun h => absurd h (by simp), fun _ => h'⟩

theorem flags2perm_lt (flags : Nat) : flags2perm flags < 2 ^ 10 := by
  unfold flags2perm
  split <;> split <;> decide

theorem field_lt (hdr : List UInt8) (o : Nat) : field hdr o 8 < 2 ^ 64 := getLE_lt _ _ 8

/-- **`uvmalloc`** in the new address space, which then has the size returned, or is as before
    if that is 0. -/
theorem Loading.wp_uvmalloc (h : Loading img boot trapframe k₀ P ip pagetable size k)
    {newsz xperm : Nat} (hxperm : xperm < 2 ^ 10) {Ev : Vm.Panic → Prop} :
    wp (uvmalloc img pagetable size newsz xperm) Ev (fun r m =>
      (r = 0 ∧ Loading img boot trapframe k₀ P ip pagetable size (k.setMem m)) ∨
      (r ≠ 0 ∧ newsz ≤ r ∧ Loading img boot trapframe k₀ P ip pagetable r (k.setMem m))) k.mem := by
  have hT : TRAPFRAME = (2 ^ 26 - 2) * 4096 := rfl
  have hV : VPAGES = 2 ^ 27 := rfl
  have hmapped := h.space.mapped
  rw [← Built.root pagetable k₀] at hmapped
  refine wp_mono (Vm.wp_uvmalloc h.pages (Built.root pagetable k₀) hmapped h.space.size hxperm)
    fun r m ⟨hframe, hpages, hpost⟩ => ?_
  rw [Built.root] at hpost
  rcases hpost with ⟨hlt, rfl, rfl⟩ | ⟨rfl, hleaf⟩ | ⟨hle, hnew, rfl, hext⟩
  · exact Or.inr ⟨by omega, Nat.le_of_lt hlt, h⟩
  · refine Or.inl ⟨rfl, h.toBuilt.keep hframe hpages hleaf, fun v hv => ?_, h.file⟩
    have hsize := h.space.size
    have hn := npages_eq size (by omega)
    rw [setMem_mem, hleaf v (by omega)]
    exact h.user v hv
  · have hn := npages_eq r (by omega)
    have hloading : Loading img boot trapframe k₀ P ip pagetable r (k.setMem m) :=
      ⟨h.toBuilt.extend hframe hpages hle hnew hext, h.user.extend (by omega) hext, h.file⟩
    by_cases hzero : r = 0
    · subst hzero
      obtain rfl := Nat.le_zero.mp hle
      exact Or.inl ⟨rfl, hloading⟩
    · exact Or.inr ⟨hzero, Nat.le_refl r, hloading⟩

theorem segment_le {vaddr memsz filesz sz : Nat} (hv : vaddr < 2 ^ 64) (hm : memsz < 2 ^ 64)
    (hfile : ¬ memsz < filesz) (hwrap : ¬ u64 (vaddr + memsz) < vaddr)
    (hle : u64 (vaddr + memsz) ≤ sz) : vaddr + (UInt32.ofNat filesz).toNat ≤ sz := by
  have hmod := Nat.mod_le filesz (2 ^ 32)
  rw [UInt32.toNat_ofNat']
  unfold u64 at hwrap hle
  omega

/-- **The loop over the program headers**, whatever these are. -/
theorem wp_phLoop (hE : ∀ e, Ef e → E (.fs e))
    (h : Loading img boot trapframe k₀ P ip pagetable 0 k) (phnum : Nat) (off : UInt32) :
    wp (loop (phBody img sb pagetable ip phnum) (phnum + 1) ⟨0, off, 0, false⟩) E
      (fun v k' => Loading img boot trapframe k₀ P ip pagetable v.sz k') k := by
  refine wp_loop (I := fun v k' => Loading img boot trapframe k₀ P ip pagetable v.sz k')
    (fun v => phnum - v.i) h (Nat.lt_succ_self _) ?_
  rintro ⟨i, off, sz, failed⟩ k' h'
  unfold phBody
  dsimp only at h' ⊢
  -- a header that ends the loop
  have hstop : ∀ {v : PhVars} {k'' : Kernel},
      Loading img boot trapframe k₀ P ip pagetable v.sz k'' →
      wp (pure (v, false) : KM (PhVars × Bool)) E (fun r k' =>
        (r.2 = true → Loading img boot trapframe k₀ P ip pagetable r.1.sz k' ∧
          phnum - r.1.i < phnum - i) ∧
        (r.2 = false → Loading img boot trapframe k₀ P ip pagetable r.1.sz k')) k'' :=
    fun hv => ⟨fun h => absurd h (by simp), fun _ => hv⟩
  split
  swap
  · exact hstop h'
  rename_i hi
  rw [wp_bind, wp_fs]
  refine wp_mono (wp_mono_error (P.wp_readi ip _ _ _ h'.file) hE) fun ⟨n, hdr⟩ s hs => ?_
  have hread : Loading img boot trapframe k₀ P ip pagetable sz (k'.setFs s) :=
    ⟨h'.toBuilt.setFs s, h'.user, hs⟩
  dsimp only
  have hvaddr : (getProghdr hdr).vaddr < 2 ^ 64 := field_lt hdr 16
  have hmem : (getProghdr hdr).memsz < 2 ^ 64 := field_lt hdr 40
  generalize getProghdr hdr = ph at hvaddr hmem ⊢
  rw [wp_ite]
  refine ⟨fun _ => hstop hread, fun _ => ?_⟩
  rw [wp_ite]
  refine ⟨fun _ => ⟨fun _ => ⟨hread, by dsimp only; omega⟩, fun h => absurd h (by simp)⟩, fun _ => ?_⟩
  rw [wp_ite]
  refine ⟨fun _ => hstop hread, fun hmemsz => ?_⟩
  rw [wp_ite]
  refine ⟨fun _ => hstop hread, fun hwrap => ?_⟩
  rw [wp_ite]
  refine ⟨fun _ => hstop hread, fun _ => ?_⟩
  rw [wp_bind, wp_vm]
  refine wp_mono (hread.wp_uvmalloc (flags2perm_lt _)) fun sz1 m hpost => ?_
  rcases hpost with ⟨hzero, hloading⟩ | ⟨hne, hle, hloading⟩
  · rw [if_pos hzero]
    exact hstop hloading
  · rw [if_neg hne, wp_bind]
    refine wp_mono (wp_loadseg hE hloading (segment_le hvaddr hmem hmemsz hwrap hle))
      fun r k'' hk'' => ?_
    rw [wp_ite]
    exact ⟨fun _ => hstop hk'',
      fun _ => ⟨fun _ => ⟨hk'', by dsimp only; omega⟩, fun h => absurd h (by simp)⟩⟩

end Loading

/-! ### Failure -/

section Failure

variable {img : Image} {boot : List Nat} {k₀ k : Kernel} {trapframe pagetable sz ip : Nat}
  {sb : Superblock} {E : Stop → Prop} {Ef : Fs.Stop → Prop} {cwd : Option Nat} {path : List UInt8}
  {P : FileCalls sb Ef cwd path}

theorem Built.pagetable_ne_zero (h : Built img boot trapframe k₀ pagetable sz k) :
    pagetable ≠ 0 :=
  (h.pages.exact.owned (.table none []) pagetable (Built.root pagetable k₀)).ne_zero

theorem Built.wp_free (h : Built img boot trapframe k₀ pagetable sz k) :
    wp (when (pagetable ≠ 0) (vm (procFreepagetable img pagetable sz))) E
      (fun _ k' => Restored img boot k₀ k' ∧ k'.fs = k.fs) k := by
  rw [wp_when]
  refine ⟨fun _ => ?_, fun heq => absurd (not_not.mp heq) h.pagetable_ne_zero⟩
  have hspace := h.space
  rw [← Built.root pagetable k₀] at hspace
  rw [wp_vm]
  refine wp_mono (wp_procFreepagetable h.pages (Built.root pagetable k₀) hspace)
    fun _ m ⟨hframe, hpages⟩ => ⟨⟨h.proc, h.frame.trans hframe.of_update_root, ?_⟩, rfl⟩
  have hroot : update k₀.root none none = k₀.root := update_eq_self none k₀.root
  rwa [update_idem, hroot] at hpages

theorem Restored.wp_free (h : Restored img boot k₀ k) :
    wp (when (0 ≠ 0) (vm (procFreepagetable img 0 sz))) E
      (fun _ k' => Restored img boot k₀ k' ∧ k'.fs = k.fs) k := by
  rw [wp_when]
  exact ⟨fun hne => absurd rfl hne, fun _ => ⟨h, rfl⟩⟩

theorem wp_execBad_file (hE : ∀ e, Ef e → E (.fs e)) (hfile : P.locked ip k.fs)
    (hfree : wp (when (pagetable ≠ 0) (vm (procFreepagetable img pagetable sz))) E
      (fun _ k' => Restored img boot k₀ k' ∧ k'.fs = k.fs) k) :
    wp (execBad img sb pagetable sz (some ip)) E
      (fun r k' => r = -1 ∧ Restored img boot k₀ k' ∧ P.finished k'.fs) k := by
  unfold execBad
  rw [wp_bind]
  refine wp_mono hfree fun _ k₁ ⟨hrestored, hfs⟩ => ?_
  rw [← hfs] at hfile
  simp only [wp_bind, wp_fs]
  refine wp_mono (wp_mono_error (P.wp_iunlockput ip _ hfile) hE) fun _ s₂ hs₂ => ?_
  refine wp_mono (wp_mono_error (P.wp_endOp _ hs₂) hE) fun _ s₃ hs₃ => ?_
  exact ⟨rfl, ⟨hrestored.proc, hrestored.frame, hrestored.pages⟩, hs₃⟩

theorem wp_execBad_closed (h : Built img boot trapframe k₀ pagetable sz k)
    (hfinished : P.finished k.fs) :
    wp (execBad img sb pagetable sz none) E
      (fun r k' => r = -1 ∧ Restored img boot k₀ k' ∧ P.finished k'.fs) k := by
  unfold execBad
  rw [wp_bind]
  exact wp_mono h.wp_free fun _ k₁ ⟨hrestored, hfs⟩ => ⟨rfl, hrestored, hfs ▸ hfinished⟩

end Failure

/-! ### Commit -/

section Commit

variable {img : Image} {boot : List Nat} {k₀ k k' : Kernel} {p pagetable sz : Nat} {x : Proc}
  {R : Owner → Option Nat} {m : Mem} {E : Stop → Prop}

/-- While `kexec` commits, from memory `m` on: `x` is what `p` has become, and the mappings are
    the same. -/
structure Committing (img : Image) (boot : List Nat) (k₀ : Kernel) (p : Nat)
    (R : Owner → Option Nat) (m : Mem) (x : Proc) (k : Kernel) : Prop where
  self : k.proc p = x
  other : ∀ q, q ≠ p → k.proc q = k₀.proc q
  trapframe : x.trapframe = (k₀.proc p).trapframe
  pages : Pages img R k₀.tf k.mem boot
  leaf : ∀ o w, k.mem.leaf (R o) w = m.leaf (R o) w

theorem Committing.setProc (h : Committing img boot k₀ p R m x k) (f : Proc → Proc)
    (hf : (f x).trapframe = x.trapframe) :
    Committing img boot k₀ p R m (f x) (k.setProc p (f (k.proc p))) :=
  ⟨by rw [setProc_self, h.self], fun q hq => (setProc_ne hq).trans (h.other q hq),
    hf.trans h.trapframe, h.pages, h.leaf⟩

theorem Committing.wp_setTrapframe (h : Committing img boot k₀ p R m x k)
    (htf : k₀.tf p = some (k₀.proc p).trapframe) (f v : Nat) :
    wp (setTrapframe p f v) E (fun _ k' => Committing img boot k₀ p R m x k' ∧ k'.fs = k.fs ∧
      Held k.mem k'.mem (R none) (fun _ => True) ∧ k'.mem.page (k₀.proc p).trapframe =
        putLE (k.mem.page (k₀.proc p).trapframe) f 8 v) k := by
  simp only [setTrapframe, wp_bind, wp_get, wp_vm, wp_modify]
  rw [h.self, h.trapframe]
  obtain ⟨hpages, hleaf⟩ := h.pages.setPage
    (putLE (k.mem.page (k₀.proc p).trapframe) f 8 v) fun o path htable => by
      have honce := h.pages.exact.once (.table o path) (.trapframe p) _ htable htf
      cases honce
  refine ⟨⟨h.self, h.other, h.trapframe, hpages, fun o w => (hleaf o w).trans (h.leaf o w)⟩, rfl,
    fun w hw _ e he => ⟨(hleaf none w).trans he, ?_⟩, ?_⟩
  · refine update_of_ne (fun heq => ?_) ..
    have honce := h.pages.exact.once (.page none w) (.trapframe p) _ (own_leaf hw he) (heq ▸ htf)
    cases honce
  · exact update_self ..

/-- The old address space is taken down once the process has the new one: the two page tables
    have changed hands. -/
theorem Committing.wp_freeOld {old oldsz trapframe : Nat} {Ev : Vm.Panic → Prop}
    (h : Committing img boot k₀ p R m x k) (hp : p < NPROC) (hx : x.pagetable ≠ 0)
    (hnone : R none = some x.pagetable) (hsome : ∀ q, R (some q) = k₀.root (some q))
    (hold : k₀.root (some p) = some old) (hspace : AddressSpace img k.mem (some old) trapframe oldsz) :
    wp (procFreepagetable img old oldsz) Ev (fun _ m' =>
      Pages img k.root k.tf m' boot ∧ (∀ q w, m'.leaf (k.root (some q)) w =
        k.mem.leaf (k.root (some q)) w) ∧
      ∀ s pa, own k.root k.tf k.mem s = some pa → m'.page pa = k.mem.page pa) k.mem := by
  have hswap : ∀ o, Equiv.swap none (some p) (Equiv.swap none (some p) o) = o :=
    Equiv.swap_apply_self none (some p)
  have hroot : ∀ q, k.root (some q) = R (Equiv.swap none (some p) (some q)) := by
    intro q
    by_cases hq : q = p
    · subst hq
      rw [Equiv.swap_apply_right, hnone, root_some hp, h.self, ptr_of_ne hx]
    · rw [Equiv.swap_apply_of_ne_of_ne (by simp) (by simpa using hq), hsome]
      simp only [Kernel.root, h.other q hq]
  have htf : k.tf = k₀.tf := by
    funext q
    by_cases hq : q = p
    · subst hq
      simp only [Kernel.tf, h.self, h.trapframe]
    · simp only [Kernel.tf, h.other q hq]
  have hfree : R (Equiv.swap none (some p) none) = some old := by
    rw [Equiv.swap_apply_left, hsome, hold]
  rw [← hfree] at hspace
  refine wp_mono (wp_procFreepagetable (h.pages.relabel hswap) hfree hspace) ?_
  rintro _ m' ⟨hframe, hpages⟩
  refine ⟨?_, fun q w => ?_, fun s pa hown => ?_⟩
  · have hroots : k.root = update (fun o => R (Equiv.swap none (some p) o)) none none := by
      funext o
      cases o with
      | none => rw [update_self]; rfl
      | some q => rw [update_of_ne (by simp), hroot]
    rw [hroots, htf]
    exact hpages
  · rw [hroot]
    exact hframe.leaf (by simp) w
  · -- what a process has is not of the old page table
    have hof : ¬ s.Of none := fun hof => by
      rw [own_root_none rfl hof] at hown
      cases hown
    refine hframe pa (Or.inl ⟨s, hof, ?_⟩)
    rw [← hown, htf]
    cases s with
    | trapframe q => rfl
    | table o path =>
      obtain ⟨q, rfl⟩ := Option.ne_none_iff_exists'.mp hof
      simp only [own, hroot]
    | page o v =>
      obtain ⟨q, rfl⟩ := Option.ne_none_iff_exists'.mp hof
      simp only [own, hroot]

/-- The process `p` has the address space of `k` at `pagetable`, and its trapframe is set to
    start the program. -/
structure Committed (k : Kernel) (p pagetable sz sp entry : Nat) (k' : Kernel) : Prop where
  root : (k'.proc p).pagetable = pagetable
  size : (k'.proc p).sz = sz
  held : Held k.mem k'.mem (some pagetable) fun _ => True
  start : getLE (k'.mem.page (k'.proc p).trapframe) A1 8 = sp % 2 ^ 64 ∧
    getLE (k'.mem.page (k'.proc p).trapframe) EPC 8 = entry % 2 ^ 64 ∧
    getLE (k'.mem.page (k'.proc p).trapframe) SP 8 = sp % 2 ^ 64

theorem start_fields (b : Bytes) (sp entry : Nat) :
    getLE (putLE (putLE (putLE b A1 8 sp) EPC 8 entry) SP 8 sp) A1 8 = sp % 2 ^ 64 ∧
      getLE (putLE (putLE (putLE b A1 8 sp) EPC 8 entry) SP 8 sp) EPC 8 = entry % 2 ^ 64 ∧
      getLE (putLE (putLE (putLE b A1 8 sp) EPC 8 entry) SP 8 sp) SP 8 = sp % 2 ^ 64 := by
  have hword : 256 ^ 8 = 2 ^ 64 := rfl
  refine ⟨?_, ?_, ?_⟩
  · rw [getLE_putLE_disjoint _ (by decide), getLE_putLE_disjoint _ (by decide), getLE_putLE, hword]
  · rw [getLE_putLE_disjoint _ (by decide), getLE_putLE, hword]
  · rw [getLE_putLE, hword]

theorem wp_execCommit (h₀ : Sound img boot k₀) (hp : p < NPROC)
    (hs : (k₀.proc p).state ≠ .UNUSED)
    (h : Built img boot (k₀.proc p).trapframe k₀ pagetable sz k) (path : List UInt8)
    (elf : Elfhdr) (sp : Nat) :
    wp (execCommit img p path elf pagetable sz sp) E (fun _ k' => Sound img boot k' ∧
      (∀ q, q ≠ p → k'.proc q = k₀.proc q) ∧ k'.fs = k.fs ∧
      Committed k p pagetable sz sp elf.entry k') k := by
  obtain ⟨hroot, htf, hspace⟩ := h₀.alive hp hs
  have hne := h.pagetable_ne_zero
  generalize hR : update k₀.root none (some pagetable) = R
  have hRnone : R none = some pagetable := by rw [← hR, update_self]
  have hRsome : ∀ q, R (some q) = k₀.root (some q) := fun q => by
    rw [← hR, update_of_ne (by simp)]
  have hstart : Committing img boot k₀ p R k.mem (k₀.proc p) k :=
    ⟨by rw [h.proc], fun q _ => by rw [h.proc], rfl, hR ▸ h.pages, fun _ _ => rfl⟩
  simp only [execCommit, wp_bind]
  refine wp_mono (hstart.wp_setTrapframe htf _ _) ?_
  rintro _ k₁ ⟨h₁, hfs₁, hheld₁, hpage₁⟩
  simp only [wp_setProc, wp_get]
  have h₂ := h₁.setProc (fun x => x.setName (progName path)) rfl
  rw [← hfs₁]
  generalize hk₂ : k₁.setProc p _ = k₂ at h₂ ⊢
  have h₃ := h₂.setProc (fun x => (x.setPagetable pagetable).setSz sz) rfl
  generalize hk₃ : k₂.setProc p _ = k₃ at h₃ ⊢
  have hfs₃ : k₃.fs = k₁.fs := by
    rw [← hk₃, ← hk₂]
    rfl
  have hmem₃ : k₃.mem = k₁.mem := by
    rw [← hk₃, ← hk₂]
    rfl
  refine wp_mono (h₃.wp_setTrapframe htf _ _) ?_
  rintro _ k₄ ⟨h₄, hfs₄, hheld₄, hpage₄⟩
  refine wp_mono (h₄.wp_setTrapframe htf _ _) ?_
  rintro _ k₅ ⟨h₅, hfs₅, hheld₅, hpage₅⟩
  rw [wp_vm, h₂.self]
  refine wp_mono (h₅.wp_freeOld hp hne hRnone hRsome hroot (hspace.congr fun w _ => ?_)) ?_
  · have hw := h₅.leaf (some p) w
    rw [hRsome, hroot] at hw
    have hw' : k.mem.leaf (k₀.root (some p)) w = _ := h.frame.leaf (by simp) w
    rw [hroot] at hw'
    exact hw.trans hw'
  rintro _ m ⟨hpages, hleaf, hkept⟩
  refine ⟨?_, fun q hq => h₅.other q hq, ?_, ?_⟩
  · refine h₀.change p hpages (fun q hq => h₅.other q hq) (fun q hq w => ?_) fun _ => ?_
    · have hrootq : k₅.root (some q) = k₀.root (some q) := by simp only [Kernel.root, h₅.other q hq]
      have hw := hleaf q w
      have hw' := h₅.leaf (some q) w
      rw [hrootq] at hw
      rw [hRsome] at hw'
      exact (hw.trans hw').trans (h.frame.leaf (by simp) w)
    · have hself : (k₅.setMem m).proc p = _ := h₅.self
      obtain ⟨-, hne', -⟩ := procOk_of_alive (h₀.procs p hp) hs
      rw [hself]
      refine ProcOk.of_space hs hne hne' (h.space.congr fun w _ => ?_)
      have hrootp : k₅.root (some p) = some pagetable := by
        rw [root_some hp, h₅.self]
        exact ptr_of_ne hne
      have hw := hleaf p w
      have hw' := h₅.leaf none w
      rw [hrootp] at hw
      rw [hRnone] at hw'
      exact hw.trans hw'
  · exact hfs₅.trans (hfs₄.trans hfs₃)
  · have hself : (k₅.setMem m).proc p = _ := h₅.self
    have hrootp : k₅.root (some p) = some pagetable := by
      rw [root_some hp, h₅.self]
      exact ptr_of_ne hne
    have htf₅ : k₅.tf p = some (k₀.proc p).trapframe := by
      rw [← htf]
      simp only [Kernel.tf, h₅.self, h₅.trapframe]
    have hpage : m.page (k₀.proc p).trapframe = putLE (putLE (putLE
        (k.mem.page (k₀.proc p).trapframe) A1 8 sp) EPC 8 elf.entry) SP 8 sp := by
      rw [hkept (.trapframe p) _ htf₅, hpage₅, hpage₄, hmem₃, hpage₁]
    refine ⟨by rw [hself]; rfl, by rw [hself]; rfl, ?_, ?_⟩
    · rw [hRnone] at hheld₁ hheld₄ hheld₅
      rw [hmem₃] at hheld₄
      refine (hheld₁.trans (hheld₄.trans hheld₅)).trans fun w hw _ e he => ⟨?_, ?_⟩
      · have hw' := hleaf p w
        rw [hrootp] at hw'
        exact hw'.trans he
      · rw [← hrootp] at he
        exact hkept (.page (some p) w) _ (own_leaf hw he)
    · rw [hself, h₅.trapframe, setMem_mem, hpage]
      exact start_fields _ _ _

end Commit

/-! ### `kexec` -/

section Kexec

variable {img : Image} {boot : List Nat} {k₀ k : Kernel} {trapframe pagetable sz p : Nat}
  {sb : Superblock} {E : Stop → Prop} {Ef : Fs.Stop → Prop} {cwd : Option Nat} {path : List UInt8}
  {P : FileCalls sb Ef cwd path}

/-- What `kexec` achieves: it has failed and nothing is different, or `p` has a new image. -/
def Executed (img : Image) (boot : List Nat) (k₀ : Kernel) (p : Nat)
    (P : FileCalls sb Ef cwd path) (r : Int) (k : Kernel) : Prop :=
  P.finished k.fs ∧ ((r = -1 ∧ Restored img boot k₀ k) ∨
    (0 ≤ r ∧ Sound img boot k ∧ ∀ q, q ≠ p → k.proc q = k₀.proc q))

theorem Executed.of_failed {r : Int}
    (h : r = -1 ∧ Restored img boot k₀ k ∧ P.finished k.fs) : Executed img boot k₀ p P r k :=
  ⟨h.2.2, Or.inl ⟨h.1, h.2.1⟩⟩

theorem Built.wp_copyout (h : Built img boot trapframe k₀ pagetable sz k) (dstva : Nat)
    (src : Nat → UInt8) (len : Nat) {Ev : Vm.Panic → Prop} :
    wp (copyout pagetable dstva src len) Ev (fun _ m =>
      Built img boot trapframe k₀ pagetable sz (k.setMem m)) k.mem := by
  have hno := h.space.noUser
  rw [← Built.root pagetable k₀] at hno
  refine wp_mono (Vm.wp_copyout h.pages (Built.root pagetable k₀) hno dstva src len)
    fun _ m ⟨hpages, hkeeps⟩ => h.keep hkeeps.frame hpages fun w _ => ?_
  have hw := hkeeps.leaf none w
  rwa [Built.root] at hw

theorem Built.wp_pushArg (h : Built img boot trapframe k₀ pagetable sz k)
    (hfinished : P.finished k.fs) (stackbase sp : Nat) (arg : List UInt8) :
    wp (pushArg pagetable stackbase sp arg) E (fun _ k' =>
      Built img boot trapframe k₀ pagetable sz k' ∧ P.finished k'.fs) k := by
  unfold pushArg
  rw [wp_ite]
  refine ⟨fun _ => ⟨h, hfinished⟩, fun _ => ?_⟩
  rw [wp_bind, wp_vm]
  exact wp_mono (h.wp_copyout _ _ _) fun r m hm => ⟨hm, hfinished⟩

theorem wp_pushEach {push : Nat → List UInt8 → KM (Option Nat)} {I : Kernel → Prop}
    (hpush : ∀ sp arg k, I k → wp (push sp arg) E (fun _ k' => I k') k)
    (argv : List (List UInt8)) (sp : Nat) (ustack : List Nat) (h : I k) :
    wp (pushEach push argv sp ustack) E (fun _ k' => I k') k := by
  induction argv generalizing sp ustack k with
  | nil => exact h
  | cons arg argv ih =>
    rw [pushEach, wp_bind]
    refine wp_mono (hpush sp arg k h) fun r k' hk' => ?_
    cases r with
    | none => exact hk'
    | some sp => exact ih sp _ hk'

theorem Built.wp_pushArgs (h : Built img boot trapframe k₀ pagetable sz k)
    (hfinished : P.finished k.fs) (stackbase sp : Nat) (argv : List (List UInt8)) :
    wp (pushArgs pagetable stackbase sp argv) E (fun _ k' =>
      Built img boot trapframe k₀ pagetable sz k' ∧ P.finished k'.fs) k :=
  wp_pushEach (I := fun k' => Built img boot trapframe k₀ pagetable sz k' ∧ P.finished k'.fs)
    (fun sp arg _ hk => hk.1.wp_pushArg hk.2 stackbase sp arg) argv sp [] ⟨h, hfinished⟩

theorem Built.wp_pushUstack (h : Built img boot trapframe k₀ pagetable sz k)
    (hfinished : P.finished k.fs) (stackbase sp : Nat) (ustack : List Nat) :
    wp (pushUstack pagetable stackbase sp ustack) E (fun _ k' =>
      Built img boot trapframe k₀ pagetable sz k' ∧ P.finished k'.fs) k := by
  unfold pushUstack
  rw [wp_ite]
  refine ⟨fun _ => ⟨h, hfinished⟩, fun _ => ?_⟩
  rw [wp_bind, wp_vm]
  exact wp_mono (h.wp_copyout _ _ _) fun r m hm => ⟨hm, hfinished⟩

theorem Built.wp_pushStack (h : Built img boot trapframe k₀ pagetable sz k)
    (hfinished : P.finished k.fs) (stackbase sp : Nat) (argv : List (List UInt8)) :
    wp (pushStack pagetable stackbase sp argv) E (fun _ k' =>
      Built img boot trapframe k₀ pagetable sz k' ∧ P.finished k'.fs) k := by
  unfold pushStack
  rw [wp_bind]
  refine wp_mono (h.wp_pushArgs hfinished stackbase sp argv) fun r k' ⟨hb, hf⟩ => ?_
  cases r with
  | none => exact ⟨hb, hf⟩
  | some r => exact hb.wp_pushUstack hf stackbase r.1 _

theorem Built.round (h : Built img boot trapframe k₀ pagetable sz k) :
    Built img boot trapframe k₀ pagetable (npages sz * PGSIZE) k ∧
      npages (npages sz * PGSIZE) = npages sz ∧ npages sz * PGSIZE ≤ TRAPFRAME := by
  have hT : TRAPFRAME = (2 ^ 26 - 2) * 4096 := rfl
  have hP : PGSIZE = 4096 := rfl
  have hsize := h.space.size
  have hn := npages_eq sz (by omega)
  have hle : npages sz * PGSIZE ≤ TRAPFRAME := by
    rw [hP]
    omega
  have hround : npages (npages sz * PGSIZE) = npages sz := by
    rw [npages_eq _ (by omega), hP]
    omega
  exact ⟨⟨h.proc, h.frame, h.pages, h.space.resize hle (by rw [hround]; exact h.space.mapped)
    fun _ _ _ => rfl⟩, hround, hle⟩

theorem Built.wp_uvmclear (h : Built img boot trapframe k₀ pagetable sz k) {v : Nat}
    (hv : v < npages sz) {Ev : Vm.Panic → Prop} :
    wp (uvmclear pagetable (v * PGSIZE)) Ev (fun _ m =>
      Built img boot trapframe k₀ pagetable sz (k.setMem m)) k.mem := by
  have hT : TRAPFRAME = (2 ^ 26 - 2) * 4096 := rfl
  have hU : UPAGES = 2 ^ 26 - 2 := rfl
  have hsize := h.space.size
  have hn := npages_eq sz (by omega)
  have hvU : v < UPAGES := by omega
  obtain ⟨e, he⟩ := Option.ne_none_iff_exists'.mp ((h.space.mapped v hvU).mpr hv)
  rw [← Built.root pagetable k₀] at he
  refine wp_mono (Vm.wp_uvmclear h.pages (Built.root pagetable k₀) hvU he)
    fun _ m ⟨hframe, hpages, hleaf⟩ => h.setMem hframe hpages ?_
  rw [Built.root] at hleaf
  refine h.space.resize hsize (fun w hw => ?_) fun w hw hwV => ?_
  · rw [hleaf w (Nat.lt_trans hw UPAGES_lt_VPAGES)]
    split
    · rename_i heq
      simp only [ne_eq, reduceCtorEq, not_false_eq_true, true_iff]
      omega
    · exact h.space.mapped w hw
  · rw [hleaf w hwV, if_neg (by omega)]

theorem Built.wp_allocStack (h : Built img boot trapframe k₀ pagetable sz k) {newsz : Nat}
    (hle : sz ≤ newsz) {Ev : Vm.Panic → Prop} :
    wp (uvmalloc img pagetable sz newsz PTE_W) Ev (fun r m =>
      (r = 0 ∧ Built img boot trapframe k₀ pagetable sz (k.setMem m)) ∨
      (r = newsz ∧ Built img boot trapframe k₀ pagetable newsz (k.setMem m))) k.mem := by
  have hmapped := h.space.mapped
  rw [← Built.root pagetable k₀] at hmapped
  refine wp_mono (Vm.wp_uvmalloc h.pages (Built.root pagetable k₀) hmapped h.space.size
    (by decide)) fun r m ⟨hframe, hpages, hpost⟩ => ?_
  rw [Built.root] at hpost
  rcases hpost with ⟨hlt, -, -⟩ | ⟨rfl, hleaf⟩ | ⟨-, hnew, rfl, hext⟩
  · exact absurd hlt (Nat.not_lt.mpr hle)
  · exact Or.inl ⟨rfl, h.keep hframe hpages hleaf⟩
  · exact Or.inr ⟨rfl, h.extend hframe hpages hle hnew hext⟩

theorem stack_sizes {n : Nat} (hn : n * PGSIZE ≤ TRAPFRAME) :
    u64 (n * PGSIZE + (USERSTACK + 1) * PGSIZE) = (n + 2) * PGSIZE ∧
      u64sub ((n + 2) * PGSIZE) ((USERSTACK + 1) * PGSIZE) = n * PGSIZE ∧
      n < npages ((n + 2) * PGSIZE) := by
  have hT : TRAPFRAME = (2 ^ 26 - 2) * 4096 := rfl
  have hP : PGSIZE = 4096 := rfl
  have hS : USERSTACK = 1 := rfl
  rw [hP] at hn ⊢
  rw [npages_eq _ (by omega)]
  unfold u64sub u64
  rw [hS]
  omega

theorem wp_execStack (h₀ : Sound img boot k₀) (hp : p < NPROC) (hs : (k₀.proc p).state ≠ .UNUSED)
    (h : Built img boot (k₀.proc p).trapframe k₀ pagetable sz k) (hfinished : P.finished k.fs)
    (argv : List (List UInt8)) (elf : Elfhdr) :
    wp (execStack img sb p path argv elf pagetable sz) E
      (fun r k' => Executed img boot k₀ p P r k') k := by
  have hbad : ∀ {sz' : Nat} {k' : Kernel},
      Built img boot (k₀.proc p).trapframe k₀ pagetable sz' k' → P.finished k'.fs →
      wp (execBad img sb pagetable sz' none) E (fun r k' => Executed img boot k₀ p P r k') k' :=
    fun hb hf => wp_mono (wp_execBad_closed (P := P) hb hf) fun _ _ hfail => .of_failed hfail
  obtain ⟨hbuilt, -, hle⟩ := h.round
  obtain ⟨hnew, hguard, hlt⟩ := stack_sizes hle
  have hgrow : npages sz * PGSIZE ≤ (npages sz + 2) * PGSIZE :=
    Nat.mul_le_mul_right _ (Nat.le_add_right _ _)
  unfold execStack
  rw [PGROUNDUP_eq]
  dsimp only
  rw [hnew, wp_bind, wp_vm]
  refine wp_mono (hbuilt.wp_allocStack hgrow) fun sz1 m hpost => ?_
  rw [wp_ite]
  refine ⟨fun hzero => ?_, fun hne => ?_⟩
  · rcases hpost with ⟨-, hb⟩ | ⟨hsz1, -⟩
    · exact hbad hb hfinished
    · have hP : 0 < PGSIZE := by decide
      have hpos : 0 < (npages sz + 2) * PGSIZE := Nat.mul_pos (Nat.add_pos_right _ Nat.two_pos) hP
      exact absurd (hsz1.symm.trans hzero) (Nat.ne_of_gt hpos)
  have hgrown := hpost.resolve_left fun hfail => hne hfail.1
  have hb := hgrown.2
  rw [hgrown.1]
  rw [hguard, wp_bind, wp_vm]
  refine wp_mono (hb.wp_uvmclear hlt) fun _ m₂ hb₂ => ?_
  clear hbuilt hle hnew hguard hlt hgrow hpost hne hgrown
  generalize (npages sz + 2) * PGSIZE = sz2 at hb₂ ⊢
  rw [wp_bind]
  refine wp_mono (hb₂.wp_pushStack hfinished (u64sub sz2 (USERSTACK * PGSIZE)) sz2 argv)
    fun r k₃ ⟨hb₃, hfinished₃⟩ => ?_
  cases r with
  | none => exact hbad hb₃ hfinished₃
  | some sp =>
    rw [wp_bind]
    refine wp_mono (wp_execCommit h₀ hp hs hb₃ path elf sp) fun _ k₄ ⟨hsound, hother, hfs, _⟩ => ?_
    have hfinished₄ : P.finished k₄.fs := hfs ▸ hfinished₃
    exact ⟨hfinished₄, Or.inr ⟨Int.natCast_nonneg _, hsound, hother⟩⟩

theorem Restored.refl (h : Sound img boot k₀) : Restored img boot k₀ k₀ :=
  ⟨rfl, Frame.refl, h.pages⟩

theorem Restored.setFs (h : Restored img boot k₀ k) (s : Fs.State) :
    Restored img boot k₀ (k.setFs s) :=
  ⟨h.proc, h.frame, h.pages⟩

theorem Restored.wp_procPagetable (h : Restored img boot k₀ k) (htf : trapframe < 2 ^ 56)
    {Ev : Vm.Panic → Prop} :
    wp (procPagetable img trapframe) Ev (fun r m => match r with
      | none => Restored img boot k₀ (k.setMem m)
      | some pagetable => Built img boot trapframe k₀ pagetable 0 (k.setMem m)) k.mem := by
  refine wp_mono (Vm.wp_procPagetable (o := none) h.pages rfl htf) ?_
  rintro r m ⟨hframe, hpost⟩
  cases r with
  | none => exact ⟨h.proc, h.frame.trans hframe, hpost⟩
  | some pagetable => exact ⟨h.proc, h.frame.trans hframe, hpost.1, hpost.2⟩

theorem Built.userAll_zero (m : Mem) (pagetable : Nat) :
    UserAll m (some pagetable) (npages 0) := by
  intro v hv
  rw [npages_eq 0 (by decide)] at hv
  omega

/-- **`kexec`** fails and changes nothing that a process has, or gives `p` a new image. -/
theorem wp_kexec (hE : ∀ e, Ef e → E (.fs e)) (h₀ : Sound img boot k₀) (hp : p < NPROC)
    (hs : (k₀.proc p).state ≠ .UNUSED) (hcwd : (k₀.proc p).cwd = cwd) (hstart : P.start k₀.fs)
    (argv : List (List UInt8)) :
    wp (kexec img sb p path argv) E (fun r k => Executed img boot k₀ p P r k) k₀ := by
  have htf : (k₀.proc p).trapframe < 2 ^ 56 :=
    (h₀.pages.exact.owned (.trapframe p) _ (h₀.alive hp hs).2.1).lt
  have hbad : ∀ {ip pagetable sz : Nat} {k : Kernel}, P.locked ip k.fs →
      wp (when (pagetable ≠ 0) (vm (procFreepagetable img pagetable sz))) E
        (fun _ k' => Restored img boot k₀ k' ∧ k'.fs = k.fs) k →
      wp (execBad img sb pagetable sz (some ip)) E (fun r k' => Executed img boot k₀ p P r k') k :=
    fun hf hb => wp_mono (wp_execBad_file (P := P) hE hf hb) fun _ _ hfail => .of_failed hfail
  unfold kexec
  simp only [wp_bind, wp_fs, wp_get]
  refine wp_mono (wp_mono_error (P.wp_beginOp _ hstart) hE) fun _ s₁ hs₁ => ?_
  rw [show ((k₀.setFs s₁).proc p).cwd = cwd from hcwd]
  refine wp_mono (wp_mono_error (P.wp_namei _ hs₁) hE) fun r s₂ hs₂ => ?_
  cases r with
  | none =>
    simp only [wp_bind, wp_fs]
    refine wp_mono (wp_mono_error (P.wp_endOp _ hs₂) hE) fun _ s₃ hs₃ => ?_
    exact .of_failed ⟨rfl, (Restored.refl h₀).setFs s₃, hs₃⟩
  | some ip =>
    simp only [wp_bind, wp_fs]
    refine wp_mono (wp_mono_error (P.wp_ilock ip _ hs₂) hE) fun _ s₃ hs₃ => ?_
    refine wp_mono (wp_mono_error (P.wp_readi ip _ _ _ hs₃) hE) fun r s₄ hs₄ => ?_
    have hrestored : Restored img boot k₀ (k₀.setFs s₄) := (Restored.refl h₀).setFs s₄
    rw [show ((k₀.setFs s₁).proc p).trapframe = (k₀.proc p).trapframe from rfl,
      show (((k₀.setFs s₁).setFs s₂).setFs s₃).setFs s₄ = k₀.setFs s₄ from rfl]
    generalize getElfhdr r.2 = elf
    rw [wp_ite]
    refine ⟨fun _ => hbad hs₄ hrestored.wp_free, fun _ => ?_⟩
    rw [wp_ite]
    refine ⟨fun _ => hbad hs₄ hrestored.wp_free, fun _ => ?_⟩
    rw [wp_bind, wp_vm]
    refine wp_mono (hrestored.wp_procPagetable htf) fun r m hpost => ?_
    cases r with
    | none => exact hbad hs₄ hpost.wp_free
    | some pagetable =>
      have hloading : Loading img boot (k₀.proc p).trapframe k₀ P ip pagetable 0
          ((k₀.setFs s₄).setMem m) := ⟨hpost, Built.userAll_zero m pagetable, hs₄⟩
      rw [wp_bind]
      refine wp_mono (wp_phLoop hE hloading _ _) fun v k₅ h₅ => ?_
      rw [wp_ite]
      refine ⟨fun _ => hbad h₅.file h₅.toBuilt.wp_free, fun _ => ?_⟩
      simp only [wp_bind, wp_fs]
      refine wp_mono (wp_mono_error (P.wp_iunlockput ip _ h₅.file) hE) fun _ s₆ hs₆ => ?_
      refine wp_mono (wp_mono_error (P.wp_endOp _ hs₆) hE) fun _ s₇ hs₇ => ?_
      exact wp_execStack h₀ hp hs ((h₅.toBuilt.setFs s₆).setFs s₇) hs₇ argv elf

end Kexec

end Xv6.Process
