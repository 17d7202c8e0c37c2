import Xv6.Process.Exec
import Xv6.Vm.Free

/-!
# Page tables of processes

The invariant of the process table: every allocatable page is in one place, and every
process in use has an address space that fits its `sz`.
-/

namespace Xv6.Process

open ByteView Hoare Ledger Vm Fs Function

/-- A pointer, if it is not null. -/
def ptr (a : Nat) : Option Nat := if a ≠ 0 then some a else none

theorem ptr_zero : ptr 0 = none := rfl

theorem ptr_of_ne {a : Nat} (h : a ≠ 0) : ptr a = some a := if_pos h

/-- The page tables of the processes. -/
def Kernel.root (k : Kernel) : Owner → Option Nat
  | some p => if p < NPROC then ptr (k.proc p).pagetable else none
  | none => none

/-- The trapframes of the processes. -/
def Kernel.tf (k : Kernel) (p : Nat) : Option Nat :=
  if p < NPROC then ptr (k.proc p).trapframe else none

/-- What an entry of the process table has: nothing if it is unused, and an address space
    otherwise. -/
def ProcOk (img : Image) (m : Mem) (x : Proc) : Prop :=
  if x.state = .UNUSED then x.pagetable = 0 ∧ x.trapframe = 0 ∧ x.sz = 0
  else x.pagetable ≠ 0 ∧ x.trapframe ≠ 0 ∧ AddressSpace img m (some x.pagetable) x.trapframe x.sz

/-- The invariant; `boot` are the pages that the kernel has allocated for itself. -/
structure Sound (img : Image) (boot : List Nat) (k : Kernel) : Prop where
  pages : Pages img k.root k.tf k.mem boot
  procs : ∀ p < NPROC, ProcOk img k.mem (k.proc p)

/-! ### Updates -/

section Updates

variable {k : Kernel} {p q : Nat} {x : Proc} {m : Mem} {s : Fs.State} {E : Stop → Prop} {α : Type}

@[simp] theorem setMem_mem : (k.setMem m).mem = m := rfl
@[simp] theorem setMem_fs : (k.setMem m).fs = k.fs := rfl
@[simp] theorem setMem_proc : (k.setMem m).proc = k.proc := rfl
@[simp] theorem setMem_root : (k.setMem m).root = k.root := rfl
@[simp] theorem setMem_tf : (k.setMem m).tf = k.tf := rfl
@[simp] theorem setFs_mem : (k.setFs s).mem = k.mem := rfl
@[simp] theorem setFs_fs : (k.setFs s).fs = s := rfl
@[simp] theorem setFs_proc : (k.setFs s).proc = k.proc := rfl
@[simp] theorem setFs_root : (k.setFs s).root = k.root := rfl
@[simp] theorem setFs_tf : (k.setFs s).tf = k.tf := rfl
@[simp] theorem setProc_mem : (k.setProc p x).mem = k.mem := rfl
@[simp] theorem setProc_fs : (k.setProc p x).fs = k.fs := rfl

@[simp] theorem setNextpid_mem (n : Nat) : (k.setNextpid n).mem = k.mem := rfl
@[simp] theorem setNextpid_proc (n : Nat) : (k.setNextpid n).proc = k.proc := rfl
@[simp] theorem setNextpid_root (n : Nat) : (k.setNextpid n).root = k.root := rfl
@[simp] theorem setNextpid_tf (n : Nat) : (k.setNextpid n).tf = k.tf := rfl

@[simp] theorem setProc_self : (k.setProc p x).proc p = x := update_self ..

theorem setProc_ne (h : q ≠ p) : (k.setProc p x).proc q = k.proc q := update_of_ne h ..

@[simp] theorem wp_vm {c : VmM α} {Q : α → Kernel → Prop} :
    wp (vm c) E Q k ↔ wp c (fun e => E (.vm e)) (fun a m => Q a (k.setMem m)) k.mem :=
  wp_zoom

@[simp] theorem wp_fs {c : FsM α} {Q : α → Kernel → Prop} :
    wp (fs c) E Q k ↔ wp c (fun e => E (.fs e)) (fun a s => Q a (k.setFs s)) k.fs :=
  wp_zoom

@[simp] theorem wp_setProc {f : Proc → Proc} {Q : Unit → Kernel → Prop} :
    wp (setProc p f) E Q k ↔ Q () (k.setProc p (f (k.proc p))) := Iff.rfl

theorem root_setProc (hp : p < NPROC) :
    (k.setProc p x).root = update k.root (some p) (ptr x.pagetable) := by
  funext o
  cases o with
  | none => rw [update_of_ne (by simp)]; rfl
  | some q =>
    by_cases hq : q = p
    · subst hq
      rw [update_self]
      simp only [Kernel.root, setProc_self, if_pos hp]
    · rw [update_of_ne (by simpa using hq)]
      simp only [Kernel.root, setProc_ne hq]

theorem tf_setProc (hp : p < NPROC) :
    (k.setProc p x).tf = update k.tf p (ptr x.trapframe) := by
  funext q
  by_cases hq : q = p
  · subst hq
    rw [update_self]
    simp only [Kernel.tf, setProc_self, if_pos hp]
  · rw [update_of_ne hq]
    simp only [Kernel.tf, setProc_ne hq]

theorem root_some (hp : p < NPROC) : k.root (some p) = ptr (k.proc p).pagetable := if_pos hp

theorem tf_some (hp : p < NPROC) : k.tf p = ptr (k.proc p).trapframe := if_pos hp

theorem root_setProc_same (h : x.pagetable = (k.proc p).pagetable) :
    (k.setProc p x).root = k.root := by
  funext o
  cases o with
  | none => rfl
  | some q =>
    by_cases hq : q = p
    · subst hq
      simp only [Kernel.root, setProc_self, h]
    · simp only [Kernel.root, setProc_ne hq]

theorem tf_setProc_same (h : x.trapframe = (k.proc p).trapframe) :
    (k.setProc p x).tf = k.tf := by
  funext q
  by_cases hq : q = p
  · subst hq
    simp only [Kernel.tf, setProc_self, h]
  · simp only [Kernel.tf, setProc_ne hq]

end Updates

/-! ### The invariant -/

section Sound

variable {img : Image} {boot : List Nat} {k k' : Kernel} {p : Nat} {m m' : Mem} {x : Proc}
  {E : Stop → Prop}

theorem ProcOk.congr (h : ProcOk img m x)
    (hleaf : x.pagetable ≠ 0 → ∀ w, m'.leaf (some x.pagetable) w = m.leaf (some x.pagetable) w) :
    ProcOk img m' x := by
  unfold ProcOk at h ⊢
  split
  · rename_i hs
    rwa [if_pos hs] at h
  · rename_i hs
    rw [if_neg hs] at h
    obtain ⟨hpt, htf, hspace⟩ := h
    exact ⟨hpt, htf, hspace.congr fun w _ => hleaf hpt w⟩

theorem procOk_of_alive (h : ProcOk img m x) (hs : x.state ≠ .UNUSED) :
    x.pagetable ≠ 0 ∧ x.trapframe ≠ 0 ∧
      AddressSpace img m (some x.pagetable) x.trapframe x.sz := by
  unfold ProcOk at h
  rwa [if_neg hs] at h

theorem ProcOk.of_space (hs : x.state ≠ .UNUSED) (hpt : x.pagetable ≠ 0) (htf : x.trapframe ≠ 0)
    (hspace : AddressSpace img m (some x.pagetable) x.trapframe x.sz) : ProcOk img m x := by
  unfold ProcOk
  rw [if_neg hs]
  exact ⟨hpt, htf, hspace⟩

theorem procOk_of_unused (h : ProcOk img m x) (hs : x.state = .UNUSED) :
    x.pagetable = 0 ∧ x.trapframe = 0 ∧ x.sz = 0 := by
  unfold ProcOk at h
  rwa [if_pos hs] at h

theorem Sound.alive (h : Sound img boot k) (hp : p < NPROC) (hs : (k.proc p).state ≠ .UNUSED) :
    k.root (some p) = some (k.proc p).pagetable ∧ k.tf p = some (k.proc p).trapframe ∧
      AddressSpace img k.mem (some (k.proc p).pagetable) (k.proc p).trapframe (k.proc p).sz := by
  obtain ⟨hpt, htf, hspace⟩ := procOk_of_alive (h.procs p hp) hs
  exact ⟨(root_some hp).trans (ptr_of_ne hpt), (tf_some hp).trans (ptr_of_ne htf), hspace⟩

theorem Sound.change (h : Sound img boot k) (p : Nat)
    (hpages : Pages img k'.root k'.tf k'.mem boot) (hproc : ∀ q, q ≠ p → k'.proc q = k.proc q)
    (hleaf : ∀ q, q ≠ p → ∀ w, k'.mem.leaf (k.root (some q)) w = k.mem.leaf (k.root (some q)) w)
    (hp : p < NPROC → ProcOk img k'.mem (k'.proc p)) : Sound img boot k' := by
  refine ⟨hpages, fun q hq => ?_⟩
  by_cases hqp : q = p
  · subst hqp
    exact hp hq
  · rw [hproc q hqp]
    refine (h.procs q hq).congr fun hpt w => ?_
    have hw := hleaf q hqp w
    rwa [root_some hq, ptr_of_ne hpt] at hw

theorem Sound.keep (h : Sound img boot k) (hpages : Pages img k.root k.tf m boot)
    (hleaf : ∀ o w, m.leaf (k.root o) w = k.mem.leaf (k.root o) w) :
    Sound img boot (k.setMem m) :=
  h.change NPROC hpages (fun _ _ => rfl) (fun q _ w => hleaf (some q) w)
    fun hlt => absurd hlt (Nat.lt_irrefl _)

theorem Sound.setProc (h : Sound img boot k) (hpt : x.pagetable = (k.proc p).pagetable)
    (htf : x.trapframe = (k.proc p).trapframe) (hsz : x.sz = (k.proc p).sz)
    (hstate : x.state = .UNUSED ↔ (k.proc p).state = .UNUSED) : Sound img boot (k.setProc p x) := by
  refine h.change p ?_ (fun q hq => setProc_ne hq) (fun _ _ _ => rfl) fun hp => ?_
  · rw [root_setProc_same hpt, tf_setProc_same htf]
    exact h.pages
  · have hok := h.procs p hp
    rw [setProc_self]
    unfold ProcOk at hok ⊢
    simp only [hstate, hpt, htf, hsz]
    exact hok

theorem Sound.setFs (h : Sound img boot k) (s : Fs.State) : Sound img boot (k.setFs s) :=
  ⟨h.pages, h.procs⟩

theorem Sound.setTrapframePage (h : Sound img boot k) (hp : p < NPROC)
    (hs : (k.proc p).state ≠ .UNUSED) (b : Bytes) :
    Sound img boot (k.setMem (k.mem.setPage (k.proc p).trapframe b)) := by
  obtain ⟨hpages, hleaf⟩ := h.pages.setPage b fun o path htable => by
    have honce := h.pages.exact.once (.table o path) (.trapframe p) _ htable (h.alive hp hs).2.1
    cases honce
  exact h.keep hpages hleaf

theorem wp_setTrapframe (h : Sound img boot k) (hp : p < NPROC)
    (hs : (k.proc p).state ≠ .UNUSED) (f v : Nat) :
    wp (setTrapframe p f v) E (fun _ k' => Sound img boot k' ∧ k'.proc = k.proc) k := by
  simp only [setTrapframe, wp_bind, wp_get, wp_vm, wp_modify]
  exact ⟨h.setTrapframePage hp hs _, rfl⟩

end Sound

/-! ### What is not of a process -/

def OfProc (p : Nat) : Vm.Slot → Prop
  | .trapframe q => q = p
  | .table o _ => o = some p
  | .page o _ => o = some p

/-- From `k` to `k'` only process `p` has changed, with its page table, its trapframe and its
    user memory. -/
structure Apart (k k' : Kernel) (p : Nat) : Prop where
  fs : k'.fs = k.fs
  proc : ∀ q, q ≠ p → k'.proc q = k.proc q
  leaf : ∀ q, q ≠ p → ∀ w, k'.mem.leaf (k.root (some q)) w = k.mem.leaf (k.root (some q)) w
  own : ∀ s, ¬ OfProc p s → Vm.own k'.root k'.tf k'.mem s = Vm.own k.root k.tf k.mem s
  page : ∀ s pa, ¬ OfProc p s → Vm.own k.root k.tf k.mem s = some pa →
    k'.mem.page pa = k.mem.page pa

section Apart

variable {img : Image} {boot : List Nat} {k k' k'' : Kernel} {p : Nat}

theorem root_of_other (h : ∀ q, q ≠ p → k'.proc q = k.proc q) {o : Owner} (ho : o ≠ some p) :
    k'.root o = k.root o := by
  cases o with
  | none => rfl
  | some q =>
    have hq : q ≠ p := fun heq => ho (congrArg some heq)
    simp only [Kernel.root, h q hq]

theorem tf_of_other (h : ∀ q, q ≠ p → k'.proc q = k.proc q) {q : Nat} (hq : q ≠ p) :
    k'.tf q = k.tf q := by
  simp only [Kernel.tf, h q hq]

theorem own_congr_apart {R R' : Owner → Option Nat} {tf tf' : Nat → Option Nat} {m : Mem} {s : Vm.Slot}
    (hR : ∀ o, o ≠ some p → R' o = R o) (htf : ∀ q, q ≠ p → tf' q = tf q) (hs : ¬ OfProc p s) :
    own R' tf' m s = own R tf m s := by
  cases s with
  | trapframe q => exact htf q hs
  | table o path => simp only [own, hR o hs]
  | page o v => simp only [own, hR o hs]

theorem Apart.trans (h : Apart k k' p) (h' : Apart k' k'' p) : Apart k k'' p := by
  refine ⟨h'.fs.trans h.fs, fun q hq => (h'.proc q hq).trans (h.proc q hq), fun q hq w => ?_,
    fun s hs => (h'.own s hs).trans (h.own s hs), fun s pa hs hown => ?_⟩
  · have hroot : k'.root (some q) = k.root (some q) := root_of_other h.proc (by simpa using hq)
    rw [← h.leaf q hq w, ← hroot, h'.leaf q hq w]
  · rw [h'.page s pa hs ((h.own s hs).trans hown), h.page s pa hs hown]

theorem Apart.of_frame {R : Owner → Option Nat} {tf : Nat → Option Nat}
    (hR : ∀ o, o ≠ some p → R o = k.root o) (htf : ∀ q, q ≠ p → tf q = k.tf q)
    (hframe : Frame img R tf (some p) boot k.mem k'.mem)
    (hproc : ∀ q, q ≠ p → k'.proc q = k.proc q) (hfs : k'.fs = k.fs) : Apart k k' p := by
  have hnot : ∀ s, ¬ OfProc p s → ¬ s.Of (some p) := by
    rintro (q | ⟨o, path⟩ | ⟨o, v⟩) hs
    · exact id
    · exact hs
    · exact hs
  refine ⟨hfs, hproc, fun q hq w => ?_, fun s hs => ?_, fun s pa hs hown => ?_⟩
  · have ho : some q ≠ some p := by simpa using hq
    rw [← hR _ ho]
    exact hframe.leaf ho w
  · calc Vm.own k'.root k'.tf k'.mem s
        = Vm.own R tf k'.mem s := own_congr_apart
          (fun o ho => (root_of_other hproc ho).trans (hR o ho).symm)
          (fun q hq => (tf_of_other hproc hq).trans (htf q hq).symm) hs
      _ = Vm.own R tf k.mem s := hframe.own (hnot s hs)
      _ = Vm.own k.root k.tf k.mem s := own_congr_apart hR htf hs
  · refine hframe pa (Or.inl ⟨s, hnot s hs, ?_⟩)
    rw [own_congr_apart hR htf hs, hown]

def Bare (k : Kernel) (p : Nat) : Prop := (k.proc p).pagetable = 0 ∧ (k.proc p).trapframe = 0

theorem Bare.own (h : Bare k p) {s : Vm.Slot} (hs : OfProc p s) :
    Vm.own k.root k.tf k.mem s = none := by
  have hroot : k.root (some p) = none := by
    simp only [Kernel.root, h.1, ptr_zero, ite_self]
  have htf : k.tf p = none := by
    simp only [Kernel.tf, h.2, ptr_zero, ite_self]
  have htable : ∀ path, k.mem.table none path = none := fun path => PtrTree.node_root_none path
  cases s with
  | trapframe q =>
    obtain rfl : q = p := hs
    exact htf
  | table o path =>
    obtain rfl : o = some p := hs
    simp only [Vm.own, hroot, htable, ite_self]
  | page o v =>
    obtain rfl : o = some p := hs
    simp only [Vm.own, hroot, Mem.leaf, htable, Option.bind_none, Option.map_none, ite_self]

theorem Apart.free_iff (h : Apart k k' p) (hpages : Pages img k.root k.tf k.mem boot)
    (hpages' : Pages img k'.root k'.tf k'.mem boot) (hbare : Bare k p) (hbare' : Bare k' p) (pa : Nat) :
    pa ∈ k'.mem.freelist ↔ pa ∈ k.mem.freelist := by
  have hown : ∀ s, Vm.own k'.root k'.tf k'.mem s = Vm.own k.root k.tf k.mem s := fun s => by
    by_cases hs : OfProc p s
    · rw [hbare.own hs, hbare'.own hs]
    · exact h.own s hs
  by_cases ha : Allocatable img pa
  · rw [hpages.exact.free_iff pa ha, hpages'.exact.free_iff pa ha]
    simp only [hown]
  · exact ⟨fun hf => absurd (hpages'.free pa hf) ha, fun hf => absurd (hpages.free pa hf) ha⟩

end Apart

/-! ### `allocproc` and `freeproc` -/

section Alloc

variable {img : Image} {boot : List Nat} {k : Kernel} {p : Nat} {E : Stop → Prop}

theorem wp_freeTrapframe (hp : p < NPROC) (h : Pages img k.root k.tf k.mem boot) :
    wp (when ((k.proc p).trapframe ≠ 0) (vm (kfree img (k.proc p).trapframe))) E (fun _ k' =>
      ∃ m, k' = k.setMem m ∧ Pages img k.root (update k.tf p none) m boot ∧
        Keeps img k.root (update k.tf p none) (some p) boot k.mem m) k := by
  rw [wp_when]
  refine ⟨fun hne => ?_, fun heq => ⟨k.mem, rfl, ?_, Keeps.refl⟩⟩
  · have hp₁ := h.takeTrapframe ((tf_some hp).trans (ptr_of_ne hne))
    obtain ⟨hp₂, hkeeps⟩ := hp₁.freed (some p)
    rw [wp_vm]
    refine wp_mono (wp_kfree (hp₁.exact.mem _ List.mem_cons_self)) fun _ m hm => ?_
    subst hm
    exact ⟨_, rfl, hp₂, hkeeps⟩
  · have htf : k.tf p = none := by rw [tf_some hp, not_not.mp heq, ptr_zero]
    rwa [← htf, update_eq_self]

theorem wp_freePagetable (hp : p < NPROC) {tf : Nat → Option Nat}
    (h : Pages img k.root tf k.mem boot) {pagetable sz : Nat}
    (hpt : (k.proc p).pagetable = pagetable)
    (hspace : pagetable ≠ 0 → ∃ trapframe, AddressSpace img k.mem (some pagetable) trapframe sz) :
    wp (when (pagetable ≠ 0) (vm (procFreepagetable img pagetable sz))) E (fun _ k' =>
      ∃ m, k' = k.setMem m ∧ Pages img (update k.root (some p) none) tf m boot ∧
        Frame img k.root tf (some p) boot k.mem m) k := by
  rw [wp_when]
  refine ⟨fun hne => ?_, fun heq => ⟨k.mem, rfl, ?_, Frame.refl⟩⟩
  · obtain ⟨trapframe, hspace⟩ := hspace hne
    have hroot : k.root (some p) = some pagetable := by rw [root_some hp, hpt, ptr_of_ne hne]
    rw [← hroot] at hspace
    rw [wp_vm]
    refine wp_mono (wp_procFreepagetable h hroot hspace) fun _ m ⟨hframe, hpages⟩ => ?_
    exact ⟨m, rfl, hpages, hframe⟩
  · have hroot : k.root (some p) = none := by rw [root_some hp, hpt, not_not.mp heq, ptr_zero]
    rwa [← hroot, update_eq_self]

/-- **`freeproc`** leaves an unused entry, whatever the process had, and nothing else changes. -/
theorem wp_freeproc_apart (hp : p < NPROC) (h : Pages img k.root k.tf k.mem boot)
    (hspace : (k.proc p).pagetable ≠ 0 → ∃ trapframe,
      AddressSpace img k.mem (some (k.proc p).pagetable) trapframe (k.proc p).sz) :
    wp (freeproc img p) E (fun _ k' => Pages img k'.root k'.tf k'.mem boot ∧ Apart k k' p ∧
      (k'.proc p).state = .UNUSED ∧ ProcOk img k'.mem (k'.proc p)) k := by
  simp only [freeproc, wp_bind, wp_get]
  refine wp_mono (wp_freeTrapframe hp h) ?_
  rintro _ k₁ ⟨m₁, hk₁, hp₁, hkeeps₁⟩
  subst hk₁
  rw [wp_setProc]
  generalize hk₂ : (k.setMem m₁).setProc p (((k.setMem m₁).proc p).setTrapframe 0) = k₂
  have hproc₂ : ∀ q, q ≠ p → k₂.proc q = k.proc q := fun q hq => by
    rw [← hk₂, setProc_ne hq, setMem_proc]
  have hself₂ : k₂.proc p = (k.proc p).setTrapframe 0 := by rw [← hk₂, setProc_self, setMem_proc]
  have hroot₂ : k₂.root = k.root := by rw [← hk₂]; exact root_setProc_same rfl
  have htf₂ : k₂.tf = update k.tf p none := by rw [← hk₂, tf_setProc hp]; rfl
  have hmem₂ : k₂.mem = m₁ := by rw [← hk₂]; rfl
  have hapart₂ : Apart k k₂ p := by
    have hframe₁ := hkeeps₁.frame
    rw [← hmem₂] at hframe₁
    exact Apart.of_frame (fun _ _ => rfl) (fun q hq => update_of_ne hq _ _) hframe₁ hproc₂
      (by rw [← hk₂]; rfl)
  rw [← hroot₂, ← htf₂, ← hmem₂] at hp₁
  refine wp_mono (wp_freePagetable hp hp₁ (by rw [hself₂]; rfl) fun hne => ?_) ?_
  · obtain ⟨trapframe, hspace⟩ := hspace hne
    refine ⟨trapframe, hspace.congr fun w _ => ?_⟩
    have hw := hkeeps₁.leaf (some p) w
    rwa [root_some hp, ptr_of_ne hne, ← hmem₂] at hw
  · rintro _ k₃ ⟨m₃, hk₃, hp₃, hframe₃⟩
    subst hk₃
    rw [wp_setProc]
    refine ⟨?_, hapart₂.trans ?_, by simp, by simp [ProcOk, hself₂]⟩
    · rw [root_setProc hp, tf_setProc hp, setMem_tf, setMem_root, setMem_proc, hself₂]
      simp only [Proc.clear_pagetable, Proc.clear_trapframe, Proc.setTrapframe_trapframe, ptr_zero,
        setProc_mem, setMem_mem]
      rwa [htf₂, update_idem, ← htf₂]
    · exact Apart.of_frame (fun _ _ => rfl) (fun _ _ => rfl) hframe₃
        (fun q hq => by rw [setProc_ne hq, setMem_proc]) rfl

theorem wp_freeproc (hp : p < NPROC) (h : Pages img k.root k.tf k.mem boot)
    (hspace : (k.proc p).pagetable ≠ 0 → ∃ trapframe,
      AddressSpace img k.mem (some (k.proc p).pagetable) trapframe (k.proc p).sz) :
    wp (freeproc img p) E (fun _ k' => Pages img k'.root k'.tf k'.mem boot ∧
      (∀ q, q ≠ p → k'.proc q = k.proc q) ∧ (∀ q, q ≠ p → ∀ w,
        k'.mem.leaf (k.root (some q)) w = k.mem.leaf (k.root (some q)) w) ∧
      (k'.proc p).state = .UNUSED ∧ ProcOk img k'.mem (k'.proc p)) k :=
  wp_mono (wp_freeproc_apart hp h hspace) fun _ _ ⟨hpages, hapart, hstate, hok⟩ =>
    ⟨hpages, hapart.proc, hapart.leaf, hstate, hok⟩

/-- **The label `found` of `allocproc`.**  An unused entry gets an address space without user
    memory, or is unused again. -/
theorem wp_allocFound_apart (h : Pages img k.root k.tf k.mem boot) (hp : p < NPROC)
    (hok : ProcOk img k.mem (k.proc p)) (hs : (k.proc p).state = .UNUSED) :
    wp (allocFound img p) E (fun r k' => Pages img k'.root k'.tf k'.mem boot ∧ Apart k k' p ∧
      ProcOk img k'.mem (k'.proc p) ∧ match r with
        | none => (k'.proc p).state = .UNUSED
        | some np => np = p ∧ (k'.proc p).state = .USED ∧ (k'.proc p).sz = 0) k := by
  obtain ⟨hpt, htf, hsz⟩ := procOk_of_unused hok hs
  have hroot : k.root (some p) = none := by rw [root_some hp, hpt, ptr_zero]
  have htfp : k.tf p = none := by rw [tf_some hp, htf, ptr_zero]
  -- at a failure what has been allocated is freed
  have hbad : ∀ {k₁ : Kernel}, Pages img k₁.root k₁.tf k₁.mem boot → (k₁.proc p).pagetable = 0 →
      Apart k k₁ p → wp (freeproc img p) E (fun _ k' => Pages img k'.root k'.tf k'.mem boot ∧
        Apart k k' p ∧ ProcOk img k'.mem (k'.proc p) ∧ (k'.proc p).state = .UNUSED) k₁ := by
    intro k₁ hp₁ hpt₁ hapart₁
    refine wp_mono (wp_freeproc_apart hp hp₁ fun hne => absurd hpt₁ hne) ?_
    rintro _ k' ⟨hp', hapart', hs', hok'⟩
    exact ⟨hp', hapart₁.trans hapart', hok', hs'⟩
  have hR : update k.root (some p) none = k.root := by
    rw [← hroot, update_eq_self]
  have hT : update k.tf p none = k.tf := by rw [← htfp, update_eq_self]
  simp only [allocFound, allocpid, wp_bind, wp_get, wp_modify, wp_pure, wp_setProc, wp_vm]
  refine wp_mono (wp_kalloc (some p) h) ?_
  rintro r m₁ ⟨hkeeps₁, _, hr⟩
  cases r with
  | none =>
    rw [wp_bind]
    refine hbad ?_ ?_ ?_
    · simp only [root_setProc hp, tf_setProc hp, setMem_root, setMem_tf, setNextpid_root,
        setNextpid_tf, setMem_proc, setProc_self, setNextpid_proc, setProc_mem, setMem_mem,
        Option.getD_none, Proc.setTrapframe_trapframe, Proc.setTrapframe_pagetable,
        Proc.setState_pagetable, Proc.setPid_pagetable, Proc.setState_trapframe,
        Proc.setPid_trapframe, hpt, htf, ptr_zero, hR, hT]
      exact hr
    · simp [hpt]
    · exact Apart.of_frame (fun _ _ => rfl) (fun _ _ => rfl) hkeeps₁.frame
        (fun q hq => by simp only [setProc_ne hq, setMem_proc, setNextpid_proc]) rfl
  | some trapframe =>
    have hpa := hr.exact.mem trapframe List.mem_cons_self
    have hp₁ := hr.putTrapframe htfp
    generalize hk₂ : (((k.setNextpid _).setProc p _).setMem m₁).setProc p _ = k₂
    have hself₂ : k₂.proc p = (((k.proc p).setPid k.nextpid).setState .USED).setTrapframe trapframe := by
      rw [← hk₂]
      simp
    have hproc₂ : ∀ q, q ≠ p → k₂.proc q = k.proc q := fun q hq => by
      rw [← hk₂]
      simp only [setProc_ne hq, setMem_proc, setNextpid_proc]
    have hroot₂ : k₂.root = k.root := by
      rw [← hk₂]
      simp [root_setProc hp, hpt, ptr_zero, hR]
    have htf₂ : k₂.tf = update k.tf p (some trapframe) := by
      rw [← hk₂]
      simp [tf_setProc hp, ptr_of_ne hpa.ne_zero]
    have hmem₂ : k₂.mem = m₁ := by rw [← hk₂]; rfl
    have hfs₂ : k₂.fs = k.fs := by rw [← hk₂]; rfl
    clear hk₂
    have hapart₂ : Apart k k₂ p := by
      have hframe₁ : Frame img k.root k.tf (some p) boot k.mem m₁ := hkeeps₁.frame
      rw [← hmem₂] at hframe₁
      exact Apart.of_frame (fun _ _ => rfl) (fun _ _ => rfl) hframe₁ hproc₂ hfs₂
    simp only [wp_bind, wp_vm, wp_setProc]
    rw [hmem₂]
    refine wp_mono (wp_procPagetable hp₁ hroot hpa.lt) ?_
    rintro r m₃ ⟨hframe₃, hr₃⟩
    have hapart₃ : ∀ x, Apart k ((k₂.setMem m₃).setProc p x) p := fun x => by
      rw [← hroot₂, ← htf₂, ← hmem₂] at hframe₃
      exact hapart₂.trans (Apart.of_frame (fun _ _ => rfl) (fun _ _ => rfl) hframe₃
        (fun q hq => by rw [setProc_ne hq, setMem_proc]) rfl)
    cases r with
    | none =>
      rw [wp_bind]
      refine hbad ?_ (by simp) (hapart₃ _)
      rw [root_setProc_same (by simp [hself₂, hpt]), tf_setProc_same (by simp), setMem_root,
        setMem_tf, hroot₂, htf₂]
      exact hr₃
    | some root =>
      obtain ⟨hp₃, hspace⟩ := hr₃
      have hne : root ≠ 0 :=
        (hp₃.exact.owned (.table (some p) []) root (update_self ..)).ne_zero
      have htf₃ : ((k₂.setMem m₃).setProc p ((k₂.proc p).setPagetable root)).tf = k₂.tf :=
        tf_setProc_same rfl
      have hpages : Pages img ((k₂.setMem m₃).setProc p ((k₂.proc p).setPagetable root)).root
          ((k₂.setMem m₃).setProc p ((k₂.proc p).setPagetable root)).tf m₃ boot := by
        rw [root_setProc hp, htf₃, setMem_root, hroot₂, htf₂, Proc.setPagetable_pagetable,
          ptr_of_ne hne]
        exact hp₃
      refine ⟨hpages, hapart₃ _, ?_, rfl, ?_, ?_⟩
      · simp only [ProcOk, setProc_self, setMem_proc, hself₂]
        rw [if_neg (by simp)]
        refine ⟨hne, hpa.ne_zero, ?_⟩
        simp only [Proc.setPagetable_pagetable, Proc.setPagetable_trapframe, Proc.setPagetable_sz,
          Proc.setTrapframe_trapframe, Proc.setTrapframe_sz, Proc.setState_sz, Proc.setPid_sz, hsz]
        exact hspace
      · simp [hself₂]
      · simp [hself₂, hsz]

theorem wp_allocFound (h : Sound img boot k) (hp : p < NPROC) (hs : (k.proc p).state = .UNUSED) :
    wp (allocFound img p) E (fun r k' => Sound img boot k' ∧ (∀ q, q ≠ p → k'.proc q = k.proc q) ∧
      match r with
        | none => True
        | some np => np = p ∧ (k'.proc p).state = .USED ∧ (k'.proc p).sz = 0) k := by
  refine wp_mono (wp_allocFound_apart h.pages hp (h.procs p hp) hs) ?_
  rintro r k' ⟨hpages, hapart, hok, hr⟩
  refine ⟨h.change p hpages hapart.proc hapart.leaf fun _ => hok, hapart.proc, ?_⟩
  cases r with
  | none => trivial
  | some np => exact hr

/-- **`allocproc`** returns a process that was unused, with an address space without user
    memory. -/
theorem wp_allocproc (h : Sound img boot k) :
    wp (allocproc img) E (fun r k' => Sound img boot k' ∧
      (∀ q, (k.proc q).state ≠ .UNUSED → k'.proc q = k.proc q) ∧
      match r with
        | none => True
        | some np => np < NPROC ∧ (k.proc np).state = .UNUSED ∧ (k'.proc np).state = .USED ∧
            (k'.proc np).sz = 0) k := by
  simp only [allocproc, wp_bind, wp_get]
  split
  · exact ⟨h, fun _ _ => rfl, trivial⟩
  · rename_i p hfind
    have hp : p < NPROC := List.mem_range.mp (List.mem_of_find?_eq_some hfind)
    have hs : (k.proc p).state = .UNUSED := by simpa using List.find?_some hfind
    refine wp_mono (wp_allocFound h hp hs) ?_
    rintro r k' ⟨hsound, hproc, hr⟩
    refine ⟨hsound, fun q hq => hproc q fun heq => hq (heq ▸ hs), ?_⟩
    cases r with
    | none => trivial
    | some np =>
      obtain ⟨rfl, hused, hsz⟩ := hr
      exact ⟨hp, hs, hused, hsz⟩

theorem wp_allocproc_apart (h : Pages img k.root k.tf k.mem boot)
    (hok : ∀ q < NPROC, (k.proc q).state = .UNUSED → ProcOk img k.mem (k.proc q)) :
    wp (allocproc img) E (fun r k' => ∀ np, r = some np → np < NPROC ∧
      (k.proc np).state = .UNUSED ∧ Pages img k'.root k'.tf k'.mem boot ∧ Apart k k' np ∧
      ProcOk img k'.mem (k'.proc np) ∧ (k'.proc np).state = .USED ∧ (k'.proc np).sz = 0) k := by
  simp only [allocproc, wp_bind, wp_get]
  split
  · exact fun np hnp => by cases hnp
  · rename_i p hfind
    have hp : p < NPROC := List.mem_range.mp (List.mem_of_find?_eq_some hfind)
    have hs : (k.proc p).state = .UNUSED := by simpa using List.find?_some hfind
    refine wp_mono (wp_allocFound_apart h hp (hok p hp hs) hs) ?_
    rintro r k' ⟨hpages, hapart, hok', hr⟩ np hnp
    subst hnp
    obtain ⟨rfl, hused, hsz⟩ := hr
    exact ⟨hp, hs, hpages, hapart, hok', hused, hsz⟩

end Alloc

end Xv6.Process
