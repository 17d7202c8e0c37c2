import Xv6.Process.Load
import Xv6.Fs.System
import Xv6.Lib.Transition

/-!
# Address spaces over whole runs

The operations on processes as a transition system.  A run takes any operations of any
processes in any order, while anything may happen in the file system and `kalloc` may fail at
any call.
-/

namespace Xv6.Process

open ByteView Hoare Ledger Vm Fs Transition

inductive Op where
  | userinit (initcode : Nat → UInt8)
  | forkret (p : Nat)
  | growproc (p : Nat) (n : Int)
  | kfork (p : Nat)
  | kexec (p : Nat) (path : List UInt8) (argv : List (List UInt8))
  | chdir (p : Nat) (path : List UInt8)
  | kexit (p : Nat) (status : UInt32)
  | kwait (p addr : Nat)
  | kkill (pid : Int)
  | schedule (p : Nat)
  | yield (p : Nat)
  /-- The user program of `p` stores a byte. -/
  | store (p va : Nat) (b : UInt8)
  /-- Whatever else happens in the file system. -/
  | files (s : Fs.State)

section System

variable (img : Image) (sb : Superblock)

def exec : Op → KM Unit
  | .userinit initcode => userinit img initcode
  | .forkret p => forkret img sb p
  | .growproc p n => do let _ ← growproc img p n
  | .kfork p => do let _ ← kfork img p
  | .kexec p path argv => do let _ ← kexec img sb p path argv
  | .chdir p path => do let _ ← chdir sb p path
  | .kexit p status => kexit sb p status
  | .kwait p addr => do let _ ← kwait img p addr
  | .kkill pid => do let _ ← kkill pid
  | .schedule p => schedule p
  | .yield p => yield p
  | .store p va b => userStore p va b
  | .files s => modify fun k => k.setFs s

def step (k : Kernel) (op : Op) : Outcome Stop Kernel :=
  match exec img sb op k with
  | .ok (_, k') => .done k'
  | .error (.fs .asleep) => .blocked
  | .error e => .fail e

def running (k : Kernel) (p : Nat) : Bool := decide (p < NPROC ∧ (k.proc p).state = .RUNNING)

/-- A process makes calls while it runs, and `sys_exec` passes less than `MAXARG`
    arguments. -/
def allowed (k : Kernel) : Op → Bool
  | .growproc p n => running k p && decide (-2 ^ 31 ≤ n ∧ n < 2 ^ 31)
  | .kexec p _ argv => running k p && decide (argv.length < MAXARG)
  | .forkret p | .kfork p | .chdir p _ | .kexit p _ | .kwait p _ | .yield p | .store p _ _ =>
    running k p
  | .schedule p => decide (p < NPROC ∧ (k.proc p).state = .RUNNABLE)
  | .userinit _ | .kkill _ | .files _ => true

variable {img sb} {boot : List Nat} {k k' k₀ : Kernel} {op : Op} {p : Nat}

theorem running_iff : running k p = true ↔ p < NPROC ∧ (k.proc p).state = .RUNNING :=
  decide_eq_true_iff

theorem running_alive (h : running k p = true) : p < NPROC ∧ (k.proc p).state ≠ .UNUSED := by
  obtain ⟨hp, hs⟩ := running_iff.mp h
  exact ⟨hp, by simp [hs]⟩

theorem Sound.wp_kexec (h : Sound img boot k) (hp : p < NPROC) (hs : (k.proc p).state ≠ .UNUSED)
    (path : List UInt8) (argv : List (List UInt8)) :
    wp (kexec img sb p path argv) Excused (fun _ k' => Sound img boot k') k := by
  refine wp_mono (Process.wp_kexec (P := anyFileCalls sb (k.proc p).cwd path) (fun _ _ => trivial)
    h hp hs rfl trivial argv) fun r k' ⟨_, hpost⟩ => ?_
  rcases hpost with ⟨-, hrestored⟩ | ⟨-, hsound, -⟩
  · exact hrestored.sound h
  · exact hsound

theorem Sound.setCwd (h : Sound img boot k) (p : Nat) (cwd : Option Nat) :
    Sound img boot (k.setProc p ((k.proc p).setCwd cwd)) :=
  h.setProc rfl rfl rfl Iff.rfl

theorem wp_forkret (h : Sound img boot k) (hp : p < NPROC) (hs : (k.proc p).state ≠ .UNUSED) :
    wp (forkret img sb p) Excused (fun _ k' => Sound img boot k') k := by
  simp only [forkret, wp_bind, wp_get, wp_when]
  refine ⟨fun _ => ?_, fun _ => h⟩
  refine wp_mono (wp_fs_any _) ?_
  rintro cwd k₁ ⟨s₁, hk₁⟩
  subst hk₁
  rw [wp_setProc]
  have hs₂ : (((k.setFs s₁).setProc p (((k.setFs s₁).proc p).setCwd cwd)).proc p).state ≠
      .UNUSED := by
    rw [setProc_self]
    exact hs
  refine wp_mono (((h.setFs s₁).setCwd p cwd).wp_kexec hp hs₂ _ _) fun r k₃ h₃ => ?_
  rw [wp_ite]
  exact ⟨fun _ => trivial, fun _ => ⟨h₃.pages, h₃.procs⟩⟩

theorem wp_chdir (h : Sound img boot k) (path : List UInt8) :
    wp (chdir sb p path) Excused (fun _ k' => Sound img boot k') k := by
  simp only [chdir, wp_bind, wp_get]
  refine wp_mono (wp_fs_any _) ?_
  rintro r k₁ ⟨s₁, hk₁⟩
  subst hk₁
  cases r with
  | none => exact h.setFs s₁
  | some ip =>
    rw [wp_bind]
    refine wp_mono (wp_fs_any _) ?_
    rintro _ k₂ ⟨s₂, hk₂⟩
    subst hk₂
    cases hcwd : (k.proc p).cwd with
    | none => trivial
    | some cwd =>
      simp only [wp_bind]
      refine wp_mono (wp_fs_any _) ?_
      rintro _ k₃ ⟨s₃, hk₃⟩
      subst hk₃
      rw [wp_setProc]
      refine wp_mono (wp_fs_any _) ?_
      rintro _ k₄ ⟨s₄, hk₄⟩
      subst hk₄
      exact ((((h.setFs s₁).setFs s₂).setFs s₃).setCwd p (some ip)).setFs s₄

/-- **Every operation keeps the invariant**, and stops only where it is excused. -/
theorem wp_exec (h : Sound img boot k) (hok : allowed k op = true) :
    wp (exec img sb op) Excused (fun _ k' => Sound img boot k') k := by
  cases op with
  | userinit initcode => exact wp_userinit h initcode
  | forkret p =>
    obtain ⟨hp, hs⟩ := running_alive hok
    exact wp_forkret h hp hs
  | growproc p n =>
    simp only [allowed, Bool.and_eq_true, decide_eq_true_eq] at hok
    obtain ⟨hrun, hlow, hhigh⟩ := hok
    obtain ⟨hp, hs⟩ := running_alive hrun
    simp only [exec, wp_bind]
    exact wp_growproc h hp hs hlow hhigh
  | kfork p =>
    obtain ⟨hp, hs⟩ := running_alive hok
    simp only [exec, wp_bind]
    exact wp_kfork h hp hs
  | kexec p path argv =>
    simp only [allowed, Bool.and_eq_true] at hok
    obtain ⟨hp, hs⟩ := running_alive hok.1
    simp only [exec, wp_bind]
    exact h.wp_kexec hp hs path argv
  | chdir p path =>
    simp only [exec, wp_bind]
    exact wp_chdir h path
  | kexit p status => exact wp_kexit h sb (running_alive hok).2 status
  | kwait p addr =>
    obtain ⟨hp, hs⟩ := running_alive hok
    simp only [exec, wp_bind]
    exact wp_kwait h hp hs addr
  | kkill pid =>
    simp only [exec, wp_bind]
    exact wp_kkill h pid
  | schedule p =>
    obtain ⟨-, hs⟩ := of_decide_eq_true hok
    exact h.setProc rfl rfl rfl (by simp [hs])
  | yield p =>
    obtain ⟨-, hs⟩ := running_iff.mp hok
    exact h.setProc rfl rfl rfl (by simp [hs])
  | store p va b =>
    obtain ⟨hp, hs⟩ := running_alive hok
    exact wp_userStore h hp hs va b
  | files s => exact h.setFs s

theorem step_sound (h : Sound img boot k) (hok : allowed k op = true)
    (hs : step img sb k op = .done k') : Sound img boot k' := by
  unfold step at hs
  split at hs
  · rename_i hexec
    cases hs
    exact wp_ok (wp_exec h hok) hexec
  · cases hs
  · cases hs

theorem step_excused (h : Sound img boot k) (hok : allowed k op = true) {e : Stop}
    (hs : step img sb k op = .fail e) : Excused e := by
  unfold step at hs
  split at hs
  · cases hs
  · cases hs
  · rename_i hexec
    cases hs
    exact wp_error (wp_exec h hok) hexec

/-- The kernel before `userinit`: no process is in use, and the pages that are not in `boot`,
    the ones that the kernel has allocated for itself, are free. -/
structure Booted (img : Image) (boot : List Nat) (k : Kernel) : Prop where
  unused : ∀ p < NPROC, (k.proc p).state = .UNUSED ∧ (k.proc p).pagetable = 0 ∧
    (k.proc p).trapframe = 0 ∧ (k.proc p).sz = 0
  free : k.mem.freelist.Nodup
  kept : boot.Nodup
  apart : ∀ pa ∈ boot, pa ∉ k.mem.freelist
  all : ∀ pa, Allocatable img pa ↔ pa ∈ k.mem.freelist ∨ pa ∈ boot

theorem Booted.root (h : Booted img boot k) (o : Owner) : k.root o = none := by
  cases o with
  | none => rfl
  | some p =>
    by_cases hp : p < NPROC
    · rw [root_some hp, (h.unused p hp).2.1, ptr_zero]
    · exact if_neg hp

theorem Booted.own (h : Booted img boot k) (s : Vm.Slot) : own k.root k.tf k.mem s = none := by
  have htable : ∀ o path, k.mem.table (k.root o) path = none := fun o path => by
    rw [h.root]
    exact PtrTree.node_root_none path
  cases s with
  | trapframe p =>
    by_cases hp : p < NPROC
    · exact (tf_some hp).trans (by rw [(h.unused p hp).2.2.1, ptr_zero])
    · exact if_neg hp
  | table o path => simp only [Vm.own, htable, ite_self]
  | page o v => simp only [Vm.own, Mem.leaf, htable, Option.bind_none, Option.map_none, ite_self]

theorem Booted.sound (h : Booted img boot k) : Sound img boot k := by
  refine ⟨⟨⟨⟨?_, ?_, h.kept, ?_, ?_, ?_⟩, h.free, ?_⟩, ?_⟩, fun p hp => ?_⟩
  · intro s t pa hs
    rw [h.own] at hs
    cases hs
  · intro s pa hs
    rw [h.own] at hs
    cases hs
  · exact fun pa hpa => (h.all pa).mpr (Or.inr hpa)
  · intro pa _ s hs
    rw [h.own] at hs
    cases hs
  · intro pa hpa
    simp only [h.own, ne_eq, reduceCtorEq, not_false_eq_true, implies_true, true_and]
    exact ⟨fun hfree hboot => h.apart pa hboot hfree, ((h.all pa).mp hpa).resolve_right⟩
  · exact fun pa hpa => (h.all pa).mpr (Or.inl hpa)
  · intro o path pa i _ htable
    rw [h.root, Mem.table, PtrTree.node_root_none] at htable
    cases htable
  · obtain ⟨hs, hrest⟩ := h.unused p hp
    unfold ProcOk
    rwa [if_pos hs]

theorem reachable_sound (h₀ : Booted img boot k₀)
    (hk : Reachable k₀ (step img sb) (fun k op => allowed k op = true) k) : Sound img boot k :=
  hk.invariant h₀.sound fun _ hI hok hstep => step_sound hI hok hstep

/-! ### Where a page is -/

/-- The places that a physical page can be in. -/
inductive Place where
  | freelist
  /-- Allocated by the kernel at boot. -/
  | boot
  | trapframe (p : Nat)
  /-- A page of the page table of `p`, at the end of a path from its root. -/
  | table (p : Nat) (path : List (Fin 512))
  /-- The target of the leaf of virtual page `v` of `p`. -/
  | leaf (p v : Nat)

def Kernel.InUse (k : Kernel) (p : Nat) : Prop := p < NPROC ∧ (k.proc p).state ≠ .UNUSED

def Kernel.leaf (k : Kernel) (p v : Nat) : Option Nat := k.mem.leaf (some (k.proc p).pagetable) v

def Kernel.InPlace (k : Kernel) (boot : List Nat) (pa : Nat) : Place → Prop
  | .freelist => pa ∈ k.mem.freelist
  | .boot => pa ∈ boot
  | .trapframe p => k.InUse p ∧ (k.proc p).trapframe = pa
  | .table p path => k.InUse p ∧ path.length ≤ 2 ∧
      k.mem.table (some (k.proc p).pagetable) path = some pa
  | .leaf p v => k.InUse p ∧ v < UPAGES ∧ ∃ pte, k.leaf p v = some pte ∧ PTE2PA pte = pa

/-- The slot of a place in a process. -/
def Place.slot : Place → Option Vm.Slot
  | .freelist | .boot => none
  | .trapframe p => some (.trapframe p)
  | .table p path => some (.table (some p) path)
  | .leaf p v => some (.page (some p) v)

theorem Place.slot_inj {x y : Place} {s : Vm.Slot} (hx : x.slot = some s) (hy : y.slot = some s) :
    x = y := by
  cases x <;> cases hx <;> cases y <;> cases hy <;> rfl

theorem Sound.own_of_inPlace (h : Sound img boot k) {x : Place} {s : Vm.Slot} {pa : Nat}
    (hx : x.slot = some s) (hin : k.InPlace boot pa x) : own k.root k.tf k.mem s = some pa := by
  cases x with
  | freelist => cases hx
  | boot => cases hx
  | trapframe p =>
    cases hx
    obtain ⟨⟨hp, hs⟩, htf⟩ := hin
    exact htf ▸ (h.alive hp hs).2.1
  | table p path =>
    cases hx
    obtain ⟨⟨hp, hs⟩, hlen, htable⟩ := hin
    simp only [own, if_pos hlen, (h.alive hp hs).1]
    exact htable
  | leaf p v =>
    cases hx
    obtain ⟨⟨hp, hs⟩, hv, pte, hleaf, hpa⟩ := hin
    simp only [own, if_pos hv, (h.alive hp hs).1]
    rw [Kernel.leaf] at hleaf
    rw [hleaf, Option.map_some, hpa]

theorem Sound.inUse (h : Sound img boot k) (hp : p < NPROC)
    (hne : (k.proc p).pagetable ≠ 0 ∨ (k.proc p).trapframe ≠ 0) : k.InUse p := by
  refine ⟨hp, fun hs => ?_⟩
  obtain ⟨hpt, htf, -⟩ := procOk_of_unused (h.procs p hp) hs
  exact hne.elim (absurd hpt) (absurd htf)

theorem Sound.root_inUse (h : Sound img boot k) {o : Owner} {r : Nat} (hr : k.root o = some r) :
    ∃ p, o = some p ∧ k.InUse p ∧ (k.proc p).pagetable = r := by
  cases o with
  | none => cases hr
  | some p =>
    obtain ⟨hp, hr⟩ := Option.ite_none_right_eq_some.mp hr
    obtain ⟨hne, hr⟩ := Option.ite_none_right_eq_some.mp hr
    exact ⟨p, rfl, h.inUse hp (Or.inl hne), Option.some.inj hr⟩

theorem Sound.inPlace_of_own (h : Sound img boot k) {s : Vm.Slot} {pa : Nat}
    (hs : own k.root k.tf k.mem s = some pa) : ∃ x, x.slot = some s ∧ k.InPlace boot pa x := by
  have hroot : ∀ {o path a}, k.mem.table (k.root o) path = some a → ∃ r, k.root o = some r := by
    intro o path a htable
    cases hr : k.root o with
    | none =>
      rw [hr, Mem.table, PtrTree.node_root_none] at htable
      cases htable
    | some r => exact ⟨r, rfl⟩
  cases s with
  | trapframe p =>
    obtain ⟨hp, htf⟩ := Option.ite_none_right_eq_some.mp hs
    obtain ⟨hne, htf⟩ := Option.ite_none_right_eq_some.mp htf
    exact ⟨.trapframe p, rfl, h.inUse hp (Or.inr hne), Option.some.inj htf⟩
  | table o path =>
    obtain ⟨hlen, htable⟩ := Option.ite_none_right_eq_some.mp hs
    obtain ⟨r, hr⟩ := hroot htable
    obtain ⟨p, rfl, huse, rfl⟩ := h.root_inUse hr
    exact ⟨.table p path, rfl, huse, hlen, hr ▸ htable⟩
  | page o v =>
    obtain ⟨hv, hmap⟩ := Option.ite_none_right_eq_some.mp hs
    obtain ⟨pte, hleaf, hpa⟩ := Option.map_eq_some_iff.mp hmap
    obtain ⟨a, htable, -⟩ := Option.bind_eq_some_iff.mp hleaf
    obtain ⟨r, hr⟩ := hroot htable
    obtain ⟨p, rfl, huse, rfl⟩ := h.root_inUse hr
    rw [hr] at hleaf
    exact ⟨.leaf p v, rfl, huse, hv, pte, hleaf, hpa⟩

theorem inPlace_of_slot_none {x : Place} {pa : Nat} (hs : x.slot = none)
    (hx : k.InPlace boot pa x) :
    (x = .freelist ∧ pa ∈ k.mem.freelist) ∨ (x = .boot ∧ pa ∈ boot) := by
  cases x with
  | freelist => exact Or.inl ⟨rfl, hx⟩
  | boot => exact Or.inr ⟨rfl, hx⟩
  | trapframe p => cases hs
  | table p path => cases hs
  | leaf p v => cases hs

theorem Sound.slot_ne_none (h : Sound img boot k) {x y : Place} {s : Vm.Slot} {pa : Nat}
    (hs : x.slot = some s) (hx : k.InPlace boot pa x) (hy : k.InPlace boot pa y) :
    y.slot ≠ none := by
  have hown := h.own_of_inPlace hs hx
  intro hnone
  rcases inPlace_of_slot_none hnone hy with ⟨-, hfree⟩ | ⟨-, hkept⟩
  · exact h.pages.exact.not_free_of_owned hown hfree
  · exact h.pages.exact.apart pa hkept s hown

theorem Sound.place_unique (h : Sound img boot k) {x y : Place} {pa : Nat}
    (hx : k.InPlace boot pa x) (hy : k.InPlace boot pa y) : x = y := by
  have hexact := h.pages.exact
  cases hsx : x.slot with
  | some s =>
    obtain ⟨t, hsy⟩ := Option.ne_none_iff_exists'.mp (h.slot_ne_none hsx hx hy)
    have hst := hexact.once s t pa (h.own_of_inPlace hsx hx) (h.own_of_inPlace hsy hy)
    exact Place.slot_inj (hsx.trans (congrArg some hst)) hsy
  | none =>
    have hsy : y.slot = none := by
      cases hsy : y.slot with
      | none => rfl
      | some t => exact absurd hsx (h.slot_ne_none hsy hy hx)
    rcases inPlace_of_slot_none hsx hx with ⟨rfl, hfree⟩ | ⟨rfl, hkept⟩ <;>
      rcases inPlace_of_slot_none hsy hy with ⟨rfl, hfree'⟩ | ⟨rfl, hkept'⟩
    · rfl
    · exact absurd hfree (hexact.not_free_of_loose hkept')
    · exact absurd hfree' (hexact.not_free_of_loose hkept)
    · rfl

theorem Sound.place_iff (h : Sound img boot k) (pa : Nat) :
    (∃ x, k.InPlace boot pa x) ↔ Allocatable img pa := by
  have hexact := h.pages.exact
  constructor
  · rintro ⟨x, hx⟩
    cases hs : x.slot with
    | some s => exact hexact.owned s pa (h.own_of_inPlace hs hx)
    | none =>
      rcases inPlace_of_slot_none hs hx with ⟨-, hfree⟩ | ⟨-, hkept⟩
      · exact h.pages.free pa hfree
      · exact hexact.mem pa hkept
  · intro hpa
    by_cases hfree : pa ∈ k.mem.freelist
    · exact ⟨.freelist, hfree⟩
    by_cases hkept : pa ∈ boot
    · exact ⟨.boot, hkept⟩
    by_contra hnone
    refine hfree ((hexact.free_iff pa hpa).mpr ⟨fun s hs => ?_, hkept⟩)
    obtain ⟨x, -, hx⟩ := h.inPlace_of_own hs
    exact hnone ⟨x, hx⟩

theorem Sound.inPlace_of_user (h : Sound img boot k) (huse : k.InUse p) {v pte : Nat}
    (hv : v < VPAGES) (hleaf : k.leaf p v = some pte) (huser : pte &&& PTE_U ≠ 0) :
    k.InPlace boot (PTE2PA pte) (.leaf p v) := by
  refine ⟨huse, ?_, pte, hleaf, rfl⟩
  by_contra hge
  exact huser ((h.alive huse.1 huse.2).2.2.noUser v (Nat.not_lt.mp hge) hv pte hleaf)

/-- **Every allocatable page is in exactly one place**, at every operation boundary of every
    run: on the free list, once, or in the hands of the kernel since boot, or the trapframe, a
    page of the page table, or the target of a leaf below `TRAPFRAME` of one process.  Pages
    open to the user are not shared. -/
theorem pages_in_one_place (h₀ : Booted img boot k₀)
    (hk : Reachable k₀ (step img sb) (fun k op => allowed k op = true) k) :
    k.mem.freelist.Nodup ∧ (∀ pa, Allocatable img pa → ∃! x, k.InPlace boot pa x) ∧
      (∀ pa x, k.InPlace boot pa x → Allocatable img pa) ∧
      ∀ p q v w e f, k.InUse p → k.InUse q → p ≠ q → v < VPAGES → w < VPAGES →
        k.leaf p v = some e → e &&& PTE_U ≠ 0 → k.leaf q w = some f → f &&& PTE_U ≠ 0 →
        PTE2PA e ≠ PTE2PA f := by
  have h := reachable_sound h₀ hk
  refine ⟨h.pages.nodup, fun pa hpa => ?_, fun pa x hx => (h.place_iff pa).mp ⟨x, hx⟩, ?_⟩
  · obtain ⟨x, hx⟩ := (h.place_iff pa).mpr hpa
    exact ⟨x, hx, fun y hy => h.place_unique hy hx⟩
  · intro p q v w e f hp hq hpq hv hw hle hue hlf huf heq
    have hx := h.inPlace_of_user hp hv hle hue
    rw [heq] at hx
    have hsame := h.place_unique hx (h.inPlace_of_user hq hw hlf huf)
    exact hpq (Place.leaf.inj hsame).1

/-- **User memory is mapped up to `sz`**, in every process of every state of every run, and
    the two pages above it are mapped for the kernel only; so no operation maps a page twice
    or leaves a leaf in a page table that it takes down. -/
theorem spaces_fit (h₀ : Booted img boot k₀)
    (hk : Reachable k₀ (step img sb) (fun k op => allowed k op = true) k) :
    (∀ p, k.InUse p →
      (∀ v < TRAPFRAME / PGSIZE, k.leaf p v ≠ none ↔ v < PGROUNDUP (k.proc p).sz / PGSIZE) ∧
      (∃ e, k.leaf p (TRAPFRAME / PGSIZE) = some e ∧ e &&& PTE_U = 0 ∧
        PTE2PA e = (k.proc p).trapframe) ∧
      ∃ e, k.leaf p (TRAMPOLINE / PGSIZE) = some e ∧ e &&& PTE_U = 0 ∧
        PTE2PA e = img.trampoline) ∧
    ∀ op, allowed k op = true → step img sb k op ≠ .fail (.vm .mappagesRemap) ∧
      step img sb k op ≠ .fail (.vm .freewalkLeaf) := by
  have h := reachable_sound h₀ hk
  refine ⟨fun p ⟨hp, hs⟩ => ?_, fun op hok => ⟨fun hfail => ?_, fun hfail => ?_⟩⟩
  · obtain ⟨-, htf, hspace⟩ := h.alive hp hs
    have halloc : Allocatable img (k.proc p).trapframe := h.pages.exact.owned (.trapframe p) _ htf
    have hkernel : ∀ v e, UPAGES ≤ v → v < VPAGES → k.leaf p v = some e → e &&& PTE_U = 0 :=
      fun v e hv hvV he => hspace.noUser v hv hvV e he
    refine ⟨hspace.mapped, ⟨_, hspace.trapframe, ?_, ?_⟩, _, hspace.trampoline, ?_, ?_⟩
    · exact hkernel _ _ (Nat.le_refl _) (by decide) hspace.trapframe
    · exact PTE2PA_entry halloc.1 halloc.lt (by decide)
    · exact hkernel _ _ (Nat.le_succ _) (by decide) hspace.trampoline
    · exact PTE2PA_entry img.trampoline_aligned img.trampoline_lt_pow (by decide)
  · rcases step_excused h hok hfail with he | he <;> cases he
  · rcases step_excused h hok hfail with he | he <;> cases he

end System

/-! ### A run -/

section Example

/-- A kernel that leaves 16 pages. -/
def smallImage : Image where
  kend := PHYSTOP - 16 * PGSIZE
  trampoline := KERNBASE
  trampoline_aligned := KERNBASE_aligned
  kernbase_le := Nat.le_refl _
  trampoline_lt := by decide
  kend_le := by decide

def smallMem : Mem where
  page := fun _ _ => 0
  freelist := (List.range 16).map fun i => PHYSTOP - (i + 1) * PGSIZE
  outOfMemory := fun _ => false
  kallocs := 0

def smallKernel : Kernel where
  mem := smallMem
  fs := Fs.boot
  proc := fun _ => ⟨.UNUSED, none, false, 0, 0, none, 0, 0, 0, none, fun _ => 0⟩
  nextpid := 1
  initproc := none
  first := true

/-- The first process is set up, is scheduled and grows. -/
def smallOps : List Op := [.userinit fun _ => 0, .schedule 0, .growproc 0 4096]

theorem smallOps_runs :
    (run (step smallImage Mkfs.sb) allowed smallKernel smallOps).isSome = true := by
  decide +kernel

theorem smallKernel_booted : Booted smallImage [] smallKernel := by
  have hP : PGSIZE = 4096 := rfl
  have hS : PHYSTOP = 0x88000000 := rfl
  refine ⟨fun _ _ => ⟨rfl, rfl, rfl, rfl⟩, by decide, List.nodup_nil, by simp, fun pa => ?_⟩
  simp only [List.not_mem_nil, or_false, smallKernel, smallMem, List.mem_map, List.mem_range,
    Allocatable, smallImage]
  rw [hP, hS]
  constructor
  · rintro ⟨hmod, hlow, hhigh⟩
    exact ⟨(0x88000000 - pa) / 4096 - 1, by omega, by omega⟩
  · rintro ⟨i, hi, rfl⟩
    omega

def smallState : Kernel := finalState (step smallImage Mkfs.sb) allowed smallKernel smallOps

theorem smallState_sound : Sound smallImage [] smallState :=
  reachable_sound smallKernel_booted (reachable_finalState smallOps_runs)

theorem pages_in_one_place_smallState : smallState.mem.freelist.Nodup ∧
    (∀ pa, Allocatable smallImage pa → ∃! x, smallState.InPlace [] pa x) ∧
      (∀ pa x, smallState.InPlace [] pa x → Allocatable smallImage pa) ∧
      ∀ p q v w e f, smallState.InUse p → smallState.InUse q → p ≠ q → v < VPAGES → w < VPAGES →
        smallState.leaf p v = some e → e &&& PTE_U ≠ 0 → smallState.leaf q w = some f →
        f &&& PTE_U ≠ 0 → PTE2PA e ≠ PTE2PA f :=
  pages_in_one_place smallKernel_booted (reachable_finalState smallOps_runs)

theorem spaces_fit_smallState :
    (∀ p, smallState.InUse p →
      (∀ v < TRAPFRAME / PGSIZE,
        smallState.leaf p v ≠ none ↔ v < PGROUNDUP (smallState.proc p).sz / PGSIZE) ∧
      (∃ e, smallState.leaf p (TRAPFRAME / PGSIZE) = some e ∧ e &&& PTE_U = 0 ∧
        PTE2PA e = (smallState.proc p).trapframe) ∧
      ∃ e, smallState.leaf p (TRAMPOLINE / PGSIZE) = some e ∧ e &&& PTE_U = 0 ∧
        PTE2PA e = smallImage.trampoline) ∧
    ∀ op, allowed smallState op = true →
      step smallImage Mkfs.sb smallState op ≠ .fail (.vm .mappagesRemap) ∧
      step smallImage Mkfs.sb smallState op ≠ .fail (.vm .freewalkLeaf) :=
  spaces_fit smallKernel_booted (reachable_finalState smallOps_runs)

end Example

end Xv6.Process
