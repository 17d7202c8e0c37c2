import Xv6.Process.Spaces

/-!
# Processes from creation to exit

`userinit`, `growproc`, `kfork`, `kexit` and `kwait` keep the invariant of the process table.
What the file system does in them is left open.
-/

namespace Xv6.Process

open ByteView Hoare Ledger Vm Fs

/-- The ways in which the functions of this module and `kexec` may stop: whatever the file
    system stops with, and the panics of the first process when memory is short. -/
def Excused : Stop → Prop
  | .vm e => e = .uvmfirstKalloc ∨ e = .uvmfirstMappages
  | .loadsegAddress => False
  | _ => True

section

variable {img : Image} {boot : List Nat} {k k' : Kernel} {p : Nat} {x : Proc} {m : Mem}

theorem wp_fs_any {α : Type} (c : FsM α) :
    wp (fs c) Excused (fun _ k' => ∃ s, k' = k.setFs s) k := by
  rw [wp_fs]
  exact wp_mono (wp_any fun _ => trivial) fun _ s _ => ⟨s, rfl⟩

theorem Sound.setSpace (h : Sound img boot k) (hp : p < NPROC)
    (hpages : Pages img k.root k.tf m boot)
    (hframe : Frame img k.root k.tf (some p) boot k.mem m)
    (hpt : x.pagetable = (k.proc p).pagetable) (htf : x.trapframe = (k.proc p).trapframe)
    (hstate : x.state = (k.proc p).state) (hs : (k.proc p).state ≠ .UNUSED)
    (hspace : AddressSpace img m (some (k.proc p).pagetable) (k.proc p).trapframe x.sz) :
    Sound img boot ((k.setMem m).setProc p x) := by
  have hproc : ∀ q, q ≠ p → ((k.setMem m).setProc p x).proc q = k.proc q := fun q hq => by
    rw [setProc_ne hq, setMem_proc]
  refine h.change p ?_ hproc (fun q hq => hframe.leaf (by simpa using hq)) fun _ => ?_
  · have hroot' : ((k.setMem m).setProc p x).root = k.root := root_setProc_same hpt
    have htf' : ((k.setMem m).setProc p x).tf = k.tf := tf_setProc_same htf
    rw [hroot', htf']
    exact hpages
  · obtain ⟨hne, hne', -⟩ := procOk_of_alive (h.procs p hp) hs
    rw [setProc_self]
    unfold ProcOk
    rw [if_neg (hstate ▸ hs), hpt, htf]
    exact ⟨hne, hne', hspace⟩

theorem Sound.keepSpace (h : Sound img boot k) (hp : p < NPROC)
    (hpages : Pages img k.root k.tf m boot)
    (hframe : Frame img k.root k.tf (some p) boot k.mem m) (hs : (k.proc p).state ≠ .UNUSED)
    (hleaf : ∀ w < VPAGES, m.leaf (k.root (some p)) w = k.mem.leaf (k.root (some p)) w) :
    Sound img boot (k.setMem m) := by
  refine h.change p hpages (fun _ _ => rfl) (fun q hq => hframe.leaf (by simpa using hq)) fun _ => ?_
  obtain ⟨hne, hne', hspace⟩ := procOk_of_alive (h.procs p hp) hs
  unfold ProcOk
  rw [setMem_proc, if_neg hs]
  rw [root_some hp, ptr_of_ne hne] at hleaf
  exact ⟨hne, hne', hspace.congr hleaf⟩

/-! ### `growproc` -/

theorem intToU64_of_nonneg {n : Int} (h : 0 ≤ n) (hlt : n < 2 ^ 31) :
    (intToU64 n : Int) = n := by
  unfold intToU64
  omega

theorem u64_add_neg {sz : Nat} {n : Int} (hneg : n < 0) (hn : -2 ^ 31 ≤ n) (hsz : sz ≤ TRAPFRAME)
    (h : ¬ intToU64 (negInt n) > sz) : (u64 (sz + intToU64 n) : Int) = sz + n := by
  have hT : TRAPFRAME = (2 ^ 26 - 2) * 4096 := rfl
  unfold negInt at h
  split at h
  · rename_i hmin
    subst hmin
    exfalso
    apply h
    rw [show intToU64 (-2 ^ 31) = 2 ^ 64 - 2 ^ 31 from by decide]
    omega
  · unfold intToU64 at h ⊢
    unfold u64
    omega

theorem wp_growproc (h : Sound img boot k) (hp : p < NPROC) (hs : (k.proc p).state ≠ .UNUSED)
    {n : Int} (hlow : -2 ^ 31 ≤ n) (hhigh : n < 2 ^ 31) :
    wp (growproc img p n) Excused (fun _ k' => Sound img boot k') k := by
  obtain ⟨hroot, -, hspace⟩ := h.alive hp hs
  have hsz := hspace.size
  have hmapped := hspace.mapped
  rw [← hroot] at hmapped
  simp only [growproc, wp_bind, wp_get]
  split
  · rename_i hpos
    split
    · exact h
    · rename_i hfits
      obtain ⟨hge, hlt⟩ := not_or.mp hfits
      simp only [wp_bind, wp_vm]
      refine wp_mono (wp_uvmalloc h.pages hroot hmapped hsz (by decide)) ?_
      rintro r m ⟨hframe, hpages, hpost⟩
      rcases hpost with ⟨hsmall, -⟩ | ⟨rfl, hleaf⟩ | ⟨-, hle, rfl, hext⟩
      · exact absurd hsmall hge
      · rw [if_pos rfl]
        exact h.keepSpace hp hpages hframe hs hleaf
      · split
        · -- the new size is not 0
          rename_i hzero
          have hnat := intToU64_of_nonneg (Int.le_of_lt hpos) hhigh
          exfalso
          rw [hzero] at hge
          have hT : TRAPFRAME = (2 ^ 26 - 2) * 4096 := rfl
          unfold u64 at hzero
          omega
        · rw [wp_bind, wp_setProc]
          rw [hroot] at hext hmapped
          refine h.setSpace hp hpages hframe rfl rfl rfl hs (hspace.resize hle
            (hext.mapped hmapped (npages_le_of_le ?_ (Nat.not_lt.mp hge))) fun w hw hwV => ?_)
          · exact Nat.lt_of_le_of_lt hle (by decide)
          · refine (hext w hwV).2 ?_
            have hT : TRAPFRAME = (2 ^ 26 - 2) * 4096 := rfl
            have hU : UPAGES = 2 ^ 26 - 2 := rfl
            have := npages_eq _ (show u64 ((k.proc p).sz + intToU64 n) < 2 ^ 63 by omega)
            omega
  · rename_i hpos
    split
    · rename_i hneg
      split
      · exact h
      · rename_i henough
        simp only [wp_bind, wp_vm, wp_setProc]
        have hnew := u64_add_neg hneg hlow hsz henough
        have hless : u64 ((k.proc p).sz + intToU64 n) < (k.proc p).sz := by omega
        refine wp_mono (wp_uvmdealloc h.pages hroot hmapped hsz hless) ?_
        rintro r m ⟨hframe, hpages, hr, hmapped', hupper⟩
        subst hr
        rw [hroot] at hmapped' hupper
        refine h.setSpace hp hpages hframe rfl rfl rfl hs (hspace.resize ?_ hmapped' hupper)
        exact Nat.le_trans (Nat.le_of_lt hless) hsz
    · exact h

/-! ### `kfork` -/

/-- **`freeproc`** keeps the invariant. -/
theorem Sound.wp_freeproc {E : Stop → Prop} (h : Sound img boot k) (hp : p < NPROC) :
    wp (freeproc img p) E (fun _ k' => Sound img boot k' ∧ ∀ q, q ≠ p → k'.proc q = k.proc q) k := by
  refine wp_mono (Process.wp_freeproc hp h.pages fun hne => ?_)
    fun _ k' ⟨hpages, hproc, hleaf, _, hok⟩ => ⟨h.change p hpages hproc hleaf fun _ => hok, hproc⟩
  have hs : (k.proc p).state ≠ .UNUSED := fun hs =>
    hne (procOk_of_unused (h.procs p hp) hs).1
  exact ⟨_, (h.alive hp hs).2.2⟩

theorem wp_copyTrapframe {E : Stop → Prop} {np : Nat} (h : Sound img boot k) (hnp : np < NPROC)
    (hs : (k.proc np).state ≠ .UNUSED) :
    wp (copyTrapframe np p) E (fun _ k' => Sound img boot k' ∧ k'.proc = k.proc) k := by
  simp only [copyTrapframe, wp_bind, wp_get, wp_vm, wp_modify]
  exact ⟨h.setTrapframePage hnp hs _, rfl⟩

theorem wp_kfork (h : Sound img boot k) (hp : p < NPROC) (hs : (k.proc p).state ≠ .UNUSED) :
    wp (kfork img p) Excused (fun _ k' => Sound img boot k') k := by
  unfold kfork
  rw [wp_bind]
  refine wp_mono (wp_allocproc h) ?_
  rintro r k₁ ⟨h₁, hproc₁, hr⟩
  cases r with
  | none => exact h₁
  | some np =>
    obtain ⟨hnp, hfree, hused, hzero⟩ := hr
    have hne : some p ≠ some np := by
      rintro ⟨⟩
      exact hs hfree
    have hs₁ : (k₁.proc p).state ≠ .UNUSED := by rwa [hproc₁ p hs]
    have hsnp : (k₁.proc np).state ≠ .UNUSED := by
      rw [hused]
      decide
    obtain ⟨hroot, -, hspace⟩ := h₁.alive hp hs₁
    obtain ⟨hrootnp, -, hspacenp⟩ := h₁.alive hnp hsnp
    have hmapped := hspace.mapped
    have hmappednp := hspacenp.mapped
    rw [← hroot] at hmapped
    rw [← hrootnp, hzero, npages_zero] at hmappednp
    simp only [wp_bind, wp_get, wp_vm]
    refine wp_mono (wp_uvmcopy h₁.pages hroot hrootnp hne hmapped hmappednp hspace.size) ?_
    rintro r m₂ ⟨hframe, hpages, hpost⟩
    rcases hpost with ⟨rfl, hleaf⟩ | ⟨rfl, hcopied⟩
    · rw [if_pos (by decide), wp_bind]
      have h₂ := h₁.keepSpace hnp hpages hframe hsnp hleaf
      exact wp_mono (h₂.wp_freeproc hnp) fun _ k' hk' => hk'.1
    · rw [if_neg (by decide), wp_bind, wp_setProc, setMem_proc]
      have h₂ : Sound img boot ((k₁.setMem m₂).setProc np ((k₁.proc np).setSz (k₁.proc p).sz)) := by
        have hmapped₂ := hcopied.mapped hmappednp
        rw [hrootnp] at hmapped₂ hcopied
        refine h₁.setSpace hnp hpages hframe rfl rfl rfl hsnp
          (hspacenp.resize hspace.size hmapped₂ fun w hw hwV => (hcopied w hwV).2 ?_)
        have hT : TRAPFRAME = (2 ^ 26 - 2) * 4096 := rfl
        have hU : UPAGES = 2 ^ 26 - 2 := rfl
        have hsize := hspace.size
        have := npages_eq (k₁.proc p).sz (by omega)
        omega
      generalize hk₂ : (k₁.setMem m₂).setProc np _ = k₂ at h₂ ⊢
      have hs₂ : (k₂.proc np).state ≠ .UNUSED := by
        rw [← hk₂]
        simpa using hsnp
      rw [wp_bind]
      refine wp_mono (wp_copyTrapframe h₂ hnp hs₂) ?_
      rintro _ k₃ ⟨h₃, hproc₃⟩
      rw [wp_bind]
      refine wp_mono (wp_setTrapframe h₃ hnp (by rwa [hproc₃]) _ _) ?_
      rintro _ k₄ ⟨h₄, hproc₄⟩
      have hs₄ : (k₄.proc np).state ≠ .UNUSED := by rwa [hproc₄, hproc₃]
      split
      · trivial
      · rw [wp_bind]
        refine wp_mono (wp_fs_any _) ?_
        rintro _ k₅ ⟨s, hk₅⟩
        subst hk₅
        simp only [wp_bind, wp_setProc, wp_pure]
        refine Sound.setProc (Sound.setProc (Sound.setProc (h₄.setFs s) ?_ ?_ ?_ ?_) ?_ ?_ ?_ ?_)
          ?_ ?_ ?_ ?_
        all_goals simp [hs₄]

/-! ### `userinit` -/

theorem wp_userinitPage (h : Pages img k.root k.tf k.mem boot)
    {pagetable trapframe n : Nat} (hroot : k.root (some p) = some pagetable)
    (hspace : AddressSpace img k.mem (some pagetable) trapframe (n * PGSIZE)) (hn : n < UPAGES)
    (initcode : Nat → UInt8) :
    wp (userinitPage initcode pagetable n) Excused (fun _ k' => ∃ m, k' = k.setMem m ∧
      Pages img k.root k.tf m boot ∧ Frame img k.root k.tf (some p) boot k.mem m ∧
      AddressSpace img m (some pagetable) trapframe ((n + 1) * PGSIZE)) k := by
  simp only [userinitPage, wp_bind, wp_vm]
  refine wp_mono (wp_kalloc (some p) h) ?_
  rintro r m₁ ⟨hkeeps₁, _, hr⟩
  cases r with
  | none => trivial
  | some mem =>
    simp only [wp_bind, wp_vm, memset, wp_modify, setMem_mem]
    obtain ⟨hp₂, hkeeps₂⟩ := hr.setLoose (o := some p) fun _ => 0
    have hkept := hkeeps₁.trans hkeeps₂
    generalize m₁.setPage mem (fun _ => 0) = m₂ at hp₂ hkept
    -- whatever the page holds, it is mapped next
    have hmap : ∀ m₃, Pages img k.root k.tf m₃ (mem :: boot) →
        Keeps img k.root k.tf (some p) boot k.mem m₃ →
        wp (mappages pagetable (n * PGSIZE) PGSIZE mem (PTE_R ||| PTE_W ||| PTE_U))
          (fun e => Excused (.vm e)) (fun r m => wp (if r ≠ 0 then fail .userinitMappages
            else pure () : KM Unit) Excused (fun _ k' => ∃ m, k' = k.setMem m ∧
              Pages img k.root k.tf m boot ∧ Frame img k.root k.tf (some p) boot k.mem m ∧
              AddressSpace img m (some pagetable) trapframe ((n + 1) * PGSIZE)) (k.setMem m)) m₃ := by
      intro m₃ hp₃ hkeeps₃
      rw [← hroot] at hspace ⊢
      have hspace₃ := hspace.congr fun w _ => hkeeps₃.leaf (some p) w
      refine wp_mono (wp_mapNext _ _ _ hp₃ hroot hspace₃ hn (by decide)) fun r m hpost => ?_
      split
      · trivial
      · rename_i hr'
        obtain ⟨hframe, hp', hspace'⟩ := hpost (not_not.mp hr')
        exact ⟨m, rfl, hp', hkeeps₃.frame.trans hframe, hspace'⟩
    rw [wp_when]
    refine ⟨fun _ => ?_, fun _ => hmap m₂ hp₂ hkept⟩
    rw [wp_vm, wp_modify]
    obtain ⟨hp₃, hkeeps₃⟩ := hp₂.setLoose (o := some p)
      (splice (m₂.page mem) 0 (INITCODESIZE - PGSIZE) fun i => initcode (PGSIZE + i))
    exact hmap _ hp₃ (hkept.trans hkeeps₃)

theorem wp_userinit (h : Sound img boot k) (initcode : Nat → UInt8) :
    wp (userinit img initcode) Excused (fun _ k' => Sound img boot k') k := by
  unfold userinit
  rw [wp_bind]
  refine wp_mono (wp_allocproc h) ?_
  rintro r k₁ ⟨h₁, _, hr⟩
  cases r with
  | none => trivial
  | some p =>
    obtain ⟨hp, -, hused, hzero⟩ := hr
    have hs₁ : (k₁.proc p).state ≠ .UNUSED := by
      rw [hused]
      decide
    simp only [wp_bind, wp_modify, wp_get]
    have h₂ : Sound img boot (k₁.setInitproc p) := ⟨h₁.pages, h₁.procs⟩
    generalize hk₂ : k₁.setInitproc p = k₂ at h₂ ⊢
    have hs₂ : (k₂.proc p).state ≠ .UNUSED := by
      rw [← hk₂]
      exact hs₁
    have hzero₂ : (k₂.proc p).sz = 0 := by
      rw [← hk₂]
      exact hzero
    obtain ⟨hroot, -, hspace⟩ := h₂.alive hp hs₂
    rw [hzero₂] at hspace
    rw [wp_vm]
    rw [← hroot] at hspace
    refine wp_mono (wp_uvmfirst h₂.pages hroot hspace _ (Nat.le_refl _) (Or.inl rfl) (Or.inr rfl))
      ?_
    rintro _ m₃ ⟨hframe₃, hp₃, hspace₃⟩
    rw [hroot] at hspace₃
    refine wp_forRange (I := fun n k' => ∃ m, k' = k₂.setMem m ∧ Pages img k₂.root k₂.tf m boot ∧
        Frame img k₂.root k₂.tf (some p) boot k₂.mem m ∧
        AddressSpace img m (some (k₂.proc p).pagetable) (k₂.proc p).trapframe (n * PGSIZE)) 3
      ⟨m₃, rfl, hp₃, hframe₃, by rwa [Nat.one_mul]⟩ ?_ ?_
    · rintro n k' - hn ⟨m, rfl, hpages, hframe, hspace⟩
      refine wp_mono (wp_userinitPage (k := k₂.setMem m) hpages hroot hspace ?_ initcode) ?_
      · rw [show UPAGES = 2 ^ 26 - 2 from rfl]
        omega
      · rintro _ k' ⟨m', hk', hp', hframe', hspace'⟩
        exact ⟨m', hk', hp', hframe.trans hframe', hspace'⟩
    · rintro k' ⟨m, rfl, hpages, hframe, hspace⟩
      rw [wp_setProc, setMem_proc]
      have h₄ := h₂.setSpace (x := (k₂.proc p).setSz (4 * PGSIZE)) hp hpages hframe rfl rfl rfl hs₂
        hspace
      generalize hk₄ : (k₂.setMem m).setProc p _ = k₄ at h₄ ⊢
      have hs₄ : (k₄.proc p).state ≠ .UNUSED := by
        rw [← hk₄, setProc_self]
        exact hs₂
      refine wp_mono (wp_setTrapframe h₄ hp hs₄ _ _) ?_
      rintro _ k₅ ⟨h₅, hproc₅⟩
      have hs₅ : (k₅.proc p).state ≠ .UNUSED := by rwa [hproc₅]
      refine wp_mono (wp_setTrapframe h₅ hp hs₅ _ _) ?_
      rintro _ k₆ ⟨h₆, hproc₆⟩
      rw [← hproc₆] at hs₅
      exact h₆.setProc rfl rfl rfl (by simp [hs₅])

/-! ### `kexit` and `kwait` -/

theorem wp_wakeup {E : Stop → Prop} (h : Sound img boot k) (me : Nat) (chan : Option Nat) :
    wp (wakeup me chan) E (fun _ k' => Sound img boot k' ∧ k'.proc me = k.proc me) k := by
  refine wp_forRange (I := fun _ k' => Sound img boot k' ∧ k'.proc me = k.proc me) _ ⟨h, rfl⟩ ?_
    fun _ hk' => hk'
  rintro q k' - - ⟨h', hme⟩
  simp only [wp_bind, wp_get, wp_when, wp_setProc]
  refine ⟨fun hwake => ⟨h'.setProc rfl rfl rfl (by simp [hwake.2.1]), ?_⟩, fun _ => ⟨h', hme⟩⟩
  rw [setProc_ne hwake.1.symm, hme]

theorem wp_reparent {E : Stop → Prop} (h : Sound img boot k) (p : Nat) :
    wp (reparent p) E (fun _ k' => Sound img boot k' ∧ (k'.proc p).state = (k.proc p).state) k := by
  refine wp_forRange (I := fun _ k' => Sound img boot k' ∧ (k'.proc p).state = (k.proc p).state) _
    ⟨h, rfl⟩ ?_ fun _ hk' => hk'
  rintro q k' - - ⟨h', hp⟩
  simp only [wp_bind, wp_get, wp_when, wp_setProc]
  refine ⟨fun _ => ?_, fun _ => ⟨h', hp⟩⟩
  have h'' : Sound img boot (k'.setProc q ((k'.proc q).setParent k'.initproc)) :=
    h'.setProc rfl rfl rfl (by simp)
  refine wp_mono (wp_wakeup h'' _ _) ?_
  rintro _ k'' ⟨hsound, hme⟩
  refine ⟨hsound, ?_⟩
  rw [hme, ← hp]
  by_cases hq : p = q
  · subst hq
    rw [setProc_self, Proc.setParent_state]
  · rw [setProc_ne hq]

theorem wp_kexit (h : Sound img boot k) (sb : Superblock) (hs : (k.proc p).state ≠ .UNUSED)
    (status : UInt32) : wp (kexit sb p status) Excused (fun _ k' => Sound img boot k') k := by
  simp only [kexit, wp_bind, wp_get]
  split
  · trivial
  · rw [wp_bind]
    refine wp_mono (wp_fs_any _) ?_
    rintro _ k₁ ⟨s₁, hk₁⟩
    subst hk₁
    split
    · trivial
    · rw [wp_bind]
      refine wp_mono (wp_fs_any _) ?_
      rintro _ k₂ ⟨s₂, hk₂⟩
      subst hk₂
      rw [wp_bind]
      refine wp_mono (wp_fs_any _) ?_
      rintro _ k₃ ⟨s₃, hk₃⟩
      subst hk₃
      have h₃ := ((h.setFs s₁).setFs s₂).setFs s₃
      generalize hk₃ : ((k.setFs s₁).setFs s₂).setFs s₃ = k₃ at h₃ ⊢
      rw [wp_bind, wp_setProc]
      have h₄ : Sound img boot (k₃.setProc p ((k₃.proc p).setCwd none)) :=
        h₃.setProc rfl rfl rfl (by simp)
      have hs₄ : ((k₃.setProc p ((k₃.proc p).setCwd none)).proc p).state ≠ .UNUSED := by
        rw [setProc_self, Proc.setCwd_state, ← hk₃]
        exact hs
      rw [wp_bind]
      refine wp_mono (wp_reparent h₄ p) ?_
      rintro _ k₅ ⟨h₅, hp₅⟩
      simp only [wp_bind, wp_get]
      refine wp_mono (wp_wakeup h₅ p _) ?_
      rintro _ k₆ ⟨h₆, hp₆⟩
      rw [wp_setProc]
      refine h₆.setProc rfl rfl rfl ?_
      rw [← hp₅, ← hp₆] at hs₄
      simp [hs₄]

theorem wp_kwait (h : Sound img boot k) (hp : p < NPROC) (hs : (k.proc p).state ≠ .UNUSED)
    (addr : Nat) : wp (kwait img p addr) Excused (fun _ k' => Sound img boot k') k := by
  unfold kwait
  rw [wp_bind]
  refine wp_findFirst (I := fun _ k' => k' = k) _ rfl (fun pp k' _ hpp hk' => ?_) fun k' hk' => ?_
  · subst hk'
    simp only [waitScan, wp_bind, wp_get]
    split
    · rfl
    split
    swap
    · rfl
    rename_i hzombie
    -- the exit status is copied to the user, or there is no address for it
    have hcopy : wp (xstateFails p addr (k'.proc pp).xstate) Excused (fun _ k₁ =>
        Sound img boot k₁ ∧ k₁.proc = k'.proc) k' := by
      unfold xstateFails
      split
      · obtain ⟨hroot, -, hspace⟩ := h.alive hp hs
        rw [← hroot] at hspace
        simp only [wp_bind, wp_get, wp_vm, wp_pure]
        exact wp_mono (wp_copyout h.pages hroot hspace.noUser _ _ _)
          fun _ m hm => ⟨h.keep hm.1 hm.2.leaf, rfl⟩
      · exact ⟨h, rfl⟩
    rw [wp_bind]
    refine wp_mono hcopy ?_
    rintro failed k₁ ⟨h₁, hproc₁⟩
    split
    · exact h₁
    · simp only [wp_bind, wp_setProc]
      have h₂ : Sound img boot (k₁.setProc pp ((k₁.proc pp).setParent none)) :=
        h₁.setProc rfl rfl rfl (by simp)
      exact wp_mono (h₂.wp_freeproc (by omega)) fun _ k₃ hk₃ => hk₃.1
  · subst hk'
    simp only [wp_bind, wp_get]
    split
    · exact h
    · rw [wp_bind, wp_setProc]
      exact h.setProc rfl rfl rfl (by simp [hs])

/-! ### Scheduling and user code -/

theorem wp_kkill {E : Stop → Prop} (h : Sound img boot k) (pid : Int) :
    wp (kkill pid) E (fun _ k' => Sound img boot k') k := by
  simp only [kkill, wp_bind, wp_get]
  split
  · exact h
  · rw [wp_bind, wp_setProc]
    refine h.setProc rfl rfl rfl ?_
    rw [Proc.setState_state]
    split
    · rename_i hsleep
      simp [hsleep]
    · rfl

/-- **User code writes to user memory only.** -/
theorem wp_userStore {E : Stop → Prop} (h : Sound img boot k) (hp : p < NPROC)
    (hs : (k.proc p).state ≠ .UNUSED) (va : Nat) (b : UInt8) :
    wp (userStore p va b) E (fun _ k' => Sound img boot k') k := by
  obtain ⟨hroot, -, hspace⟩ := h.alive hp hs
  simp only [userStore, wp_bind, wp_get]
  split
  · exact h
  · rename_i e hleaf
    simp only [wp_when, wp_vm, wp_modify]
    refine ⟨?_, fun _ => h⟩
    rintro ⟨hva, huser, _⟩
    have hv : va / PGSIZE < UPAGES := by
      by_contra hge
      refine huser (hspace.noUser _ (Nat.not_lt.mp hge) ?_ e hleaf)
      rw [show VPAGES = 2 ^ 27 from rfl, show PGSIZE = 4096 from rfl]
      rw [show MAXVA = 2 ^ 38 from rfl] at hva
      omega
    have hown : own k.root k.tf k.mem (.page (some p) (va / PGSIZE)) = some (PTE2PA e) := by
      rw [own_page hv, hroot, hleaf, Option.map_some]
    obtain ⟨hpages, hkeeps⟩ := h.pages.setMapped
      (Function.update (k.mem.page (PTE2PA e)) (va % PGSIZE) b) hown
    exact h.keep hpages hkeeps.leaf

end

end Xv6.Process
