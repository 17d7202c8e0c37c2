import Xv6.Process.System

/-!
# User memory of processes

What `growproc` and `kfork` make of user memory, byte for byte, whatever calls of `kalloc`
fail: they do all of what they are for, or nothing.
-/

namespace Xv6.Process

open ByteView Hoare Ledger Vm

/-- The byte of user memory at a virtual address, if its page is mapped. -/
def byteAt (m : Mem) (r : Option Nat) (va : Nat) : Option UInt8 :=
  (m.leaf r (va / PGSIZE)).map fun e => m.page (PTE2PA e) (va % PGSIZE)

section Memory

variable {img : Image} {boot : List Nat} {k k' : Kernel} {p : Nat} {m m' : Mem} {r : Option Nat}

theorem byteAt_of_held {V : Nat → Prop} (h : Held m m' r V) {va : Nat}
    (hva : va / PGSIZE < UPAGES) (hV : V (va / PGSIZE)) (hm : m.leaf r (va / PGSIZE) ≠ none) :
    byteAt m' r va = byteAt m r va := by
  obtain ⟨e, he⟩ := Option.ne_none_iff_exists'.mp hm
  obtain ⟨he', hpage⟩ := h _ hva hV e he
  rw [byteAt, byteAt, he, he', Option.map_some, Option.map_some, hpage]

/-! ### `growproc` -/

/-- Pages `n` to `n' - 1` are mapped, the user may read and write them, and they are zero. -/
def NewPages (m : Mem) (r : Option Nat) (n n' : Nat) : Prop :=
  ∀ w < UPAGES, n ≤ w → w < n' → ∃ e, m.leaf r w = some e ∧ e &&& PTE_R ≠ 0 ∧ e &&& PTE_W ≠ 0 ∧
    e &&& PTE_U ≠ 0 ∧ m.page (PTE2PA e) = fun _ => 0

theorem newPages_of_extended {n n' : Nat}
    (h : Extended m m' r n n' (PTE_R ||| PTE_U ||| PTE_W)) (hzero : Zeroed m' r n n') :
    NewPages m' r n n' := by
  intro w hw hlow hhigh
  obtain ⟨pa, he⟩ := (h w (Nat.lt_trans hw UPAGES_lt_VPAGES)).1 ⟨hlow, hhigh⟩
  refine ⟨_, he, ?_, ?_, ?_, hzero w hw hlow hhigh _ he⟩
  all_goals
    rw [entry_and (by decide)]
    decide

/-- `growproc` has resized user memory from `sz` by `n` bytes. -/
structure Resized (m m' : Mem) (r : Option Nat) (sz : Nat) (n : Int) (sz' : Nat) : Prop where
  sum : (sz' : Int) = sz + n
  lt : sz' < TRAPFRAME
  mapped : Mapped m' r (npages sz')
  new : NewPages m' r (npages sz) (npages sz')
  bytes : ∀ va, va < sz → va < sz' → byteAt m' r va = byteAt m r va

/-- Every leaf is as it was, and what it leads to holds what it held. -/
def SpaceSame (m m' : Mem) (r : Option Nat) : Prop :=
  (∀ w < VPAGES, m'.leaf r w = m.leaf r w) ∧
    ∀ w < VPAGES, ∀ e, m.leaf r w = some e → m'.page (PTE2PA e) = m.page (PTE2PA e)

theorem bytes_of_held {sz sz' : Nat} (hsz : sz ≤ TRAPFRAME) (hm : Mapped m r (npages sz))
    (hheld : Held m m' r fun w => w < npages sz') (hsz' : sz' ≤ TRAPFRAME) {va : Nat} (hva : va < sz)
    (hva' : va < sz') : byteAt m' r va = byteAt m r va := by
  have hP : PGSIZE = 4096 := rfl
  have hT : TRAPFRAME = (2 ^ 26 - 2) * 4096 := rfl
  have hU : UPAGES = 2 ^ 26 - 2 := rfl
  have hn := npages_eq sz (by omega)
  have hn' := npages_eq sz' (by omega)
  have hdiv : va / PGSIZE < UPAGES := by
    rw [hP]
    omega
  refine byteAt_of_held hheld hdiv ?_ ((hm _ hdiv).mpr ?_)
  · rw [hP]
    omega
  · rw [hP]
    omega

theorem spaceSame_of_held (hproc : ProcOk img k.mem (k.proc p)) (hp : p < NPROC)
    (hs : (k.proc p).state ≠ .UNUSED) (h : Pages img k.root k.tf k.mem boot)
    (hframe : Frame img k.root k.tf (some p) boot k.mem m)
    (hheld : Held k.mem m (some (k.proc p).pagetable) fun _ => True)
    (hleaf : ∀ w < VPAGES, m.leaf (some (k.proc p).pagetable) w =
      k.mem.leaf (some (k.proc p).pagetable) w) :
    SpaceSame k.mem m (some (k.proc p).pagetable) := by
  refine ⟨hleaf, fun w hw e he => ?_⟩
  obtain ⟨-, htf, hspace⟩ := procOk_of_alive hproc hs
  have htfp : k.tf p = some (k.proc p).trapframe := (tf_some hp).trans (ptr_of_ne htf)
  have halloc : Allocatable img (k.proc p).trapframe := h.exact.owned (.trapframe p) _ htfp
  by_cases hlow : w < UPAGES
  · exact (hheld w hlow trivial e he).2
  · by_cases hwt : w = UPAGES
    · subst hwt
      rw [hspace.trapframe] at he
      obtain rfl := Option.some.inj he
      rw [PTE2PA_entry halloc.1 halloc.lt (by decide)]
      exact hframe _ (Or.inl ⟨.trapframe p, id, htfp⟩)
    · by_cases hwt' : w = UPAGES + 1
      · subst hwt'
        rw [hspace.trampoline] at he
        obtain rfl := Option.some.inj he
        rw [PTE2PA_entry img.trampoline_aligned img.trampoline_lt_pow (by decide)]
        refine hframe _ (Or.inr (Or.inr fun ha => ?_))
        have := img.trampoline_lt
        have hP : PGSIZE = 4096 := rfl
        have := ha.2.1
        omega
      · rw [hspace.upper w (by omega) hw] at he
        cases he

theorem size_lt {o : Owner} {sz : Nat} (h : Pages img k.root k.tf m boot)
    (hm : Mapped m (k.root o) (npages sz)) (hsz : sz ≤ TRAPFRAME) : sz < 2 ^ 31 := by
  have hT : TRAPFRAME = (2 ^ 26 - 2) * 4096 := rfl
  have hU : UPAGES = 2 ^ 26 - 2 := rfl
  have hn := npages_eq sz (by omega)
  have hle := h.mapped_le (o := o) (k := npages sz) (by omega) fun w hw => (hm w (by omega)).mpr hw
  rw [show NPAGES = 32768 from rfl] at hle
  omega

/-- What `growproc(n)` does to process `p`. -/
structure Grown (k : Kernel) (p : Nat) (n : Int) (r : Int) (k' : Kernel) : Prop where
  result : r = 0 ∨ r = -1
  resized : r = 0 → Resized k.mem k'.mem (some (k.proc p).pagetable) (k.proc p).sz n (k'.proc p).sz ∧
    (k'.proc p).pagetable = (k.proc p).pagetable
  same : r = -1 → k'.proc = k.proc ∧ SpaceSame k.mem k'.mem (some (k.proc p).pagetable)
  shrink : n < 0 → (r = -1 ↔ -n > (k.proc p).sz)

theorem wp_growproc_exact {E : Stop → Prop} (h : Pages img k.root k.tf k.mem boot) (hp : p < NPROC)
    (hproc : ProcOk img k.mem (k.proc p)) (hs : (k.proc p).state ≠ .UNUSED) {n : Int}
    (hlow : -2 ^ 31 ≤ n) (hhigh : n < 2 ^ 31) :
    wp (growproc img p n) E (fun r k' => Grown k p n r k') k := by
  have hT : TRAPFRAME = (2 ^ 26 - 2) * 4096 := rfl
  obtain ⟨hpt, -, hspace⟩ := procOk_of_alive hproc hs
  have hroot : k.root (some p) = some (k.proc p).pagetable := (root_some hp).trans (ptr_of_ne hpt)
  have hsz := hspace.size
  have hmapped := hspace.mapped
  have hsame : SpaceSame k.mem k.mem (some (k.proc p).pagetable) :=
    ⟨fun _ _ => rfl, fun _ _ _ _ => rfl⟩
  rw [← hroot] at hmapped
  have hsmall := size_lt h hmapped hsz
  simp only [growproc, wp_bind, wp_get]
  split
  · rename_i hpos
    have hnat := intToU64_of_nonneg (Int.le_of_lt hpos) hhigh
    have hnotneg : ¬ n < 0 := by omega
    split
    · exact ⟨Or.inr rfl, fun h => absurd h (by simp), fun _ => ⟨rfl, hsame⟩,
        fun h => absurd h hnotneg⟩
    · rename_i hfits
      obtain ⟨hge, hlt⟩ := not_or.mp hfits
      have hnew : u64 ((k.proc p).sz + intToU64 n) = (k.proc p).sz + intToU64 n :=
        u64_of_lt (by omega)
      rw [hnew] at hge hlt ⊢
      simp only [wp_bind, wp_vm]
      refine wp_mono (wp_uvmalloc_held h hroot hmapped hsz (by decide)) ?_
      rintro r m ⟨hframe, hpages, hheld, hpost⟩
      rw [hroot] at hheld hpost hmapped
      rcases hpost with ⟨hsmall, -⟩ | ⟨rfl, hleaf⟩ | ⟨-, hle, rfl, hext, hzero⟩
      · exact absurd hsmall hge
      · rw [if_pos rfl]
        exact ⟨Or.inr rfl, fun h => absurd h (by simp),
          fun _ => ⟨rfl, spaceSame_of_held hproc hp hs h hframe hheld hleaf⟩,
          fun h => absurd h hnotneg⟩
      · rw [if_neg (by omega), wp_bind, wp_setProc]
        refine ⟨Or.inl rfl, fun _ => ⟨⟨?_, ?_, ?_, ?_, fun va hva hva' => ?_⟩, ?_⟩,
          fun h => absurd h (by simp), fun h => absurd h hnotneg⟩
        · rw [setProc_self, Proc.setSz_sz]
          push_cast
          rw [hnat]
        · rw [setProc_self, Proc.setSz_sz]
          exact Nat.not_le.mp hlt
        · rw [setProc_self, Proc.setSz_sz]
          exact hext.mapped hmapped (npages_le_of_le (by omega) (Nat.not_lt.mp hge))
        · rw [setProc_self, Proc.setSz_sz]
          exact newPages_of_extended hext hzero
        · rw [setProc_self, Proc.setSz_sz] at hva'
          exact bytes_of_held hsz hmapped (hheld.mono fun _ _ => trivial) hle hva hva'
        · rw [setProc_self, Proc.setSz_pagetable, setMem_proc]
  · rename_i hpos
    split
    · rename_i hneg
      -- `-n` of an int, against the size
      have hcmp : intToU64 (negInt n) > (k.proc p).sz ↔ -n > (k.proc p).sz := by
        unfold negInt intToU64
        split <;> omega
      split
      · rename_i hmuch
        exact ⟨Or.inr rfl, fun h => absurd h (by simp), fun _ => ⟨rfl, hsame⟩,
          fun _ => ⟨fun _ => hcmp.mp hmuch, fun _ => rfl⟩⟩
      · rename_i henough
        simp only [wp_bind, wp_vm, wp_setProc]
        have hnew := u64_add_neg hneg hlow hsz henough
        have hless : u64 ((k.proc p).sz + intToU64 n) < (k.proc p).sz := by omega
        refine wp_mono (wp_uvmdealloc_held h hroot hmapped hsz hless) ?_
        rintro r m ⟨hframe, hpages, hr, hmapped', hheld, hupper⟩
        subst hr
        rw [hroot] at hmapped' hheld hmapped
        refine ⟨Or.inl rfl, fun _ => ⟨⟨?_, ?_, ?_, fun w _ hge hlt => ?_, fun va hva hva' => ?_⟩, ?_⟩,
          fun h => absurd h (by simp), fun _ => ⟨fun h => absurd h (by simp),
            fun h => absurd (hcmp.mpr h) henough⟩⟩
        · rw [setProc_self, Proc.setSz_sz]
          exact hnew
        · rw [setProc_self, Proc.setSz_sz]
          omega
        · rw [setProc_self, Proc.setSz_sz]
          exact hmapped'
        · rw [setProc_self, Proc.setSz_sz] at hlt
          exact absurd (npages_le_of_le (show (k.proc p).sz < 2 ^ 63 by omega) (Nat.le_of_lt hless))
            (by omega)
        · rw [setProc_self, Proc.setSz_sz] at hva'
          exact bytes_of_held hsz hmapped hheld (by omega) hva hva'
        · rw [setProc_self, Proc.setSz_pagetable, setMem_proc]
    · have hzero : n = 0 := by omega
      subst hzero
      refine ⟨Or.inl rfl, fun _ => ⟨⟨by omega, ?_, hspace.mapped, fun w _ hge hlt => ?_,
        fun _ _ _ => rfl⟩, rfl⟩, fun h => absurd h (by simp), fun h => absurd h (by omega)⟩
      · omega
      · omega

/-- **`growproc` is exact and atomic.**  For a process whose user memory is mapped exactly up to
    its size, for every int `n` and whatever calls of `kalloc` fail, it returns 0 or -1:

    * if 0, the new size is the sum of `sz` and `n` and is below `TRAPFRAME`, user memory is
      mapped exactly up to it, new pages are zero and open to the user for reading and writing,
      and all bytes below both sizes are what they were;
    * if -1, the process, its leaves and what they lead to are unchanged;
    * for a negative `n` it returns -1 iff `-n` is greater than the size. -/
theorem growproc_exact (h : Pages img k.root k.tf k.mem boot) (hp : p < NPROC)
    (hproc : ProcOk img k.mem (k.proc p)) (hs : (k.proc p).state ≠ .UNUSED) {n : Int}
    (hlow : -2 ^ 31 ≤ n) (hhigh : n < 2 ^ 31) :
    ∃ r k', growproc img p n k = .ok (r, k') ∧ Grown k p n r k' :=
  wp_total (wp_growproc_exact h hp hproc hs hlow hhigh)

theorem smallState_inUse : (smallState.proc 0).state ≠ .UNUSED := by decide +kernel

theorem growproc_exact_smallState :
    ∃ r k', growproc smallImage 0 (-2 ^ 31) smallState = .ok (r, k') ∧
      Grown smallState 0 (-2 ^ 31) r k' := by
  have hsound := smallState_sound
  have huse := smallState_inUse
  -- the state is what a run leaves: nothing here should evaluate it
  generalize smallState = k at hsound huse ⊢
  exact growproc_exact hsound.pages (by decide) (hsound.procs 0 (by decide)) huse (by decide)
    (by decide)

/-! ### `kfork` -/

/-- Page `w` of the child is a copy of that of the parent, in a page that was free. -/
def PageCopied (m m' : Mem) (r r' : Option Nat) (w : Nat) : Prop :=
  (m'.leaf r' w = none ↔ m.leaf r w = none) ∧ ∀ e, m.leaf r w = some e → ∃ e',
    m'.leaf r' w = some e' ∧ PTE_FLAGS e' = PTE_FLAGS e ∧ PTE2PA e' ∈ m.freelist ∧
      m'.page (PTE2PA e') = m.page (PTE2PA e)

/-- Different pages of user memory are different pages. -/
def PagesDistinct (m : Mem) (r : Option Nat) : Prop :=
  ∀ w < UPAGES, ∀ w' < UPAGES, ∀ e e', m.leaf r w = some e → m.leaf r w' = some e' →
    PTE2PA e = PTE2PA e' → w = w'

/-- The leaves are the same, and user memory holds what it held. -/
def UserSame (m m' : Mem) (r : Option Nat) : Prop :=
  (∀ w, m'.leaf r w = m.leaf r w) ∧
    ∀ w < UPAGES, ∀ e, m.leaf r w = some e → m'.page (PTE2PA e) = m.page (PTE2PA e)

theorem leaf_valid {w e : Nat} (h : m.leaf r w = some e) : e &&& PTE_V ≠ 0 := by
  obtain ⟨pt, -, he⟩ := Option.bind_eq_some_iff.mp h
  exact (ifValid_eq_some.mp he).2

theorem flags_valid {e : Nat} (h : e &&& PTE_V ≠ 0) : PTE_FLAGS e ||| PTE_V = PTE_FLAGS e := by
  have hbit : e % 2 = 1 := by
    unfold PTE_V at h
    rw [Nat.and_one_is_mod] at h
    omega
  refine Nat.eq_of_testBit_eq fun j => ?_
  rw [Nat.testBit_or]
  cases j with
  | zero => simp [PTE_FLAGS, PTE_V, hbit]
  | succ j =>
    have hone : Nat.testBit 1 (j + 1) = false := by simp [Nat.testBit_succ]
    rw [show PTE_V = 1 from rfl, hone, Bool.or_false]

theorem pageCopied_of_cloneAt {r' : Option Nat} {w : Nat} (h : CloneAt m m' r r' w)
    (hfree : ∀ a ∈ m.freelist, Allocatable img a) : PageCopied m m' r r' w := by
  unfold CloneAt at h
  cases he : m.leaf r w with
  | none =>
    rw [he] at h
    refine ⟨⟨fun _ => he, fun _ => h⟩, fun e he' => ?_⟩
    rw [he] at he'
    cases he'
  | some e =>
    rw [he] at h
    obtain ⟨pa, hpa, hleaf, hpage⟩ := h
    have haddr := PTE2PA_entry (hfree pa hpa).1 (hfree pa hpa).lt (PTE_FLAGS_lt e)
    refine ⟨by simp [he, hleaf], fun e₁ he₁ => ?_⟩
    rw [he] at he₁
    obtain rfl := Option.some.inj he₁
    refine ⟨_, hleaf, ?_, ?_, ?_⟩
    · rw [entry_flags (PTE_FLAGS_lt e), flags_valid (leaf_valid he)]
    · rwa [haddr]
    · rw [haddr, hpage]

/-- What `uvmcopy` does to the address spaces with the roots `r` and `r'`. -/
structure ForkCopied (m : Mem) (r r' : Option Nat) (sz : Nat) (res : Int) (m' : Mem) : Prop where
  result : res = 0 ∨ res = -1
  parent : UserSame m m' r
  copied : res = 0 → (∀ w < npages sz, PageCopied m m' r r' w) ∧ PagesDistinct m' r'
  undone : res = -1 → (∀ w < UPAGES, m'.leaf r' w = none) ∧
    ∀ pa ∈ m.freelist, pa ∈ m'.freelist ∨ ∃ path, path.length ≤ 2 ∧ m'.table r' path = some pa

section Uvmcopy

variable {R : Owner → Option Nat} {tf : Nat → Option Nat} {loose : List Nat} {o o' : Owner}
  {old new sz : Nat}

theorem userSame_of_frame (hframe : Frame img R tf o' loose m m') (hne : o ≠ o') :
    UserSame m m' (R o) :=
  ⟨fun w => hframe.leaf hne w, fun w hw _ he =>
    hframe _ (Or.inl ⟨.page o w, hne, own_leaf hw he⟩)⟩

theorem pagesDistinct (h : Pages img R tf m loose) (o : Owner) : PagesDistinct m (R o) := by
  intro w hw w' hw' e e' he he' heq
  have honce := h.exact.once (.page o w) (.page o w') _ (own_leaf hw he) (heq ▸ own_leaf hw' he')
  exact (Slot.page.inj honce).2

theorem free_or_table (h : Pages img R tf m loose) (h' : Pages img R tf m' loose)
    (hframe : Frame img R tf o' loose m m') (hnone : ∀ w < UPAGES, m'.leaf (R o') w = none)
    {pa : Nat} (hpa : pa ∈ m.freelist) :
    pa ∈ m'.freelist ∨ ∃ path, path.length ≤ 2 ∧ m'.table (R o') path = some pa := by
  obtain ⟨hslots, hloose⟩ := (h.exact.free_iff pa (h.free pa hpa)).mp hpa
  by_cases hfree : pa ∈ m'.freelist
  · exact Or.inl hfree
  right
  by_contra htable
  refine hfree ((h'.exact.free_iff pa (h.free pa hpa)).mpr ⟨fun s hs => ?_, hloose⟩)
  by_cases hof : s.Of o'
  · cases s with
    | trapframe q => exact hof
    | table o path =>
      obtain rfl : o = o' := hof
      by_cases hlen : path.length ≤ 2
      · exact htable ⟨path, hlen, (own_table hlen).symm.trans hs⟩
      · simp only [own, if_neg hlen] at hs
        cases hs
    | page o w =>
      obtain rfl : o = o' := hof
      by_cases hw : w < UPAGES
      · rw [own_page hw, hnone w hw] at hs
        cases hs
      · simp only [own, if_neg hw] at hs
        cases hs
  · exact hslots s (by rw [← hframe.own hof, hs])

theorem wp_uvmcopy_exact {E : Vm.Panic → Prop} (h : Pages img R tf m loose) (hold : R o = some old)
    (hnew : R o' = some new) (hne : o ≠ o') (hm' : Mapped m (R o') 0) (hsz : sz ≤ TRAPFRAME) :
    wp (uvmcopy img old new sz) E (fun res m' => ForkCopied m (R o) (R o') sz res m') m := by
  refine wp_mono (wp_uvmcopy_cloned h hold hnew hne hm' hsz)
    fun res m' ⟨hframe, hpages, _, hpost⟩ => ?_
  have hparent := userSame_of_frame hframe hne
  rcases hpost with ⟨rfl, hnone⟩ | ⟨rfl, hcloned⟩
  · have hnone' : ∀ w < UPAGES, m'.leaf (R o') w = none := fun w hw => by
      by_contra hsome
      exact absurd ((hnone w hw).mp hsome) (Nat.not_lt_zero w)
    exact ⟨Or.inr rfl, hparent, fun h => absurd h (by simp),
      fun _ => ⟨hnone', fun pa hpa => free_or_table h hpages hframe hnone' hpa⟩⟩
  · refine ⟨Or.inl rfl, hparent, fun _ => ⟨fun w hw => ?_, pagesDistinct hpages o'⟩,
      fun h => absurd h (by simp)⟩
    have hT : TRAPFRAME = (2 ^ 26 - 2) * 4096 := rfl
    have hU : UPAGES = 2 ^ 26 - 2 := rfl
    have hn := npages_eq sz (by omega)
    exact pageCopied_of_cloneAt ((hcloned w (by omega)).1 hw) h.free

end Uvmcopy

/-- A `kfork` that fails leaves everything as it was but `nextpid` and the entry `np`, which is
    unused again: the parent has its memory and its trapframe, the file system has not been
    called, and the same pages are free. -/
structure ForkUndone (k : Kernel) (p np : Nat) (k' : Kernel) : Prop where
  unused : (k'.proc np).state = .UNUSED
  procs : ∀ q, q ≠ np → k'.proc q = k.proc q
  parent : UserSame k.mem k'.mem (k.root (some p))
  trapframe : k'.mem.page (k.proc p).trapframe = k.mem.page (k.proc p).trapframe
  fs : k'.fs = k.fs
  free : ∀ pa, pa ∈ k'.mem.freelist ↔ pa ∈ k.mem.freelist

theorem vm_ok {α : Type} {c : VmM α} {a : α} (hc : c k.mem = .ok (a, m)) :
    vm c k = .ok (a, k.setMem m) := by
  unfold vm zoom
  rw [hc]

theorem kfork_of_uvmcopy_fails {np : Nat} {k₁ : Kernel} (halloc : allocproc img k = .ok (some np, k₁))
    (hcopy : uvmcopy img (k₁.proc p).pagetable (k₁.proc np).pagetable (k₁.proc p).sz k₁.mem =
      .ok (-1, m)) :
    kfork img p k = (freeproc img np >>= fun _ => pure (-1)) (k₁.setMem m) := by
  unfold kfork
  rw [bind_ok halloc]
  dsimp only
  rw [bind_ok (show get k₁ = .ok (k₁, k₁) from rfl), bind_ok (vm_ok hcopy), if_pos (by decide)]

theorem kfork_undone {np : Nat} {k₁ : Kernel} (h : Pages img k.root k.tf k.mem boot)
    (hok : ∀ q < NPROC, (k.proc q).state = .UNUSED → ProcOk img k.mem (k.proc q))
    (hp : p < NPROC) (hs : (k.proc p).state ≠ .UNUSED) (hpt : (k.proc p).pagetable ≠ 0)
    (htf : (k.proc p).trapframe ≠ 0) (hsz : (k.proc p).sz ≤ TRAPFRAME)
    (halloc : allocproc img k = .ok (some np, k₁))
    (hcopy : uvmcopy img (k₁.proc p).pagetable (k₁.proc np).pagetable (k₁.proc p).sz k₁.mem =
      .ok (-1, m)) :
    ∃ k', kfork img p k = .ok (-1, k') ∧ ForkUndone k p np k' := by
  obtain ⟨hnp, hfree, hp₁, hapart₁, hok₁, hused, hsz₁⟩ :=
    wp_ok (wp_allocproc_apart (E := fun _ => True) h hok) halloc np rfl
  have hne : p ≠ np := by
    rintro rfl
    exact hs hfree
  have hproc₁ := hapart₁.proc p hne
  -- both page tables after `allocproc`
  have hroot : k₁.root (some p) = some (k₁.proc p).pagetable := by
    rw [root_some hp, hproc₁, ptr_of_ne hpt]
  obtain ⟨hptnp, -, hspace⟩ := procOk_of_alive hok₁ (by rw [hused]; decide)
  have hrootnp : k₁.root (some np) = some (k₁.proc np).pagetable := by
    rw [root_some hnp, ptr_of_ne hptnp]
  have hmapped : Mapped k₁.mem (k₁.root (some np)) 0 := by
    have := hspace.mapped
    rwa [hsz₁, npages_zero, ← hrootnp] at this
  obtain ⟨hframe, hpages, hupper, hpost⟩ := wp_ok (wp_uvmcopy_cloned (E := fun _ => True) hp₁ hroot
    hrootnp (by simpa using hne) hmapped (by rw [hproc₁]; exact hsz)) hcopy
  have hnone : Mapped m (k₁.root (some np)) 0 := by
    rcases hpost with ⟨-, hnone⟩ | ⟨hzero, -⟩
    · exact hnone
    · exact absurd hzero (by decide)
  -- `freeproc` finds an address space without user memory
  have hspace₂ : AddressSpace img m (some (k₁.proc np).pagetable) (k₁.proc np).trapframe 0 := by
    rw [hsz₁] at hspace
    rw [hrootnp] at hnone hupper
    exact hspace.resize (Nat.zero_le _) hnone hupper
  have hapart₂ : Apart k₁ (k₁.setMem m) np :=
    Apart.of_frame (fun _ _ => rfl) (fun _ _ => rfl) hframe (fun _ _ => rfl) rfl
  obtain ⟨⟨⟩, k', hrun, hpages', hapart₃, hunused, hok'⟩ := wp_total (wp_freeproc_apart
    (k := k₁.setMem m) hnp hpages fun _ => ⟨_, by rw [setMem_proc, hsz₁]; exact hspace₂⟩)
  have hapart := (hapart₁.trans hapart₂).trans hapart₃
  have hbare : Bare k np :=
    ⟨(procOk_of_unused (hok np hnp hfree) hfree).1, (procOk_of_unused (hok np hnp hfree) hfree).2.1⟩
  have hbare' : Bare k' np := ⟨(procOk_of_unused hok' hunused).1, (procOk_of_unused hok' hunused).2.1⟩
  refine ⟨k', ?_, hunused, hapart.proc, ⟨hapart.leaf p hne, fun w hw e he => ?_⟩, ?_, hapart.fs,
    hapart.free_iff h hpages' hbare hbare'⟩
  · rw [kfork_of_uvmcopy_fails halloc hcopy, bind_ok hrun]
    rfl
  · exact hapart.page (.page (some p) w) _ (by simpa [OfProc] using hne) (own_leaf hw he)
  · exact hapart.page (.trapframe p) _ hne ((tf_some hp).trans (ptr_of_ne htf))

/-- **Fork copies memory exactly or not at all.**  Let the child have no user mappings.  `uvmcopy`
    returns 0 or -1, whatever calls of `kalloc` fail, and the parent is unchanged:

    * if 0, below the page-rounded size the child maps what the parent maps, with the same
      flags, each page a copy of its own in a page that was free;
    * if -1, the child has no user mapping, and every page that was free is free again but for
      the pages of its page table.  Then `kfork` returns -1 and leaves everything as it was. -/
theorem fork_exact :
    (∀ {img : Image} {R : Owner → Option Nat} {tf : Nat → Option Nat} {m : Mem} {loose : List Nat}
      {o o' : Owner} {old new sz : Nat}, Pages img R tf m loose → R o = some old →
      R o' = some new → o ≠ o' → Mapped m (R o') 0 → sz ≤ TRAPFRAME →
      ∃ res m', uvmcopy img old new sz m = .ok (res, m') ∧
        ForkCopied m (some old) (some new) sz res m') ∧
    ∀ {img : Image} {boot : List Nat} {k k₁ : Kernel} {p np : Nat} {m : Mem},
      Pages img k.root k.tf k.mem boot →
      (∀ q < NPROC, (k.proc q).state = .UNUSED → ProcOk img k.mem (k.proc q)) →
      p < NPROC → (k.proc p).state ≠ .UNUSED → (k.proc p).pagetable ≠ 0 →
      (k.proc p).trapframe ≠ 0 → (k.proc p).sz ≤ TRAPFRAME →
      allocproc img k = .ok (some np, k₁) →
      uvmcopy img (k₁.proc p).pagetable (k₁.proc np).pagetable (k₁.proc p).sz k₁.mem =
        .ok (-1, m) →
      ∃ k', kfork img p k = .ok (-1, k') ∧ ForkUndone k p np k' := by
  refine ⟨fun {img R tf m loose o o' old new sz} h hold hnew hne hm' hsz => ?_,
    fun h hok hp hs hpt htf hsz halloc hcopy => kfork_undone h hok hp hs hpt htf hsz halloc hcopy⟩
  obtain ⟨res, m', hrun, hpost⟩ := wp_total (wp_uvmcopy_exact h hold hnew hne hm' hsz)
  rw [hold, hnew] at hpost
  exact ⟨res, m', hrun, hpost⟩

/-- `allocproc` returns `np`, and then there is not enough memory for `uvmcopy`. -/
def forkFails (img : Image) (k : Kernel) (p np : Nat) : Bool :=
  match allocproc img k with
  | .ok (r, k₁) => decide (r = some np) &&
    match uvmcopy img (k₁.proc p).pagetable (k₁.proc np).pagetable (k₁.proc p).sz k₁.mem with
    | .ok (r, _) => decide (r = -1)
    | .error _ => false
  | .error _ => false

theorem forkFails_runs {np : Nat} (h : forkFails img k p np = true) : ∃ k₁ m,
    allocproc img k = .ok (some np, k₁) ∧
    uvmcopy img (k₁.proc p).pagetable (k₁.proc np).pagetable (k₁.proc p).sz k₁.mem = .ok (-1, m) := by
  unfold forkFails at h
  split at h
  · rename_i r k₁ halloc
    rw [Bool.and_eq_true, decide_eq_true_iff] at h
    obtain ⟨rfl, h⟩ := h
    split at h
    · rename_i r m hcopy
      rw [decide_eq_true_iff] at h
      subst h
      exact ⟨k₁, m, halloc, hcopy⟩
    · cases h
  · cases h

theorem smallState_forkFails : forkFails smallImage smallState 0 1 = true := by decide +kernel

theorem fork_exact_smallState : ∃ k₁ m k', allocproc smallImage smallState = .ok (some 1, k₁) ∧
    uvmcopy smallImage (k₁.proc 0).pagetable (k₁.proc 1).pagetable (k₁.proc 0).sz k₁.mem =
      .ok (-1, m) ∧
    ForkCopied k₁.mem (some (k₁.proc 0).pagetable) (some (k₁.proc 1).pagetable) (k₁.proc 0).sz (-1) m ∧
    kfork smallImage 0 smallState = .ok (-1, k') ∧ ForkUndone smallState 0 1 k' := by
  have hsound := smallState_sound
  have huse := smallState_inUse
  obtain ⟨k₁, m, halloc, hcopy⟩ := forkFails_runs smallState_forkFails
  generalize smallState = k at hsound huse halloc ⊢
  obtain ⟨hpt, htf, hspace⟩ := procOk_of_alive (hsound.procs 0 (by decide)) huse
  obtain ⟨hsound₁, hproc₁, hnp, -, hused, hsz₁⟩ :=
    wp_ok (wp_allocproc (E := fun _ => True) hsound) halloc
  obtain ⟨hroot, -, hspace₁⟩ := hsound₁.alive (p := 0) (by decide) (by rwa [hproc₁ 0 huse])
  obtain ⟨hroot', -, hspace'⟩ := hsound₁.alive (p := 1) (by decide) (by rw [hused]; decide)
  have hmapped := hspace'.mapped
  rw [hsz₁, npages_zero, ← hroot'] at hmapped
  obtain ⟨res, m', hrun, hpost⟩ := fork_exact.1 hsound₁.pages hroot hroot' (by decide) hmapped
    hspace₁.size
  obtain ⟨rfl, rfl⟩ := Prod.mk.inj (Except.ok.inj (hcopy.symm.trans hrun))
  obtain ⟨k', hfork, hundone⟩ := fork_exact.2 hsound.pages (fun q hq _ => hsound.procs q hq)
    (by decide) huse hpt htf hspace.size halloc hcopy
  exact ⟨k₁, m, k', halloc, hcopy, hpost, hfork, hundone⟩

end Memory

end Xv6.Process
