import Xv6.Vm.Walk

/-!
# Ranges of user memory

`uvmunmap`, `uvmalloc`, `uvmdealloc` and `uvmcopy` on an address space whose user memory is
exactly its first pages.  Since every mapped page is a page of its own, user memory is
smaller than physical memory, which ends far below `TRAPFRAME`.
-/

namespace Xv6.Vm

open ByteView Hoare Ledger

/-- The number of pages of `sz` bytes of user memory. -/
def npages (sz : Nat) : Nat := PGROUNDUP sz / PGSIZE

/-- User memory is exactly the first `n` pages. -/
def Mapped (m : Mem) (r : Option Nat) (n : Nat) : Prop :=
  ∀ v < UPAGES, m.leaf r v ≠ none ↔ v < n

theorem PGROUNDUP_eq (sz : Nat) : PGROUNDUP sz = npages sz * PGSIZE := by
  unfold npages PGROUNDUP
  rw [Nat.mul_div_cancel _ (by decide)]

theorem npages_eq (sz : Nat) (h : sz < 2 ^ 63) : npages sz = (sz + 4095) / 4096 := by
  unfold npages PGROUNDUP u64
  rw [show PGSIZE = 4096 from rfl, Nat.mul_div_cancel _ (by decide)]
  omega

theorem npages_zero : npages 0 = 0 := rfl

theorem lt_npages_iff {sz k : Nat} (h : sz < 2 ^ 63) : k < npages sz ↔ k * PGSIZE < sz := by
  rw [npages_eq _ h, show PGSIZE = 4096 from rfl]
  omega

theorem npages_le_of_le {sz sz' : Nat} (h : sz' < 2 ^ 63) (hle : sz ≤ sz') :
    npages sz ≤ npages sz' := by
  rw [npages_eq _ h, npages_eq _ (Nat.lt_of_le_of_lt hle h)]
  omega

section Ranges

variable {img : Image} {R : Owner → Option Nat} {tf : Nat → Option Nat} {o : Owner}
  {loose : List Nat} {m : Mem} {root n : Nat} {E : Panic → Prop}

/-- **`uvmunmap`** clears the leaves of a range, freeing the pages of user memory. -/
theorem wp_uvmunmap_held (v n : Nat) (doFree : Bool) (h : Pages img R tf m loose)
    (hroot : R o = some root) (hrange : v + n ≤ MAXVPN)
    (hkind : ∀ w, v ≤ w → w < v + n → (doFree = true ↔ w < UPAGES)) :
    wp (uvmunmap img root (v * PGSIZE) n doFree) E (fun _ m' => Frame img R tf o loose m m' ∧
      Pages img R tf m' loose ∧ Held m m' (R o) (fun w => ¬ (v ≤ w ∧ w < v + n)) ∧
      ∀ w < VPAGES, m'.leaf (R o) w = if v ≤ w ∧ w < v + n then none else m.leaf (R o) w) m := by
  have hM : MAXVPN = 2 ^ 26 := rfl
  have hV : VPAGES = 2 ^ 27 := rfl
  have hP : PGSIZE = 4096 := rfl
  have haligned : ¬ v * PGSIZE % PGSIZE ≠ 0 := not_not.mpr (Nat.mul_mod_left v PGSIZE)
  have hlast : u64 (v * PGSIZE + u64 (n * PGSIZE)) = (v + n) * PGSIZE := by
    unfold u64
    rw [hP]
    omega
  simp only [uvmunmap, if_neg haligned, wp_bind, hlast]
  refine wp_loop (I := fun a t => ∃ k ≤ n, a = (v + k) * PGSIZE ∧ Frame img R tf o loose m t ∧
      Pages img R tf t loose ∧ Held m t (R o) (fun w => ¬ (v ≤ w ∧ w < v + n)) ∧
      ∀ w < VPAGES, t.leaf (R o) w = if v ≤ w ∧ w < v + k then none else m.leaf (R o) w)
    (fun a => v + n - a / PGSIZE) ⟨0, Nat.zero_le n, rfl, Frame.refl, h, Held.refl, fun w _ => ?_⟩ ?_ ?_
  · rw [if_neg (by omega)]
  · rw [mul_PGSIZE_div]
    omega
  rintro a t ⟨k, hk, rfl, hframe, hpages, hheld, hleaf⟩
  unfold unmapBody
  split
  · rename_i hlt
    have hkn : k < n := by
      rw [hP] at hlt
      omega
    rw [wp_bind]
    refine wp_mono (wp_unmapPage_held hpages hroot (by omega) (hkind (v + k) (by omega) (by omega)))
      ?_
    rintro _ t' ⟨hframe', hpages', hheld', hleaf'⟩
    have hnext : u64 ((v + k) * PGSIZE + PGSIZE) = (v + (k + 1)) * PGSIZE := by
      unfold u64
      rw [hP]
      omega
    refine ⟨fun _ => ⟨⟨k + 1, hkn, hnext, hframe.trans hframe', hpages',
      hheld.trans (hheld'.mono fun w hout => by omega), fun w hw => ?_⟩, ?_⟩,
      fun h => absurd h (by simp)⟩
    · rw [hleaf' w hw, hleaf w hw]
      by_cases hwk : w = v + k
      · rw [if_pos hwk, if_pos (by omega)]
      · rw [if_neg hwk]
        by_cases hin : v ≤ w ∧ w < v + k
        · rw [if_pos hin, if_pos (by omega)]
        · rw [if_neg hin, if_neg (by omega)]
    · rw [hnext, mul_PGSIZE_div, mul_PGSIZE_div]
      omega
  · rename_i hge
    have hkn : k = n := by
      rw [hP] at hge
      omega
    subst hkn
    exact ⟨fun h => absurd h (by simp), fun _ => ⟨hframe, hpages, hheld, hleaf⟩⟩

theorem wp_uvmunmap (v n : Nat) (doFree : Bool) (h : Pages img R tf m loose)
    (hroot : R o = some root) (hrange : v + n ≤ MAXVPN)
    (hkind : ∀ w, v ≤ w → w < v + n → (doFree = true ↔ w < UPAGES)) :
    wp (uvmunmap img root (v * PGSIZE) n doFree) E (fun _ m' => Frame img R tf o loose m m' ∧
      Pages img R tf m' loose ∧ ∀ w < VPAGES,
        m'.leaf (R o) w = if v ≤ w ∧ w < v + n then none else m.leaf (R o) w) m :=
  wp_mono (wp_uvmunmap_held v n doFree h hroot hrange hkind)
    fun _ _ ⟨hframe, hpages, _, hleaf⟩ => ⟨hframe, hpages, hleaf⟩

/-- The pages of physical memory. -/
def NPAGES : Nat := (PHYSTOP - KERNBASE) / PGSIZE

/-- **Mapped pages are different pages**, so there are no more than physical memory has. -/
theorem Pages.mapped_le (h : Pages img R tf m loose) {k : Nat} (hk : k ≤ UPAGES)
    (hmapped : ∀ w < k, m.leaf (R o) w ≠ none) : k ≤ NPAGES := by
  have hown : ∀ w < k, ∃ pa, own R tf m (.page o w) = some pa ∧ Allocatable img pa := by
    intro w hw
    obtain ⟨e, he⟩ := Option.ne_none_iff_exists'.mp (hmapped w hw)
    have hpage : own R tf m (.page o w) = some (PTE2PA e) := by
      rw [own_page (by omega), he, Option.map_some]
    exact ⟨_, hpage, h.exact.owned _ _ hpage⟩
  have himg : KERNBASE ≤ img.kend := by
    have := img.kernbase_le
    have := img.trampoline_lt
    omega
  -- number the pages of physical memory
  have hcard := Finset.card_le_card_of_injOn (s := Finset.range k) (t := Finset.range NPAGES)
    (fun w => ((own R tf m (.page o w)).getD 0 - KERNBASE) / PGSIZE) (fun w hw => by
      obtain ⟨pa, hpa, -, hlow, hhigh⟩ := hown w (Finset.mem_range.mp hw)
      simp only [hpa, Option.getD_some, Finset.coe_range, Set.mem_Iio]
      rw [show NPAGES = 32768 from rfl, show PGSIZE = 4096 from rfl]
      rw [show PHYSTOP = KERNBASE + 32768 * 4096 from rfl] at hhigh
      omega) (fun w hw w' hw' heq => by
      obtain ⟨pa, hpa, haligned, hlow, -⟩ := hown w (Finset.mem_range.mp hw)
      obtain ⟨pb, hpb, haligned', hlow', -⟩ := hown w' (Finset.mem_range.mp hw')
      simp only [hpa, hpb, Option.getD_some] at heq
      have hsame : pa = pb := by
        rw [show PGSIZE = 4096 from rfl] at *
        have hbase : KERNBASE % 4096 = 0 := rfl
        omega
      have honce := h.exact.once _ _ _ hpa (hsame ▸ hpb)
      exact (Slot.page.inj honce).2)
  simpa using hcard

/-- The entries of user pages `n` to `n' - 1` are new, with the permissions `perm`, and the
    others are those of `m`. -/
def Extended (m m' : Mem) (r : Option Nat) (n n' perm : Nat) : Prop :=
  ∀ w < VPAGES, (n ≤ w ∧ w < n' → ∃ pa, m'.leaf r w = some (PA2PTE pa ||| perm ||| PTE_V)) ∧
    (¬ (n ≤ w ∧ w < n') → m'.leaf r w = m.leaf r w)

theorem Extended.refl {r : Option Nat} {perm : Nat} : Extended m m r n n perm :=
  fun _ _ => ⟨fun h => absurd h (by omega), fun _ => rfl⟩

theorem Extended.mapped {m' : Mem} {r : Option Nat} {n' perm : Nat}
    (h : Extended m m' r n n' perm) (hm : Mapped m r n) (hn : n ≤ n') : Mapped m' r n' := by
  intro w hw
  obtain ⟨hnew, hold⟩ := h w (Nat.lt_trans hw UPAGES_lt_VPAGES)
  by_cases hin : n ≤ w ∧ w < n'
  · obtain ⟨pa, hpa⟩ := hnew hin
    rw [hpa]
    simp [hin.2]
  · rw [hold hin, hm w hw]
    omega

theorem Extended.succ {m₁ m₂ : Mem} {r : Option Nat} {k perm pa : Nat}
    (h : Extended m m₁ r n k perm) (hk : n ≤ k) (hnext : ∀ w < VPAGES, m₂.leaf r w =
      if w = k then some (PA2PTE pa ||| perm ||| PTE_V) else m₁.leaf r w) :
    Extended m m₂ r n (k + 1) perm := by
  intro w hw
  rw [hnext w hw]
  by_cases hwk : w = k
  · rw [if_pos hwk]
    exact ⟨fun _ => ⟨pa, rfl⟩, fun hout => absurd ⟨by omega, by omega⟩ hout⟩
  · rw [if_neg hwk]
    obtain ⟨hnew, hold⟩ := h w hw
    exact ⟨fun hin => hnew (by omega), fun hout => hold (by omega)⟩

/-- User pages `n` to `n' - 1` are zero. -/
def Zeroed (m : Mem) (r : Option Nat) (n n' : Nat) : Prop :=
  ∀ w < UPAGES, n ≤ w → w < n' → ∀ e, m.leaf r w = some e → m.page (PTE2PA e) = fun _ => 0

/-- The loop of `uvmalloc`: it stops at page `k`, where it has run out of memory or the new
    size is reached. -/
theorem wp_allocLoop (h : Pages img R tf m loose) (hroot : R o = some root)
    (hm : Mapped m (R o) n) (hn : n ≤ UPAGES) {newsz xperm : Nat} (hxperm : xperm < 2 ^ 10) :
    wp (loop (allocBody img root newsz xperm) (newsz / PGSIZE + 2) ⟨n * PGSIZE, false⟩) E
      (fun v m' => ∃ k, n ≤ k ∧ k ≤ UPAGES ∧ v.a = k * PGSIZE ∧ Frame img R tf o loose m m' ∧
        Pages img R tf m' loose ∧ Extended m m' (R o) n k (PTE_R ||| PTE_U ||| xperm) ∧
        Held m m' (R o) (fun _ => True) ∧ Zeroed m' (R o) n k ∧
        (k = n ∨ (k - 1) * PGSIZE < newsz) ∧ (v.failed = false → newsz ≤ k * PGSIZE)) m := by
  have hP : PGSIZE = 4096 := rfl
  have hU : UPAGES = 2 ^ 26 - 2 := rfl
  have hperm : PTE_R ||| PTE_U ||| xperm < 2 ^ 10 := Nat.or_lt_two_pow (by decide) hxperm
  refine wp_loop (I := fun v t => v.failed = false ∧ ∃ k, n ≤ k ∧ k ≤ UPAGES ∧ v.a = k * PGSIZE ∧
      Frame img R tf o loose m t ∧ Pages img R tf t loose ∧
      Extended m t (R o) n k (PTE_R ||| PTE_U ||| xperm) ∧ Held m t (R o) (fun _ => True) ∧
      Zeroed t (R o) n k ∧ (k = n ∨ (k - 1) * PGSIZE < newsz))
    (fun v => newsz / PGSIZE + 1 - v.a / PGSIZE)
    ⟨rfl, n, Nat.le_refl n, hn, rfl, Frame.refl, h, Extended.refl, Held.refl,
      fun w _ hlow hhigh => absurd hhigh (by omega), Or.inl rfl⟩
    (Nat.lt_of_le_of_lt (Nat.sub_le _ _) (Nat.lt_succ_self _)) ?_
  rintro ⟨a, failed⟩ t ⟨hok, k, hnk, hk, ha, hframe, hpages, hext, hheld, hzeroed, hlast⟩
  dsimp only at hok ha
  subst hok ha
  -- pages that hold what they held are still zero
  have hzeroed' : ∀ {t'}, Held t t' (R o) (fun _ => True) →
      (∀ w < VPAGES, w < k → t'.leaf (R o) w = t.leaf (R o) w) → Zeroed t' (R o) n k := by
    intro t' hheld' hleaf' w hw hlow hhigh e he
    have hwV := Nat.lt_trans hw UPAGES_lt_VPAGES
    rw [hleaf' w hwV hhigh] at he
    rw [(hheld' w hw trivial e he).2]
    exact hzeroed w hw hlow hhigh e he
  unfold allocBody
  split
  · rename_i hlt
    have hmapped := hext.mapped hm hnk
    -- physical memory ends before the address space does
    have hkU : k < UPAGES := by
      have hle := hpages.mapped_le hk fun w hw => (hmapped w (by omega)).mpr hw
      rw [show NPAGES = 32768 from rfl] at hle
      omega
    rw [wp_bind]
    refine wp_mono (wp_kalloc_fresh o hpages) ?_
    rintro res t₁ ⟨halloc, _, hres⟩
    cases res with
    | none =>
      refine ⟨fun h => absurd h (by simp), fun _ => ⟨k, hnk, hk, rfl, hframe.trans halloc.frame, hres,
        fun w hw => ?_, hheld.trans halloc.held, hzeroed' halloc.held fun w _ _ => halloc.leaf o w,
        hlast, fun h => absurd h (by simp)⟩⟩
      rw [halloc.leaf]
      exact hext w hw
    | some mem =>
      simp only [wp_bind, memset, wp_modify]
      obtain ⟨hzero, halloc₂⟩ := hres.2.setLoose_allocates (o := o) fun _ => 0
      have hkept := halloc.trans halloc₂
      have hnone : (t₁.setPage mem fun _ => 0).leaf (R o) k = none := by
        rw [hkept.leaf]
        by_contra hne
        exact Nat.lt_irrefl k ((hmapped k hkU).mp hne)
      refine wp_mono (wp_mappages_held hzero hroot hkU hnone hperm) ?_
      rintro r t₂ ⟨hframe₂, hmem, _, hheld₂, hpost⟩
      have hframe' := (hframe.trans hkept.frame).trans hframe₂
      have hheld' := hkept.held.trans hheld₂
      rcases hpost with ⟨rfl, hp₂, hleaf₂⟩ | ⟨rfl, hp₂, hleaf₂⟩
      · -- no page for a table: the page goes back
        have hmem := hp₂.exact.mem mem List.mem_cons_self
        obtain ⟨hp₃, hkeeps₃⟩ := hp₂.freed o
        have hheld₃ := hheld'.trans (hp₂.held_freed o)
        simp only [if_pos (show (-1 : Int) ≠ 0 by decide), wp_bind]
        refine wp_mono (wp_kfree hmem) fun _ t₃ ht₃ => ?_
        subst ht₃
        have hleaf₃ : ∀ w, (t₂.freed mem).leaf (R o) w = t.leaf (R o) w := fun w => by
          rw [hkeeps₃.leaf, hleaf₂, hkept.leaf]
        refine ⟨fun h => absurd h (by simp), fun _ => ⟨k, hnk, hk, rfl, hframe'.trans hkeeps₃.frame,
          hp₃, fun w hw => ?_, hheld.trans hheld₃, hzeroed' hheld₃ fun w _ _ => hleaf₃ w, hlast,
          fun h => absurd h (by simp)⟩⟩
        rw [hleaf₃]
        exact hext w hw
      · simp only [if_neg (show ¬ (0 : Int) ≠ 0 by decide), wp_pure]
        have hnext : u64 (k * PGSIZE + PGSIZE) = (k + 1) * PGSIZE := by
          unfold u64
          rw [hP]
          omega
        have hleaf' : ∀ w < VPAGES, t₂.leaf (R o) w = if w = k then
            some (PA2PTE mem ||| (PTE_R ||| PTE_U ||| xperm) ||| PTE_V) else t.leaf (R o) w :=
          fun w hw => by rw [hleaf₂ w hw, hkept.leaf]
        have hext' : Extended m t₂ (R o) n (k + 1) (PTE_R ||| PTE_U ||| xperm) :=
          hext.succ hnk hleaf'
        have hzeroed₂ : Zeroed t₂ (R o) n (k + 1) := by
          intro w hw hlow hhigh e he
          by_cases hwk : w = k
          · rw [hleaf' w (Nat.lt_trans hw UPAGES_lt_VPAGES), if_pos hwk] at he
            obtain rfl := Option.some.inj he
            have hpa := hzero.exact.mem mem List.mem_cons_self
            rw [PTE2PA_entry hpa.1 hpa.lt hperm, hmem]
            exact Function.update_self ..
          · exact hzeroed' hheld' (fun w' hw' hlt => by rw [hleaf' w' hw', if_neg (by omega)])
              w hw hlow (by omega) e he
        refine ⟨fun _ => ⟨⟨trivial, k + 1, by omega, hkU, hnext, hframe', hp₂, hext',
          hheld.trans hheld', hzeroed₂, ?_⟩, ?_⟩, fun h => absurd h (by simp)⟩
        · right
          rw [Nat.add_sub_cancel]
          exact hlt
        · rw [hnext, mul_PGSIZE_div, mul_PGSIZE_div]
          have hdiv : k ≤ newsz / PGSIZE := by
            rw [Nat.le_div_iff_mul_le (by decide)]
            exact Nat.le_of_lt hlt
          omega
  · rename_i hge
    exact ⟨fun h => absurd h (by simp), fun _ => ⟨k, hnk, hk, rfl, hframe, hpages, hext, hheld,
      hzeroed, hlast, fun _ => Nat.not_lt.mp hge⟩⟩

/-- **`uvmalloc`** extends user memory to the new size with pages of zeros, or leaves it as it
    was.  What was mapped before holds what it held. -/
theorem wp_uvmalloc_held (h : Pages img R tf m loose) (hroot : R o = some root)
    {oldsz newsz xperm : Nat} (hm : Mapped m (R o) (npages oldsz)) (hold : oldsz ≤ TRAPFRAME)
    (hxperm : xperm < 2 ^ 10) :
    wp (uvmalloc img root oldsz newsz xperm) E (fun r m' => Frame img R tf o loose m m' ∧
      Pages img R tf m' loose ∧ Held m m' (R o) (fun _ => True) ∧
      ((newsz < oldsz ∧ r = oldsz ∧ m' = m) ∨
       (r = 0 ∧ ∀ w < VPAGES, m'.leaf (R o) w = m.leaf (R o) w) ∨
       (oldsz ≤ newsz ∧ newsz ≤ TRAPFRAME ∧ r = newsz ∧
         Extended m m' (R o) (npages oldsz) (npages newsz) (PTE_R ||| PTE_U ||| xperm) ∧
         Zeroed m' (R o) (npages oldsz) (npages newsz)))) m := by
  have hP : PGSIZE = 4096 := rfl
  have hU : UPAGES = 2 ^ 26 - 2 := rfl
  have hT : TRAPFRAME = (2 ^ 26 - 2) * 4096 := rfl
  unfold uvmalloc
  split
  · rename_i hlt
    exact ⟨Frame.refl, h, Held.refl, Or.inl ⟨hlt, rfl, rfl⟩⟩
  rename_i hge
  have hn := npages_eq oldsz (by omega)
  have hnU : npages oldsz ≤ UPAGES := by omega
  rw [wp_bind, PGROUNDUP_eq]
  refine wp_mono (wp_allocLoop h hroot hm hnU hxperm)
    fun v t ⟨k, hnk, hk, ha, hframe, hpages, hext, hheld, hzeroed, hlast, hdone⟩ => ?_
  split
  · -- undo
    have hcount : u64 (v.a + 2 ^ 64 - npages oldsz * PGSIZE) / PGSIZE = k - npages oldsz := by
      unfold u64
      rw [ha, hP]
      omega
    rw [wp_bind, hcount]
    have hM : MAXVPN = 2 ^ 26 := rfl
    have hV : VPAGES = 2 ^ 27 := rfl
    refine wp_mono (wp_uvmunmap_held _ _ _ hpages hroot (by omega) fun w _ hw => by
      simp only [true_iff]
      omega) fun _ t' ⟨hframe', hpages', hheld', hleaf'⟩ => ?_
    refine ⟨hframe.trans hframe', hpages', fun w hw _ e he => ?_, Or.inr (Or.inl ⟨rfl, fun w hw => ?_⟩)⟩
    · have hlow : w < npages oldsz := (hm w hw).mp (by rw [he]; simp)
      obtain ⟨he', hpage⟩ := hheld w hw trivial e he
      obtain ⟨he'', hpage'⟩ := hheld' w hw (by omega) e he'
      exact ⟨he'', hpage'.trans hpage⟩
    · rw [hleaf' w hw]
      split
      · rename_i hin
        symm
        by_contra hne
        have := (hm w (by omega)).mp hne
        omega
      · rename_i hout
        exact (hext w hw).2 (by omega)
  · rename_i hfailed
    have hreach := hdone (by simpa using hfailed)
    have hnew : newsz ≤ TRAPFRAME := by
      rw [hP] at hreach
      omega
    have hkn : k = npages newsz := by
      rw [npages_eq _ (by omega)]
      rw [hP] at hreach hlast
      omega
    subst hkn
    exact ⟨hframe, hpages, hheld, Or.inr (Or.inr ⟨Nat.not_lt.mp hge, hnew, rfl, hext, hzeroed⟩)⟩

theorem wp_uvmalloc (h : Pages img R tf m loose) (hroot : R o = some root) {oldsz newsz xperm : Nat}
    (hm : Mapped m (R o) (npages oldsz)) (hold : oldsz ≤ TRAPFRAME) (hxperm : xperm < 2 ^ 10) :
    wp (uvmalloc img root oldsz newsz xperm) E (fun r m' => Frame img R tf o loose m m' ∧
      Pages img R tf m' loose ∧
      ((newsz < oldsz ∧ r = oldsz ∧ m' = m) ∨
       (r = 0 ∧ ∀ w < VPAGES, m'.leaf (R o) w = m.leaf (R o) w) ∨
       (oldsz ≤ newsz ∧ newsz ≤ TRAPFRAME ∧ r = newsz ∧
         Extended m m' (R o) (npages oldsz) (npages newsz) (PTE_R ||| PTE_U ||| xperm)))) m := by
  refine wp_mono (wp_uvmalloc_held h hroot hm hold hxperm)
    fun r m' ⟨hframe, hpages, _, hpost⟩ => ⟨hframe, hpages, ?_⟩
  rcases hpost with hsmall | hfailed | ⟨hle, hnew, hr, hext, -⟩
  · exact Or.inl hsmall
  · exact Or.inr (Or.inl hfailed)
  · exact Or.inr (Or.inr ⟨hle, hnew, hr, hext⟩)

/-- **`uvmdealloc`** cuts user memory to the new size, and the rest holds what it held. -/
theorem wp_uvmdealloc_held (h : Pages img R tf m loose) (hroot : R o = some root)
    {oldsz newsz : Nat} (hm : Mapped m (R o) (npages oldsz)) (hold : oldsz ≤ TRAPFRAME)
    (hlt : newsz < oldsz) :
    wp (uvmdealloc img root oldsz newsz) E (fun r m' => Frame img R tf o loose m m' ∧
      Pages img R tf m' loose ∧ r = newsz ∧ Mapped m' (R o) (npages newsz) ∧
      Held m m' (R o) (fun w => w < npages newsz) ∧
      ∀ w, UPAGES ≤ w → w < VPAGES → m'.leaf (R o) w = m.leaf (R o) w) m := by
  have hP : PGSIZE = 4096 := rfl
  have hU : UPAGES = 2 ^ 26 - 2 := rfl
  have hM : MAXVPN = 2 ^ 26 := rfl
  have hV : VPAGES = 2 ^ 27 := rfl
  have hT : TRAPFRAME = (2 ^ 26 - 2) * 4096 := rfl
  have hn := npages_eq oldsz (by omega)
  have hn' := npages_eq newsz (by omega)
  simp only [uvmdealloc, if_neg (Nat.not_le.mpr hlt), PGROUNDUP_eq]
  split
  · rename_i hless
    have hcount : (npages oldsz * PGSIZE - npages newsz * PGSIZE) / PGSIZE =
        npages oldsz - npages newsz := by
      rw [hP]
      omega
    rw [wp_bind, hcount]
    refine wp_mono (wp_uvmunmap_held _ _ _ h hroot (by omega) fun w _ hw => by
      simp only [true_iff]
      omega) fun _ t ⟨hframe, hpages, hheld, hleaf⟩ => ?_
    refine ⟨hframe, hpages, rfl, fun w hw => ?_, hheld.mono fun w hw => by omega, fun w hw hwV => ?_⟩
    · rw [hleaf w (by omega)]
      split
      · simp only [ne_eq, not_true_eq_false, false_iff]
        omega
      · rw [hm w hw]
        omega
    · rw [hleaf w hwV, if_neg (by omega)]
  · rename_i hsame
    have heq : npages oldsz = npages newsz := by
      rw [hP] at hsame
      omega
    rw [heq] at hm
    exact ⟨Frame.refl, h, rfl, hm, Held.refl, fun _ _ _ => rfl⟩

theorem wp_uvmdealloc (h : Pages img R tf m loose) (hroot : R o = some root) {oldsz newsz : Nat}
    (hm : Mapped m (R o) (npages oldsz)) (hold : oldsz ≤ TRAPFRAME) (hlt : newsz < oldsz) :
    wp (uvmdealloc img root oldsz newsz) E (fun r m' => Frame img R tf o loose m m' ∧
      Pages img R tf m' loose ∧ r = newsz ∧ Mapped m' (R o) (npages newsz) ∧
      ∀ w, UPAGES ≤ w → w < VPAGES → m'.leaf (R o) w = m.leaf (R o) w) m :=
  wp_mono (wp_uvmdealloc_held h hroot hm hold hlt)
    fun _ _ ⟨hframe, hpages, hr, hmapped, _, hleaf⟩ => ⟨hframe, hpages, hr, hmapped, hleaf⟩

/-- The user page that a virtual address is in, 0 if there is none. -/
def userPage (m : Mem) (r : Option Nat) (va : Nat) : Nat :=
  if va < MAXVA then
    match m.leaf r (va / PGSIZE) with
    | none => 0
    | some e => if e &&& PTE_U = 0 then 0 else PTE2PA e
  else 0

theorem wp_walkaddr (va : Nat) :
    wp (walkaddr root va) E (fun r m' => m' = m ∧ r = userPage m (some root) va) m := by
  unfold walkaddr userPage
  by_cases hva : va < MAXVA
  · rw [if_neg (Nat.not_le.mpr hva), if_pos hva, wp_bind]
    refine wp_mono (wp_walk_lookup hva) fun res m' ⟨hm, hres⟩ => ?_
    subst hm
    cases hpt : m'.table (some root) (tablePath (va / PGSIZE)) with
    | none =>
      rw [hpt] at hres
      subst hres
      rw [leaf_none_of_table hpt]
      exact ⟨rfl, rfl⟩
    | some pt =>
      rw [hpt] at hres
      subst hres
      rw [leaf_eq_ifValid hpt]
      simp only [Option.map_some, wp_bind, loadPte, wp_get, wp_pure]
      by_cases hvalid : m'.pte pt (ix 0 (va / PGSIZE)) &&& PTE_V = 0
      · rw [if_pos (Or.inl hvalid), ifValid_eq_none.mpr hvalid]
        exact ⟨rfl, rfl⟩
      · rw [ifValid_eq_some.mpr ⟨rfl, hvalid⟩]
        by_cases huser : m'.pte pt (ix 0 (va / PGSIZE)) &&& PTE_U = 0
        · simp only [if_pos huser, if_pos (Or.inr huser : _ ∨ _), wp_pure, and_self]
        · simp only [if_neg huser, if_neg (not_or.mpr ⟨hvalid, huser⟩), wp_pure, and_self]
  · rw [if_pos (Nat.not_lt.mp hva), if_neg hva]
    exact ⟨rfl, rfl⟩

/-- Above user memory nothing is accessible to the user. -/
def NoUser (m : Mem) (r : Option Nat) : Prop :=
  ∀ v, UPAGES ≤ v → v < VPAGES → ∀ e, m.leaf r v = some e → e &&& PTE_U = 0

theorem own_of_userPage {va : Nat} (hno : NoUser m (R o)) (h : userPage m (R o) va ≠ 0) :
    va < MAXVA ∧ own R tf m (.page o (va / PGSIZE)) = some (userPage m (R o) va) := by
  unfold userPage at h ⊢
  by_cases hva : va < MAXVA
  · refine ⟨hva, ?_⟩
    rw [if_pos hva] at h ⊢
    cases hleaf : m.leaf (R o) (va / PGSIZE) with
    | none =>
      rw [hleaf] at h
      exact absurd rfl h
    | some e =>
      rw [hleaf] at h
      dsimp only at h ⊢
      by_cases huser : e &&& PTE_U = 0
      · exact absurd (if_pos huser) h
      · rw [if_neg huser]
        have hv : va / PGSIZE < UPAGES := by
          by_contra hge
          refine huser (hno _ (Nat.not_lt.mp hge) ?_ e hleaf)
          rw [show VPAGES = 2 ^ 27 from rfl, show PGSIZE = 4096 from rfl]
          rw [show MAXVA = 2 ^ 38 from rfl] at hva
          omega
        rw [own_page hv, hleaf, Option.map_some]
  · exact absurd (if_neg hva) h

/-- **`copyout`** writes to user memory only. -/
theorem wp_copyout (h : Pages img R tf m loose) (hroot : R o = some root) (hno : NoUser m (R o))
    (dstva : Nat) (src : Nat → UInt8) (len : Nat) :
    wp (copyout root dstva src len) E (fun _ m' => Pages img R tf m' loose ∧
      Keeps img R tf o loose m m') m := by
  unfold copyout
  rw [wp_bind]
  refine wp_loop (I := fun _ t => Pages img R tf t loose ∧ Keeps img R tf o loose m t)
    (fun v => v.len) ⟨h, Keeps.refl⟩ (Nat.lt_succ_self _) ?_
  rintro v t ⟨hpages, hkeeps⟩
  have hstop : ∀ v' : CopyVars, ((v', false).2 = true →
      (Pages img R tf t loose ∧ Keeps img R tf o loose m t) ∧ v'.len < v.len) ∧
      ((v', false).2 = false → wp (pure (if v'.failed then -1 else 0) : VmM Int) E
        (fun _ m' => Pages img R tf m' loose ∧ Keeps img R tf o loose m m') t) :=
    fun v' => ⟨fun h => absurd h (by simp), fun _ => ⟨hpages, hkeeps⟩⟩
  unfold copyoutBody
  split
  · rename_i hlen
    rw [wp_bind]
    refine wp_mono (wp_walkaddr _) fun pa0 t' ⟨ht, hpa0⟩ => ?_
    subst ht
    split
    · exact hstop _
    · rename_i hne
      have hno' : NoUser t' (R o) := fun w hw hwV e he => hno w hw hwV e (by rwa [← hkeeps.leaf])
      rw [hpa0, ← hroot] at hne
      have huser : _ ∧ own R tf t' _ = _ := own_of_userPage hno' hne
      obtain ⟨hva, hown⟩ := huser
      rw [← hroot] at hpa0
      rw [wp_bind]
      refine wp_mono (wp_walk_lookup hva) fun res t'' ⟨ht, hres⟩ => ?_
      subst ht
      rw [← hroot] at hres
      cases hpt : t''.table (R o) (tablePath (PGROUNDDOWN v.dstva / PGSIZE)) with
      | none =>
        exfalso
        refine hne ?_
        unfold userPage
        rw [if_pos hva, leaf_none_of_table hpt]
      | some pt =>
        rw [hpt] at hres
        subst hres
        simp only [Option.map_some, wp_bind, loadPte, wp_get, wp_pure]
        split
        · exact hstop _
        · simp only [wp_bind, wp_modify, wp_pure]
          rw [hpa0]
          obtain ⟨hpages', hkeeps'⟩ := hpages.setMapped (splice (t''.page (userPage t'' (R o)
            (PGROUNDDOWN v.dstva))) (v.dstva - PGROUNDDOWN v.dstva)
            (min (PGSIZE - (v.dstva - PGROUNDDOWN v.dstva)) v.len) fun k => src (v.done + k)) hown
          refine ⟨fun _ => ⟨⟨hpages', hkeeps.trans hkeeps'⟩, ?_⟩, fun h => absurd h (by simp)⟩
          have hoff : v.dstva - PGROUNDDOWN v.dstva < PGSIZE := by
            unfold PGROUNDDOWN
            rw [show PGSIZE = 4096 from rfl]
            omega
          show v.len - min _ _ < v.len
          omega
  · exact hstop v

/-- **`uvmclear`** takes a page from the user, and leaves it mapped. -/
theorem wp_uvmclear_held (h : Pages img R tf m loose) (hroot : R o = some root) {v e : Nat}
    (hv : v < UPAGES) (hleaf : m.leaf (R o) v = some e) :
    wp (uvmclear root (v * PGSIZE)) E (fun _ m' => Frame img R tf o loose m m' ∧
      Pages img R tf m' loose ∧ Held m m' (R o) (fun w => w ≠ v) ∧ ∀ w < VPAGES, m'.leaf (R o) w =
        if w = v then some (e &&& (2 ^ 64 - 1 - PTE_U)) else m.leaf (R o) w) m := by
  have hv' := Nat.lt_trans hv UPAGES_lt_VPAGES
  unfold uvmclear
  rw [wp_bind]
  refine wp_mono (wp_walk_lookup (mul_PGSIZE_lt (Nat.lt_trans hv UPAGES_lt_MAXVPN))) fun res m' ⟨hm, hres⟩ => ?_
  subst hm
  rw [mul_PGSIZE_div, ← hroot] at hres
  cases hpt : m'.table (R o) (tablePath v) with
  | none =>
    rw [leaf_none_of_table hpt] at hleaf
    cases hleaf
  | some pt =>
    rw [hpt] at hres
    subst hres
    rw [leaf_eq_ifValid hpt, ifValid_eq_some] at hleaf
    obtain ⟨hpte, hvalid⟩ := hleaf
    have hlt : e < 2 ^ 64 := hpte ▸ getLE_lt _ _ 8
    have hclear : e &&& (2 ^ 64 - 1 - PTE_U) < 2 ^ 64 :=
      Nat.lt_of_le_of_lt (Nat.and_le_left ..) hlt
    have hvalid' : (e &&& (2 ^ 64 - 1 - PTE_U)) &&& PTE_V ≠ 0 := by
      rw [Nat.and_assoc, show (2 ^ 64 - 1 - PTE_U) &&& PTE_V = PTE_V from by decide]
      exact hvalid
    have hpa : PTE2PA (e &&& (2 ^ 64 - 1 - PTE_U)) = PTE2PA e := by
      unfold PTE2PA
      rw [Nat.shiftRight_and_distrib, show (2 ^ 64 - 1 - PTE_U) >>> 10 = 2 ^ 54 - 1 from by decide,
        Nat.and_two_pow_sub_one_eq_mod, Nat.shiftRight_eq_div_pow, Nat.mod_eq_of_lt (by omega)]
    simp only [Option.map_some, wp_bind, loadPte, wp_get, wp_pure, storePte, wp_modify, hpte]
    have hset := h.setLeaf hv' hpt hclear fun _ => by
      rw [leaf_eq_ifValid hpt, hpte, ifValid_eq_some.mpr ⟨rfl, hvalid'⟩,
        ifValid_eq_some.mpr ⟨rfl, hvalid⟩, Option.map_some, Option.map_some, hpa]
    have hleaf' : ∀ w < VPAGES, (m'.setPte pt (ix 0 v) (e &&& (2 ^ 64 - 1 - PTE_U))).leaf (R o) w =
        if w = v then some (e &&& (2 ^ 64 - 1 - PTE_U)) else m'.leaf (R o) w := fun w hw => by
      rw [(@Keeps.refl img R tf o loose m').leaf_setPte h hv' hpt hclear hw,
        ifValid_eq_some.mpr ⟨rfl, hvalid'⟩]
    refine ⟨h.frame_setPte_leaf hpt, hset, fun w hw hne e' he' => ⟨?_, ?_⟩, hleaf'⟩
    · rw [hleaf' w (Nat.lt_trans hw UPAGES_lt_VPAGES), if_neg hne, he']
    · refine Mem.page_setPte (fun heq => ?_) _ _
      exact h.table_not_mapped (Nat.le_of_eq (length_tablePath v)) hpt w (heq ▸ own_leaf hw he')

theorem wp_uvmclear (h : Pages img R tf m loose) (hroot : R o = some root) {v e : Nat}
    (hv : v < UPAGES) (hleaf : m.leaf (R o) v = some e) :
    wp (uvmclear root (v * PGSIZE)) E (fun _ m' => Frame img R tf o loose m m' ∧
      Pages img R tf m' loose ∧ ∀ w < VPAGES, m'.leaf (R o) w =
        if w = v then some (e &&& (2 ^ 64 - 1 - PTE_U)) else m.leaf (R o) w) m :=
  wp_mono (wp_uvmclear_held h hroot hv hleaf) fun _ _ ⟨hframe, hpages, _, hleaf⟩ =>
    ⟨hframe, hpages, hleaf⟩

end Ranges

/-! ### `uvmcopy` -/

section Copy

variable {img : Image} {R : Owner → Option Nat} {tf : Nat → Option Nat} {o o' : Owner}
  {loose : List Nat} {m : Mem} {old new sz : Nat} {E : Panic → Prop}

/-- Pages below `k` of the second address space are mapped with the flags of the first one in
    `m`, and the others are as in `m`. -/
def Copied (m m' : Mem) (r r' : Option Nat) (k : Nat) : Prop :=
  ∀ w < VPAGES, (w < k → ∃ e pa, m.leaf r w = some e ∧
      m'.leaf r' w = some (PA2PTE pa ||| PTE_FLAGS e ||| PTE_V)) ∧
    (¬ w < k → m'.leaf r' w = m.leaf r' w)

theorem Copied.mapped {m' : Mem} {r r' : Option Nat} {k : Nat} (h : Copied m m' r r' k)
    (hm : Mapped m r' 0) : Mapped m' r' k := by
  intro w hw
  obtain ⟨hnew, hold⟩ := h w (Nat.lt_trans hw UPAGES_lt_VPAGES)
  by_cases hwk : w < k
  · obtain ⟨e, pa, -, hleaf⟩ := hnew hwk
    rw [hleaf]
    simp [hwk]
  · rw [hold hwk, hm w hw]
    omega

/-- Page `w` of the second address space is a copy, in a page that was free in `m`, of that of
    the first one in `m`, with its flags, or is not mapped if that is not. -/
def CloneAt (m m' : Mem) (r r' : Option Nat) (w : Nat) : Prop :=
  match m.leaf r w with
  | none => m'.leaf r' w = none
  | some e => ∃ pa ∈ m.freelist, m'.leaf r' w = some (PA2PTE pa ||| PTE_FLAGS e ||| PTE_V) ∧
      m'.page pa = m.page (PTE2PA e)

/-- The pages below `k` are copies, and the others are as in `m`. -/
def Cloned (m m' : Mem) (r r' : Option Nat) (k : Nat) : Prop :=
  ∀ w < UPAGES, (w < k → CloneAt m m' r r' w) ∧ (¬ w < k → m'.leaf r' w = m.leaf r' w)

theorem Cloned.zero {r r' : Option Nat} : Cloned m m r r' 0 :=
  fun _ _ => ⟨fun h => absurd h (by omega), fun _ => rfl⟩

theorem PTE_FLAGS_lt (e : Nat) : PTE_FLAGS e < 2 ^ 10 :=
  Nat.lt_of_le_of_lt (Nat.and_le_right ..) (by decide)

theorem CloneAt.held {m₁ m₂ : Mem} {r r' : Option Nat} {w : Nat} (h : CloneAt m m₁ r r' w)
    (hw : w < UPAGES) (hfree : ∀ a ∈ m.freelist, Allocatable img a)
    (hheld : Held m₁ m₂ r' fun _ => True) (hleaf : m₂.leaf r' w = m₁.leaf r' w) :
    CloneAt m m₂ r r' w := by
  unfold CloneAt at h ⊢
  rw [hleaf]
  split at h
  · exact h
  · rename_i e _
    obtain ⟨pa, hpa, hentry, hpage⟩ := h
    refine ⟨pa, hpa, hentry, ?_⟩
    have hsame := (hheld w hw trivial _ hentry).2
    rw [PTE2PA_entry (hfree pa hpa).1 (hfree pa hpa).lt (PTE_FLAGS_lt e)] at hsame
    rw [hsame, hpage]

theorem Cloned.held {m₁ m₂ : Mem} {r r' : Option Nat} {k : Nat} (h : Cloned m m₁ r r' k)
    (hfree : ∀ a ∈ m.freelist, Allocatable img a) (hheld : Held m₁ m₂ r' fun _ => True)
    (hleaf : ∀ w < UPAGES, m₂.leaf r' w = m₁.leaf r' w) : Cloned m m₂ r r' k := by
  intro w hw
  refine ⟨fun hlt => ((h w hw).1 hlt).held hw hfree hheld (hleaf w hw), fun hge => ?_⟩
  rw [hleaf w hw, (h w hw).2 hge]

theorem Cloned.succ {m₁ m₂ : Mem} {r r' : Option Nat} {k : Nat} (h : Cloned m m₁ r r' k)
    (hfree : ∀ a ∈ m.freelist, Allocatable img a) (hheld : Held m₁ m₂ r' fun _ => True)
    (hleaf : ∀ w < UPAGES, w ≠ k → m₂.leaf r' w = m₁.leaf r' w) (hk : CloneAt m m₂ r r' k) :
    Cloned m m₂ r r' (k + 1) := by
  intro w hw
  by_cases hwk : w = k
  · subst hwk
    exact ⟨fun _ => hk, fun hout => absurd (Nat.lt_succ_self w) hout⟩
  · refine ⟨fun hin => ?_, fun hout => ?_⟩
    · exact ((h w hw).1 (by omega)).held hw hfree hheld (hleaf w hw hwk)
    · rw [hleaf w hw hwk, (h w hw).2 (by omega)]

theorem wp_copyLoop (h : Pages img R tf m loose) (hold : R o = some old) (hnew : R o' = some new)
    (hne : o ≠ o') (hm' : Mapped m (R o') 0) (hsz : sz ≤ TRAPFRAME) :
    wp (loop (copyBody img old new sz) (sz / PGSIZE + 2) ⟨0, false⟩) E (fun v m' =>
      ∃ k ≤ npages sz, v.a = k * PGSIZE ∧ Frame img R tf o' loose m m' ∧
        Pages img R tf m' loose ∧ Cloned m m' (R o) (R o') k ∧
        (∀ w, UPAGES ≤ w → w < VPAGES → m'.leaf (R o') w = m.leaf (R o') w) ∧
        (v.failed = false → k = npages sz)) m := by
  have hP : PGSIZE = 4096 := rfl
  have hU : UPAGES = 2 ^ 26 - 2 := rfl
  have hV : VPAGES = 2 ^ 27 := rfl
  have hT : TRAPFRAME = (2 ^ 26 - 2) * 4096 := rfl
  have hsz63 : sz < 2 ^ 63 := by omega
  have hn := npages_eq _ hsz63
  refine wp_loop (I := fun v t => v.failed = false ∧ ∃ k ≤ npages sz, v.a = k * PGSIZE ∧
      Frame img R tf o' loose m t ∧ Pages img R tf t loose ∧ Cloned m t (R o) (R o') k ∧
      (∀ w, UPAGES ≤ w → w < VPAGES → t.leaf (R o') w = m.leaf (R o') w) ∧
      ∀ a ∈ t.freelist, a ∈ m.freelist)
    (fun v => sz / PGSIZE + 1 - v.a / PGSIZE)
    ⟨rfl, 0, Nat.zero_le _, rfl, Frame.refl, h, Cloned.zero, fun _ _ _ => rfl, fun _ ha => ha⟩
    (Nat.lt_of_le_of_lt (Nat.sub_le _ _) (Nat.lt_succ_self _)) ?_
  rintro ⟨a, failed⟩ t ⟨hok, k, hk, ha, hframe, hpages, hcloned, hupper, hfree⟩
  dsimp only at hok ha
  subst hok ha
  unfold copyBody
  split
  · rename_i hlt
    have hkn : k < npages sz := (lt_npages_iff hsz63).mpr hlt
    have hkU : k < UPAGES := by omega
    have hkV : k < VPAGES := by omega
    have hnext : u64 (k * PGSIZE + PGSIZE) = (k + 1) * PGSIZE := by
      unfold u64
      rw [hP]
      omega
    have hfalls : sz / PGSIZE + 1 - u64 (k * PGSIZE + PGSIZE) / PGSIZE <
        sz / PGSIZE + 1 - k * PGSIZE / PGSIZE := by
      rw [hnext, mul_PGSIZE_div, mul_PGSIZE_div]
      have hdiv : k ≤ sz / PGSIZE := by
        rw [Nat.le_div_iff_mul_le (by decide)]
        exact Nat.le_of_lt hlt
      omega
    have hempty : t.leaf (R o') k = none := by
      rw [(hcloned k hkU).2 (Nat.lt_irrefl k)]
      by_contra hsome
      have := (hm' k hkU).mp hsome
      omega
    -- a page that the parent does not map is skipped
    have hskip : t.leaf (R o) k = none → Cloned m t (R o) (R o') (k + 1) := by
      intro hnone
      refine hcloned.succ h.free Held.refl (fun _ _ _ => rfl) ?_
      unfold CloneAt
      rw [← hframe.leaf hne, hnone]
      exact hempty
    dsimp only
    rw [wp_bind]
    refine wp_mono (wp_walk_lookup (mul_PGSIZE_lt (Nat.lt_trans hkU UPAGES_lt_MAXVPN))) ?_
    rintro res t' ⟨ht, hres⟩
    subst ht
    rw [mul_PGSIZE_div, ← hold] at hres
    cases hpt : t'.table (R o) (tablePath k) with
    | none =>
      rw [hpt] at hres
      subst hres
      exact ⟨fun _ => ⟨⟨rfl, k + 1, hkn, hnext, hframe, hpages, hskip (leaf_none_of_table hpt), hupper,
        hfree⟩, hfalls⟩, fun h => absurd h (by simp)⟩
    | some pt =>
      rw [hpt] at hres
      subst hres
      simp only [Option.map_some, wp_bind, loadPte, wp_get, wp_pure]
      split
      · rename_i hinvalid
        have hnone : t'.leaf (R o) k = none :=
          (leaf_eq_ifValid hpt).trans (ifValid_eq_none.mpr hinvalid)
        exact ⟨fun _ => ⟨⟨rfl, k + 1, hkn, hnext, hframe, hpages, hskip hnone, hupper, hfree⟩, hfalls⟩,
          fun h => absurd h (by simp)⟩
      rename_i hvalid
      generalize he : t'.pte pt (ix 0 k) = e at hvalid
      have hte : t'.leaf (R o) k = some e := by
        rw [leaf_eq_ifValid hpt, he]
        exact ifValid_eq_some.mpr ⟨rfl, hvalid⟩
      have hme : m.leaf (R o) k = some e := by rw [← hframe.leaf hne, hte]
      -- the page of the parent is still what it was
      have hparent : t'.page (PTE2PA e) = m.page (PTE2PA e) := by
        refine hframe _ (Or.inl ⟨.page o k, hne, own_leaf hkU hme⟩)
      rw [wp_bind]
      refine wp_mono (wp_kalloc_fresh o' hpages) ?_
      rintro res t₁ ⟨halloc, hsame, hres⟩
      cases res with
      | none =>
        refine ⟨fun h => absurd h (by simp), fun _ => ⟨k, hk, rfl, hframe.trans halloc.frame, hres,
          hcloned.held h.free halloc.held fun w _ => halloc.leaf o' w, fun w hw hwV => ?_,
          fun h => absurd h (by simp)⟩⟩
        rw [halloc.leaf, hupper w hw hwV]
      | some mem =>
        obtain ⟨hmem, hres⟩ := hres
        simp only [wp_bind, wp_modify]
        obtain ⟨hcopy, halloc₂⟩ := hres.setLoose_allocates (o := o') (t₁.page (PTE2PA e))
        have hkept := halloc.trans halloc₂
        have hnone : (t₁.setPage mem (t₁.page (PTE2PA e))).leaf (R o') k = none := by
          rw [hkept.leaf, hempty]
        refine wp_mono (wp_mappages_held hcopy hnew hkU hnone (PTE_FLAGS_lt e)) ?_
        rintro r t₂ ⟨hframe₂, hpage₂, hfree₂, hheld₂, hpost⟩
        have hframe' := (hframe.trans hkept.frame).trans hframe₂
        have hheld' := hkept.held.trans hheld₂
        have hfree' : ∀ a ∈ t₂.freelist, a ∈ m.freelist := fun a ha =>
          hfree a (hkept.free a (hfree₂ a ha))
        have hcontent : t₂.page mem = m.page (PTE2PA e) := by
          rw [hpage₂, Mem.setPage_page, Function.update_self, hsame, hparent]
          exact hpages.exact.not_free_of_owned (own_leaf hkU hte)
        rcases hpost with ⟨rfl, hp₂, hleaf₂⟩ | ⟨rfl, hp₂, hleaf₂⟩
        · obtain ⟨hp₃, hkeeps₃⟩ := hp₂.freed o'
          simp only [if_pos (show (-1 : Int) ≠ 0 by decide), wp_bind]
          refine wp_mono (wp_kfree (hp₂.exact.mem mem List.mem_cons_self)) fun _ t₃ ht₃ => ?_
          subst ht₃
          have hleaf₃ : ∀ w, (t₂.freed mem).leaf (R o') w = t'.leaf (R o') w := fun w => by
            rw [hkeeps₃.leaf, hleaf₂, hkept.leaf]
          refine ⟨fun h => absurd h (by simp), fun _ => ⟨k, hk, rfl, hframe'.trans hkeeps₃.frame,
            hp₃, hcloned.held h.free (hheld'.trans (hp₂.held_freed o')) fun w _ => hleaf₃ w,
            fun w hw hwV => ?_, fun h => absurd h (by simp)⟩⟩
          rw [hleaf₃, hupper w hw hwV]
        · simp only [if_neg (show ¬ (0 : Int) ≠ 0 by decide), wp_pure]
          have hleaf' : ∀ w < VPAGES, t₂.leaf (R o') w = if w = k then
              some (PA2PTE mem ||| PTE_FLAGS e ||| PTE_V) else t'.leaf (R o') w :=
            fun w hw => by rw [hleaf₂ w hw, hkept.leaf]
          refine ⟨fun _ => ⟨⟨trivial, k + 1, hkn, hnext, hframe', hp₂, ?_, fun w hw hwV => ?_,
            hfree'⟩, hfalls⟩, fun h => absurd h (by simp)⟩
          · refine hcloned.succ h.free hheld' (fun w hw hwk => ?_) ?_
            · rw [hleaf' w (Nat.lt_trans hw UPAGES_lt_VPAGES), if_neg hwk]
            · unfold CloneAt
              rw [hme]
              exact ⟨mem, hfree mem hmem, (hleaf' k hkV).trans (if_pos rfl), hcontent⟩
          · rw [hleaf' w hwV, if_neg (by omega), hupper w hw hwV]
  · rename_i hge
    refine ⟨fun h => absurd h (by simp), fun _ => ⟨k, hk, rfl, hframe, hpages, hcloned, hupper,
      fun _ => ?_⟩⟩
    by_contra hkn
    exact hge ((lt_npages_iff hsz63).mp (by omega))

/-- **`uvmcopy`** maps copies of the first `sz` bytes of user memory in an address space that
    has none, or leaves that as it was.  The parent may have pages that are not mapped. -/
theorem wp_uvmcopy_cloned (h : Pages img R tf m loose) (hold : R o = some old)
    (hnew : R o' = some new) (hne : o ≠ o') (hm' : Mapped m (R o') 0) (hsz : sz ≤ TRAPFRAME) :
    wp (uvmcopy img old new sz) E (fun r m' => Frame img R tf o' loose m m' ∧
      Pages img R tf m' loose ∧
      (∀ w, UPAGES ≤ w → w < VPAGES → m'.leaf (R o') w = m.leaf (R o') w) ∧
      ((r = -1 ∧ Mapped m' (R o') 0) ∨ (r = 0 ∧ Cloned m m' (R o) (R o') (npages sz)))) m := by
  have hU : UPAGES = 2 ^ 26 - 2 := rfl
  have hM : MAXVPN = 2 ^ 26 := rfl
  have hV : VPAGES = 2 ^ 27 := rfl
  have hT : TRAPFRAME = (2 ^ 26 - 2) * 4096 := rfl
  have hn := npages_eq sz (by omega)
  unfold uvmcopy
  rw [wp_bind]
  refine wp_mono (wp_copyLoop h hold hnew hne hm' hsz)
    fun v t ⟨k, hk, ha, hframe, hpages, hcloned, hupper, hdone⟩ => ?_
  split
  · have hunmap := wp_uvmunmap (E := E) 0 k true hpages hnew (by omega)
      fun w _ hw => by
        simp only [true_iff]
        omega
    rw [Nat.zero_mul] at hunmap
    rw [wp_bind, ha, mul_PGSIZE_div]
    refine wp_mono hunmap fun _ t' ⟨hframe', hpages', hleaf'⟩ => ?_
    refine ⟨hframe.trans hframe', hpages', fun w hw hwV => ?_, Or.inl ⟨rfl, fun w hw => ?_⟩⟩
    · rw [hleaf' w hwV, if_neg (by omega), hupper w hw hwV]
    · rw [hleaf' w (by omega)]
      split
      · simp
      · rename_i hout
        rw [(hcloned w hw).2 (by omega)]
        exact hm' w hw
  · rename_i hfailed
    obtain rfl := hdone (by simpa using hfailed)
    exact ⟨hframe, hpages, hupper, Or.inr ⟨rfl, hcloned⟩⟩

theorem wp_uvmcopy (h : Pages img R tf m loose) (hold : R o = some old) (hnew : R o' = some new)
    (hne : o ≠ o') (hm : Mapped m (R o) (npages sz)) (hm' : Mapped m (R o') 0)
    (hsz : sz ≤ TRAPFRAME) :
    wp (uvmcopy img old new sz) E (fun r m' => Frame img R tf o' loose m m' ∧
      Pages img R tf m' loose ∧
      ((r = -1 ∧ ∀ w < VPAGES, m'.leaf (R o') w = m.leaf (R o') w) ∨
       (r = 0 ∧ Copied m m' (R o) (R o') (npages sz)))) m := by
  have hU : UPAGES = 2 ^ 26 - 2 := rfl
  have hT : TRAPFRAME = (2 ^ 26 - 2) * 4096 := rfl
  have hn := npages_eq sz (by omega)
  refine wp_mono (wp_uvmcopy_cloned h hold hnew hne hm' hsz)
    fun r m' ⟨hframe, hpages, hupper, hpost⟩ => ⟨hframe, hpages, ?_⟩
  rcases hpost with ⟨rfl, hnone⟩ | ⟨rfl, hcloned⟩
  · refine Or.inl ⟨rfl, fun w hw => ?_⟩
    rcases Nat.lt_or_ge w UPAGES with hlow | hhigh
    · have h₁ : m'.leaf (R o') w = none := by
        by_contra hsome
        exact absurd ((hnone w hlow).mp hsome) (by omega)
      have h₂ : m.leaf (R o') w = none := by
        by_contra hsome
        exact absurd ((hm' w hlow).mp hsome) (by omega)
      rw [h₁, h₂]
    · exact hupper w hhigh hw
  · refine Or.inr ⟨rfl, fun w hw => ⟨fun hlt => ?_, fun hge => ?_⟩⟩
    · have hwU : w < UPAGES := by omega
      obtain ⟨e, he⟩ := Option.ne_none_iff_exists'.mp ((hm w hwU).mpr hlt)
      have hw' := (hcloned w hwU).1 hlt
      unfold CloneAt at hw'
      rw [he] at hw'
      obtain ⟨pa, -, hentry, -⟩ := hw'
      exact ⟨e, pa, he, hentry⟩
    · rcases Nat.lt_or_ge w UPAGES with hlow | hhigh
      · exact (hcloned w hlow).2 hge
      · exact hupper w hhigh hw

end Copy

end Xv6.Vm
