import Xv6.Vm.Translation

/-!
# Copies to and from user memory

`copyout`, `copyin` and `copyinstr` of `kernel/vm.c`, for any virtual address and any length.
User memory is what the page table makes of physical memory: the byte at a virtual address is
the byte at its offset in the page that its leaf names, and a range may be accessed if every
page that it touches may.

A kernel buffer is disjoint from every user page, so it is a value here and not a part of
memory: the source of `copyout`, and the destination of the other two, which they return.
-/

namespace Xv6.Vm

open ByteView Hoare Function

/-! ### `copyin` and `copyinstr` -/

structure CopyinVars where
  dst : Bytes
  done : Nat
  srcva : Nat
  len : Nat
  failed : Bool

def copyinBody (pagetable : Nat) (v : CopyinVars) : VmM (CopyinVars × Bool) :=
  if v.len > 0 then do
    let va0 := PGROUNDDOWN v.srcva
    let pa0 ← walkaddr pagetable va0
    if pa0 = 0 then return ({ v with failed := true }, false)
    else
      let n := min (PGSIZE - (v.srcva - va0)) v.len
      let m ← get
      let dst := splice v.dst v.done n fun k => m.page pa0 (v.srcva - va0 + k)
      return (⟨dst, v.done + n, u64 (va0 + PGSIZE), v.len - n, false⟩, true)
  else return (v, false)

/-- Copy user data into kernel memory. -/
def copyin (pagetable : Nat) (dst : Bytes) (srcva len : Nat) : VmM (Int × Bytes) := do
  let v ← loop (copyinBody pagetable) (len + 1) ⟨dst, 0, srcva, len, false⟩
  return (if v.failed then -1 else 0, v.dst)

/-- The variables of `copyinstr` in the loop over the bytes of a page: `dst` has advanced by
    `done`, and `p` is an offset in the page. -/
structure ByteVars where
  dst : Bytes
  done : Nat
  max : Nat
  n : Nat
  p : Nat
  gotNull : Bool

def copyinstrByte (pa0 : Nat) (w : ByteVars) : VmM (ByteVars × Bool) :=
  if w.n > 0 then do
    let c := (← get).page pa0 w.p
    let dst := update w.dst w.done c
    if c = 0 then return (⟨dst, w.done + 1, w.max, w.n - 1, w.p + 1, true⟩, false)
    else return (⟨dst, w.done + 1, w.max - 1, w.n - 1, w.p + 1, w.gotNull⟩, true)
  else return (w, false)

structure CopyinstrVars where
  dst : Bytes
  done : Nat
  srcva : Nat
  max : Nat
  gotNull : Bool
  failed : Bool

def copyinstrBody (pagetable : Nat) (v : CopyinstrVars) : VmM (CopyinstrVars × Bool) :=
  if v.gotNull = false ∧ v.max > 0 then do
    let va0 := PGROUNDDOWN v.srcva
    let pa0 ← walkaddr pagetable va0
    if pa0 = 0 then return ({ v with failed := true }, false)
    else
      let n := min (PGSIZE - (v.srcva - va0)) v.max
      let w ← loop (copyinstrByte pa0) (n + 1)
        ⟨v.dst, v.done, v.max, n, v.srcva - va0, v.gotNull⟩
      let srcva := if w.gotNull = false then u64 (va0 + PGSIZE) else v.srcva
      return (⟨w.dst, w.done, srcva, w.max, w.gotNull, false⟩, true)
  else return (v, false)

/-- Copy a NUL-terminated string from user memory. -/
def copyinstr (pagetable : Nat) (dst : Bytes) (srcva max : Nat) : VmM (Int × Bytes) := do
  let v ← loop (copyinstrBody pagetable) (max + 2) ⟨dst, 0, srcva, max, false, false⟩
  return (if v.failed then -1 else if v.gotNull then 0 else -1, v.dst)

/-! ### User memory -/

/-- The user may read the page of a virtual address. -/
def Readable (m : Mem) (root va : Nat) : Prop :=
  ∃ e, translation m root (va / PGSIZE) = some e ∧ e &&& PTE_U ≠ 0

/-- The user may write to the page of a virtual address. -/
def Writable (m : Mem) (root va : Nat) : Prop :=
  ∃ e, translation m root (va / PGSIZE) = some e ∧ e &&& PTE_U ≠ 0 ∧ e &&& PTE_W ≠ 0

/-- The byte of user memory at a virtual address. -/
def userByte (m : Mem) (root va : Nat) : UInt8 :=
  m.page (userPage m (some root) va) (va % PGSIZE)

/-- **Private user pages.**  Distinct leaves that the user can access name distinct pages, none
    of them page 0 or a page of the page table. -/
structure UserPages (m : Mem) (root : Nat) : Prop where
  distinct : ∀ {v w e e'}, translation m root v = some e → translation m root w = some e' →
    e &&& PTE_U ≠ 0 → e' &&& PTE_U ≠ 0 → PTE2PA e = PTE2PA e' → v = w
  nonzero : ∀ {v e}, translation m root v = some e → e &&& PTE_U ≠ 0 → PTE2PA e ≠ 0
  apart : ∀ {v e}, translation m root v = some e → e &&& PTE_U ≠ 0 → ¬ m.IsTable root (PTE2PA e)

section UserMemory

variable {m t : Mem} {root va vb : Nat}

theorem Writable.readable (h : Writable m root va) : Readable m root va := by
  obtain ⟨e, he, huser, -⟩ := h
  exact ⟨e, he, huser⟩

theorem Readable.congr (h : Readable m root va) (hv : vb / PGSIZE = va / PGSIZE) :
    Readable m root vb := by
  unfold Readable
  rw [hv]
  exact h

theorem Writable.congr (h : Writable m root va) (hv : vb / PGSIZE = va / PGSIZE) :
    Writable m root vb := by
  unfold Writable
  rw [hv]
  exact h

theorem lt_MAXVA_iff : va < MAXVA ↔ va / PGSIZE < MAXVPN := by
  rw [show MAXVPN = 2 ^ 26 from rfl, show MAXVA = 2 ^ 26 * 4096 from rfl,
    show PGSIZE = 4096 from rfl]
  omega

theorem Readable.lt (h : Readable m root va) : va < MAXVA := by
  obtain ⟨e, he, -⟩ := h
  rw [lt_MAXVA_iff]
  by_contra hge
  rw [translation, if_neg hge] at he
  exact absurd he (by simp)

theorem userPage_eq : userPage m (some root) va =
    match translation m root (va / PGSIZE) with
    | none => 0
    | some e => if e &&& PTE_U = 0 then 0 else PTE2PA e := by
  unfold userPage translation
  by_cases hva : va < MAXVA
  · rw [if_pos hva, if_pos (lt_MAXVA_iff.mp hva)] <;> rfl
  · rw [if_neg hva, if_neg (fun h => hva (lt_MAXVA_iff.mpr h))]

theorem userPage_congr (hv : vb / PGSIZE = va / PGSIZE) :
    userPage m (some root) vb = userPage m (some root) va := by
  rw [userPage_eq, userPage_eq, hv]

theorem userPage_of_translation (h : translation t root = translation m root) :
    userPage t (some root) va = userPage m (some root) va := by
  rw [userPage_eq, userPage_eq, h]

theorem userPage_entry {e : Nat} (he : translation m root (va / PGSIZE) = some e)
    (huser : e &&& PTE_U ≠ 0) : userPage m (some root) va = PTE2PA e := by
  rw [userPage_eq, he]
  exact if_neg huser

theorem UserPages.readable_iff (h : UserPages m root) :
    Readable m root va ↔ userPage m (some root) va ≠ 0 := by
  constructor
  · rintro ⟨e, he, huser⟩
    rw [userPage_entry he huser]
    exact h.nonzero he huser
  · intro hne
    rw [userPage_eq] at hne
    cases he : translation m root (va / PGSIZE) with
    | none =>
      rw [he] at hne
      exact absurd rfl hne
    | some e =>
      rw [he] at hne
      exact ⟨e, he, fun huser => hne (if_pos huser)⟩

theorem UserPages.page_inj (h : UserPages m root) (ha : Readable m root va)
    (hb : Readable m root vb) (heq : userPage m (some root) va = userPage m (some root) vb) :
    va / PGSIZE = vb / PGSIZE := by
  obtain ⟨e, he, huser⟩ := ha
  obtain ⟨e', he', huser'⟩ := hb
  rw [userPage_entry he huser, userPage_entry he' huser'] at heq
  exact h.distinct he he' huser huser' heq

theorem UserPages.not_table (h : UserPages m root) (ha : Readable m root va) :
    ¬ m.IsTable root (userPage m (some root) va) := by
  obtain ⟨e, he, huser⟩ := ha
  rw [userPage_entry he huser]
  exact h.apart he huser

theorem leaf_of_translation {v e : Nat} (h : translation m root v = some e) :
    v < MAXVPN ∧ m.leaf (some root) v = some e := by
  unfold translation at h
  by_cases hv : v < MAXVPN
  · rw [if_pos hv] at h
    exact ⟨hv, h⟩
  · rw [if_neg hv] at h
    exact absurd h (by simp)

theorem Pages.userPages {img : Image} {R : Owner → Option Nat} {tf : Nat → Option Nat}
    {loose : List Nat} {o : Owner} (h : Pages img R tf m loose) (hroot : R o = some root)
    (hno : NoUser m (R o)) : UserPages m root := by
  have hown : ∀ {v e}, translation m root v = some e → e &&& PTE_U ≠ 0 →
      own R tf m (.page o v) = some (PTE2PA e) := by
    intro v e he huser
    obtain ⟨hv, hleaf⟩ := leaf_of_translation he
    rw [← hroot] at hleaf
    refine own_leaf (Nat.not_le.mp fun hge => huser ?_) hleaf
    exact hno v hge (Nat.lt_trans hv (by decide)) e hleaf
  refine ⟨fun he he' huser huser' heq => ?_, fun he huser => ?_, fun he huser => ?_⟩
  · have honce := h.exact.once _ _ _ (hown he huser) (heq ▸ hown he' huser')
    exact (Slot.page.inj honce).2
  · exact (h.exact.owned _ _ (hown he huser)).ne_zero
  · rintro ⟨path, hlen, htable⟩
    have htable' : own R tf m (.table o path) = m.table (some root) path := by
      rw [own, if_pos hlen, hroot]
    have honce := h.exact.once _ _ _ (hown he huser) (htable'.trans htable)
    cases honce

end UserMemory

/-! ### One page of a range -/

section Chunk

variable {va k len : Nat}

theorem chunk_div (hk : k < PGSIZE - (va - PGROUNDDOWN va)) : (va + k) / PGSIZE = va / PGSIZE := by
  unfold PGROUNDDOWN at hk
  rw [show PGSIZE = 4096 from rfl] at hk ⊢
  omega

theorem chunk_mod (hk : k < PGSIZE - (va - PGROUNDDOWN va)) :
    (va + k) % PGSIZE = va - PGROUNDDOWN va + k := by
  unfold PGROUNDDOWN at hk ⊢
  rw [show PGSIZE = 4096 from rfl] at hk ⊢
  omega

theorem chunk_pos : 0 < PGSIZE - (va - PGROUNDDOWN va) := by
  unfold PGROUNDDOWN
  rw [show PGSIZE = 4096 from rfl]
  omega

theorem PGROUNDDOWN_div (va : Nat) : PGROUNDDOWN va / PGSIZE = va / PGSIZE :=
  Nat.mul_div_cancel _ (by decide)

theorem chunk_next (hva : va < MAXVA) (hmore : 0 < len - min (PGSIZE - (va - PGROUNDDOWN va)) len) :
    u64 (PGROUNDDOWN va + PGSIZE) = va + min (PGSIZE - (va - PGROUNDDOWN va)) len := by
  have hmax : MAXVA = 2 ^ 38 := rfl
  unfold PGROUNDDOWN at hmore ⊢
  rw [show PGSIZE = 4096 from rfl] at hmore ⊢
  rw [u64_of_lt (by omega)]
  omega

end Chunk

/-! ### `copyout` -/

/-- The first `n` bytes of `src` have been written to user memory at `va`, and nothing else has
    changed. -/
structure Wrote (m : Mem) (root va : Nat) (src : Nat → UInt8) (n : Nat) (t : Mem) : Prop where
  rest : t = { m with page := t.page }
  inside : ∀ k < n, t.page (userPage m (some root) (va + k)) ((va + k) % PGSIZE) = src k
  outside : ∀ a o, (∀ k < n, userPage m (some root) (va + k) = a → (va + k) % PGSIZE ≠ o) →
    t.page a o = m.page a o

section Copyout

variable {m t : Mem} {root va n : Nat} {src : Nat → UInt8} {E : Panic → Prop}

theorem Wrote.zero : Wrote m root va src 0 m :=
  ⟨rfl, fun k hk => absurd hk (Nat.not_lt_zero k), fun _ _ _ => rfl⟩

theorem Wrote.table_page (h : Wrote m root va src n t) (hm : UserPages m root)
    (hread : ∀ k < n, Readable m root (va + k)) {a : Nat} (ha : m.IsTable root a) :
    t.page a = m.page a := by
  funext o
  refine h.outside a o fun k hk heq => ?_
  rw [← heq] at ha
  exact absurd ha (hm.not_table (hread k hk))

theorem Wrote.leaf (h : Wrote m root va src n t) (hm : UserPages m root)
    (hread : ∀ k < n, Readable m root (va + k)) (v : Nat) :
    t.leaf (some root) v = m.leaf (some root) v :=
  Mem.leaf_congr (fun _ _ hq ha => h.table_page hm hread ⟨_, hq, ha⟩) v

theorem Wrote.step (h : Wrote m root va src n t) (hm : UserPages m root)
    (hread : ∀ k < n, Readable m root (va + k)) (hhere : Readable m root (va + n)) {c : Nat}
    (hc : c ≤ PGSIZE - (va + n - PGROUNDDOWN (va + n))) :
    Wrote m root va src (n + c) (t.setPage (userPage m (some root) (va + n))
      (splice (t.page (userPage m (some root) (va + n))) (va + n - PGROUNDDOWN (va + n)) c
        fun k => src (n + k))) := by
  have hpage : ∀ k < c, userPage m (some root) (va + (n + k)) = userPage m (some root) (va + n) ∧
      (va + (n + k)) % PGSIZE = va + n - PGROUNDDOWN (va + n) + k := fun k hk => by
    rw [← Nat.add_assoc]
    have hlt := Nat.lt_of_lt_of_le hk hc
    exact ⟨userPage_congr (chunk_div hlt), chunk_mod hlt⟩
  refine ⟨?_, fun k hk => ?_, fun a o hout => ?_⟩
  · conv_lhs => rw [h.rest]
    rfl
  · rcases Nat.lt_or_ge k n with hlt | hge
    · -- written before: not among the bytes of this round
      rw [← h.inside k hlt]
      by_cases heq : userPage m (some root) (va + k) = userPage m (some root) (va + n)
      · have hdiv := hm.page_inj (hread k hlt) hhere heq
        have hoff : (va + k) % PGSIZE < va + n - PGROUNDDOWN (va + n) := by
          unfold PGROUNDDOWN
          rw [show PGSIZE = 4096 from rfl] at hdiv ⊢
          omega
        rw [heq, Mem.setPage_page, update_self, splice,
          if_neg (fun hin => absurd hin.1 (Nat.not_le.mpr hoff))]
      · rw [Mem.setPage_page, update_of_ne heq]
    · obtain ⟨j, rfl⟩ := Nat.exists_eq_add_of_le hge
      have hj : j < c := by omega
      obtain ⟨hp, hmod⟩ := hpage j hj
      rw [hp, hmod, Mem.setPage_page, update_self, splice, if_pos ⟨by omega, by omega⟩]
      congr 1
      omega
  · have hbefore : t.page a o = m.page a o :=
      h.outside a o fun k hk => hout k (by omega)
    rw [← hbefore, Mem.setPage_page]
    by_cases heq : a = userPage m (some root) (va + n)
    · subst heq
      rw [update_self, splice]
      refine if_neg fun hin => ?_
      have hj : o - (va + n - PGROUNDDOWN (va + n)) < c := by omega
      obtain ⟨hp, hmod⟩ := hpage _ hj
      exact hout _ (by omega) hp (by omega)
    · rw [update_of_ne heq]

theorem copyoutBody_decreases : Decreases (copyoutBody root src) CopyVars.len := by
  intro v s
  unfold copyoutBody
  split
  · rw [wp_bind]
    refine wp_mono (wp_walkaddr _) fun pa0 t _ => ?_
    split
    · exact fun h => absurd h (by simp)
    · rw [wp_bind]
      refine wp_mono (wp_any fun _ => trivial) fun res t _ => ?_
      split
      · trivial
      · simp only [wp_bind, loadPte, wp_get, wp_pure]
        split
        · exact fun h => absurd h (by simp)
        · intro _
          have hpos : 0 < PGSIZE - (v.dstva - PGROUNDDOWN v.dstva) := chunk_pos
          show v.len - min _ _ < v.len
          omega
  · exact fun h => absurd h (by simp)

/-- What `copyout` has done at the start of a round. -/
structure CopyingOut (m : Mem) (root va : Nat) (src : Nat → UInt8) (len : Nat) (v : CopyVars)
    (t : Mem) : Prop where
  failed : v.failed = false
  sum : v.done + v.len = len
  next : 0 < v.len → v.dstva = va + v.done
  writable : ∀ k < v.done, Writable m root (va + k)
  wrote : Wrote m root va src v.done t

/-- What `copyout` has done when it returns. -/
def CopiedOut (m : Mem) (root va : Nat) (src : Nat → UInt8) (len : Nat) (r : Int) (m' : Mem) :
    Prop :=
  ∃ n ≤ len, (∀ k < n, Writable m root (va + k)) ∧ Wrote m root va src n m' ∧
    (r = 0 ∧ n = len ∨ r = -1 ∧ n < len ∧ ¬ Writable m root (va + n))

/-- **`copyout`** writes the bytes up to the first page that the user may not write to. -/
theorem wp_copyout_exact (hm : UserPages m root) (va : Nat) (src : Nat → UInt8) (len : Nat) :
    wp (copyout root va src len) E (CopiedOut m root va src len) m := by
  unfold copyout
  rw [wp_bind]
  refine copyoutBody_decreases.wp_loop (I := CopyingOut m root va src len)
    ⟨rfl, Nat.zero_add _, fun _ => rfl, fun k hk => absurd hk (Nat.not_lt_zero k), Wrote.zero⟩
    (Nat.lt_succ_self _) ?_
  rintro ⟨dstva, done, left, failed⟩ t ⟨hfailed, hsum, hva, hwritable, hwrote⟩
  dsimp only at hfailed hsum hva hwritable hwrote
  subst hfailed
  have hread : ∀ k < done, Readable m root (va + k) := fun k hk => (hwritable k hk).readable
  have htrans : translation t root = translation m root :=
    translation_congr (hwrote.leaf hm hread)
  unfold copyoutBody
  split
  · rename_i hleft
    change 0 < left at hleft
    obtain rfl := hva hleft
    -- the round stops the loop at an address that the user may not write to
    have hstop : ¬ Writable m root (va + done) → CopiedOut m root va src len (-1) t :=
      fun hnot => ⟨done, by omega, hwritable, hwrote, Or.inr ⟨rfl, by omega, hnot⟩⟩
    rw [wp_bind]
    refine wp_mono (wp_walkaddr _) fun pa0 t' ⟨ht, hpa0⟩ => ?_
    subst ht
    rw [userPage_of_translation htrans, userPage_congr (PGROUNDDOWN_div _)] at hpa0
    split
    · rename_i hzero
      refine ⟨fun h => absurd h (by simp), fun _ => hstop fun hw => ?_⟩
      exact hm.readable_iff.mp hw.readable (hpa0.symm.trans hzero)
    · rename_i hne
      rw [hpa0] at hne
      have hhere : Readable m root (va + done) := hm.readable_iff.mpr hne
      obtain ⟨e, he, huser⟩ := hhere
      have hlt : PGROUNDDOWN (va + done) < MAXVA := by
        rw [lt_MAXVA_iff, PGROUNDDOWN_div, ← lt_MAXVA_iff]
        exact Readable.lt ⟨e, he, huser⟩
      rw [wp_bind]
      refine wp_mono (wp_walk_lookup hlt) fun res t'' ⟨ht, hres⟩ => ?_
      subst ht
      rw [PGROUNDDOWN_div] at hres
      -- the entry that `walk` finds is the leaf that `walkaddr` has found
      have hleaf : t''.leaf (some root) ((va + done) / PGSIZE) = some e := by
        rw [← htrans, translation] at he
        split at he
        · exact he
        · exact absurd he (by simp)
      cases hpt : t''.table (some root) (tablePath ((va + done) / PGSIZE)) with
      | none =>
        rw [leaf_none_of_table hpt] at hleaf
        exact absurd hleaf (by simp)
      | some pt =>
        rw [leaf_eq_ifValid hpt, ifValid_eq_some] at hleaf
        rw [hpt] at hres
        subst hres
        simp only [Option.map_some, wp_bind, loadPte, wp_get, wp_pure, hleaf.1]
        split
        · rename_i hro
          refine ⟨fun h => absurd h (by simp), fun _ => hstop fun hw => ?_⟩
          obtain ⟨e', he', -, hw⟩ := hw
          rw [he] at he'
          obtain rfl := Option.some.inj he'
          exact hw hro
        · rename_i hrw
          simp only [wp_bind, wp_modify, wp_pure]
          rw [hpa0]
          refine ⟨fun _ => ⟨rfl, by dsimp only; omega, fun hmore => ?_, fun k hk => ?_, ?_⟩,
            fun h => absurd h (by simp)⟩
          · rw [← Nat.add_assoc]
            exact chunk_next (Readable.lt ⟨e, he, huser⟩) hmore
          · rcases Nat.lt_or_ge k done with hlt | hge
            · exact hwritable k hlt
            · obtain ⟨j, rfl⟩ := Nat.exists_eq_add_of_le hge
              refine Writable.congr ⟨e, he, huser, hrw⟩ ?_
              rw [← Nat.add_assoc]
              refine chunk_div ?_
              dsimp only at hk
              omega
          · exact hwrote.step hm hread ⟨e, he, huser⟩ (Nat.min_le_left _ _)
  · rename_i hleft
    change ¬ 0 < left at hleft
    refine ⟨fun h => absurd h (by simp), fun _ => ?_⟩
    exact ⟨done, by omega, hwritable, hwrote, Or.inl ⟨rfl, by omega⟩⟩

end Copyout

/-! ### `copyin` -/

section Copyin

variable {m : Mem} {root : Nat} {E : Panic → Prop}

theorem copyinBody_decreases : Decreases (copyinBody root) CopyinVars.len := by
  intro v s
  unfold copyinBody
  split
  · rw [wp_bind]
    refine wp_mono (wp_walkaddr _) fun pa0 t _ => ?_
    split
    · exact fun h => absurd h (by simp)
    · intro _
      have hpos : 0 < PGSIZE - (v.srcva - PGROUNDDOWN v.srcva) := chunk_pos
      show v.len - min _ _ < v.len
      omega
  · exact fun h => absurd h (by simp)

/-- The first `n` bytes of user memory at `va` in a kernel buffer. -/
def received (m : Mem) (root va : Nat) (dst : Bytes) (n : Nat) : Bytes :=
  splice dst 0 n fun k => userByte m root (va + k)

theorem received_zero (va : Nat) (dst : Bytes) : received m root va dst 0 = dst := by
  funext i
  unfold received splice
  exact if_neg (by omega)

theorem received_add (va : Nat) (dst : Bytes) {n c : Nat}
    (hc : c ≤ PGSIZE - (va + n - PGROUNDDOWN (va + n))) :
    splice (received m root va dst n) n c (fun k =>
      m.page (userPage m (some root) (va + n)) (va + n - PGROUNDDOWN (va + n) + k)) =
      received m root va dst (n + c) := by
  funext i
  unfold received splice
  by_cases hin : n ≤ i ∧ i < n + c
  · rw [if_pos hin, if_pos ⟨Nat.zero_le _, by omega⟩]
    have hk : i - n < PGSIZE - (va + n - PGROUNDDOWN (va + n)) := by omega
    have hi : va + (i - 0) = va + n + (i - n) := by omega
    show _ = userByte m root (va + (i - 0))
    rw [userByte, hi, userPage_congr (chunk_div hk), chunk_mod hk]
  · rw [if_neg hin]
    by_cases hlt : i < n
    · rw [if_pos ⟨Nat.zero_le _, by omega⟩, if_pos ⟨Nat.zero_le _, by omega⟩]
    · rw [if_neg (by omega), if_neg (by omega)]

/-- What `copyin` has done at the start of a round. -/
structure CopyingIn (m : Mem) (root va : Nat) (dst : Bytes) (len : Nat) (v : CopyinVars) :
    Prop where
  failed : v.failed = false
  sum : v.done + v.len = len
  next : 0 < v.len → v.srcva = va + v.done
  readable : ∀ k < v.done, Readable m root (va + k)
  dst : v.dst = received m root va dst v.done

/-- What `copyin` has done when it returns. -/
def CopiedIn (m : Mem) (root va : Nat) (dst : Bytes) (len : Nat) (r : Int × Bytes) : Prop :=
  ∃ n ≤ len, (∀ k < n, Readable m root (va + k)) ∧ r.2 = received m root va dst n ∧
    (r.1 = 0 ∧ n = len ∨ r.1 = -1 ∧ n < len ∧ ¬ Readable m root (va + n))

theorem readable_chunk {va done c k : Nat} (hread : ∀ k < done, Readable m root (va + k))
    (hhere : Readable m root (va + done))
    (hc : c ≤ PGSIZE - (va + done - PGROUNDDOWN (va + done))) (hk : k < done + c) :
    Readable m root (va + k) := by
  rcases Nat.lt_or_ge k done with hlt | hge
  · exact hread k hlt
  · obtain ⟨j, rfl⟩ := Nat.exists_eq_add_of_le hge
    refine hhere.congr ?_
    rw [← Nat.add_assoc]
    exact chunk_div (by omega)

/-- **`copyin`** delivers the bytes up to the first page that the user may not read. -/
theorem wp_copyin_exact (hm : UserPages m root) (va : Nat) (dst : Bytes) (len : Nat) :
    wp (copyin root dst va len) E (fun r m' => m' = m ∧ CopiedIn m root va dst len r) m := by
  unfold copyin
  rw [wp_bind]
  refine copyinBody_decreases.wp_loop (I := fun v t => t = m ∧ CopyingIn m root va dst len v)
    ⟨rfl, rfl, Nat.zero_add _, fun _ => rfl, fun k hk => absurd hk (Nat.not_lt_zero k),
      (received_zero va dst).symm⟩ (Nat.lt_succ_self _) ?_
  rintro ⟨dst', done, srcva, left, failed⟩ t ⟨rfl, hfailed, hsum, hva, hread, hdst⟩
  dsimp only at hfailed hsum hva hread hdst
  subst hfailed hdst
  unfold copyinBody
  split
  · rename_i hleft
    change 0 < left at hleft
    obtain rfl := hva hleft
    rw [wp_bind]
    refine wp_mono (wp_walkaddr _) fun pa0 t' ⟨ht, hpa0⟩ => ?_
    subst ht
    rw [userPage_congr (PGROUNDDOWN_div _)] at hpa0
    split
    · rename_i hzero
      refine ⟨fun h => absurd h (by simp), fun _ => ⟨rfl, done, by omega, hread, rfl, Or.inr ⟨rfl,
        by omega, fun hr => ?_⟩⟩⟩
      exact hm.readable_iff.mp hr (hpa0.symm.trans hzero)
    · rename_i hne
      rw [hpa0] at hne
      have hhere : Readable t' root (va + done) := hm.readable_iff.mpr hne
      simp only [wp_bind, wp_get, wp_pure]
      refine ⟨fun _ => ⟨trivial, rfl, ?_, fun hmore => ?_, fun k hk => ?_, ?_⟩,
        fun h => absurd h (by simp)⟩
      · dsimp only
        omega
      · dsimp only at hmore ⊢
        rw [← Nat.add_assoc]
        exact chunk_next hhere.lt hmore
      · exact readable_chunk hread hhere (Nat.min_le_left _ _) hk
      · dsimp only
        rw [hpa0]
        exact received_add va dst (Nat.min_le_left _ _)
  · rename_i hleft
    change ¬ 0 < left at hleft
    refine ⟨fun h => absurd h (by simp), fun _ => ⟨rfl, ?_⟩⟩
    exact ⟨done, by omega, hread, rfl, Or.inl ⟨rfl, by omega⟩⟩

end Copyin

/-! ### `copyinstr` -/

section Copyinstr

variable {m : Mem} {root pa0 : Nat} {E : Panic → Prop}

theorem copyinstrByte_decreases : Decreases (copyinstrByte pa0) ByteVars.n := by
  intro w s
  unfold copyinstrByte
  split
  · rename_i hn
    simp only [wp_bind, wp_get]
    split
    · exact fun h => absurd h (by simp)
    · intro _
      show w.n - 1 < w.n
      omega
  · exact fun h => absurd h (by simp)

/-- What the loop over the bytes of a page has done: it has met `k` bytes, of which a NUL is
    the last if there is one. -/
structure Met (f : Nat → UInt8) (w w' : ByteVars) (k : Nat) : Prop where
  le : k ≤ w.n
  n : w'.n = w.n - k
  p : w'.p = w.p + k
  done : w'.done = w.done + k
  dst : w'.dst = splice w.dst w.done k fun i => f (w.p + i)

theorem splice_succ (dst : Bytes) (o k : Nat) (f : Nat → UInt8) :
    update (splice dst o k f) (o + k) (f k) = splice dst o (k + 1) f := by
  funext i
  unfold splice
  by_cases hi : i = o + k
  · subst hi
    rw [update_self, if_pos ⟨by omega, by omega⟩, Nat.add_sub_cancel_left]
  · rw [update_of_ne hi]
    by_cases hin : o ≤ i ∧ i < o + k
    · rw [if_pos hin, if_pos ⟨by omega, by omega⟩]
    · rw [if_neg hin, if_neg (by omega)]

/-- The loop over the bytes of a page stops behind the first NUL, or when `n` bytes are
    copied. -/
theorem wp_copyinstrByte {w : ByteVars} (hw : w.gotNull = false) :
    wp (loop (copyinstrByte pa0) (w.n + 1) w) E (fun w' m' => m' = m ∧ ∃ k,
      (∀ i < k, m.page pa0 (w.p + i) ≠ 0) ∧
      (w'.gotNull = false ∧ k = w.n ∧ w'.max = w.max - k ∧ Met (m.page pa0) w w' k ∨
       w'.gotNull = true ∧ m.page pa0 (w.p + k) = 0 ∧ Met (m.page pa0) w w' (k + 1))) m := by
  refine copyinstrByte_decreases.wp_loop (I := fun w' t => t = m ∧ w'.gotNull = false ∧ ∃ k,
      (∀ i < k, m.page pa0 (w.p + i) ≠ 0) ∧ w'.max = w.max - k ∧ Met (m.page pa0) w w' k)
    ⟨rfl, hw, 0, fun i hi => absurd hi (Nat.not_lt_zero i), rfl, Nat.zero_le _, rfl, rfl, rfl, ?_⟩
    (Nat.lt_succ_self _) ?_
  · funext i
    exact (if_neg (by omega)).symm
  · rintro w' t ⟨rfl, hnull, k, hbytes, hmax, hmet⟩
    have hle := hmet.le
    have hn := hmet.n
    unfold copyinstrByte
    split
    · rename_i hpos
      have hnext : Met (t.page pa0) w ⟨update w'.dst w'.done (t.page pa0 w'.p),
          w'.done + 1, w'.max, w'.n - 1, w'.p + 1, true⟩ (k + 1) := by
        refine ⟨by omega, ?_, ?_, ?_, ?_⟩
        · dsimp only
          omega
        · dsimp only
          rw [hmet.p]
          omega
        · dsimp only
          rw [hmet.done]
          omega
        · dsimp only
          rw [hmet.dst, hmet.done, hmet.p]
          exact splice_succ _ _ _ _
      simp only [wp_bind, wp_get]
      rw [hmet.p] at hnext ⊢
      split
      · rename_i hzero
        exact ⟨fun h => absurd h (by simp),
          fun _ => ⟨rfl, k, hbytes, Or.inr ⟨rfl, hzero, hnext⟩⟩⟩
      · rename_i hne
        refine ⟨fun _ => ⟨rfl, hnull, k + 1, fun i hi => ?_, ?_, hnext.le, hnext.n, hnext.p,
          hnext.done, hnext.dst⟩, fun h => absurd h (by simp)⟩
        · rcases Nat.lt_or_ge i k with hlt | hge
          · exact hbytes i hlt
          · obtain rfl : i = k := by omega
            exact hne
        · dsimp only
          omega
    · rename_i hpos
      refine ⟨fun h => absurd h (by simp), fun _ => ⟨rfl, k, hbytes, Or.inl ⟨hnull, ?_, hmax, hmet⟩⟩⟩
      omega

theorem copyinstrBody_decreases :
    Decreases (copyinstrBody root) fun v => if v.gotNull then 0 else v.max + 1 := by
  intro v s
  unfold copyinstrBody
  split
  · rename_i hgo
    rw [wp_bind]
    refine wp_mono (wp_walkaddr _) fun pa0 t _ => ?_
    split
    · exact fun h => absurd h (by simp)
    · rw [wp_bind]
      refine wp_mono (wp_copyinstrByte hgo.1) fun w t ⟨_, k, _, hw⟩ => ?_
      simp only [wp_pure, hgo.1]
      intro _
      rcases hw with ⟨hnull, hk, hmax, -⟩ | ⟨hnull, -, -⟩
      · have hpos : 0 < PGSIZE - (v.srcva - PGROUNDDOWN v.srcva) := chunk_pos
        simp only [hnull, if_false, Bool.false_eq_true, hmax, hk]
        omega
      · simp only [hnull, if_true, if_false, Bool.false_eq_true]
        omega
  · exact fun h => absurd h (by simp)

/-- The string at `va` ends with its byte `k`. -/
def EndsAt (m : Mem) (root va k : Nat) : Prop :=
  userByte m root (va + k) = 0 ∧ ∀ j < k, userByte m root (va + j) ≠ 0

/-- What `copyinstr` has done at the start of a round. -/
structure CopyingStr (m : Mem) (root va : Nat) (dst : Bytes) (max : Nat) (v : CopyinstrVars) :
    Prop where
  failed : v.failed = false
  le : v.done ≤ max
  readable : ∀ k < v.done, Readable m root (va + k)
  dst : v.dst = received m root va dst v.done
  string : v.gotNull = false ∧ v.done + v.max = max ∧ (0 < v.max → v.srcva = va + v.done) ∧
      (∀ j < v.done, userByte m root (va + j) ≠ 0) ∨
    v.gotNull = true ∧ ∃ k, v.done = k + 1 ∧ EndsAt m root va k

/-- What `copyinstr` has done when it returns. -/
def CopiedStr (m : Mem) (root va : Nat) (dst : Bytes) (max : Nat) (r : Int × Bytes) : Prop :=
  ∃ n ≤ max, (∀ k < n, Readable m root (va + k)) ∧ r.2 = received m root va dst n ∧
    (r.1 = 0 ∧ (∃ k, n = k + 1 ∧ EndsAt m root va k) ∨
     r.1 = -1 ∧ (∀ j < n, userByte m root (va + j) ≠ 0) ∧
       (n = max ∨ ¬ Readable m root (va + n)))

/-- **`copyinstr`** delivers the string with its NUL, or what there is of it before `max` bytes
    or before the first page that the user may not read. -/
theorem wp_copyinstr_exact (hm : UserPages m root) (va : Nat) (dst : Bytes) (max : Nat) :
    wp (copyinstr root dst va max) E (fun r m' => m' = m ∧ CopiedStr m root va dst max r) m := by
  unfold copyinstr
  rw [wp_bind]
  refine copyinstrBody_decreases.wp_loop
    (I := fun v t => t = m ∧ CopyingStr m root va dst max v)
    ⟨rfl, rfl, Nat.zero_le _, fun k hk => absurd hk (Nat.not_lt_zero k),
      (received_zero va dst).symm, Or.inl ⟨rfl, Nat.zero_add _, fun _ => rfl,
        fun k hk => absurd hk (Nat.not_lt_zero k)⟩⟩ (Nat.lt_succ_self _) ?_
  rintro ⟨dst', done, srcva, left, gotNull, failed⟩ t ⟨rfl, hfailed, hle, hread, hdst, hstring⟩
  dsimp only at hfailed hle hread hdst hstring
  subst hfailed hdst
  unfold copyinstrBody
  split
  · rename_i hgo
    obtain ⟨hnull, hleft⟩ := hgo
    change gotNull = false at hnull
    change 0 < left at hleft
    subst hnull
    obtain ⟨-, hsum, hva, hbytes⟩ | ⟨hfalse, -⟩ := hstring
    swap
    · exact absurd hfalse (by simp)
    obtain rfl := hva hleft
    rw [wp_bind]
    refine wp_mono (wp_walkaddr _) fun pa0 t' ⟨ht, hpa0⟩ => ?_
    subst ht
    rw [userPage_congr (PGROUNDDOWN_div _)] at hpa0
    split
    · rename_i hzero
      refine ⟨fun h => absurd h (by simp), fun _ => ⟨rfl, done, hle, hread, rfl, Or.inr ⟨rfl,
        hbytes, Or.inr fun hr => ?_⟩⟩⟩
      exact hm.readable_iff.mp hr (hpa0.symm.trans hzero)
    · rename_i hne
      rw [hpa0] at hne
      have hhere : Readable t' root (va + done) := hm.readable_iff.mpr hne
      dsimp only
      rw [wp_bind]
      refine wp_mono (wp_copyinstrByte rfl) fun w t'' ⟨ht, k, hnonzero, hw⟩ => ?_
      subst ht
      subst hpa0
      dsimp only at hnonzero hw
      -- the bytes of the page are the bytes of user memory
      have hbyte : ∀ i < PGSIZE - (va + done - PGROUNDDOWN (va + done)),
          userByte t'' root (va + (done + i)) = t''.page (userPage t'' (some root) (va + done))
            (va + done - PGROUNDDOWN (va + done) + i) := fun i hi => by
        rw [userByte, ← Nat.add_assoc, userPage_congr (chunk_div hi), chunk_mod hi]
      have hbytes' : k ≤ PGSIZE - (va + done - PGROUNDDOWN (va + done)) → ∀ j < done + k,
          userByte t'' root (va + j) ≠ 0 := fun hk j hj => by
        rcases Nat.lt_or_ge j done with hlt | hge
        · exact hbytes j hlt
        · obtain ⟨i, rfl⟩ := Nat.exists_eq_add_of_le hge
          rw [hbyte i (by omega)]
          exact hnonzero i (by omega)
      rw [wp_pure]
      refine ⟨fun _ => ⟨rfl, ?_⟩, fun h => absurd h (by simp)⟩
      rcases hw with ⟨hnull, hk, hmax, hmet⟩ | ⟨hnull, hzero, hmet⟩
      · have hmetle := hmet.le
        dsimp only at hmetle
        refine ⟨rfl, ?_, fun j hj => ?_, ?_, Or.inl ⟨hnull, ?_, fun hmore => ?_, fun j hj => ?_⟩⟩
        · rw [hmet.done]
          dsimp only
          omega
        · rw [hmet.done] at hj
          exact readable_chunk hread hhere (c := k) (by omega) hj
        · rw [hmet.dst, hmet.done]
          exact received_add va dst (n := done) (c := k) (by omega)
        · rw [hmet.done, hmax]
          dsimp only
          omega
        · simp only [hnull, if_true]
          rw [hmet.done, hk, ← Nat.add_assoc]
          refine chunk_next hhere.lt ?_
          rw [hmax, hk] at hmore
          exact hmore
        · rw [hmet.done] at hj
          exact hbytes' (by omega) j hj
      · have hmetle := hmet.le
        dsimp only at hmetle
        refine ⟨rfl, ?_, fun j hj => ?_, ?_, Or.inr ⟨hnull, done + k, ?_, ?_, ?_⟩⟩
        · rw [hmet.done]
          dsimp only
          omega
        · rw [hmet.done] at hj
          exact readable_chunk hread hhere (c := k + 1) (by omega) hj
        · rw [hmet.dst, hmet.done]
          exact received_add va dst (n := done) (c := k + 1) (by omega)
        · rw [hmet.done, Nat.add_assoc]
        · rw [hbyte k (by omega)]
          exact hzero
        · exact hbytes' (by omega)
  · rename_i hgo
    refine ⟨fun h => absurd h (by simp), fun _ => ⟨rfl, done, hle, hread, rfl, ?_⟩⟩
    rcases hstring with ⟨hnull, hsum, -, hbytes⟩ | ⟨hnull, hk⟩
    · subst hnull
      refine Or.inr ⟨rfl, hbytes, Or.inl ?_⟩
      have hzero : ¬ 0 < left := fun hpos => hgo ⟨rfl, hpos⟩
      omega
    · subst hnull
      exact Or.inl ⟨rfl, hk⟩

end Copyinstr

/-! ### User-memory copies -/

section Copies

variable {m m' : Mem} {root va n len : Nat} {src : Nat → UInt8} {dst : Bytes}

theorem Wrote.userByte (h : Wrote m root va src n m') (hm : UserPages m root)
    (hread : ∀ k < n, Readable m root (va + k)) {k : Nat} (hk : k < n) :
    userByte m' root (va + k) = src k := by
  rw [Vm.userByte, userPage_of_translation (translation_congr (h.leaf hm hread))]
  exact h.inside k hk

/-- **User-memory copies are exact.**  For a page table with private user pages, any virtual
    address and any length:

    * `copyout` returns 0 iff every page of the range is valid and open to the user for
      writing; then the range holds `src`, and no other byte of memory has changed.  When it
      returns -1, only bytes in such pages of the range have changed;
    * `copyin` returns 0 iff every page of the range is valid and open to the user; then `dst`
      holds the bytes of the range, and nothing else of it has changed;
    * `copyinstr` returns 0 iff there is a NUL among the first `len` bytes with every page up to
      it valid and open to the user; then `dst` holds the string with its NUL and nothing else
      of it has changed.  No byte of `dst` from `len` on is ever written;
    * every loop ends by its own condition. -/
theorem user_copies_exact (hm : UserPages m root) (va len : Nat) (src : Nat → UInt8)
    (dst : Bytes) :
    (∃ r m', copyout root va src len m = .ok (r, m') ∧ (r = 0 ∨ r = -1) ∧
      (r = 0 ↔ ∀ k < len, Writable m root (va + k)) ∧ m' = { m with page := m'.page } ∧
      (r = 0 → (∀ k < len, userByte m' root (va + k) = src k) ∧
        ∀ a o, m'.page a o ≠ m.page a o → ∃ k < len,
          a = userPage m (some root) (va + k) ∧ o = (va + k) % PGSIZE) ∧
      (r = -1 → ∀ a o, m'.page a o ≠ m.page a o → ∃ k < len, Writable m root (va + k) ∧
        a = userPage m (some root) (va + k) ∧ o = (va + k) % PGSIZE)) ∧
    (∃ r dst', copyin root dst va len m = .ok ((r, dst'), m) ∧ (r = 0 ∨ r = -1) ∧
      (r = 0 ↔ ∀ k < len, Readable m root (va + k)) ∧
      (r = 0 → ∀ k < len, dst' k = userByte m root (va + k)) ∧ ∀ k, len ≤ k → dst' k = dst k) ∧
    (∃ r dst', copyinstr root dst va len m = .ok ((r, dst'), m) ∧ (r = 0 ∨ r = -1) ∧
      (r = 0 ↔ ∃ k < len, (∀ j ≤ k, Readable m root (va + j)) ∧ userByte m root (va + k) = 0) ∧
      (r = 0 → ∃ k < len, EndsAt m root va k ∧
        (∀ j ≤ k, dst' j = userByte m root (va + j)) ∧ ∀ j, k < j → dst' j = dst j) ∧
      ∀ k, len ≤ k → dst' k = dst k) ∧
    Ends (copyoutBody root src) (len + 1) ⟨va, 0, len, false⟩ m ∧
    Ends (copyinBody root) (len + 1) ⟨dst, 0, va, len, false⟩ m ∧
    Ends (copyinstrBody root) (len + 2) ⟨dst, 0, va, len, false, false⟩ m ∧
    ∀ pa0 w s, Ends (copyinstrByte pa0) (w.n + 1) w s := by
  refine ⟨?_, ?_, ?_, copyoutBody_decreases.ends (Nat.lt_succ_self _),
    copyinBody_decreases.ends (Nat.lt_succ_self _),
    copyinstrBody_decreases.ends (Nat.lt_succ_self _),
    fun pa0 w s => copyinstrByte_decreases.ends (Nat.lt_succ_self _)⟩
  · obtain ⟨r, m', hrun, n, hn, hwritable, hwrote, hr⟩ := wp_total (wp_copyout_exact hm va src len)
    have hread : ∀ k < n, Readable m root (va + k) := fun k hk => (hwritable k hk).readable
    -- a byte that has changed is one of those written
    have hchanged : ∀ a o, m'.page a o ≠ m.page a o → ∃ k < n,
        a = userPage m (some root) (va + k) ∧ o = (va + k) % PGSIZE := by
      intro a o hne
      by_contra hnone
      refine hne (hwrote.outside a o fun k hk ha ho => hnone ⟨k, hk, ha.symm, ho.symm⟩)
    refine ⟨r, m', hrun, ?_⟩
    rcases hr with ⟨rfl, rfl⟩ | ⟨rfl, hlt, hnot⟩
    · exact ⟨Or.inl rfl, ⟨fun _ => hwritable, fun _ => rfl⟩, hwrote.rest,
        fun _ => ⟨fun k hk => hwrote.userByte hm hread hk, hchanged⟩, fun h => absurd h (by simp)⟩
    · refine ⟨Or.inr rfl, ⟨fun h => absurd h (by simp), fun h => absurd (h n hlt) hnot⟩,
        hwrote.rest, fun h => absurd h (by simp), fun _ a o hne => ?_⟩
      obtain ⟨k, hk, hat⟩ := hchanged a o hne
      exact ⟨k, by omega, hwritable k hk, hat⟩
  · obtain ⟨⟨r, dst'⟩, m', hrun, rfl, n, hn, hread, hdst, hr⟩ :=
      wp_total (wp_copyin_exact hm va dst len)
    dsimp only at hdst hr
    subst hdst
    refine ⟨r, _, hrun, ?_⟩
    have hbeyond : ∀ k, len ≤ k → received m' root va dst n k = dst k :=
      fun k hk => if_neg (by omega)
    rcases hr with ⟨rfl, rfl⟩ | ⟨rfl, hlt, hnot⟩
    · exact ⟨Or.inl rfl, ⟨fun _ => hread, fun _ => rfl⟩,
        fun _ k hk => if_pos ⟨Nat.zero_le _, by omega⟩, hbeyond⟩
    · exact ⟨Or.inr rfl, ⟨fun h => absurd h (by simp), fun h => absurd (h n hlt) hnot⟩,
        fun h => absurd h (by simp), hbeyond⟩
  · obtain ⟨⟨r, dst'⟩, m', hrun, rfl, n, hn, hread, hdst, hr⟩ :=
      wp_total (wp_copyinstr_exact hm va dst len)
    dsimp only at hdst hr
    subst hdst
    refine ⟨r, _, hrun, ?_⟩
    have hbeyond : ∀ k, len ≤ k → received m' root va dst n k = dst k :=
      fun k hk => if_neg (by omega)
    rcases hr with ⟨rfl, k, rfl, hends⟩ | ⟨rfl, hnonzero, hstop⟩
    · refine ⟨Or.inl rfl, ⟨fun _ => ⟨k, by omega, fun j hj => hread j (by omega), hends.1⟩,
        fun _ => rfl⟩, fun _ => ⟨k, by omega, hends, fun j hj => ?_, fun j hj => ?_⟩, hbeyond⟩
      · exact if_pos ⟨Nat.zero_le _, by omega⟩
      · exact if_neg (by omega)
    · refine ⟨Or.inr rfl, ⟨fun h => absurd h (by simp), ?_⟩, fun h => absurd h (by simp), hbeyond⟩
      rintro ⟨k, hk, hreadk, hzero⟩
      rcases Nat.lt_or_ge k n with hlt | hge
      · exact absurd hzero (hnonzero k hlt)
      · rcases hstop with rfl | hnot
        · omega
        · exact absurd (hreadk n hge) hnot

end Copies

/-- A memory with one page table, at `0x1000`, whose page 0 is the user page at `0x4000`. -/
def oneUserPage : Mem where
  page a o :=
    if o = 0 then if a = 0x1000 then 0x01 else if a = 0x2000 then 0x01 else
      if a = 0x3000 then 0x17 else 0
    else if o = 1 then if a = 0x1000 then 0x08 else if a = 0x2000 then 0x0C else
      if a = 0x3000 then 0x10 else 0
    else 0
  freelist := []
  outOfMemory := fun _ => false
  kallocs := 0

theorem oneUserPage_pte (a : Nat) {i : Nat} (hi : i ≠ 0) : oneUserPage.pte a i = 0 := by
  have hbyte : ∀ o, 8 ≤ o → oneUserPage.page a o = 0 := fun o ho => by
    show (if o = 0 then _ else _) = _
    rw [if_neg (by omega), if_neg (by omega)]
  unfold Mem.pte
  rw [getLE_congr (g := fun _ => 0) fun o ho _ => hbyte o (by omega)]
  rfl

theorem oneUserPage_child {a b : Nat} {i : Fin 512} (h : oneUserPage.child a i = some b) :
    (i : Nat) = 0 ∧
      (a = 0x1000 ∧ b = 0x2000 ∨ a = 0x2000 ∧ b = 0x3000 ∨ a = 0x3000 ∧ b = 0x4000) := by
  unfold Mem.child at h
  by_cases hi : (i : Nat) = 0
  · refine ⟨hi, ?_⟩
    rw [hi] at h
    by_cases h1 : a = 0x1000
    · subst h1
      exact Or.inl ⟨rfl, (Option.some.inj h).symm⟩
    by_cases h2 : a = 0x2000
    · subst h2
      exact Or.inr (Or.inl ⟨rfl, (Option.some.inj h).symm⟩)
    by_cases h3 : a = 0x3000
    · subst h3
      exact Or.inr (Or.inr ⟨rfl, (Option.some.inj h).symm⟩)
    · have hz : oneUserPage.pte a 0 = 0 := by
        simp [Mem.pte, getLE, oneUserPage, h1, h2, h3]
      rw [hz] at h
      exact absurd h (by simp)
  · rw [oneUserPage_pte a hi] at h
    exact absurd h (by simp)

theorem oneUserPage_table {i j : Fin 512} {a : Nat}
    (h : oneUserPage.table (some 0x1000) [i, j] = some a) :
    (i : Nat) = 0 ∧ (j : Nat) = 0 ∧ a = 0x3000 := by
  obtain ⟨b, hb, ha⟩ := Option.bind_eq_some_iff.mp h
  obtain ⟨c, hc, hb⟩ := Option.bind_eq_some_iff.mp hb
  obtain rfl : 0x1000 = c := Option.some.inj hc
  obtain ⟨hj, hb⟩ := oneUserPage_child hb
  obtain ⟨hi, ha⟩ := oneUserPage_child ha
  exact ⟨hi, hj, by omega⟩

theorem oneUserPage_isTable {a : Nat} (h : oneUserPage.IsTable 0x1000 a) : a ≠ 0x4000 := by
  obtain ⟨path, hp, ha⟩ := h
  match path, hp, ha with
  | [], _, ha =>
    have ha : 0x1000 = a := Option.some.inj ha
    omega
  | [i], _, ha =>
    obtain ⟨c, hc, ha⟩ := PtrTree.node_cons_eq_some.mp ha
    obtain rfl : 0x1000 = c := Option.some.inj hc
    have ha := (oneUserPage_child ha).2
    omega
  | [i, j], _, ha =>
    have ha := (oneUserPage_table ha).2.2
    omega

theorem oneUserPage_translation {v e : Nat} (h : translation oneUserPage 0x1000 v = some e) :
    v = 0 ∧ e = 0x1017 := by
  unfold translation at h
  split at h
  · rename_i hv
    obtain ⟨a, ha, he⟩ := Option.bind_eq_some_iff.mp h
    obtain ⟨h1, h2, rfl⟩ := oneUserPage_table ha
    have h0 : (ix 0 v : Nat) = 0 := by
      by_contra hne
      rw [oneUserPage_pte _ hne] at he
      exact absurd he (by simp [ifValid_zero])
    rw [h0] at he
    refine ⟨?_, (ifValid_eq_some.mp he).1.symm⟩
    simp only [ix] at h0 h1 h2
    rw [show MAXVPN = 2 ^ 26 from rfl] at hv
    omega
  · exact absurd h (by simp)

theorem oneUserPage_userPages : UserPages oneUserPage 0x1000 := by
  refine ⟨fun hv hw _ _ _ => ?_, fun hv _ => ?_, fun hv _ htable => ?_⟩
  · rw [(oneUserPage_translation hv).1, (oneUserPage_translation hw).1]
  · rw [(oneUserPage_translation hv).2]
    decide
  · rw [(oneUserPage_translation hv).2] at htable
    exact oneUserPage_isTable htable rfl

theorem user_copies_exact_oneUserPage :
    UserPages oneUserPage 0x1000 ∧ Writable oneUserPage 0x1000 4000 ∧
      ∃ r m', copyout 0x1000 4000 (fun _ => 7) 96 oneUserPage = .ok (r, m') ∧ r = 0 := by
  have hfirst : Writable oneUserPage 0x1000 0 := ⟨0x1017, by decide, by decide, by decide⟩
  have hwritable : ∀ k < 96, Writable oneUserPage 0x1000 (4000 + k) := fun k hk =>
    hfirst.congr (by
      rw [show PGSIZE = 4096 from rfl]
      omega)
  obtain ⟨r, m', hrun, -, hiff, -⟩ :=
    (user_copies_exact oneUserPage_userPages 4000 96 (fun _ => 7) (fun _ => 0)).1
  exact ⟨oneUserPage_userPages, hwritable 0 (by decide), r, m', hrun, hiff.mpr hwritable⟩

end Xv6.Vm
