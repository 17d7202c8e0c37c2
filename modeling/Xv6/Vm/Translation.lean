import Xv6.Vm.Free

/-!
# Page tables refine finite maps

What a page table is for is its translation: a partial function from virtual pages below
`MAXVA` to leaf entries.  `mappages` and `uvmunmap` are updates of that function, and `walk`
leaves it alone, whatever pages `kalloc` finds.

The tree of one page table is considered here, in any memory: its leaves may name any pages, and
other pages may be in use for anything else.
-/

namespace Xv6.Vm

open ByteView Hoare Ledger PtrTree Function

/-! ### Finite maps -/

/-- A partial function from virtual pages to entries. -/
abbrev PageMap := Nat → Option Nat

/-- Pages `v` to `v + n - 1` are mapped to consecutive physical pages from `pa` on. -/
def PageMap.mapped (f : PageMap) (v n pa perm : Nat) : PageMap := fun w =>
  if v ≤ w ∧ w < v + n then some (PA2PTE (u64 (pa + (w - v) * PGSIZE)) ||| perm ||| PTE_V) else f w

/-- Pages `v` to `v + n - 1` are not mapped. -/
def PageMap.unmapped (f : PageMap) (v n : Nat) : PageMap := fun w =>
  if v ≤ w ∧ w < v + n then none else f w

/-- The translation of the page table at `root`. -/
def translation (m : Mem) (root : Nat) : PageMap := fun v =>
  if v < MAXVPN then m.leaf (some root) v else none

/-- The page is a page of the tree. -/
def Mem.IsTable (m : Mem) (root pa : Nat) : Prop :=
  ∃ path, path.length ≤ 2 ∧ m.table (some root) path = some pa

/-- Every table of the tree is at one position. -/
def Mem.Once (m : Mem) (root : Nat) : Prop :=
  ∀ p q a, p.length ≤ 2 → q.length ≤ 2 → m.table (some root) p = some a →
    m.table (some root) q = some a → p = q

/-- **Well-formed trees.**  Every table is at one position, and is an allocatable page that is
    not free; upper levels have no leaves, and there is nothing from `MAXVA` on. -/
structure Tree (img : Image) (root : Nat) (m : Mem) : Prop where
  once : m.Once root
  table : ∀ pa, m.IsTable root pa → Allocatable img pa ∧ pa ∉ m.freelist
  upper : m.Upper (some root)
  high : ∀ v, MAXVPN ≤ v → v < VPAGES → m.leaf (some root) v = none
  nodup : m.freelist.Nodup
  free : ∀ pa ∈ m.freelist, Allocatable img pa

section Tree

variable {img : Image} {root : Nat} {m m' : Mem} {c pa v pt : Nat} {E : Panic → Prop}

theorem Tree.congr (h : Tree img root m) (hfree : m'.freelist = m.freelist)
    (hpages : ∀ a, m.IsTable root a → m'.page a = m.page a) :
    Tree img root m' ∧ (∀ p, p.length ≤ 2 → m'.table (some root) p = m.table (some root) p) ∧
      ∀ v, m'.leaf (some root) v = m.leaf (some root) v := by
  have htable : ∀ p, p.length ≤ 2 → m'.table (some root) p = m.table (some root) p := fun p hp =>
    Mem.table_congr (fun q a hq ha => hpages a ⟨q, Nat.le_of_lt hq, ha⟩) hp
  have hleaf : ∀ v, m'.leaf (some root) v = m.leaf (some root) v :=
    Mem.leaf_congr fun q a hq ha => hpages a ⟨q, hq, ha⟩
  refine ⟨⟨fun p q a hp hq hpa hqa => ?_, fun a ha => ?_, fun path a i hp ha => ?_, fun v hv hlt => ?_,
    hfree ▸ h.nodup, hfree ▸ h.free⟩, htable, hleaf⟩
  · rw [htable p hp] at hpa
    rw [htable q hq] at hqa
    exact h.once p q a hp hq hpa hqa
  · obtain ⟨p, hp, ha⟩ := ha
    rw [htable p hp] at ha
    rw [hfree]
    exact h.table a ⟨p, hp, ha⟩
  · rw [htable path (Nat.le_of_lt hp)] at ha
    rw [Mem.pte_congr (hpages a ⟨path, Nat.le_of_lt hp, ha⟩)]
    exact h.upper path a i hp ha
  · rw [hleaf]
    exact h.high v hv hlt

theorem translation_congr (h : ∀ v, m'.leaf (some root) v = m.leaf (some root) v) :
    translation m' root = translation m root := by
  funext v
  rw [translation, translation, h]

/-- A page that `kalloc` has handed out and that is in no table. -/
structure Fresh (img : Image) (root c : Nat) (m : Mem) : Prop where
  allocatable : Allocatable img c
  notFree : c ∉ m.freelist
  notTable : ¬ m.IsTable root c

theorem Tree.wp_kalloc (h : Tree img root m) :
    wp kalloc E (fun r m' => (∀ a, m.IsTable root a → m'.page a = m.page a) ∧
      Tree img root m' ∧ ∀ c, r = some c → Fresh img root c m') m := by
  simp only [kalloc, wp_bind, wp_get, wp_modify]
  have hcount : Tree img root { m with kallocs := m.kallocs + 1 } :=
    ⟨h.once, h.table, h.upper, h.high, h.nodup, h.free⟩
  split
  · exact ⟨fun _ _ => rfl, hcount, fun _ h => by cases h⟩
  split
  · exact ⟨fun _ _ => rfl, hcount, fun _ h => by cases h⟩
  · rename_i r next hlist
    simp only [wp_bind, wp_modify, memset, wp_pure]
    have hmem : r ∈ m.freelist := by rw [hlist]; exact List.mem_cons_self
    obtain ⟨hnot, hnext⟩ := List.nodup_cons.mp (hlist ▸ h.nodup)
    -- first the page is taken off the list, then it is filled
    have htaken : Tree img root { m with freelist := next } :=
      ⟨h.once, fun a ha => ⟨(h.table a ha).1, fun hin => (h.table a ha).2 (by
        rw [hlist]; exact List.mem_cons_of_mem _ hin)⟩, h.upper, h.high, hnext,
        fun a ha => h.free a (by rw [hlist]; exact List.mem_cons_of_mem _ ha)⟩
    generalize hfilled :
      ({ m with kallocs := m.kallocs + 1, freelist := next } : Mem).setPage r (fun _ => 5) = t
    have hfree : t.freelist = next := by rw [← hfilled]; rfl
    have hpages : ∀ a, m.IsTable root a → t.page a = m.page a := by
      rw [← hfilled]
      exact fun a ha =>
        update_of_ne (fun heq : a = r => (h.table a ha).2 (heq ▸ hmem)) _ _
    obtain ⟨htree, htable, -⟩ := htaken.congr hfree hpages
    refine ⟨hpages, htree, fun c hc => ?_⟩
    obtain rfl := Option.some.inj hc
    refine ⟨h.free r hmem, hfree ▸ hnot, ?_⟩
    rintro ⟨p, hp, hr⟩
    rw [htable p hp] at hr
    exact (h.table r ⟨p, hp, hr⟩).2 hmem

theorem Tree.graft (h : Tree img root m) (hc : Fresh img root c m)
    (hblank : m.page c = fun _ => 0) {a₀ : Nat} {p₀ : List (Fin 512)} {i₀ : Fin 512}
    (hlen : p₀.length < 2) (ha₀ : m.table (some root) p₀ = some a₀)
    (hinvalid : m.pte a₀ i₀ &&& PTE_V = 0) (hm' : m' = m.setPte a₀ i₀ (PA2PTE c ||| PTE_V)) :
    Tree img root m' ∧ m'.table (some root) (i₀ :: p₀) = some c ∧
      ∀ v, m'.leaf (some root) v = m.leaf (some root) v := by
  have hca : c ≠ a₀ := fun heq => hc.notTable ⟨p₀, Nat.le_of_lt hlen, heq ▸ ha₀⟩
  obtain ⟨htable, -, hleaf, hupper⟩ := Mem.setPte_graft hblank hc.allocatable.1 hc.allocatable.lt
    hca hlen ha₀ (fun q hq hqa => h.once q p₀ a₀ hq (Nat.le_of_lt hlen) hqa ha₀) hinvalid hm'
  have hlist : m'.freelist = m.freelist := by rw [hm']; rfl
  -- a table of the new tree is the new page or an old table at its old place
  have hold : ∀ p a, p.length ≤ 2 → m'.table (some root) p = some a →
      (p = i₀ :: p₀ ∧ a = c) ∨ m.table (some root) p = some a := by
    intro p a hp ha
    rw [htable p hp] at ha
    split at ha
    · rename_i heq
      exact Or.inl ⟨heq, (Option.some.inj ha).symm⟩
    · exact Or.inr ha
  have hlen' : (i₀ :: p₀).length ≤ 2 := hlen
  refine ⟨⟨fun p q a hp hq hpa hqa => ?_, fun a ⟨p, hp, ha⟩ => ?_, hupper h.upper, fun v hv hlt => ?_,
    hlist ▸ h.nodup, hlist ▸ h.free⟩, by rw [htable _ hlen', if_pos rfl], hleaf⟩
  · obtain ⟨rfl, rfl⟩ | hpa := hold p a hp hpa <;> obtain ⟨rfl, hac⟩ | hqa := hold q _ hq hqa
    · rfl
    · exact absurd ⟨q, hq, hqa⟩ hc.notTable
    · exact absurd ⟨p, hp, hac ▸ hpa⟩ hc.notTable
    · exact h.once p q a hp hq hpa hqa
  · rw [hlist]
    obtain ⟨-, rfl⟩ | ha := hold p a hp ha
    · exact ⟨hc.allocatable, hc.notFree⟩
    · exact h.table a ⟨p, hp, ha⟩
  · rw [hleaf]
    exact h.high v hv hlt

theorem Tree.setLeaf (h : Tree img root m) (hv : v < MAXVPN)
    (hpt : m.table (some root) (tablePath v) = some pt) {e : Nat} (he : e < 2 ^ 64)
    (hm' : m' = m.setPte pt (ix 0 v) e) :
    Tree img root m' ∧ ∀ w < VPAGES, m'.leaf (some root) w =
      if w = v then ifValid e else m.leaf (some root) w := by
  have hv' := Nat.lt_trans hv MAXVPN_lt_VPAGES
  have hlen := Nat.le_of_eq (length_tablePath v)
  obtain ⟨htable, hleaf⟩ := Mem.setPte_leaf hv' hpt
    (fun q hq hqa => h.once q _ pt hq hlen hqa hpt) he
  subst hm'
  refine ⟨⟨fun p q a hp hq hpa hqa => ?_, fun a ⟨p, hp, ha⟩ => ?_, fun path a i hp ha => ?_,
    fun w hw hlt => ?_, h.nodup, h.free⟩, hleaf⟩
  · rw [htable p hp] at hpa
    rw [htable q hq] at hqa
    exact h.once p q a hp hq hpa hqa
  · rw [htable p hp] at ha
    exact h.table a ⟨p, hp, ha⟩
  · rw [htable path (Nat.le_of_lt hp)] at ha
    have hne : a ≠ pt := by
      rintro rfl
      rw [h.once path _ a (Nat.le_of_lt hp) hlen ha hpt, length_tablePath] at hp
      exact Nat.lt_irrefl _ hp
    rw [Mem.pte_congr (Mem.page_setPte hne _ _)]
    exact h.upper path a i hp ha
  · rw [hleaf w hlt, if_neg (by omega)]
    exact h.high w hw hlt

/-! ### `walk` -/

theorem Tree.wp_walkFrom (va level : Nat) {p : List (Fin 512)} (h : Tree img root m)
    (hp : m.table (some root) p = some pt) (hlen : p.length + level = 2) :
    wp (walkFrom va true level pt) E (fun res m' => Tree img root m' ∧
      (∀ v, m'.leaf (some root) v = m.leaf (some root) v) ∧ ∀ t i, res = some (t, i) →
        m'.table (some root) (descend (va / PGSIZE) level p) = some t ∧
        i = ix 0 (va / PGSIZE)) m := by
  induction level generalizing p pt m with
  | zero =>
    simp only [walkFrom, wp_pure, descend, PX_eq_ix]
    refine ⟨h, fun _ => trivial, fun t i heq => ?_⟩
    obtain ⟨rfl, rfl⟩ := Prod.mk.inj (Option.some.inj heq)
    exact ⟨hp, rfl⟩
  | succ level ih =>
    have hchild := table_cons (i := ix (level + 1) (va / PGSIZE)) hp
    have hlen' : (ix (level + 1) (va / PGSIZE) :: p).length + level = 2 := by
      rw [List.length_cons]
      omega
    simp only [walkFrom, wp_bind, loadPte, wp_get, wp_pure, PX_eq_ix]
    split
    · rename_i hvalid
      refine ih h ?_ hlen'
      rw [hchild]
      exact if_pos hvalid
    · rename_i hinvalid
      have hplen : p.length < 2 := by omega
      rw [if_neg (by simp), wp_bind]
      refine wp_mono h.wp_kalloc ?_
      rintro res m₁ ⟨hpages, htree, hfresh⟩
      have htable₁ : ∀ q, q.length ≤ 2 → m₁.table (some root) q = m.table (some root) q :=
        fun q hq => Mem.table_congr (fun q' a hq' ha => hpages a ⟨q', Nat.le_of_lt hq', ha⟩) hq
      have hleaf₁ : ∀ v, m₁.leaf (some root) v = m.leaf (some root) v :=
        Mem.leaf_congr fun q a hq ha => hpages a ⟨q, hq, ha⟩
      cases res with
      | none => exact ⟨htree, hleaf₁, fun _ _ h => by cases h⟩
      | some page =>
        simp only [wp_bind, memset, wp_modify, storePte]
        have hpage := hfresh page rfl
        have hzero : ∀ a, m₁.IsTable root a → (m₁.setPage page fun _ => 0).page a = m₁.page a :=
          fun a ha => update_of_ne (fun heq : a = page => hpage.notTable (heq ▸ ha)) _ _
        have hlist : (m₁.setPage page fun _ => 0).freelist = m₁.freelist := rfl
        obtain ⟨htree₂, htable₂, hleaf₂⟩ := htree.congr hlist hzero
        have hp₂ : (m₁.setPage page fun _ => 0).table (some root) p = some pt := by
          rw [htable₂ p (Nat.le_of_lt hplen), htable₁ p (Nat.le_of_lt hplen), hp]
        have hinvalid₂ : (m₁.setPage page fun _ => 0).pte pt (ix (level + 1) (va / PGSIZE)) &&&
            PTE_V = 0 := by
          rw [Mem.pte_congr (hzero pt ⟨p, Nat.le_of_lt hplen, by rw [htable₁ p (Nat.le_of_lt hplen), hp]⟩),
            Mem.pte_congr (hpages pt ⟨p, Nat.le_of_lt hplen, hp⟩)]
          exact not_not.mp hinvalid
        have hfresh₂ : Fresh img root page (m₁.setPage page fun _ => 0) :=
          ⟨hpage.allocatable, hpage.notFree, by
            rintro ⟨q, hq, ha⟩
            exact hpage.notTable ⟨q, hq, by rw [← htable₂ q hq, ha]⟩⟩
        obtain ⟨htree₃, hnew, hleaf₃⟩ := htree₂.graft hfresh₂ (update_self ..) hplen hp₂
          hinvalid₂ rfl
        refine wp_mono (ih htree₃ hnew hlen') ?_
        rintro res' m' ⟨htree', hleaf', hres'⟩
        refine ⟨htree', fun v => ?_, hres'⟩
        rw [hleaf', hleaf₃, hleaf₂, hleaf₁]

theorem Tree.wp_walk (h : Tree img root m) {va : Nat} (hva : va < MAXVA) :
    wp (walk root va true) E (fun res m' => Tree img root m' ∧
      (∀ v, m'.leaf (some root) v = m.leaf (some root) v) ∧ ∀ t i, res = some (t, i) →
        m'.table (some root) (tablePath (va / PGSIZE)) = some t ∧ i = ix 0 (va / PGSIZE)) m := by
  rw [walk, if_neg (Nat.not_le.mpr hva)]
  exact h.wp_walkFrom va 2 rfl rfl

/-! ### `mappages` -/

theorem translation_of_lt (hv : v < MAXVPN) : translation m root v = m.leaf (some root) v :=
  if_pos hv

theorem translation_of_ge (hv : ¬ v < MAXVPN) : translation m root v = none := if_neg hv

theorem PageMap.mapped_succ (f : PageMap) (v k pa perm : Nat) :
    f.mapped v (k + 1) pa perm = fun w =>
      if w = v + k then some (PA2PTE (u64 (pa + k * PGSIZE)) ||| perm ||| PTE_V)
      else f.mapped v k pa perm w := by
  funext w
  unfold PageMap.mapped
  by_cases hw : w = v + k
  · rw [if_pos hw, if_pos (by omega), show w - v = k by omega]
  · rw [if_neg hw]
    by_cases hin : v ≤ w ∧ w < v + k
    · rw [if_pos hin, if_pos (by omega)]
    · rw [if_neg hin, if_neg (by omega)]

theorem entry_lt_of_u64 {perm : Nat} (hperm : perm < 2 ^ 10) (pa : Nat) :
    PA2PTE (u64 pa) ||| perm ||| PTE_V < 2 ^ 64 := by
  have hpa : u64 pa < 2 ^ 64 := Nat.mod_lt _ (by decide)
  refine Nat.or_lt_two_pow (Nat.or_lt_two_pow ?_ (by omega)) (by decide)
  rw [PA2PTE, Nat.shiftLeft_eq, Nat.shiftRight_eq_div_pow]
  omega

/-- **`mappages`** maps the whole range, or some pages from its start on when `kalloc` finds no
    page. -/
theorem Tree.wp_mappages (h : Tree img root m) {n perm : Nat} (hn : 0 < n)
    (hrange : v + n ≤ MAXVPN) (hfree : ∀ w, v ≤ w → w < v + n → translation m root w = none)
    (hperm : perm < 2 ^ 10) (hpa : pa < 2 ^ 64) :
    wp (mappages root (v * PGSIZE) (n * PGSIZE) pa perm) E (fun r m' => Tree img root m' ∧
      ((r = 0 ∧ translation m' root = (translation m root).mapped v n pa perm) ∨
        r = -1 ∧ ∃ k < n, translation m' root = (translation m root).mapped v k pa perm)) m := by
  have hM : MAXVPN = 2 ^ 26 := rfl
  have hP : PGSIZE = 4096 := rfl
  have haligned : ¬ v * PGSIZE % PGSIZE ≠ 0 := not_not.mpr (Nat.mul_mod_left v PGSIZE)
  have hsize : ¬ n * PGSIZE % PGSIZE ≠ 0 := not_not.mpr (Nat.mul_mod_left n PGSIZE)
  have hzero : ¬ n * PGSIZE = 0 := by rw [hP]; omega
  have hlast : u64 (v * PGSIZE + n * PGSIZE - PGSIZE) = (v + (n - 1)) * PGSIZE := by
    unfold u64
    rw [hP]
    omega
  simp only [mappages, if_neg haligned, if_neg hsize, if_neg hzero, wp_bind, hlast,
    Nat.mul_div_cancel n (show 0 < PGSIZE by decide)]
  refine wp_loop (I := fun u t => ∃ k < n, u = ⟨(v + k) * PGSIZE, u64 (pa + k * PGSIZE), false⟩ ∧
      Tree img root t ∧ translation t root = (translation m root).mapped v k pa perm)
    (fun u => v + n - 1 - u.a / PGSIZE) ⟨0, hn, ?_, h, ?_⟩ ?_ ?_
  · rw [Nat.zero_mul, Nat.add_zero, Nat.add_zero, u64_of_lt hpa]
  · funext w
    rw [PageMap.mapped, if_neg (by omega)]
  · rw [mul_PGSIZE_div]
    omega
  rintro u t ⟨k, hk, rfl, htree, htrans⟩
  have hva : (v + k) * PGSIZE < MAXVA := mul_PGSIZE_lt (by omega)
  have hvk : v + k < MAXVPN := by omega
  unfold mapBody
  rw [wp_bind]
  refine wp_mono (htree.wp_walk hva) ?_
  rintro res t₁ ⟨htree₁, hleaf₁, hres⟩
  have htrans₁ := (translation_congr hleaf₁).trans htrans
  cases res with
  | none =>
    refine ⟨(fun h => by cases h), fun _ => ⟨htree₁, Or.inr ⟨rfl, k, hk, htrans₁⟩⟩⟩
  | some ti =>
    obtain ⟨pt, i⟩ := ti
    obtain ⟨hpt, rfl⟩ := hres pt i rfl
    rw [mul_PGSIZE_div] at hpt ⊢
    have hinvalid : t₁.pte pt (ix 0 (v + k)) &&& PTE_V = 0 := by
      rw [← ifValid_eq_none, ← leaf_eq_ifValid hpt, ← translation_of_lt hvk, htrans₁,
        PageMap.mapped, if_neg (by omega)]
      exact hfree (v + k) (by omega) (by omega)
    simp only [loadPte, storePte, wp_bind, wp_get, wp_pure, if_neg (not_not.mpr hinvalid),
      wp_modify]
    obtain ⟨htree₂, hleaf₂⟩ := htree₁.setLeaf hvk hpt
      (entry_lt_of_u64 hperm (pa + k * PGSIZE)) rfl
    generalize t₁.setPte pt (ix 0 (v + k)) _ = t₂ at htree₂ hleaf₂
    have htrans₂ : translation t₂ root = (translation m root).mapped v (k + 1) pa perm := by
      rw [PageMap.mapped_succ, ← htrans₁]
      funext w
      by_cases hw : w < MAXVPN
      · rw [translation_of_lt hw, translation_of_lt hw,
          hleaf₂ w (Nat.lt_trans hw MAXVPN_lt_VPAGES), ifValid_eq_some.mpr ⟨rfl, entry_valid⟩]
      · rw [translation_of_ge hw, translation_of_ge hw, if_neg (by omega)]
    split
    · rename_i heq
      have hkn : k + 1 = n := by
        rw [hP] at heq
        omega
      rw [hkn] at htrans₂
      exact ⟨(fun h => by cases h), fun _ => ⟨htree₂, Or.inl ⟨rfl, htrans₂⟩⟩⟩
    · rename_i hne
      have hkn : k + 1 < n := by
        have hneq : k ≠ n - 1 := fun heq => hne (by rw [heq])
        omega
      have hnext : u64 ((v + k) * PGSIZE + PGSIZE) = (v + (k + 1)) * PGSIZE := by
        unfold u64
        rw [hP]
        omega
      have hpage : u64 (u64 (pa + k * PGSIZE) + PGSIZE) = u64 (pa + (k + 1) * PGSIZE) := by
        unfold u64
        rw [hP]
        omega
      refine ⟨fun _ => ⟨⟨k + 1, hkn, ?_, htree₂, htrans₂⟩, ?_⟩, fun h => by cases h⟩
      · simp only [hnext, hpage]
      · simp only [hnext, mul_PGSIZE_div]
        omega

/-! ### `uvmunmap` -/

/-- What `uvmunmap` frees can be freed, and is no table of the tree. -/
def Freeable (img : Image) (root : Nat) (m : Mem) (v n : Nat) : Prop :=
  ∀ w, v ≤ w → w < v + n → ∀ e, translation m root w = some e →
    Allocatable img (PTE2PA e) ∧ ¬ m.IsTable root (PTE2PA e)

/-- **One page of `uvmunmap`.** -/
theorem Mem.Once.wp_unmapPage (h : m.Once root) (hv : v < MAXVPN) {doFree : Bool}
    (hfree : doFree = true → Freeable img root m v 1) :
    wp (unmapPage img root (v * PGSIZE) doFree) E (fun _ m' => m'.Once root ∧
      (∀ a, m'.IsTable root a ↔ m.IsTable root a) ∧
      translation m' root = (translation m root).unmapped v 1) m := by
  have hskip : m.leaf (some root) v = none → m.Once root ∧
      (∀ a, m.IsTable root a ↔ m.IsTable root a) ∧
      translation m root = (translation m root).unmapped v 1 := by
    refine fun hnone => ⟨h, fun _ => Iff.rfl, funext fun w => ?_⟩
    unfold PageMap.unmapped
    split
    · obtain rfl : w = v := by omega
      rw [translation_of_lt hv, hnone]
    · rfl
  simp only [unmapPage, wp_bind]
  refine wp_mono (wp_walk_lookup (mul_PGSIZE_lt hv)) fun res m₁ ⟨hm, hres⟩ => ?_
  subst hm
  rw [mul_PGSIZE_div] at hres
  cases hpt : m₁.table (some root) (tablePath v) with
  | none =>
    rw [hpt] at hres
    subst hres
    exact hskip (leaf_none_of_table hpt)
  | some pt =>
    rw [hpt] at hres
    subst hres
    simp only [Option.map_some, loadPte, wp_bind, wp_get, wp_pure]
    split
    · rename_i hinvalid
      exact hskip ((leaf_eq_ifValid hpt).trans (ifValid_eq_none.mpr hinvalid))
    · rename_i hvalid
      have hlen := Nat.le_of_eq (length_tablePath v)
      have hv' := Nat.lt_trans hv MAXVPN_lt_VPAGES
      obtain ⟨htable, hleaf⟩ := Mem.setPte_leaf hv' hpt
        (fun q hq hqa => h q _ pt hq hlen hqa hpt) (show 0 < 2 ^ 64 by decide)
      -- what a memory that has the tables of the cleared one translates to
      have hdone : ∀ t : Mem, (∀ a, m₁.IsTable root a →
          t.page a = (m₁.setPte pt (ix 0 v) 0).page a) → t.Once root ∧
          (∀ a, t.IsTable root a ↔ m₁.IsTable root a) ∧
          translation t root = (translation m₁ root).unmapped v 1 := by
        intro t ht
        have ht' : ∀ q a, q.length ≤ 2 → (m₁.setPte pt (ix 0 v) 0).table (some root) q = some a →
            t.page a = (m₁.setPte pt (ix 0 v) 0).page a := fun q a hq ha =>
          ht a ⟨q, hq, by rw [← htable q hq, ha]⟩
        have htable' : ∀ q, q.length ≤ 2 → t.table (some root) q = m₁.table (some root) q :=
          fun q hq => (Mem.table_congr (fun q' a hq' ha => ht' q' a (Nat.le_of_lt hq') ha) hq).trans
            (htable q hq)
        refine ⟨fun p q a hp hq hpa hqa => ?_, fun a => ?_, funext fun w => ?_⟩
        · rw [htable' p hp] at hpa
          rw [htable' q hq] at hqa
          exact h p q a hp hq hpa hqa
        · exact exists_congr fun q => and_congr_right fun hq => by rw [htable' q hq]
        · unfold PageMap.unmapped
          by_cases hw : w < MAXVPN
          · rw [translation_of_lt hw, translation_of_lt hw, Mem.leaf_congr ht',
              hleaf w (Nat.lt_trans hw MAXVPN_lt_VPAGES)]
            by_cases hwv : w = v
            · rw [if_pos hwv, if_pos (by omega)]
              rfl
            · rw [if_neg hwv, if_neg (by omega)]
          · rw [translation_of_ge hw, translation_of_ge hw, if_neg (by omega)]
      cases doFree with
      | false =>
        simp only [Bool.false_eq_true, if_false, storePte, wp_modify]
        exact hdone _ fun _ _ => rfl
      | true =>
        have hentry : translation m₁ root v = some (m₁.pte pt (ix 0 v)) := by
          rw [translation_of_lt hv, leaf_eq_ifValid hpt]
          exact ifValid_eq_some.mpr ⟨rfl, hvalid⟩
        obtain ⟨halloc, hnot⟩ := hfree rfl v (Nat.le_refl _) (Nat.lt_succ_self v) _ hentry
        have hne : ∀ a, m₁.IsTable root a → a ≠ PTE2PA (m₁.pte pt (ix 0 v)) := fun a ha heq =>
          hnot (heq ▸ ha)
        simp only [if_true, wp_bind]
        refine wp_mono (wp_kfree halloc) fun _ m₂ hm₂ => ?_
        subst hm₂
        simp only [storePte, wp_modify]
        refine hdone _ fun a ha => ?_
        rw [Mem.freed_setPte (hne pt ⟨_, hlen, hpt⟩), Mem.page_freed (hne a ha)]

/-- **`uvmunmap`** removes the mappings of its range. -/
theorem Mem.Once.wp_uvmunmap (h : m.Once root) {n : Nat} (hrange : v + n ≤ MAXVPN) {doFree : Bool}
    (hfree : doFree = true → Freeable img root m v n) :
    wp (uvmunmap img root (v * PGSIZE) n doFree) E (fun _ m' =>
      translation m' root = (translation m root).unmapped v n) m := by
  have hM : MAXVPN = 2 ^ 26 := rfl
  have hP : PGSIZE = 4096 := rfl
  have haligned : ¬ v * PGSIZE % PGSIZE ≠ 0 := not_not.mpr (Nat.mul_mod_left v PGSIZE)
  have hlast : u64 (v * PGSIZE + u64 (n * PGSIZE)) = (v + n) * PGSIZE := by
    unfold u64
    rw [hP]
    omega
  simp only [uvmunmap, if_neg haligned, wp_bind, hlast]
  refine wp_loop (I := fun a t => ∃ k ≤ n, a = (v + k) * PGSIZE ∧ t.Once root ∧
      (∀ a, t.IsTable root a ↔ m.IsTable root a) ∧
      translation t root = (translation m root).unmapped v k)
    (fun a => v + n - a / PGSIZE) ⟨0, Nat.zero_le n, rfl, h, fun _ => Iff.rfl, ?_⟩ ?_ ?_
  · funext w
    rw [PageMap.unmapped, if_neg (by omega)]
  · rw [mul_PGSIZE_div]
    omega
  rintro a t ⟨k, hk, rfl, honce, htables, htrans⟩
  unfold unmapBody
  split
  · rename_i hlt
    have hkn : k < n := by
      rw [hP] at hlt
      omega
    rw [wp_bind]
    refine wp_mono (honce.wp_unmapPage (by omega) fun hdo w hw hlt e he => ?_)
      fun _ t' ⟨honce', htables', htrans'⟩ => ?_
    · rw [htables]
      rw [htrans, PageMap.unmapped, if_neg (by omega)] at he
      exact hfree hdo w (by omega) (by omega) e he
    · have hnext : u64 ((v + k) * PGSIZE + PGSIZE) = (v + (k + 1)) * PGSIZE := by
        unfold u64
        rw [hP]
        omega
      refine ⟨fun _ => ⟨⟨k + 1, hkn, hnext, honce', fun b => (htables' b).trans (htables b), ?_⟩, ?_⟩,
        nofun⟩
      · rw [htrans', htrans]
        funext w
        unfold PageMap.unmapped
        by_cases hin : v ≤ w ∧ w < v + k
        · rw [if_pos (show v ≤ w ∧ w < v + (k + 1) by omega)]
          split <;> rfl
        · by_cases hwk : w = v + k
          · rw [if_pos (by omega), if_pos (by omega)]
          · rw [if_neg (by omega), if_neg hin, if_neg (by omega)]
      · rw [hnext, mul_PGSIZE_div, mul_PGSIZE_div]
        omega
  · rename_i hge
    have hkn : k = n := by
      rw [hP] at hge
      omega
    subst hkn
    exact ⟨nofun, fun _ => htrans⟩

/-! ### `freewalk` -/

/-- The page table at `root` and no other. -/
def oneRoot (root : Nat) (o : Owner) : Option Nat := if o = none then some root else none

/-- The ledger of a tree without leaves: whatever else is in use is in the hands of others. -/
theorem Tree.pages (h : Tree img root m) (hno : ∀ w < VPAGES, m.leaf (some root) w = none) :
    ∃ loose, Pages img (oneRoot root) (fun _ => none) m loose ∧
      ∀ r, r ∈ loose ↔ Allocatable img r ∧ r ∉ m.freelist ∧ ¬ m.IsTable root r := by
  classical
  have hown : ∀ s r, own (oneRoot root) (fun _ => none) m s = some r →
      ∃ p, s = .table none p ∧ p.length ≤ 2 ∧ m.table (some root) p = some r := by
    intro s r hs
    cases s with
    | trapframe p => cases hs
    | table o p =>
      simp only [own, oneRoot] at hs
      split at hs
      · rename_i hp
        split at hs
        · rename_i ho
          exact ⟨p, by rw [ho], hp, hs⟩
        · cases (node_root_none p).symm.trans hs
      · cases hs
    | page o v =>
      simp only [own, oneRoot] at hs
      split at hs
      · rename_i hv
        split at hs
        · rw [hno v (Nat.lt_trans hv UPAGES_lt_VPAGES)] at hs
          cases hs
        · rw [leaf_root_none] at hs
          cases hs
      · cases hs
  have htable : ∀ r, m.IsTable root r → ∃ s, own (oneRoot root) (fun _ => none) m s = some r := by
    rintro r ⟨p, hp, hr⟩
    exact ⟨.table none p, (own_table hp).trans hr⟩
  refine ⟨((Finset.range PHYSTOP).filter fun r => Allocatable img r ∧ r ∉ m.freelist ∧
    ¬ m.IsTable root r).toList, ?_, fun r => ?_⟩
  · have hloose : ∀ r, r ∈ ((Finset.range PHYSTOP).filter fun r => Allocatable img r ∧
        r ∉ m.freelist ∧ ¬ m.IsTable root r).toList ↔
        Allocatable img r ∧ r ∉ m.freelist ∧ ¬ m.IsTable root r := fun r => by
      rw [Finset.mem_toList, Finset.mem_filter, Finset.mem_range]
      exact and_iff_right_of_imp fun hr => hr.1.2.2
    refine ⟨⟨⟨fun s t r hs ht => ?_, fun s r hs => ?_, Finset.nodup_toList _, fun r hr => ?_,
      fun r hr s hs => ?_, fun r hr => ?_⟩, h.nodup, h.free⟩, fun o p a i hp ha => ?_⟩
    · obtain ⟨p, rfl, hp, hpr⟩ := hown s r hs
      obtain ⟨q, rfl, hq, hqr⟩ := hown t r ht
      rw [h.once p q r hp hq hpr hqr]
    · obtain ⟨p, -, hp, hpr⟩ := hown s r hs
      exact (h.table r ⟨p, hp, hpr⟩).1
    · exact ((hloose r).mp hr).1
    · obtain ⟨p, -, hp, hpr⟩ := hown s r hs
      exact ((hloose r).mp hr).2.2 ⟨p, hp, hpr⟩
    · rw [hloose]
      constructor
      · intro hfree
        refine ⟨fun s hs => ?_, fun hl => hl.2.1 hfree⟩
        obtain ⟨p, -, hp, hpr⟩ := hown s r hs
        exact (h.table r ⟨p, hp, hpr⟩).2 hfree
      · rintro ⟨hnone, hnl⟩
        by_contra hfree
        refine hnl ⟨hr, hfree, fun ht => ?_⟩
        obtain ⟨s, hs⟩ := htable r ht
        exact hnone s hs
    · simp only [oneRoot] at ha
      split at ha
      · exact h.upper p a i hp ha
      · cases (node_root_none p).symm.trans ha
  · rw [Finset.mem_toList, Finset.mem_filter, Finset.mem_range]
    exact and_iff_right_of_imp fun hr => hr.1.2.2

theorem wp_freewalk_suffix (hE : ∀ e, E e) (depth pa : Nat) :
    wp (freewalk img depth pa) E (fun _ m' => m.freelist <:+ m'.freelist) m := by
  induction depth generalizing pa m with
  | zero => exact hE _
  | succ depth ih =>
    rw [freewalk, wp_bind]
    refine wp_forRange (I := fun _ t => m.freelist <:+ t.freelist) 512 (List.suffix_refl _)
      (fun j t _ _ ht => ?_) fun t ht => ?_
    · simp only [wp_bind, loadPte, wp_get, wp_pure]
      split
      · rw [wp_bind]
        refine wp_mono (ih (PTE2PA _)) fun _ t' ht' => ?_
        exact ht.trans ht'
      split
      · exact hE _
      · exact ht
    · unfold kfree
      split
      · exact hE _
      · simp only [wp_bind, memset, wp_modify]
        exact ht.trans (List.suffix_cons _ _)

/-- **`freewalk`** of a tree without leaves frees each of its pages once. -/
theorem Tree.freewalk (h : Tree img root m) (hno : ∀ w, translation m root w = none) :
    ∃ m' freed, freewalk img 3 root m = .ok ((), m') ∧ m'.freelist = freed ++ m.freelist ∧
      freed.Nodup ∧ ∀ pa, pa ∈ freed ↔ m.IsTable root pa := by
  have hleaf : ∀ w < VPAGES, m.leaf (some root) w = none := by
    intro w hw
    by_cases hlt : w < MAXVPN
    · rw [← translation_of_lt hlt, hno]
    · exact h.high w (Nat.not_lt.mp hlt) hw
  obtain ⟨loose, hpages, hloose⟩ := h.pages hleaf
  obtain ⟨_, m', hrun, -, hpages'⟩ := wp_total (wp_freewalk_root (E := fun _ => False) hpages
    (o := none) rfl hleaf)
  obtain ⟨freed, hfreed⟩ := wp_ok (wp_freewalk_suffix (E := fun _ => True) (fun _ => trivial) 3 root)
    hrun
  have hnone : ∀ s, own (update (oneRoot root) none none) (fun _ => none) m' s = none := by
    intro s
    have hroot : ∀ o, update (oneRoot root) none none o = none := by
      intro o
      by_cases ho : o = none
      · rw [ho, update_self]
      · rw [update_of_ne ho, oneRoot, if_neg ho]
    cases s with
    | trapframe p => rfl
    | table o p => exact own_root_none (hroot o) rfl
    | page o v => exact own_root_none (hroot o) rfl
  have hmem : ∀ pa, Allocatable img pa → (pa ∈ m'.freelist ↔ pa ∉ loose) := by
    intro pa hpa
    rw [hpages'.exact.free_iff pa hpa]
    exact and_iff_right fun s => by rw [hnone s]; exact nofun
  have hnodup := hpages'.nodup
  rw [← hfreed] at hnodup
  obtain ⟨hfnodup, -, hdisjoint⟩ := List.nodup_append.mp hnodup
  refine ⟨m', freed, hrun, hfreed.symm, hfnodup, fun pa => ⟨fun hpa => ?_, fun hpa => ?_⟩⟩
  · have hin : pa ∈ m'.freelist := hfreed ▸ List.mem_append_left _ hpa
    have halloc := hpages'.free pa hin
    have hnl := (hmem pa halloc).mp hin
    by_contra hnt
    exact hnl ((hloose pa).mpr ⟨halloc, fun hold => hdisjoint pa hpa pa hold rfl, hnt⟩)
  · obtain ⟨halloc, hnf⟩ := h.table pa hpa
    have hin := (hmem pa halloc).mpr fun hl => ((hloose pa).mp hl).2.2 hpa
    rw [← hfreed] at hin
    exact (List.mem_append.mp hin).resolve_right hnf

/-! ### `uvmcreate` -/

theorem wp_uvmcreate_tree (hnodup : m.freelist.Nodup)
    (hfree : ∀ pa ∈ m.freelist, Allocatable img pa) :
    wp uvmcreate E (fun r m' => ∀ root, r = some root → Tree img root m' ∧
      ∀ v, translation m' root v = none) m := by
  simp only [uvmcreate, kalloc, wp_bind, wp_get, wp_modify]
  split
  · rintro root ⟨⟩
  split
  · rintro root ⟨⟩
  · rename_i root next hlist
    simp only [wp_bind, wp_modify, memset, wp_pure]
    rintro r hr
    obtain rfl := Option.some.inj hr
    generalize hm : (Mem.setPage (Mem.setPage
      { m with kallocs := m.kallocs + 1, freelist := next } root fun _ => 5) root fun _ => 0) = t
    have hblank : t.page root = fun _ => 0 := by
      rw [← hm]
      exact update_self ..
    have hchild : ∀ i, t.child root i = none := fun i => by
      unfold Mem.child
      rw [Mem.pte_zero hblank]
      rfl
    -- the root is the only table
    have htable : ∀ p a, t.table (some root) p = some a → p = [] ∧ a = root := by
      intro p
      induction p with
      | nil => exact fun a ha => ⟨rfl, (Option.some.inj ha).symm⟩
      | cons i p ih =>
        intro a ha
        obtain ⟨b, hb, hchild'⟩ := node_cons_eq_some.mp ha
        obtain ⟨-, rfl⟩ := ih b hb
        rw [hchild i] at hchild'
        cases hchild'
    have hleaf : ∀ v, t.leaf (some root) v = none := fun v => by
      refine leaf_none_of_table ?_
      cases ht : t.table (some root) (tablePath v) with
      | none => rfl
      | some a => exact absurd (htable _ a ht).1 (by simp [tablePath])
    obtain ⟨hnot, hnext⟩ := List.nodup_cons.mp (hlist ▸ hnodup)
    have hlist' : t.freelist = next := by rw [← hm]; rfl
    refine ⟨⟨fun p q a _ _ hp hq => ?_, ?_, fun p a i _ ha hvalid => ?_,
      fun v _ _ => hleaf v, hlist' ▸ hnext, fun a ha => ?_⟩, fun v => ?_⟩
    · rw [(htable p a hp).1, (htable q a hq).1]
    · rintro a ⟨p, _, ha⟩
      obtain ⟨-, rfl⟩ := htable p a ha
      rw [hlist']
      exact ⟨hfree a (hlist ▸ List.mem_cons_self), hnot⟩
    · obtain ⟨-, rfl⟩ := htable p a ha
      rw [Mem.pte_zero hblank] at hvalid
      exact absurd rfl hvalid
    · rw [hlist'] at ha
      exact hfree a (hlist ▸ List.mem_cons_of_mem _ ha)
    · unfold translation
      split
      · exact hleaf v
      · rfl

end Tree

/-- **The page-table tree refines a finite map.**  For every well-formed tree: `mappages` that
    returns 0 maps exactly its range, and one that returns -1 a part of it from its start on;
    `uvmunmap` removes the mappings of its range, if it frees only pages outside the tree; `walk`
    with allocation changes no translation; and `freewalk` of a tree without leaves frees each
    page of it once. -/
theorem tree_refines_map {img : Image} {root : Nat} {m : Mem} (h : Tree img root m) :
    (∀ va size pa perm, va % PGSIZE = 0 → size % PGSIZE = 0 → size ≠ 0 → va + size ≤ MAXVA →
      pa < 2 ^ 64 → perm < 2 ^ 10 →
      (∀ w, va / PGSIZE ≤ w → w < va / PGSIZE + size / PGSIZE → translation m root w = none) →
      ∃ r m', mappages root va size pa perm m = .ok (r, m') ∧ Tree img root m' ∧
        ((r = 0 ∧ translation m' root =
            (translation m root).mapped (va / PGSIZE) (size / PGSIZE) pa perm) ∨
          r = -1 ∧ ∃ k < size / PGSIZE, translation m' root =
            (translation m root).mapped (va / PGSIZE) k pa perm)) ∧
    (∀ va npages doFree, va % PGSIZE = 0 → va + npages * PGSIZE ≤ MAXVA →
      (doFree = true → Freeable img root m (va / PGSIZE) npages) →
      ∃ m', uvmunmap img root va npages doFree m = .ok ((), m') ∧
        translation m' root = (translation m root).unmapped (va / PGSIZE) npages) ∧
    (∀ va < MAXVA, ∃ r m', walk root va true m = .ok (r, m') ∧ Tree img root m' ∧
      translation m' root = translation m root) ∧
    ((∀ w, translation m root w = none) → ∃ m' freed, freewalk img 3 root m = .ok ((), m') ∧
      m'.freelist = freed ++ m.freelist ∧ freed.Nodup ∧
      ∀ pa, pa ∈ freed ↔ m.IsTable root pa) := by
  have hM : MAXVA = MAXVPN * PGSIZE := by decide
  have hpage : ∀ a, a % PGSIZE = 0 → a = a / PGSIZE * PGSIZE := fun a ha =>
    (Nat.div_mul_cancel (Nat.dvd_of_mod_eq_zero ha)).symm
  refine ⟨fun va size pa perm hva hsize hpos hrange hpa hperm hfree => ?_,
    fun va n doFree hva hrange hfree => ?_, fun va hva => ?_, h.freewalk⟩
  · obtain ⟨v, rfl⟩ : ∃ v, va = v * PGSIZE := ⟨_, hpage va hva⟩
    obtain ⟨n, rfl⟩ : ∃ n, size = n * PGSIZE := ⟨_, hpage size hsize⟩
    rw [mul_PGSIZE_div, mul_PGSIZE_div] at *
    rw [hM, ← Nat.add_mul] at hrange
    obtain ⟨r, m', hrun, hpost⟩ := wp_total (h.wp_mappages (E := fun _ => False)
      (Nat.pos_of_ne_zero fun hz => hpos (by rw [hz, Nat.zero_mul]))
      (Nat.le_of_mul_le_mul_right hrange (by decide)) hfree hperm hpa)
    exact ⟨r, m', hrun, hpost⟩
  · obtain ⟨v, rfl⟩ : ∃ v, va = v * PGSIZE := ⟨_, hpage va hva⟩
    rw [mul_PGSIZE_div] at *
    rw [hM, ← Nat.add_mul] at hrange
    obtain ⟨_, m', hrun, hpost⟩ := wp_total (h.once.wp_uvmunmap (E := fun _ => False)
      (Nat.le_of_mul_le_mul_right hrange (by decide)) hfree)
    exact ⟨m', hrun, hpost⟩
  · obtain ⟨r, m', hrun, htree, hleaf, -⟩ := wp_total (h.wp_walk (E := fun _ => False) hva)
    exact ⟨r, m', hrun, htree, translation_congr hleaf⟩

/-! ### A small memory -/

/-- A kernel that leaves eight pages. -/
def eightPages : Image where
  kend := PHYSTOP - 8 * PGSIZE
  trampoline := KERNBASE
  trampoline_aligned := KERNBASE_aligned
  kernbase_le := Nat.le_refl _
  trampoline_lt := by decide
  kend_le := by decide

/-- The eight pages are free. -/
def freshMem : Mem where
  page _ _ := 0
  freelist := (List.range 8).map fun i => PHYSTOP - 8 * PGSIZE + i * PGSIZE
  outOfMemory _ := false
  kallocs := 0

/-- The root that `uvmcreate` finds in it, and what it leaves. -/
def freshRoot : Nat := PHYSTOP - 8 * PGSIZE

def freshTree : Mem :=
  match uvmcreate freshMem with
  | .ok (_, m) => m
  | .error _ => freshMem

/-- Two pages mapped from virtual address 0 on to the pages from `pa` on. -/
def twoMapped (pa : Nat) : Mem :=
  match mappages freshRoot 0 (2 * PGSIZE) pa (PTE_R ||| PTE_W ||| PTE_U) freshTree with
  | .ok (_, m) => m
  | .error _ => freshTree

theorem freshTree_tree : Tree eightPages freshRoot freshTree ∧
    ∀ v, translation freshTree freshRoot v = none := by
  have hfree : ∀ pa ∈ freshMem.freelist, Allocatable eightPages pa := by
    unfold Allocatable
    decide
  have hroot : (match uvmcreate freshMem with
      | .ok (r, _) => r
      | .error _ => none) = some freshRoot := by
    decide
  obtain ⟨r, m', hrun, htree⟩ := wp_total (wp_uvmcreate_tree (m := freshMem)
    (E := fun _ => False) (by decide) hfree)
  unfold freshTree
  simp only [hrun] at hroot ⊢
  exact htree freshRoot hroot

theorem twoMapped_tree {pa : Nat} (hpa : pa < 2 ^ 64)
    (hrun : (match mappages freshRoot 0 (2 * PGSIZE) pa (PTE_R ||| PTE_W ||| PTE_U) freshTree with
      | .ok (r, _) => r == 0
      | .error _ => false) = true) :
    Tree eightPages freshRoot (twoMapped pa) ∧ translation (twoMapped pa) freshRoot =
      (translation freshTree freshRoot).mapped 0 2 pa (PTE_R ||| PTE_W ||| PTE_U) := by
  have hperm : PTE_R ||| PTE_W ||| PTE_U < 2 ^ 10 := by decide
  obtain ⟨r, m', hr, htree, htrans⟩ := wp_total (freshTree_tree.1.wp_mappages (v := 0) (n := 2)
    (E := fun _ => False) (by decide) (by decide) (fun w _ _ => freshTree_tree.2 w) hperm hpa)
  rw [Nat.zero_mul] at hr
  unfold twoMapped
  simp only [hr] at hrun ⊢
  have hr0 : r = 0 := by simpa using hrun
  refine ⟨htree, ?_⟩
  rcases htrans with ⟨-, htrans⟩ | ⟨hneg, -⟩
  · exact htrans
  · rw [hr0] at hneg
    cases hneg

theorem tree_refines_map_freshTree :
    (∃ r m', mappages freshRoot 0 (2 * PGSIZE) (PHYSTOP - 2 * PGSIZE) (PTE_R ||| PTE_U) freshTree =
        .ok (r, m') ∧ Tree eightPages freshRoot m' ∧
      ((r = 0 ∧ translation m' freshRoot = (translation freshTree freshRoot).mapped
          (0 / PGSIZE) (2 * PGSIZE / PGSIZE) (PHYSTOP - 2 * PGSIZE) (PTE_R ||| PTE_U)) ∨
        r = -1 ∧ ∃ k < 2 * PGSIZE / PGSIZE, translation m' freshRoot =
          (translation freshTree freshRoot).mapped (0 / PGSIZE) k (PHYSTOP - 2 * PGSIZE)
            (PTE_R ||| PTE_U))) ∧
    (∃ m', uvmunmap eightPages freshRoot 0 1 true (twoMapped (PHYSTOP - 2 * PGSIZE)) =
        .ok ((), m') ∧
      translation m' freshRoot =
        (translation (twoMapped (PHYSTOP - 2 * PGSIZE)) freshRoot).unmapped (0 / PGSIZE) 1) ∧
    (∃ r m', walk freshRoot 0 true freshTree = .ok (r, m') ∧ Tree eightPages freshRoot m' ∧
      translation m' freshRoot = translation freshTree freshRoot) ∧
    ∃ m' freed, freewalk eightPages 3 freshRoot freshTree = .ok ((), m') ∧
      m'.freelist = freed ++ freshTree.freelist ∧ freed.Nodup ∧
      ∀ pa, pa ∈ freed ↔ freshTree.IsTable freshRoot pa := by
  have h := tree_refines_map freshTree_tree.1
  have hpa : PHYSTOP - 2 * PGSIZE < 2 ^ 64 := by decide
  obtain ⟨htwo, htrans⟩ := twoMapped_tree hpa (by decide)
  refine ⟨h.1 0 (2 * PGSIZE) _ _ (by decide) (by decide) (by decide) (by decide) (by decide)
      (by decide) fun w _ _ => freshTree_tree.2 w,
    (tree_refines_map htwo).2.1 0 1 true (by decide) (by decide) fun _ w hlow hhigh e he => ?_,
    h.2.2.1 0 (by decide), h.2.2.2 freshTree_tree.2⟩
  -- the page is still on the free list, where no table is
  obtain rfl : w = 0 := Nat.le_zero.mp (Nat.le_of_lt_succ hhigh)
  rw [htrans, PageMap.mapped, if_pos (by decide)] at he
  obtain rfl := Option.some.inj he
  exact ⟨by unfold Allocatable; decide,
    fun ht => (htwo.table _ ht).2 (by decide)⟩

/-- **A page of the tree may be mapped by it.**  `uvmunmap` of virtual page 0, which is mapped to
    the root, frees the root: `kfree` overwrites it, and the mapping of virtual page 1, outside
    the range, is gone. -/
theorem uvmunmap_frees_root : Tree eightPages freshRoot (twoMapped freshRoot) ∧
    ∃ m', uvmunmap eightPages freshRoot 0 1 true (twoMapped freshRoot) = .ok ((), m') ∧
      translation (twoMapped freshRoot) freshRoot 1 ≠ none ∧ translation m' freshRoot 1 = none := by
  refine ⟨(twoMapped_tree (by decide) (by decide)).1, ?_⟩
  have hrun : (match uvmunmap eightPages freshRoot 0 1 true (twoMapped freshRoot) with
      | .ok (_, m') => (translation (twoMapped freshRoot) freshRoot 1).isSome &&
          (translation m' freshRoot 1).isNone
      | .error _ => false) = true := by
    decide
  cases h : uvmunmap eightPages freshRoot 0 1 true (twoMapped freshRoot) with
  | error e =>
    rw [h] at hrun
    cases hrun
  | ok x =>
    obtain ⟨⟨⟩, m'⟩ := x
    rw [h] at hrun
    obtain ⟨hbefore, hafter⟩ := Bool.and_eq_true_iff.mp hrun
    exact ⟨m', rfl, Option.isSome_iff_ne_none.mp hbefore, Option.isNone_iff_eq_none.mp hafter⟩

end Xv6.Vm
