import Xv6.Vm.Space

/-!
# The page allocator, `walk` and single mappings

Each function is given by its effect on the leaves of the page tables and on the ledger of
physical pages.
-/

namespace Xv6.Vm

open ByteView Hoare Ledger PtrTree Function

/-! ### `kalloc` and `kfree` -/

section Allocator

variable {img : Image} {R : Owner → Option Nat} {tf : Nat → Option Nat} {loose : List Nat}
  {m : Mem} {pa : Nat} {E : Panic → Prop}

/-- **`kalloc`** returns a page that was free and is now in hand, or none. -/
theorem wp_kalloc_fresh (o : Owner) (h : Pages img R tf m loose) :
    wp kalloc E (fun r m' => Allocates img R tf o loose m m' ∧
      (∀ pb, pb ∉ m.freelist → m'.page pb = m.page pb) ∧ match r with
        | none => Pages img R tf m' loose
        | some pa => pa ∈ m.freelist ∧ Pages img R tf m' (pa :: loose)) m := by
  have hcount := h.congr { m with kallocs := m.kallocs + 1 } rfl fun _ _ _ _ _ => rfl
  have hkeeps : Allocates img R tf o loose m { m with kallocs := m.kallocs + 1 } :=
    ⟨⟨fun _ _ => rfl, hcount.2⟩, fun v _ _ e he => ⟨(hcount.2 o v).trans he, rfl⟩, fun _ ha => ha⟩
  simp only [kalloc, wp_bind, wp_get, wp_modify]
  split
  · exact ⟨hkeeps, fun _ _ => rfl, hcount.1⟩
  · split
    · exact ⟨hkeeps, fun _ _ => rfl, hcount.1⟩
    · rename_i r next hlist
      simp only [wp_bind, wp_modify, memset, wp_pure]
      have hmem : r ∈ m.freelist := by rw [hlist]; exact List.mem_cons_self
      have hnodup := h.nodup
      rw [hlist] at hnodup
      obtain ⟨hnot, hnext⟩ := List.nodup_cons.mp hnodup
      -- taking the page off the list changes no table
      have hpages : ∀ pb, pb ≠ r → update m.page r (fun _ => 5) pb = m.page pb :=
        fun pb hne => update_of_ne hne _ _
      have htables : ∀ o path a, path.length ≤ 2 → m.table (R o) path = some a → a ≠ r := by
        rintro o path a hp ha rfl
        exact h.exact.not_free_of_owned ((own_table hp).trans ha) hmem
      have halloc : Exact (own R tf m) (r :: loose) (fun pb => pb ∈ next) (Allocatable img) := by
        refine h.exact.alloc (h.free r hmem) hmem fun x _ => ?_
        rw [hlist, List.mem_cons]
        constructor
        · intro hx
          exact ⟨Or.inr hx, fun heq => hnot (heq ▸ hx)⟩
        · rintro ⟨heq | hx, hne⟩
          · exact absurd heq hne
          · exact hx
      have hsub : ∀ x ∈ next, x ∈ m.freelist := fun x hx => by
        rw [hlist]
        exact List.mem_cons_of_mem _ hx
      have htaken : Pages img R tf { m with freelist := next } (r :: loose) :=
        ⟨⟨halloc, hnext, fun x hx => h.free x (hsub x hx)⟩, h.upper⟩
      obtain ⟨hp, hleaf⟩ := htaken.congr
        (({ m with kallocs := m.kallocs + 1, freelist := next } : Mem).setPage r fun _ => 5) rfl
        fun o path a hp ha => hpages a (htables o path a hp ha)
      have hkept : Keeps img R tf o loose m _ :=
        ⟨Frame.of_page _ (h.not_foreign_of_free hmem) hpages, hleaf⟩
      exact ⟨hkept.allocates hsub (fun v hown => h.exact.not_free_of_owned hown hmem) hpages,
        fun pb hpb => hpages pb fun heq => hpb (heq ▸ hmem), hmem, hp⟩

theorem wp_kalloc (o : Owner) (h : Pages img R tf m loose) :
    wp kalloc E (fun r m' => Keeps img R tf o loose m m' ∧
      (∀ pb, pb ∉ m.freelist → m'.page pb = m.page pb) ∧ match r with
        | none => Pages img R tf m' loose
        | some pa => Pages img R tf m' (pa :: loose)) m := by
  refine wp_mono (wp_kalloc_fresh o h) ?_
  rintro r m' ⟨halloc, hpages, hr⟩
  refine ⟨halloc.toKeeps, hpages, ?_⟩
  cases r with
  | none => exact hr
  | some pa => exact hr.2

/-- The memory after `kfree(pa)`. -/
def Mem.freed (m : Mem) (pa : Nat) : Mem :=
  { m.setPage pa (putLE (fun _ => 1) 0 8 (m.freelist.headD 0)) with freelist := pa :: m.freelist }

theorem Mem.page_freed {pb : Nat} (hne : pb ≠ pa) : (m.freed pa).page pb = m.page pb :=
  update_of_ne hne _ _

/-- **`kfree`** does not panic on a page that can be allocated. -/
theorem wp_kfree (h : Allocatable img pa) :
    wp (kfree img pa) E (fun _ m' => m' = m.freed pa) m := by
  have hok : ¬ (pa % PGSIZE ≠ 0 ∨ pa < img.kend ∨ pa ≥ PHYSTOP) := by
    obtain ⟨haligned, hlow, hhigh⟩ := h
    omega
  simp only [kfree, if_neg hok, wp_bind, memset, wp_modify, Mem.freed, Mem.setPage,
    update_self, update_idem]

theorem Account.freed {own : Slot → Option Nat} (h : Account img own (pa :: loose) m) :
    Account img own loose (m.freed pa) := by
  have hfresh : pa ∉ m.freelist := h.exact.not_free_of_loose List.mem_cons_self
  refine ⟨h.exact.release fun x _ => by rw [Mem.freed, List.mem_cons, or_comm],
    List.nodup_cons.mpr ⟨hfresh, h.nodup⟩, fun x hx => ?_⟩
  rcases List.mem_cons.mp hx with rfl | hx
  · exact h.exact.mem x List.mem_cons_self
  · exact h.free x hx

theorem Pages.freed (o : Owner) (h : Pages img R tf m (pa :: loose)) :
    Pages img R tf (m.freed pa) loose ∧ Keeps img R tf o loose m (m.freed pa) := by
  have haccount := h.toAccount.freed
  have hfreed : Pages img R tf { m with freelist := pa :: m.freelist } loose :=
    ⟨⟨haccount.exact, haccount.nodup, haccount.free⟩, h.upper⟩
  obtain ⟨hp, hleaf⟩ := hfreed.congr (m.freed pa) rfl fun o path a hp ha =>
    Mem.page_freed (by
      rintro rfl
      exact h.exact.apart a List.mem_cons_self _ ((own_table hp).trans ha))
  exact ⟨hp, Frame.of_page _ h.not_foreign_of_loose fun pb hne => Mem.page_freed hne, hleaf⟩

theorem Pages.held_freed (o : Owner) (h : Pages img R tf m (pa :: loose)) :
    Held m (m.freed pa) (R o) fun _ => True := by
  intro w hw _ e he
  refine ⟨((h.freed o).2.leaf o w).trans he, Mem.page_freed fun heq => ?_⟩
  exact h.exact.apart _ List.mem_cons_self (.page o w) (heq ▸ own_leaf hw he)

end Allocator

/-! ### Stores into page tables -/

section OneTree

variable {m : Mem} {r : Option Nat} {v pt e : Nat}

theorem length_tablePath (v : Nat) : (tablePath v).length = 2 := rfl

/-- **A leaf is stored** in a tree that has the table of the leaf at one position: this leaf
    changes, and no table. -/
theorem Mem.setPte_leaf (hv : v < VPAGES) (hpt : m.table r (tablePath v) = some pt)
    (honce : ∀ q, q.length ≤ 2 → m.table r q = some pt → q = tablePath v) (he : e < 2 ^ 64) :
    (∀ path, path.length ≤ 2 → (m.setPte pt (ix 0 v) e).table r path = m.table r path) ∧
    ∀ w < VPAGES, (m.setPte pt (ix 0 v) e).leaf r w =
      if w = v then ifValid e else m.leaf r w := by
  have htable : ∀ path, path.length ≤ 2 →
      (m.setPte pt (ix 0 v) e).table r path = m.table r path := by
    refine fun path hp => Mem.table_congr (fun q a hq ha => Mem.page_setPte ?_ _ _) hp
    -- a table above the last level is another page
    rintro rfl
    rw [honce q (Nat.le_of_lt hq) ha, length_tablePath] at hq
    exact Nat.lt_irrefl _ hq
  refine ⟨htable, fun w hw => ?_⟩
  unfold Mem.leaf
  rw [htable _ (Nat.le_of_eq (length_tablePath w))]
  by_cases hwv : w = v
  · subst hwv
    rw [if_pos rfl, hpt, Option.bind_some, Mem.pte_setPte_self _ _ _ he]
  · rw [if_neg hwv]
    cases ha : m.table r (tablePath w) with
    | none => simp only [Option.bind_none]
    | some a =>
      simp only [Option.bind_some]
      by_cases hapt : a = pt
      · subst hapt
        have hpath := honce _ (Nat.le_of_eq (length_tablePath w)) ha
        have hix : (ix 0 w : Nat) ≠ ix 0 v := by
          intro heq
          simp only [tablePath, List.cons.injEq, and_true] at hpath
          exact hwv (ix_inj hw hv (Fin.ext heq) hpath.1 hpath.2)
        rw [Mem.pte_setPte_index hix]
      · rw [Mem.pte_congr (Mem.page_setPte hapt _ _)]

/-- The upper levels of a tree have no leaves. -/
def Mem.Upper (m : Mem) (r : Option Nat) : Prop :=
  ∀ path a (i : Fin 512), path.length < 2 → m.table r path = some a →
    m.pte a i &&& PTE_V ≠ 0 → m.pte a i &&& (PTE_R ||| PTE_W ||| PTE_X) = 0

/-- **A blank page is grafted** into an empty entry of a table that is at one position of the
    tree: there is one more table, and no leaf changes. -/
theorem Mem.setPte_graft {c a₀ : Nat} {p₀ : List (Fin 512)} {i₀ : Fin 512}
    (hblank : m.page c = fun _ => 0) (haligned : c % PGSIZE = 0) (hlt : c < 2 ^ 56) (hca : c ≠ a₀)
    (hlen : p₀.length < 2) (ha₀ : m.table r p₀ = some a₀)
    (honce : ∀ q, q.length ≤ 2 → m.table r q = some a₀ → q = p₀)
    (hinvalid : m.pte a₀ i₀ &&& PTE_V = 0) {m' : Mem}
    (hm' : m' = m.setPte a₀ i₀ (PA2PTE c ||| PTE_V)) :
    (∀ p, p.length ≤ 2 → m'.table r p = if p = i₀ :: p₀ then some c else m.table r p) ∧
    m.table r (i₀ :: p₀) = none ∧ (∀ v, m'.leaf r v = m.leaf r v) ∧
    (m.Upper r → m'.Upper r) := by
  have hentry : PA2PTE c ||| PTE_V = PA2PTE c ||| 0 ||| PTE_V := by rw [Nat.or_zero]
  have hpage : ∀ b, b ≠ a₀ → m'.page b = m.page b := fun b hb => by
    rw [hm']
    exact Mem.page_setPte hb _ _
  have hpte : m'.pte a₀ i₀ = PA2PTE c ||| PTE_V := by
    rw [hm', hentry]
    exact Mem.pte_setPte_self _ _ _ (entry_lt hlt (by decide))
  have hindex : ∀ i : Fin 512, i ≠ i₀ → m'.pte a₀ i = m.pte a₀ i := fun i hi => by
    rw [hm']
    exact Mem.pte_setPte_index (fun heq => hi (Fin.ext heq)) _
  have hempty : ∀ i : Fin 512, m'.pte c i = 0 := fun i =>
    Mem.pte_zero ((hpage c hca).trans hblank) i
  have htable : ∀ p, p.length ≤ 2 →
      m'.table r p = if p = i₀ :: p₀ then some c else m.table r p := by
    intro p hp
    refine node_graft ha₀ (fun q hq hqa => honce q (Nat.le_of_lt hq) hqa)
      (fun q a i hq hqa hne => ?_) ?_ ?_ (fun i => ?_) hp
    · by_cases ha : a = a₀
      · subst ha
        unfold Mem.child
        rw [hindex i fun hi => hne ⟨rfl, hi⟩]
      · exact Mem.child_congr (hpage a ha) i
    · exact if_neg (not_not.mpr hinvalid)
    · unfold Mem.child
      rw [hpte, hentry, if_pos entry_valid, PTE2PA_entry haligned hlt (by decide)]
    · unfold Mem.child
      rw [hempty i]
      rfl
  have hnone : m.table r (i₀ :: p₀) = none := by
    show (node m.child r p₀).bind _ = none
    have hnode : node m.child r p₀ = some a₀ := ha₀
    rw [hnode, Option.bind_some]
    exact if_neg (not_not.mpr hinvalid)
  refine ⟨htable, hnone, fun v => ?_, fun hupper path a i hp ha hvalid => ?_⟩
  · unfold Mem.leaf
    rw [htable _ (Nat.le_of_eq (length_tablePath v))]
    split
    · rename_i hpath
      rw [hpath, hnone, Option.bind_some, Option.bind_none, hempty]
      rfl
    · cases ha : m.table r (tablePath v) with
      | none => simp only [Option.bind_none]
      | some a =>
        have hne : a ≠ a₀ := by
          rintro rfl
          rw [← honce _ (Nat.le_of_eq (length_tablePath v)) ha, length_tablePath] at hlen
          exact Nat.lt_irrefl _ hlen
        simp only [Option.bind_some, Mem.pte_congr (hpage a hne)]
  · rw [htable path (Nat.le_of_lt hp)] at ha
    split at ha
    · obtain rfl := Option.some.inj ha
      rw [hempty i] at hvalid
      exact absurd rfl hvalid
    · by_cases haa : a = a₀ ∧ i = i₀
      · obtain ⟨rfl, rfl⟩ := haa
        rw [hpte, hentry, entry_and (by decide)]
        decide
      · have hsame : m'.pte a i = m.pte a i := by
          by_cases ha0 : a = a₀
          · subst ha0
            exact hindex i fun hi => haa ⟨rfl, hi⟩
          · exact Mem.pte_congr (hpage a ha0) i
        rw [hsame] at hvalid ⊢
        exact hupper path a i hp ha hvalid

end OneTree

section Stores

variable {img : Image} {R : Owner → Option Nat} {tf : Nat → Option Nat} {o : Owner}
  {loose : List Nat} {m : Mem} {v pt e : Nat}

theorem Image.trampoline_lt_pow (img : Image) : img.trampoline < 2 ^ 56 := by
  have htr := img.trampoline_lt
  have hend := img.kend_le
  have hstop : PHYSTOP < 2 ^ 56 := by decide
  omega

theorem Allocatable.lt {pa : Nat} (h : Allocatable img pa) : pa < 2 ^ 56 :=
  Nat.lt_trans h.2.2 (by decide)

theorem Pages.table_inj (h : Pages img R tf m loose) {o₁ o₂ : Owner} {p q : List (Fin 512)}
    {a : Nat} (hp : p.length ≤ 2) (hq : q.length ≤ 2) (h₁ : m.table (R o₁) p = some a)
    (h₂ : m.table (R o₂) q = some a) : o₁ = o₂ ∧ p = q := by
  have honce := h.exact.once (.table o₁ p) (.table o₂ q) a ((own_table hp).trans h₁)
    ((own_table hq).trans h₂)
  exact Slot.table.inj honce

theorem Pages.table_not_mapped (h : Pages img R tf m loose) {p : List (Fin 512)} {a : Nat}
    (hp : p.length ≤ 2) (ha : m.table (R o) p = some a) (v : Nat) :
    own R tf m (.page o v) ≠ some a := by
  intro hown
  have honce := h.exact.once _ _ _ hown ((own_table hp).trans ha)
  cases honce

theorem Pages.setPte_leaf (h : Pages img R tf m loose) (hv : v < VPAGES)
    (hpt : m.table (R o) (tablePath v) = some pt) (he : e < 2 ^ 64) :
    (∀ o' path, path.length ≤ 2 →
      (m.setPte pt (ix 0 v) e).table (R o') path = m.table (R o') path) ∧
    ∀ o' w, w < VPAGES → (m.setPte pt (ix 0 v) e).leaf (R o') w =
      if o' = o ∧ w = v then ifValid e else m.leaf (R o') w := by
  have hlen := Nat.le_of_eq (length_tablePath v)
  obtain ⟨htable, hleaf⟩ := Mem.setPte_leaf hv hpt
    (fun q hq hqa => (h.table_inj hq hlen hqa hpt).2) he
  -- the tables of the others are other pages
  have hother : ∀ o' ≠ o, ∀ q a, q.length ≤ 2 → m.table (R o') q = some a →
      (m.setPte pt (ix 0 v) e).page a = m.page a := fun o' ho q a hq ha =>
    Mem.page_setPte (fun heq => ho (h.table_inj hq hlen (heq ▸ ha) hpt).1) _ _
  refine ⟨fun o' path hp => ?_, fun o' w hw => ?_⟩
  · by_cases ho : o' = o
    · subst ho
      exact htable path hp
    · exact Mem.table_congr (fun q a hq => hother o' ho q a (Nat.le_of_lt hq)) hp
  · by_cases ho : o' = o
    · subst ho
      rw [hleaf w hw]
      simp only [true_and]
    · rw [if_neg fun hand => ho hand.1, Mem.leaf_congr (hother o' ho)]

theorem Pages.own_setPte_leaf (h : Pages img R tf m loose) (hv : v < VPAGES)
    (hpt : m.table (R o) (tablePath v) = some pt) (he : e < 2 ^ 64) :
    (v < UPAGES → own R tf (m.setPte pt (ix 0 v) e) (.page o v) = (ifValid e).map PTE2PA) ∧
    ∀ s, (v < UPAGES → s ≠ .page o v) → own R tf (m.setPte pt (ix 0 v) e) s = own R tf m s := by
  obtain ⟨htable, hleaf⟩ := h.setPte_leaf hv hpt he
  refine ⟨fun hu => ?_, fun s hs => ?_⟩
  · rw [own_page hu, hleaf o v hv, if_pos ⟨rfl, rfl⟩]
  · cases s with
    | trapframe p => simp only [own]
    | table o' path =>
      simp only [own]
      split
      · rename_i hp
        exact htable o' path hp
      · rfl
    | page o' w =>
      simp only [own]
      split
      · rename_i hw
        have hne : ¬ (o' = o ∧ w = v) := by
          rintro ⟨rfl, rfl⟩
          exact hs hw rfl
        rw [hleaf o' w (Nat.lt_trans hw (by decide)), if_neg hne]
      · rfl

theorem Pages.upper_setPte_leaf (h : Pages img R tf m loose) (hv : v < VPAGES)
    (hpt : m.table (R o) (tablePath v) = some pt) (he : e < 2 ^ 64) :
    ∀ o' path pa (i : Fin 512), path.length < 2 →
      (m.setPte pt (ix 0 v) e).table (R o') path = some pa →
      (m.setPte pt (ix 0 v) e).pte pa i &&& PTE_V ≠ 0 →
      (m.setPte pt (ix 0 v) e).pte pa i &&& (PTE_R ||| PTE_W ||| PTE_X) = 0 := by
  intro o' path pa i hp ha
  rw [(h.setPte_leaf hv hpt he).1 o' path (Nat.le_of_lt hp)] at ha
  have hne : pa ≠ pt := by
    rintro rfl
    have heq := (h.table_inj (Nat.le_of_lt hp) (Nat.le_of_eq (length_tablePath v)) ha hpt).2
    rw [heq, length_tablePath] at hp
    exact Nat.lt_irrefl _ hp
  rw [Mem.pte_congr (Mem.page_setPte hne _ _)]
  exact h.upper o' path pa i hp ha

theorem Pages.frame_setPte_leaf (h : Pages img R tf m loose)
    (hpt : m.table (R o) (tablePath v) = some pt) :
    Frame img R tf o loose m (m.setPte pt (ix 0 v) e) := by
  have hof : (Slot.table o (tablePath v)).Of o := rfl
  exact Frame.of_page _ (h.not_foreign_of_own hof ((own_table (Nat.le_of_eq
    (length_tablePath v))).trans hpt))
    fun pb hne => Mem.page_setPte hne _ _

theorem Pages.mapLeaf {pa perm : Nat} (h : Pages img R tf m (pa :: loose)) (hv : v < UPAGES)
    (hpt : m.table (R o) (tablePath v) = some pt) (hnone : m.leaf (R o) v = none)
    (hperm : perm < 2 ^ 10) :
    Pages img R tf (m.setPte pt (ix 0 v) (PA2PTE pa ||| perm ||| PTE_V)) loose := by
  have hpa := h.exact.mem pa List.mem_cons_self
  have he := entry_lt hpa.lt hperm
  have hv' : v < VPAGES := Nat.lt_trans hv (by decide)
  obtain ⟨hself, hrest⟩ := h.own_setPte_leaf hv' hpt he
  have hentry : (ifValid (PA2PTE pa ||| perm ||| PTE_V)).map PTE2PA = some pa := by
    rw [ifValid_eq_some.mpr ⟨rfl, entry_valid⟩, Option.map_some, PTE2PA_entry hpa.1 hpa.lt hperm]
  refine ⟨⟨h.exact.assign (s := .page o v) ?_ ((hself hv).trans hentry) fun s hs =>
    hrest s fun _ => hs, h.nodup, h.free⟩, h.upper_setPte_leaf hv' hpt he⟩
  rw [own_page hv, hnone]
  rfl

theorem Pages.unmapLeaf (h : Pages img R tf m loose) (hv : v < UPAGES)
    (hpt : m.table (R o) (tablePath v) = some pt) (hleaf : m.leaf (R o) v = some e) :
    Pages img R tf (m.setPte pt (ix 0 v) 0) (PTE2PA e :: loose) := by
  have hv' : v < VPAGES := Nat.lt_trans hv (by decide)
  obtain ⟨hself, hrest⟩ := h.own_setPte_leaf hv' hpt (show 0 < 2 ^ 64 by decide)
  refine ⟨⟨h.exact.take (s := .page o v) ?_ ((hself hv).trans rfl) fun s hs =>
    hrest s fun _ => hs, h.nodup, h.free⟩, h.upper_setPte_leaf hv' hpt (by decide)⟩
  rw [own_page hv, hleaf]
  rfl

theorem Pages.setLeaf (h : Pages img R tf m loose) (hv : v < VPAGES)
    (hpt : m.table (R o) (tablePath v) = some pt) (he : e < 2 ^ 64)
    (hsame : v < UPAGES → (ifValid e).map PTE2PA = (m.leaf (R o) v).map PTE2PA) :
    Pages img R tf (m.setPte pt (ix 0 v) e) loose := by
  obtain ⟨hself, hrest⟩ := h.own_setPte_leaf hv hpt he
  refine ⟨⟨h.exact.congr (fun s => ?_) fun _ _ => Iff.rfl, h.nodup, h.free⟩,
    h.upper_setPte_leaf hv hpt he⟩
  by_cases hs : v < UPAGES ∧ s = .page o v
  · obtain ⟨hu, rfl⟩ := hs
    rw [hself hu, hsame hu, own_page hu]
  · exact hrest s fun hu heq => hs ⟨hu, heq⟩

/-- **Grafting**: a blank page in hand becomes a page of the table of `o`. -/
theorem Pages.graft {c a₀ : Nat} {p₀ : List (Fin 512)} {i₀ : Fin 512}
    (h : Pages img R tf m (c :: loose)) (hblank : m.page c = fun _ => 0) (hlen : p₀.length < 2)
    (ha₀ : m.table (R o) p₀ = some a₀) (hinvalid : m.pte a₀ i₀ &&& PTE_V = 0) :
    Pages img R tf (m.setPte a₀ i₀ (PA2PTE c ||| PTE_V)) loose ∧
      Keeps img R tf o loose m (m.setPte a₀ i₀ (PA2PTE c ||| PTE_V)) ∧
      (m.setPte a₀ i₀ (PA2PTE c ||| PTE_V)).table (R o) (i₀ :: p₀) = some c := by
  have hc := h.exact.mem c List.mem_cons_self
  generalize hm' : m.setPte a₀ i₀ (PA2PTE c ||| PTE_V) = m'
  have hpage : ∀ b, b ≠ a₀ → m'.page b = m.page b := fun b hb => by
    rw [← hm']
    exact Mem.page_setPte hb _ _
  have hca : c ≠ a₀ := by
    rintro rfl
    exact h.exact.apart c List.mem_cons_self _ ((own_table (Nat.le_of_lt hlen)).trans ha₀)
  -- the tables of `o`: one more
  obtain ⟨htable, hnone, hself, hupper⟩ := Mem.setPte_graft hblank hc.1 hc.lt hca hlen ha₀
    (fun q hq hqa => (h.table_inj hq (Nat.le_of_lt hlen) hqa ha₀).2) hinvalid hm'.symm
  -- those of the others: the same
  have hother : ∀ o', o' ≠ o → ∀ q a, q.length ≤ 2 → m.table (R o') q = some a →
      m'.page a = m.page a := by
    intro o' ho q a hq ha
    refine hpage a ?_
    rintro rfl
    exact ho (h.table_inj hq (Nat.le_of_lt hlen) ha ha₀).1
  have hleaf : ∀ o' v, m'.leaf (R o') v = m.leaf (R o') v := by
    intro o' v
    by_cases ho : o' = o
    · subst ho
      exact hself v
    · exact Mem.leaf_congr (fun q a hq ha => hother o' ho q a hq ha) v
  have hother' : ∀ o' path, o' ≠ o → path.length ≤ 2 →
      m'.table (R o') path = m.table (R o') path := fun o' path ho hp =>
    Mem.table_congr (fun q a hq => hother o' ho q a (Nat.le_of_lt hq)) hp
  have hlen' : (i₀ :: p₀).length ≤ 2 := hlen
  have hexact : Exact (own R tf m') loose (fun pa => pa ∈ m.freelist) (Allocatable img) := by
    refine h.exact.assign (s := .table o (i₀ :: p₀)) ?_ ?_ fun s hs => ?_
    · rw [own_table hlen', hnone]
    · rw [own_table hlen', htable _ hlen', if_pos rfl]
    · cases s with
      | trapframe p => simp only [own]
      | table o' path =>
        simp only [own]
        split
        · rename_i hp
          by_cases ho : o' = o
          · subst ho
            have hne : path ≠ i₀ :: p₀ := fun heq => hs (by rw [heq])
            rw [htable path hp, if_neg hne]
          · exact hother' o' path ho hp
        · rfl
      | page o' v => simp only [own, hleaf]
  have hframe : Frame img R tf o loose m m' := by
    have hof : (Slot.table o p₀).Of o := rfl
    refine Frame.of_page a₀ ?_ hpage
    intro hforeign
    refine h.not_foreign_of_own hof ((own_table (Nat.le_of_lt hlen)).trans ha₀) ?_
    rcases hforeign with hown | hloose | hout
    · exact Or.inl hown
    · exact Or.inr (Or.inl (List.mem_cons_of_mem _ hloose))
    · exact Or.inr (Or.inr hout)
  have hlist : m'.freelist = m.freelist := by rw [← hm']; rfl
  refine ⟨⟨⟨by rw [hlist]; exact hexact, by rw [hlist]; exact h.nodup,
    by rw [hlist]; exact h.free⟩, fun o' path a i hp ha hvalid => ?_⟩, ⟨hframe, hleaf⟩, ?_⟩
  · by_cases ho : o' = o
    · subst ho
      exact hupper (h.upper o') path a i hp ha hvalid
    · rw [hother' o' path ho (Nat.le_of_lt hp)] at ha
      rw [Mem.pte_congr (hother o' ho path a (Nat.le_of_lt hp) ha)] at hvalid ⊢
      exact h.upper o' path a i hp ha hvalid
  · rw [htable _ hlen', if_pos rfl]

end Stores

/-! ### `walk` -/

/-- The path that `walk` takes to the last table from the one at `p`, which is at a level. -/
def descend (v : Nat) : Nat → List (Fin 512) → List (Fin 512)
  | 0, p => p
  | level + 1, p => descend v level (ix (level + 1) v :: p)

section Walk

variable {img : Image} {R : Owner → Option Nat} {tf : Nat → Option Nat} {o : Owner}
  {loose : List Nat} {m : Mem} {va pt : Nat} {r : Option Nat} {E : Panic → Prop}

theorem table_cons {p : List (Fin 512)} {i : Fin 512} (hp : m.table r p = some pt) :
    m.table r (i :: p) = m.child pt i :=
  node_cons hp

theorem table_descend_none (v : Nat) (level : Nat) {p : List (Fin 512)} (hp : m.table r p = none) :
    m.table r (descend v level p) = none := by
  induction level generalizing p with
  | zero => exact hp
  | succ level ih =>
    refine ih ?_
    have hnode : node m.child r p = none := hp
    show (node m.child r p).bind _ = none
    rw [hnode, Option.bind_none]

theorem wp_walkFrom_lookup (va level : Nat) {p : List (Fin 512)} (hp : m.table r p = some pt) :
    wp (walkFrom va false level pt) E (fun res m' => m' = m ∧
      res = (m.table r (descend (va / PGSIZE) level p)).map fun t =>
        (t, (ix 0 (va / PGSIZE) : Nat))) m := by
  induction level generalizing p pt with
  | zero =>
    simp only [walkFrom, wp_pure, descend, hp, Option.map_some, PX_eq_ix, and_self]
  | succ level ih =>
    have hchild := table_cons (i := ix (level + 1) (va / PGSIZE)) hp
    simp only [walkFrom, wp_bind, loadPte, wp_get, wp_pure, PX_eq_ix]
    split
    · rename_i hvalid
      refine ih ?_
      rw [hchild]
      exact if_pos hvalid
    · rename_i hinvalid
      have hnone : m.table r (ix (level + 1) (va / PGSIZE) :: p) = none := by
        rw [hchild]
        exact if_neg hinvalid
      simp only [if_true, wp_pure, descend, table_descend_none _ _ hnone, Option.map_none, and_self]

/-- **`walk` without allocation** finds the entry for `va`, if there is a table for it. -/
theorem wp_walk_lookup {root : Nat} (hva : va < MAXVA) :
    wp (walk root va false) E (fun res m' => m' = m ∧
      res = (m.table (some root) (tablePath (va / PGSIZE))).map fun t =>
        (t, (ix 0 (va / PGSIZE) : Nat))) m := by
  rw [walk, if_neg (Nat.not_le.mpr hva)]
  exact wp_walkFrom_lookup va 2 rfl

theorem wp_walkFrom_alloc (va level : Nat) {p : List (Fin 512)} (h : Pages img R tf m loose)
    (hp : m.table (R o) p = some pt) (hlen : p.length + level = 2) :
    wp (walkFrom va true level pt) E (fun res m' => Pages img R tf m' loose ∧
      Allocates img R tf o loose m m' ∧ ∀ t i, res = some (t, i) →
        m'.table (R o) (descend (va / PGSIZE) level p) = some t ∧ i = ix 0 (va / PGSIZE)) m := by
  induction level generalizing p pt m with
  | zero =>
    simp only [walkFrom, wp_pure, descend, PX_eq_ix]
    refine ⟨h, Allocates.refl, fun t i heq => ?_⟩
    obtain ⟨rfl, rfl⟩ := Prod.mk.inj (Option.some.inj heq)
    exact ⟨hp, rfl⟩
  | succ level ih =>
    have hchild := table_cons (i := ix (level + 1) (va / PGSIZE)) hp
    have hlen' : (ix (level + 1) (va / PGSIZE) :: p).length + level = 2 := by
      rw [List.length_cons]
      omega
    simp only [walkFrom, wp_bind, loadPte, wp_get, wp_pure, PX_eq_ix]
    split
    · rename_i hvalid
      refine ih h ?_ hlen'
      rw [hchild]
      exact if_pos hvalid
    · rename_i hinvalid
      rw [if_neg (by simp), wp_bind]
      refine wp_mono (wp_kalloc_fresh o h) ?_
      rintro res m₁ ⟨halloc, hpages, hres⟩
      cases res with
      | none => exact ⟨hres, halloc, fun t i heq => by cases heq⟩
      | some page =>
        replace hres := hres.2
        simp only [wp_bind, memset, wp_modify, storePte]
        obtain ⟨hzero, halloc₂⟩ := hres.setLoose_allocates (o := o) fun _ => 0
        have hplen : p.length < 2 := by omega
        -- neither `kalloc` nor `memset` writes to a table
        have hsame : ∀ q a, q.length ≤ 2 → m.table (R o) q = some a →
            (m₁.setPage page fun _ => 0).page a = m.page a := by
          intro q a hq ha
          have hfree : a ∉ m.freelist := h.exact.not_free_of_owned ((own_table hq).trans ha)
          have hne : a ≠ page := by
            rintro rfl
            refine hres.exact.apart a List.mem_cons_self (.table o q) ((own_table hq).trans ?_)
            rw [Mem.table_congr (n := 2) (fun q' b hq' hb => hpages b (h.exact.not_free_of_owned
              ((own_table (Nat.le_of_lt hq')).trans hb))) hq, ha]
          rw [Mem.setPage_page, update_of_ne hne, hpages a hfree]
        have htable : (m₁.setPage page fun _ => 0).table (R o) p = some pt := by
          rw [Mem.table_congr (n := 2) (fun q a hq => hsame q a (Nat.le_of_lt hq))
            (Nat.le_of_lt hplen), hp]
        have hinvalid' : (m₁.setPage page fun _ => 0).pte pt (ix (level + 1) (va / PGSIZE)) &&&
            PTE_V = 0 := by
          rw [Mem.pte_congr (hsame p pt (Nat.le_of_lt hplen) hp)]
          exact not_not.mp hinvalid
        obtain ⟨hgraft, hkeeps₃, hnew⟩ := hzero.graft (update_self ..) hplen htable hinvalid'
        have hmapped : ∀ v, own R tf (m₁.setPage page fun _ => 0) (.page o v) ≠ some pt := fun v =>
          hzero.table_not_mapped (Nat.le_of_lt hplen) htable v
        have halloc₃ := hkeeps₃.allocates (fun _ ha => ha) hmapped
          fun pb hne => Mem.page_setPte hne _ _
        refine wp_mono (ih hgraft hnew hlen') ?_
        rintro res' m' ⟨hp', halloc', hres'⟩
        exact ⟨hp', ((halloc.trans halloc₂).trans halloc₃).trans halloc', hres'⟩

/-- **`walk` with allocation** returns the entry for `va`, or fails for want of memory. -/
theorem wp_walk_alloc {root : Nat} (h : Pages img R tf m loose) (hroot : R o = some root)
    (hva : va < MAXVA) :
    wp (walk root va true) E (fun res m' => Pages img R tf m' loose ∧
      Allocates img R tf o loose m m' ∧ ∀ t i, res = some (t, i) →
        m'.table (R o) (tablePath (va / PGSIZE)) = some t ∧ i = ix 0 (va / PGSIZE)) m := by
  rw [walk, if_neg (Nat.not_le.mpr hva)]
  exact wp_walkFrom_alloc va 2 h hroot rfl

end Walk

/-! ### Mapping and unmapping one page -/

section Single

variable {img : Image} {R : Owner → Option Nat} {tf : Nat → Option Nat} {o : Owner}
  {loose : List Nat} {m : Mem} {root v pa perm : Nat} {E : Panic → Prop}

theorem mul_PGSIZE_div (v : Nat) : v * PGSIZE / PGSIZE = v := Nat.mul_div_cancel v (by decide)

theorem mul_PGSIZE_lt (hv : v < MAXVPN) : v * PGSIZE < MAXVA := by
  rw [show MAXVPN = 2 ^ 26 from rfl] at hv
  rw [show MAXVA = 2 ^ 38 from rfl, show PGSIZE = 4096 from rfl]
  omega

theorem UPAGES_lt_MAXVPN : UPAGES < MAXVPN := by decide

theorem MAXVPN_lt_VPAGES : MAXVPN < VPAGES := by decide

theorem UPAGES_lt_VPAGES : UPAGES < VPAGES := by decide

theorem leaf_eq_ifValid {r : Option Nat} {pt : Nat} (hpt : m.table r (tablePath v) = some pt) :
    m.leaf r v = ifValid (m.pte pt (ix 0 v)) := by
  unfold Mem.leaf
  rw [hpt, Option.bind_some]

theorem leaf_none_of_table {r : Option Nat} (hpt : m.table r (tablePath v) = none) :
    m.leaf r v = none := by
  unfold Mem.leaf
  rw [hpt, Option.bind_none]

theorem wp_mappages_store (h : Pages img R tf m loose) (hroot : R o = some root) (hv : v < MAXVPN)
    (hnone : m.leaf (R o) v = none) :
    wp (mappages root (v * PGSIZE) PGSIZE pa perm) E (fun r m' => ∃ m₁,
      Pages img R tf m₁ loose ∧ Allocates img R tf o loose m m₁ ∧
      ((r = -1 ∧ m' = m₁) ∨ (r = 0 ∧ ∃ pt, m₁.table (R o) (tablePath v) = some pt ∧
        m' = m₁.setPte pt (ix 0 v) (PA2PTE pa ||| perm ||| PTE_V)))) m := by
  have hva := mul_PGSIZE_lt hv
  have hlast : u64 (v * PGSIZE + PGSIZE - PGSIZE) = v * PGSIZE := by
    rw [Nat.add_sub_cancel]
    exact u64_of_lt (Nat.lt_trans hva (by decide))
  have haligned : ¬ v * PGSIZE % PGSIZE ≠ 0 := not_not.mpr (Nat.mul_mod_left v PGSIZE)
  simp only [mappages, if_neg haligned, if_neg (show ¬ PGSIZE % PGSIZE ≠ 0 by decide),
    if_neg (show ¬ PGSIZE = 0 by decide), show PGSIZE / PGSIZE = 1 from rfl, hlast, wp_bind, loop,
    mapBody]
  refine wp_mono (wp_walk_alloc h hroot hva) ?_
  rintro res m₁ ⟨hp, hkeeps, hres⟩
  cases res with
  | none => exact ⟨m₁, hp, hkeeps, Or.inl ⟨rfl, rfl⟩⟩
  | some ti =>
    obtain ⟨t, i⟩ := ti
    obtain ⟨htable, rfl⟩ := hres t i rfl
    rw [mul_PGSIZE_div] at htable ⊢
    have hinvalid : m₁.pte t (ix 0 v) &&& PTE_V = 0 := by
      rw [← ifValid_eq_none, ← leaf_eq_ifValid htable, hkeeps.leaf, hnone]
    simp only [loadPte, storePte, wp_bind, wp_get, wp_pure, if_neg (not_not.mpr hinvalid),
      wp_modify, if_true]
    exact ⟨m₁, hp, hkeeps, Or.inr ⟨rfl, t, htable, rfl⟩⟩

theorem Keeps.leaf_setPte {loose' : List Nat} {m₁ : Mem} {pt e : Nat}
    (hkeeps : Keeps img R tf o loose' m m₁) (hp : Pages img R tf m₁ loose) (hv : v < VPAGES)
    (hpt : m₁.table (R o) (tablePath v) = some pt) (he : e < 2 ^ 64) {w : Nat} (hw : w < VPAGES) :
    (m₁.setPte pt (ix 0 v) e).leaf (R o) w = if w = v then ifValid e else m.leaf (R o) w := by
  rw [(hp.setPte_leaf hv hpt he).2 o w hw, hkeeps.leaf]
  simp only [true_and]

/-- **`mappages`** of a page in hand below `TRAPFRAME`.  The page and what is mapped already
    hold what they held. -/
theorem wp_mappages_held (h : Pages img R tf m (pa :: loose)) (hroot : R o = some root)
    (hv : v < UPAGES) (hnone : m.leaf (R o) v = none) (hperm : perm < 2 ^ 10) :
    wp (mappages root (v * PGSIZE) PGSIZE pa perm) E (fun r m' => Frame img R tf o loose m m' ∧
      m'.page pa = m.page pa ∧ (∀ a ∈ m'.freelist, a ∈ m.freelist) ∧
      Held m m' (R o) (fun _ => True) ∧
      ((r = -1 ∧ Pages img R tf m' (pa :: loose) ∧ ∀ w, m'.leaf (R o) w = m.leaf (R o) w) ∨
       (r = 0 ∧ Pages img R tf m' loose ∧ ∀ w < VPAGES, m'.leaf (R o) w =
          if w = v then some (PA2PTE pa ||| perm ||| PTE_V) else m.leaf (R o) w))) m := by
  have hv' := Nat.lt_trans hv UPAGES_lt_VPAGES
  have hpa := h.exact.mem pa List.mem_cons_self
  refine wp_mono (wp_mappages_store h hroot (Nat.lt_trans hv UPAGES_lt_MAXVPN) hnone)
    fun r m' ⟨m₁, hp, halloc, hpost⟩ => ?_
  have hpage : m₁.page pa = m.page pa := halloc.frame pa (Or.inr (Or.inl List.mem_cons_self))
  rcases hpost with ⟨rfl, rfl⟩ | ⟨rfl, pt, hpt, rfl⟩
  · exact ⟨halloc.frame.weaken, hpage, halloc.free, halloc.held, Or.inl ⟨rfl, hp, halloc.leaf o⟩⟩
  · have he := entry_lt hpa.lt hperm
    have hnone₁ : m₁.leaf (R o) v = none := by rw [halloc.leaf, hnone]
    have htab := Nat.le_of_eq (length_tablePath v)
    have hleaf : ∀ w < VPAGES, (m₁.setPte pt (ix 0 v) (PA2PTE pa ||| perm ||| PTE_V)).leaf (R o) w =
        if w = v then some (PA2PTE pa ||| perm ||| PTE_V) else m.leaf (R o) w := fun w hw => by
      rw [halloc.leaf_setPte hp hv' hpt he hw, ifValid_eq_some.mpr ⟨rfl, entry_valid⟩]
    refine ⟨halloc.frame.weaken.trans (hp.frame_setPte_leaf hpt).weaken, ?_, halloc.free,
      halloc.held.trans fun w hw _ e' he' => ⟨?_, ?_⟩,
      Or.inr ⟨rfl, hp.mapLeaf hv hpt hnone₁ hperm, hleaf⟩⟩
    · rw [Mem.page_setPte, hpage]
      rintro rfl
      exact hp.exact.apart _ List.mem_cons_self _ ((own_table htab).trans hpt)
    · rw [hleaf w (Nat.lt_trans hw UPAGES_lt_VPAGES), if_neg, ← halloc.leaf o, he']
      rintro rfl
      rw [hnone₁] at he'
      cases he'
    · refine Mem.page_setPte (fun heq => ?_) _ _
      exact hp.table_not_mapped htab hpt w (heq ▸ own_leaf hw he')

theorem wp_mappages (h : Pages img R tf m (pa :: loose)) (hroot : R o = some root)
    (hv : v < UPAGES) (hnone : m.leaf (R o) v = none) (hperm : perm < 2 ^ 10) :
    wp (mappages root (v * PGSIZE) PGSIZE pa perm) E (fun r m' => Frame img R tf o loose m m' ∧
      ((r = -1 ∧ Pages img R tf m' (pa :: loose) ∧ ∀ w, m'.leaf (R o) w = m.leaf (R o) w) ∨
       (r = 0 ∧ Pages img R tf m' loose ∧ ∀ w < VPAGES, m'.leaf (R o) w =
          if w = v then some (PA2PTE pa ||| perm ||| PTE_V) else m.leaf (R o) w))) m :=
  wp_mono (wp_mappages_held h hroot hv hnone hperm) fun _ _ ⟨hframe, _, _, _, hpost⟩ =>
    ⟨hframe, hpost⟩

/-- **`mappages`** of the trampoline or the trapframe. -/
theorem wp_mappages_fixed (h : Pages img R tf m loose) (hroot : R o = some root)
    (hv : v < MAXVPN) (hu : UPAGES ≤ v) (hnone : m.leaf (R o) v = none) (hpa : pa < 2 ^ 56)
    (hperm : perm < 2 ^ 10) :
    wp (mappages root (v * PGSIZE) PGSIZE pa perm) E (fun r m' => Frame img R tf o loose m m' ∧
      Pages img R tf m' loose ∧ ((r = -1 ∧ ∀ w, m'.leaf (R o) w = m.leaf (R o) w) ∨
       (r = 0 ∧ ∀ w < VPAGES, m'.leaf (R o) w =
          if w = v then some (PA2PTE pa ||| perm ||| PTE_V) else m.leaf (R o) w))) m := by
  refine wp_mono (wp_mappages_store h hroot hv hnone) fun r m' ⟨m₁, hp, hkeeps, hpost⟩ => ?_
  rcases hpost with ⟨rfl, rfl⟩ | ⟨rfl, pt, hpt, rfl⟩
  · exact ⟨hkeeps.frame, hp, Or.inl ⟨rfl, hkeeps.leaf o⟩⟩
  · have he := entry_lt hpa hperm
    have hv' := Nat.lt_trans hv MAXVPN_lt_VPAGES
    refine ⟨hkeeps.frame.trans (hp.frame_setPte_leaf hpt),
      hp.setLeaf hv' hpt he fun hlt => absurd hlt (Nat.not_lt.mpr hu), Or.inr ⟨rfl, fun w hw => ?_⟩⟩
    rw [hkeeps.leaf_setPte hp hv' hpt he hw, ifValid_eq_some.mpr ⟨rfl, entry_valid⟩]

/-- A page is freed before or after its leaf is cleared: the order makes no difference. -/
theorem Mem.freed_setPte {pt i e : Nat} (hne : pt ≠ pa) :
    (m.freed pa).setPte pt i e = (m.setPte pt i e).freed pa := by
  simp only [Mem.freed, Mem.setPte, Mem.setPage, update_of_ne hne,
    update_comm hne.symm]

/-- **One page of `uvmunmap`**: below `TRAPFRAME` its page is freed, above it is not. -/
theorem wp_unmapPage_held (h : Pages img R tf m loose) (hroot : R o = some root) (hv : v < MAXVPN)
    {doFree : Bool} (hkind : doFree = true ↔ v < UPAGES) :
    wp (unmapPage img root (v * PGSIZE) doFree) E (fun _ m' => Frame img R tf o loose m m' ∧
      Pages img R tf m' loose ∧ Held m m' (R o) (fun w => w ≠ v) ∧
      ∀ w < VPAGES, m'.leaf (R o) w = if w = v then none else m.leaf (R o) w) m := by
  have hv' := Nat.lt_trans hv MAXVPN_lt_VPAGES
  have hskip : m.leaf (R o) v = none → Frame img R tf o loose m m ∧ Pages img R tf m loose ∧
      Held m m (R o) (fun w => w ≠ v) ∧
      ∀ w < VPAGES, m.leaf (R o) w = if w = v then none else m.leaf (R o) w := by
    refine fun hnone => ⟨Frame.refl, h, Held.refl, fun w _ => ?_⟩
    split
    · rename_i hwv
      rw [hwv, hnone]
    · rfl
  simp only [unmapPage, wp_bind]
  refine wp_mono (wp_walk_lookup (mul_PGSIZE_lt hv)) ?_
  rintro res m₁ ⟨hm, hres⟩
  subst hm
  rw [mul_PGSIZE_div, ← hroot] at hres
  cases hpt : m₁.table (R o) (tablePath v) with
  | none =>
    rw [hpt] at hres
    subst hres
    exact hskip (leaf_none_of_table hpt)
  | some pt =>
    rw [hpt] at hres
    subst hres
    simp only [Option.map_some, loadPte, wp_bind, wp_get, wp_pure]
    split
    · rename_i hinvalid
      exact hskip ((leaf_eq_ifValid hpt).trans (ifValid_eq_none.mpr hinvalid))
    · rename_i hvalid
      have hleaf : m₁.leaf (R o) v = some (m₁.pte pt (ix 0 v)) := by
        rw [leaf_eq_ifValid hpt]
        exact ifValid_eq_some.mpr ⟨rfl, hvalid⟩
      have hclear : ∀ w < VPAGES, (m₁.setPte pt (ix 0 v) 0).leaf (R o) w =
          if w = v then none else m₁.leaf (R o) w := fun w hw =>
        (@Keeps.refl img R tf o loose m₁).leaf_setPte h hv' hpt (by decide) hw
      have hframe := h.frame_setPte_leaf (e := 0) hpt
      have hheld : Held m₁ (m₁.setPte pt (ix 0 v) 0) (R o) (fun w => w ≠ v) := by
        intro w hw hne e he
        refine ⟨?_, Mem.page_setPte (fun heq => ?_) _ _⟩
        · rw [hclear w (Nat.lt_trans hw UPAGES_lt_VPAGES), if_neg hne, he]
        · exact h.table_not_mapped (Nat.le_of_eq (length_tablePath v)) hpt w (heq ▸ own_leaf hw he)
      cases doFree with
      | false =>
        have hu : ¬ v < UPAGES := fun hlt => by simpa using hkind.mpr hlt
        simp only [Bool.false_eq_true, if_false, storePte, wp_modify]
        exact ⟨hframe, h.setLeaf hv' hpt (by decide) fun hlt => absurd hlt hu, hheld, hclear⟩
      | true =>
        have hu := hkind.mp rfl
        have hunmapped := h.unmapLeaf hu hpt hleaf
        have hpa := hunmapped.exact.mem _ List.mem_cons_self
        have hne : pt ≠ PTE2PA (m₁.pte pt (ix 0 v)) := by
          intro heq
          have honce := h.exact.once (.table o (tablePath v)) (.page o v) pt
            ((own_table (Nat.le_of_eq (length_tablePath v))).trans hpt)
            (by rw [own_page hu, hleaf, Option.map_some, ← heq])
          cases honce
        obtain ⟨hfreed, hkeeps⟩ := hunmapped.freed o
        simp only [if_true, wp_bind]
        refine wp_mono (wp_kfree hpa) fun _ m₂ hm₂ => ?_
        subst hm₂
        simp only [storePte, wp_modify]
        rw [Mem.freed_setPte hne]
        exact ⟨hframe.trans hkeeps.frame, hfreed,
          hheld.trans ((hunmapped.held_freed o).mono fun _ _ => trivial),
          fun w hw => by rw [hkeeps.leaf, hclear w hw]⟩

end Single

end Xv6.Vm
