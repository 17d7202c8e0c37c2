import Xv6.Vm.Pagetable
import Xv6.Lib.Ledger
import Xv6.Lib.PtrTree
import Mathlib.Data.Finset.Card

/-!
# Address spaces and the owners of physical pages

A page table is a tree of pages; its leaves say which physical page each virtual page is
mapped to.  Every allocatable page is on the free list, or is a trapframe, a page of one
page table at one position, or the target of one leaf below `TRAPFRAME` of one page table,
or is in the hands of the kernel.
-/

namespace Xv6.Vm

open ByteView Hoare Ledger PtrTree Function

/-- The page that a valid entry of the table at `pa` names. -/
def Mem.child (m : Mem) (pa : Nat) (i : Fin 512) : Option Nat :=
  if m.pte pa i &&& PTE_V ≠ 0 then some (PTE2PA (m.pte pa i)) else none

/-- The table at the end of a path, from the root table `r`. -/
def Mem.table (m : Mem) (r : Option Nat) (path : List (Fin 512)) : Option Nat :=
  node m.child r path

/-- The path to the table that has the leaf of virtual page `v`. -/
def tablePath (v : Nat) : List (Fin 512) := [ix 1 v, ix 2 v]

/-- An entry, if it is valid. -/
def ifValid (pte : Nat) : Option Nat := if pte &&& PTE_V ≠ 0 then some pte else none

/-- The leaf of virtual page `v`, if it is mapped. -/
def Mem.leaf (m : Mem) (r : Option Nat) (v : Nat) : Option Nat :=
  (m.table r (tablePath v)).bind fun pa => ifValid (m.pte pa (ix 0 v))

/-- The number of virtual pages that a page table has leaves for. -/
def VPAGES : Nat := 512 ^ 3

/-- The number of virtual pages below `MAXVA`. -/
def MAXVPN : Nat := MAXVA / PGSIZE

/-- The number of virtual pages below `TRAPFRAME`. -/
def UPAGES : Nat := TRAPFRAME / PGSIZE

/-- Whose page table it is: that of a process, or the one that an operation is building or
    taking down. -/
abbrev Owner := Option Nat

/-- The places that hold a physical page. -/
inductive Slot where
  /-- `proc[p].trapframe` -/
  | trapframe (p : Nat)
  /-- A page of a page table. -/
  | table (o : Owner) (path : List (Fin 512))
  /-- The target of the leaf of virtual page `v`. -/
  | page (o : Owner) (v : Nat)
deriving DecidableEq

/-- The slot belongs to the page table of `o`. -/
def Slot.Of (o : Owner) : Slot → Prop
  | .trapframe _ => False
  | .table o' _ => o' = o
  | .page o' _ => o' = o

/-- The page at a place, the page tables having the roots `R` and the trapframes being
    `tf`. -/
def own (R : Owner → Option Nat) (tf : Nat → Option Nat) (m : Mem) : Slot → Option Nat
  | .trapframe p => tf p
  | .table o path => if path.length ≤ 2 then m.table (R o) path else none
  | .page o v => if v < UPAGES then (m.leaf (R o) v).map PTE2PA else none

/-- The pages that `kinit` puts on the free list. -/
def Allocatable (img : Image) (pa : Nat) : Prop :=
  pa % PGSIZE = 0 ∧ img.kend ≤ pa ∧ pa < PHYSTOP

/-- Every allocatable page is in one place: a slot, the free list, or the hands of the
    kernel, which has `loose`. -/
structure Account (img : Image) (own : Slot → Option Nat) (loose : List Nat) (m : Mem) :
    Prop where
  exact : Exact own loose (fun pa => pa ∈ m.freelist) (Allocatable img)
  nodup : m.freelist.Nodup
  free : ∀ pa ∈ m.freelist, Allocatable img pa

/-- The page tables with the roots `R` and the trapframes account for every page, and the
    upper levels of page tables have no leaves. -/
structure Pages (img : Image) (R : Owner → Option Nat) (tf : Nat → Option Nat) (m : Mem)
    (loose : List Nat) : Prop extends Account img (own R tf m) loose m where
  upper : ∀ o path pa (i : Fin 512), path.length < 2 → m.table (R o) path = some pa →
    m.pte pa i &&& PTE_V ≠ 0 → m.pte pa i &&& (PTE_R ||| PTE_W ||| PTE_X) = 0

/-- A page that an operation on the page table of `o` has nothing to do with. -/
def Foreign (img : Image) (R : Owner → Option Nat) (tf : Nat → Option Nat) (o : Owner)
    (loose : List Nat) (m : Mem) (pa : Nat) : Prop :=
  (∃ s, ¬ s.Of o ∧ own R tf m s = some pa) ∨ pa ∈ loose ∨ ¬ Allocatable img pa

/-- From `m` to `m'` only the page table of `o` and what it maps have changed. -/
def Frame (img : Image) (R : Owner → Option Nat) (tf : Nat → Option Nat) (o : Owner)
    (loose : List Nat) (m m' : Mem) : Prop :=
  ∀ pa, Foreign img R tf o loose m pa → m'.page pa = m.page pa

/-! ### Loads and stores -/

section Entries

variable {m m' : Mem} {pa pb v : Nat} {r : Option Nat}

theorem Mem.setPage_page (m : Mem) (pa : Nat) (b : Bytes) :
    (m.setPage pa b).page = update m.page pa b := rfl

theorem Mem.pte_congr (h : m'.page pa = m.page pa) (i : Nat) : m'.pte pa i = m.pte pa i := by
  unfold Mem.pte
  rw [h]

theorem Mem.child_congr (h : m'.page pa = m.page pa) (i : Fin 512) :
    m'.child pa i = m.child pa i := by
  unfold Mem.child
  rw [Mem.pte_congr h]

theorem Mem.pte_setPte_self (m : Mem) (pa i : Nat) {e : Nat} (he : e < 2 ^ 64) :
    (m.setPte pa i e).pte pa i = e := by
  unfold Mem.pte Mem.setPte
  rw [Mem.setPage_page, update_self]
  exact getLE_putLE_of_lt _ he

theorem Mem.pte_setPte_index {i j : Nat} (hij : j ≠ i) (e : Nat) :
    (m.setPte pa i e).pte pa j = m.pte pa j := by
  unfold Mem.pte Mem.setPte
  rw [Mem.setPage_page, update_self]
  exact getLE_putLE_disjoint _ (by omega)

theorem Mem.page_setPte (hab : pb ≠ pa) (i e : Nat) : (m.setPte pa i e).page pb = m.page pb := by
  rw [Mem.setPte, Mem.setPage_page, update_of_ne hab]

theorem Mem.pte_zero (h : m.page pa = fun _ => 0) (i : Nat) : m.pte pa i = 0 := by
  unfold Mem.pte
  rw [h]
  simp [getLE]

theorem ifValid_zero : ifValid 0 = none := rfl

theorem ifValid_eq_some {pte e : Nat} : ifValid pte = some e ↔ pte = e ∧ e &&& PTE_V ≠ 0 := by
  unfold ifValid
  split
  · rename_i h
    simp only [Option.some.injEq]
    exact ⟨fun heq => ⟨heq, heq ▸ h⟩, fun heq => heq.1⟩
  · rename_i h
    simp only [reduceCtorEq, false_iff, not_and]
    rintro rfl
    exact h

theorem ifValid_eq_none {pte : Nat} : ifValid pte = none ↔ pte &&& PTE_V = 0 := by
  unfold ifValid
  split
  · rename_i h
    simp [h]
  · rename_i h
    simp only [ne_eq, not_not] at h
    simp [h]

theorem Mem.table_congr {n : Nat}
    (h : ∀ q a, q.length < n → m.table r q = some a → m'.page a = m.page a)
    {path : List (Fin 512)} (hp : path.length ≤ n) : m'.table r path = m.table r path :=
  node_congr (fun q a i hq ha => Mem.child_congr (h q a hq ha) i) hp

theorem Mem.leaf_congr
    (h : ∀ q a, q.length ≤ 2 → m.table r q = some a → m'.page a = m.page a) (v : Nat) :
    m'.leaf r v = m.leaf r v := by
  have htable : m'.table r (tablePath v) = m.table r (tablePath v) :=
    Mem.table_congr (n := 2) (fun q a hq => h q a (Nat.le_of_lt hq)) (by simp [tablePath])
  unfold Mem.leaf
  rw [htable]
  cases ht : m.table r (tablePath v) with
  | none => simp only [Option.bind_none]
  | some a => simp only [Option.bind_some, Mem.pte_congr (h _ a (by simp [tablePath]) ht)]

end Entries

/-! ### What an operation leaves alone -/

section Frame

variable {img : Image} {R : Owner → Option Nat} {tf : Nat → Option Nat} {o o' : Owner}
  {loose : List Nat} {m m' m'' : Mem} {pa v : Nat} {path : List (Fin 512)} {s : Slot}

theorem own_table (hp : path.length ≤ 2) :
    own R tf m (.table o path) = m.table (R o) path := if_pos hp

theorem own_page (hv : v < UPAGES) :
    own R tf m (.page o v) = (m.leaf (R o) v).map PTE2PA := if_pos hv

theorem own_congr (htable : ∀ o path, path.length ≤ 2 → m'.table (R o) path = m.table (R o) path)
    (hleaf : ∀ o v, m'.leaf (R o) v = m.leaf (R o) v) (s : Slot) :
    own R tf m' s = own R tf m s := by
  cases s with
  | trapframe p => simp only [own]
  | table o path =>
    simp only [own]
    split
    · rename_i hp
      exact htable o path hp
    · rfl
  | page o v => simp only [own, hleaf]

theorem Frame.table (hf : Frame img R tf o loose m m') (ho : o' ≠ o) (hp : path.length ≤ 2) :
    m'.table (R o') path = m.table (R o') path :=
  Mem.table_congr (fun q a hq ha => hf a (Or.inl ⟨.table o' q, ho, by
    rw [own_table (Nat.le_of_lt hq), ha]⟩)) hp

theorem Frame.leaf (hf : Frame img R tf o loose m m') (ho : o' ≠ o) (v : Nat) :
    m'.leaf (R o') v = m.leaf (R o') v :=
  Mem.leaf_congr (fun q a hq ha => hf a (Or.inl ⟨.table o' q, ho, by rw [own_table hq, ha]⟩)) v

theorem Frame.own (hf : Frame img R tf o loose m m') (hs : ¬ s.Of o) :
    own R tf m' s = own R tf m s := by
  cases s with
  | trapframe p => simp only [Vm.own]
  | table o' path =>
    simp only [Vm.own]
    split
    · rename_i hp
      exact hf.table hs hp
    · rfl
  | page o' v => simp only [Vm.own, hf.leaf hs]

theorem Frame.refl : Frame img R tf o loose m m := fun _ _ => rfl

theorem Frame.trans (h : Frame img R tf o loose m m') (h' : Frame img R tf o loose m' m'') :
    Frame img R tf o loose m m'' := by
  intro pa hpa
  have hpa' : Foreign img R tf o loose m' pa := by
    rcases hpa with ⟨s, hs, hown⟩ | hrest
    · exact Or.inl ⟨s, hs, (h.own hs).trans hown⟩
    · exact Or.inr hrest
  exact (h' pa hpa').trans (h pa hpa)

theorem Frame.weaken (h : Frame img R tf o (pa :: loose) m m') : Frame img R tf o loose m m' := by
  intro pb hpb
  refine h pb ?_
  rcases hpb with hown | hloose | hout
  · exact Or.inl hown
  · exact Or.inr (Or.inl (List.mem_cons_of_mem _ hloose))
  · exact Or.inr (Or.inr hout)

theorem Frame.of_page (pa : Nat) (h : ¬ Foreign img R tf o loose m pa)
    (hpages : ∀ pb, pb ≠ pa → m'.page pb = m.page pb) : Frame img R tf o loose m m' :=
  fun pb hpb => hpages pb fun heq => h (heq ▸ hpb)

theorem Allocatable.ne_zero (h : Allocatable img pa) : pa ≠ 0 := by
  have hlow := h.2.1
  have := img.trampoline_lt
  have hpos : 0 < PGSIZE := by decide
  omega

theorem Pages.not_foreign_of_own (h : Pages img R tf m loose) (hs : s.Of o)
    (hown : own R tf m s = some pa) : ¬ Foreign img R tf o loose m pa := by
  rintro (⟨t, ht, htown⟩ | hloose | hout)
  · exact ht (h.exact.once _ _ _ htown hown ▸ hs)
  · exact h.exact.apart pa hloose s hown
  · exact hout (h.exact.owned s pa hown)

theorem Pages.not_foreign_of_loose (h : Pages img R tf m (pa :: loose)) :
    ¬ Foreign img R tf o loose m pa := by
  rintro (⟨t, -, htown⟩ | hloose | hout)
  · exact h.exact.apart pa List.mem_cons_self t htown
  · exact (List.nodup_cons.mp h.exact.nodup).1 hloose
  · exact hout (h.exact.mem pa List.mem_cons_self)

theorem Pages.not_foreign_of_free (h : Pages img R tf m loose) (hfree : pa ∈ m.freelist) :
    ¬ Foreign img R tf o loose m pa := by
  rintro (⟨t, -, htown⟩ | hloose | hout)
  · exact h.exact.not_free_of_owned htown hfree
  · exact h.exact.not_free_of_loose hloose hfree
  · exact hout (h.free pa hfree)

/-- From `m` to `m'` the mappings are the same, and only the page table of `o` and what it
    maps have changed otherwise. -/
structure Keeps (img : Image) (R : Owner → Option Nat) (tf : Nat → Option Nat) (o : Owner)
    (loose : List Nat) (m m' : Mem) : Prop where
  frame : Frame img R tf o loose m m'
  leaf : ∀ o' v, m'.leaf (R o') v = m.leaf (R o') v

theorem Keeps.refl : Keeps img R tf o loose m m := ⟨Frame.refl, fun _ _ => rfl⟩

theorem Keeps.trans (h : Keeps img R tf o loose m m') (h' : Keeps img R tf o loose m' m'') :
    Keeps img R tf o loose m m'' :=
  ⟨h.frame.trans h'.frame, fun o' v => (h'.leaf o' v).trans (h.leaf o' v)⟩

theorem Pages.congr (h : Pages img R tf m loose) (m' : Mem) (hfree : m'.freelist = m.freelist)
    (hpages : ∀ o path a, path.length ≤ 2 → m.table (R o) path = some a → m'.page a = m.page a) :
    Pages img R tf m' loose ∧ ∀ o v, m'.leaf (R o) v = m.leaf (R o) v := by
  have htable : ∀ o path, path.length ≤ 2 → m'.table (R o) path = m.table (R o) path :=
    fun o path hp => Mem.table_congr (fun q a hq => hpages o q a (Nat.le_of_lt hq)) hp
  have hleaf : ∀ o v, m'.leaf (R o) v = m.leaf (R o) v :=
    fun o v => Mem.leaf_congr (fun q a hq => hpages o q a hq) v
  refine ⟨⟨⟨?_, by rw [hfree]; exact h.nodup, by rw [hfree]; exact h.free⟩, ?_⟩, hleaf⟩
  · exact h.exact.congr (own_congr htable hleaf) fun pa _ => by rw [hfree]
  · intro o path a i hp ha
    rw [htable o path (Nat.le_of_lt hp)] at ha
    rw [Mem.pte_congr (hpages o path a (Nat.le_of_lt hp) ha)]
    exact h.upper o path a i hp ha

theorem Pages.setPage (h : Pages img R tf m loose) (b : Bytes)
    (hpa : ∀ o path, own R tf m (.table o path) ≠ some pa) :
    Pages img R tf (m.setPage pa b) loose ∧
      ∀ o v, (m.setPage pa b).leaf (R o) v = m.leaf (R o) v :=
  h.congr _ rfl fun o path a hp ha => update_of_ne (fun heq => hpa o path (by
    rw [own_table hp, ha, heq])) _ _

theorem Pages.setLoose (h : Pages img R tf m (pa :: loose)) (b : Bytes) :
    Pages img R tf (m.setPage pa b) (pa :: loose) ∧
      Keeps img R tf o loose m (m.setPage pa b) := by
  obtain ⟨hp, hleaf⟩ := h.setPage b fun o path => h.exact.apart pa List.mem_cons_self _
  exact ⟨hp, Frame.of_page _ h.not_foreign_of_loose fun pb hne => update_of_ne hne _ _, hleaf⟩

theorem Pages.setMapped (h : Pages img R tf m loose) (b : Bytes)
    (hown : own R tf m (.page o v) = some pa) :
    Pages img R tf (m.setPage pa b) loose ∧ Keeps img R tf o loose m (m.setPage pa b) := by
  obtain ⟨hp, hleaf⟩ := h.setPage b fun o' path htable => by
    have honce := h.exact.once _ _ _ htable hown
    cases honce
  have hof : (Slot.page o v).Of o := rfl
  exact ⟨hp, Frame.of_page _ (h.not_foreign_of_own hof hown)
    fun pb hne => update_of_ne hne _ _, hleaf⟩

/-! ### Contents of user memory -/

theorem own_leaf {e : Nat} (hv : v < UPAGES) (he : m.leaf (R o) v = some e) :
    own R tf m (.page o v) = some (PTE2PA e) := by
  rw [own_page hv, he, Option.map_some]

/-- The virtual pages in `V` are mapped as in `m`, and hold what they held. -/
def Held (m m' : Mem) (r : Option Nat) (V : Nat → Prop) : Prop :=
  ∀ v < UPAGES, V v → ∀ e, m.leaf r v = some e →
    m'.leaf r v = some e ∧ m'.page (PTE2PA e) = m.page (PTE2PA e)

theorem Held.refl {r : Option Nat} {V : Nat → Prop} : Held m m r V :=
  fun _ _ _ _ he => ⟨he, rfl⟩

theorem Held.trans {r : Option Nat} {V : Nat → Prop} (h : Held m m' r V) (h' : Held m' m'' r V) :
    Held m m'' r V := by
  intro v hv hV e he
  obtain ⟨he', hpage⟩ := h v hv hV e he
  obtain ⟨he'', hpage'⟩ := h' v hv hV e he'
  exact ⟨he'', hpage'.trans hpage⟩

theorem Held.mono {r : Option Nat} {V V' : Nat → Prop} (h : Held m m' r V)
    (hV : ∀ v, V' v → V v) : Held m m' r V' :=
  fun v hv hv' e he => h v hv (hV v hv') e he

/-- Pages have been taken off the free list, for page tables perhaps: the mappings and user
    memory are the same. -/
structure Allocates (img : Image) (R : Owner → Option Nat) (tf : Nat → Option Nat) (o : Owner)
    (loose : List Nat) (m m' : Mem) : Prop extends Keeps img R tf o loose m m' where
  held : Held m m' (R o) fun _ => True
  free : ∀ a ∈ m'.freelist, a ∈ m.freelist

theorem Allocates.refl : Allocates img R tf o loose m m := ⟨Keeps.refl, Held.refl, fun _ ha => ha⟩

theorem Allocates.trans (h : Allocates img R tf o loose m m')
    (h' : Allocates img R tf o loose m' m'') : Allocates img R tf o loose m m'' :=
  ⟨h.toKeeps.trans h'.toKeeps, h.held.trans h'.held, fun a ha => h.free a (h'.free a ha)⟩

theorem Keeps.allocates (h : Keeps img R tf o loose m m') (hfree : ∀ a ∈ m'.freelist, a ∈ m.freelist)
    (hpa : ∀ v, own R tf m (.page o v) ≠ some pa) (hpages : ∀ pb, pb ≠ pa → m'.page pb = m.page pb) :
    Allocates img R tf o loose m m' := by
  refine ⟨h, fun v hv _ e he => ⟨(h.leaf o v).trans he, hpages _ fun heq => ?_⟩, hfree⟩
  exact hpa v (heq ▸ own_leaf hv he)

theorem Pages.setLoose_allocates (h : Pages img R tf m (pa :: loose)) (b : Bytes) :
    Pages img R tf (m.setPage pa b) (pa :: loose) ∧
      Allocates img R tf o loose m (m.setPage pa b) := by
  obtain ⟨hp, hkeeps⟩ := h.setLoose (o := o) b
  exact ⟨hp, hkeeps.allocates (fun _ ha => ha) (fun v => h.exact.apart pa List.mem_cons_self _)
    fun pb hne => update_of_ne hne _ _⟩

end Frame

end Xv6.Vm
