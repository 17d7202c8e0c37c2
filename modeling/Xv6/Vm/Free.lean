import Xv6.Vm.Range

/-!
# Building address spaces and taking them down

`freewalk` frees the tables below an entry before it clears the entry, so that between the
two the tree in memory leads to pages that are free.  Its specification speaks of the tree
as it was at the start, less the tables that are gone.
-/

namespace Xv6.Vm

open ByteView Hoare Ledger PtrTree Function

/-! ### `freewalk` -/

/-- The tables of `o` at and below a path. -/
def Under (o : Owner) (p : List (Fin 512)) : Slot → Prop
  | .table o' q => o' = o ∧ p <:+ q
  | _ => False

/-- The tables at and below a path, of `depth` levels at most, have no leaves. -/
def Bare (own : Slot → Option Nat) (m : Mem) (o : Owner) : Nat → List (Fin 512) → Nat → Prop
  | 0, _, _ => False
  | depth + 1, p, pa => own (.table o p) = some pa ∧ ∀ i : Fin 512,
      (m.pte pa i &&& PTE_V = 0 ∧ ∀ s, Under o (i :: p) s → own s = none) ∨
      (m.pte pa i &&& PTE_V ≠ 0 ∧ m.pte pa i &&& (PTE_R ||| PTE_W ||| PTE_X) = 0 ∧
        Bare own m o depth (i :: p) (PTE2PA (m.pte pa i)))

section Under

variable {o : Owner} {p : List (Fin 512)} {i j : Fin 512} {s : Slot}

theorem under_self : Under o p (.table o p) := ⟨rfl, List.suffix_refl p⟩

theorem Under.of (h : Under o p s) : s.Of o := by
  cases s with
  | table o' q => exact h.1
  | trapframe _ => exact h
  | page _ _ => exact h.elim

theorem not_under_cons_self : ¬ Under o (i :: p) (.table o p) := fun h => by
  have := h.2.length_le
  simp at this

theorem Under.tail (h : Under o (i :: p) s) : Under o p s := by
  cases s with
  | table o' q => exact ⟨h.1, (List.suffix_cons i p).trans h.2⟩
  | trapframe _ => exact h
  | page _ _ => exact h

theorem Under.index_eq (hi : Under o (i :: p) s) (hj : Under o (j :: p) s) : i = j := by
  cases s with
  | table o' q =>
    have hsuffix := List.suffix_of_suffix_length_le hi.2 hj.2 (Nat.le_refl _)
    exact (List.cons.inj (hsuffix.eq_of_length rfl)).1
  | trapframe _ => exact hi.elim
  | page _ _ => exact hi.elim

theorem under_iff : Under o p s ↔ s = .table o p ∨ ∃ i, Under o (i :: p) s := by
  constructor
  · intro h
    cases s with
    | table o' q =>
      obtain ⟨rfl, t, rfl⟩ := h
      rcases List.eq_nil_or_concat t with rfl | ⟨t', i, rfl⟩
      · exact Or.inl rfl
      · exact Or.inr ⟨i, rfl, t', by simp⟩
    | trapframe _ => exact h.elim
    | page _ _ => exact h.elim
  · rintro (rfl | ⟨i, h⟩)
    · exact under_self
    · exact h.tail

end Under

section Freewalk

variable {img : Image} {own₀ : Slot → Option Nat} {o : Owner} {loose : List Nat} {m₀ : Mem}
  {E : Panic → Prop}

theorem wp_kfree_slot {gone : Slot → Prop} {s : Slot} {pa : Nat} {m : Mem}
    (h : Account img (without own₀ gone) loose m) (hs : own₀ s = some pa) (hgone : ¬ gone s) :
    wp (kfree img pa) E (fun _ m' => Account img (without own₀ fun t => gone t ∨ t = s) loose m' ∧
      ∀ pb, pb ≠ pa → m'.page pb = m.page pb) m := by
  have htake : Account img (without own₀ fun t => gone t ∨ t = s) (pa :: loose) m :=
    ⟨h.exact.take_without hs hgone, h.nodup, h.free⟩
  refine wp_mono (wp_kfree (htake.exact.mem pa List.mem_cons_self)) fun _ m' hm' => ?_
  subst hm'
  exact ⟨htake.freed, fun pb hne => Mem.page_freed hne⟩

/-- What holds in the loop of `freewalk` at entry `j` of the table `pa` at `p`: the tables
    below the entries before are gone, and those below the others, with their entries, are as
    at the start. -/
structure Freeing (img : Image) (own₀ : Slot → Option Nat) (gone : Slot → Prop) (o : Owner)
    (loose : List Nat) (p : List (Fin 512)) (pa : Nat) (m₀ m : Mem) (j : Nat) (t : Mem) :
    Prop where
  account : Account img (without own₀ fun s => gone s ∨ ∃ i : Fin 512, i < j ∧ Under o (i :: p) s)
    loose t
  page : ∀ pb, (∀ s, Under o p s → own₀ s ≠ some pb) → t.page pb = m.page pb
  entry : ∀ i : Fin 512, j ≤ i → t.pte pa i = m₀.pte pa i
  below : ∀ i : Fin 512, j ≤ i → ∀ s pb, Under o (i :: p) s → own₀ s = some pb →
    t.page pb = m₀.page pb

theorem Freeing.skip {gone : Slot → Prop} {p : List (Fin 512)} {pa : Nat} {m t : Mem}
    {j : Fin 512} (h : Freeing img own₀ gone o loose p pa m₀ m j t)
    (hnone : ∀ s, Under o (j :: p) s → own₀ s = none) :
    Freeing img own₀ gone o loose p pa m₀ m (j + 1) t := by
  refine ⟨?_, h.page, fun i hi => h.entry i (by omega), fun i hi => h.below i (by omega)⟩
  have haccount := h.account
  rwa [without_congr fun s hs => ?_] at haccount
  constructor
  · rintro (hg | ⟨i, hi, hu⟩)
    · exact Or.inl hg
    · exact Or.inr ⟨i, by omega, hu⟩
  · rintro (hg | ⟨i, hi, hu⟩)
    · exact Or.inl hg
    · refine Or.inr ⟨i, Nat.lt_of_le_of_ne (by omega) fun heq => ?_, hu⟩
      exact hs (hnone s (Fin.ext heq ▸ hu))

theorem Freeing.clear {gone : Slot → Prop} {p : List (Fin 512)} {pa : Nat} {m t t' : Mem}
    {j : Fin 512} (honce : ∀ s s' r, own₀ s = some r → own₀ s' = some r → s = s')
    (h : Freeing img own₀ gone o loose p pa m₀ m j t) (hpa : own₀ (.table o p) = some pa)
    (haccount : Account img (without own₀ fun s =>
      (gone s ∨ ∃ i : Fin 512, i < (j : Nat) ∧ Under o (i :: p) s) ∨ Under o (j :: p) s) loose t')
    (hpage : ∀ pb, (∀ s, Under o (j :: p) s → own₀ s ≠ some pb) → t'.page pb = t.page pb) :
    Freeing img own₀ gone o loose p pa m₀ m (j + 1) (t'.setPte pa j 0) := by
  have hapart : ∀ s, Under o (j :: p) s → own₀ s ≠ some pa := fun s hs heq =>
    not_under_cons_self (honce _ _ _ heq hpa ▸ hs)
  refine ⟨?_, fun pb hpb => ?_, fun i hi => ?_, fun i hi s pb hs hpb => ?_⟩
  · have hgone : ∀ s, ((gone s ∨ ∃ i : Fin 512, i < (j : Nat) ∧ Under o (i :: p) s) ∨
        Under o (j :: p) s) ↔ gone s ∨ ∃ i : Fin 512, i < (j : Nat) + 1 ∧ Under o (i :: p) s := by
      intro s
      rw [or_assoc]
      refine or_congr_right ⟨?_, ?_⟩
      · rintro (⟨i, hi, hs⟩ | hs)
        · exact ⟨i, by omega, hs⟩
        · exact ⟨j, by omega, hs⟩
      · rintro ⟨i, hi, hs⟩
        rcases Nat.lt_succ_iff_lt_or_eq.mp hi with hlt | heq
        · exact Or.inl ⟨i, hlt, hs⟩
        · exact Or.inr (Fin.ext heq ▸ hs)
    rw [without_congr fun s _ => hgone s] at haccount
    exact ⟨haccount.exact, haccount.nodup, haccount.free⟩
  · have hne : pb ≠ pa := fun heq => hpb _ under_self (heq ▸ hpa)
    rw [Mem.page_setPte hne, hpage pb fun s hs => hpb s hs.tail, h.page pb hpb]
  · rw [Mem.pte_setPte_index (by omega), Mem.pte_congr (hpage pa hapart), h.entry i (by omega)]
  · have hne : pb ≠ pa := fun heq => not_under_cons_self (honce _ _ _ (heq ▸ hpb) hpa ▸ hs)
    rw [Mem.page_setPte hne, hpage pb fun s' hs' heq => ?_, h.below i (by omega) s pb hs hpb]
    have hij := (honce _ _ _ heq hpb ▸ hs').index_eq hs
    omega

/-- **`freewalk`** frees the tables of a tree that has no leaves, and no other page. -/
theorem wp_freewalk (honce : ∀ s s' r, own₀ s = some r → own₀ s' = some r → s = s') (depth : Nat)
    {p : List (Fin 512)} {pa : Nat} {gone : Slot → Prop} {m : Mem}
    (hbare : Bare own₀ m₀ o depth p pa) (h : Account img (without own₀ gone) loose m)
    (hpresent : ∀ s, Under o p s → ¬ gone s)
    (hsame : ∀ s pb, Under o p s → own₀ s = some pb → m.page pb = m₀.page pb) :
    wp (freewalk img depth pa) E (fun _ m' =>
      Account img (without own₀ fun s => gone s ∨ Under o p s) loose m' ∧
      ∀ pb, (∀ s, Under o p s → own₀ s ≠ some pb) → m'.page pb = m.page pb) m := by
  induction depth generalizing p pa gone m with
  | zero => exact hbare.elim
  | succ depth ih =>
    obtain ⟨hpa, hentries⟩ := hbare
    rw [freewalk, wp_bind]
    refine wp_forRange (I := Freeing img own₀ gone o loose p pa m₀ m) 512 ?_ ?_ ?_
    · refine ⟨?_, fun _ _ => rfl, fun i _ => Mem.pte_congr (hsame _ _ under_self hpa) i,
        fun i _ s pb hs => hsame s pb hs.tail⟩
      rwa [without_congr fun s _ => ?_]
      simp
    · intro k t _ hk hfreeing
      obtain ⟨j, rfl⟩ : ∃ j : Fin 512, (j : Nat) = k := ⟨⟨k, by omega⟩, rfl⟩
      simp only [wp_bind, loadPte, wp_get, wp_pure, hfreeing.entry j (Nat.le_refl _)]
      rcases hentries j with ⟨hinvalid, hnone⟩ | ⟨hvalid, hupper, hbelow⟩
      · rw [if_neg fun hand => hand.1 hinvalid, if_neg (not_not.mpr hinvalid)]
        exact hfreeing.skip hnone
      · rw [if_pos ⟨hvalid, hupper⟩, wp_bind]
        refine wp_mono (ih hbelow hfreeing.account ?_ ?_) ?_
        · rintro s hs (hg | ⟨i, hi, hu⟩)
          · exact hpresent s hs.tail hg
          · have hij := hu.index_eq hs
            omega
        · exact hfreeing.below j (Nat.le_refl _)
        · rintro _ t' ⟨haccount, hpage⟩
          exact hfreeing.clear honce hpa haccount hpage
    · intro t hfreeing
      have hself : ¬ (gone (.table o p) ∨
          ∃ i : Fin 512, (i : Nat) < 0 + 512 ∧ Under o (i :: p) (.table o p)) := by
        rintro (hg | ⟨i, -, hu⟩)
        · exact hpresent _ under_self hg
        · exact not_under_cons_self hu
      refine wp_mono (wp_kfree_slot hfreeing.account hpa hself) ?_
      rintro _ t' ⟨haccount, hpage⟩
      refine ⟨?_, fun pb hpb => ?_⟩
      · rwa [without_congr fun s _ => ?_] at haccount
        rw [under_iff, or_assoc]
        refine or_congr_right ⟨?_, ?_⟩
        · rintro (⟨i, -, hu⟩ | heq)
          · exact Or.inr ⟨i, hu⟩
          · exact Or.inl heq
        · rintro (heq | ⟨i, hu⟩)
          · exact Or.inr heq
          · exact Or.inl ⟨i, by omega, hu⟩
      · rw [hpage pb fun heq => hpb _ under_self (heq ▸ hpa), hfreeing.page pb hpb]

end Freewalk

/-! ### Roots -/

section Roots

variable {img : Image} {R : Owner → Option Nat} {tf : Nat → Option Nat} {o : Owner}
  {loose : List Nat} {m m' : Mem} {root pa : Nat} {E : Panic → Prop}

theorem exists_page (i j k : Fin 512) : ∃ v < VPAGES, ix 0 v = i ∧ tablePath v = [j, k] := by
  refine ⟨k * 2 ^ 18 + j * 2 ^ 9 + i, ?_, ?_, ?_⟩
  · rw [show VPAGES = 2 ^ 27 from rfl]
    omega
  · simp only [ix, Fin.ext_iff]
    omega
  · simp only [tablePath, ix, List.cons.injEq, and_true, Fin.ext_iff]
    omega

theorem Pages.bare (h : Pages img R tf m loose) (hno : ∀ w < VPAGES, m.leaf (R o) w = none)
    (depth : Nat) {p : List (Fin 512)} (hlen : p.length + depth = 2)
    (hp : m.table (R o) p = some pa) : Bare (own R tf m) m o (depth + 1) p pa := by
  induction depth generalizing p pa with
  | zero =>
    refine ⟨(own_table (by omega)).trans hp, fun i => Or.inl ⟨?_, fun s hs => ?_⟩⟩
    · obtain ⟨j, k, rfl⟩ := List.length_eq_two.mp hlen
      obtain ⟨v, hv, hi, hpath⟩ := exists_page i j k
      have hleaf := hno v hv
      rwa [leaf_eq_ifValid (hpath ▸ hp), ifValid_eq_none, hi] at hleaf
    · -- there is no fourth level
      cases s with
      | table o' q =>
        have hq := hs.2.length_le
        rw [List.length_cons] at hq
        exact if_neg (by omega)
      | trapframe _ => exact hs.elim
      | page _ _ => exact hs.elim
  | succ depth ih =>
    refine ⟨(own_table (by omega)).trans hp, fun i => ?_⟩
    have hchild := table_cons (i := i) hp
    unfold Mem.child at hchild
    by_cases hvalid : m.pte pa i &&& PTE_V = 0
    · rw [if_neg (not_not.mpr hvalid)] at hchild
      refine Or.inl ⟨hvalid, fun s hs => ?_⟩
      cases s with
      | table o' q =>
        obtain ⟨rfl, hq⟩ := hs
        simp only [own]
        split
        · exact node_none_of_suffix hchild hq
        · rfl
      | trapframe _ => exact hs.elim
      | page _ _ => exact hs.elim
    · rw [if_pos hvalid] at hchild
      exact Or.inr ⟨hvalid, h.upper o p pa i (by omega) hp hvalid,
        ih (by rw [List.length_cons]; omega) hchild⟩

theorem leaf_root_none (v : Nat) : m.leaf none v = none :=
  leaf_none_of_table (node_root_none _)

theorem own_update_root (r : Option Nat) {s : Slot} (hs : ¬ s.Of o) :
    own (update R o r) tf m s = own R tf m s := by
  cases s with
  | trapframe p => simp only [own]
  | table o' path => simp only [own, update_of_ne hs]
  | page o' v => simp only [own, update_of_ne hs]

theorem own_root_none {s : Slot} (hR : R o = none) (hs : s.Of o) : own R tf m s = none := by
  cases s with
  | trapframe p => exact hs.elim
  | table o' path =>
    obtain rfl : o' = o := hs
    have hnode : m.table none path = none := node_root_none path
    simp only [own, hR, hnode, ite_self]
  | page o' v =>
    obtain rfl : o' = o := hs
    simp only [own, hR, leaf_root_none, Option.map_none, ite_self]

theorem Frame.of_update_root {r : Option Nat}
    (h : Frame img (update R o r) tf o loose m m') : Frame img R tf o loose m m' := by
  rintro pa (⟨s, hs, hown⟩ | hrest)
  · exact h pa (Or.inl ⟨s, hs, (own_update_root r hs).trans hown⟩)
  · exact h pa (Or.inr hrest)

/-- **`freewalk`** takes down a page table that maps nothing. -/
theorem wp_freewalk_root (h : Pages img R tf m loose) (hroot : R o = some root)
    (hno : ∀ w < VPAGES, m.leaf (R o) w = none) :
    wp (freewalk img 3 root) E (fun _ m' => Frame img R tf o loose m m' ∧
      Pages img (update R o none) tf m' loose) m := by
  have hwithout : without (own R tf m) (fun _ => False) = own R tf m :=
    funext fun s => without_of_not_gone not_false
  have hstart : Account img (without (own R tf m) fun _ => False) loose m := by
    rw [hwithout]
    exact h.toAccount
  refine wp_mono (wp_freewalk h.exact.once 3 (h.bare (p := []) hno 2 rfl hroot) hstart
    (fun _ _ => not_false) fun _ _ _ _ => rfl) fun _ m' ⟨haccount, hpage⟩ => ?_
  simp only [false_or] at haccount
  have hframe : Frame img R tf o loose m m' := by
    exact fun pa hforeign => hpage pa fun s hs hown =>
      h.not_foreign_of_own hs.of hown hforeign
  have hown : ∀ s, own (update R o none) tf m' s =
      without (own R tf m) (Under o []) s := by
    intro s
    by_cases hs : s.Of o
    · rw [own_root_none (update_self ..) hs]
      cases s with
      | trapframe p => exact hs.elim
      | table o' q =>
        have hgone : Under o [] (.table o' q) := ⟨hs, List.nil_suffix⟩
        rw [without_of_gone hgone]
      | page o' v =>
        obtain rfl : o' = o := hs
        have hpresent : ¬ Under o' [] (.page o' v) := not_false
        rw [without_of_not_gone hpresent]
        simp only [own]
        split
        · rename_i hv
          rw [hno v (Nat.lt_trans hv UPAGES_lt_VPAGES), Option.map_none]
        · rfl
    · have hpresent : ¬ Under o [] s := fun hu => hs hu.of
      rw [own_update_root _ hs, hframe.own hs, without_of_not_gone hpresent]
  refine ⟨hframe, ⟨haccount.exact.congr hown fun _ _ => Iff.rfl, haccount.nodup, haccount.free⟩, ?_⟩
  intro o' path a i hlen ha
  by_cases ho : o' = o
  · subst ho
    rw [update_self] at ha
    cases (node_root_none path).symm.trans ha
  · rw [update_of_ne ho, hframe.table ho (Nat.le_of_lt hlen)] at ha
    have hsame : m'.page a = m.page a :=
      hframe a (Or.inl ⟨.table o' path, ho, (own_table (Nat.le_of_lt hlen)).trans ha⟩)
    rw [Mem.pte_congr hsame]
    exact h.upper o' path a i hlen ha

theorem Pages.newRoot (h : Pages img R tf m (pa :: loose)) (hblank : m.page pa = fun _ => 0)
    (hR : R o = none) : Pages img (update R o (some pa)) tf m loose ∧
      ∀ w, m.leaf (some pa) w = none := by
  have hchild : ∀ i, m.child pa i = none := fun i => by
    unfold Mem.child
    rw [Mem.pte_zero hblank]
    rfl
  have hnode : ∀ q, q ≠ [] → m.table (some pa) q = none := by
    intro q hq
    obtain ⟨t, i, rfl⟩ := List.eq_nil_or_concat q |>.resolve_left hq
    exact node_none_of_suffix (p := [i]) ((node_cons rfl).trans (hchild i)) ⟨t, by simp⟩
  have hleaf : ∀ w, m.leaf (some pa) w = none := fun w =>
    leaf_none_of_table (hnode _ (by simp [tablePath]))
  have hself : update R o (some pa) o = some pa := update_self ..
  refine ⟨⟨⟨h.exact.assign (s := .table o []) (own_root_none hR rfl) ?_ fun s hs => ?_, h.nodup,
    h.free⟩, ?_⟩, hleaf⟩
  · rw [own_table (Nat.zero_le _), hself]
    rfl
  · by_cases hof : s.Of o
    · rw [own_root_none hR hof]
      cases s with
      | trapframe p => exact hof.elim
      | table o' q =>
        obtain rfl : o' = o := hof
        have hq : q ≠ [] := fun heq => hs (heq ▸ rfl)
        simp only [own, hself, hnode q hq, ite_self]
      | page o' v =>
        obtain rfl : o' = o := hof
        simp only [own, hself, hleaf, Option.map_none, ite_self]
    · exact own_update_root _ hof
  · intro o' path a i hlen ha hvalid
    by_cases ho : o' = o
    · subst ho
      rw [hself] at ha
      have hpath : path = [] := by
        by_contra hne
        cases (hnode path hne).symm.trans ha
      subst hpath
      obtain rfl : pa = a := Option.some.inj ha
      rw [Mem.pte_zero hblank] at hvalid
      exact absurd rfl hvalid
    · rw [update_of_ne ho] at ha
      exact h.upper o' path a i hlen ha hvalid

/-- The slot of another owner. -/
def Slot.mapOwner (f : Owner → Owner) : Slot → Slot
  | .trapframe p => .trapframe p
  | .table o path => .table (f o) path
  | .page o v => .page (f o) v

/-- Page tables change hands. -/
theorem Pages.relabel (h : Pages img R tf m loose) {f : Owner → Owner} (hf : ∀ o, f (f o) = o) :
    Pages img (fun o => R (f o)) tf m loose := by
  refine ⟨⟨?_, h.nodup, h.free⟩, fun o => h.upper (f o)⟩
  refine (h.exact.relabel (f := Slot.mapOwner f) fun s => ?_).congr (fun s => ?_) fun _ _ => Iff.rfl
  · cases s <;> simp [Slot.mapOwner, hf]
  · cases s <;> simp only [own, Slot.mapOwner]

theorem own_update_tf {p : Nat} (r : Option Nat) {s : Slot} (hs : s ≠ .trapframe p) :
    own R (update tf p r) m s = own R tf m s := by
  cases s with
  | trapframe q =>
    have hq : q ≠ p := fun heq => hs (heq ▸ rfl)
    simp only [own, update_of_ne hq]
  | table o' path => simp only [own]
  | page o' v => simp only [own]

theorem Pages.takeTrapframe {p : Nat} (h : Pages img R tf m loose) (htf : tf p = some pa) :
    Pages img R (update tf p none) m (pa :: loose) :=
  ⟨⟨h.exact.take (s := .trapframe p) htf (update_self ..) fun _ hs => own_update_tf _ hs,
    h.nodup, h.free⟩, h.upper⟩

theorem Pages.putTrapframe {p : Nat} (h : Pages img R tf m (pa :: loose)) (htf : tf p = none) :
    Pages img R (update tf p (some pa)) m loose :=
  ⟨⟨h.exact.assign (s := .trapframe p) htf (update_self ..) fun _ hs => own_update_tf _ hs,
    h.nodup, h.free⟩, h.upper⟩

end Roots

/-! ### Address spaces of processes -/

/-- User memory is the first `sz` bytes, rounded up to whole pages, and the trapframe and the
    trampoline are at the top, out of the user's reach. -/
structure AddressSpace (img : Image) (m : Mem) (r : Option Nat) (trapframe sz : Nat) : Prop where
  size : sz ≤ TRAPFRAME
  mapped : Mapped m r (npages sz)
  trapframe : m.leaf r UPAGES = some (PA2PTE trapframe ||| (PTE_R ||| PTE_W) ||| PTE_V)
  trampoline : m.leaf r (UPAGES + 1) =
    some (PA2PTE img.trampoline ||| (PTE_R ||| PTE_X) ||| PTE_V)
  upper : ∀ w, UPAGES + 1 < w → w < VPAGES → m.leaf r w = none

section AddressSpace

variable {img : Image} {R : Owner → Option Nat} {tf : Nat → Option Nat} {o : Owner}
  {loose : List Nat} {m m' : Mem} {root trapframe sz : Nat} {E : Panic → Prop}

theorem AddressSpace.congr {r : Option Nat} (h : AddressSpace img m r trapframe sz)
    (hleaf : ∀ w < VPAGES, m'.leaf r w = m.leaf r w) : AddressSpace img m' r trapframe sz := by
  refine ⟨h.size, fun w hw => ?_, ?_, ?_, fun w hw hwV => ?_⟩
  · rw [hleaf w (Nat.lt_trans hw UPAGES_lt_VPAGES)]
    exact h.mapped w hw
  · rw [hleaf _ UPAGES_lt_VPAGES, h.trapframe]
  · rw [hleaf _ (by decide), h.trampoline]
  · rw [hleaf w hwV, h.upper w hw hwV]

theorem AddressSpace.resize {r : Option Nat} {sz' : Nat} (h : AddressSpace img m r trapframe sz)
    (hsz : sz' ≤ TRAPFRAME) (hmapped : Mapped m' r (npages sz'))
    (hleaf : ∀ w, UPAGES ≤ w → w < VPAGES → m'.leaf r w = m.leaf r w) :
    AddressSpace img m' r trapframe sz' := by
  refine ⟨hsz, hmapped, ?_, ?_, fun w hw hwV => ?_⟩
  · rw [hleaf _ (Nat.le_refl _) UPAGES_lt_VPAGES, h.trapframe]
  · rw [hleaf _ (Nat.le_succ _) (by decide), h.trampoline]
  · rw [hleaf w (by omega) hwV, h.upper w hw hwV]

theorem AddressSpace.succ {r : Option Nat} {n e : Nat}
    (h : AddressSpace img m r trapframe (n * PGSIZE)) (hn : n < UPAGES)
    (hleaf : ∀ w < VPAGES, m'.leaf r w = if w = n then some e else m.leaf r w) :
    AddressSpace img m' r trapframe ((n + 1) * PGSIZE) := by
  have hP : PGSIZE = 4096 := rfl
  have hU : UPAGES = 2 ^ 26 - 2 := rfl
  have hT : TRAPFRAME = (2 ^ 26 - 2) * 4096 := rfl
  have hsz : (n + 1) * PGSIZE ≤ TRAPFRAME := by
    rw [hP]
    omega
  have hpages : ∀ k, k ≤ UPAGES → npages (k * PGSIZE) = k := by
    intro k hk
    rw [npages_eq _ (by rw [hP]; omega), hP]
    omega
  refine h.resize hsz (fun w hw => ?_) fun w hw hwV => ?_
  · rw [hleaf w (Nat.lt_trans hw UPAGES_lt_VPAGES), hpages _ hn]
    split
    · rename_i heq
      simp only [ne_eq, reduceCtorEq, not_false_eq_true, true_iff]
      omega
    · rw [h.mapped w hw, hpages _ (Nat.le_of_lt hn)]
      omega
  · rw [hleaf w hwV, if_neg (by omega)]

theorem AddressSpace.noUser {r : Option Nat} (h : AddressSpace img m r trapframe sz) :
    NoUser m r := by
  intro w hw hwV e he
  by_cases htf : w = UPAGES
  · rw [htf, h.trapframe] at he
    rw [← Option.some.inj he, entry_and (by decide)]
    decide
  by_cases htr : w = UPAGES + 1
  · rw [htr, h.trampoline] at he
    rw [← Option.some.inj he, entry_and (by decide)]
    decide
  · rw [h.upper w (by omega) hwV] at he
    cases he

theorem wp_mapNext (n pa perm : Nat) (h : Pages img R tf m (pa :: loose)) (hroot : R o = some root)
    (hspace : AddressSpace img m (R o) trapframe (n * PGSIZE)) (hn : n < UPAGES)
    (hperm : perm < 2 ^ 10) :
    wp (mappages root (n * PGSIZE) PGSIZE pa perm) E (fun r m' => r = 0 →
      Frame img R tf o loose m m' ∧ Pages img R tf m' loose ∧
        AddressSpace img m' (R o) trapframe ((n + 1) * PGSIZE)) m := by
  have hU : UPAGES = 2 ^ 26 - 2 := rfl
  have hpages : npages (n * PGSIZE) = n := by
    rw [npages_eq _ (by rw [show PGSIZE = 4096 from rfl]; omega), show PGSIZE = 4096 from rfl]
    omega
  have hnone : m.leaf (R o) n = none := by
    by_contra hne
    have := (hspace.mapped n hn).mp hne
    omega
  refine wp_mono (wp_mappages h hroot hn hnone hperm) fun r m' ⟨hframe, hpost⟩ hr => ?_
  rcases hpost with ⟨rfl, -⟩ | ⟨-, hp', hleaf⟩
  · exact absurd hr (by decide)
  · exact ⟨hframe, hp', hspace.succ hn hleaf⟩

/-- **`uvmfirst`** maps one page. -/
theorem wp_uvmfirst (h : Pages img R tf m loose) (hroot : R o = some root)
    (hspace : AddressSpace img m (R o) trapframe 0) (src : Nat → UInt8) (hsz : sz ≤ PGSIZE)
    (hkalloc : E .uvmfirstKalloc) (hmap : E .uvmfirstMappages) :
    wp (uvmfirst root src sz) E (fun _ m' => Frame img R tf o loose m m' ∧
      Pages img R tf m' loose ∧ AddressSpace img m' (R o) trapframe PGSIZE) m := by
  simp only [uvmfirst, if_neg (Nat.not_lt.mpr hsz), wp_bind]
  refine wp_mono (wp_kalloc o h) ?_
  rintro r m₁ ⟨hkeeps₁, _, hr⟩
  cases r with
  | none => exact hkalloc
  | some mem =>
    simp only [wp_bind, memset, wp_modify]
    obtain ⟨hp₂, hkeeps₂⟩ := hr.setLoose (o := o) fun _ => 0
    obtain ⟨hp₃, hkeeps₃⟩ := hp₂.setLoose (o := o)
      (splice ((m₁.setPage mem fun _ => 0).page mem) 0 sz src)
    have hkeeps := (hkeeps₁.trans hkeeps₂).trans hkeeps₃
    have hspace₃ := hspace.congr fun w _ => hkeeps.leaf o w
    generalize (m₁.setPage mem _).setPage mem _ = m₃ at hp₃ hkeeps hspace₃
    rw [← Nat.zero_mul PGSIZE] at hspace₃
    have hmapped := wp_mapNext (E := E) 0 mem (PTE_R ||| PTE_W ||| PTE_X ||| PTE_U) hp₃ hroot
      hspace₃ (by decide) (by decide)
    rw [Nat.zero_mul] at hmapped
    refine wp_mono hmapped fun r m' hpost => ?_
    split
    · exact hmap
    · rename_i hr'
      obtain ⟨hframe, hp', hspace'⟩ := hpost (not_not.mp hr')
      rw [Nat.zero_add, Nat.one_mul] at hspace'
      exact ⟨hkeeps.frame.trans hframe, hp', hspace'⟩

/-- **`uvmfree`** takes down a page table with user memory only. -/
theorem wp_uvmfree (h : Pages img R tf m loose) (hroot : R o = some root) (hsz : sz ≤ TRAPFRAME)
    (hm : Mapped m (R o) (npages sz))
    (hupper : ∀ w, UPAGES ≤ w → w < VPAGES → m.leaf (R o) w = none) :
    wp (uvmfree img root sz) E (fun _ m' => Frame img R tf o loose m m' ∧
      Pages img (update R o none) tf m' loose) m := by
  have hT : TRAPFRAME = (2 ^ 26 - 2) * 4096 := rfl
  have hU : UPAGES = 2 ^ 26 - 2 := rfl
  have hM : MAXVPN = 2 ^ 26 := rfl
  have hn := npages_eq sz (by omega)
  have hno : ∀ w < VPAGES, ¬ w < npages sz → m.leaf (R o) w = none := by
    intro w hwV hw
    by_cases hwU : w < UPAGES
    · by_contra hne
      exact hw ((hm w hwU).mp hne)
    · exact hupper w (Nat.not_lt.mp hwU) hwV
  simp only [uvmfree]
  split
  · rw [wp_bind]
    have hunmap := wp_uvmunmap (E := E) 0 (npages sz) true h hroot (by omega) fun w _ hw => by
      simp only [true_iff]
      omega
    rw [Nat.zero_mul] at hunmap
    refine wp_mono hunmap fun _ t ⟨hframe, hpages, hleaf⟩ => ?_
    refine wp_mono (wp_freewalk_root hpages hroot fun w hw => ?_) fun _ t' ⟨hframe', hpages'⟩ =>
      ⟨hframe.trans hframe', hpages'⟩
    rw [hleaf w hw]
    split
    · rfl
    · exact hno w hw (by omega)
  · exact wp_freewalk_root h hroot fun w hw => hno w hw (by omega)

/-- **`proc_freepagetable`** takes down the address space of a process. -/
theorem wp_procFreepagetable (h : Pages img R tf m loose) (hroot : R o = some root)
    (hspace : AddressSpace img m (R o) trapframe sz) :
    wp (procFreepagetable img root sz) E (fun _ m' => Frame img R tf o loose m m' ∧
      Pages img (update R o none) tf m' loose) m := by
  have hU : UPAGES = 2 ^ 26 - 2 := rfl
  have hM : MAXVPN = 2 ^ 26 := rfl
  have hunmap : ∀ {t : Mem} (v : Nat), Pages img R tf t loose → UPAGES ≤ v → v < MAXVPN → _ :=
    fun {t} v hp hv hvM => wp_uvmunmap (E := E) v 1 false hp hroot (by omega) fun w hw _ => by
      simp only [Bool.false_eq_true, false_iff]
      omega
  simp only [procFreepagetable, wp_bind]
  refine wp_mono (hunmap (UPAGES + 1) h (by omega) (by omega)) ?_
  rintro _ m₁ ⟨hf₁, hp₁, hl₁⟩
  refine wp_mono (hunmap UPAGES hp₁ (Nat.le_refl _) (by omega)) ?_
  rintro _ m₂ ⟨hf₂, hp₂, hl₂⟩
  refine wp_mono (wp_uvmfree hp₂ hroot hspace.size (fun w hw => ?_) fun w hw hwV => ?_)
    fun _ m₃ hfreed => ⟨(hf₁.trans hf₂).trans hfreed.1, hfreed.2⟩
  · have hwV := Nat.lt_trans hw UPAGES_lt_VPAGES
    rw [hl₂ w hwV, if_neg (by omega), hl₁ w hwV, if_neg (by omega)]
    exact hspace.mapped w hw
  · rw [hl₂ w hwV]
    split
    · rfl
    rw [hl₁ w hwV]
    split
    · rfl
    exact hspace.upper w (by omega) hwV

/-- **`proc_pagetable`** makes an address space without user memory, or changes nothing. -/
theorem wp_procPagetable (h : Pages img R tf m loose) (hR : R o = none)
    (htf : trapframe < 2 ^ 56) :
    wp (procPagetable img trapframe) E (fun r m' => Frame img R tf o loose m m' ∧ match r with
      | none => Pages img R tf m' loose
      | some root => Pages img (update R o (some root)) tf m' loose ∧
          AddressSpace img m' (some root) trapframe 0) m := by
  have hU : UPAGES = 2 ^ 26 - 2 := rfl
  have hM : MAXVPN = 2 ^ 26 := rfl
  have htr := img.trampoline_lt_pow
  simp only [procPagetable, uvmcreate, wp_bind]
  refine wp_mono (wp_kalloc o h) ?_
  rintro res m₁ ⟨hkeeps₁, _, hres⟩
  cases res with
  | none => exact ⟨hkeeps₁.frame, hres⟩
  | some root =>
    simp only [wp_bind, memset, wp_modify, wp_pure]
    obtain ⟨hblank, hkeeps₂⟩ := hres.setLoose (o := o) fun _ => 0
    have hf₂ := hkeeps₁.frame.trans hkeeps₂.frame
    obtain ⟨hp₂, hleaf₂⟩ := hblank.newRoot (update_self ..) hR
    generalize m₁.setPage root (fun _ => 0) = m₂ at hf₂ hp₂ hleaf₂
    have hroot : update R o (some root) o = some root := update_self ..
    -- what is left to do when a mapping has failed
    have hundo : ∀ {t : Mem}, Frame img R tf o loose m t →
        Pages img (update R o (some root)) tf t loose →
        (∀ w < VPAGES, t.leaf (some root) w = none) →
        wp (uvmfree img root 0) E (fun _ m' => Frame img R tf o loose m m' ∧
          Pages img R tf m' loose) t := by
      intro t hft hpt hno
      refine wp_mono (wp_uvmfree hpt hroot (Nat.zero_le _) (fun w hw => ?_) fun w _ hwV => ?_) ?_
      · rw [hroot, hno w (Nat.lt_trans hw UPAGES_lt_VPAGES), npages_zero]
        simp
      · rw [hroot, hno w hwV]
      · rintro _ m' ⟨hf', hp'⟩
        rw [update_idem, ← hR, update_eq_self] at hp'
        exact ⟨hft.trans hf'.of_update_root, hp'⟩
    refine wp_mono (wp_mappages_fixed (v := UPAGES + 1) hp₂ hroot (by omega) (by omega)
      (by rw [hroot, hleaf₂]) htr (by decide)) ?_
    rintro r m₃ ⟨hf₃, hp₃, hpost₃⟩
    have hf₃ := hf₂.trans hf₃.of_update_root
    rw [hroot] at hpost₃
    rcases hpost₃ with ⟨rfl, hleaf₃⟩ | ⟨rfl, hleaf₃⟩
    · rw [if_pos (by decide), wp_bind]
      exact hundo hf₃ hp₃ fun w _ => by rw [hleaf₃, hleaf₂]
    rw [if_neg (by decide), wp_bind]
    refine wp_mono (wp_mappages_fixed (v := UPAGES) hp₃ hroot (by omega) (Nat.le_refl _)
      (by rw [hroot, hleaf₃ _ UPAGES_lt_VPAGES, if_neg (by omega), hleaf₂]) htf (by decide)) ?_
    rintro r m₄ ⟨hf₄, hp₄, hpost₄⟩
    have hf₄ := hf₃.trans hf₄.of_update_root
    rw [hroot] at hpost₄
    rcases hpost₄ with ⟨rfl, hleaf₄⟩ | ⟨rfl, hleaf₄⟩
    · rw [if_pos (by decide), wp_bind]
      refine wp_mono (wp_uvmunmap (UPAGES + 1) 1 false hp₄ hroot (by omega) fun w hw _ => by
        simp only [Bool.false_eq_true, false_iff]
        omega) ?_
      rintro _ m₅ ⟨hf₅, hp₅, hleaf₅⟩
      rw [wp_bind]
      refine hundo (hf₄.trans hf₅.of_update_root) hp₅ fun w hw => ?_
      rw [hroot] at hleaf₅
      rw [hleaf₅ w hw]
      split
      · rfl
      · rw [hleaf₄, hleaf₃ w hw, if_neg (by omega), hleaf₂]
    · rw [if_neg (by decide)]
      refine ⟨hf₄, hp₄, Nat.zero_le _, fun w hw => ?_, ?_, ?_, fun w hw hwV => ?_⟩
      · have hwV := Nat.lt_trans hw UPAGES_lt_VPAGES
        rw [hleaf₄ w hwV, if_neg (by omega), hleaf₃ w hwV, if_neg (by omega), hleaf₂, npages_zero]
        simp
      · rw [hleaf₄ _ UPAGES_lt_VPAGES, if_pos rfl]
      · rw [hleaf₄ _ (by decide), if_neg (by omega), hleaf₃ _ (by decide), if_pos rfl]
      · rw [hleaf₄ w hwV, if_neg (by omega), hleaf₃ w hwV, if_neg (by omega), hleaf₂]

end AddressSpace

end Xv6.Vm
