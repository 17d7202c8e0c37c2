import Xv6.Fs.Ownership

/-!
# Operations on the content of one inode

`bmap`, `itrunc`, `readi` and `writei` change the in-memory copy of one inode, its indirect
block, the bitmap and data blocks, and write the inode back at the end.  While such an
operation runs, the books are kept over the dinodes of the disk with the in-memory copy in
the place of this one.
-/

namespace Xv6.Fs

open ByteView Hoare Ledger Function

/-- The dinodes `D` with the copy of an in-memory inode in its place. -/
def view (D : Nat → Dinode) (x : Inode) : Nat → Dinode := update D x.inum x.copy

/-- The owners of blocks while an operation on `ip` runs. -/
def owns (sb : Superblock) (D : Nat → Dinode) (ip : Nat) (s : State) : Nat × Slot → Option Nat :=
  owner sb (view D (s.inode ip)) s.disk

/-- An operation on the valid inode `ip` is running and has the blocks `loose` in hand;
    `D` are the dinodes on disk. -/
structure Running (sb : Superblock) (first : Nat) (D : Nat → Dinode) (ip : Nat) (s : State)
    (loose : List Nat) : Prop where
  inum_lt : (s.inode ip).inum < sb.ninodes
  live : (s.inode ip).copy.type ≠ 0
  dinodes : ∀ i < sb.ninodes, dinodeAt sb s.disk i = D i
  books : Books sb first (owns sb D ip s) s.disk loose

/-- From `s` to `s'` only the addresses of the inode `ip` have changed. -/
structure Changed (sb : Superblock) (D : Nat → Dinode) (ip : Nat) (s s' : State) : Prop where
  others : ∀ j, j ≠ ip → s'.inode j = s.inode j
  fields : ∃ addrs, s'.inode ip =
    (s.inode ip).setCopy { (s.inode ip).copy with addrs := addrs }
  elsewhere : ∀ p, p.1 ≠ (s.inode ip).inum → owns sb D ip s' p = owns sb D ip s p
  -- the inode blocks lie before the bitmap
  low : ∀ b < sb.bmapstart, s'.disk b = s.disk b

/-- From `s` to `s'` the inode `ip` has only gained blocks. -/
structure Grown (sb : Superblock) (D : Nat → Dinode) (ip : Nat) (s s' : State) : Prop
    extends Changed sb D ip s s' where
  kept : ∀ p b, owns sb D ip s p = some b → owns sb D ip s' p = some b

/-- From `s` to `s'` the inode `ip` has only gained blocks, and no other block of an inode has
    changed but the indirect block of `ip`. -/
structure Mapped (sb : Superblock) (D : Nat → Dinode) (ip : Nat) (s s' : State) : Prop
    extends Grown sb D ip s s', Counted s s' where
  data : ∀ p b, owns sb D ip s p = some b → p ≠ ((s.inode ip).inum, .indirect) →
    s'.disk b = s.disk b

/-- A call of `balloc` between `s` and `s'` has found no block, or none is free in `s'`. -/
def Starved (sb : Superblock) (s s' : State) : Prop :=
  (∃ c, s.ballocs ≤ c ∧ c < s'.ballocs ∧ s.outOfBlocks c = true) ∨
    ∀ b < sb.size, ¬ markedFree sb s'.disk b

section Owners

variable {sb : Superblock} {first : Nat} {D : Nat → Dinode} {d : Disk} {ip n : Nat}
  {s s' s'' : State} {loose : List Nat} {x : Dinode}

theorem Changed.refl : Changed sb D ip s s :=
  ⟨fun _ _ => rfl, ⟨_, rfl⟩, fun _ _ => rfl, fun _ _ => rfl⟩

theorem Changed.inum (h : Changed sb D ip s s') : (s'.inode ip).inum = (s.inode ip).inum := by
  obtain ⟨addrs, heq⟩ := h.fields
  rw [heq]
  rfl

theorem Changed.size (h : Changed sb D ip s s') :
    (s'.inode ip).copy.size = (s.inode ip).copy.size := by
  obtain ⟨addrs, heq⟩ := h.fields
  rw [heq]
  rfl

theorem Changed.trans (h : Changed sb D ip s s') (h' : Changed sb D ip s' s'') :
    Changed sb D ip s s'' := by
  obtain ⟨addrs, heq⟩ := h.fields
  obtain ⟨addrs', heq'⟩ := h'.fields
  refine ⟨fun j hj => (h'.others j hj).trans (h.others j hj), ⟨addrs', by rw [heq', heq]; rfl⟩,
    fun p hp => ?_, fun b hb => (h'.low b hb).trans (h.low b hb)⟩
  rw [h'.elsewhere p (by rwa [h.inum]), h.elsewhere p hp]

theorem Grown.refl : Grown sb D ip s s := ⟨Changed.refl, fun _ _ h => h⟩

theorem Grown.trans (h : Grown sb D ip s s') (h' : Grown sb D ip s' s'') :
    Grown sb D ip s s'' :=
  ⟨h.toChanged.trans h'.toChanged, fun p b hp => h'.kept p b (h.kept p b hp)⟩

theorem Mapped.refl : Mapped sb D ip s s := ⟨Grown.refl, Counted.refl, fun _ _ _ _ => rfl⟩

theorem Mapped.trans (h : Mapped sb D ip s s') (h' : Mapped sb D ip s' s'') :
    Mapped sb D ip s s'' :=
  ⟨h.toGrown.trans h'.toGrown, h.toCounted.trans h'.toCounted, fun p b hp hne =>
    (h'.data p b (h.kept p b hp) (by rwa [h.inum])).trans (h.data p b hp hne)⟩

theorem Scanned.starved (h : Scanned s s') (hroom : NoRoom sb s) : Starved sb s s' := by
  rcases hroom with hout | hfull
  · exact Or.inl ⟨s.ballocs, Nat.le_refl _, by rw [h.ballocs]; exact Nat.lt_succ_self _, hout⟩
  · exact Or.inr (by rw [h.disk]; exact hfull)

theorem Starved.after (h : Starved sb s' s'') (hc : Counted s s') : Starved sb s s'' := by
  rcases h with ⟨c, hlo, hhi, hout⟩ | hfull
  · exact Or.inl ⟨c, Nat.le_trans hc.ballocs hlo, hhi, by rw [← hc.outOfBlocks]; exact hout⟩
  · exact Or.inr hfull

theorem owner_self {k : Slot} (hn : n < sb.ninodes) (hlive : x.type ≠ 0) :
    owner sb (update D n x) d (n, k) = nonzero (x.block d k) := by
  simp [owner, hn, hlive]

theorem owner_other {p : Nat × Slot} (hp : p.1 ≠ n) :
    owner sb (update D n x) d p = owner sb D d p := by
  simp [owner, update_of_ne hp]

theorem owns_self (h : Running sb first D ip s loose) (k : Slot) :
    owns sb D ip s ((s.inode ip).inum, k) = nonzero ((s.inode ip).copy.block s.disk k) :=
  owner_self h.inum_lt h.live

theorem owner_congr_disk {d' : Disk} {p : Nat × Slot}
    (h : ∀ b, owner sb D d (p.1, .indirect) = some b → d' b = d b) :
    owner sb D d' p = owner sb D d p := by
  obtain ⟨i, k⟩ := p
  unfold owner
  split
  · rename_i hlive
    cases k with
    | direct j => rfl
    | indirect => rfl
    | entry j =>
      by_cases hind : (D i).addrs (Fin.last NDIRECT) = 0
      · simp [Dinode.block, hind]
      · have hown : owner sb D d (i, .indirect) =
            some ((D i).addrs (Fin.last NDIRECT)).toNat := by
          have hne : ((D i).addrs (Fin.last NDIRECT)).toNat ≠ 0 := fun hz =>
            hind (UInt32.toNat_inj.mp hz)
          rw [owner, if_pos hlive]
          exact nonzero_eq_some.mpr ⟨rfl, hne⟩
        have hsame := h _ hown
        simp only [Dinode.block, if_neg hind, hsame]
  · rfl

theorem Running.owned_data (h : Running sb first D ip s loose) {p : Nat × Slot} {b : Nat}
    (hp : owns sb D ip s p = some b) : first ≤ b ∧ b < sb.size :=
  h.books.exact.owned p b hp

/-- A disk on which the blocks before `first` and the indirect blocks of allocated inodes are
    unchanged has the same books. -/
theorem Running.congr_disk (hL : Layout sb first) (h : Running sb first D ip s loose) (s' : State)
    (hinode : s'.inode ip = s.inode ip) (hmeta : ∀ b < first, s'.disk b = s.disk b)
    (hind : ∀ i b, owns sb D ip s (i, .indirect) = some b → s'.disk b = s.disk b) :
    Running sb first D ip s' loose ∧ ∀ p, owns sb D ip s' p = owns sb D ip s p := by
  have hown : ∀ p, owns sb D ip s' p = owns sb D ip s p := by
    intro p
    unfold owns
    rw [hinode]
    exact owner_congr_disk fun b hb => hind p.1 b hb
  refine ⟨⟨by rw [hinode]; exact h.inum_lt, by rw [hinode]; exact h.live, fun i hi => ?_, ?_⟩, hown⟩
  · rw [← h.dinodes i hi]
    exact hL.dinodeAt_congr (fun b hb => hmeta b (Nat.lt_trans hb hL.bmapstart_lt)) hi
  · exact h.books.congr hL hown fun b hb => hmeta _ (hL.BBLOCK_lt hb)

theorem Running.of_eq (h : Running sb first D ip s loose) (hinode : s'.inode = s.inode)
    (hdisk : s'.disk = s.disk) (hc : Counted s s') :
    Running sb first D ip s' loose ∧ Mapped sb D ip s s' := by
  have hown : owns sb D ip s' = owns sb D ip s := by rw [owns, owns, hinode, hdisk]
  refine ⟨⟨by rw [hinode]; exact h.inum_lt, by rw [hinode]; exact h.live,
    by rw [hdisk]; exact h.dinodes, by rw [hown, hdisk]; exact h.books⟩,
    ⟨⟨⟨fun j _ => by rw [hinode], ⟨(s.inode ip).copy.addrs, by rw [hinode]; rfl⟩,
      fun p _ => by rw [hown], fun b _ => by rw [hdisk]⟩, fun p b hp => by rwa [hown]⟩, hc,
      fun p b _ _ => by rw [hdisk]⟩⟩

/-! ### Changing an address -/

theorem addrSlot_castSucc (i : Fin NDIRECT) : addrSlot i.castSucc = .direct i := by
  simp [addrSlot]

theorem addrSlot_last : addrSlot (Fin.last NDIRECT) = .indirect := by
  simp [addrSlot]

theorem block_addrSlot (k : Fin (NDIRECT + 1)) : x.block d (addrSlot k) = (x.addrs k).toNat := by
  induction k using Fin.lastCases with
  | last => rw [addrSlot_last]; rfl
  | cast i => rw [addrSlot_castSucc]; rfl

/-- Storing an address where there was none, or dropping a direct one, changes that place
    only, provided a new indirect block is empty. -/
theorem block_setAddr {k : Fin (NDIRECT + 1)} {a : UInt32} {slot : Slot}
    (hempty : k = Fin.last NDIRECT → x.addrs k = 0 ∧ d a.toNat = fun _ => 0)
    (hne : slot ≠ addrSlot k) :
    (x.setAddr k a).block d slot = x.block d slot := by
  induction k using Fin.lastCases with
  | last =>
    obtain ⟨hzero, hblank⟩ := hempty rfl
    rw [addrSlot_last] at hne
    cases slot with
    | direct j => simp only [Dinode.block, Dinode.setAddr, update_of_ne (Fin.ne_of_lt (Fin.castSucc_lt_last j))]
    | indirect => exact absurd rfl hne
    | entry j =>
      have hload : getLE (fun _ => 0) (4 * j) 4 = 0 := by simp [getLE]
      simp only [Dinode.block, Dinode.setAddr, update_self, hblank, hload, hzero, if_true, ite_self]
  | cast i =>
    rw [addrSlot_castSucc] at hne
    have hlast : Fin.last NDIRECT ≠ i.castSucc := (Fin.ne_of_lt (Fin.castSucc_lt_last i)).symm
    cases slot with
    | direct j =>
      have hji : j.castSucc ≠ i.castSucc := fun heq => hne (by rw [Fin.castSucc_inj.mp heq])
      simp only [Dinode.block, Dinode.setAddr, update_of_ne hji]
    | indirect => simp only [Dinode.block, Dinode.setAddr, update_of_ne hlast]
    | entry j => simp only [Dinode.block, Dinode.setAddr, update_of_ne hlast]

theorem block_setEntry {j : Fin NINDIRECT} {a : UInt32} {slot : Slot} {c : Nat}
    (hc : (x.addrs (Fin.last NDIRECT)).toNat = c) (hne : slot ≠ .entry j) :
    x.block (update d c (putLE (d c) (4 * j) 4 a.toNat)) slot = x.block d slot := by
  cases slot with
  | direct i => rfl
  | indirect => rfl
  | entry l =>
    have hlj : (l : Nat) ≠ j := fun heq => hne (by rw [Fin.ext heq])
    simp only [Dinode.block, hc, update_self]
    rw [getLE_putLE_disjoint _ (by omega)]

theorem block_setEntry_self {j : Fin NINDIRECT} {a : UInt32} {c : Nat}
    (hc : (x.addrs (Fin.last NDIRECT)).toNat = c) (hne : c ≠ 0) :
    x.block (update d c (putLE (d c) (4 * j) 4 a.toNat)) (.entry j) = a.toNat := by
  have hind : x.addrs (Fin.last NDIRECT) ≠ 0 := fun hz => hne (by rw [← hc, hz]; rfl)
  simp only [Dinode.block, if_neg hind, hc, update_self]
  exact getLE_putLE_of_lt _ a.toNat_lt

end Owners

/-! ### `bmap` -/

section Bmap

variable {sb : Superblock} {first : Nat} {D : Nat → Dinode} {ip : Nat} {s : State}
  {loose : List Nat} {E : Stop → Prop} [LogMayPanic E]

/-- The place of the `bn`th block of a file. -/
def slotOf (bn : Nat) (h : bn < MAXFILE) : Slot :=
  if hd : bn < NDIRECT then .direct ⟨bn, hd⟩
  else .entry ⟨bn - NDIRECT, by unfold MAXFILE at h; omega⟩

/-- The address of the `bn`th block of a file, 0 if there is none. -/
def Dinode.fileBlock (x : Dinode) (d : Disk) (bn : Nat) : Nat :=
  if h : bn < MAXFILE then x.block d (slotOf bn h) else 0

/-- There is no hole below the size of the file. -/
def Dinode.Dense (x : Dinode) (d : Disk) : Prop :=
  ∀ bn, bn * BSIZE < x.size.toNat → x.fileBlock d bn ≠ 0

theorem Dinode.lt_of_fileBlock {x : Dinode} {d : Disk} {bn : Nat} (h : x.fileBlock d bn ≠ 0) :
    bn < MAXFILE :=
  Decidable.byContradiction fun hn => h (dif_neg hn)

theorem Dinode.fileBlock_eq {x : Dinode} {d : Disk} {bn : Nat} (h : bn < MAXFILE) :
    x.fileBlock d bn = x.block d (slotOf bn h) := dif_pos h

theorem slotOf_ne_indirect {bn : Nat} (h : bn < MAXFILE) : slotOf bn h ≠ .indirect := by
  unfold slotOf
  split <;> simp

theorem slotOf_inj {bn bn' : Nat} (h : bn < MAXFILE) (h' : bn' < MAXFILE)
    (heq : slotOf bn h = slotOf bn' h') : bn = bn' := by
  unfold slotOf at heq
  split at heq <;> split at heq
  · exact congrArg Fin.val (Slot.direct.inj heq)
  · cases heq
  · cases heq
  · have := congrArg Fin.val (Slot.entry.inj heq)
    dsimp only at this
    omega

theorem owns_slotOf (h : Running sb first D ip s loose) {bn : Nat}
    (hbn : bn < MAXFILE) :
    owns sb D ip s ((s.inode ip).inum, slotOf bn hbn) =
      nonzero ((s.inode ip).copy.fileBlock s.disk bn) := by
  rw [owns_self h, Dinode.fileBlock_eq hbn]

theorem owns_fileBlock (h : Running sb first D ip s loose) {bn : Nat}
    (hb : (s.inode ip).copy.fileBlock s.disk bn ≠ 0) :
    owns sb D ip s ((s.inode ip).inum, slotOf bn (Dinode.lt_of_fileBlock hb)) =
      some ((s.inode ip).copy.fileBlock s.disk bn) :=
  (owns_slotOf h _).trans (nonzero_eq_some.mpr ⟨rfl, hb⟩)

theorem Grown.fileBlock_eq {loose' : List Nat} {s' : State} (hg : Grown sb D ip s s')
    (h : Running sb first D ip s loose) (h' : Running sb first D ip s' loose') {bn : Nat}
    (hb : (s.inode ip).copy.fileBlock s.disk bn ≠ 0) :
    (s'.inode ip).copy.fileBlock s'.disk bn = (s.inode ip).copy.fileBlock s.disk bn := by
  have hkept := hg.kept _ _ (owns_fileBlock h hb)
  rw [← hg.inum, owns_slotOf h', nonzero_eq_some] at hkept
  exact hkept.1

theorem Grown.fileBlock_ne_zero {loose' : List Nat} {s' : State} (hg : Grown sb D ip s s')
    (h : Running sb first D ip s loose) (h' : Running sb first D ip s' loose') {bn : Nat}
    (hb : (s.inode ip).copy.fileBlock s.disk bn ≠ 0) :
    (s'.inode ip).copy.fileBlock s'.disk bn ≠ 0 := by
  rw [hg.fileBlock_eq h h' hb]
  exact hb

theorem Running.gain (h : Running sb first D ip s loose) (s' : State) (k : Slot) (b : Nat)
    (hothers : ∀ j, j ≠ ip → s'.inode j = s.inode j)
    (hfields : ∃ addrs, s'.inode ip =
      (s.inode ip).setCopy { (s.inode ip).copy with addrs := addrs })
    (hlow : ∀ c < sb.bmapstart, s'.disk c = s.disk c)
    (hdinodes : ∀ i < sb.ninodes, dinodeAt sb s'.disk i = D i)
    (hbooks : Books sb first (owns sb D ip s) s'.disk (b :: loose))
    (hnone : owns sb D ip s ((s.inode ip).inum, k) = none)
    (hgot : owns sb D ip s' ((s.inode ip).inum, k) = some b)
    (hrest : ∀ p, p ≠ ((s.inode ip).inum, k) → owns sb D ip s' p = owns sb D ip s p) :
    Running sb first D ip s' loose ∧ Grown sb D ip s s' := by
  refine ⟨⟨?_, ?_, hdinodes, ⟨?_, hbooks.metadata⟩⟩, ⟨⟨hothers, hfields,
    fun p hp => hrest p fun heq => hp (by rw [heq]), hlow⟩, fun p c hp => ?_⟩⟩
  · obtain ⟨addrs, heq⟩ := hfields
    rw [heq]
    exact h.inum_lt
  · obtain ⟨addrs, heq⟩ := hfields
    rw [heq]
    exact h.live
  · exact hbooks.exact.assign hnone hgot hrest
  · rw [hrest p fun heq => by rw [heq, hnone] at hp; exact absurd hp (by simp)]
    exact hp

theorem AllocFrame.owner_eq {s' : State} {b : Nat} {D' : Nat → Dinode} (hL : Layout sb first)
    (hf : AllocFrame sb s s' b)
    (hbooks : Books sb first (owner sb D' s.disk) s'.disk (b :: loose)) (p : Nat × Slot) :
    owner sb D' s'.disk p = owner sb D' s.disk p := by
  have hb := hbooks.exact.mem b List.mem_cons_self
  refine owner_congr_disk fun e he => hf.disk e ?_ ?_
  · rintro rfl
    exact hbooks.exact.apart e List.mem_cons_self _ he
  · have hlow := hL.BBLOCK_lt hb.2
    have hdata := hbooks.exact.owned _ e he
    omega

theorem AllocFrame.owned {s' : State} {b c : Nat} {own : Nat × Slot → Option Nat}
    (hL : Layout sb first) (hf : AllocFrame sb s s' b)
    (hbooks : Books sb first own s'.disk (b :: loose)) {p : Nat × Slot} (hp : own p = some c) :
    s'.disk c = s.disk c := by
  have hb := hbooks.exact.mem b List.mem_cons_self
  have hlow := hL.BBLOCK_lt hb.2
  have hdata := hbooks.exact.owned _ c hp
  refine hf.disk c ?_ (by omega)
  rintro rfl
  exact hbooks.exact.apart c List.mem_cons_self _ hp

theorem AllocFrame.low {s' : State} {b c : Nat} (hL : Layout sb first)
    (hf : AllocFrame sb s s' b) (hb : first ≤ b) (hc : c < sb.bmapstart) :
    s'.disk c = s.disk c := by
  refine hf.disk c ?_ ?_
  · have := hL.bmapstart_lt
    omega
  · exact Nat.ne_of_lt (Nat.lt_of_lt_of_le hc (bmapstart_le_BBLOCK b))

/-- **`addrs[k]`, with a block allocated for it if there was none.** -/
theorem wp_addrOrAlloc (hL : Layout sb first) (h : Running sb first D ip s loose)
    (k : Fin (NDIRECT + 1)) :
    wp (addrOrAlloc sb ip k) E (fun a s' =>
      Running sb first D ip s' loose ∧ Mapped sb D ip s s' ∧
      (a ≠ 0 → (s'.inode ip).copy.addrs k = a) ∧
      (a = 0 → (s.inode ip).copy.addrs k = 0 ∧ Starved sb s s')) s := by
  simp only [addrOrAlloc, wp_bind, wp_get]
  split
  · rename_i hzero
    rw [wp_bind]
    refine wp_mono (wp_balloc hL h.books) fun a s₁ hpost => ?_
    rcases hpost with ⟨rfl, hscan, hroom⟩ | ⟨hne, hbooks, hblank, hframe⟩
    · rw [if_pos rfl, wp_pure]
      obtain ⟨hrun, hmapped⟩ := h.of_eq hscan.inode hscan.disk hscan.counted
      exact ⟨hrun, hmapped, fun hne => absurd rfl hne, fun _ => ⟨hzero, hscan.starved hroom⟩⟩
    · rw [if_neg hne]
      have hb := hbooks.exact.mem a.toNat List.mem_cons_self
      have ha0 : a.toNat ≠ 0 := by
        have := hL.first_pos
        omega
      have hlive : ((s.inode ip).copy.setAddr k a).type ≠ 0 := h.live
      have hrest : ∀ p, p ≠ ((s.inode ip).inum, addrSlot k) →
          owner sb (view D ((s.inode ip).setCopy ((s.inode ip).copy.setAddr k a))) s₁.disk p =
            owns sb D ip s p := by
        rintro ⟨i, slot⟩ hp
        have hsame := hframe.owner_eq hL hbooks (i, slot)
        by_cases hi : i = (s.inode ip).inum
        · subst hi
          have hslot : slot ≠ addrSlot k := fun heq => hp (by rw [heq])
          rw [view, owner_self h.inum_lt h.live] at hsame
          exact (owner_self h.inum_lt hlive).trans
            ((congrArg nonzero (block_setAddr (fun _ => ⟨hzero, hblank⟩) hslot)).trans hsame)
        · rw [view, owner_other hi] at hsame
          exact (owner_other hi).trans hsame
      simp only [wp_bind, setAddr, setInode, wp_modify, wp_pure, hframe.inode]
      generalize ht : s₁.setInode ip ((s.inode ip).setCopy ((s.inode ip).copy.setAddr k a)) = t
      have htip : t.inode ip = (s.inode ip).setCopy ((s.inode ip).copy.setAddr k a) := by
        rw [← ht, State.setInode_self]
      have htd : t.disk = s₁.disk := by rw [← ht, State.setInode_disk]
      have htown : owns sb D ip t =
          owner sb (view D ((s.inode ip).setCopy ((s.inode ip).copy.setAddr k a))) s₁.disk := by
        rw [owns, htip, htd]
      obtain ⟨hrun, hgrown⟩ := h.gain t (addrSlot k) a.toNat
        (fun j hj => by rw [← ht, State.setInode_ne _ _ hj, hframe.inode])
        ⟨_, htip⟩
        (fun c hc => by rw [htd, hframe.low hL hb.1 hc])
        (fun i hi => by
          rw [htd, hL.dinodeAt_congr (fun c hc => hframe.low hL hb.1 hc) hi, h.dinodes i hi])
        (by rw [htd]; exact hbooks)
        (by rw [owns_self h, block_addrSlot, hzero]; rfl)
        (by
          rw [htown]
          refine (owner_self h.inum_lt hlive).trans ?_
          rw [block_addrSlot, Dinode.setAddr_self]
          exact nonzero_eq_some.mpr ⟨rfl, ha0⟩)
        (fun p hp => by rw [htown]; exact hrest p hp)
      have hcount : Counted s t := by
        rw [← ht]
        exact ⟨hframe.outOfBlocks, hframe.ballocs⟩
      refine ⟨hrun, ⟨hgrown, hcount, fun p b hp _ => ?_⟩, fun _ => ?_, fun hz => absurd hz hne⟩
      · rw [htd]
        exact hframe.owned hL hbooks hp
      · rw [htip]
        exact Dinode.setAddr_self ..
  · rename_i hne
    exact ⟨h, Mapped.refl, fun _ => rfl, fun hz => absurd hz hne⟩

theorem toNat_ofNat_getLE (f : Bytes) (o : Nat) : (UInt32.ofNat (getLE f o 4)).toNat = getLE f o 4 := by
  rw [UInt32.toNat_ofNat']
  exact Nat.mod_eq_of_lt (getLE_lt f o 4)

theorem ofNat_getLE_eq_zero {f : Bytes} {o : Nat} :
    UInt32.ofNat (getLE f o 4) = 0 ↔ getLE f o 4 = 0 := by
  rw [← UInt32.toNat_inj, toNat_ofNat_getLE]
  rfl

theorem wp_bmap_present {E : Stop → Prop} {bn : Nat}
    (h : (s.inode ip).copy.fileBlock s.disk bn ≠ 0) :
    wp (bmap sb ip bn) E (fun a s' =>
      s' = s ∧ a.toNat = (s.inode ip).copy.fileBlock s.disk bn) s := by
  have hbn := Dinode.lt_of_fileBlock h
  rw [Dinode.fileBlock_eq hbn] at h ⊢
  unfold bmap
  by_cases hd : bn < NDIRECT
  · simp only [slotOf, dif_pos hd, Dinode.block] at h ⊢
    have hne : (s.inode ip).copy.addrs ⟨bn, Nat.lt_succ_of_lt hd⟩ ≠ 0 := fun hz => h (by
      show ((s.inode ip).copy.addrs ⟨bn, _⟩).toNat = 0
      rw [hz]
      rfl)
    simp only [addrOrAlloc, wp_bind, wp_get, if_neg hne, wp_pure, true_and]
    rfl
  · have hin : bn - NDIRECT < NINDIRECT := by unfold MAXFILE at hbn; omega
    simp only [slotOf, dif_neg hd, if_pos hin, Dinode.block] at h ⊢
    by_cases hind : (s.inode ip).copy.addrs (Fin.last NDIRECT) = 0
    · exact absurd (if_pos hind) h
    · rw [if_neg hind] at h ⊢
      simp only [wp_bind, addrOrAlloc, wp_get, if_neg hind, wp_pure, bread,
        if_neg (ofNat_getLE_eq_zero.not.mpr h), toNat_ofNat_getLE, and_self]

theorem Running.gainEntry (hL : Layout sb first) (h : Running sb first D ip s loose)
    {s' : State} {j : Fin NINDIRECT} {a c : UInt32} {l : Log.LogState}
    (hc : (s.inode ip).copy.addrs (Fin.last NDIRECT) = c) (hc0 : c ≠ 0)
    (hzero : getLE (s.disk c.toNat) (4 * j) 4 = 0) (ha : a ≠ 0)
    (hbooks : Books sb first (owns sb D ip s) s'.disk (a.toNat :: loose))
    (hf : AllocFrame sb s s' a.toNat) :
    Running sb first D ip { s' with
      disk := update s'.disk c.toNat (putLE (s.disk c.toNat) (4 * j) 4 a.toNat)
      log := l } loose ∧
    Grown sb D ip s { s' with
      disk := update s'.disk c.toNat (putLE (s.disk c.toNat) (4 * j) 4 a.toNat)
      log := l } := by
  have hcn : c.toNat ≠ 0 := fun hz => hc0 (UInt32.toNat_inj.mp hz)
  have han : a.toNat ≠ 0 := fun hz => ha (UInt32.toNat_inj.mp hz)
  have hown : owns sb D ip s ((s.inode ip).inum, .indirect) = some c.toNat := by
    rw [owns_self h]
    simp only [Dinode.block, hc]
    exact nonzero_eq_some.mpr ⟨rfl, hcn⟩
  have hb := hbooks.exact.mem a.toNat List.mem_cons_self
  have hcdata := h.owned_data hown
  -- the indirect block is neither the new block nor a bitmap block
  have hsame : s'.disk c.toNat = s.disk c.toNat := by
    refine hf.disk _ (fun heq => ?_) ?_
    · exact hbooks.exact.apart _ List.mem_cons_self _ (heq ▸ hown)
    · have := hL.BBLOCK_lt hb.2
      omega
  have hfinal : ∀ b, b ≠ c.toNat → update s'.disk c.toNat
      (putLE (s.disk c.toNat) (4 * j) 4 a.toNat) b = s'.disk b :=
    fun b hne => update_of_ne hne _ _
  have hlow : ∀ b < sb.bmapstart, update s'.disk c.toNat
      (putLE (s.disk c.toNat) (4 * j) 4 a.toNat) b = s.disk b := fun b hlt => by
    rw [hfinal b (by have := hL.bmapstart_lt; omega), hf.low hL hb.1 hlt]
  refine h.gain _ (.entry j) a.toNat (fun i _ => by rw [hf.inode])
    ⟨(s.inode ip).copy.addrs, by rw [hf.inode]; rfl⟩ hlow
    (fun i hi => (hL.dinodeAt_congr hlow hi).trans (h.dinodes i hi))
    (hbooks.congr hL (fun _ => rfl) fun b hb' => hfinal _ ?_) ?_ ?_ (fun p hp => ?_)
  · have := hL.BBLOCK_lt hb'
    omega
  · rw [owns_self h]
    simp only [Dinode.block, hc, if_neg hc0, hzero]
    rfl
  · rw [owns, hf.inode, view, owner_self h.inum_lt h.live, ← hsame,
      block_setEntry_self (by rw [hc]) hcn]
    exact nonzero_eq_some.mpr ⟨rfl, han⟩
  · have hstep := hf.owner_eq hL hbooks p
    rw [owns, hf.inode]
    by_cases hi : p.1 = (s.inode ip).inum
    · obtain ⟨i, slot⟩ := p
      dsimp only at hi
      subst hi
      have hslot : slot ≠ .entry j := fun heq => hp (by rw [heq])
      rw [view, owner_self h.inum_lt h.live] at hstep ⊢
      rw [← hsame, block_setEntry (by rw [hc]) hslot]
      exact hstep
    · -- the indirect block of another inode is another block
      refine Eq.trans (owner_congr_disk fun e he => hfinal e ?_) hstep
      rintro rfl
      rw [hf.owner_eq hL hbooks] at he
      have honce := h.books.exact.once _ _ _ he hown
      exact hi (congrArg Prod.fst honce)

/-- **`bmap`** returns the address of block `bn`, allocated if need be, or 0. -/
theorem wp_bmap (hL : Layout sb first) (h : Running sb first D ip s loose) {bn : Nat}
    (hbn : bn < MAXFILE) :
    wp (bmap sb ip bn) E (fun a s' =>
      Running sb first D ip s' loose ∧ Mapped sb D ip s s' ∧
      (a ≠ 0 → owns sb D ip s' ((s'.inode ip).inum, slotOf bn hbn) = some a.toNat) ∧
      (a = 0 → (s.inode ip).copy.fileBlock s.disk bn = 0 ∧ Starved sb s s')) s := by
  have hpos : ∀ a : UInt32, a ≠ 0 → a.toNat ≠ 0 := fun a ha hz => ha (UInt32.toNat_inj.mp hz)
  unfold bmap
  by_cases hd : bn < NDIRECT
  · rw [dif_pos hd]
    have hsame : (⟨bn, hd⟩ : Fin NDIRECT).castSucc = ⟨bn, Nat.lt_succ_of_lt hd⟩ := rfl
    refine wp_mono (wp_addrOrAlloc hL h _) fun a s₁ ⟨hrun, hmapped, haddr, hzero⟩ =>
      ⟨hrun, hmapped, fun ha => ?_, fun ha => ⟨?_, (hzero ha).2⟩⟩
    · rw [owns_self hrun, slotOf, dif_pos hd, ← addrSlot_castSucc, block_addrSlot, hsame, haddr ha]
      exact nonzero_eq_some.mpr ⟨rfl, hpos a ha⟩
    · rw [Dinode.fileBlock_eq hbn, slotOf, dif_pos hd, ← addrSlot_castSucc, block_addrSlot, hsame,
        (hzero ha).1]
      rfl
  · have hin : bn - NDIRECT < NINDIRECT := by unfold MAXFILE at hbn; omega
    rw [dif_neg hd, if_pos hin, wp_bind]
    refine wp_mono (wp_addrOrAlloc hL h _) fun c s₁ ⟨hrun, hmapped, haddr, hnone⟩ => ?_
    have hslot : slotOf bn hbn = .entry ⟨bn - NDIRECT, hin⟩ := by rw [slotOf, dif_neg hd]
    by_cases hc : c = 0
    · rw [if_pos hc, wp_pure]
      refine ⟨hrun, hmapped, fun hne => absurd rfl hne, fun _ => ⟨?_, (hnone hc).2⟩⟩
      rw [Dinode.fileBlock_eq hbn, hslot, Dinode.block, if_pos (hnone hc).1]
    have hblock : (s₁.inode ip).copy.block s₁.disk (slotOf bn hbn) =
        getLE (s₁.disk c.toNat) (4 * (bn - NDIRECT)) 4 := by
      rw [hslot]
      simp only [Dinode.block, haddr hc, if_neg hc]
    simp only [if_neg hc, wp_bind, bread, wp_get, wp_pure]
    split
    · rename_i hzero
      rw [wp_bind]
      refine wp_mono (wp_balloc hL hrun.books) fun a s₂ hpost => ?_
      rcases hpost with ⟨rfl, hscan, hroom⟩ | ⟨hne, hbooks, hblank, hframe⟩
      · rw [if_pos rfl, wp_pure]
        obtain ⟨hrun', hmapped'⟩ := hrun.of_eq hscan.inode hscan.disk hscan.counted
        refine ⟨hrun', hmapped.trans hmapped', fun hne => absurd rfl hne, fun _ =>
          ⟨?_, (hscan.starved hroom).after hmapped.toCounted⟩⟩
        by_contra hfound
        refine hmapped.toGrown.fileBlock_ne_zero h hrun hfound ?_
        rw [Dinode.fileBlock_eq hbn, hblock]
        exact ofNat_getLE_eq_zero.mp hzero
      · rw [if_neg hne, wp_bind]
        refine wp_logWrite fun l => ?_
        rw [wp_pure]
        obtain ⟨hrun', hgrown'⟩ := hrun.gainEntry hL (j := ⟨bn - NDIRECT, hin⟩) (l := l)
          (haddr hc) hc (ofNat_getLE_eq_zero.mp hzero) hne hbooks hframe
        have hind : owns sb D ip s₁ ((s₁.inode ip).inum, .indirect) = some c.toNat := by
          rw [owns_self hrun]
          exact nonzero_eq_some.mpr ⟨congrArg UInt32.toNat (haddr hc), hpos c hc⟩
        refine ⟨hrun', hmapped.trans ⟨hgrown', ⟨hframe.outOfBlocks, hframe.ballocs⟩,
          fun p b hp hpne => ?_⟩, fun _ => ?_, fun hz => absurd hz hne⟩
        · -- the indirect block is another one
          have hbc : b ≠ c.toNat := fun heq =>
            hpne (hrun.books.exact.once _ _ _ hp (heq ▸ hind))
          exact (update_of_ne hbc ..).trans (hframe.owned hL hbooks hp)
        · rw [owns_self hrun', hslot]
          refine nonzero_eq_some.mpr ⟨?_, hpos a hne⟩
          simp only [Dinode.block, hframe.inode, haddr hc, if_neg hc, update_self]
          exact getLE_putLE_of_lt _ a.toNat_lt
    · rename_i hne
      refine ⟨hrun, hmapped, fun _ => ?_, fun hz => absurd hz hne⟩
      rw [owns_self hrun, hblock, toNat_ofNat_getLE]
      exact nonzero_eq_some.mpr ⟨rfl, ofNat_getLE_eq_zero.not.mp hne⟩

end Bmap

/-! ### `readi` -/

section Read

variable {sb : Superblock} {ip : Nat} {s : State}

theorem chunk_toNat {n tot : UInt32} (off : UInt32) (h : tot ≤ n) :
    (chunk n tot off).toNat = min (n.toNat - tot.toNat) (BSIZE - off.toNat % BSIZE) := by
  have hB : (UInt32.ofNat BSIZE).toNat = BSIZE := rfl
  have hmod : off % UInt32.ofNat BSIZE ≤ UInt32.ofNat BSIZE := by
    rw [UInt32.le_iff_toNat_le, UInt32.toNat_mod, hB]
    exact Nat.le_of_lt (Nat.mod_lt _ (by decide))
  have ha := UInt32.toNat_sub_of_le n tot h
  have hb := UInt32.toNat_sub_of_le _ _ hmod
  rw [UInt32.toNat_mod, hB] at hb
  simp only [chunk, ← ha, ← hb]
  split
  · rename_i hlt
    rw [UInt32.lt_iff_toNat_lt] at hlt
    exact (Nat.min_eq_left (Nat.le_of_lt hlt)).symm
  · rename_i hge
    rw [UInt32.lt_iff_toNat_lt] at hge
    exact (Nat.min_eq_right (Nat.not_lt.mp hge)).symm

/-- Byte `k` of a file. -/
def Dinode.fileByte (x : Dinode) (d : Disk) (k : Nat) : UInt8 :=
  d (x.fileBlock d (k / BSIZE)) (k % BSIZE)

/-- How many bytes a read of `n` bytes at `off` returns from a file of `size` bytes. -/
def readLen (size off n : UInt32) : Nat :=
  if size < off ∨ off + n < off then 0 else min n.toNat (size.toNat - off.toNat)

theorem map_fileByte {x : Dinode} {d : Disk} {off m : Nat} (h : off % BSIZE + m ≤ BSIZE) :
    ((List.range m).map fun k => d (x.fileBlock d (off / BSIZE)) (off % BSIZE + k)) =
      (List.range m).map fun k => x.fileByte d (off + k) := by
  refine List.map_congr_left fun k hk => ?_
  have hlt : off % BSIZE + k < BSIZE := by
    have := List.mem_range.mp hk
    omega
  have hsplit : off + k = off % BSIZE + k + off / BSIZE * BSIZE := by
    have := Nat.div_add_mod' off BSIZE
    omega
  unfold Dinode.fileByte
  rw [hsplit, Nat.add_mul_mod_self_right, Nat.mod_eq_of_lt hlt,
    Nat.add_mul_div_right _ _ (by decide), Nat.div_eq_of_lt hlt, Nat.zero_add]

/-- There is no hole in the range of `n` bytes at `off`. -/
def Dinode.Present (x : Dinode) (d : Disk) (off n : Nat) : Prop :=
  ∀ k < n, x.fileBlock d ((off + k) / BSIZE) ≠ 0

theorem Dinode.Dense.present {x : Dinode} {d : Disk} {off n : Nat} (h : x.Dense d)
    (hn : 0 < n → off + n ≤ x.size.toNat) : x.Present d off n := by
  intro k hk
  refine h _ ?_
  have := Nat.div_mul_le_self (off + k) BSIZE
  omega

/-- The loop of `readi` on a range without holes: no block is allocated, and the bytes of the
    file are copied out until a copy fails. -/
theorem wp_readLoop {E : Stop → Prop} (fault : Nat → Bool) {off n : UInt32}
    (hpresent : (s.inode ip).copy.Present s.disk off.toNat n.toNat)
    (hn : off.toNat + n.toNat ≤ (s.inode ip).copy.size.toNat) :
    wp (loop (readBody sb ip fault n) (n.toNat + 1) ⟨0, off, [], false⟩) E (fun v s' =>
      s' = s ∧ ((∀ k, fault k = false) → v.failed = false ∧ v.tot = n ∧
        v.data = (List.range n.toNat).map fun k =>
          (s.inode ip).copy.fileByte s.disk (off.toNat + k))) s := by
  refine wp_loop (I := fun v t => t = s ∧ v.tot ≤ n ∧ v.off.toNat = off.toNat + v.tot.toNat ∧
      ((∀ k, fault k = false) → v.failed = false ∧
        v.data = (List.range v.tot.toNat).map fun k =>
          (s.inode ip).copy.fileByte s.disk (off.toNat + k)))
    (fun v => n.toNat - v.tot.toNat) ⟨rfl, ?_, by simp, fun _ => ⟨rfl, by simp⟩⟩
    (Nat.lt_succ_of_le (Nat.sub_le _ _)) ?_
  · rw [UInt32.le_iff_toNat_le]
    exact Nat.zero_le _
  rintro v t ⟨rfl, htot, hoff, hdata⟩
  unfold readBody
  split
  · rename_i hlt
    have hlt' := UInt32.lt_iff_toNat_lt.mp hlt
    have hblock := hpresent v.tot.toNat hlt'
    rw [← hoff] at hblock
    rw [wp_bind]
    refine wp_mono (wp_bmap_present hblock) fun a t' ⟨hst, ha⟩ => ?_
    subst hst
    have ha0 : a ≠ 0 := fun hz => hblock (by rw [← ha, hz]; rfl)
    simp only [if_neg ha0, wp_bind, bread, wp_get, wp_pure]
    split
    · rename_i hfault
      exact ⟨fun h => absurd h (by simp), fun _ => ⟨rfl, fun hnone => by
        rw [hnone] at hfault
        exact absurd hfault (by simp)⟩⟩
    · have hm := chunk_toNat v.off (UInt32.le_of_lt hlt)
      have hmod := Nat.mod_lt v.off.toNat (show 0 < BSIZE by decide)
      generalize chunk n v.tot v.off = m at hm ⊢
      have hnlt := n.toNat_lt
      have hslt := (t'.inode ip).copy.size.toNat_lt
      have htotm : (v.tot + m).toNat = v.tot.toNat + m.toNat := by
        rw [UInt32.toNat_add]
        exact Nat.mod_eq_of_lt (by omega)
      have hoffm : (v.off + m).toNat = v.off.toNat + m.toNat := by
        rw [UInt32.toNat_add]
        exact Nat.mod_eq_of_lt (by omega)
      refine ⟨fun _ => ⟨⟨rfl, ?_, ?_, fun hnone => ⟨(hdata hnone).1, ?_⟩⟩, ?_⟩,
        fun h => absurd h (by simp)⟩
      · rw [UInt32.le_iff_toNat_le, htotm]
        omega
      · rw [htotm, hoffm]
        omega
      · rw [(hdata hnone).2, ha, map_fileByte (by omega), htotm, List.range_add, List.map_append,
          List.map_map, hoff]
        refine congrArg _ (List.map_congr_left fun k _ => ?_)
        rw [Function.comp_apply, Nat.add_assoc]
      · rw [htotm]
        omega
  · rename_i hge
    have heq : v.tot = n := UInt32.le_antisymm htot (UInt32.not_lt.mp hge)
    refine ⟨fun h => absurd h (by simp), fun _ => ⟨rfl, fun hnone => ?_⟩⟩
    obtain ⟨hfailed, hbytes⟩ := hdata hnone
    exact ⟨hfailed, heq, by rw [hbytes, heq]⟩

/-- The test of `readi` and `writei` for overflow of `off + n`. -/
theorem toNat_add_of_not_wrap {off n : UInt32} (h : off.toNat ≤ (off + n).toNat) :
    (off + n).toNat = off.toNat + n.toNat := by
  rw [UInt32.toNat_add] at h ⊢
  refine Nat.mod_eq_of_lt (Nat.not_le.mp fun hge => ?_)
  have hoff := off.toNat_lt
  have hn := n.toNat_lt
  rw [Nat.mod_eq_sub_mod hge, Nat.mod_eq_of_lt (by omega)] at h
  omega

/-- **`readi`** of a range without holes changes nothing, and delivers the bytes of the file
    unless a copy out fails. -/
theorem wp_readi_present {E : Stop → Prop} (fault : Nat → Bool) (off n : UInt32)
    (hpresent : (s.inode ip).copy.Present s.disk off.toNat
      (readLen (s.inode ip).copy.size off n)) :
    wp (readi sb ip fault off n) E (fun r s' => s' = s ∧
      ((∀ k, fault k = false) → r.1 = readLen (s.inode ip).copy.size off n ∧
        r.2 = (List.range (readLen (s.inode ip).copy.size off n)).map fun k =>
          (s.inode ip).copy.fileByte s.disk (off.toNat + k))) s := by
  simp only [readi, wp_bind, wp_get]
  generalize hsize : (s.inode ip).copy.size = size at hpresent ⊢
  unfold readLen at hpresent ⊢
  split
  · rw [wp_pure]
    exact ⟨rfl, fun _ => ⟨rfl, rfl⟩⟩
  · rename_i hin
    obtain ⟨hoff, hwrap⟩ := not_or.mp hin
    rw [UInt32.lt_iff_toNat_lt, Nat.not_lt] at hoff hwrap
    have hsum := toNat_add_of_not_wrap hwrap
    -- the number of bytes after clipping to the size
    have hclip : (if size < off + n then size - off else n).toNat =
        min n.toNat (size.toNat - off.toNat) := by
      split
      · rename_i hlt
        rw [UInt32.lt_iff_toNat_lt, hsum] at hlt
        rw [UInt32.toNat_sub_of_le _ _ (UInt32.le_iff_toNat_le.mpr hoff)]
        omega
      · rename_i hge
        rw [UInt32.lt_iff_toNat_lt, hsum] at hge
        omega
    rw [wp_bind]
    generalize (if size < off + n then size - off else n) = len at hclip ⊢
    have hfit : off.toNat + len.toNat ≤ (s.inode ip).copy.size.toNat := by
      rw [hclip, hsize]
      omega
    rw [if_neg hin, ← hclip] at hpresent
    refine wp_mono (wp_readLoop fault hpresent hfit) ?_
    rintro v s' ⟨hst, hv⟩
    rw [wp_pure]
    refine ⟨hst, fun hnone => ?_⟩
    obtain ⟨hfailed, htot, hbytes⟩ := hv hnone
    rw [← hclip, hbytes, htot, hfailed]
    exact ⟨rfl, rfl⟩

theorem readLen_le {size off n : UInt32} (h : 0 < readLen size off n) :
    off.toNat + readLen size off n ≤ size.toNat := by
  unfold readLen at h ⊢
  split at h
  · omega
  · rename_i hin
    rw [if_neg hin]
    omega

/-- **`readi`** of a file without holes. -/
theorem wp_readi {E : Stop → Prop} (fault : Nat → Bool) (off n : UInt32)
    (hdense : (s.inode ip).copy.Dense s.disk) :
    wp (readi sb ip fault off n) E (fun r s' => s' = s ∧
      ((∀ k, fault k = false) → r.1 = readLen (s.inode ip).copy.size off n ∧
        r.2 = (List.range (readLen (s.inode ip).copy.size off n)).map fun k =>
          (s.inode ip).copy.fileByte s.disk (off.toNat + k))) s :=
  wp_readi_present fault off n (hdense.present readLen_le)

end Read

end Xv6.Fs
