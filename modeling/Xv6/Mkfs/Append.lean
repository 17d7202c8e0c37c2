import Mathlib.Data.List.GetD
import Xv6.Mkfs.Program

/-!
# `iappend`

`mkfs` hands out the data blocks in order and never frees one, so the blocks from `nmeta` up
to `freeblock` are those that the inodes name, each once, and the blocks behind are blank.  In
such an image an inode stores a list of bytes, padded with zeros to the end of its last block;
`iappend` makes this list longer and leaves the other inodes alone.
-/

namespace Xv6.Mkfs

open ByteView Hoare Ledger Fs Function

def blank : Block := fun _ => 0

/-- How many blocks a file of `n` bytes takes, its indirect block included. -/
def blocksOf (n : Nat) : Nat :=
  (n + BSIZE - 1) / BSIZE + if NDIRECT * BSIZE < n then 1 else 0

/-- The inode `x` has the blocks that a file of these bytes needs, and no others, and they hold
    the bytes followed by zeros. -/
structure Stores (x : Dinode) (d : Disk) (bytes : List UInt8) : Prop where
  block : ∀ bn, x.fileBlock d bn ≠ 0 ↔ bn * BSIZE < bytes.length
  indirect : x.addrs (Fin.last NDIRECT) ≠ 0 ↔ NDIRECT * BSIZE < bytes.length
  byte : ∀ k, x.fileBlock d (k / BSIZE) ≠ 0 → x.fileByte d k = bytes.getD k 0

/-- The blocks from `nmeta` up to `freeblock` are named by one address each of the inodes `D`,
    and those behind are blank. -/
structure Packed (D : Nat → Dinode) (s : State) : Prop where
  nsect : s.nsect = FSSIZE
  exact : Exact (owner sb D s.disk) [] (fun b => s.freeblock ≤ b) fun b => nmeta ≤ b
  nmeta_le : nmeta ≤ s.freeblock
  blank : ∀ b, s.freeblock ≤ b → s.disk b = blank

/-- From `s` to `s'` the inode `i` may have gained the block at `k` and its indirect block. -/
structure Extended (i : Nat) (k : Slot) (D : Nat → Dinode) (s : State) (D' : Nat → Dinode)
    (s' : State) : Prop where
  others : ∀ j, j ≠ i → D' j = D j
  fields : ∃ addrs, D' i = { D i with addrs := addrs }
  same : ∀ p, p ≠ (i, k) → p ≠ (i, .indirect) → owner sb D' s'.disk p = owner sb D s.disk p
  kept : ∀ p b, owner sb D s.disk p = some b → owner sb D' s'.disk p = some b
  disk : ∀ b, owner sb D' s'.disk (i, .indirect) ≠ some b → s'.disk b = s.disk b
  fresh : ∀ p b, owner sb D' s'.disk p = some b → owner sb D s.disk p = some b ∨ s.freeblock ≤ b
  freeblock : s.freeblock ≤ s'.freeblock
  freeinode : s'.freeinode = s.freeinode

def State.setDisk (s : State) (d : Disk) : State := { s with disk := d }

@[simp] theorem State.setDisk_disk (s : State) (d : Disk) : (s.setDisk d).disk = d := rfl

@[simp] theorem State.setDisk_freeblock (s : State) (d : Disk) :
    (s.setDisk d).freeblock = s.freeblock := rfl

section Sectors

variable {s : State} {E : Abort → Prop} {sec : Nat}

theorem sector_of_lt (h : sec < 2 ^ 22) : sector sec = sec := by
  have hlt : sec * BSIZE < 2 ^ 32 := by
    rw [show BSIZE = 1024 from rfl]
    omega
  unfold sector
  rw [Nat.mod_eq_of_lt hlt, Nat.mul_div_cancel _ (by decide)]

theorem wp_wsect {buf : Block} {Q : Unit → State → Prop} (hn : s.nsect = FSSIZE)
    (hsec : sec < FSSIZE) (h : Q () (s.setDisk (update s.disk sec buf))) :
    wp (wsect sec buf) E Q s := by
  have hF : FSSIZE < 2 ^ 22 := by decide
  have hmax : max s.nsect (sec + 1) = s.nsect := Nat.max_eq_left (by omega)
  simp only [wsect, wp_modify, sector_of_lt (Nat.lt_trans hsec hF), hmax]
  exact h

theorem wp_rsect {Q : Block → State → Prop} (hn : s.nsect = FSSIZE) (hsec : sec < 2 ^ 22)
    (hdie : FSSIZE ≤ sec → E .die) (h : sec < FSSIZE → Q (s.disk sec) s) :
    wp (rsect sec) E Q s := by
  simp only [rsect, wp_bind, wp_get, sector_of_lt hsec, hn]
  rw [wp_ite]
  exact ⟨h, fun hge => hdie (Nat.not_lt.mp hge)⟩

theorem wp_assert {c : Prop} [Decidable c] {Q : Unit → State → Prop}
    (hfail : ¬ c → E .assert) (h : c → Q () s) : wp (assert c) E Q s := by
  unfold assert
  rw [wp_ite]
  exact ⟨h, hfail⟩

end Sectors

section Blocks

variable {D D' D'' : Nat → Dinode} {s s' s'' : State} {E : Abort → Prop} {i : Nat} {k : Slot}

theorem nonzero_inj {a b : Nat} (h : nonzero a = nonzero b) : a = b := by
  by_cases ha : a = 0
  · rw [ha] at h ⊢
    exact (nonzero_eq_none.mp h.symm).symm
  · exact (nonzero_eq_some.mp (h.symm.trans (nonzero_eq_some.mpr ⟨rfl, ha⟩))).1.symm

theorem owner_live (hi : i < NINODES) (hlive : (D i).type ≠ 0) (k : Slot) (d : Disk) :
    owner sb D d (i, k) = nonzero ((D i).block d k) :=
  if_pos ⟨hi, hlive⟩

theorem owner_slotOf (hi : i < NINODES) (hlive : (D i).type ≠ 0) {bn : Nat} (hbn : bn < MAXFILE)
    (d : Disk) : owner sb D d (i, slotOf bn hbn) = nonzero ((D i).fileBlock d bn) := by
  rw [owner_live hi hlive, Dinode.fileBlock_eq hbn]

/-! ### Gaining a block -/

theorem Packed.owned_lt (h : Packed D s) {p : Nat × Slot} {b : Nat}
    (hp : owner sb D s.disk p = some b) : nmeta ≤ b ∧ b < s.freeblock :=
  ⟨h.exact.owned p b hp, Nat.not_le.mp (h.exact.not_free_of_owned hp)⟩

theorem Extended.refl (i : Nat) (k : Slot) (D : Nat → Dinode) (s : State) :
    Extended i k D s D s :=
  ⟨fun _ _ => rfl, ⟨_, rfl⟩, fun _ _ _ => rfl, fun _ _ h => h, fun _ _ => rfl, fun _ _ h => Or.inl h,
    Nat.le_refl _, rfl⟩

theorem Extended.trans (h : Extended i k D s D' s') (h' : Extended i k D' s' D'' s'') :
    Extended i k D s D'' s'' := by
  obtain ⟨addrs, heq⟩ := h.fields
  obtain ⟨addrs', heq'⟩ := h'.fields
  refine ⟨fun j hj => (h'.others j hj).trans (h.others j hj), ⟨addrs', by rw [heq', heq]⟩,
    fun p hk hind => (h'.same p hk hind).trans (h.same p hk hind),
    fun p b hp => h'.kept p b (h.kept p b hp), fun b hb => ?_, fun p b hp => ?_,
    Nat.le_trans h.freeblock h'.freeblock, h'.freeinode.trans h.freeinode⟩
  · rw [h'.disk b hb, h.disk b fun hold => hb (h'.kept _ b hold)]
  · rcases h'.fresh p b hp with hold | hnew
    · exact h.fresh p b hold
    · exact Or.inr (Nat.le_trans h.freeblock hnew)

theorem Extended.of_indirect (h : Extended i .indirect D s D' s') (k : Slot) :
    Extended i k D s D' s' :=
  { h with same := fun p _ hind => h.same p hind hind }

/-- The next free block goes into an empty place of the inode `i`; of the blocks in use only
    the indirect block of `i` may have changed. -/
theorem Packed.gain (h : Packed D s) {d' : Disk} (hothers : ∀ j, j ≠ i → D' j = D j)
    (hfields : ∃ addrs, D' i = { D i with addrs := addrs })
    (hnone : owner sb D s.disk (i, k) = none)
    (hgot : owner sb D' d' (i, k) = some s.freeblock)
    (hrest : ∀ p, p ≠ (i, k) → owner sb D' d' p = owner sb D s.disk p)
    (hdisk : ∀ b, owner sb D' d' (i, .indirect) ≠ some b → d' b = s.disk b)
    (hblank : ∀ b, s.freeblock ≤ b → d' b = s.disk b) :
    Packed D' { s with disk := d', freeblock := s.freeblock + 1 } ∧
      Extended i k D s D' { s with disk := d', freeblock := s.freeblock + 1 } := by
  have hloose : Exact (owner sb D s.disk) [s.freeblock] (fun b => s.freeblock + 1 ≤ b)
      fun b => nmeta ≤ b :=
    h.exact.alloc h.nmeta_le (Nat.le_refl _) fun b _ => by omega
  have hkept : ∀ p b, owner sb D s.disk p = some b → owner sb D' d' p = some b := fun p b hp => by
    rw [hrest p fun heq => by rw [heq, hnone] at hp; cases hp]
    exact hp
  refine ⟨⟨h.nsect, hloose.assign hnone hgot hrest, Nat.le_succ_of_le h.nmeta_le, fun b hb => ?_⟩,
    ⟨hothers, hfields, fun p hk _ => hrest p hk, hkept, hdisk, fun p b hp => ?_, Nat.le_succ _, rfl⟩⟩
  · have hb' : s.freeblock ≤ b := Nat.le_of_succ_le hb
    rw [← h.blank b hb', ← hblank b hb']
  · by_cases hpk : p = (i, k)
    · subst hpk
      exact Or.inr (Nat.le_of_eq (Option.some.inj (hgot.symm.trans hp)))
    · exact Or.inl ((hrest p hpk).symm.trans hp)

theorem toNat_freeblock (hlt : s.freeblock < 2 ^ 22) :
    (UInt32.ofNat s.freeblock).toNat = s.freeblock := by
  rw [UInt32.toNat_ofNat']
  exact Nat.mod_eq_of_lt (by omega)

/-- **`addrs[k]`, with the next block for it if there was none.** -/
theorem wp_addrOrNext (h : Packed D s) (hi : i < NINODES) (hlive : (D i).type ≠ 0)
    (hlt : s.freeblock < 2 ^ 22) (k : Fin (NDIRECT + 1)) :
    wp (addrOrNext (D i) k) E (fun r s' =>
      Packed (update D i r.1) s' ∧
      Extended i (addrSlot k) D s (update D i r.1) s' ∧
      (r.1.addrs k = r.2 ∧ r.2 ≠ 0 ∧ ∀ l, l ≠ k → r.1.addrs l = (D i).addrs l) ∧
      s'.disk = s.disk ∧ (s'.freeblock = s.freeblock + if (D i).addrs k = 0 then 1 else 0) ∧
      (s.freeblock < s'.freeblock → r.2.toNat + 1 = s'.freeblock)) s := by
  unfold addrOrNext
  split
  · rename_i hzero
    simp only [nextBlock, wp_bind, wp_get, wp_modify, wp_pure]
    generalize hx : UInt32.ofNat s.freeblock = x
    have hnat : x.toNat = s.freeblock := by rw [← hx, toNat_freeblock hlt]
    have hlive' : ((D i).setAddr k x).type ≠ 0 := hlive
    have hpos : s.freeblock ≠ 0 := by
      have hmeta : 0 < nmeta := by decide
      have := h.nmeta_le
      omega
    have hempty : k = Fin.last NDIRECT → (D i).addrs k = 0 ∧ s.disk x.toNat = fun _ => 0 :=
      fun _ => ⟨hzero, by rw [hnat]; exact h.blank _ (Nat.le_refl _)⟩
    have hothers : ∀ j, j ≠ i → update D i ((D i).setAddr k x) j = D j :=
      fun j hj => update_of_ne hj _ _
    obtain ⟨hpacked, hext⟩ := h.gain (k := addrSlot k) hothers
      ⟨_, update_self ..⟩
      (by rw [owner_live hi hlive, block_addrSlot, hzero]; rfl)
      (by
        rw [owner_self hi hlive', block_addrSlot, Dinode.setAddr_self]
        exact nonzero_eq_some.mpr ⟨hnat, hpos⟩)
      (by
        rintro ⟨j, slot⟩ hp
        by_cases hj : j = i
        · subst hj
          have hslot : slot ≠ addrSlot k := fun heq => hp (by rw [heq])
          rw [owner_self hi hlive', owner_live hi hlive, block_setAddr hempty hslot]
        · exact owner_other hj)
      (fun _ _ => rfl) fun _ _ => rfl
    exact ⟨hpacked, hext, ⟨Dinode.setAddr_self .., fun hx0 => hpos (by rw [← hnat, hx0]; rfl),
      fun l hl => update_of_ne hl _ _⟩, trivial, trivial, fun _ => by rw [hnat]⟩
  · rename_i hne
    rw [wp_pure, update_eq_self]
    exact ⟨h, .refl .., ⟨rfl, hne, fun _ _ => rfl⟩, rfl, rfl, fun hlt => absurd hlt (Nat.lt_irrefl _)⟩

theorem Packed.gainEntry (h : Packed D s) (hi : i < NINODES) (hlive : (D i).type ≠ 0)
    (hlt : s.freeblock < 2 ^ 22) {j : Fin NINDIRECT} {c : UInt32}
    (hc : (D i).addrs (Fin.last NDIRECT) = c) (hc0 : c ≠ 0)
    (hzero : getLE (s.disk c.toNat) (4 * j) 4 = 0) {d' : Disk}
    (hd : d' = update s.disk c.toNat
      (putLE (s.disk c.toNat) (4 * j) 4 (UInt32.ofNat s.freeblock).toNat)) :
    Packed D { s with disk := d', freeblock := s.freeblock + 1 } ∧
      Extended i (.entry j) D s D { s with disk := d', freeblock := s.freeblock + 1 } ∧
      owner sb D d' (i, .entry j) = some s.freeblock := by
  have hcn : c.toNat ≠ 0 := fun hz => hc0 (UInt32.toNat_inj.mp hz)
  have hown : ∀ d, owner sb D d (i, .indirect) = some c.toNat := fun d => by
    rw [owner_live hi hlive]
    exact nonzero_eq_some.mpr ⟨by rw [Dinode.block, hc], hcn⟩
  have hpos : s.freeblock ≠ 0 := by
    have hmeta : 0 < nmeta := by decide
    have := h.nmeta_le
    omega
  have hfinal : ∀ b, b ≠ c.toNat → d' b = s.disk b := fun b hb => by
    rw [hd, update_of_ne hb]
  have hgot : owner sb D d' (i, .entry j) = some s.freeblock := by
    rw [owner_live hi hlive, hd, block_setEntry_self (by rw [hc]) hcn, toNat_freeblock hlt]
    exact nonzero_eq_some.mpr ⟨rfl, hpos⟩
  refine (h.gain (fun _ _ => rfl) ⟨_, rfl⟩ ?_ hgot ?_ (fun b hb => ?_) fun b hb => ?_).imp_right
    fun hext => ⟨hext, hgot⟩
  · rw [owner_live hi hlive]
    simp only [Dinode.block, hc, if_neg hc0, hzero]
    rfl
  · rintro ⟨n, slot⟩ hp
    by_cases hn : n = i
    · subst hn
      have hslot : slot ≠ .entry j := fun heq => hp (by rw [heq])
      rw [owner_live hi hlive, owner_live hi hlive, hd, block_setEntry (by rw [hc]) hslot]
    · -- the indirect block of another inode is another block
      refine owner_congr_disk fun b hb => hfinal b ?_
      rintro rfl
      exact hn (congrArg Prod.fst (h.exact.once _ _ _ hb (hown _)))
  · exact hfinal b fun heq => hb (by rw [hown, heq])
  · have hclt := (h.owned_lt (hown s.disk)).2
    exact hfinal b (by omega)

/-- How many blocks `iappend` takes for block `fbn` of the inode `x`. -/
def newBlocks (x : Dinode) (d : Disk) (fbn : Nat) : Nat :=
  (if x.fileBlock d fbn = 0 then 1 else 0) +
    if NDIRECT ≤ fbn ∧ x.addrs (Fin.last NDIRECT) = 0 then 1 else 0

theorem wp_blockFor (h : Packed D s) (hi : i < NINODES) (hlive : (D i).type ≠ 0)
    (hle : s.freeblock ≤ FSSIZE) {fbn : Nat} (hfbn : fbn < MAXFILE)
    (hfull : FSSIZE < s.freeblock + newBlocks (D i) s.disk fbn → E .die) :
    wp (blockFor (D i) fbn) E (fun r s' =>
      Packed (update D i r.1) s' ∧
      Extended i (slotOf fbn hfbn) D s (update D i r.1) s' ∧
      owner sb (update D i r.1) s'.disk (i, slotOf fbn hfbn) = some r.2.toNat ∧
      (r.1.addrs (Fin.last NDIRECT) ≠ 0 ↔
        (D i).addrs (Fin.last NDIRECT) ≠ 0 ∨ NDIRECT ≤ fbn) ∧
      s'.freeblock = s.freeblock + newBlocks (D i) s.disk fbn ∧
      (s.freeblock < s'.freeblock → r.2.toNat + 1 = s'.freeblock)) s := by
  have hF : FSSIZE + 2 < 2 ^ 22 := by decide
  have hpos : ∀ a : UInt32, a ≠ 0 → a.toNat ≠ 0 := fun a ha hz => ha (UInt32.toNat_inj.mp hz)
  unfold blockFor
  by_cases hd : fbn < NDIRECT
  · rw [dif_pos hd]
    have hslot : slotOf fbn hfbn = addrSlot ⟨fbn, Nat.lt_succ_of_lt hd⟩ := by
      rw [slotOf, dif_pos hd, ← addrSlot_castSucc]
      rfl
    refine wp_mono (wp_addrOrNext h hi hlive (by omega) _) ?_
    rintro r s' ⟨hpacked, hext, ⟨haddr, hne, hrest⟩, _, hfree, hlast⟩
    obtain ⟨addrs, hfields⟩ := hext.fields
    rw [update_self] at hfields
    have hlive' : r.1.type ≠ 0 := by rw [hfields]; exact hlive
    refine ⟨hpacked, hslot ▸ hext, ?_, ?_, ?_, hlast⟩
    · rw [hslot, owner_self hi hlive', block_addrSlot, haddr]
      exact nonzero_eq_some.mpr ⟨rfl, hpos _ hne⟩
    · rw [hrest _ fun heq => Nat.ne_of_gt hd (congrArg Fin.val heq)]
      exact ⟨Or.inl, fun hor => hor.resolve_right (Nat.not_le.mpr hd)⟩
    · have hzero : (D i).fileBlock s.disk fbn = 0 ↔ (D i).addrs ⟨fbn, Nat.lt_succ_of_lt hd⟩ = 0 := by
        rw [Dinode.fileBlock_eq hfbn, hslot, block_addrSlot, ← UInt32.toNat_inj]
        rfl
      simp only [hfree, newBlocks, hzero, Nat.not_le.mpr hd, false_and, if_false, Nat.add_zero]
  · have hin : fbn - NDIRECT < NINDIRECT := by unfold MAXFILE at hfbn; omega
    have hslot : slotOf fbn hfbn = .entry ⟨fbn - NDIRECT, hin⟩ := by rw [slotOf, dif_neg hd]
    rw [dif_neg hd, wp_bind]
    refine wp_mono (wp_addrOrNext h hi hlive (by omega) (Fin.last NDIRECT)) ?_
    rintro r s₁ ⟨hpacked, hext, ⟨haddr, hne, _⟩, _, hfree, _⟩
    obtain ⟨din, c⟩ := r
    obtain ⟨addrs, hfields⟩ := hext.fields
    rw [update_self] at hfields
    dsimp only at hpacked hext haddr hne hfree hfields ⊢
    rw [addrSlot_last] at hext
    generalize hD₁ : update D i din = D₁ at hpacked hext
    have hdin : D₁ i = din := by rw [← hD₁, update_self]
    have hlive₁ : (D₁ i).type ≠ 0 := by rw [hdin, hfields]; exact hlive
    have haddr₁ : (D₁ i).addrs (Fin.last NDIRECT) = c := by rw [hdin, haddr]
    have hcown : owner sb D₁ s₁.disk (i, .indirect) = some c.toNat := by
      rw [owner_live hi hlive₁]
      exact nonzero_eq_some.mpr ⟨by rw [Dinode.block, haddr₁], hpos c hne⟩
    have hclt := (hpacked.owned_lt hcown).2
    have hblock₁ : (D₁ i).block s₁.disk (.entry ⟨fbn - NDIRECT, hin⟩) =
        getLE (s₁.disk c.toNat) (4 * (fbn - NDIRECT)) 4 := by
      simp only [Dinode.block, haddr₁, if_neg hne]
    have hfile : (D i).fileBlock s.disk fbn = getLE (s₁.disk c.toNat) (4 * (fbn - NDIRECT)) 4 := by
      rw [← hblock₁, Dinode.fileBlock_eq hfbn, hslot]
      refine nonzero_inj ?_
      rw [← owner_live hi hlive, ← owner_live hi hlive₁]
      exact (hext.same _ (by simp) (by simp)).symm
    have hnew : newBlocks (D i) s.disk fbn =
        (if getLE (s₁.disk c.toNat) (4 * (fbn - NDIRECT)) 4 = 0 then 1 else 0) +
          if (D i).addrs (Fin.last NDIRECT) = 0 then 1 else 0 := by
      simp only [newBlocks, hfile, Nat.not_lt.mp hd, true_and]
    have hone : (if (D i).addrs (Fin.last NDIRECT) = 0 then 1 else 0) ≤ 1 := by split <;> omega
    have hlast : din.addrs (Fin.last NDIRECT) ≠ 0 ↔
        (D i).addrs (Fin.last NDIRECT) ≠ 0 ∨ NDIRECT ≤ fbn := by
      rw [haddr]
      exact ⟨fun _ => Or.inr (Nat.not_lt.mp hd), fun _ => hne⟩
    rw [wp_bind]
    refine wp_rsect hpacked.nsect (by omega) (fun hge => hfull (by omega)) fun hlt => ?_
    split
    · rename_i hzero
      rw [ofNat_getLE_eq_zero] at hzero
      rw [if_pos hzero] at hnew
      simp only [nextBlock, wp_bind, wp_get, wp_modify, wp_pure]
      obtain ⟨hpacked₂, hext₂, hown₂⟩ := hpacked.gainEntry hi hlive₁ (by omega)
        (j := ⟨fbn - NDIRECT, hin⟩) haddr₁ hne hzero rfl
      refine wp_wsect hpacked.nsect hlt ?_
      rw [hD₁, hslot]
      have hx := toNat_freeblock (s := s₁) (by omega)
      refine ⟨hpacked₂, (hext.of_indirect _).trans hext₂, hown₂.trans (congrArg some hx.symm), hlast,
        ?_, fun _ => by rw [hx]; rfl⟩
      show s₁.freeblock + 1 = _
      omega
    · rename_i hentry
      rw [ofNat_getLE_eq_zero] at hentry
      rw [if_neg hentry] at hnew
      rw [wp_pure]
      dsimp only
      rw [hD₁, hslot]
      have hold : (D i).addrs (Fin.last NDIRECT) ≠ 0 := fun hz => by
        rw [← hfile, Dinode.fileBlock_eq hfbn, hslot] at hentry
        exact hentry (if_pos hz)
      rw [if_neg hold] at hfree hnew
      refine ⟨hpacked, hext.of_indirect _, ?_, hlast, by omega, fun hgt => absurd hgt (by omega)⟩
      rw [owner_live hi hlive₁, hblock₁, toNat_ofNat_getLE]
      exact nonzero_eq_some.mpr ⟨rfl, hentry⟩

theorem Packed.writeData (h : Packed D s) {p : Nat × Slot} {b : Nat}
    (hp : owner sb D s.disk p = some b) (hslot : p.2 ≠ .indirect) (v : Block) :
    Packed D (s.setDisk (update s.disk b v)) ∧
      ∀ q, owner sb D (update s.disk b v) q = owner sb D s.disk q := by
  have hown : ∀ q, owner sb D (update s.disk b v) q = owner sb D s.disk q := fun q =>
    owner_congr_disk fun c hc => update_of_ne (fun heq => hslot (by
      rw [heq] at hc
      rw [← h.exact.once _ _ _ hc hp])) _ _
  refine ⟨⟨h.nsect, h.exact.congr hown fun _ _ => Iff.rfl, h.nmeta_le, fun c hc => ?_⟩, hown⟩
  have hlt := (h.owned_lt hp).2
  rw [State.setDisk_freeblock] at hc
  rw [State.setDisk_disk, update_of_ne (by omega), h.blank c hc]

end Blocks

/-! ### The bytes of a file -/

section Stores

variable {x x' : Dinode} {d d' : Disk} {bytes p : List UInt8} {fbn b : Nat}

theorem Stores.congr (h : Stores x d bytes)
    (hd : ∀ k, x.block d k ≠ 0 → d' (x.block d k) = d (x.block d k)) : Stores x d' bytes := by
  have hblock : ∀ k, x.block d' k = x.block d k := by
    intro k
    cases k with
    | direct j => rfl
    | indirect => rfl
    | entry j =>
      by_cases hind : x.addrs (Fin.last NDIRECT) = 0
      · simp [Dinode.block, hind]
      · have hsame := hd .indirect fun hz => hind (UInt32.toNat_inj.mp hz)
        simp only [Dinode.block] at hsame ⊢
        rw [hsame]
  have hfile : x.fileBlock d' = x.fileBlock d := by
    funext bn
    simp only [Dinode.fileBlock, hblock]
  refine ⟨fun bn => by rw [hfile]; exact h.block bn, h.indirect, fun k hk => ?_⟩
  rw [hfile] at hk
  rw [← h.byte k hk]
  unfold Dinode.fileByte
  have hlt := Dinode.lt_of_fileBlock hk
  rw [hfile]
  rw [Dinode.fileBlock_eq hlt] at hk ⊢
  rw [hd _ hk]

/-- **The bytes `p` are added in the last block of a file**, or in a new block behind it:
    `b` is the block, and `base` what it held. -/
theorem Stores.append (h : Stores x d bytes) (hfbn : fbn = bytes.length / BSIZE) (hp : 0 < p.length)
    (hfit : bytes.length + p.length ≤ (fbn + 1) * BSIZE)
    (hblock : ∀ bn, bn ≠ fbn → x'.fileBlock d' bn = x.fileBlock d bn)
    (hhere : x'.fileBlock d' fbn = b) (hb : b ≠ 0)
    (hind : x'.addrs (Fin.last NDIRECT) ≠ 0 ↔
      x.addrs (Fin.last NDIRECT) ≠ 0 ∨ NDIRECT ≤ fbn)
    (hold : ∀ bn, bn ≠ fbn → x.fileBlock d bn ≠ 0 →
      d' (x.fileBlock d bn) = d (x.fileBlock d bn))
    {base : Block} (hnew : d' b = bcopy p base (bytes.length - fbn * BSIZE))
    (hbase : ∀ k, k / BSIZE = fbn → base (k % BSIZE) = bytes.getD k 0) :
    Stores x' d' (bytes ++ p) := by
  have hN : NDIRECT = 12 := rfl
  have hdiv := Nat.div_add_mod' bytes.length BSIZE
  have hmod := Nat.mod_lt bytes.length (show 0 < BSIZE by decide)
  rw [← hfbn] at hdiv
  refine ⟨fun bn => ?_, ?_, fun k hk => ?_⟩
  · rw [List.length_append]
    by_cases hbn : bn = fbn
    · subst hbn
      rw [hhere]
      exact ⟨fun _ => by omega, fun _ => hb⟩
    · rw [hblock bn hbn, h.block bn]
      rw [show BSIZE = 1024 from rfl] at hdiv hmod hfit ⊢
      omega
  · rw [hind, h.indirect, List.length_append, hN]
    rw [show BSIZE = 1024 from rfl] at hdiv hmod hfit ⊢
    omega
  · unfold Dinode.fileByte
    by_cases hbn : k / BSIZE = fbn
    · rw [hbn, hhere, hnew]
      unfold bcopy
      have hk' := Nat.div_add_mod' k BSIZE
      rw [hbn] at hk'
      split
      · rename_i hin
        rw [List.getD_append_right _ _ _ _ (by omega)]
        congr 1
        omega
      · rename_i hout
        rw [hbase k hbn]
        by_cases hlt : k < bytes.length
        · rw [List.getD_append _ _ _ _ hlt]
        · rw [List.getD_eq_default _ _ (Nat.not_lt.mp hlt),
            List.getD_eq_default _ _ (by rw [List.length_append]; omega)]
    · rw [hblock _ hbn] at hk ⊢
      rw [hold _ hbn hk]
      have hlt : k < bytes.length := by
        have hfile := (h.block _).mp hk
        have hk' := Nat.div_add_mod' k BSIZE
        have hkm := Nat.mod_lt k (show 0 < BSIZE by decide)
        generalize k / BSIZE = q at hfile hk' hbn
        generalize k % BSIZE = r at hk' hkm
        rw [show BSIZE = 1024 from rfl] at hdiv hmod hk' hkm hfile
        omega
      rw [List.getD_append _ _ _ _ hlt]
      exact h.byte k hk

end Stores

theorem Extended.disk_eq {i : Nat} {k : Slot} {D D' : Nat → Dinode} {s s' : State}
    (hext : Extended i k D s D' s') (hpacked : Packed D' s')
    (hb : owner sb D' s'.disk (i, k) = some b) (v : Block) {q : Nat × Slot} {c : Nat}
    (hq : owner sb D s.disk q = some c) (hk : q ≠ (i, k)) (hind : q ≠ (i, .indirect)) :
    update s'.disk b v c = s.disk c := by
  have hq' := hext.kept q c hq
  rw [update_of_ne, hext.disk c]
  · exact fun h => hind (hpacked.exact.once _ _ _ hq' h)
  · rintro rfl
    exact hk (hpacked.exact.once _ _ _ hq' hb)

/-- **The bytes `p` are written to the block that the inode has for them.** -/
theorem Extended.stores {i : Nat} {D D' : Nat → Dinode} {s s' : State} (hi : i < NINODES)
    (hlive : (D i).type ≠ 0) (hlive' : (D' i).type ≠ 0) (h : Packed D s) (h' : Packed D' s')
    (hstores : Stores (D i) s.disk bytes) (hfbn : bytes.length / BSIZE < MAXFILE)
    (hext : Extended i (slotOf _ hfbn) D s D' s')
    (hb : owner sb D' s'.disk (i, slotOf _ hfbn) = some b)
    (hind : (D' i).addrs (Fin.last NDIRECT) ≠ 0 ↔
      (D i).addrs (Fin.last NDIRECT) ≠ 0 ∨ NDIRECT ≤ bytes.length / BSIZE)
    (hp : 0 < p.length) (hfit : bytes.length + p.length ≤ (bytes.length / BSIZE + 1) * BSIZE)
    (hd : d' = update s'.disk b
      (bcopy p (s'.disk b) (bytes.length - bytes.length / BSIZE * BSIZE))) :
    Stores (D' i) d' (bytes ++ p) := by
  have hown : ∀ q, owner sb D' d' q = owner sb D' s'.disk q := by
    rw [hd]
    exact (h'.writeData hb (slotOf_ne_indirect hfbn) _).2
  obtain ⟨hhere, hb0⟩ := nonzero_eq_some.mp
    ((owner_slotOf hi hlive' hfbn d').symm.trans ((hown _).trans hb))
  have hne : ∀ {bn} (hbn : bn < MAXFILE), bn ≠ bytes.length / BSIZE →
      (i, slotOf bn hbn) ≠ (i, slotOf _ hfbn) := fun hbn hne heq =>
    hne (slotOf_inj hbn hfbn (congrArg Prod.snd heq))
  have hdata : ∀ {bn} (hbn : bn < MAXFILE), (i, slotOf bn hbn) ≠ (i, Slot.indirect) :=
    fun hbn heq => slotOf_ne_indirect hbn (congrArg Prod.snd heq)
  refine hstores.append rfl hp hfit (fun bn hbn => ?_) hhere hb0 hind (fun bn hbn hold => ?_)
    (by rw [hd, update_self]) fun k hk => ?_
  · by_cases hmax : bn < MAXFILE
    · refine nonzero_inj ?_
      rw [← owner_slotOf hi hlive' hmax, ← owner_slotOf hi hlive hmax, hown]
      exact hext.same _ (hne hmax hbn) (hdata hmax)
    · rw [Dinode.fileBlock, Dinode.fileBlock, dif_neg hmax, dif_neg hmax]
  · have hmax := Dinode.lt_of_fileBlock hold
    rw [hd]
    refine hext.disk_eq h' hb _ ?_ (hne hmax hbn) (hdata hmax)
    rw [owner_slotOf hi hlive hmax]
    exact nonzero_eq_some.mpr ⟨rfl, hold⟩
  · -- the block held the last bytes of the file, or it is new and blank
    have hsame : s'.disk b = s.disk b := hext.disk b fun hindb =>
      hdata hfbn (h'.exact.once _ _ _ hb hindb)
    rw [hsame]
    by_cases hold : (D i).fileBlock s.disk (bytes.length / BSIZE) = 0
    · have hfresh : s.freeblock ≤ b := by
        refine (hext.fresh _ b hb).resolve_left fun hc => ?_
        rw [owner_slotOf hi hlive, hold] at hc
        cases hc
      have hlen : bytes.length ≤ bytes.length / BSIZE * BSIZE :=
        Nat.not_lt.mp fun hlt => (hstores.block _).mpr hlt hold
      rw [h.blank b hfresh, List.getD_eq_default]
      · rfl
      · have := Nat.div_add_mod' k BSIZE
        rw [hk] at this
        omega
    · have hkept := hext.kept (i, slotOf _ hfbn) _
        ((owner_slotOf hi hlive hfbn _).trans (nonzero_eq_some.mpr ⟨rfl, hold⟩))
      have hbeq : b = (D i).fileBlock s.disk (bytes.length / BSIZE) :=
        Option.some.inj (hb.symm.trans hkept)
      rw [hbeq, ← hk]
      exact hstores.byte k (by rw [hk]; exact hold)

/-! ### The loop -/

structure File where
  type : UInt16
  bytes : List UInt8

/-- The files `F` with the bytes `p` added to file `i`. -/
def appendTo (F : Nat → Option File) (i : Nat) (p : List UInt8) : Nat → Option File :=
  update F i ((F i).map fun f => { f with bytes := f.bytes ++ p })

/-- The inodes `D` hold the files `F`, and nothing else is in the data blocks. -/
structure Holds (D : Nat → Dinode) (F : Nat → Option File) (s : State) : Prop
    extends Packed D s where
  dead : ∀ i < NINODES, F i = none → (D i).type = 0
  live : ∀ i < NINODES, ∀ f, F i = some f → f.type ≠ 0 ∧ (D i).type = f.type ∧ (D i).nlink = 1
  file : ∀ i < NINODES, ∀ f, F i = some f → Stores (D i) s.disk f.bytes
  -- a file has direct blocks before it has an indirect one
  high : ∀ i b, owner sb D s.disk (i, .indirect) = some b → nmeta + 2 ≤ b

section Loop

variable {D : Nat → Dinode} {F : Nat → Option File} {s : State} {E : Abort → Prop} {i : Nat}
  {f : File}

theorem appendTo_self (hf : F i = some f) (p : List UInt8) :
    appendTo F i p i = some { f with bytes := f.bytes ++ p } := by
  rw [appendTo, update_self, hf]
  rfl

theorem appendTo_ne {j : Nat} (hj : j ≠ i) (p : List UInt8) : appendTo F i p j = F j :=
  update_of_ne hj _ _

theorem blocksOf_add {x : Dinode} {d : Disk} {bytes : List UInt8} {fbn n : Nat} (h : Stores x d bytes)
    (hfbn : fbn = bytes.length / BSIZE) (hn : 0 < n)
    (hfit : bytes.length + n ≤ (fbn + 1) * BSIZE) :
    blocksOf (bytes.length + n) = blocksOf bytes.length + newBlocks x d fbn := by
  have hblock : x.fileBlock d fbn = 0 ↔ ¬ fbn * BSIZE < bytes.length := by
    rw [← h.block fbn, not_not]
  have hind : x.addrs (Fin.last NDIRECT) = 0 ↔ ¬ NDIRECT * BSIZE < bytes.length := by
    rw [← h.indirect, not_not]
  have hdiv := Nat.div_add_mod' bytes.length BSIZE
  have hmod := Nat.mod_lt bytes.length (show 0 < BSIZE by decide)
  rw [← hfbn] at hdiv
  simp only [blocksOf, newBlocks, hblock, hind, show NDIRECT = 12 from rfl]
  rw [show BSIZE = 1024 from rfl] at hdiv hmod hfit ⊢
  split_ifs <;> omega

theorem Stores.two_le {bytes : List UInt8} (h : Stores (D i) s.disk bytes) (hpacked : Packed D s)
    (hi : i < NINODES) (hlive : (D i).type ≠ 0) (hlen : BSIZE < bytes.length) :
    nmeta + 2 ≤ s.freeblock := by
  have hmax : 1 < MAXFILE := by decide
  have hblock : ∀ bn, bn * BSIZE < bytes.length → ∀ hbn : bn < MAXFILE,
      owner sb D s.disk (i, slotOf bn hbn) = some ((D i).fileBlock s.disk bn) := fun bn hlt hbn =>
    (owner_slotOf hi hlive hbn _).trans (nonzero_eq_some.mpr ⟨rfl, (h.block bn).mpr hlt⟩)
  have h₀ := hblock 0 (by omega) (by omega)
  have h₁ := hblock 1 (by omega) hmax
  have hne : (D i).fileBlock s.disk 0 ≠ (D i).fileBlock s.disk 1 := fun heq => by
    rw [heq] at h₀
    have hslot : slotOf 0 (by omega) = slotOf 1 hmax :=
      congrArg Prod.snd (hpacked.exact.once _ _ _ h₀ h₁)
    exact absurd (slotOf_inj _ hmax hslot) (by decide)
  have hlt₀ := hpacked.owned_lt h₀
  have hlt₁ := hpacked.owned_lt h₁
  omega

theorem wp_appendBody (h : Holds D F s) (hi : i < NINODES) (hf : F i = some f)
    (hle : s.freeblock ≤ FSSIZE) {v : AppendVars} (hdin : v.din = D i)
    (hoff : v.off.toNat = f.bytes.length) (hp : 0 < v.p.length)
    (hbig : MAXFILE * BSIZE ≤ f.bytes.length → E .assert)
    (hfull : FSSIZE + blocksOf f.bytes.length < s.freeblock + blocksOf (f.bytes.length + v.n1) →
      E .die) :
    wp (appendBody v) E (fun r s' => r.2 = true ∧
      r.1.p = v.p.drop v.n1 ∧ r.1.off.toNat = f.bytes.length + v.n1 ∧
      (∃ addrs, r.1.din = { D i with addrs := addrs }) ∧
      Holds (update D i r.1.din) (appendTo F i (v.p.take v.n1)) s' ∧
      s'.freeblock + blocksOf f.bytes.length = s.freeblock + blocksOf (f.bytes.length + v.n1) ∧
      s'.freeblock ≤ FSSIZE ∧ s'.freeinode = s.freeinode ∧
      ∀ b < nmeta, s'.disk b = s.disk b) s := by
  obtain ⟨hfty, htype, hnlink⟩ := h.live i hi f hf
  have hlive : (D i).type ≠ 0 := by rw [htype]; exact hfty
  have hstores := h.file i hi f hf
  have hn1 : 0 < v.n1 ∧ v.n1 ≤ v.p.length ∧
      f.bytes.length + v.n1 ≤ (f.bytes.length / BSIZE + 1) * BSIZE := by
    have hdiv := Nat.div_add_mod' f.bytes.length BSIZE
    have hmod := Nat.mod_lt f.bytes.length (show 0 < BSIZE by decide)
    rw [AppendVars.n1, hoff]
    generalize f.bytes.length / BSIZE = q at hdiv
    rw [show BSIZE = 1024 from rfl] at hdiv hmod ⊢
    omega
  obtain ⟨hn0, hnp, hfit⟩ := hn1
  have hlen : (v.p.take v.n1).length = v.n1 := List.length_take_of_le hnp
  have hcount := blocksOf_add hstores rfl hn0 hfit
  unfold appendBody
  rw [if_pos hp, hoff, hdin]
  simp only [wp_bind]
  refine wp_assert (fun hge => hbig ?_) fun hfbn => ?_
  · exact (Nat.le_div_iff_mul_le (by decide)).mp (Nat.not_lt.mp hge)
  refine wp_mono (wp_blockFor h.toPacked hi hlive hle hfbn fun hgt => hfull (by omega)) ?_
  rintro r s₁ ⟨hpacked, hext, hown, hind, hfree, hlast⟩
  obtain ⟨din, x⟩ := r
  obtain ⟨addrs, hfields⟩ := hext.fields
  rw [update_self] at hfields
  dsimp only at hpacked hext hown hind hfields hlast ⊢
  generalize hD' : update D i din = D' at hpacked hext hown
  have hdin' : D' i = din := by rw [← hD', update_self]
  have hlive' : (D' i).type ≠ 0 := by rw [hdin', hfields]; exact hlive
  have hxlt := hpacked.owned_lt hown
  have hnew : newBlocks (D i) s.disk (f.bytes.length / BSIZE) ≤ 2 := by
    unfold newBlocks
    split_ifs <;> omega
  refine wp_rsect hpacked.nsect (by have hF : FSSIZE + 2 < 2 ^ 22 := by decide
                                    omega) (fun hge => hfull (by omega)) fun hlt => ?_
  refine wp_wsect hpacked.nsect hlt ?_
  obtain ⟨hpacked₂, hown₂⟩ := hpacked.writeData hown (slotOf_ne_indirect hfbn)
    (bcopy (v.p.take v.n1) (s₁.disk x.toNat) (f.bytes.length - f.bytes.length / BSIZE * BSIZE))
  generalize hd : update s₁.disk x.toNat (bcopy (v.p.take v.n1) (s₁.disk x.toNat)
    (f.bytes.length - f.bytes.length / BSIZE * BSIZE)) = d at hpacked₂ hown₂ ⊢
  rw [wp_pure, hD']
  refine ⟨rfl, rfl, ?_, ⟨addrs, hfields⟩, ⟨hpacked₂, fun j hj hnone => ?_, fun j hj g hg => ?_,
    fun j hj g hg => ?_, fun j b hb => ?_⟩, ?_, ?_, hext.freeinode, fun b hb => ?_⟩
  · have hmax : (f.bytes.length / BSIZE + 1) * BSIZE ≤ MAXFILE * BSIZE :=
      Nat.mul_le_mul_right _ hfbn
    have hlt32 : MAXFILE * BSIZE < 2 ^ 32 := by decide
    rw [UInt32.toNat_add, hoff, UInt32.toNat_ofNat', Nat.mod_eq_of_lt (by omega : v.n1 < 2 ^ 32)]
    exact Nat.mod_eq_of_lt (by omega)
  · have hji : j ≠ i := by
      rintro rfl
      rw [appendTo_self hf] at hnone
      cases hnone
    rw [appendTo_ne hji] at hnone
    rw [hext.others j hji]
    exact h.dead j hj hnone
  · by_cases hji : j = i
    · subst hji
      rw [appendTo_self hf] at hg
      cases hg
      rw [hdin', hfields]
      exact ⟨hfty, htype, hnlink⟩
    · rw [appendTo_ne hji] at hg
      rw [hext.others j hji]
      exact h.live j hj g hg
  · by_cases hji : j = i
    · subst hji
      rw [appendTo_self hf] at hg
      cases hg
      exact hext.stores hi hlive hlive' h.toPacked hpacked hstores hfbn hown (hdin' ▸ hind)
        (by omega) (by omega) (by rw [State.setDisk_disk, ← hd])
    · rw [appendTo_ne hji] at hg
      rw [hext.others j hji]
      obtain ⟨hgty, hgt, -⟩ := h.live j hj g hg
      refine (h.file j hj g hg).congr fun k hk => ?_
      have hq : owner sb D s.disk (j, k) = some ((D j).block s.disk k) := by
        rw [owner_live hj (by rw [hgt]; exact hgty)]
        exact nonzero_eq_some.mpr ⟨rfl, hk⟩
      rw [State.setDisk_disk, ← hd]
      exact hext.disk_eq hpacked hown _ hq (fun heq => hji (congrArg Prod.fst heq))
        fun heq => hji (congrArg Prod.fst heq)
  · rw [State.setDisk_disk, hown₂] at hb
    rcases hext.fresh _ b hb with hold | hfresh
    · exact h.high j b hold
    -- the indirect block is new, and comes after two direct ones
    · have hji : j = i := by
        by_contra hne
        rw [hext.same _ (fun heq => hne (congrArg Prod.fst heq))
          (fun heq => hne (congrArg Prod.fst heq))] at hb
        have := (h.owned_lt hb).2
        omega
      rw [hji, owner_live hi hlive'] at hb
      have hlast' : din.addrs (Fin.last NDIRECT) ≠ 0 := fun hz => by
        rw [hdin', Dinode.block, hz] at hb
        exact (nonzero_eq_some.mp hb).2 (nonzero_eq_some.mp hb).1.symm
      have hlong : NDIRECT * BSIZE ≤ f.bytes.length := by
        rcases hind.mp hlast' with hold | hge
        · exact Nat.le_of_lt (hstores.indirect.mp hold)
        · exact (Nat.le_div_iff_mul_le (by decide)).mp hge
      refine Nat.le_trans (hstores.two_le h.toPacked hi hlive ?_) hfresh
      exact Nat.lt_of_lt_of_le (by decide) hlong
  · rw [State.setDisk_freeblock]
    omega
  · rw [State.setDisk_freeblock]
    by_cases hgt : s.freeblock < s₁.freeblock
    · have := hlast hgt
      omega
    · have := hext.freeblock
      omega
  · rw [State.setDisk_disk, ← hd, update_of_ne (by omega)]
    exact hext.disk b fun hc => by
      have := (hpacked.owned_lt hc).1
      omega

theorem blocksOf_mono {m n : Nat} (h : m ≤ n) : blocksOf m ≤ blocksOf n := by
  have hdiv : (m + BSIZE - 1) / BSIZE ≤ (n + BSIZE - 1) / BSIZE := Nat.div_le_div_right (by omega)
  unfold blocksOf
  split_ifs <;> omega

theorem appendTo_appendTo (p q : List UInt8) :
    appendTo (appendTo F i p) i q = appendTo F i (p ++ q) := by
  unfold appendTo
  rw [update_self, update_idem, Option.map_map]
  congr 2
  funext g
  simp

theorem appendTo_nil : appendTo F i [] = F := by
  have hsame : (F i).map (fun f => { f with bytes := f.bytes ++ [] }) = F i := by simp
  rw [appendTo, hsame, update_eq_self]

theorem wp_appendLoop (h : Holds D F s) (hi : i < NINODES) (hf : F i = some f)
    (hle : s.freeblock ≤ FSSIZE) (hsize : (D i).size.toNat = f.bytes.length) (p : List UInt8)
    (hbig : MAXFILE * BSIZE < f.bytes.length + p.length → E .assert)
    (hfull : FSSIZE + blocksOf f.bytes.length < s.freeblock + blocksOf (f.bytes.length + p.length) →
      E .die) :
    wp (loop appendBody (p.length + 1) ⟨D i, (D i).size, p⟩) E (fun v s' =>
      v.off.toNat = f.bytes.length + p.length ∧
      (∃ addrs, v.din = { D i with addrs := addrs }) ∧
      Holds (update D i v.din) (appendTo F i p) s' ∧
      s'.freeblock + blocksOf f.bytes.length = s.freeblock + blocksOf (f.bytes.length + p.length) ∧
      s'.freeblock ≤ FSSIZE ∧ s'.freeinode = s.freeinode ∧
      ∀ b < nmeta, s'.disk b = s.disk b) s := by
  -- `done` are the bytes that have been written
  refine wp_loop (I := fun v t => ∃ done, done ++ v.p = p ∧
      v.off.toNat = f.bytes.length + done.length ∧ (∃ addrs, v.din = { D i with addrs := addrs }) ∧
      Holds (update D i v.din) (appendTo F i done) t ∧
      t.freeblock + blocksOf f.bytes.length =
        s.freeblock + blocksOf (f.bytes.length + done.length) ∧
      t.freeblock ≤ FSSIZE ∧ t.freeinode = s.freeinode ∧ ∀ b < nmeta, t.disk b = s.disk b)
    (fun v => v.p.length) ⟨[], rfl, hsize, ⟨_, rfl⟩, ?_, rfl, hle, rfl, fun _ _ => rfl⟩
    (Nat.lt_succ_self _) ?_
  · rw [appendTo_nil, update_eq_self]
    exact h
  rintro v t ⟨done, hdone, hoff, ⟨addrs, hfields⟩, hholds, hcount, hfree, hinode, hlow⟩
  have hlen : done.length + v.p.length = p.length := by rw [← hdone, List.length_append]
  by_cases hp : 0 < v.p.length
  · have hn1 : 0 < v.n1 ∧ v.n1 ≤ v.p.length := by
      have := Nat.div_add_mod' v.off.toNat BSIZE
      have := Nat.mod_lt v.off.toNat (show 0 < BSIZE by decide)
      unfold AppendVars.n1
      generalize v.off.toNat / BSIZE = q at *
      generalize v.off.toNat % BSIZE = r at *
      rw [show BSIZE = 1024 from rfl] at *
      omega
    have hself : update D i v.din i = v.din := update_self ..
    refine wp_mono (wp_appendBody hholds hi (appendTo_self hf done) hfree hself.symm
      (by rw [hoff, List.length_append]) hp (fun hge => hbig ?_) fun hgt => hfull ?_)
      fun r t' ⟨hagain, hrest, hoff', ⟨addrs', hfields'⟩, hholds', hcount', hfree', hinode', hlow'⟩ =>
        ⟨fun _ => ⟨⟨done ++ v.p.take v.n1, ?_, ?_, ⟨addrs', ?_⟩, ?_, ?_, hfree',
          hinode'.trans hinode, fun b hb => (hlow' b hb).trans (hlow b hb)⟩, ?_⟩,
          fun hstop => absurd (hagain.symm.trans hstop) (by simp)⟩
    · rw [List.length_append] at hge
      omega
    · have hmono : blocksOf (f.bytes.length + done.length + v.n1) ≤
          blocksOf (f.bytes.length + p.length) := blocksOf_mono (by omega)
      rw [List.length_append] at hgt
      omega
    · rw [hrest, List.append_assoc, List.take_append_drop, hdone]
    · rw [hoff', List.length_append, List.length_append, List.length_take_of_le hn1.2]
      omega
    · rw [hfields', update_self, hfields]
    · rw [appendTo_appendTo, update_idem] at hholds'
      exact hholds'
    · rw [List.length_append] at hcount'
      rw [List.length_append, List.length_take_of_le hn1.2, ← Nat.add_assoc]
      omega
    · rw [hrest, List.length_drop]
      omega
  · unfold appendBody
    rw [if_neg hp, wp_pure]
    have hnil : v.p = [] := List.length_eq_zero_iff.mp (by omega)
    rw [hnil, List.append_nil] at hdone
    subst hdone
    exact ⟨fun h => absurd h (by simp), fun _ => ⟨hoff, ⟨addrs, hfields⟩, hholds, hcount, hfree,
      hinode, hlow⟩⟩

end Loop

end Xv6.Mkfs
