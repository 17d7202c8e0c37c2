import Xv6.Fs.Lookup
import Xv6.Fs.References
import Mathlib.Data.List.GetD

/-!
# Scans of a directory

`dirlookup` finds the first entry with a name, and reads no further; a directory with a hole
behind its entries is therefore as good as another for the names that are in it.  A scan that
comes to the hole allocates a block for it, and finds that empty.
-/

namespace Xv6.Fs

open ByteView Hoare

/-! ### Names -/

theorem strncmpFrom_eq_true {p q : Name} {i n : Nat} : strncmpFrom p q i n = true ↔
    ∀ j, i ≤ j → j < i + n → (∀ l, i ≤ l → l < j → p l ≠ 0) → p j = q j := by
  induction n generalizing i with
  | zero => exact ⟨fun _ j hij hj => by omega, fun _ => rfl⟩
  | succ n ih =>
    rw [strncmpFrom]
    split
    · rename_i hi
      rw [ih]
      refine ⟨fun hrest j hij hj hl => ?_, fun hall j hij hj hl => ?_⟩
      · by_cases hji : j = i
        · rw [hji]
          exact hi.2
        · exact hrest j (by omega) (by omega) fun l hil hlj => hl l (by omega) hlj
      · refine hall j (by omega) (by omega) fun l hil hlj => ?_
        by_cases hli : l = i
        · rw [hli]
          exact hi.1
        · exact hl l (by omega) hlj
    · rename_i hi
      rw [beq_iff_eq]
      refine ⟨fun heq j hij hj hl => ?_, fun hall => hall i (Nat.le_refl i) (by omega) fun l h h' => ?_⟩
      · by_cases hji : j = i
        · rw [hji, heq]
        · exact absurd ⟨hl i (Nat.le_refl i) (by omega), heq⟩ hi
      · omega

theorem getD_ne_zero {a : List UInt8} (h : 0 ∉ a) {k : Nat} (hk : k < a.length) : a.getD k 0 ≠ 0 := by
  rw [List.getD_eq_getElem _ _ hk]
  exact fun hz => h (hz ▸ List.getElem_mem hk)

/-- **`namecmp` compares names**, also those that fill their field. -/
theorem nameEq_iff {a b : List UInt8} {p q : Name} (ha : 0 ∉ a) (hb : 0 ∉ b)
    (hla : a.length ≤ DIRSIZ) (hlb : b.length ≤ DIRSIZ) (hp : ∀ k < DIRSIZ, p k = a.getD k 0)
    (hq : ∀ k < DIRSIZ, q k = b.getD k 0) : nameEq p q = true ↔ a = b := by
  rw [nameEq, strncmpFrom_eq_true]
  constructor
  · intro h
    have hsame : ∀ j < DIRSIZ, j ≤ a.length → a.getD j 0 = b.getD j 0 := fun j hj hja => by
      rw [← hp j hj, ← hq j hj]
      refine h j (Nat.zero_le _) (by omega) fun l _ hl => ?_
      rw [hp l (by omega)]
      exact getD_ne_zero ha (by omega)
    have hle : a.length ≤ b.length := by
      by_contra hgt
      have := hsame b.length (by omega) (by omega)
      rw [List.getD_eq_default _ _ (Nat.le_refl b.length)] at this
      exact getD_ne_zero ha (by omega) this
    have hge : b.length ≤ a.length := by
      by_contra hgt
      have := hsame a.length (by omega) (Nat.le_refl _)
      rw [List.getD_eq_default _ _ (Nat.le_refl a.length)] at this
      exact getD_ne_zero hb (by omega) this.symm
    refine List.ext_getElem (Nat.le_antisymm hle hge) fun j hja hjb => ?_
    have := hsame j (by omega) (by omega)
    rwa [List.getD_eq_getElem _ _ hja, List.getD_eq_getElem _ _ hjb] at this
  · rintro rfl j - hj -
    rw [hp j (by omega), hq j (by omega)]

/-! ### References -/

section Got

variable {s s' : State} {inum ip : Nat}

theorem Got.lock (h : Got s inum ip s') (j : Nat) : (s'.inode j).lock = (s.inode j).lock := by
  obtain ⟨-, ⟨-, -, rfl⟩ | ⟨-, -, rfl⟩⟩ := h <;> by_cases hj : j = ip
  · rw [hj, State.setInode_self]
  · rw [State.setInode_ne _ _ hj]
  · rw [hj, State.setInode_self]
  · rw [State.setInode_ne _ _ hj]

theorem Got.copy (h : Got s inum ip s') (j : Nat) : (s'.inode j).copy = (s.inode j).copy := by
  obtain ⟨-, ⟨-, -, rfl⟩ | ⟨-, -, rfl⟩⟩ := h <;> by_cases hj : j = ip
  · rw [hj, State.setInode_self]
  · rw [State.setInode_ne _ _ hj]
  · rw [hj, State.setInode_self]
  · rw [State.setInode_ne _ _ hj]

theorem Got.ref_of_ne (h : Got s inum ip s') {j : Nat} (hj : j ≠ ip) :
    (s'.inode j).ref = (s.inode j).ref := by
  obtain ⟨-, ⟨-, -, rfl⟩ | ⟨-, -, rfl⟩⟩ := h <;> rw [State.setInode_ne _ _ hj]

theorem Got.ref_self (h : Got s inum ip s') : (s'.inode ip).ref = (s.inode ip).ref + 1 := by
  obtain ⟨-, ⟨-, -, rfl⟩ | ⟨hzero, -, rfl⟩⟩ := h <;> rw [State.setInode_self]
  rw [hzero]

theorem Got.rest (h : Got s inum ip s') :
    s'.log = s.log ∧ s'.outOfBlocks = s.outOfBlocks ∧ s'.ballocs = s.ballocs := by
  rcases h.2 with ⟨-, -, rfl⟩ | ⟨-, -, rfl⟩ <;> exact ⟨rfl, rfl, rfl⟩

end Got

/-! ### Entries -/

section Entries

variable {sb : Superblock} {dp k : Nat} {s : State} {E : Stop → Prop}

theorem dirent_block {j : Nat} (hj : j < DIRENTSIZE) :
    (k * DIRENTSIZE + j) / BSIZE = k * DIRENTSIZE / BSIZE := by
  rw [show DIRENTSIZE = 16 from rfl, show BSIZE = 1024 from rfl] at *
  omega

theorem readLen_dirent {size : UInt32} (hwhole : size.toNat % DIRENTSIZE = 0)
    (hk : k < direntCount size) :
    (UInt32.ofNat (k * DIRENTSIZE)).toNat = k * DIRENTSIZE ∧
    readLen size (UInt32.ofNat (k * DIRENTSIZE)) (UInt32.ofNat DIRENTSIZE) = DIRENTSIZE := by
  have hlt := direntCount_lt hk
  have hoff : (UInt32.ofNat (k * DIRENTSIZE)).toNat = k * DIRENTSIZE := by
    rw [UInt32.toNat_ofNat']
    exact Nat.mod_eq_of_lt (Nat.lt_trans hlt (UInt32.toNat_lt _))
  refine ⟨hoff, ?_⟩
  by_contra hne
  exact not_partialEntry hwhole ⟨k, hk, hne⟩

theorem wp_readDirent_present (hwhole : (s.inode dp).copy.size.toNat % DIRENTSIZE = 0)
    (hk : k < direntCount (s.inode dp).copy.size)
    (hblock : (s.inode dp).copy.fileBlock s.disk (k * DIRENTSIZE / BSIZE) ≠ 0) :
    wp (readi sb dp (fun _ => false) (UInt32.ofNat (k * DIRENTSIZE)) (UInt32.ofNat DIRENTSIZE)) E
      (fun r s' => s' = s ∧ r = ((DIRENTSIZE : Int), direntAt (s.inode dp).copy s.disk k)) s := by
  obtain ⟨hoff, hlen⟩ := readLen_dirent hwhole hk
  refine wp_mono (wp_readi_present _ _ _ ?_) fun r t ⟨hst, hread⟩ => ⟨hst, ?_⟩
  · rw [hoff, hlen]
    exact fun j hj => by rwa [dirent_block hj]
  · obtain ⟨hr, hde⟩ := hread fun _ => rfl
    rw [hlen] at hr hde
    rw [hoff] at hde
    exact Prod.ext hr hde

/-- **`dirlookup`** of the name in entry `k`, which no entry before it has. -/
theorem wp_dirlookup_found {name : Name} (hdir : (s.inode dp).copy.type = T_DIR)
    (hwhole : (s.inode dp).copy.size.toNat % DIRENTSIZE = 0)
    (hk : k < direntCount (s.inode dp).copy.size)
    (hblock : ∀ j ≤ k, (s.inode dp).copy.fileBlock s.disk (j * DIRENTSIZE / BSIZE) ≠ 0)
    (hmiss : ∀ j < k, direntInum (direntAt (s.inode dp).copy s.disk j) = 0 ∨
      nameEq name (direntName (direntAt (s.inode dp).copy s.disk j)) = false)
    (hused : direntInum (direntAt (s.inode dp).copy s.disk k) ≠ 0)
    (hname : nameEq name (direntName (direntAt (s.inode dp).copy s.disk k)) = true)
    (hfull : (∀ j < NINODE, 0 < (s.inode j).ref) → E (.panic .igetNoInodes)) :
    wp (dirlookup sb dp name) E (fun r s' => ∃ ip, r = some (ip, k * DIRENTSIZE) ∧
      Got s (direntInum (direntAt (s.inode dp).copy s.disk k)) ip s') s := by
  simp only [dirlookup, wp_bind, wp_get]
  rw [if_neg (not_not.mpr hdir)]
  refine wp_findFirst (I := fun j t => t = s ∧ j ≤ k) _ ⟨rfl, Nat.zero_le _⟩ ?_
    fun t hend => absurd hend.2 (by omega)
  rintro j t _ hj ⟨ht, hjk⟩
  subst ht
  rw [wp_bind]
  refine wp_mono (wp_readDirent_present hwhole (by omega) (hblock j hjk)) ?_
  rintro r u ⟨hu, hr⟩
  subst hu hr
  dsimp only
  rw [if_neg (not_not.mpr rfl)]
  rcases Nat.lt_or_eq_of_le hjk with hlt | rfl
  · rcases hmiss j hlt with hzero | hother
    · rw [if_pos hzero]
      exact ⟨rfl, hlt⟩
    · split
      · exact ⟨rfl, hlt⟩
      · rw [hother]
        exact ⟨rfl, hlt⟩
  · rw [if_neg hused, hname, if_pos rfl, wp_bind]
    exact wp_mono (wp_iget _ hfull) fun ip u hgot => ⟨ip, rfl, hgot⟩

/-! ### A hole behind the entries -/

theorem wp_balloc_zeroed (hsize : sb.size < 2 ^ 32) :
    wp (balloc sb) Any (fun a s' => s'.inode = s.inode ∧
      (a ≠ 0 → s'.disk a.toNat = fun _ => 0)) s := by
  simp only [balloc, wp_bind, wp_get, wp_modify]
  split
  · exact ⟨rfl, absurd rfl⟩
  rw [wp_bind]
  refine wp_findFirst (I := fun _ t => t.inode = s.inode) _ rfl (fun b t _ _ ht => ?_) fun t ht =>
    ⟨ht, absurd rfl⟩
  unfold ballocFrom
  simp only [wp_bind, bread, wp_get, wp_pure]
  refine wp_findFirst (I := fun _ t => t.inode = s.inode) _ ht (fun bi t _ hbi ht => ?_) fun t ht =>
    ht
  split
  · simp only [wp_bind, bzero, bread, logWrite, wp_get, wp_pure]
    split
    · trivial
    rw [wp_modify]
    split
    · trivial
    refine ⟨ht, fun _ => ?_⟩
    have hlt : b * BPB + bi < 2 ^ 32 := by omega
    show Function.update _ _ _ (UInt32.ofNat (b * BPB + bi)).toNat = _
    rw [UInt32.toNat_ofNat', Nat.mod_eq_of_lt hlt, Function.update_self]
  · exact ht

/-- The hole of `dp` at block `bn` has been filled with an empty block. -/
structure HoleFilled (dp bn : Nat) (s t : State) : Prop where
  size : (t.inode dp).copy.size = (s.inode dp).copy.size
  present : (t.inode dp).copy.fileBlock t.disk bn ≠ 0
  empty : t.disk ((t.inode dp).copy.fileBlock t.disk bn) = fun _ => 0

theorem wp_bmap_hole {bn : Nat} (hsize : sb.size < 2 ^ 32) (hbn : bn < NDIRECT)
    (hhole : (s.inode dp).copy.fileBlock s.disk bn = 0) :
    wp (bmap sb dp bn) Any (fun a t => (t.inode dp).copy.size = (s.inode dp).copy.size ∧
      (a ≠ 0 → HoleFilled dp bn s t ∧ t.disk a.toNat = fun _ => 0)) s := by
  have hmax : bn < MAXFILE := Nat.lt_of_lt_of_le hbn (Nat.le_add_right _ _)
  have hblock : ∀ (x : Dinode) (d : Disk),
      x.fileBlock d bn = (x.addrs ⟨bn, Nat.lt_succ_of_lt hbn⟩).toNat := fun x d => by
    rw [Dinode.fileBlock_eq hmax, slotOf, dif_pos hbn]
    rfl
  rw [hblock] at hhole
  unfold bmap
  rw [dif_pos hbn]
  simp only [addrOrAlloc, wp_bind, wp_get]
  rw [if_pos (UInt32.toNat_inj.mp hhole), wp_bind]
  refine wp_mono (wp_balloc_zeroed hsize) fun a t ⟨hinode, hzero⟩ => ?_
  split
  · rename_i ha
    rw [wp_pure, hinode]
    exact ⟨rfl, absurd rfl⟩
  · rename_i ha
    simp only [wp_bind, setAddr, setInode, wp_modify, wp_pure]
    have hself : ∀ t : State, (t.setInode dp ((t.inode dp).setCopy ((t.inode dp).copy.setAddr
        ⟨bn, Nat.lt_succ_of_lt hbn⟩ a))).inode dp = (t.inode dp).setCopy ((t.inode dp).copy.setAddr
        ⟨bn, Nat.lt_succ_of_lt hbn⟩ a) := fun t => State.setInode_self ..
    have haddr : ((t.inode dp).copy.setAddr ⟨bn, Nat.lt_succ_of_lt hbn⟩ a).fileBlock t.disk bn =
        a.toNat := by
      rw [hblock, Dinode.setAddr_self]
    refine ⟨?_, fun _ => ⟨⟨?_, ?_, ?_⟩, hzero ha⟩⟩
    · rw [hself, hinode]
      rfl
    · rw [hself, hinode]
      rfl
    · rw [hself, State.setInode_disk]
      show ((t.inode dp).copy.setAddr _ a).fileBlock t.disk bn ≠ 0
      rw [haddr]
      exact fun hz => ha (UInt32.toNat_inj.mp hz)
    · rw [hself, State.setInode_disk]
      show t.disk (((t.inode dp).copy.setAddr _ a).fileBlock t.disk bn) = _
      rw [haddr]
      exact hzero ha

theorem wp_readDirent_bmap {Q : Int × List UInt8 → State → Prop}
    (hwhole : (s.inode dp).copy.size.toNat % DIRENTSIZE = 0)
    (hk : k < direntCount (s.inode dp).copy.size)
    (h : wp (bmap sb dp (k * DIRENTSIZE / BSIZE)) E (fun a t => (a = 0 → Q (0, []) t) ∧
      (a ≠ 0 → Q ((DIRENTSIZE : Int), (List.range DIRENTSIZE).map fun j =>
        t.disk a.toNat (k * DIRENTSIZE % BSIZE + j)) t)) s) :
    wp (readi sb dp (fun _ => false) (UInt32.ofNat (k * DIRENTSIZE)) (UInt32.ofNat DIRENTSIZE)) E Q
      s := by
  obtain ⟨hoff, hlen⟩ := readLen_dirent hwhole hk
  simp only [readi, wp_bind, wp_get]
  generalize (s.inode dp).copy.size = size at hlen ⊢
  generalize UInt32.ofNat (k * DIRENTSIZE) = off at hoff hlen ⊢
  have hin : ¬ (size < off ∨ off + UInt32.ofNat DIRENTSIZE < off) := fun hc => by
    rw [readLen, if_pos hc] at hlen
    cases hlen
  rw [readLen, if_neg hin] at hlen
  rw [if_neg hin]
  have hclip : (if size < off + UInt32.ofNat DIRENTSIZE then size - off
      else UInt32.ofNat DIRENTSIZE) = UInt32.ofNat DIRENTSIZE := by
    split
    · rename_i hlt
      obtain ⟨hoff', hwrap⟩ := not_or.mp hin
      rw [UInt32.lt_iff_toNat_lt, Nat.not_lt] at hoff' hwrap
      rw [UInt32.lt_iff_toNat_lt, toNat_add_of_not_wrap hwrap] at hlt
      refine UInt32.toNat_inj.mp ?_
      rw [UInt32.toNat_sub_of_le _ _ (UInt32.le_iff_toNat_le.mpr hoff')]
      have hD : (UInt32.ofNat DIRENTSIZE).toNat = DIRENTSIZE := rfl
      omega
    · rfl
  have hchunk : chunk (UInt32.ofNat DIRENTSIZE) 0 off = UInt32.ofNat DIRENTSIZE := by
    refine UInt32.toNat_inj.mp ?_
    rw [chunk_toNat off (by decide), hoff]
    show min (16 - 0) (1024 - k * 16 % 1024) = 16
    omega
  rw [hclip, wp_bind, show (UInt32.ofNat DIRENTSIZE).toNat + 1 = 15 + 1 + 1 from rfl, loop, wp_bind,
    readBody, if_pos (show (0 : UInt32) < UInt32.ofNat DIRENTSIZE by decide), wp_bind, hoff]
  refine wp_mono h ?_
  rintro a t ⟨hnone, hsome⟩
  split
  · rename_i ha
    exact hnone ha
  · rename_i ha
    simp only [wp_bind, bread, wp_get, wp_pure, hchunk]
    exact hsome ha

theorem direntInum_zero {f : Nat → UInt8} (hf : ∀ j < DIRENTSIZE, f j = 0) :
    direntInum ((List.range DIRENTSIZE).map f) = 0 := by
  have hzero : (List.range DIRENTSIZE).map f = List.replicate DIRENTSIZE 0 := by
    rw [List.eq_replicate_iff]
    refine ⟨by simp, fun b hb => ?_⟩
    obtain ⟨j, hj, rfl⟩ := List.mem_map.mp hb
    exact hf j (List.mem_range.mp hj)
  rw [hzero]
  rfl

theorem HoleFilled.free {bn : Nat} {t : State} (h : HoleFilled dp bn s t)
    (hk : k * DIRENTSIZE / BSIZE = bn) :
    direntInum (direntAt (t.inode dp).copy t.disk k) = 0 := by
  refine direntInum_zero fun j hj => ?_
  rw [Dinode.fileByte, dirent_block hj, hk, h.empty]

/-- A scan of a directory of `bn + 1` blocks for a name that no entry has, where only block `bn`
    may be a hole.  If it is one, the scan comes to call `bmap` for it, which leads to a state
    in `R`. -/
theorem wp_dirlookup_scan {name : Name} {bn : Nat} {R : State → Prop}
    (hdir : (s.inode dp).copy.type ≠ T_DIR → E (.panic .dirlookupNotDir))
    (hend : (s.inode dp).copy.size.toNat = (bn + 1) * BSIZE)
    (hblock : ∀ b < bn, (s.inode dp).copy.fileBlock s.disk b ≠ 0)
    (hmiss : ∀ j < direntCount (s.inode dp).copy.size,
      (s.inode dp).copy.fileBlock s.disk (j * DIRENTSIZE / BSIZE) ≠ 0 →
      direntInum (direntAt (s.inode dp).copy s.disk j) = 0 ∨
      nameEq name (direntName (direntAt (s.inode dp).copy s.disk j)) = false)
    (hbmap : (s.inode dp).copy.fileBlock s.disk bn = 0 → wp (bmap sb dp bn) E (fun a t =>
      (a = 0 → E (.panic .dirlookupRead)) ∧
      (a ≠ 0 → R t ∧ HoleFilled dp bn s t ∧ t.disk a.toNat = fun _ => 0)) s) :
    wp (dirlookup sb dp name) E (fun r t =>
      r = none ∧ ((s.inode dp).copy.fileBlock s.disk bn = 0 → R t)) s := by
  have hD : DIRENTSIZE = 16 := rfl
  have hB : BSIZE = 1024 := rfl
  have hwhole : (s.inode dp).copy.size.toNat % DIRENTSIZE = 0 := by
    rw [hend, hD, hB]
    omega
  simp only [dirlookup, wp_bind, wp_get]
  split
  · rename_i hnot
    exact hdir hnot
  -- once the scan has come to the hole, all that is left to read is empty
  refine wp_findFirst (I := fun j t =>
      (t = s ∧ ((s.inode dp).copy.fileBlock s.disk bn = 0 → j * DIRENTSIZE ≤ bn * BSIZE)) ∨
      (bn * BSIZE ≤ j * DIRENTSIZE ∧ R t ∧ HoleFilled dp bn s t))
    _ (Or.inl ⟨rfl, fun _ => by omega⟩) (fun j t _ hj ht => ?_) fun t ht => ⟨rfl, fun hhole => ?_⟩
  · have hj' : j < direntCount (s.inode dp).copy.size := by omega
    have hlt := direntCount_lt hj'
    rw [hend] at hlt
    have hle : j * DIRENTSIZE / BSIZE ≤ bn := by
      rw [hD, hB] at *
      omega
    rw [wp_bind]
    rcases ht with ⟨rfl, hbefore⟩ | ⟨hge, hR, ht⟩
    · by_cases hpresent : (t.inode dp).copy.fileBlock t.disk (j * DIRENTSIZE / BSIZE) = 0
      · have hhere : j * DIRENTSIZE / BSIZE = bn := by
          by_contra hne
          exact hblock _ (by omega) hpresent
        have hge : bn * BSIZE ≤ (j + 1) * DIRENTSIZE := by
          rw [hD, hB] at *
          omega
        refine wp_readDirent_bmap hwhole hj' ?_
        rw [hhere] at hpresent ⊢
        refine wp_mono (hbmap hpresent) ?_
        rintro a u ⟨hnone, hu⟩
        refine ⟨fun ha => hnone ha, fun ha => ?_⟩
        obtain ⟨hR, hfilled, hzero⟩ := hu ha
        dsimp only
        rw [if_neg (not_not.mpr rfl), if_pos (direntInum_zero fun l _ => by rw [hzero])]
        exact Or.inr ⟨hge, hR, hfilled⟩
      · have hnext : (t.inode dp).copy.fileBlock t.disk bn = 0 →
            (j + 1) * DIRENTSIZE ≤ bn * BSIZE := fun hhole => by
          have hne : j * DIRENTSIZE / BSIZE ≠ bn := fun heq => hpresent (heq ▸ hhole)
          rw [hD, hB] at *
          omega
        refine wp_mono (wp_readDirent_present hwhole hj' hpresent) ?_
        rintro r u ⟨hu, hr⟩
        subst hu hr
        dsimp only
        rw [if_neg (not_not.mpr rfl)]
        rcases hmiss j hj' hpresent with hzero | hother
        · rw [if_pos hzero]
          exact Or.inl ⟨rfl, hnext⟩
        · rw [hother]
          split
          · exact Or.inl ⟨rfl, hnext⟩
          · exact Or.inl ⟨rfl, hnext⟩
    · have hhere : j * DIRENTSIZE / BSIZE = bn := by
        rw [hD, hB] at *
        omega
      refine wp_mono (wp_readDirent_present (by rw [ht.size]; exact hwhole)
        (by rw [ht.size]; exact hj') (by rw [hhere]; exact ht.present)) ?_
      rintro r u ⟨hu, hr⟩
      subst hu hr
      dsimp only
      rw [if_neg (not_not.mpr rfl), if_pos (ht.free hhere)]
      refine Or.inr ⟨?_, hR, ht⟩
      rw [hD] at *
      omega
  · rcases ht with ⟨-, hbefore⟩ | ⟨-, hR, -⟩
    · have hle := hbefore hhole
      rw [direntCount, hend, hD, hB] at hle
      omega
    · exact hR

/-- **`dirlookup`** of a name that no entry has finds nothing, also if the last block of the
    directory is a hole. -/
theorem wp_dirlookup_absent {name : Name} {bn : Nat} (hsize : sb.size < 2 ^ 32)
    (hbn : bn < NDIRECT) (hend : (s.inode dp).copy.size.toNat = (bn + 1) * BSIZE)
    (hblock : ∀ b < bn, (s.inode dp).copy.fileBlock s.disk b ≠ 0)
    (hmiss : ∀ j < direntCount (s.inode dp).copy.size,
      (s.inode dp).copy.fileBlock s.disk (j * DIRENTSIZE / BSIZE) ≠ 0 →
      direntInum (direntAt (s.inode dp).copy s.disk j) = 0 ∨
      nameEq name (direntName (direntAt (s.inode dp).copy s.disk j)) = false) :
    wp (dirlookup sb dp name) Any (fun r _ => r = none) s := by
  refine wp_mono (wp_dirlookup_scan (R := fun _ => True) (fun _ => trivial) hend hblock hmiss
    fun hhole => ?_) fun r t hr => hr.1
  exact wp_mono (wp_bmap_hole hsize hbn hhole) fun a t ⟨_, ht⟩ =>
    ⟨fun _ => trivial, fun ha => ⟨trivial, ht ha⟩⟩

/-! ### Outside of a transaction -/

/-- The panic of `log_write` when no transaction is open. -/
def outsideOfTrans : Stop := .panic (.log .logWriteOutsideOfTrans)

/-- No transaction is open, and the log is not full. -/
structure Outside (s : State) : Prop where
  outstanding : s.log.outstanding < 1
  notFull : s.log.lh.length < LOGBLOCKS

theorem wp_logWrite_outside (h : Outside s) (b : Nat) (v : Block) {Q : Unit → State → Prop} :
    wp (logWrite b v) (· = outsideOfTrans) Q s := by
  simp only [logWrite, wp_bind, wp_get, Log.logWrite, if_neg (Nat.not_le.mpr h.notFull),
    if_pos h.outstanding]
  rfl

/-- **`balloc`** with a block to hand out panics outside of a transaction. -/
theorem wp_balloc_outside (h : Outside s) (hblocks : s.outOfBlocks s.ballocs = false) {b : Nat}
    (hb : b < sb.size) (hfree : markedFree sb s.disk b) :
    wp (balloc sb) (· = outsideOfTrans) (fun _ _ => False) s := by
  simp only [balloc, wp_bind, wp_get, wp_modify]
  rw [if_neg (by rw [hblocks]; exact Bool.false_ne_true), wp_bind]
  have hpos : 0 < BPB := by decide
  -- the scan does not get past the free block `b`
  refine wp_findFirst (I := fun k t => t.disk = s.disk ∧ Outside t ∧ k * BPB ≤ b) _
    ⟨rfl, ⟨h.outstanding, h.notFull⟩, by omega⟩ ?_ ?_
  · rintro k t _ hk ⟨hdisk, hout, hle⟩
    unfold ballocFrom
    simp only [wp_bind, bread, wp_get, wp_pure]
    refine wp_findFirst (I := fun bi t => Outside t ∧ t.disk = s.disk ∧ k * BPB + bi ≤ b) _
      ⟨hout, hdisk, by omega⟩ ?_ ?_
    · rintro bi t _ hbi ⟨hout, hdisk', hle⟩
      split
      · rw [wp_bind]
        exact wp_logWrite_outside hout _ _
      · rename_i hset
        refine ⟨hout, hdisk', ?_⟩
        by_contra hge
        obtain rfl : b = k * BPB + bi := by omega
        have hlt : bi < BPB := by omega
        refine hset ?_
        rw [markedFree, BBLOCK, Nat.add_comm (k * BPB), Nat.add_mul_div_right _ _ hpos,
          Nat.div_eq_of_lt hlt, Nat.add_mul_mod_self_right, Nat.mod_eq_of_lt hlt] at hfree
        rw [BBLOCK, Nat.mul_div_cancel _ hpos, hdisk]
        simpa using hfree
    · rintro t ⟨hout, hdisk', hle⟩
      refine ⟨hdisk', hout, ?_⟩
      rw [Nat.add_mul]
      omega
  · rintro t ⟨_, _, hle⟩
    have hdiv := Nat.div_add_mod (sb.size + BPB - 1) BPB
    have hmod := Nat.mod_lt (sb.size + BPB - 1) hpos
    rw [Nat.zero_add, Nat.mul_comm] at hle
    omega

/-- **`dirlookup`** of a name that no entry has, in a directory with a hole at its end, panics
    outside of a transaction. -/
theorem wp_dirlookup_outside {name : Name} {bn b : Nat} (h : Outside s)
    (hblocks : s.outOfBlocks s.ballocs = false) (hb : b < sb.size) (hfree : markedFree sb s.disk b)
    (hdir : (s.inode dp).copy.type = T_DIR) (hbn : bn < NDIRECT)
    (hend : (s.inode dp).copy.size.toNat = (bn + 1) * BSIZE)
    (hblock : ∀ b < bn, (s.inode dp).copy.fileBlock s.disk b ≠ 0)
    (hhole : (s.inode dp).copy.fileBlock s.disk bn = 0)
    (hmiss : ∀ j < direntCount (s.inode dp).copy.size,
      (s.inode dp).copy.fileBlock s.disk (j * DIRENTSIZE / BSIZE) ≠ 0 →
      direntInum (direntAt (s.inode dp).copy s.disk j) = 0 ∨
      nameEq name (direntName (direntAt (s.inode dp).copy s.disk j)) = false) :
    wp (dirlookup sb dp name) (· = outsideOfTrans) (fun _ _ => False) s := by
  refine wp_mono (wp_dirlookup_scan (R := fun _ => False) (fun hnot => absurd hdir hnot) hend hblock
    hmiss fun _ => ?_) fun r t hr => hr.2 hhole
  have hmax : bn < MAXFILE := Nat.lt_of_lt_of_le hbn (Nat.le_add_right _ _)
  have hzero : ((s.inode dp).copy.addrs ⟨bn, Nat.lt_succ_of_lt hbn⟩) = 0 := by
    rw [Dinode.fileBlock_eq hmax, slotOf, dif_pos hbn] at hhole
    exact UInt32.toNat_inj.mp hhole
  unfold bmap
  rw [dif_pos hbn]
  simp only [addrOrAlloc, wp_bind, wp_get]
  rw [if_pos hzero, wp_bind]
  exact wp_mono (wp_balloc_outside h hblocks hb hfree) fun _ _ hfalse => hfalse.elim

end Entries

end Xv6.Fs
