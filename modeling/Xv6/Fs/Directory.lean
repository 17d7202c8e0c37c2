import Xv6.Fs.Bytes
import Xv6.Fs.Scan

/-!
# A directory is a finite map

`dirlookup` and `dirlink` as operations on the map from names to inode numbers that the used
slots of a directory form.
-/

namespace Xv6.Fs

open ByteView Hoare Function

/-! ### Names -/

/-- **A name** is its first `DIRSIZ` bytes up to a NUL. -/
def nameOf (name : Name) : List UInt8 := ((List.range' 0 DIRSIZ).map name).takeWhile (· != 0)

theorem strncmpFrom_iff {p q : Name} {i n : Nat} : strncmpFrom p q i n = true ↔
    ((List.range' i n).map p).takeWhile (· != 0) = ((List.range' i n).map q).takeWhile (· != 0) := by
  induction n generalizing i with
  | zero => exact ⟨fun _ => rfl, fun _ => rfl⟩
  | succ n ih =>
    rw [strncmpFrom, List.range'_succ, List.map_cons, List.map_cons, List.takeWhile_cons,
      List.takeWhile_cons]
    by_cases hp : p i = 0
    · rw [if_neg fun h => h.1 hp, beq_iff_eq, hp, if_neg (by simp)]
      by_cases hq : q i = 0
      · rw [hq, if_neg (by simp)]
        exact ⟨fun _ => rfl, fun _ => rfl⟩
      · rw [if_pos (by simpa using hq)]
        exact ⟨fun h => absurd h.symm hq, fun h => absurd h (by simp)⟩
    · have hp' : (p i != 0) = true := by simpa using hp
      by_cases hpq : p i = q i
      · rw [if_pos ⟨hp, hpq⟩, ih, ← hpq, if_pos hp', if_pos hp', List.cons_inj_right]
      · rw [if_neg fun h => hpq h.2, beq_iff_eq, if_pos hp']
        refine ⟨fun h => absurd h hpq, fun h => ?_⟩
        split at h
        · exact (List.cons.inj h).1
        · exact absurd h (by simp)

/-- **`namecmp`** compares names. -/
theorem nameEq_iff_nameOf {p q : Name} : nameEq p q = true ↔ nameOf p = nameOf q :=
  strncmpFrom_iff

theorem nameOf_congr {p q : Name} (h : ∀ k < DIRSIZ, p k = q k) : nameOf p = nameOf q := by
  unfold nameOf
  refine congrArg _ (List.map_congr_left fun k hk => h k ?_)
  rw [List.mem_range'_1] at hk
  omega

theorem nameOf_strncpy (name : Name) : nameOf (strncpy name) = nameOf name := by
  rw [← nameEq_iff_nameOf, nameEq, strncmpFrom_eq_true]
  intro j _ _ hbefore
  have hall : (List.range j).all (fun l => decide (name l ≠ 0)) = true := by
    rw [List.all_eq_true]
    intro l hl
    have hne := hbefore l (Nat.zero_le l) (List.mem_range.mp hl)
    unfold strncpy at hne
    split at hne
    · exact decide_eq_true hne
    · exact absurd rfl hne
  rw [strncpy, if_pos hall]

/-! ### Entries that `dirlink` writes -/

section Entry

variable {inum : Nat} {name : Name}

theorem getD_mkDirent {k : Nat} (hk : k < DIRENTSIZE) :
    ((List.range DIRENTSIZE).map (mkDirent inum name)).getD k 0 = mkDirent inum name k := by
  rw [List.getD_eq_getElem _ _ (by simpa using hk), List.getElem_map, List.getElem_range]

theorem direntInum_mkDirent (hmax : inum ≤ 65535) :
    direntInum ((List.range DIRENTSIZE).map (mkDirent inum name)) = inum := by
  unfold direntInum
  have hbytes : getLE (fun k => ((List.range DIRENTSIZE).map (mkDirent inum name)).getD k 0) 0 2 =
      getLE (mkDirent inum name) 0 2 := by
    refine getLE_congr fun k _ hk => getD_mkDirent ?_
    rw [show DIRENTSIZE = 16 from rfl]
    omega
  rw [hbytes]
  exact getLE_putLE_of_lt _ (Nat.lt_succ_of_le hmax)

theorem nameOf_mkDirent :
    nameOf (direntName ((List.range DIRENTSIZE).map (mkDirent inum name))) = nameOf name := by
  rw [← nameOf_strncpy name]
  refine nameOf_congr fun k hk => ?_
  have hlt : 2 + k < DIRENTSIZE := by
    rw [show DIRSIZ = 14 from rfl] at hk
    rw [show DIRENTSIZE = 16 from rfl]
    omega
  rw [direntName, getD_mkDirent hlt, mkDirent, putLE_outside _ _ _ _ _ (Or.inr (by omega)),
    Nat.add_sub_cancel_left]

end Entry

/-! ### The map -/

/-- Slot `k` of a directory is in use, under the name `nm`. -/
def SlotNamed (x : Dinode) (d : Disk) (nm : List UInt8) (k : Nat) : Prop :=
  direntInum (direntAt x d k) ≠ 0 ∧ nameOf (direntName (direntAt x d k)) = nm

instance (x : Dinode) (d : Disk) (nm : List UInt8) (k : Nat) : Decidable (SlotNamed x d nm k) :=
  inferInstanceAs (Decidable (_ ∧ _))

/-- **A directory as a map** from names to inode numbers, with the offsets of their entries. -/
def dirMap (x : Dinode) (d : Disk) (nm : List UInt8) : Option (Nat × Nat) :=
  ((List.range (direntCount x.size)).find? fun k => decide (SlotNamed x d nm k)).map fun k =>
    (direntInum (direntAt x d k), k * DIRENTSIZE)

/-- A directory of whole entries, whose used slots have distinct names. -/
structure IsDir (x : Dinode) (d : Disk) : Prop where
  type : x.type = T_DIR
  whole : x.size.toNat % DIRENTSIZE = 0
  distinct : ∀ nm, ∀ j < direntCount x.size, ∀ k < direntCount x.size,
    SlotNamed x d nm j → SlotNamed x d nm k → j = k

/-- Slot `k` is the free one that `dirlink` takes, or the one behind the last. -/
def TakesSlot (x : Dinode) (d : Disk) (k : Nat) : Prop :=
  (∀ j < k, direntInum (direntAt x d j) ≠ 0) ∧
  (k < direntCount x.size ∧ direntInum (direntAt x d k) = 0 ∨ k = direntCount x.size)

section Map

variable {x x' : Dinode} {d d' : Disk} {nm : List UInt8} {k : Nat}

theorem dirMap_eq_none :
    dirMap x d nm = none ↔ ∀ k < direntCount x.size, ¬ SlotNamed x d nm k := by
  simp [dirMap]

theorem dirMap_eq_of_first (hk : k < direntCount x.size) (hnamed : SlotNamed x d nm k)
    (hfirst : ∀ j < k, ¬ SlotNamed x d nm j) :
    dirMap x d nm = some (direntInum (direntAt x d k), k * DIRENTSIZE) := by
  have hfind : (List.range (direntCount x.size)).find? (fun k => decide (SlotNamed x d nm k)) =
      some k := by
    rw [List.find?_range_eq_some]
    exact ⟨decide_eq_true hnamed, List.mem_range.mpr hk, fun j hj => by simpa using hfirst j hj⟩
  rw [dirMap, hfind]
  rfl

theorem exists_slot_of_dirMap {r : Nat × Nat} (h : dirMap x d nm = some r) :
    ∃ k < direntCount x.size, direntInum (direntAt x d k) ≠ 0 ∧ r.1 = direntInum (direntAt x d k) := by
  obtain ⟨k, hfind, rfl⟩ := Option.map_eq_some_iff.mp h
  rw [List.find?_range_eq_some] at hfind
  have hnamed : SlotNamed x d nm k := of_decide_eq_true hfind.1
  exact ⟨k, List.mem_range.mp hfind.2.1, hnamed.1, rfl⟩

theorem IsDir.dirMap_eq (h : IsDir x d) (hk : k < direntCount x.size)
    (hnamed : SlotNamed x d nm k) :
    dirMap x d nm = some (direntInum (direntAt x d k), k * DIRENTSIZE) :=
  dirMap_eq_of_first hk hnamed fun j hj hother =>
    absurd (h.distinct nm j (by omega) k hk hother hnamed) (by omega)

theorem direntCount_eq (h : x.size.toNat % DIRENTSIZE = 0) :
    direntCount x.size * DIRENTSIZE = x.size.toNat := by
  unfold direntCount
  rw [show DIRENTSIZE = 16 from rfl] at h ⊢
  omega

theorem SlotNamed.congr (h : direntAt x' d' k = direntAt x d k) :
    SlotNamed x' d' nm k ↔ SlotNamed x d nm k := by
  unfold SlotNamed
  rw [h]

theorem direntAt_congr (hwhole : x.size.toNat % DIRENTSIZE = 0) (hk : k < direntCount x.size)
    (hbytes : ∀ j < x.size.toNat, x'.fileByte d' j = x.fileByte d j) :
    direntAt x' d' k = direntAt x d k := by
  refine List.map_congr_left fun j hj => hbytes _ ?_
  have hcount := direntCount_eq hwhole
  rw [show DIRENTSIZE = 16 from rfl] at *
  have := List.mem_range.mp hj
  omega

theorem dirMap_congr (hwhole : x.size.toNat % DIRENTSIZE = 0) (hsize : x'.size = x.size)
    (hbytes : ∀ j < x.size.toNat, x'.fileByte d' j = x.fileByte d j) :
    dirMap x' d' = dirMap x d := by
  have hslot : ∀ k < direntCount x.size, direntAt x' d' k = direntAt x d k := fun k hk =>
    direntAt_congr hwhole hk hbytes
  funext nm
  cases hmap : dirMap x d nm with
  | none =>
    rw [dirMap_eq_none] at hmap ⊢
    rw [hsize]
    exact fun k hk => (SlotNamed.congr (hslot k hk)).not.mpr (hmap k hk)
  | some r =>
    obtain ⟨k, hfind, rfl⟩ := Option.map_eq_some_iff.mp hmap
    rw [List.find?_range_eq_some] at hfind
    obtain ⟨hnamed, hk, hfirst⟩ := hfind
    rw [List.mem_range] at hk
    rw [dirMap_eq_of_first (hsize ▸ hk) ((SlotNamed.congr (hslot k hk)).mpr (of_decide_eq_true hnamed))
      fun j hj => (SlotNamed.congr (hslot j (by omega))).not.mpr (by simpa using hfirst j hj),
      hslot k hk]

/-- **A slot is filled**: the entry of slot `k`, free before or just behind the end, is now the
    one of `name` and `inum`. -/
structure Filled (x : Dinode) (d : Disk) (k inum : Nat) (nm : List UInt8) (x' : Dinode) (d' : Disk) :
    Prop where
  type : x'.type = x.type
  size : x'.size.toNat = max x.size.toNat (k * DIRENTSIZE + DIRENTSIZE)
  slot : direntInum (direntAt x' d' k) = inum ∧ nameOf (direntName (direntAt x' d' k)) = nm
  others : ∀ j < direntCount x'.size, j ≠ k → direntAt x' d' j = direntAt x d j

section Filled

variable {inum : Nat}

theorem Filled.count (h : Filled x d k inum nm x' d') (hdir : IsDir x d) (htakes : TakesSlot x d k) :
    x'.size.toNat % DIRENTSIZE = 0 ∧
    direntCount x'.size = if k < direntCount x.size then direntCount x.size else k + 1 := by
  have hcount := direntCount_eq hdir.whole
  have hwhole := hdir.whole
  have hsize := h.size
  have hk : k ≤ direntCount x.size := htakes.2.elim (fun h => h.1.le) fun h => h.le
  unfold direntCount at *
  rw [show DIRENTSIZE = 16 from rfl] at *
  split <;> omega

theorem Filled.slotNamed (h : Filled x d k inum nm x' d') (hdir : IsDir x d)
    (htakes : TakesSlot x d k) (hpos : inum ≠ 0) {other : List UInt8} {j : Nat}
    (hj : j < direntCount x'.size) :
    SlotNamed x' d' other j ↔
      (j ≠ k ∧ j < direntCount x.size ∧ SlotNamed x d other j) ∨ (j = k ∧ other = nm) := by
  by_cases hjk : j = k
  · subst hjk
    refine ⟨fun hnamed => Or.inr ⟨rfl, hnamed.2.symm.trans h.slot.2⟩, fun hcase => ?_⟩
    rcases hcase with ⟨hne, -⟩ | ⟨-, rfl⟩
    · exact absurd rfl hne
    · exact ⟨by rw [h.slot.1]; exact hpos, h.slot.2⟩
  · have hlt : j < direntCount x.size := by
      rw [(h.count hdir htakes).2] at hj
      have hk : k ≤ direntCount x.size := htakes.2.elim (fun h => h.1.le) fun h => h.le
      split at hj <;> omega
    rw [SlotNamed.congr (h.others j hj hjk)]
    exact ⟨fun hnamed => Or.inl ⟨hjk, hlt, hnamed⟩, fun hcase => hcase.elim (fun h => h.2.2) fun h =>
      absurd h.1 hjk⟩

theorem Filled.mem (h : Filled x d k inum nm x' d') (hdir : IsDir x d) (htakes : TakesSlot x d k) :
    k < direntCount x'.size := by
  rw [(h.count hdir htakes).2]
  split <;> omega

theorem Filled.isDir (h : Filled x d k inum nm x' d') (hdir : IsDir x d) (htakes : TakesSlot x d k)
    (hpos : inum ≠ 0) (hnew : dirMap x d nm = none) : IsDir x' d' := by
  rw [dirMap_eq_none] at hnew
  refine ⟨h.type.trans hdir.type, (h.count hdir htakes).1, fun other i hi j hj hni hnj => ?_⟩
  rw [h.slotNamed hdir htakes hpos hi] at hni
  rw [h.slotNamed hdir htakes hpos hj] at hnj
  rcases hni with ⟨-, hi', hni⟩ | ⟨hik, hni⟩ <;> rcases hnj with ⟨-, hj', hnj⟩ | ⟨hjk, hnj⟩
  · exact hdir.distinct other i hi' j hj' hni hnj
  · exact absurd (hnj ▸ hni) (hnew i hi')
  · exact absurd (hni ▸ hnj) (hnew j hj')
  · rw [hik, hjk]

/-- **The map gains the new entry**, and nothing else changes. -/
theorem Filled.dirMap_eq (h : Filled x d k inum nm x' d') (hdir : IsDir x d)
    (htakes : TakesSlot x d k) (hpos : inum ≠ 0) (hnew : dirMap x d nm = none) :
    dirMap x' d' = update (dirMap x d) nm (some (inum, k * DIRENTSIZE)) := by
  have hdir' := h.isDir hdir htakes hpos hnew
  have hmem := h.mem hdir htakes
  funext other
  by_cases hother : other = nm
  · subst hother
    rw [update_self, hdir'.dirMap_eq hmem
      ((h.slotNamed hdir htakes hpos hmem).mpr (Or.inr ⟨rfl, rfl⟩)), h.slot.1]
  rw [update_of_ne hother]
  cases hmap : dirMap x d other with
  | none =>
    rw [dirMap_eq_none] at hmap ⊢
    intro j hj hnamed
    rcases (h.slotNamed hdir htakes hpos hj).mp hnamed with ⟨-, hj', hnamed'⟩ | ⟨-, rfl⟩
    · exact hmap j hj' hnamed'
    · exact hother rfl
  | some r =>
    obtain ⟨j, hfind, rfl⟩ := Option.map_eq_some_iff.mp hmap
    rw [List.find?_range_eq_some] at hfind
    have hnamed : SlotNamed x d other j := of_decide_eq_true hfind.1
    have hj : j < direntCount x.size := List.mem_range.mp hfind.2.1
    have hjk : j ≠ k := by
      rintro rfl
      exact htakes.2.elim (fun hfree => hnamed.1 hfree.2) fun hend => by omega
    have hj' : j < direntCount x'.size := by
      rw [(h.count hdir htakes).2]
      split <;> omega
    rw [hdir'.dirMap_eq hj' ((h.slotNamed hdir htakes hpos hj').mpr (Or.inl ⟨hjk, hj, hnamed⟩)),
      h.others j hj' hjk]

end Filled

end Map

/-! ### `dirlookup` -/

section Calls

variable {sb : Superblock} {first dp inum : Nat} {s s' : State} {E : Stop → Prop} {name : Name}

/-- **`dirlookup` is lookup in the map.** -/
theorem wp_dirlookup_dirMap (hdense : (s.inode dp).copy.Dense s.disk)
    (htype : (s.inode dp).copy.type = T_DIR)
    (hwhole : (s.inode dp).copy.size.toNat % DIRENTSIZE = 0) (name : Name)
    (hfull : dirMap (s.inode dp).copy s.disk (nameOf name) ≠ none →
      (∀ j < NINODE, 0 < (s.inode j).ref) → E (.panic .igetNoInodes)) :
    wp (dirlookup sb dp name) E (fun r s' =>
      match dirMap (s.inode dp).copy s.disk (nameOf name) with
      | none => r = none ∧ s' = s
      | some (i, off) => ∃ ip, r = some (ip, off) ∧ Got s i ip s') s := by
  simp only [dirlookup, wp_bind, wp_get]
  rw [if_neg (not_not.mpr htype)]
  -- the slots before the current one do not have the name
  refine wp_findFirst (I := fun k t => t = s ∧
    ∀ j < k, ¬ SlotNamed (s.inode dp).copy s.disk (nameOf name) j) _
    ⟨rfl, fun j hj => absurd hj (Nat.not_lt_zero j)⟩ ?_ ?_
  · rintro k t _ hk ⟨ht, hbefore⟩
    subst ht
    have hnext : ¬ SlotNamed (t.inode dp).copy t.disk (nameOf name) k →
        ∀ j < k + 1, ¬ SlotNamed (t.inode dp).copy t.disk (nameOf name) j := fun hnot j hj =>
      (Nat.lt_succ_iff_lt_or_eq.mp hj).elim (hbefore j) fun heq => heq ▸ hnot
    rw [wp_bind]
    refine wp_mono (wp_readDirent hdense hk) ?_
    rintro ⟨r, de⟩ u ⟨hu, hshort, hde⟩
    subst hu
    dsimp only at hshort hde ⊢
    split
    · rename_i hne
      exact absurd (hshort hne) (not_partialEntry hwhole)
    rename_i heq
    rw [hde (not_not.mp heq)]
    split
    · rename_i hfree
      exact ⟨rfl, hnext fun hnamed => hnamed.1 hfree⟩
    rename_i hused
    split
    · rename_i hname
      have hmap := dirMap_eq_of_first (by omega) ⟨hused, (nameEq_iff_nameOf.mp hname).symm⟩ hbefore
      rw [wp_bind]
      refine wp_mono (wp_iget _ (hfull (by rw [hmap]; simp))) fun ip v hgot => ?_
      rw [hmap]
      exact ⟨ip, rfl, hgot⟩
    · rename_i hname
      exact ⟨rfl, hnext fun hnamed => hname (nameEq_iff_nameOf.mpr hnamed.2.symm)⟩
  · rintro t ⟨ht, hall⟩
    rw [dirMap_eq_none.mpr fun k hk => hall k (by omega)]
    exact ⟨rfl, ht⟩

/-! ### `dirlink` -/

theorem Dinode.Dense.size_le {x : Dinode} {d : Disk} (h : x.Dense d) :
    x.size.toNat ≤ MAXFILE * BSIZE :=
  Nat.not_lt.mp fun hgt => absurd (Dinode.lt_of_fileBlock (h MAXFILE hgt)) (Nat.lt_irrefl _)

/-- The directory has no free slot, and no more fits into a file. -/
def DirFull (x : Dinode) (d : Disk) : Prop :=
  (∀ k < direntCount x.size, direntInum (direntAt x d k) ≠ 0) ∧
    MAXFILE * BSIZE < x.size.toNat + DIRENTSIZE

/-- `dirlink` has failed: the name is there already, the directory is full, or the block of the
    slot is missing and cannot be allocated. -/
structure LinkFailed (sb : Superblock) (dp : Nat) (name : Name) (s s' : State) : Prop where
  map : dirMap (s'.inode dp).copy s'.disk = dirMap (s.inode dp).copy s.disk
  size : (s'.inode dp).copy.size = (s.inode dp).copy.size
  reason : dirMap (s.inode dp).copy s.disk (nameOf name) ≠ none ∨
    DirFull (s.inode dp).copy s.disk ∨
    ∃ k, TakesSlot (s.inode dp).copy s.disk k ∧
      (s.inode dp).copy.fileBlock s.disk (k * DIRENTSIZE / BSIZE) = 0 ∧ Starved sb s s'

/-- `dirlink` has added `name`. -/
structure LinkDone (dp : Nat) (name : Name) (inum : Nat) (s s' : State) : Prop where
  absent : dirMap (s.inode dp).copy s.disk (nameOf name) = none
  room : ¬ DirFull (s.inode dp).copy s.disk
  map : ∃ off, dirMap (s'.inode dp).copy s'.disk =
    update (dirMap (s.inode dp).copy s.disk) (nameOf name) (some (inum, off))
  isDir : IsDir (s'.inode dp).copy s'.disk
  reused : (∃ k < direntCount (s.inode dp).copy.size,
      direntInum (direntAt (s.inode dp).copy s.disk k) = 0) →
    (s'.inode dp).copy.size = (s.inode dp).copy.size
  grown : (∀ k < direntCount (s.inode dp).copy.size,
      direntInum (direntAt (s.inode dp).copy s.disk k) ≠ 0) →
    (s'.inode dp).copy.size.toNat = (s.inode dp).copy.size.toNat + DIRENTSIZE

section Write

variable {k : Nat}

theorem FileWritten.filled (h : FileWritten sb dp (k * DIRENTSIZE) DIRENTSIZE (mkDirent inum name) s
      DIRENTSIZE s') (hdir : IsDir (s.inode dp).copy s.disk) (hmax : inum ≤ 65535) :
    Filled (s.inode dp).copy s.disk k inum (nameOf name) (s'.inode dp).copy s'.disk := by
  have hslot : direntAt (s'.inode dp).copy s'.disk k =
      (List.range DIRENTSIZE).map (mkDirent inum name) := by
    refine List.map_congr_left fun j hj => ?_
    have hj' := List.mem_range.mp hj
    rw [h.bytes _ (by rw [h.size]; omega), if_pos ⟨by omega, by omega⟩, Nat.add_sub_cancel_left]
  refine ⟨?_, h.size, ?_, fun j hj hjk => List.map_congr_left fun l hl => ?_⟩
  · obtain ⟨addrs, size, heq⟩ := h.fields
    rw [heq]
    rfl
  · rw [hslot]
    exact ⟨direntInum_mkDirent hmax, nameOf_mkDirent⟩
  · have hlt := direntCount_lt hj
    have hl' := List.mem_range.mp hl
    have hsize := h.size
    have hwhole := hdir.whole
    rw [show DIRENTSIZE = 16 from rfl] at *
    rw [h.bytes _ (by omega), if_neg (by omega)]

/-- **One slot is written**, or the block for it is missing. -/
theorem wp_writeDirent [LogMayPanic E] (hL : Layout sb first) (h : Consistent sb first s)
    (hr : Ready dp s) (hdir : IsDir (s.inode dp).copy s.disk)
    (htakes : TakesSlot (s.inode dp).copy s.disk k) (hpos : 1 ≤ inum) (hmax : inum ≤ 65535)
    (hnew : dirMap (s.inode dp).copy s.disk (nameOf name) = none) :
    wp (writei sb dp (fun j => some (mkDirent inum name j)) (UInt32.ofNat (k * DIRENTSIZE))
      (UInt32.ofNat DIRENTSIZE)) E (fun r s' => Consistent sb first s' ∧
        (r = DIRENTSIZE → LinkDone dp name inum s s') ∧
        (r ≠ DIRENTSIZE → LinkFailed sb dp name s s')) s := by
  have hk : k ≤ direntCount (s.inode dp).copy.size :=
    htakes.2.elim (fun h => h.1.le) fun h => h.le
  have hcount := direntCount_eq hdir.whole
  have hend : k * DIRENTSIZE ≤ (s.inode dp).copy.size.toNat := by
    rw [← hcount]
    exact Nat.mul_le_mul_right _ hk
  have hle := (h.dense hr).size_le
  have hoff : (UInt32.ofNat (k * DIRENTSIZE)).toNat = k * DIRENTSIZE := by
    rw [UInt32.toNat_ofNat']
    exact Nat.mod_eq_of_lt (Nat.lt_of_le_of_lt hend (UInt32.toNat_lt _))
  have hn : (UInt32.ofNat DIRENTSIZE).toNat = DIRENTSIZE := rfl
  by_cases hfit : k * DIRENTSIZE + DIRENTSIZE ≤ MAXFILE * BSIZE
  · refine wp_mono (wp_writei hL h hr _ _ _) fun r t ⟨ht, _, _, hwritten⟩ => ⟨ht, ?_⟩
    obtain ⟨tot, rfl, hw⟩ := hwritten (mkDirent inum name) rfl (by rw [hoff]; exact hend)
      (by rw [hoff, hn]; exact hfit)
    rw [hoff, hn] at hw
    refine ⟨fun hall => ?_, fun hpart => ?_⟩
    · have htot : tot = DIRENTSIZE := by exact_mod_cast hall
      subst htot
      have hfilled := hw.filled hdir hmax
      have hne : inum ≠ 0 := Nat.one_le_iff_ne_zero.mp hpos
      refine ⟨hnew, fun hfull => ?_, ⟨_, hfilled.dirMap_eq hdir htakes hne hnew⟩,
        hfilled.isDir hdir htakes hne hnew, fun hfree => UInt32.toNat_inj.mp ?_, fun hused => ?_⟩
      · rcases htakes.2 with ⟨hlt, hfree⟩ | heq
        · exact hfull.1 k hlt hfree
        · have := hfull.2
          rw [← hcount, ← heq] at this
          omega
      · obtain ⟨j, hj, hzero⟩ := hfree
        have hlt : k < direntCount (s.inode dp).copy.size := by
          rcases htakes.2 with ⟨hlt, -⟩ | heq
          · exact hlt
          · exact absurd hzero (htakes.1 j (heq ▸ hj))
        have hin : (k + 1) * DIRENTSIZE ≤ direntCount (s.inode dp).copy.size * DIRENTSIZE :=
          Nat.mul_le_mul_right _ hlt
        rw [hcount, Nat.add_mul, Nat.one_mul] at hin
        rw [hw.size, Nat.max_eq_left hin]
      · have heq : k = direntCount (s.inode dp).copy.size :=
          htakes.2.elim (fun hfree => absurd hfree.2 (hused k hfree.1)) id
        rw [hw.size, heq, hcount, Nat.max_eq_right (by omega)]
    · have hlt : tot < DIRENTSIZE :=
        Nat.lt_of_le_of_ne hw.le fun heq => hpart (by rw [heq])
      obtain ⟨hbound, hnone, hstarved⟩ := hw.short hlt
      -- a slot does not cross blocks
      have hzero : tot = 0 := by
        rcases hbound with hzero | hmod
        · exact hzero
        · rw [show DIRENTSIZE = 16 from rfl, show BSIZE = 1024 from rfl] at *
          omega
      subst hzero
      have hsize : (t.inode dp).copy.size = (s.inode dp).copy.size := by
        refine UInt32.toNat_inj.mp ?_
        rw [hw.size, Nat.add_zero, Nat.max_eq_left hend]
      refine ⟨dirMap_congr hdir.whole hsize fun j hj => ?_, hsize,
        Or.inr (Or.inr ⟨k, htakes, hnone, hstarved⟩)⟩
      rw [hw.bytes j (by rw [hsize]; exact hj), if_neg (by omega)]
  · refine wp_of_run (writei_outOfBounds _ (Or.inr (Or.inr ?_))) ⟨h, fun hr => ?_, fun _ => ?_⟩
    · rw [hoff, hn]
      omega
    · exact absurd hr (by decide)
    · have heq : k = direntCount (s.inode dp).copy.size := by
        rcases htakes.2 with ⟨hlt, -⟩ | heq
        · have hin : (k + 1) * DIRENTSIZE ≤ direntCount (s.inode dp).copy.size * DIRENTSIZE :=
            Nat.mul_le_mul_right _ hlt
          rw [hcount, Nat.add_mul, Nat.one_mul] at hin
          exact absurd (hin.trans hle) hfit
        · exact heq
      refine ⟨rfl, rfl, Or.inr (Or.inl ⟨fun j hj => htakes.1 j (heq ▸ hj), ?_⟩)⟩
      rw [← hcount, ← heq]
      omega

end Write

/-- `dirlink` stops only where `log_write` does, or if `itable` is full when it finds the
    name. -/
def LinkStops (dp : Nat) (name : Name) (s : State) (e : Stop) : Prop :=
  (e = .panic .igetNoInodes ∧ dirMap (s.inode dp).copy s.disk (nameOf name) ≠ none ∧
    ∀ j < NINODE, 0 < (s.inode j).ref) ∨ LogPanic e

instance (dp : Nat) (name : Name) (s : State) : LogMayPanic (LinkStops dp name s) :=
  ⟨fun e => Or.inr ⟨e, rfl⟩⟩

/-- **`dirlink` adds to the map**, or leaves it alone. -/
theorem wp_dirlink_dirMap (hL : Layout sb first) (h : Consistent sb first s) (hr : Ready dp s)
    (hdir : IsDir (s.inode dp).copy s.disk) (name : Name) (hpos : 1 ≤ inum) (hmax : inum ≤ 65535) :
    wp (dirlink sb dp name inum) (LinkStops dp name s) (fun r s' => Consistent sb first s' ∧
      (r = -1 ∧ LinkFailed sb dp name s s' ∨ r = 0 ∧ LinkDone dp name inum s s')) s := by
  have hdense := h.dense hr
  unfold dirlink
  rw [wp_bind]
  refine wp_mono (wp_dirlookup_dirMap hdense hdir.type hdir.whole name fun hsome hall =>
    Or.inl ⟨rfl, hsome, hall⟩) fun r t ht => ?_
  cases hmap : dirMap (s.inode dp).copy s.disk (nameOf name) with
  | some found =>
    rw [hmap] at ht
    obtain ⟨ip, rfl, hgot⟩ := ht
    have hcons := hgot.consistent h
    -- the reference is dropped again
    have hput : wp (iput sb ip) (fun _ => False) _ t := wp_iput_eq hgot.not_last
    obtain ⟨_, u, hrun, hu⟩ := wp_total hput
    have hcons' := (wp_ok (wp_iput hL hcons hgot.1 hgot.ref_pos) hrun).1
    rw [wp_bind]
    refine wp_of_run hrun ⟨hcons', Or.inl ⟨rfl, ?_⟩⟩
    have hdisk : u.disk = s.disk := by rw [hu, State.setInode_disk, hgot.disk]
    have hcopy : (u.inode dp).copy = (s.inode dp).copy := by
      rw [← hgot.copy dp, hu]
      by_cases hdp : dp = ip
      · rw [hdp, State.setInode_self]
      · rw [State.setInode_ne _ _ hdp]
    exact ⟨by rw [hdisk, hcopy], by rw [hcopy], Or.inl (by rw [hmap]; simp)⟩
  | none =>
    rw [hmap] at ht
    obtain ⟨rfl, rfl⟩ := ht
    simp only [wp_bind, wp_get]
    have hwrite : ∀ k, TakesSlot (t.inode dp).copy t.disk k →
        wp (writei sb dp (fun j => some (mkDirent inum name j)) (UInt32.ofNat (k * DIRENTSIZE))
          (UInt32.ofNat DIRENTSIZE)) (LinkStops dp name t) (fun r u => wp (if r ≠ DIRENTSIZE then
            pure (-1) else pure 0 : FsM Int) (LinkStops dp name t) (fun r s' => Consistent sb first s' ∧
              (r = -1 ∧ LinkFailed sb dp name t s' ∨ r = 0 ∧ LinkDone dp name inum t s')) u) t :=
      fun k htakes => by
        refine wp_mono (wp_writeDirent hL h hr hdir htakes hpos hmax hmap) ?_
        rintro r u ⟨hu, hdone, hfailed⟩
        split
        · rename_i hne
          exact ⟨hu, Or.inl ⟨rfl, hfailed hne⟩⟩
        · rename_i heq
          exact ⟨hu, Or.inr ⟨rfl, hdone (not_not.mp heq)⟩⟩
    refine wp_findFirst (I := fun k u => u = t ∧
      ∀ j < k, direntInum (direntAt (t.inode dp).copy t.disk j) ≠ 0) _
      ⟨rfl, fun j hj => absurd hj (Nat.not_lt_zero j)⟩ ?_ ?_
    · rintro k u _ hk ⟨hu, hbefore⟩
      subst hu
      rw [wp_bind]
      refine wp_mono (wp_readDirent hdense hk) ?_
      rintro ⟨r, de⟩ v ⟨hv, hshort, hde⟩
      subst hv
      dsimp only at hshort hde ⊢
      split
      · rename_i hne
        exact absurd (hshort hne) (not_partialEntry hdir.whole)
      rename_i heq
      rw [hde (not_not.mp heq)]
      split
      · rename_i hfree
        exact hwrite k ⟨hbefore, Or.inl ⟨by omega, hfree⟩⟩
      · rename_i hused
        refine ⟨rfl, fun j hj => ?_⟩
        rcases Nat.lt_succ_iff_lt_or_eq.mp hj with hlt | rfl
        · exact hbefore j hlt
        · exact hused
    · rintro u ⟨hu, hall⟩
      subst hu
      rw [Nat.zero_add] at hall
      exact hwrite _ ⟨hall, Or.inr rfl⟩

def newDir : State := after (after (after boot .beginOp) (.ialloc T_DIR)) (.ilock 0)

theorem newDir_consistent : Consistent Mkfs.sb Mkfs.nmeta newDir :=
  ((boot_consistent.after .beginOp trivial (by decide)).after (.ialloc T_DIR) trivial
    (by decide)).after (.ilock 0) ⟨by decide, by decide⟩ (by decide)

theorem newDir_ready : Ready 0 newDir := ⟨by decide, by decide, by decide⟩

theorem newDir_isDir : IsDir (newDir.inode 0).copy newDir.disk := by
  have htype : (newDir.inode 0).copy.type = T_DIR := by decide
  have hsize : (newDir.inode 0).copy.size = 0 := by decide
  generalize newDir = s at *
  refine ⟨htype, by rw [hsize]; rfl, fun nm j hj => ?_⟩
  rw [hsize] at hj
  exact absurd hj (Nat.not_lt_zero j)

end Calls

end Xv6.Fs
