import Xv6.Mkfs.Append

/-!
# The image

What the image file holds after each file of the command line, and at the end.  `mkfs` has no
check for inode numbers: the results are about lists of at most `NINODES - 2` files, which is
the number that the inode blocks are laid out for.
-/

namespace Xv6.Mkfs

open ByteView Hoare Ledger Fs Function

/-- The image holds the files `F`, with their sizes, and the super block. -/
structure Filled (F : Nat → Option File) (s : State) : Prop
    extends Holds (dinodeAt sb s.disk) F s where
  size : ∀ i < NINODES, ∀ f, F i = some f →
    (dinodeAt sb s.disk i).size.toNat = f.bytes.length
  le : s.freeblock ≤ FSSIZE
  super : s.disk 1 = sbBlock

/-- What `mkfs` leaves of the files `F`: the size of the root directory is fixed and the bitmap
    is written. -/
structure Made (F : Nat → Option File) (s : State) : Prop
    extends Holds (dinodeAt sb s.disk) F s where
  size : ∀ i < NINODES, i ≠ ROOTINO → ∀ f, F i = some f →
    (dinodeAt sb s.disk i).size.toNat = f.bytes.length
  rootSize : ∀ f, F ROOTINO = some f →
    (dinodeAt sb s.disk ROOTINO).size.toNat = (f.bytes.length / BSIZE + 1) * BSIZE
  le : s.freeblock ≤ FSSIZE
  super : s.disk 1 = sbBlock
  bitmap : s.disk sb.bmapstart = setBits (fun _ => 0) s.freeblock

section Inodes

variable {D D' : Nat → Dinode} {F : Nat → Option File} {s : State} {E : Abort → Prop} {i : Nat}
  {f : File}

/-- The number of dinodes that the inode blocks have room for. -/
def roomForInodes : Nat := ninodeblocks * IPB

theorem IBLOCK_lt (hi : i < roomForInodes) : 1 < IBLOCK sb i ∧ IBLOCK sb i < sb.bmapstart := by
  have hdiv : i / IPB < ninodeblocks := Nat.div_lt_of_lt_mul (by rw [Nat.mul_comm]; exact hi)
  have hstart : sb.inodestart + ninodeblocks = sb.bmapstart := rfl
  have hone : 1 < sb.inodestart := by decide
  exact ⟨Nat.lt_of_lt_of_le hone (Nat.le_add_left _ _), by unfold IBLOCK; omega⟩

theorem lt_roomForInodes (hi : i < NINODES) : i < roomForInodes := Nat.lt_trans hi (by decide)

theorem wp_rinode {Q : Dinode → State → Prop} (hn : s.nsect = FSSIZE) (hi : i < roomForInodes)
    (h : Q (dinodeAt sb s.disk i) s) : wp (rinode i) E Q s := by
  have hlt := (IBLOCK_lt hi).2
  have hmap : sb.bmapstart < FSSIZE := by decide
  have hF : FSSIZE < 2 ^ 22 := by decide
  unfold rinode
  rw [wp_bind]
  exact wp_rsect hn (by omega) (fun hge => by omega) fun _ => h

theorem wp_winode {x : Dinode} {Q : Unit → State → Prop} (hn : s.nsect = FSSIZE)
    (hi : i < roomForInodes) (h : Q () (s.setDisk (setDinode sb s.disk i x))) :
    wp (winode i x) E Q s := by
  have hlt := (IBLOCK_lt hi).2
  have hmap : sb.bmapstart < FSSIZE := by decide
  have hF : FSSIZE < 2 ^ 22 := by decide
  unfold winode
  rw [wp_bind]
  exact wp_rsect hn (by omega) (fun hge => by omega) fun _ => wp_wsect hn (by omega) h

theorem setDinode_of_ne {d : Disk} {x : Dinode} {b : Nat} (hi : i < roomForInodes)
    (hb : b ≤ 1 ∨ sb.bmapstart ≤ b) : setDinode sb d i x b = d b := by
  have hlt := IBLOCK_lt hi
  exact update_of_ne (by omega) _ _

theorem Stores.of_addrs {x y : Dinode} {d : Disk} {bytes : List UInt8} (h : Stores x d bytes)
    (haddrs : y.addrs = x.addrs) : Stores y d bytes := by
  have hfile : y.fileBlock d = x.fileBlock d := Dinode.fileBlock_congr haddrs
  refine ⟨fun bn => by rw [hfile]; exact h.block bn, by rw [haddrs]; exact h.indirect,
    fun k hk => ?_⟩
  rw [hfile] at hk
  rw [← h.byte k hk, Dinode.fileByte, Dinode.fileByte, hfile]

theorem Holds.congr (h : Holds D F s) (d' : Disk)
    (hD : ∀ j < NINODES, (D' j).type = (D j).type ∧ (D' j).nlink = (D j).nlink ∧
      (D' j).addrs = (D j).addrs)
    (hd : ∀ b, nmeta ≤ b → d' b = s.disk b) : Holds D' F (s.setDisk d') := by
  have hown : ∀ p, owner sb D' d' p = owner sb D s.disk p := by
    intro p
    have hinode : owner sb D' d' p = owner sb D d' p := by
      unfold owner
      by_cases hp : p.1 < sb.ninodes
      · obtain ⟨htype, -, haddrs⟩ := hD p.1 hp
        rw [htype, Dinode.block_congr haddrs]
      · rw [if_neg fun hc => hp hc.1, if_neg fun hc => hp hc.1]
    rw [hinode]
    exact owner_congr_disk fun b hb => hd b (h.exact.owned _ b hb)
  refine ⟨⟨h.nsect, h.exact.congr hown fun _ _ => Iff.rfl, h.nmeta_le, fun b hb => ?_⟩,
    fun j hj hnone => ?_, fun j hj g hg => ?_, fun j hj g hg => ?_,
    fun j b hb => h.high j b (hown _ ▸ hb)⟩
  · rw [State.setDisk_disk, hd b (Nat.le_trans h.nmeta_le hb)]
    exact h.blank b hb
  · rw [(hD j hj).1]
    exact h.dead j hj hnone
  · obtain ⟨htype, hnlink, -⟩ := hD j hj
    rw [htype, hnlink]
    exact h.live j hj g hg
  · obtain ⟨hgty, hgt, -⟩ := h.live j hj g hg
    refine ((h.file j hj g hg).congr fun k hk => hd _ ?_).of_addrs (hD j hj).2.2
    refine h.exact.owned (j, k) _ ?_
    rw [owner_live hj (by rw [hgt]; exact hgty)]
    exact nonzero_eq_some.mpr ⟨rfl, hk⟩

/-- **`iappend`** of the bytes `p` to file `i`. -/
theorem wp_iappend (h : Filled F s) (hi : i < NINODES) (hf : F i = some f) (p : List UInt8)
    (hbig : MAXFILE * BSIZE < f.bytes.length + p.length → E .assert)
    (hfull : FSSIZE + blocksOf f.bytes.length < s.freeblock + blocksOf (f.bytes.length + p.length) →
      E .die) :
    wp (iappend i p) E (fun _ s' => Filled (appendTo F i p) s' ∧ s'.freeinode = s.freeinode ∧
      s'.freeblock + blocksOf f.bytes.length = s.freeblock + blocksOf (f.bytes.length + p.length) ∧
      ∀ j < roomForInodes, j ≠ i → dinodeAt sb s'.disk j = dinodeAt sb s.disk j) s := by
  have hroom := lt_roomForInodes hi
  unfold iappend
  rw [wp_bind]
  refine wp_rinode h.nsect hroom ?_
  rw [wp_bind]
  refine wp_mono (wp_appendLoop h.toHolds hi hf h.le (h.size i hi f hf) p hbig hfull)
    fun v t ⟨hoff, ⟨addrs, hfields⟩, hholds, hcount, hle, hinode, hlow⟩ => ?_
  refine wp_winode hholds.nsect hroom ?_
  have hmap : sb.bmapstart < nmeta := by decide
  have hdin : ∀ j < roomForInodes, j ≠ i →
      dinodeAt sb (setDinode sb t.disk i (v.din.setSize v.off)) j = dinodeAt sb s.disk j := by
    intro j hj hji
    rw [dinodeAt_setDinode, update_of_ne hji, dinodeAt, dinodeAt,
      hlow _ (Nat.lt_trans (IBLOCK_lt hj).2 hmap)]
  have hself : dinodeAt sb (setDinode sb t.disk i (v.din.setSize v.off)) i =
      v.din.setSize v.off := by
    rw [dinodeAt_setDinode, update_self]
  refine ⟨⟨hholds.congr _ (fun j hj => ?_) fun b hb => setDinode_of_ne hroom (Or.inr (by omega)),
    fun j hj g hg => ?_, hle, ?_⟩, hinode, hcount, hdin⟩
  · rw [State.setDisk_disk]
    by_cases hji : j = i
    · subst hji
      rw [hself, update_self]
      exact ⟨rfl, rfl, rfl⟩
    · rw [hdin j (lt_roomForInodes hj) hji, update_of_ne hji]
      exact ⟨rfl, rfl, rfl⟩
  · rw [State.setDisk_disk]
    by_cases hji : j = i
    · subst hji
      rw [appendTo_self hf] at hg
      cases hg
      rw [hself, List.length_append]
      exact hoff
    · rw [appendTo_ne hji] at hg
      rw [hdin j (lt_roomForInodes hj) hji]
      exact h.size j hj g hg
  · rw [State.setDisk_disk, setDinode_of_ne hroom (Or.inl (Nat.le_refl _)), hlow 1 (by decide), h.super]

def newDinode (type : UInt16) : Dinode := { Dinode.zero with type := type, nlink := 1 }

theorem Holds.addInode (h : Holds D F s) (hnew : F i = none) {type : UInt16} (htype : type ≠ 0) :
    Holds (update D i (newDinode type)) (update F i (some ⟨type, []⟩)) s := by
  have hblock : ∀ k, (newDinode type).block s.disk k = 0 := fun k => by
    cases k <;> simp [newDinode, Dinode.block, Dinode.zero]
  have hfile : ∀ bn, (newDinode type).fileBlock s.disk bn = 0 := fun bn => by
    unfold Dinode.fileBlock
    split
    · exact hblock _
    · rfl
  have hown : ∀ p, owner sb (update D i (newDinode type)) s.disk p =
      owner sb D s.disk p := by
    rintro ⟨j, k⟩
    by_cases hji : j = i
    · subst hji
      by_cases hj : j < NINODES
      · have hdead : owner sb D s.disk (j, k) = none := if_neg fun hc => hc.2 (h.dead j hj hnew)
        rw [hdead, owner_self hj htype, hblock]
        rfl
      · exact (if_neg fun hc => hj hc.1).trans (if_neg fun hc => hj hc.1).symm
    · exact owner_other hji
  refine ⟨⟨h.nsect, h.exact.congr hown fun _ _ => Iff.rfl, h.nmeta_le, h.blank⟩,
    fun j hj hnone => ?_, fun j hj g hg => ?_, fun j hj g hg => ?_,
    fun j b hb => h.high j b (hown _ ▸ hb)⟩ <;> by_cases hji : j = i
  · subst hji
    rw [update_self] at hnone
    cases hnone
  · rw [update_of_ne hji] at hnone ⊢
    exact h.dead j hj hnone
  · subst hji
    rw [update_self] at hg ⊢
    cases hg
    exact ⟨htype, rfl, rfl⟩
  · rw [update_of_ne hji] at hg ⊢
    exact h.live j hj g hg
  · subst hji
    rw [update_self] at hg ⊢
    cases hg
    exact ⟨fun bn => by simp [hfile], by simp [newDinode, Dinode.zero], fun k hk =>
      absurd (hfile _) hk⟩
  · rw [update_of_ne hji] at hg ⊢
    exact h.file j hj g hg

/-- **`ialloc`**, for a number that the inode blocks have room for. -/
theorem wp_ialloc (h : Filled F s) (hi : s.freeinode < roomForInodes)
    (hnew : F s.freeinode = none) {type : UInt16} (htype : type ≠ 0) :
    wp (ialloc type) E (fun inum s' => inum = s.freeinode ∧ s'.freeinode = s.freeinode + 1 ∧
      s'.freeblock = s.freeblock ∧ Filled (update F inum (some ⟨type, []⟩)) s' ∧
      dinodeAt sb s'.disk = update (dinodeAt sb s.disk) inum (newDinode type)) s := by
  simp only [ialloc, wp_bind, wp_get, wp_modify, wp_pure]
  refine wp_winode h.nsect hi ?_
  have hmap : sb.bmapstart < nmeta := by decide
  have hdin : dinodeAt sb (setDinode sb s.disk s.freeinode (newDinode type)) =
      update (dinodeAt sb s.disk) s.freeinode (newDinode type) :=
    dinodeAt_setDinode ..
  have hholds := (h.toHolds.addInode hnew htype).congr
    (setDinode sb s.disk s.freeinode (newDinode type))
    (fun j _ => by rw [← congrFun hdin j]; exact ⟨rfl, rfl, rfl⟩)
    fun b hb => setDinode_of_ne hi (Or.inr (by omega))
  refine ⟨trivial, rfl, rfl, ⟨⟨⟨hholds.nsect, hholds.exact, hholds.nmeta_le, hholds.blank⟩, hholds.dead,
    hholds.live, hholds.file, hholds.high⟩, fun j hj g hg => ?_, h.le, ?_⟩, hdin⟩
  · show (dinodeAt sb (setDinode sb s.disk s.freeinode (newDinode type)) j).size.toNat = _
    rw [hdin]
    by_cases hji : j = s.freeinode
    · subst hji
      rw [update_self] at hg ⊢
      cases hg
      rfl
    · rw [update_of_ne hji] at hg ⊢
      exact h.size j hj g hg
  · show setDinode sb s.disk s.freeinode (newDinode type) 1 = sbBlock
    rw [setDinode_of_ne hi (Or.inl (Nat.le_refl _)), h.super]

/-- **The content of a host file**, piece by piece. -/
theorem wp_appendAll (h : Filled F s) (hi : i < NINODES) (hf : F i = some f) (pieces : List Piece)
    (hbig : MAXFILE * BSIZE < f.bytes.length + (pieces.flatMap Subtype.val).length → E .assert)
    (hfull : FSSIZE + blocksOf f.bytes.length <
      s.freeblock + blocksOf (f.bytes.length + (pieces.flatMap Subtype.val).length) → E .die) :
    wp (appendAll i pieces) E (fun _ s' => Filled (appendTo F i (pieces.flatMap Subtype.val)) s' ∧
      s'.freeinode = s.freeinode ∧
      s'.freeblock + blocksOf f.bytes.length =
        s.freeblock + blocksOf (f.bytes.length + (pieces.flatMap Subtype.val).length)) s := by
  induction pieces generalizing F s f with
  | nil =>
    rw [List.flatMap_nil, appendTo_nil]
    exact ⟨h, rfl, rfl⟩
  | cons p ps ih =>
    rw [List.flatMap_cons, List.length_append, ← Nat.add_assoc] at hbig hfull ⊢
    have hmono : blocksOf (f.bytes.length + p.val.length) ≤
        blocksOf (f.bytes.length + p.val.length + (ps.flatMap Subtype.val).length) :=
      blocksOf_mono (Nat.le_add_right _ _)
    rw [appendAll, wp_bind]
    refine wp_mono (wp_iappend h hi hf p.val (fun hgt => hbig (by omega)) fun hgt => hfull (by omega))
      fun _ t ⟨ht, hinode, hcount, _⟩ => ?_
    refine wp_mono (ih ht (appendTo_self hf p.val) ?_ ?_) fun _ u ⟨hu, hinode', hcount'⟩ => ?_
    · rw [List.length_append]
      exact hbig
    · rw [List.length_append]
      exact fun hgt => hfull (by omega)
    · rw [appendTo_appendTo] at hu
      rw [List.length_append] at hcount'
      exact ⟨hu, hinode'.trans hinode, by omega⟩

theorem wp_finish (h : Filled F s) (hf : F ROOTINO = some f)
    (hsmall : f.bytes.length < MAXFILE * BSIZE) :
    wp (fixSize ROOTINO) E (fun _ s' => wp (balloc s'.freeblock) E (fun _ u => Made F u ∧
      u.freeinode = s.freeinode ∧ u.freeblock = s.freeblock ∧
      ∀ j < roomForInodes, j ≠ ROOTINO → dinodeAt sb u.disk j = dinodeAt sb s.disk j) s') s := by
  have hroom : ROOTINO < roomForInodes := by decide
  have hmap : sb.bmapstart < nmeta := by decide
  have hlow : ∀ j < roomForInodes, IBLOCK sb j ≠ sb.bmapstart := fun j hj =>
    Nat.ne_of_lt (IBLOCK_lt hj).2
  have hsize := h.size ROOTINO (by decide) f hf
  unfold fixSize
  rw [wp_bind]
  refine wp_rinode h.nsect hroom (wp_winode h.nsect hroom ?_)
  rw [hsize]
  generalize hx : (dinodeAt sb s.disk ROOTINO).setSize
    (UInt32.ofNat ((f.bytes.length / BSIZE + 1) * BSIZE)) = x
  unfold balloc
  rw [wp_bind, State.setDisk_freeblock]
  refine wp_assert (fun hge => absurd (Nat.lt_of_le_of_lt h.le (by decide)) hge) fun _ =>
    wp_wsect h.nsect (by decide) ?_
  rw [State.setDisk_disk]
  generalize hd : update (setDinode sb s.disk ROOTINO x) sb.bmapstart
    (setBits (fun _ => 0) s.freeblock) = d
  have hdin : ∀ j < roomForInodes, dinodeAt sb d j =
      update (dinodeAt sb s.disk) ROOTINO x j := by
    intro j hj
    rw [← dinodeAt_setDinode, ← hd, dinodeAt, update_of_ne (hlow j hj)]
    rfl
  have hother : ∀ j < roomForInodes, j ≠ ROOTINO → dinodeAt sb d j = dinodeAt sb s.disk j :=
    fun j hj hne => by rw [hdin j hj, update_of_ne hne]
  have hroot : dinodeAt sb d ROOTINO = x := by rw [hdin _ hroom, update_self]
  refine ⟨⟨h.toHolds.congr d (fun j hj => ?_) fun b hb => ?_, fun j hj hne g hg => ?_,
    fun g hg => ?_, h.le, ?_, ?_⟩, rfl, rfl, hother⟩
  · by_cases hjr : j = ROOTINO
    · subst hjr
      rw [State.setDisk_disk, hroot, ← hx]
      exact ⟨rfl, rfl, rfl⟩
    · rw [State.setDisk_disk, hother j (lt_roomForInodes hj) hjr]
      exact ⟨rfl, rfl, rfl⟩
  · rw [← hd, update_of_ne (by omega), setDinode_of_ne hroom (Or.inr (by omega))]
  · rw [State.setDisk_disk, hother j (lt_roomForInodes hj) hne]
    exact h.size j hj g hg
  · obtain rfl := Option.some.inj (hf.symm.trans hg)
    rw [State.setDisk_disk, hroot, ← hx]
    show (UInt32.ofNat _).toNat = _
    have hlt : (f.bytes.length / BSIZE + 1) * BSIZE < 2 ^ 32 := by
      have hle := Nat.div_mul_le_self f.bytes.length BSIZE
      have hmax : MAXFILE * BSIZE + BSIZE < 2 ^ 32 := by decide
      rw [Nat.add_mul]
      omega
    rw [UInt32.toNat_ofNat', Nat.mod_eq_of_lt hlt]
  · rw [State.setDisk_disk, ← hd, update_of_ne (by decide),
      setDinode_of_ne hroom (Or.inl (Nat.le_refl _)), h.super]
  · rw [State.setDisk_disk, ← hd, update_self]
    rfl

end Inodes

/-! ### The files of the command line -/

/-- The entries of the root directory: inode number and name. -/
def entries (files : List HostFile) : List (Nat × List UInt8) :=
  (ROOTINO, dot) :: (ROOTINO, dotdot) :: files.mapIdx fun k f => (k + 2, f.shortname)

def rootBytes (files : List HostFile) : List UInt8 :=
  (entries files).flatMap fun e => dirent e.1 e.2

/-- The files of an image, by inode number. -/
def table (files : List HostFile) (i : Nat) : Option File :=
  if i = ROOTINO then some ⟨T_DIR, rootBytes files⟩
  else if i < 2 then none
  else files[i - 2]?.map fun f => ⟨T_FILE, f.bytes⟩

/-- How many blocks `mkfs` has handed out or reserved when it has dealt with these files. -/
def used (files : List HostFile) : Nat :=
  nmeta + blocksOf (rootBytes files).length + (files.map fun f => blocksOf f.bytes.length).sum

/-- The command lines that `mkfs` has to accept. -/
structure Acceptable (files : List HostFile) : Prop where
  opened : ∀ f ∈ files, f.pieces ≠ none
  name : ∀ f ∈ files, slash ∉ f.basename ∧ f.shortname.length ≤ DIRSIZ
  size : ∀ f ∈ files, f.bytes.length ≤ MAXFILE * BSIZE
  fit : used files ≤ FSSIZE

section Files

variable {files rest : List HostFile} {f : HostFile} {s : State} {E : Abort → Prop}

@[simp] theorem length_dirent (inum : Nat) (name : List UInt8) :
    (dirent inum name).length = DIRENTSIZE := by
  simp [dirent]

theorem entries_append (files : List HostFile) (f : HostFile) :
    entries (files ++ [f]) = entries files ++ [(files.length + 2, f.shortname)] := by
  simp [entries, List.mapIdx_append]

theorem rootBytes_append (files : List HostFile) (f : HostFile) :
    rootBytes (files ++ [f]) = rootBytes files ++ dirent (files.length + 2) f.shortname := by
  simp [rootBytes, entries_append]

theorem length_rootBytes (files : List HostFile) :
    (rootBytes files).length = DIRENTSIZE * (files.length + 2) := by
  simp only [rootBytes, List.length_flatMap, length_dirent, List.map_const', List.sum_replicate_nat,
    entries, List.length_cons, List.length_mapIdx]
  exact Nat.mul_comm _ _

theorem table_root (files : List HostFile) : table files ROOTINO = some ⟨T_DIR, rootBytes files⟩ :=
  if_pos rfl

theorem table_file {k : Nat} (hk : files[k]? = some f) :
    table files (k + 2) = some ⟨T_FILE, f.bytes⟩ := by
  rw [table, if_neg (by unfold ROOTINO; omega), if_neg (by omega), Nat.add_sub_cancel, hk]
  rfl

theorem table_next (files : List HostFile) : table files (files.length + 2) = none := by
  rw [table, if_neg (by unfold ROOTINO; omega), if_neg (by omega), Nat.add_sub_cancel,
    List.getElem?_eq_none (Nat.le_refl _)]
  rfl

theorem table_append (files : List HostFile) (f : HostFile) :
    table (files ++ [f]) =
      appendTo (appendTo (update (table files) (files.length + 2) (some ⟨T_FILE, []⟩))
        ROOTINO (dirent (files.length + 2) f.shortname)) (files.length + 2) f.bytes := by
  have hroot : ROOTINO ≠ files.length + 2 := by unfold ROOTINO; omega
  have hnew : appendTo (update (table files) (files.length + 2) (some ⟨T_FILE, []⟩))
      ROOTINO (dirent (files.length + 2) f.shortname) (files.length + 2) = some ⟨T_FILE, []⟩ := by
    rw [appendTo_ne hroot.symm, update_self]
  funext i
  by_cases hi : i = files.length + 2
  · subst hi
    rw [appendTo_self hnew, table_file (f := f) (by simp)]
    rfl
  rw [appendTo_ne hi]
  by_cases hir : i = ROOTINO
  · subst hir
    rw [appendTo_self (f := ⟨T_DIR, rootBytes files⟩) (by
      rw [update_of_ne hroot, table_root]), table_root, rootBytes_append]
  · rw [appendTo_ne hir, update_of_ne hi]
    unfold table
    rw [if_neg hir, if_neg hir]
    split
    · rfl
    · rename_i hge
      rw [List.getElem?_append]
      split
      · rfl
      · rename_i hlen
        rw [List.getElem?_eq_none (Nat.not_lt.mp hlen), List.getElem?_eq_none]
        simp only [List.length_singleton]
        omega

theorem used_append (files : List HostFile) (f : HostFile) :
    used (files ++ [f]) + blocksOf (rootBytes files).length =
      used files + blocksOf (rootBytes (files ++ [f])).length + blocksOf f.bytes.length := by
  simp only [used, List.map_append, List.map_singleton, List.sum_append_nat, List.sum_singleton]
  omega

theorem used_mono (files rest : List HostFile) : used files ≤ used (files ++ rest) := by
  have hroot : blocksOf (rootBytes files).length ≤ blocksOf (rootBytes (files ++ rest)).length := by
    rw [length_rootBytes, length_rootBytes, List.length_append]
    exact blocksOf_mono (Nat.mul_le_mul_left _ (by omega))
  simp only [used, List.map_append, List.sum_append_nat]
  omega

/-- **One file of the command line.**  A number beyond the inodes of the super block is
    handed out as well; only an empty file is followed there. -/
theorem wp_addFile (h : Filled (table files) s) (hinode : s.freeinode = files.length + 2)
    (hcount : s.freeblock = used files)
    (hroom : files.length + 2 < NINODES ∨ files.length + 2 < roomForInodes ∧ f.pieces = some []) :
    wp (addFile ROOTINO f) (fun _ => ¬ Acceptable (files ++ f :: rest)) (fun _ s' =>
      Filled (table (files ++ [f])) s' ∧ s'.freeinode = files.length + 3 ∧
      s'.freeblock = used (files ++ [f]) ∧
      (f.pieces = some [] → dinodeAt sb s'.disk (files.length + 2) = newDinode T_FILE)) s := by
  have hmem : f ∈ files ++ f :: rest := by simp
  have hused : used (files ++ [f]) ≤ used (files ++ f :: rest) := by
    have := used_mono (files ++ [f]) rest
    rwa [List.append_assoc] at this
  have hsum := used_append files f
  have hroot : ROOTINO ≠ files.length + 2 := by unfold ROOTINO; omega
  have hlt : s.freeinode < roomForInodes := by
    rw [hinode]
    exact hroom.elim lt_roomForInodes And.left
  unfold addFile
  rw [wp_bind]
  refine wp_assert (fun hslash hacc => hslash (hacc.name f hmem).1) fun _ => ?_
  cases hpieces : f.pieces with
  | none => exact fun hacc => hacc.opened f hmem hpieces
  | some pieces =>
    have hbytes : f.bytes = pieces.flatMap Subtype.val := by rw [HostFile.bytes, hpieces]; rfl
    simp only [wp_bind]
    refine wp_assert (fun hlong hacc => hlong (hacc.name f hmem).2) fun _ => ?_
    refine wp_mono (wp_ialloc h hlt (by rw [hinode]; exact table_next files) (by decide))
      fun inum s₁ ⟨hinum, hinode₁, hfree₁, h₁, hdin₁⟩ => ?_
    rw [hinum, hinode] at h₁ hdin₁ ⊢
    have hroot₁ : update (table files) (files.length + 2) (some ⟨T_FILE, []⟩) ROOTINO =
        some ⟨T_DIR, rootBytes files⟩ := by
      rw [update_of_ne hroot, table_root]
    have hlen : (rootBytes (files ++ [f])).length = (rootBytes files).length +
        (dirent (files.length + 2) f.shortname).length := by
      rw [rootBytes_append, List.length_append]
    refine wp_mono (wp_iappend h₁ (by decide) hroot₁ _ (fun hbig _ => ?_) fun hfull hacc => ?_)
      fun _ s₂ ⟨h₂, hinode₂, hfree₂, hdin₂⟩ => ?_
    · -- the root directory is far from the largest file
      have hsmall : DIRENTSIZE * (roomForInodes + 1) < MAXFILE * BSIZE := by decide
      have hlen' : DIRENTSIZE * (files.length + 2) + DIRENTSIZE ≤ DIRENTSIZE * (roomForInodes + 1) := by
        rw [← Nat.mul_succ]
        exact Nat.mul_le_mul_left _ (by omega)
      rw [length_rootBytes, length_dirent] at hbig
      omega
    · have hfit := hacc.fit
      rw [← hlen] at hfull
      dsimp only at hfull
      omega
    · dsimp only at hfree₂
      rw [← hlen] at hfree₂
      have hnew : appendTo (update (table files) (files.length + 2) (some ⟨T_FILE, []⟩))
          ROOTINO (dirent (files.length + 2) f.shortname) (files.length + 2) =
            some ⟨T_FILE, []⟩ := by
        rw [appendTo_ne hroot.symm, update_self]
      have hdin : dinodeAt sb s₂.disk (files.length + 2) = newDinode T_FILE := by
        rw [hdin₂ _ (hinode ▸ hlt) hroot.symm, hdin₁, update_self]
      by_cases hempty : pieces = []
      · subst hempty
        rw [List.flatMap_nil] at hbytes
        rw [hbytes] at hsum
        have hnone : blocksOf ([] : List UInt8).length = 0 := by decide
        rw [table_append, hbytes, appendTo_nil]
        exact ⟨h₂, by omega, by omega, fun _ => hdin⟩
      · have hnum : files.length + 2 < NINODES :=
          hroom.resolve_right fun hright => hempty (by
            rw [hpieces] at hright
            exact Option.some.inj hright.2)
        have hzero : blocksOf ([] : List UInt8).length = 0 := by decide
        refine wp_mono (wp_appendAll h₂ hnum hnew pieces (fun hbig hacc => ?_) fun hfull hacc => ?_)
          fun _ s₃ ⟨h₃, hinode₃, hfree₃⟩ => ?_
        · have := hacc.size f hmem
          rw [← hbytes] at hbig
          simp only [List.length_nil, Nat.zero_add] at hbig
          omega
        · have hfit := hacc.fit
          rw [← hbytes] at hfull
          simp only [List.length_nil, Nat.zero_add] at hfull hzero
          omega
        · rw [← hbytes] at h₃ hfree₃
          simp only [List.length_nil, Nat.zero_add] at hfree₃ hzero
          rw [table_append]
          exact ⟨h₃, by omega, by omega, fun hc => absurd (Option.some.inj hc) hempty⟩

/-- **All files of the command line**, if there are inodes for them. -/
theorem wp_addFiles (h : Filled (table files) s) (hinode : s.freeinode = files.length + 2)
    (hcount : s.freeblock = used files) (hroom : files.length + rest.length ≤ NINODES - 2) :
    wp (addFiles ROOTINO rest) (fun _ => ¬ Acceptable (files ++ rest)) (fun _ s' =>
      Filled (table (files ++ rest)) s' ∧ s'.freeinode = (files ++ rest).length + 2 ∧
      s'.freeblock = used (files ++ rest)) s := by
  induction rest generalizing files s with
  | nil =>
    rw [List.append_nil]
    exact ⟨h, hinode, hcount⟩
  | cons f rest ih =>
    rw [List.length_cons] at hroom
    have hassoc : files ++ f :: rest = files ++ [f] ++ rest := by simp
    rw [addFiles, wp_bind]
    refine wp_mono (wp_addFile h hinode hcount (Or.inl (by omega)))
      fun _ t ⟨ht, hinode', hcount', _⟩ => ?_
    rw [hassoc]
    refine ih ht (by simpa using hinode') hcount' ?_
    rw [List.length_append, List.length_singleton]
    omega

/-! ### `main` -/

/-- The blank image with its super block. -/
def blankImage : State where
  disk := update (fun _ => blank) 1 sbBlock
  nsect := FSSIZE
  freeinode := 1
  freeblock := nmeta

theorem blankImage_disk {b : Nat} (hb : b ≠ 1) : blankImage.disk b = blank := by
  show update (fun _ => blank) 1 sbBlock b = blank
  rw [update_of_ne hb]

theorem blankImage_freeblock : blankImage.freeblock = nmeta := rfl

theorem blankImage_filled : Filled (fun _ => none) blankImage := by
  have hdead : ∀ i < NINODES, (dinodeAt sb blankImage.disk i).type = 0 := by
    intro i hi
    have hne := Nat.ne_of_gt (IBLOCK_lt (lt_roomForInodes hi)).1
    rw [dinodeAt, blankImage_disk hne]
    simp [getDinode, getLE, blank]
  have hnone : ∀ p, owner sb (dinodeAt sb blankImage.disk) blankImage.disk p = none := fun p =>
    if_neg fun hc => hc.2 (hdead _ hc.1)
  refine ⟨⟨⟨rfl, ⟨?_, ?_, List.nodup_nil, by simp, by simp, ?_⟩, Nat.le_refl _, fun b hb => ?_⟩,
    fun i hi _ => hdead i hi, by simp, by simp, fun i b hb => by
      rw [hnone] at hb
      cases hb⟩, by simp, by decide, rfl⟩
  · intro p q b hp
    rw [hnone] at hp
    cases hp
  · intro p b hp
    rw [hnone] at hp
    cases hp
  · intro b hb
    simpa [hnone, blankImage_freeblock] using hb
  · have hone : 1 < nmeta := by decide
    rw [blankImage_freeblock] at hb
    exact blankImage_disk (by omega)

theorem wp_zeroed {n : Nat} (hn : n ≤ FSSIZE) :
    wp (forRange (fun i => wsect i fun _ => 0) 0 n) E
      (fun _ s => s = { start with nsect := n }) start := by
  have hF : FSSIZE < 2 ^ 22 := by decide
  refine wp_forRange (I := fun i t => t = { start with nsect := i }) n rfl
    (fun i t _ hi ht => ?_) fun t ht => by rwa [Nat.zero_add] at ht
  subst ht
  simp only [wsect, wp_modify, sector_of_lt (by omega : i < 2 ^ 22), start, State.mk.injEq,
    and_true]
  exact ⟨update_eq_self .., by omega⟩

theorem wp_blankImage {Q : Unit → State → Prop} {c : MkfsM Unit} {n : Nat} (hn : n = FSSIZE)
    (h : wp c E Q blankImage) :
    wp (do
      forRange (fun i => wsect i fun _ => 0) 0 n
      wsect 1 sbBlock
      c) E Q start := by
  simp only [wp_bind]
  refine wp_mono (wp_zeroed (Nat.le_of_eq hn)) fun _ s hs => ?_
  subst hs hn
  exact wp_wsect rfl (by decide) h

theorem table_nil : table [] = appendTo (appendTo (update (fun _ => none) ROOTINO
    (some ⟨T_DIR, []⟩)) ROOTINO (dirent ROOTINO dot)) ROOTINO (dirent ROOTINO dotdot) := by
  funext i
  by_cases hi : i = ROOTINO
  · subst hi
    rw [table_root, appendTo_appendTo, appendTo_self (f := ⟨T_DIR, []⟩) (update_self ..)]
    simp [rootBytes, entries]
  · rw [appendTo_ne hi, appendTo_ne hi, update_of_ne hi, table, if_neg hi]
    split <;> simp

theorem wp_root {Q : Unit → State → Prop} {c : Nat → MkfsM Unit}
    (h : ∀ s, Filled (table []) s → s.freeinode = 2 → s.freeblock = used [] →
      wp (c ROOTINO) E Q s) :
    wp (do
      let rootino ← ialloc T_DIR
      assert (rootino = ROOTINO)
      iappend rootino (dirent rootino dot)
      iappend rootino (dirent rootino dotdot)
      c rootino) E Q blankImage := by
  simp only [wp_bind]
  refine wp_mono (wp_ialloc blankImage_filled (by decide) rfl (by decide))
    fun inum s₁ ⟨hinum, hinode₁, hfree₁, h₁, _⟩ => ?_
  have hroot : inum = ROOTINO := hinum
  subst hroot
  have hstart : s₁.freeblock = nmeta := hfree₁
  refine wp_assert (fun hne => absurd rfl hne) fun _ => ?_
  refine wp_mono (wp_iappend h₁ (by decide) (update_self ..) (dirent ROOTINO dot)
    (fun hbig => absurd hbig (by simp; decide)) fun hfull => absurd hfull (by simp [hstart]; decide))
    fun _ s₂ ⟨h₂, hinode₂, hfree₂, _⟩ => ?_
  have hfirst := appendTo_self (F := update (fun _ => none) ROOTINO
    (some (⟨T_DIR, []⟩ : File))) (update_self ..) (dirent ROOTINO dot)
  rw [hstart] at hfree₂
  simp only [List.length_nil, Nat.zero_add, length_dirent] at hfree₂
  have hnext : s₂.freeblock = nmeta + 1 := hfree₂
  refine wp_mono (wp_iappend h₂ (by decide) hfirst (dirent ROOTINO dotdot)
    (fun hbig => absurd hbig (by simp; decide)) fun hfull => absurd hfull (by simp [hnext]; decide))
    fun _ s₃ ⟨h₃, hinode₃, hfree₃, _⟩ => ?_
  rw [hnext] at hfree₃
  simp only [List.nil_append, length_dirent] at hfree₃
  refine h s₃ (by rw [table_nil]; exact h₃) ?_ ?_
  · rw [hinode₃, hinode₂, hinode₁]
    rfl
  · have hused : used [] = nmeta + 1 := by decide
    have hone : blocksOf DIRENTSIZE = 1 := by decide
    have htwo : blocksOf (DIRENTSIZE + DIRENTSIZE) = 1 := by decide
    omega

/-- **`main`**, if there are inodes for the files. -/
theorem wp_main (hcount : files.length ≤ NINODES - 2) :
    wp (main files) (fun _ => ¬ Acceptable files) (fun _ s => Made (table files) s ∧
      s.freeinode = files.length + 2 ∧ s.freeblock = used files) start := by
  have hsmall : (rootBytes files).length < MAXFILE * BSIZE := by
    have hmax : DIRENTSIZE * NINODES < MAXFILE * BSIZE := by decide
    have hle : DIRENTSIZE * (files.length + 2) ≤ DIRENTSIZE * NINODES :=
      Nat.mul_le_mul_left _ (by have : 2 ≤ NINODES := by decide
                                omega)
    rw [length_rootBytes]
    omega
  unfold main
  -- the bound of the first loop is not to be evaluated
  generalize hn : FSSIZE = n
  refine wp_blankImage hn.symm (wp_root fun s h hinode hblock => ?_)
  simp only [wp_bind, wp_get]
  refine wp_mono (wp_addFiles h hinode hblock (by simpa using hcount)) ?_
  rintro _ t ⟨ht, hinode', hblock'⟩
  refine wp_mono (wp_finish ht (table_root files) hsmall) fun _ u hu =>
    wp_mono hu ?_
  rintro _ v ⟨hv, hinode'', hblock'', _⟩
  exact ⟨hv, hinode''.trans hinode', hblock''.trans hblock'⟩

end Files

end Xv6.Mkfs
