import Xv6.Mkfs.WellFormed
import Xv6.Fs.Scan
import Mathlib.Data.List.TakeWhile

/-!
# The image in the kernel

`mkfs` and the kernel were written independently; here they meet.  The kernel finds in the root
directory of an image the names that `mkfs` put there and no others, and reads from the files
what `mkfs` was given.
-/

namespace Xv6.Mkfs

open ByteView Hoare Fs

/-! ### The bytes of an entry -/

section Dirent

variable {inum k : Nat} {name : List UInt8}

theorem getD_dirent (hk : k < DIRENTSIZE) :
    (dirent inum name).getD k 0 = mkDirent inum (fun j => name.getD j 0) k := by
  unfold dirent
  rw [List.getD_eq_getElem _ _ (by simpa using hk), List.getElem_map, List.getElem_range]

theorem direntInum_dirent (hinum : inum < 2 ^ 16) : direntInum (dirent inum name) = inum := by
  unfold direntInum
  rw [getLE_congr (g := mkDirent inum fun j => name.getD j 0) fun i _ hi =>
    getD_dirent (Nat.lt_trans hi (by decide))]
  exact getLE_putLE_of_lt _ hinum

theorem strncpy_getD (hname : 0 ∉ name) : strncpy (fun j => name.getD j 0) k = name.getD k 0 := by
  unfold strncpy
  split
  · rfl
  · rename_i hnot
    rw [List.getD_eq_default]
    by_contra hlt
    refine hnot (List.all_eq_true.mpr fun j hj => decide_eq_true ?_)
    have := List.mem_range.mp hj
    exact getD_ne_zero hname (by omega)

theorem direntName_dirent (hname : 0 ∉ name) (hk : k < DIRSIZ) :
    direntName (dirent inum name) k = name.getD k 0 := by
  unfold direntName
  rw [getD_dirent (by rw [show DIRENTSIZE = 2 + DIRSIZ from rfl]; omega), mkDirent,
    putLE_outside _ _ _ _ _ (by omega), ← strncpy_getD hname]
  congr 1
  omega

theorem getD_flatMap {α : Type} {f : α → List UInt8} {c j : Nat} (hlen : ∀ a, (f a).length = c)
    (hj : j < c) (l : List α) (k : Nat) :
    (l.flatMap f).getD (k * c + j) 0 = (l[k]?.map fun a => (f a).getD j 0).getD 0 := by
  induction l generalizing k with
  | nil => simp
  | cons a l ih =>
    rw [List.flatMap_cons]
    cases k with
    | zero =>
      rw [Nat.zero_mul, Nat.zero_add, List.getD_append _ _ _ _ (by rw [hlen]; exact hj)]
      rfl
    | succ k =>
      have hge : c ≤ (k + 1) * c + j := by
        rw [Nat.add_mul]
        omega
      rw [List.getD_append_right _ _ _ _ (by rw [hlen]; exact hge), hlen,
        show (k + 1) * c + j - c = k * c + j by rw [Nat.add_mul]; omega, ih]
      rfl

end Dirent

/-! ### The root directory -/

section Root

variable {files : List HostFile} {s : State} {k : Nat}

theorem Made.direntAt_root (h : Made (table files) s)
    (hblock : (dinodeAt sb s.disk ROOTINO).fileBlock s.disk (k * DIRENTSIZE / BSIZE) ≠ 0) :
    direntAt (dinodeAt sb s.disk ROOTINO) s.disk k = (List.range DIRENTSIZE).map fun j =>
      ((entries files)[k]?.map fun e => (dirent e.1 e.2).getD j 0).getD 0 := by
  have hbyte := (h.file ROOTINO (by decide) _ (table_root files)).byte
  refine List.map_congr_left fun j hj => ?_
  have hj' := List.mem_range.mp hj
  rw [hbyte _ (by rwa [dirent_block hj'])]
  exact getD_flatMap (fun _ => length_dirent _ _) hj' _ _

theorem Made.direntAt_entry (h : Made (table files) s)
    (hblock : (dinodeAt sb s.disk ROOTINO).fileBlock s.disk (k * DIRENTSIZE / BSIZE) ≠ 0)
    {e : Nat × List UInt8} (he : (entries files)[k]? = some e) :
    direntAt (dinodeAt sb s.disk ROOTINO) s.disk k = dirent e.1 e.2 := by
  rw [h.direntAt_root hblock, he]
  refine List.map_congr_left fun j hj => ?_
  exact getD_dirent (List.mem_range.mp hj)

theorem Made.direntInum_free (h : Made (table files) s)
    (hblock : (dinodeAt sb s.disk ROOTINO).fileBlock s.disk (k * DIRENTSIZE / BSIZE) ≠ 0)
    (hk : (entries files)[k]? = none) :
    direntInum (direntAt (dinodeAt sb s.disk ROOTINO) s.disk k) = 0 := by
  rw [h.direntAt_root hblock, hk]
  exact direntInum_zero fun _ _ => rfl

theorem length_entries (files : List HostFile) : (entries files).length = files.length + 2 := by
  simp [entries]

/-- The blocks of the root directory: its entries fill `rootEnd` of them, and it has one more. -/
def rootEnd (files : List HostFile) : Nat := DIRENTSIZE * (files.length + 2) / BSIZE

theorem Made.root (h : Made (table files) s) (hcount : files.length ≤ NINODES - 2) :
    (dinodeAt sb s.disk ROOTINO).type = T_DIR ∧ (dinodeAt sb s.disk ROOTINO).nlink = 1 ∧
    (dinodeAt sb s.disk ROOTINO).size.toNat = (rootEnd files + 1) * BSIZE ∧
    rootEnd files < NDIRECT ∧
    ∀ k < files.length + 2,
      (dinodeAt sb s.disk ROOTINO).fileBlock s.disk (k * DIRENTSIZE / BSIZE) ≠ 0 := by
  obtain ⟨-, htype, hnlink⟩ := h.live ROOTINO (by decide) _ (table_root files)
  have hsize := h.rootSize _ (table_root files)
  rw [length_rootBytes] at hsize
  refine ⟨htype, hnlink, hsize, ?_, fun k hk => ?_⟩
  · have hN : NINODES = 200 := rfl
    unfold rootEnd
    rw [show DIRENTSIZE = 16 from rfl, show BSIZE = 1024 from rfl, show NDIRECT = 12 from rfl]
    omega
  · refine ((h.file ROOTINO (by decide) _ (table_root files)).block _).mpr ?_
    dsimp only
    rw [length_rootBytes, show DIRENTSIZE = 16 from rfl, show BSIZE = 1024 from rfl]
    omega

theorem Made.root_block (h : Made (table files) s) {b : Nat} (hb : b < rootEnd files) :
    (dinodeAt sb s.disk ROOTINO).fileBlock s.disk b ≠ 0 := by
  refine ((h.file ROOTINO (by decide) _ (table_root files)).block _).mpr ?_
  dsimp only
  rw [length_rootBytes]
  unfold rootEnd at hb
  rw [show DIRENTSIZE = 16 from rfl, show BSIZE = 1024 from rfl] at *
  omega

end Root

/-! ### Names -/

/-- The lists of input files that `mkfs` has to encode. -/
structure Encodable (files : List HostFile) : Prop where
  count : files.length ≤ NINODES - 2
  opened : ∀ f ∈ files, f.pieces ≠ none
  nonempty : ∀ f ∈ files, f.shortname ≠ []
  noSlash : ∀ f ∈ files, slash ∉ f.shortname
  short : ∀ f ∈ files, f.shortname.length ≤ DIRSIZ
  special : ∀ f ∈ files, f.shortname ≠ dot ∧ f.shortname ≠ dotdot
  distinct : (files.map HostFile.shortname).Nodup
  size : ∀ f ∈ files, f.bytes.length ≤ MAXFILE * BSIZE
  fit : used files ≤ FSSIZE

section Names

variable {files : List HostFile} {f : HostFile}

theorem HostFile.shortname_noNul (f : HostFile) : 0 ∉ f.shortname := by
  have hbase : ∀ c ∈ f.basename, c ∈ f.name := fun c hc => by
    unfold HostFile.basename at hc
    split at hc
    · exact List.mem_of_mem_drop hc
    · exact hc
  intro hzero
  refine f.nul (hbase 0 ?_)
  unfold HostFile.shortname at hzero
  split at hzero
  · exact List.mem_of_mem_tail hzero
  · exact hzero

theorem HostFile.slash_notMem (h : slash ∉ f.shortname) : slash ∉ f.basename := by
  unfold HostFile.shortname at h
  split at h
  · rename_i hhead
    cases hbase : f.basename with
    | nil => simp
    | cons c rest =>
      rw [hbase] at hhead h
      obtain rfl : c = underscore := by simpa using hhead
      simp only [List.mem_cons, not_or]
      exact ⟨by decide, h⟩
  · exact h

theorem Encodable.acceptable (h : Encodable files) : Acceptable files :=
  ⟨h.opened, fun f hf => ⟨HostFile.slash_notMem (h.noSlash f hf), h.short f hf⟩, h.size, h.fit⟩

theorem entries_get_file {k : Nat} (hk : files[k]? = some f) :
    (entries files)[k + 2]? = some (k + 2, f.shortname) := by
  simp [entries, List.getElem?_mapIdx, hk]

theorem entries_cases {k : Nat} {e : Nat × List UInt8} (he : (entries files)[k]? = some e) :
    (k = 0 ∧ e = (ROOTINO, dot)) ∨ (k = 1 ∧ e = (ROOTINO, dotdot)) ∨
      ∃ j f, k = j + 2 ∧ files[j]? = some f ∧ e = (j + 2, f.shortname) := by
  match k with
  | 0 => exact Or.inl ⟨rfl, (Option.some.inj he).symm⟩
  | 1 => exact Or.inr (Or.inl ⟨rfl, (Option.some.inj he).symm⟩)
  | j + 2 =>
    have he' : (files.mapIdx fun k f => (k + 2, f.shortname))[j]? = some e := he
    rw [List.getElem?_mapIdx] at he'
    obtain ⟨f, hf, rfl⟩ := Option.map_eq_some_iff.mp he'
    exact Or.inr (Or.inr ⟨j, f, rfl, hf, rfl⟩)

theorem Encodable.entry (h : Encodable files) {k : Nat} {e : Nat × List UInt8}
    (he : (entries files)[k]? = some e) :
    0 ∉ e.2 ∧ e.2.length ≤ DIRSIZ ∧ 0 < e.1 ∧ e.1 < NINODES := by
  have hN : NINODES = 200 := rfl
  rcases entries_cases he with ⟨-, rfl⟩ | ⟨-, rfl⟩ | ⟨j, f, -, hf, rfl⟩
  · exact ⟨by decide, by decide, by decide, by decide⟩
  · exact ⟨by decide, by decide, by decide, by decide⟩
  · have hj := (List.getElem?_eq_some_iff.mp hf).1
    have hcount := h.count
    exact ⟨f.shortname_noNul, h.short f (List.mem_of_getElem? hf), by omega, by dsimp only; omega⟩

theorem Encodable.name_inj (h : Encodable files) {k l : Nat} {e e' : Nat × List UInt8}
    (he : (entries files)[k]? = some e) (he' : (entries files)[l]? = some e') (heq : e.2 = e'.2) :
    k = l := by
  have hdot : dot ≠ dotdot := by decide
  rcases entries_cases he with ⟨rfl, rfl⟩ | ⟨rfl, rfl⟩ | ⟨j, f, rfl, hf, rfl⟩ <;>
    rcases entries_cases he' with ⟨rfl, rfl⟩ | ⟨rfl, rfl⟩ | ⟨j', f', rfl, hf', rfl⟩
  · rfl
  · exact absurd heq hdot
  · exact absurd heq.symm (h.special f' (List.mem_of_getElem? hf')).1
  · exact absurd heq.symm hdot
  · rfl
  · exact absurd heq.symm (h.special f' (List.mem_of_getElem? hf')).2
  · exact absurd heq (h.special f (List.mem_of_getElem? hf)).1
  · exact absurd heq (h.special f (List.mem_of_getElem? hf)).2
  · have hget : (files.map HostFile.shortname)[j]? = (files.map HostFile.shortname)[j']? := by
      rw [List.getElem?_map, List.getElem?_map, hf, hf']
      exact congrArg some heq
    have hj : j < (files.map HostFile.shortname).length := by
      rw [List.length_map]
      exact (List.getElem?_eq_some_iff.mp hf).1
    rw [(List.getElem?_inj hj h.distinct).mp hget]

theorem nameEq_entry {name : List UInt8} {e : Nat × List UInt8} (hnul : 0 ∉ name)
    (hlen : name.length ≤ DIRSIZ) (he : 0 ∉ e.2) (hle : e.2.length ≤ DIRSIZ) :
    nameEq (elemName name) (direntName (dirent e.1 e.2)) = true ↔ name = e.2 :=
  nameEq_iff hnul he hlen hle (fun _ hk => if_pos hk) fun _ hk => direntName_dirent he hk

theorem Made.not_found {s : State} {name : List UInt8} {j : Nat} (h : Made (table files) s)
    (henc : Encodable files) (hnul : 0 ∉ name) (hlen : name.length ≤ DIRSIZ)
    (habsent : ∀ e ∈ entries files, name ≠ e.2)
    (hblock : (dinodeAt sb s.disk ROOTINO).fileBlock s.disk (j * DIRENTSIZE / BSIZE) ≠ 0) :
    direntInum (direntAt (dinodeAt sb s.disk ROOTINO) s.disk j) = 0 ∨ nameEq (elemName name)
      (direntName (direntAt (dinodeAt sb s.disk ROOTINO) s.disk j)) = false := by
  cases he : (entries files)[j]? with
  | none => exact Or.inl (h.direntInum_free hblock he)
  | some e =>
    refine Or.inr ?_
    rw [h.direntAt_entry hblock he, Bool.eq_false_iff, Ne,
      nameEq_entry hnul hlen (henc.entry he).1 (henc.entry he).2.1]
    exact habsent e (List.mem_of_getElem? he)

theorem skipelem_rooted {name : List UInt8} (hne : name ≠ []) (hslash : slash ∉ name) :
    skipelem (slash :: name) = some (elemName name, []) := by
  obtain ⟨c, rest, rfl⟩ := List.exists_cons_of_ne_nil hne
  have hc : c ≠ slash := fun hc => hslash (hc ▸ List.mem_cons_self)
  have hall : ∀ x ∈ c :: rest, (x != slash) = true := fun x hx => by
    simp only [bne_iff_ne]
    exact fun hx' => hslash (hx' ▸ hx)
  have hdrop : (slash :: c :: rest).dropWhile (· == slash) = c :: rest := by
    simp [hc]
  have htake : (c :: rest).takeWhile (· != slash) = c :: rest := List.takeWhile_eq_self_iff.mpr hall
  have hrest : (c :: rest).dropWhile (· != slash) = [] := List.dropWhile_eq_nil_iff.mpr hall
  unfold skipelem
  rw [hdrop]
  dsimp only
  rw [htake, hrest]
  rfl

end Names

/-! ### Links -/

section Links

variable {files : List HostFile} {s : State} {i k : Nat}

theorem Made.linked_entry (h : Made (table files) s) (hcount : files.length ≤ NINODES - 2)
    {e : Nat × List UInt8} (he : (entries files)[k]? = some e) : Linked sb s.disk e.1 := by
  have hN : NINODES = 200 := rfl
  obtain ⟨f, hlt, hf⟩ : ∃ f, e.1 < NINODES ∧ table files e.1 = some f := by
    rcases entries_cases he with ⟨-, rfl⟩ | ⟨-, rfl⟩ | ⟨j, f, -, hf, rfl⟩
    · exact ⟨_, by decide, table_root files⟩
    · exact ⟨_, by decide, table_root files⟩
    · have hj := (List.getElem?_eq_some_iff.mp hf).1
      exact ⟨_, by omega, table_file hf⟩
  obtain ⟨hne, htype, hnlink⟩ := h.live _ hlt f hf
  exact ⟨hlt, by rw [htype]; exact hne, by rw [hnlink]; decide⟩

theorem Made.directory (h : Made (table files) s) (hi : i < NINODES)
    (hdir : (dinodeAt sb s.disk i).type = T_DIR) : i = ROOTINO := by
  by_contra hroot
  cases hf : table files i with
  | none =>
    rw [h.dead i hi hf] at hdir
    exact absurd hdir (by decide)
  | some f =>
    have htype : f.type = T_FILE := by
      unfold table at hf
      rw [if_neg hroot] at hf
      split at hf
      · cases hf
      · obtain ⟨g, -, rfl⟩ := Option.map_eq_some_iff.mp hf
        rfl
    rw [(h.live i hi f hf).2.1, htype] at hdir
    exact absurd hdir (by decide)

theorem Made.linked_dirent (h : Made (table files) s) (hcount : files.length ≤ NINODES - 2)
    (hmod : (files.length + 2) % (BSIZE / DIRENTSIZE) ≠ 0)
    (hk : k < direntCount (dinodeAt sb s.disk ROOTINO).size) :
    direntInum (direntAt (dinodeAt sb s.disk ROOTINO) s.disk k) = 0 ∨
      Linked sb s.disk (direntInum (direntAt (dinodeAt sb s.disk ROOTINO) s.disk k)) := by
  have hblock : (dinodeAt sb s.disk ROOTINO).fileBlock s.disk (k * DIRENTSIZE / BSIZE) ≠ 0 :=
    h.root_dense_iff.mpr hmod _
      (Nat.lt_of_le_of_lt (Nat.div_mul_le_self _ _) (direntCount_lt hk))
  cases he : (entries files)[k]? with
  | none => exact Or.inl (h.direntInum_free hblock he)
  | some e =>
    have hlink := h.linked_entry hcount he
    have hlt : e.1 < 2 ^ 16 := Nat.lt_trans hlink.lt (by decide)
    rw [h.direntAt_entry hblock he, direntInum_dirent hlt]
    exact Or.inr hlink

end Links

/-! ### Paths -/

/-- A state of the kernel with the disk `d` in which no call is in progress, and in which a call
    finds the two entries of `itable` that it needs. -/
structure Mounted (d : Disk) (t : Fs.State) : Prop where
  disk : t.disk = d
  cached : Cached sb t
  room : Room t
  lock : ∀ j, (t.inode j).lock = false

section Paths

variable {files : List HostFile} {s : State} {t : Fs.State} {name : List UInt8} {E : Stop → Prop}
  {cwd : Option Nat}

/-- The root directory is locked, and has been read. -/
structure AtRoot (d : Disk) (t : Fs.State) (ip : Nat) (u : Fs.State) : Prop where
  disk : u.disk = d
  cached : Cached sb u
  lt : ip < NINODE
  ref : ∀ j, (u.inode j).ref = (t.inode j).ref + oneRef ip j
  lock : ∀ j, (u.inode j).lock = decide (j = ip)
  copy : (u.inode ip).copy = dinodeAt sb d ROOTINO
  rest : u.log = t.log ∧ u.outOfBlocks = t.outOfBlocks ∧ u.ballocs = t.ballocs

theorem Mounted.wp_root (h : Made (table files) s) (hcount : files.length ≤ NINODES - 2)
    (ht : Mounted s.disk t) {Q : Unit → Nat → Fs.State → Prop}
    (hQ : ∀ ip u, AtRoot s.disk t ip u → Q () ip u) :
    wp (iget ROOTINO) E (fun ip t' => wp (ilock sb ip) E (fun r u => Q r ip u) t') t := by
  obtain ⟨htype, -⟩ := h.root hcount
  refine wp_mono (wp_iget ROOTINO fun hfull => ?_) fun ip t₁ hgot => ?_
  · obtain ⟨i, hi, -, -, -, hzero, -⟩ := ht.room
    exact absurd (hfull i hi) (by omega)
  have hlock₁ : (t₁.inode ip).lock = false := (hgot.lock ip).trans (ht.lock ip)
  have hdin : dinodeAt sb t₁.disk (t₁.inode ip).inum = dinodeAt sb s.disk ROOTINO := by
    rw [hgot.disk, ht.disk, hgot.inum_eq]
  refine wp_mono (wp_ilock_eq (hgot.cached ht.cached) hgot.1 hgot.ref_pos (by
    rw [hdin, htype]
    decide) fun hl => absurd (hlock₁.symm.trans hl) nofun) fun _ u ⟨_, hu⟩ => hQ ip u ?_
  subst hu
  refine ⟨hgot.disk.trans ht.disk, (hgot.cached ht.cached).keepInum hgot.1 hgot.ref_pos _ rfl
    fun _ _ => ⟨?_, ?_, rfl⟩, hgot.1, fun j => ?_, fun j => ?_, ?_, hgot.rest⟩
  · rw [hgot.inum_eq]
    decide
  · rw [hdin, htype]
    decide
  · by_cases hj : j = ip
    · rw [hj, State.setInode_self, oneRef_self]
      exact hgot.ref_self
    · rw [State.setInode_ne _ _ hj, oneRef_of_ne hj]
      exact hgot.ref_of_ne hj
  · by_cases hj : j = ip
    · rw [hj, State.setInode_self, decide_eq_true rfl]
    · rw [State.setInode_ne _ _ hj, decide_eq_false hj, hgot.lock, ht.lock]
  · rw [State.setInode_self]
    exact hdin

theorem Mounted.wp_namei (h : Made (table files) s) (hcount : files.length ≤ NINODES - 2)
    (ht : Mounted s.disk t) (hne : name ≠ []) (hslash : slash ∉ name)
    {Q : Option Nat → Fs.State → Prop}
    (hQ : ∀ ip u, AtRoot s.disk t ip u → wp (dirlookup sb ip (elemName name)) E
      (fun r v => wp (iunlockput sb ip) E (fun _ => Q (r.map Prod.fst)) v) u) :
    wp (namei sb cwd (slash :: name)) E Q t := by
  obtain ⟨htype, hnlink, -⟩ := h.root hcount
  simp only [namei, namex, wp_bind]
  rw [if_pos (show (slash :: name).head? = some slash from rfl), wp_bind]
  simp only [List.length_cons]
  have hnext : ∀ ip, namexFrom sb false (name.length + 1 + 1) ip (slash :: name) (fun _ => 0) = _ :=
    fun ip => by rw [namexFrom, skipelem_rooted hne hslash]
  refine wp_mono (Mounted.wp_root h hcount ht (Q := fun _ ip u => AtRoot s.disk t ip u)
    fun _ _ hu => hu) fun ip t₁ hlocked => ?_
  rw [hnext]
  dsimp only
  rw [wp_bind]
  refine wp_mono hlocked fun _ u hu => ?_
  simp only [wp_bind, wp_get]
  rw [hu.copy, if_neg (not_not.mpr htype), if_neg (by rw [hnlink]; decide), if_neg (by simp), wp_bind]
  refine wp_mono (hQ ip u hu) fun r v hv => ?_
  cases r with
  | none =>
    rw [wp_bind]
    exact wp_mono hv fun _ w hw => hw
  | some next =>
    rw [wp_bind]
    exact wp_mono hv fun _ w hw => hw

/-- The entry of `itable` for an inode that `namei` has returned. -/
structure Returned (d : Disk) (inum ip : Nat) (t : Fs.State) : Prop where
  disk : t.disk = d
  cached : Cached sb t
  lt : ip < NINODE
  ref : 0 < (t.inode ip).ref
  inum : (t.inode ip).inum = inum
  lock : (t.inode ip).lock = false

/-- **A name in the root directory is found.** -/
theorem Mounted.wp_namei_entry (h : Made (table files) s) (henc : Encodable files)
    (ht : Mounted s.disk t) {k : Nat} {e : Nat × List UInt8} (he : (entries files)[k]? = some e)
    (hne : e.2 ≠ []) (hslash : slash ∉ e.2) :
    wp (namei sb cwd (slash :: e.2)) E (fun r t' => ∃ ip, r = some ip ∧
      Returned s.disk e.1 ip t') t := by
  have hcount := henc.count
  obtain ⟨htype, hnlink, hsize, -, hblock⟩ := h.root hcount
  have hN : NINODES = 200 := rfl
  have hk : k < files.length + 2 := by
    rw [← length_entries]
    exact (List.getElem?_eq_some_iff.mp he).1
  have hsome : ∀ j ≤ k, ∃ e', (entries files)[j]? = some e' := fun j hj =>
    ⟨_, List.getElem?_eq_getElem (by rw [length_entries]; omega)⟩
  have hinum : ∀ {j e'}, (entries files)[j]? = some e' → j ≤ k →
      direntInum (direntAt (dinodeAt sb s.disk ROOTINO) s.disk j) = e'.1 := fun {j e'} he' hj => by
    rw [h.direntAt_entry (hblock j (by omega)) he']
    exact direntInum_dirent (Nat.lt_trans (henc.entry he').2.2.2 (by decide))
  obtain ⟨hnul, hlen, hpos, -⟩ := henc.entry he
  refine Mounted.wp_namei h hcount ht hne hslash fun dp u hu => ?_
  have hcopy := hu.copy
  refine wp_mono (wp_dirlookup_found (k := k) (E := E) (by rw [hcopy, htype]) ?_ ?_ ?_ ?_ ?_ ?_ ?_)
    fun r v ⟨ip, hr, hgot⟩ => ?_
  · rw [hcopy, hsize, show DIRENTSIZE = 16 from rfl, show BSIZE = 1024 from rfl]
    omega
  · unfold direntCount
    rw [hcopy, hsize]
    unfold rootEnd
    rw [show DIRENTSIZE = 16 from rfl, show BSIZE = 1024 from rfl]
    omega
  · rw [hcopy, hu.disk]
    exact fun j hj => hblock j (by omega)
  · rw [hcopy, hu.disk]
    intro j hj
    obtain ⟨e', he'⟩ := hsome j (by omega)
    refine Or.inr ?_
    rw [h.direntAt_entry (hblock j (by omega)) he', Bool.eq_false_iff, Ne,
      nameEq_entry hnul hlen (henc.entry he').1 (henc.entry he').2.1]
    exact fun heq => absurd (henc.name_inj he he' heq) (by omega)
  · rw [hcopy, hu.disk, hinum he (Nat.le_refl k)]
    exact Nat.ne_of_gt hpos
  · rw [hcopy, hu.disk, h.direntAt_entry (hblock k hk) he, nameEq_entry hnul hlen hnul hlen]
  · -- one of two free entries is left
    intro hfull
    obtain ⟨i, hi, j, hj, hij, hzi, hzj⟩ := ht.room
    have hri := hfull i hi
    have hrj := hfull j hj
    rw [hu.ref] at hri hrj
    have hi' : i = dp := by
      by_contra hne
      rw [oneRef_of_ne hne] at hri
      omega
    have hj' : j = dp := by
      by_contra hne
      rw [oneRef_of_ne hne] at hrj
      omega
    exact absurd (hi'.trans hj'.symm) hij
  subst hr
  rw [hcopy, hu.disk, hinum he (Nat.le_refl k)] at hgot
  have hpos' : 0 < (u.inode dp).ref := by
    rw [hu.ref, oneRef_self]
    omega
  have href : 0 < (v.inode dp).ref := by
    by_cases hd : dp = ip
    · rw [hd]
      exact hgot.ref_pos
    · rw [hgot.ref_of_ne hd]
      exact hpos'
  refine wp_mono (wp_iunlockput_eq href (by rw [hgot.lock, hu.lock, decide_eq_true rfl]) ?_)
    fun _ w hw => ⟨ip, rfl, ?_⟩
  · rintro ⟨-, -, hzero⟩
    rw [hgot.copy, hcopy, hnlink] at hzero
    exact absurd hzero (by decide)
  subst hw
  have hcached : Cached sb v := hgot.cached hu.cached
  refine ⟨hgot.disk.trans hu.disk, hcached.keepInum hu.lt href _ rfl fun _ hv =>
    hcached.entry ⟨hu.lt, href, hv⟩, hgot.1, ?_, ?_, ?_⟩
  · by_cases hd : ip = dp
    · subst hd
      simp only [unlockedPut, State.setInode_self]
      rw [hgot.ref_self]
      omega
    · rw [unlockedPut, State.setInode_ne _ _ hd]
      exact hgot.ref_pos
  · by_cases hd : ip = dp
    · subst hd
      simp only [unlockedPut, State.setInode_self]
      exact hgot.inum_eq
    · rw [unlockedPut, State.setInode_ne _ _ hd]
      exact hgot.inum_eq
  · by_cases hd : ip = dp
    · subst hd
      simp only [unlockedPut, State.setInode_self]
    · rw [unlockedPut, State.setInode_ne _ _ hd, hgot.lock, hu.lock, decide_eq_false hd]

/-- **Another name is not found.** -/
theorem Mounted.wp_namei_absent (h : Made (table files) s) (henc : Encodable files)
    (ht : Mounted s.disk t) (hne : name ≠ []) (hslash : slash ∉ name) (hnul : 0 ∉ name)
    (hlen : name.length ≤ DIRSIZ)
    (habsent : ∀ e ∈ entries files, name ≠ e.2) :
    wp (namei sb cwd (slash :: name)) Any (fun r _ => r = none) t := by
  have hcount := henc.count
  obtain ⟨-, -, hsize, hend, -⟩ := h.root hcount
  refine Mounted.wp_namei h hcount ht hne hslash fun dp u hu => ?_
  have hcopy := hu.copy
  refine wp_mono (wp_dirlookup_absent (by decide) hend
    (by rw [hcopy]; exact hsize) ?_ ?_) fun r v hr => ?_
  · rw [hcopy, hu.disk]
    exact fun b hb => h.root_block hb
  · rw [hcopy, hu.disk]
    exact fun j _ hblock => h.not_found henc hnul hlen habsent hblock
  · rw [hr]
    exact wp_mono (wp_any fun _ => trivial) fun _ _ _ => rfl

theorem Made.wp_readi_file (h : Made (table files) s) {k ip : Nat} {f : HostFile}
    (hi : k + 2 < NINODES) (hk : files[k]? = some f)
    (hcopy : (t.inode ip).copy = dinodeAt sb s.disk (k + 2)) (hdisk : t.disk = s.disk) :
    wp (readi sb ip (fun _ => false) 0 (t.inode ip).copy.size) E
      (fun r t' => t' = t ∧ r = ((f.bytes.length : Int), f.bytes)) t := by
  have hsize : (dinodeAt sb s.disk (k + 2)).size.toNat = f.bytes.length :=
    h.size (k + 2) hi (by unfold ROOTINO; omega) _ (table_file hk)
  have hstores : Stores (dinodeAt sb s.disk (k + 2)) s.disk f.bytes :=
    h.file (k + 2) hi _ (table_file hk)
  have hdense : (t.inode ip).copy.Dense t.disk := by
    rw [hcopy, hdisk]
    exact h.dense hi (table_file hk) fun bn hbn => by rwa [hsize] at hbn
  have hlen : readLen (t.inode ip).copy.size 0 (t.inode ip).copy.size = f.bytes.length := by
    rw [readLen, if_neg (by simp), hcopy, hsize]
    simp
  refine wp_mono (wp_readi _ _ _ hdense) ?_
  rintro r t' ⟨ht', hread⟩
  refine ⟨ht', ?_⟩
  obtain ⟨hn, hdata⟩ := hread fun _ => rfl
  rw [hlen] at hn hdata
  refine Prod.ext hn (hdata.trans (List.ext_getElem (by simp) fun j hj hj' => ?_))
  rw [List.getElem_map, List.getElem_range, hcopy, hdisk, ← List.getD_eq_getElem _ 0 hj']
  have hblock : (dinodeAt sb s.disk (k + 2)).fileBlock s.disk (j / BSIZE) ≠ 0 :=
    (hstores.block _).mpr (Nat.lt_of_le_of_lt (Nat.div_mul_le_self j BSIZE) hj')
  simpa using hstores.byte j hblock

/-- **The kernel decodes what `mkfs` encodes.**  On the image of a list of files, however they are
    read from the host, `namei` finds each file under its short name, `readi` delivers its bytes,
    and no other name is found but for the two of the root directory itself. -/
theorem kernel_decodes_image (henc : Encodable files) : ∃ s, mkfs files = .ok s ∧
    ∀ (t : Fs.State) (cwd : Option Nat), Mounted s.disk t →
      (∀ f ∈ files, ∃ ip t₁ t₂, namei sb cwd (slash :: f.shortname) t = .ok (some ip, t₁) ∧
        ilock sb ip t₁ = .ok ((), t₂) ∧ (t₂.inode ip).copy.type = T_FILE ∧
        (t₂.inode ip).copy.nlink = 1 ∧ (t₂.inode ip).copy.size.toNat = f.bytes.length ∧
        readi sb ip (fun _ => false) 0 (t₂.inode ip).copy.size t₂ =
          .ok ((f.bytes.length, f.bytes), t₂)) ∧
      ∀ name, name ≠ [] → slash ∉ name → 0 ∉ name → name.length ≤ DIRSIZ → name ≠ dot →
        name ≠ dotdot → (∀ f ∈ files, name ≠ f.shortname) →
        ∀ r t', namei sb cwd (slash :: name) t = .ok (r, t') → r = none := by
  obtain ⟨s, hs, h, -⟩ := mkfs_ok (wp_main henc.count) fun _ hnot => hnot henc.acceptable
  refine ⟨s, hs, fun t cwd ht => ⟨fun f hf => ?_, fun name hne hslash hnul hlen hdot hdotdot hnone
    r t' hrun => ?_⟩⟩
  · obtain ⟨k, hk⟩ := List.mem_iff_getElem?.mp hf
    have hi : k + 2 < NINODES := (henc.entry (entries_get_file hk)).2.2.2
    have hfound : wp (namei sb cwd (slash :: f.shortname)) (fun _ => False) _ t :=
      Mounted.wp_namei_entry h henc ht (entries_get_file hk) (henc.nonempty f hf)
        (henc.noSlash f hf)
    obtain ⟨r, t₁, hnamei, ip, rfl, hret⟩ := wp_total hfound
    have hdin : dinodeAt sb t₁.disk (t₁.inode ip).inum = dinodeAt sb s.disk (k + 2) := by
      rw [hret.disk, hret.inum]
    obtain ⟨-, htype, hnlink⟩ := h.live (k + 2) hi _ (table_file hk)
    have hne : (dinodeAt sb t₁.disk (t₁.inode ip).inum).type ≠ 0 := by
      rw [hdin, htype]
      exact (by decide : T_FILE ≠ 0)
    obtain ⟨_, t₂, hilock, -, ht₂⟩ := wp_total (wp_ilock_eq (E := fun _ => False) hret.cached
      hret.lt hret.ref hne fun hl => absurd (hret.lock.symm.trans hl) nofun)
    have hcopy : (t₂.inode ip).copy = dinodeAt sb s.disk (k + 2) := by
      rw [ht₂, State.setInode_self]
      exact hdin
    have hdisk : t₂.disk = s.disk := by
      rw [ht₂]
      exact hret.disk
    have hsize := h.size (k + 2) hi (by unfold ROOTINO; omega) _ (table_file hk)
    obtain ⟨r, t₃, hread, rfl, rfl⟩ := wp_total (h.wp_readi_file (E := fun _ => False) hi hk hcopy
      hdisk)
    exact ⟨ip, t₁, _, hnamei, hilock, by rw [hcopy, htype], by rw [hcopy, hnlink],
      by rw [hcopy, hsize], hread⟩
  · refine wp_ok (Mounted.wp_namei_absent h henc ht hne hslash hnul hlen fun e hmem => ?_) hrun
    obtain ⟨k, he⟩ := List.mem_iff_getElem?.mp hmem
    rcases entries_cases he with ⟨-, rfl⟩ | ⟨-, rfl⟩ | ⟨j, f, -, hf, rfl⟩
    · exact hdot
    · exact hdotdot
    · exact hnone f (List.mem_of_getElem? hf)

/-- The program `user/_init`, read in two pieces. -/
def initProgram : HostFile where
  name := [117, 115, 101, 114, 47, 95, 105, 110, 105, 116]
  nul := by decide
  pieces := some [⟨[127, 69], by decide⟩, ⟨[76, 70], by decide⟩]

theorem initProgram_encodable : Encodable [initProgram] := by
  have hshort : initProgram.shortname = [105, 110, 105, 116] := by decide
  refine ⟨by decide, ?_, ?_, ?_, ?_, ?_, by simp, ?_, by decide⟩ <;> intro f hf <;>
    obtain rfl := List.mem_singleton.mp hf
  · exact nofun
  · rw [hshort]
    exact nofun
  · rw [hshort]
    decide
  · rw [hshort]
    decide
  · rw [hshort]
    decide
  · decide

theorem boot_mounted (d : Disk) : Mounted d { Fs.boot with disk := d } :=
  ⟨rfl, ⟨fun _ _ _ _ hi => absurd hi (by simp [Fs.boot]),
    fun _ h => absurd h.ref (by simp [Fs.boot]), fun _ h => absurd h.ref (by simp [Fs.boot]),
    fun _ h => absurd h.ref (by simp [Fs.boot])⟩, ⟨0, by decide, 1, by decide, by decide, rfl, rfl⟩, fun _ => rfl⟩

theorem kernel_decodes_image_init : ∃ s, mkfs [initProgram] = .ok s ∧ ∃ ip t₁ t₂,
    namei sb none (slash :: initProgram.shortname) { Fs.boot with disk := s.disk } =
      .ok (some ip, t₁) ∧ ilock sb ip t₁ = .ok ((), t₂) ∧
    readi sb ip (fun _ => false) 0 (t₂.inode ip).copy.size t₂ =
      .ok ((4, [127, 69, 76, 70]), t₂) := by
  obtain ⟨s, hs, h⟩ := kernel_decodes_image initProgram_encodable
  obtain ⟨ip, t₁, t₂, hnamei, hilock, -, -, -, hread⟩ :=
    (h _ none (boot_mounted s.disk)).1 initProgram List.mem_cons_self
  exact ⟨s, hs, ip, t₁, t₂, hnamei, hilock, hread⟩

end Paths

end Xv6.Mkfs
