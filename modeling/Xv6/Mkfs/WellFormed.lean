import Xv6.Mkfs.Image
import Xv6.Fs.System

/-!
# What `mkfs` leaves

The image of at most `NINODES - 2` files is well formed, and unless the entries of the root
directory fill its blocks to the last byte it has no holes.  `mkfs` checks neither: one file
more gets an inode that the super block does not count, and a full last block of the root
directory is followed by one that is counted in its size and does not exist.
-/

namespace Xv6.Mkfs

open ByteView Hoare Ledger Fs

section Made

variable {files : List HostFile} {F : Nat → Option File} {s : State}

theorem mkfs_made (hcount : files.length ≤ NINODES - 2) (hs : mkfs files = .ok s) :
    Made (table files) s ∧ s.freeinode = files.length + 2 ∧ s.freeblock = used files := by
  unfold mkfs at hs
  cases hrun : main files start with
  | error e => rw [hrun] at hs; cases hs
  | ok r =>
    rw [hrun] at hs
    obtain rfl := Except.ok.inj hs
    have hmade := wp_ok (wp_main hcount) hrun
    exact hmade

theorem mkfs_ok {E : Abort → Prop} {Q : Unit → State → Prop} (h : wp (main files) E Q start)
    (hE : ∀ e, ¬ E e) : ∃ s, mkfs files = .ok s ∧ Q () s := by
  obtain ⟨_, s, hrun, hQ⟩ := wp_total (wp_mono_error h fun e he => hE e he)
  exact ⟨s, by rw [mkfs, hrun]; rfl, hQ⟩

/-! ### The bitmap -/

theorem bitClear_setBits (blk : Block) (n bi : Nat) :
    bitClear (setBits blk n) bi ↔ bitClear blk bi ∧ n ≤ bi := by
  induction n with
  | zero => simp [setBits]
  | succ n ih =>
    rw [setBits, bitClear_setBit, ih, and_assoc]
    refine and_congr_right fun _ => ?_
    omega

theorem Made.markedFree (h : Made F s) {b : Nat} (hb : b < BPB) :
    markedFree sb s.disk b ↔ s.freeblock ≤ b := by
  have hblk : BBLOCK sb b = sb.bmapstart := by
    rw [BBLOCK, Nat.div_eq_of_lt hb, Nat.zero_add]
  have hclear : bitClear (fun _ => 0) b := by simp [bitClear]
  rw [Fs.markedFree, hblk, h.bitmap, Nat.mod_eq_of_lt hb, bitClear_setBits]
  exact and_iff_right hclear

theorem Made.bitmap_exact (h : Made F s) {b : Nat} (hb : b < BPB) :
    ¬ Fs.markedFree sb s.disk b ↔ b < nmeta ∨ ∃ p, diskOwner sb s.disk p = some b := by
  rw [h.markedFree hb, Nat.not_le]
  constructor
  · intro hlt
    by_contra hnot
    obtain ⟨hmeta, hnone⟩ := not_or.mp hnot
    have hfree := (h.exact.free_iff b (Nat.not_lt.mp hmeta)).mpr
      ⟨fun p hp => hnone ⟨p, hp⟩, List.not_mem_nil⟩
    exact absurd hfree (Nat.not_le.mpr hlt)
  · rintro (hlt | ⟨p, hp⟩)
    · exact Nat.lt_of_lt_of_le hlt h.nmeta_le
    · exact (h.owned_lt hp).2

theorem Made.wellFormed (h : Made F s) : WellFormed sb nmeta s.disk := by
  have hsize : sb.size < BPB := by decide
  refine ⟨h.exact.once, fun p b hp => ?_, fun b hb => h.bitmap_exact (Nat.lt_trans hb hsize)⟩
  obtain ⟨hlo, hhi⟩ := h.owned_lt hp
  exact ⟨hlo, Nat.lt_of_lt_of_le hhi h.le⟩

/-! ### Holes -/

theorem Made.dense (h : Made F s) {i : Nat} (hi : i < NINODES) {f : File} (hf : F i = some f)
    (hsize : ∀ bn, bn * BSIZE < (dinodeAt sb s.disk i).size.toNat → bn * BSIZE < f.bytes.length) :
    (dinodeAt sb s.disk i).Dense s.disk :=
  fun bn hbn => ((h.file i hi f hf).block bn).mpr (hsize bn hbn)

/-- **The root directory has a hole iff its entries fill its blocks.** -/
theorem Made.root_dense_iff (h : Made (table files) s) :
    (dinodeAt sb s.disk ROOTINO).Dense s.disk ↔
      (files.length + 2) % (BSIZE / DIRENTSIZE) ≠ 0 := by
  have hroot := table_root files
  have hsize := h.rootSize _ hroot
  have hblock := (h.file ROOTINO (by decide) _ hroot).block
  dsimp only at hsize hblock
  rw [length_rootBytes] at hsize hblock
  have hper : BSIZE = DIRENTSIZE * (BSIZE / DIRENTSIZE) := by decide
  constructor
  · intro hdense hmod
    obtain ⟨q, hq⟩ := Nat.dvd_of_mod_eq_zero hmod
    have hlen : DIRENTSIZE * (files.length + 2) = q * BSIZE := by
      rw [hq, ← Nat.mul_assoc, ← hper, Nat.mul_comm]
    rw [hlen, Nat.mul_div_cancel _ (by decide)] at hsize
    have hbelow : q * BSIZE < (q + 1) * BSIZE :=
      Nat.mul_lt_mul_of_pos_right (Nat.lt_succ_self q) (by decide)
    have hlt := (hblock q).mp (hdense q (by rw [hsize]; exact hbelow))
    rw [hlen] at hlt
    exact absurd hlt (Nat.lt_irrefl _)
  · intro hmod
    refine h.dense (by decide) hroot fun bn hbn => ?_
    rw [hsize] at hbn
    show bn * BSIZE < (rootBytes files).length
    rw [length_rootBytes]
    rw [show BSIZE / DIRENTSIZE = 64 from rfl] at hmod
    rw [show BSIZE = 1024 from rfl, show DIRENTSIZE = 16 from rfl] at hbn ⊢
    omega

theorem Made.noHole (h : Made (table files) s)
    (hmod : (files.length + 2) % (BSIZE / DIRENTSIZE) ≠ 0) : NoHole sb s.disk := by
  intro i hi hlive
  by_cases hroot : i = ROOTINO
  · rw [hroot]
    exact h.root_dense_iff.mpr hmod
  · cases hf : table files i with
    | none => exact absurd (h.dead i hi hf) hlive
    | some f =>
      refine h.dense hi hf fun bn hbn => ?_
      rwa [h.size i hi hroot f hf] at hbn

/-! ### Inode numbers -/

theorem Made.live_iff (h : Made (table files) s)
    (hnext : s.freeinode = files.length + 2) {i : Nat} (hi : i < sb.ninodes) :
    (dinodeAt sb s.disk i).type ≠ 0 ↔ 1 ≤ i ∧ i < s.freeinode := by
  have htable : table files i ≠ none ↔ 1 ≤ i ∧ i < files.length + 2 := by
    unfold table ROOTINO
    split
    · rename_i hroot
      simp only [ne_eq, reduceCtorEq, not_false_eq_true, true_iff]
      omega
    split
    · rename_i hne hlt
      simp only [ne_eq, not_true_eq_false, false_iff]
      omega
    · rename_i hge
      rw [ne_eq, Option.map_eq_none_iff, List.getElem?_eq_none_iff]
      omega
  rw [hnext, ← htable]
  cases hf : table files i with
  | none => simp [h.dead i hi hf]
  | some f =>
    obtain ⟨hne, htype, -⟩ := h.live i hi f hf
    simp [htype, hne]

/-- From `t` to `t'` no block has been allocated and no inode has changed. -/
structure Untouched (t t' : Fs.State) : Prop where
  disk : t'.disk = t.disk
  ballocs : t'.ballocs = t.ballocs
  copy : ∀ j, (t'.inode j).copy = (t.inode j).copy

theorem Untouched.of_got {t t' : Fs.State} {inum ip : Nat} (h : Got t inum ip t') :
    Untouched t t' := by
  obtain ⟨-, ⟨-, -, rfl⟩ | ⟨-, -, rfl⟩⟩ := h
  all_goals
    refine ⟨rfl, rfl, fun j => ?_⟩
    by_cases hj : j = ip
    · subst hj
      rw [Fs.State.setInode_self]
    · rw [Fs.State.setInode_ne _ _ hj]

end Made

/-! ### Empty files -/

/-- An empty file with a short name. -/
def emptyFile (i : Nat) : HostFile where
  name := [102, UInt8.ofNat (48 + i % 200)]
  nul := by
    have hne : UInt8.ofNat (48 + i % 200) ≠ 0 := by
      intro h
      have := congrArg UInt8.toNat h
      rw [UInt8.toNat_ofNat'] at this
      simp at this
      omega
    simpa using hne.symm
  pieces := some []

def emptyFiles (n : Nat) : List HostFile := (List.range n).map emptyFile

theorem emptyFiles_succ (n : Nat) : emptyFiles (n + 1) = emptyFiles n ++ [emptyFile n] := by
  rw [emptyFiles, List.range_succ, List.map_append]
  rfl

theorem emptyFile_basename (i : Nat) : (emptyFile i).basename = (emptyFile i).name :=
  if_neg (by simp [emptyFile, userDir])

theorem used_emptyFiles (n : Nat) :
    used (emptyFiles n) = nmeta + blocksOf (DIRENTSIZE * (n + 2)) := by
  have hzero : ∀ f ∈ emptyFiles n, blocksOf f.bytes.length = 0 := by
    intro f hf
    obtain ⟨i, -, rfl⟩ := List.mem_map.mp hf
    exact show blocksOf 0 = 0 by decide
  have hsum : ((emptyFiles n).map fun f => blocksOf f.bytes.length).sum = 0 := by
    rw [List.map_congr_left hzero, List.map_const', List.sum_replicate_nat, Nat.mul_zero]
  rw [used, length_rootBytes, hsum]
  simp [emptyFiles]

theorem emptyFiles_acceptable {n : Nat} (hn : n ≤ NINODES) : Acceptable (emptyFiles n) := by
  have hmem : ∀ f ∈ emptyFiles n, ∃ i, f = emptyFile i := fun f hf => by
    obtain ⟨i, -, rfl⟩ := List.mem_map.mp hf
    exact ⟨i, rfl⟩
  refine ⟨fun f hf => ?_, fun f hf => ?_, fun f hf => ?_, ?_⟩
  · obtain ⟨i, rfl⟩ := hmem f hf
    simp [emptyFile]
  · obtain ⟨i, rfl⟩ := hmem f hf
    have hslash : slash ∉ (emptyFile i).name := by
      have hne : UInt8.ofNat (48 + i % 200) ≠ slash := by
        intro h
        have := congrArg UInt8.toNat h
        rw [UInt8.toNat_ofNat'] at this
        have hval : slash.toNat = 47 := by decide
        omega
      simpa [emptyFile, slash] using hne.symm
    refine ⟨by rwa [emptyFile_basename], ?_⟩
    rw [HostFile.shortname, emptyFile_basename, if_neg (by simp [emptyFile, underscore])]
    exact show 2 ≤ DIRSIZ by decide
  · obtain ⟨i, rfl⟩ := hmem f hf
    exact Nat.zero_le _
  · rw [used_emptyFiles]
    have hmono : blocksOf (DIRENTSIZE * (n + 2)) ≤ blocksOf (DIRENTSIZE * (NINODES + 2)) :=
      blocksOf_mono (Nat.mul_le_mul_left _ (by omega))
    have hfit : nmeta + blocksOf (DIRENTSIZE * (NINODES + 2)) ≤ FSSIZE := by decide
    omega

theorem mkfs_emptyFiles {n : Nat} (hn : n ≤ NINODES - 2) :
    ∃ s, mkfs (emptyFiles n) = .ok s := by
  have hlen : (emptyFiles n).length = n := by simp [emptyFiles]
  have hcount : (emptyFiles n).length ≤ NINODES - 2 := by omega
  obtain ⟨s, hs, -⟩ := mkfs_ok (wp_main hcount) fun _ hnot =>
    hnot (emptyFiles_acceptable (by omega))
  exact ⟨s, hs⟩

section Over

variable {files : List HostFile} {f : HostFile}

theorem Acceptable.of_append {rest : List HostFile} (h : Acceptable (files ++ rest)) :
    Acceptable files :=
  ⟨fun g hg => h.opened g (List.mem_append_left _ hg), fun g hg => h.name g (List.mem_append_left _ hg),
    fun g hg => h.size g (List.mem_append_left _ hg), Nat.le_trans (used_mono files rest) h.fit⟩

theorem wp_addFiles_append {E : Abort → Prop} {Q : Unit → State → Prop} {s : State}
    (rest : List HostFile) : wp (addFiles ROOTINO (files ++ rest)) E Q s ↔
      wp (addFiles ROOTINO files) E (fun _ t => wp (addFiles ROOTINO rest) E Q t) s := by
  induction files generalizing s with
  | nil => exact Iff.rfl
  | cons g files ih => simp only [List.cons_append, addFiles, wp_bind, ih]

/-- An empty file behind `NINODES - 2` others gets the inode number `NINODES`. -/
theorem wp_main_over (hlen : files.length = NINODES - 2) (hf : f.pieces = some []) :
    wp (main (files ++ [f])) (fun _ => ¬ Acceptable (files ++ [f])) (fun _ s =>
      s.freeinode = NINODES + 1 ∧ dinodeAt sb s.disk NINODES = newDinode T_FILE) start := by
  have hnum : files.length + 2 = NINODES := by rw [hlen]; decide
  have hsmall : (rootBytes (files ++ [f])).length < MAXFILE * BSIZE := by
    rw [length_rootBytes, List.length_append, hlen, List.length_singleton]
    decide
  unfold main
  -- the bound of the first loop is not to be evaluated
  generalize hn : FSSIZE = n
  refine wp_blankImage hn.symm (wp_root fun s h hinode hblock => ?_)
  simp only [wp_bind, wp_get, wp_addFiles_append]
  have hroom : ([] : List HostFile).length + files.length ≤ NINODES - 2 := by simp [hlen]
  refine wp_mono (wp_mono_error (wp_addFiles h hinode hblock hroom)
    fun _ hnot hacc => hnot hacc.of_append) ?_
  rintro _ t ⟨ht, hinode', hblock'⟩
  simp only [List.nil_append] at ht hinode' hblock'
  simp only [addFiles, wp_bind, wp_pure]
  refine wp_mono (wp_addFile ht hinode' hblock' (Or.inr ⟨by rw [hnum]; decide, hf⟩)) ?_
  rintro _ u ⟨hu, hinode'', _, hdin⟩
  refine wp_mono (wp_finish hu (table_root _) hsmall) fun _ v hv => wp_mono hv ?_
  rintro _ w ⟨_, hnext, _, hkept⟩
  refine ⟨by rw [hnext, hinode'', ← hnum], ?_⟩
  rw [hkept _ (by decide) (by decide), ← hdin hf, hnum]

end Over

end Xv6.Mkfs
