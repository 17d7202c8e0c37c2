import Xv6.Fs.Write

/-!
# The table of in-memory inodes

`iget`, `ilock`, `iput` and `ialloc`, and the directory operations built on them.  They
keep one entry per inode number; a dinode is allocated or freed on disk only while it has
no blocks.
-/

namespace Xv6.Fs

open ByteView Hoare Ledger Function

section Table

variable {sb : Superblock} {first : Nat} {s s' : State}

theorem Cached.setInode (h : Cached sb s) (ip : Nat) (x : Inode)
    (hunique : 0 < x.ref → ∀ j < NINODE, j ≠ ip → 0 < (s.inode j).ref →
      (s.inode j).inum ≠ x.inum)
    (hvalid : ip < NINODE → 0 < x.ref → x.valid = true →
      x.inum < sb.ninodes ∧ x.copy.type ≠ 0 ∧ x.copy = dinodeAt sb s.disk x.inum) :
    Cached sb (s.setInode ip x) := by
  have hentry : ∀ j, Ready j (s.setInode ip x) →
      ((s.setInode ip x).inode j).inum < sb.ninodes ∧
      ((s.setInode ip x).inode j).copy.type ≠ 0 ∧
      ((s.setInode ip x).inode j).copy =
        dinodeAt sb s.disk ((s.setInode ip x).inode j).inum := by
    rintro j ⟨hj, href, hval⟩
    by_cases hjp : j = ip
    · subst hjp
      rw [State.setInode_self] at href hval ⊢
      exact hvalid hj href hval
    · rw [State.setInode_ne _ _ hjp] at href hval ⊢
      exact ⟨h.inum_lt j ⟨hj, href, hval⟩, h.live j ⟨hj, href, hval⟩, h.copy j ⟨hj, href, hval⟩⟩
  refine ⟨fun i hi j hj hri hrj heq => ?_, fun j hj => (hentry j hj).1,
    fun j hj => (hentry j hj).2.1, fun j hj => (hentry j hj).2.2⟩
  by_cases hip : i = ip <;> by_cases hjp : j = ip
  · rw [hip, hjp]
  · subst hip
    rw [State.setInode_self] at hri heq
    rw [State.setInode_ne _ _ hjp] at hrj heq
    exact absurd heq.symm (hunique hri j hj hjp hrj)
  · subst hjp
    rw [State.setInode_self] at hrj heq
    rw [State.setInode_ne _ _ hip] at hri heq
    exact absurd heq (hunique hrj i hi hip hri)
  · rw [State.setInode_ne _ _ hip] at hri heq
    rw [State.setInode_ne _ _ hjp] at hrj heq
    exact h.unique i hi j hj hri hrj heq

theorem Cached.keepInum (h : Cached sb s) {ip : Nat} (hip : ip < NINODE)
    (href : 0 < (s.inode ip).ref) (x : Inode) (hinum : x.inum = (s.inode ip).inum)
    (hvalid : 0 < x.ref → x.valid = true →
      x.inum < sb.ninodes ∧ x.copy.type ≠ 0 ∧ x.copy = dinodeAt sb s.disk x.inum) :
    Cached sb (s.setInode ip x) := by
  refine h.setInode ip x (fun _ j hj hjp hrj heq => ?_) fun _ => hvalid
  exact hjp (h.unique j hj ip hip hrj href (heq.trans hinum))

theorem Cached.entry (h : Cached sb s) {ip : Nat} (hr : Ready ip s) :
    (s.inode ip).inum < sb.ninodes ∧ (s.inode ip).copy.type ≠ 0 ∧
      (s.inode ip).copy = dinodeAt sb s.disk (s.inode ip).inum :=
  ⟨h.inum_lt ip hr, h.live ip hr, h.copy ip hr⟩

theorem Consistent.of_eq (h : Consistent sb first s) (hcached : Cached sb s')
    (hdisk : s'.disk = s.disk) : Consistent sb first s' :=
  ⟨hdisk ▸ h.wellFormed, hdisk ▸ h.noHole, hcached⟩

theorem Consistent.setLog (h : Consistent sb first s) (l : Log.LogState) :
    Consistent sb first { s with log := l } :=
  have hready : ∀ {j}, Ready j { s with log := l } → Ready j s := fun hj =>
    ⟨hj.lt, hj.ref, hj.valid⟩
  ⟨h.wellFormed, h.noHole, ⟨h.cached.unique, fun j hj => h.cached.inum_lt j (hready hj),
    fun j hj => h.cached.live j (hready hj), fun j hj => h.cached.copy j (hready hj)⟩⟩

theorem wp_beginOp {E : Stop → Prop} {Q : Unit → State → Prop} (hE : E .asleep)
    (h : ∀ l, Q () { s with log := l }) : wp beginOp E Q s := by
  simp only [beginOp, wp_bind, wp_get]
  split
  · exact hE
  · exact h _

theorem wp_endOp {E : Stop → Prop} {Q : Unit → State → Prop} (hE : ∀ e, E (.panic (.log e)))
    (h : ∀ l, Q () { s with log := l }) : wp endOp E Q s := by
  simp only [endOp, wp_bind, wp_get]
  split
  · exact hE _
  · exact h _
  · exact h _

/-! ### References -/

/-- What `iget(inum)` does when it returns `ip`: it takes a reference to the entry for
    `inum`, or recycles an entry that nobody refers to. -/
def Got (s : State) (inum ip : Nat) (s' : State) : Prop :=
  ip < NINODE ∧
  ((0 < (s.inode ip).ref ∧ (s.inode ip).inum = inum ∧
      s' = s.setInode ip { s.inode ip with ref := (s.inode ip).ref + 1 }) ∨
    ((s.inode ip).ref = 0 ∧ (∀ j < NINODE, 0 < (s.inode j).ref → (s.inode j).inum ≠ inum) ∧
      s' = s.setInode ip { s.inode ip with inum := inum, ref := 1, valid := false }))

/-- **`iget`** panics only when every entry is in use. -/
theorem wp_iget {E : Stop → Prop} (inum : Nat)
    (hfull : (∀ j < NINODE, 0 < (s.inode j).ref) → E (.panic .igetNoInodes)) :
    wp (iget inum) E (Got s inum) s := by
  simp only [iget, wp_bind, wp_get]
  split
  · rename_i i hfind
    have hp := List.find?_some hfind
    have hi := List.mem_range.mp (List.mem_of_find?_eq_some hfind)
    rw [decide_eq_true_eq] at hp
    simp only [wp_bind, setInode, wp_modify, wp_pure]
    exact ⟨hi, Or.inl ⟨hp.1, hp.2, rfl⟩⟩
  · rename_i hnone
    rw [List.find?_eq_none] at hnone
    have hmiss : ∀ j < NINODE, 0 < (s.inode j).ref → (s.inode j).inum ≠ inum := by
      intro j hj href heq
      exact hnone j (List.mem_range.mpr hj) (by rw [decide_eq_true_eq]; exact ⟨href, heq⟩)
    split
    · rename_i i hfind
      have hp := List.find?_some hfind
      have hi := List.mem_range.mp (List.mem_of_find?_eq_some hfind)
      rw [decide_eq_true_eq] at hp
      simp only [wp_bind, setInode, wp_modify, wp_pure]
      exact ⟨hi, Or.inr ⟨hp, hmiss, rfl⟩⟩
    · rename_i hnofree
      rw [List.find?_eq_none] at hnofree
      refine hfull fun j hj => Nat.pos_of_ne_zero fun hz => ?_
      exact hnofree j (List.mem_range.mpr hj) (by rw [decide_eq_true_eq]; exact hz)

section Got

variable {inum ip : Nat}

theorem Got.disk (h : Got s inum ip s') : s'.disk = s.disk := by
  obtain ⟨-, ⟨-, -, rfl⟩ | ⟨-, -, rfl⟩⟩ := h <;> rfl

theorem Got.inum_eq (h : Got s inum ip s') : (s'.inode ip).inum = inum := by
  obtain ⟨-, ⟨-, hinum, rfl⟩ | ⟨-, -, rfl⟩⟩ := h
  · rw [State.setInode_self, hinum]
  · rw [State.setInode_self]

theorem Got.ref_pos (h : Got s inum ip s') : 0 < (s'.inode ip).ref := by
  obtain ⟨-, ⟨-, -, rfl⟩ | ⟨-, -, rfl⟩⟩ := h <;> simp

theorem Got.not_last (h : Got s inum ip s') :
    ¬ ((s'.inode ip).ref = 1 ∧ (s'.inode ip).valid = true ∧ (s'.inode ip).copy.nlink = 0) := by
  obtain ⟨-, ⟨href, -, rfl⟩ | ⟨-, -, rfl⟩⟩ := h
  · rintro ⟨hone, -⟩
    rw [State.setInode_self] at hone
    dsimp only at hone
    omega
  · rintro ⟨-, hvalid, -⟩
    rw [State.setInode_self] at hvalid
    exact absurd hvalid (by simp)

theorem Got.cached (h : Got s inum ip s') (hc : Cached sb s) : Cached sb s' := by
  obtain ⟨hip, ⟨href, -, rfl⟩ | ⟨-, hmiss, rfl⟩⟩ := h
  · exact hc.keepInum hip href _ rfl fun _ hvalid => hc.entry ⟨hip, href, hvalid⟩
  · exact hc.setInode ip _ (fun _ j hj _ hrj => hmiss j hj hrj) fun _ _ hvalid =>
      absurd hvalid (by simp)

theorem Got.consistent (h : Got s inum ip s') (hc : Consistent sb first s) :
    Consistent sb first s' :=
  hc.of_eq (h.cached hc.cached) h.disk

theorem Got.ready (h : Got s inum ip s') {j : Nat} (hr : Ready j s) : Ready j s' := by
  obtain ⟨-, ⟨-, -, rfl⟩ | ⟨hfree, -, rfl⟩⟩ := h
  · by_cases hj : j = ip
    · subst hj
      exact ⟨hr.lt, by simp, by simpa using hr.valid⟩
    · exact ⟨hr.lt, by rw [State.setInode_ne _ _ hj]; exact hr.ref,
        by rw [State.setInode_ne _ _ hj]; exact hr.valid⟩
  · have hj : j ≠ ip := by
      rintro rfl
      exact absurd hr.ref (by omega)
    exact ⟨hr.lt, by rw [State.setInode_ne _ _ hj]; exact hr.ref,
      by rw [State.setInode_ne _ _ hj]; exact hr.valid⟩

end Got

variable {ip : Nat}

theorem wp_idup (h : Consistent sb first s) (hip : ip < NINODE) (href : 0 < (s.inode ip).ref) :
    wp (idup ip) Benign (fun _ s' => Consistent sb first s' ∧ s'.disk = s.disk) s := by
  simp only [idup, wp_bind, setInode, wp_modify, wp_pure]
  exact ⟨h.of_eq (h.cached.keepInum hip href _ rfl fun _ hvalid =>
    h.cached.entry ⟨hip, href, hvalid⟩) rfl, rfl⟩

/-- **`ilock`** reads the inode from disk if necessary. -/
theorem wp_ilock (h : Consistent sb first s) (hip : ip < NINODE)
    (hinum : (s.inode ip).inum < sb.ninodes) :
    wp (ilock sb ip) Benign (fun _ s' => Consistent sb first s' ∧ s'.disk = s.disk) s := by
  simp only [ilock, wp_bind, wp_get]
  split
  · exact fun h => by cases h
  rename_i href
  have href' : 0 < (s.inode ip).ref := by omega
  split
  · exact fun h => by cases h
  simp only [wp_bind, setInode, wp_modify]
  split
  · rename_i hvalid
    exact ⟨h.of_eq (h.cached.keepInum hip href' _ rfl fun _ _ =>
      h.cached.entry ⟨hip, href', hvalid⟩) rfl, rfl⟩
  · simp only [wp_bind, bread, wp_get, wp_pure, wp_modify]
    split
    · exact fun h => by cases h
    · rename_i hlive
      rw [wp_pure]
      have hlocked := h.cached.keepInum hip href' { s.inode ip with lock := true } rfl
        fun _ hvalid => h.cached.entry ⟨hip, href', hvalid⟩
      refine ⟨h.of_eq (hlocked.keepInum hip (by simpa using href') _ rfl fun _ _ => ?_) rfl, rfl⟩
      rw [State.setInode_self]
      exact ⟨hinum, hlive, rfl⟩

theorem wp_iunlock (h : Consistent sb first s) (hip : ip < NINODE) :
    wp (iunlock ip) Benign (fun _ s' => Consistent sb first s' ∧ s'.disk = s.disk) s := by
  simp only [iunlock, wp_bind, wp_get]
  split
  · exact fun h => by cases h
  · rename_i hheld
    have href : 0 < (s.inode ip).ref := by
      have := (not_or.mp hheld).2
      omega
    simp only [setInode, wp_modify]
    exact ⟨h.of_eq (h.cached.keepInum hip href _ rfl fun _ hvalid =>
      h.cached.entry ⟨hip, href, hvalid⟩) rfl, rfl⟩

/-! ### Allocating and freeing inodes -/

/-- The dinode of an inode without blocks, which nobody has in memory, is replaced by one
    without blocks. -/
theorem wp_writeEmpty (hL : Layout sb first) (h : Consistent sb first s) {inum : Nat}
    (hlt : inum < sb.ninodes) (hbefore : ∀ k, diskOwner sb s.disk (inum, k) = none) (x : Dinode)
    (hafter : x.type = 0 ∨ ((∀ k, x.addrs k = 0) ∧ x.size = 0))
    (hunused : ∀ ip, Ready ip s → (s.inode ip).inum ≠ inum) :
    wp (logWrite (IBLOCK sb inum) (putDinode (s.disk (IBLOCK sb inum)) (dinodeOff inum) x)) Benign
      (fun _ s' => Consistent sb first s' ∧ s'.inode = s.inode ∧
        OthersKept sb (· = inum) s s') s := by
  refine wp_logWrite fun l => ⟨?_, rfl, fun i _ hne => by
    rw [dinodeAt_update, update_of_ne hne]⟩
  generalize hd : update s.disk (IBLOCK sb inum)
    (putDinode (s.disk (IBLOCK sb inum)) (dinodeOff inum) x) = d
  have hdin : dinodeAt sb d = update (dinodeAt sb s.disk) inum x := by
    rw [← hd, dinodeAt_update]
  have hblocks : ∀ b, sb.bmapstart ≤ b → d b = s.disk b := by
    intro b hb
    rw [← hd]
    refine update_of_ne ?_ _ _
    have := hL.IBLOCK_lt hlt
    omega
  have hown : ∀ p, diskOwner sb d p = diskOwner sb s.disk p := by
    rintro ⟨i, k⟩
    have hsame : owner sb (dinodeAt sb d) d (i, k) = owner sb (dinodeAt sb d) s.disk (i, k) ∨
        i = inum := by
      by_cases hi : i = inum
      · exact Or.inr hi
      · refine Or.inl (owner_congr_disk fun b hb => hblocks b ?_)
        rw [hdin, owner_other hi] at hb
        have hdata := h.wellFormed.data _ b hb
        have := hL.bmapstart_lt
        omega
    by_cases hi : i = inum
    · subst hi
      rw [hbefore k, diskOwner, hdin, owner, update_self]
      rcases hafter with htype | ⟨haddrs, -⟩
      · rw [if_neg (by simp [htype])]
      · have hzero : x.block d k = 0 := by
          cases k <;> simp [Dinode.block, haddrs]
        rw [hzero]
        simp [nonzero]
    · rw [diskOwner, hsame.resolve_right hi, hdin, owner_other hi, diskOwner]
  refine ⟨(wellFormed_iff_books hL).mpr ?_, fun i hi hlive => ?_, ⟨h.cached.unique, ?_, ?_, ?_⟩⟩
  · exact (h.books hL).congr hL hown fun b _ => hblocks _ (bmapstart_le_BBLOCK b)
  · by_cases hii : i = inum
    · rw [hii, hdin, update_self] at hlive ⊢
      intro bn hbn
      rw [(hafter.resolve_left hlive).2] at hbn
      exact absurd hbn (Nat.not_lt_zero _)
    · have hother : dinodeAt sb d i = dinodeAt sb s.disk i := by
        rw [hdin, update_of_ne hii]
      rw [hother] at hlive
      exact dense_congr hi hother hlive (fun k => hown _) (h.noHole i hi hlive)
  · exact fun j hj => h.cached.inum_lt j ⟨hj.lt, hj.ref, hj.valid⟩
  · exact fun j hj => h.cached.live j ⟨hj.lt, hj.ref, hj.valid⟩
  · intro j hj
    have hj' : Ready j s := ⟨hj.lt, hj.ref, hj.valid⟩
    show (s.inode j).copy = dinodeAt sb d (s.inode j).inum
    rw [hdin, update_of_ne (hunused j hj')]
    exact h.cached.copy j hj'

/-- Inode `i` is the first one that is free on disk. -/
def FirstFree (sb : Superblock) (d : Disk) (i : Nat) : Prop :=
  0 < i ∧ (dinodeAt sb d i).type = 0 ∧ ∀ j, 0 < j → j < i → (dinodeAt sb d j).type ≠ 0

/-- **`ialloc`** takes the first inode that is free on disk. -/
theorem wp_ialloc (hL : Layout sb first) (h : Consistent sb first s) (type : UInt16) :
    wp (ialloc sb type) Benign (fun _ s' => Consistent sb first s' ∧
      OthersKept sb (FirstFree sb s.disk) s s') s := by
  unfold ialloc
  refine wp_findFirst (I := fun inum t => t = s ∧
      ∀ j, 0 < j → j < inum → (dinodeAt sb s.disk j).type ≠ 0) _ ⟨rfl, fun j h0 h1 => by omega⟩
    ?_ ?_
  swap
  · rintro t ⟨rfl, _⟩
    exact ⟨h, .of_disk_eq rfl⟩
  rintro inum t hlo hhi ⟨ht, hused⟩
  subst ht
  have hlt : inum < sb.ninodes := by omega
  simp only [wp_bind, bread, wp_get, wp_pure]
  split
  · rename_i hfree
    rw [wp_bind]
    refine wp_mono (wp_writeEmpty hL h hlt (fun k => ?_) _ (Or.inr ⟨fun _ => rfl, rfl⟩)
      fun ip hr heq => ?_) ?_
    · rw [diskOwner, owner, if_neg]
      exact fun hc => hc.2 hfree
    · have hlive := h.cached.live ip hr
      rw [h.cached.copy ip hr, heq] at hlive
      exact hlive hfree
    · rintro _ t' ⟨ht', _, hkept⟩
      rw [wp_bind]
      refine wp_mono (wp_iget inum fun _ h => by cases h) fun ip u hu =>
        ⟨hu.consistent ht', (hkept.mono fun i hi => ?_).trans (.of_disk_eq hu.disk)⟩
      subst hi
      exact ⟨hlo, hfree, hused⟩
  · rename_i hlive
    refine ⟨rfl, fun j h0 h1 => ?_⟩
    by_cases hj : j = inum
    · rw [hj]
      exact hlive
    · exact hused j h0 (by omega)

/-- **`iput`** drops a reference.  The last one to an unlinked inode frees its blocks and
    the inode itself. -/
theorem wp_iput (hL : Layout sb first) (h : Consistent sb first s) (hip : ip < NINODE)
    (href : 0 < (s.inode ip).ref) :
    wp (iput sb ip) Benign (fun _ s' => Consistent sb first s' ∧
      OthersKept sb (· = (s.inode ip).inum) s s') s := by
  simp only [iput, wp_bind, wp_get]
  split
  · rename_i hlast
    have hr : Ready ip s := ⟨hip, href, hlast.2.1⟩
    split
    · exact fun h => by cases h
    rw [wp_bind]
    refine wp_mono (wp_itrunc hL h hr) ?_
    rintro _ t ⟨ht, hsame, hkept, haddrs⟩
    obtain ⟨hinum, href', -, -⟩ := hsame ip
    have hrt : Ready ip t := hsame.ready.mpr hr
    simp only [wp_bind, setInode, wp_modify, ifree, bread, wp_get, wp_pure]
    -- the entry is dropped before the dinode is marked free
    have hcached := (ht.cached.keepInum hip hrt.ref { t.inode ip with valid := false } rfl
      fun _ hvalid => absurd hvalid (by simp)).keepInum hip (by simpa using hrt.ref)
        { (t.setInode ip { t.inode ip with valid := false }).inode ip with
          ref := ((t.setInode ip { t.inode ip with valid := false }).inode ip).ref - 1 }
        rfl fun _ hvalid => absurd hvalid (by simp)
    refine wp_mono (wp_writeEmpty hL (Consistent.of_eq ht hcached rfl)
      (by rw [← hinum]; exact ht.cached.inum_lt ip hrt) (fun k => ?_) _ (Or.inl rfl)
      fun j hj heq => ?_) fun _ u hu =>
        ⟨hu.1, hkept.trans ((OthersKept.of_disk_eq rfl).trans hu.2.2)⟩
    · -- the truncated inode has no blocks
      show diskOwner sb t.disk _ = none
      have hcopy := ht.cached.copy ip hrt
      have hzero : (dinodeAt sb t.disk (t.inode ip).inum).block t.disk k = 0 := by
        rw [← hcopy]
        cases k <;> simp [Dinode.block, haddrs]
      rw [← hinum, diskOwner, owner, hzero]
      simp [nonzero]
    · by_cases hj' : j = ip
      · subst hj'
        exact absurd hj.valid (by simp)
      · have hold : 0 < (t.inode j).ref := by
          have := hj.ref
          rwa [State.setInode_ne _ _ hj', State.setInode_ne _ _ hj'] at this
        rw [State.setInode_ne _ _ hj', State.setInode_ne _ _ hj', ← hinum] at heq
        exact hj' (ht.cached.unique j hj.lt ip hip hold hrt.ref heq)
  · simp only [setInode, wp_modify]
    exact ⟨h.of_eq (h.cached.keepInum hip href _ rfl fun _ hvalid =>
      h.cached.entry ⟨hip, href, hvalid⟩) rfl, .of_disk_eq rfl⟩

theorem wp_iput_eq {E : Stop → Prop}
    (hkeep : ¬ ((s.inode ip).ref = 1 ∧ (s.inode ip).valid = true ∧ (s.inode ip).copy.nlink = 0)) :
    wp (iput sb ip) E
      (fun _ s' => s' = s.setInode ip { s.inode ip with ref := (s.inode ip).ref - 1 }) s := by
  simp only [iput, wp_bind, wp_get]
  rw [if_neg hkeep]
  exact rfl

end Table

end Xv6.Fs
