import Xv6.Fs.Content

/-!
# Consistent states of the file system

Between operations the disk is well formed, no file has a hole below its size, and the
in-memory inodes agree with the disk.  An operation on a valid inode opens such a state
(`Consistent.running`), changes the in-memory copy, the indirect block and the bitmap, and
closes it with `iupdate`.
-/

namespace Xv6.Fs

open ByteView Hoare Ledger Function

/-- The block that a place of an allocated inode of the disk owns. -/
def diskOwner (sb : Superblock) (d : Disk) : Nat × Slot → Option Nat :=
  owner sb (dinodeAt sb d) d

/-- **Well-formed disks.**  The nonzero addresses of the allocated inodes are pairwise
    distinct data blocks, and a bit of the bitmap is set iff its block precedes the data
    blocks or is one of them. -/
structure WellFormed (sb : Superblock) (first : Nat) (d : Disk) : Prop where
  distinct : ∀ p q b, diskOwner sb d p = some b → diskOwner sb d q = some b → p = q
  data : ∀ p b, diskOwner sb d p = some b → first ≤ b ∧ b < sb.size
  bitmap : ∀ b < sb.size, ¬ markedFree sb d b ↔ b < first ∨ ∃ p, diskOwner sb d p = some b

/-- No allocated inode has a hole below its size. -/
def NoHole (sb : Superblock) (d : Disk) : Prop :=
  ∀ i < sb.ninodes, (dinodeAt sb d i).type ≠ 0 → (dinodeAt sb d i).Dense d

/-- The in-memory inode `ip` is referenced and has been read from disk. -/
structure Ready (ip : Nat) (s : State) : Prop where
  lt : ip < NINODE
  ref : 0 < (s.inode ip).ref
  valid : (s.inode ip).valid = true

/-- An inode number has one entry in `itable`, and a valid entry is a copy of its dinode. -/
structure Cached (sb : Superblock) (s : State) : Prop where
  unique : ∀ i < NINODE, ∀ j < NINODE, 0 < (s.inode i).ref → 0 < (s.inode j).ref →
    (s.inode i).inum = (s.inode j).inum → i = j
  inum_lt : ∀ ip, Ready ip s → (s.inode ip).inum < sb.ninodes
  live : ∀ ip, Ready ip s → (s.inode ip).copy.type ≠ 0
  copy : ∀ ip, Ready ip s → (s.inode ip).copy = dinodeAt sb s.disk (s.inode ip).inum

/-- The entries of `itable` have the same numbers, counts and flags. -/
def SameTable (s s' : State) : Prop :=
  ∀ j, (s'.inode j).inum = (s.inode j).inum ∧ (s'.inode j).ref = (s.inode j).ref ∧
    (s'.inode j).valid = (s.inode j).valid ∧ (s'.inode j).lock = (s.inode j).lock

/-- From `s` to `s'` no dinode has changed but those in `N`; all places of the inode blocks
    count. -/
def OthersKept (sb : Superblock) (N : Nat → Prop) (s s' : State) : Prop :=
  ∀ i, IBLOCK sb i < sb.bmapstart → ¬ N i → dinodeAt sb s'.disk i = dinodeAt sb s.disk i

structure Consistent (sb : Superblock) (first : Nat) (s : State) : Prop where
  wellFormed : WellFormed sb first s.disk
  noHole : NoHole sb s.disk
  cached : Cached sb s

section

variable {sb : Superblock} {first ip : Nat} {D : Nat → Dinode} {d d' : Disk} {s s₀ t : State}

theorem wellFormed_iff_books (hL : Layout sb first) :
    WellFormed sb first d ↔ Books sb first (diskOwner sb d) d [] := by
  constructor
  · intro h
    refine ⟨⟨h.distinct, h.data, List.nodup_nil, by simp, by simp, fun b hb => ?_⟩, fun b hb => ?_⟩
    · have hiff := not_congr (h.bitmap b hb.2)
      rw [not_not] at hiff
      rw [hiff]
      simp [Nat.not_lt.mpr hb.1]
    · exact (h.bitmap b (Nat.lt_of_lt_of_le hb hL.first_le)).mpr (Or.inl hb)
  · intro h
    refine ⟨h.exact.once, h.exact.owned, fun b hb => ⟨fun hused => ?_, ?_⟩⟩
    · by_contra hnot
      obtain ⟨hfirst, hnone⟩ := not_or.mp hnot
      refine hused ((h.exact.free_iff b ⟨Nat.not_lt.mp hfirst, hb⟩).mpr ⟨?_, by simp⟩)
      exact fun p hp => hnone ⟨p, hp⟩
    · rintro (hlt | ⟨p, hp⟩)
      · exact h.metadata b hlt
      · exact h.exact.not_free_of_owned hp

theorem Consistent.books (hL : Layout sb first) (h : Consistent sb first s) :
    Books sb first (diskOwner sb s.disk) s.disk [] :=
  (wellFormed_iff_books hL).mp h.wellFormed

theorem Dinode.block_congr {x y : Dinode} (h : x.addrs = y.addrs) : x.block d = y.block d := by
  funext k
  cases k <;> simp only [Dinode.block, h]

theorem Dinode.block_congr_disk {x : Dinode}
    (h : x.addrs (Fin.last NDIRECT) ≠ 0 →
      d' (x.addrs (Fin.last NDIRECT)).toNat = d (x.addrs (Fin.last NDIRECT)).toNat) :
    x.block d' = x.block d := by
  funext k
  cases k with
  | direct i => rfl
  | indirect => rfl
  | entry j =>
    simp only [Dinode.block]
    split
    · rfl
    · rename_i hne
      rw [h hne]

theorem Dinode.fileBlock_congr {x y : Dinode} (h : x.addrs = y.addrs) :
    x.fileBlock d = y.fileBlock d := by
  funext bn
  simp only [Dinode.fileBlock, Dinode.block_congr h]

theorem dense_congr {i : Nat} {D' : Nat → Dinode} (hi : i < sb.ninodes) (hD : D' i = D i)
    (hlive : (D i).type ≠ 0) (hown : ∀ k, owner sb D' d' (i, k) = owner sb D d (i, k))
    (h : (D i).Dense d) : (D' i).Dense d' := by
  intro bn hbn
  rw [hD] at hbn ⊢
  have hold := h bn hbn
  have hlt := Dinode.lt_of_fileBlock hold
  rw [Dinode.fileBlock_eq hlt] at hold ⊢
  have hslot := hown (slotOf bn hlt)
  simp only [owner, hD, hi, hlive, ne_eq, not_false_eq_true, and_self, if_true] at hslot
  refine nonzero_eq_none.not.mp ?_
  rw [hslot]
  exact nonzero_eq_none.not.mpr hold

theorem SameTable.of_eq (h : t.inode = s.inode) : SameTable s t := by
  intro j
  rw [h]
  exact ⟨rfl, rfl, rfl, rfl⟩

theorem SameTable.trans {u : State} (h : SameTable s t) (h' : SameTable t u) : SameTable s u := by
  intro j
  obtain ⟨hinum, href, hvalid, hlock⟩ := h j
  obtain ⟨hinum', href', hvalid', hlock'⟩ := h' j
  exact ⟨hinum'.trans hinum, href'.trans href, hvalid'.trans hvalid, hlock'.trans hlock⟩

theorem SameTable.ready (h : SameTable s t) {j : Nat} : Ready j t ↔ Ready j s := by
  obtain ⟨-, href, hvalid, -⟩ := h j
  constructor
  · intro hr
    exact ⟨hr.lt, by rw [← href]; exact hr.ref, by rw [← hvalid]; exact hr.valid⟩
  · intro hr
    exact ⟨hr.lt, by rw [href]; exact hr.ref, by rw [hvalid]; exact hr.valid⟩

theorem OthersKept.of_disk_eq {N : Nat → Prop} (h : t.disk = s.disk) : OthersKept sb N s t :=
  fun _ _ _ => by rw [h]

theorem OthersKept.trans {N : Nat → Prop} {u : State} (h : OthersKept sb N s t)
    (h' : OthersKept sb N t u) : OthersKept sb N s u :=
  fun i hi hN => (h' i hi hN).trans (h i hi hN)

theorem OthersKept.mono {N N' : Nat → Prop} (h : OthersKept sb N s t) (hN : ∀ i, N i → N' i) :
    OthersKept sb N' s t :=
  fun i hi hN' => h i hi fun hi' => hN' (hN i hi')

/-! ### Opening and closing -/

/-- **Opening**: the in-memory copy of a valid inode is in the place of its dinode. -/
theorem Consistent.running (hL : Layout sb first) (h : Consistent sb first s) (hr : Ready ip s) :
    Running sb first (dinodeAt sb s.disk) ip s [] ∧
      owns sb (dinodeAt sb s.disk) ip s = diskOwner sb s.disk := by
  have hown : owns sb (dinodeAt sb s.disk) ip s = diskOwner sb s.disk := by
    have hview : view (dinodeAt sb s.disk) (s.inode ip) = dinodeAt sb s.disk := by
      unfold view
      rw [h.cached.copy ip hr]
      exact update_eq_self _ _
    rw [owns, hview, diskOwner]
  exact ⟨⟨h.cached.inum_lt ip hr, h.cached.live ip hr, fun _ _ => rfl, hown ▸ h.books hL⟩, hown⟩

theorem Consistent.dense (h : Consistent sb first s) (hr : Ready ip s) :
    (s.inode ip).copy.Dense s.disk := by
  have hcopy := h.cached.copy ip hr
  have hlive := h.cached.live ip hr
  rw [hcopy] at hlive ⊢
  exact h.noHole _ (h.cached.inum_lt ip hr) hlive

theorem Running.setCopy {loose : List Nat} (h : Running sb first D ip s loose) {x : Dinode}
    (haddrs : x.addrs = (s.inode ip).copy.addrs) (hlive : x.type ≠ 0) :
    Running sb first D ip (s.setInode ip ((s.inode ip).setCopy x)) loose ∧
      owns sb D ip (s.setInode ip ((s.inode ip).setCopy x)) = owns sb D ip s := by
  have hown : owns sb D ip (s.setInode ip ((s.inode ip).setCopy x)) = owns sb D ip s := by
    funext p
    rw [owns, owns, State.setInode_self, State.setInode_disk]
    obtain ⟨i, k⟩ := p
    by_cases hi : i = (s.inode ip).inum
    · subst hi
      refine (owner_self h.inum_lt hlive).trans (Eq.trans ?_ (owner_self h.inum_lt h.live).symm)
      rw [Dinode.block_congr haddrs]
    · exact (owner_other hi).trans (owner_other hi).symm
  refine ⟨⟨?_, ?_, h.dinodes, hown ▸ h.books⟩, hown⟩
  · rw [State.setInode_self]
    exact h.inum_lt
  · rw [State.setInode_self]
    exact hlive

/-- An operation on `ip` that began in `s₀` has come to `t`, where only `iupdate` is left. -/
structure Closing (sb : Superblock) (first ip : Nat) (s₀ t : State) : Prop where
  running : Running sb first (dinodeAt sb s₀.disk) ip t []
  others : ∀ j, j ≠ ip → t.inode j = s₀.inode j
  entry : ∃ x, t.inode ip = (s₀.inode ip).setCopy x
  elsewhere : ∀ p, p.1 ≠ (s₀.inode ip).inum →
    owns sb (dinodeAt sb s₀.disk) ip t p = diskOwner sb s₀.disk p
  dense : (t.inode ip).copy.Dense t.disk
  low : ∀ b < sb.bmapstart, t.disk b = s₀.disk b

theorem Closing.sameTable (h : Closing sb first ip s₀ t) : SameTable s₀ t := by
  intro j
  by_cases hj : j = ip
  · subst hj
    obtain ⟨x, hx⟩ := h.entry
    rw [hx]
    exact ⟨rfl, rfl, rfl, rfl⟩
  · rw [h.others j hj]
    exact ⟨rfl, rfl, rfl, rfl⟩

theorem Changed.closing_setCopy (hL : Layout sb first) (h₀ : Consistent sb first s₀)
    (hr : Ready ip s₀) (hrun : Running sb first (dinodeAt sb s₀.disk) ip s [])
    (hg : Changed sb (dinodeAt sb s₀.disk) ip s₀ s) {x : Dinode}
    (haddrs : x.addrs = (s.inode ip).copy.addrs) (hlive : x.type ≠ 0) (hdense : x.Dense s.disk) :
    Closing sb first ip s₀ (s.setInode ip ((s.inode ip).setCopy x)) := by
  obtain ⟨hrun', hown⟩ := hrun.setCopy haddrs hlive
  obtain ⟨addrs, hentry⟩ := hg.fields
  refine ⟨hrun', fun j hj => ?_, ?_, fun p hp => ?_, ?_, hg.low⟩
  · rw [State.setInode_ne _ _ hj, hg.others j hj]
  · rw [State.setInode_self, hentry]
    exact ⟨_, rfl⟩
  · rw [hown, hg.elsewhere p hp, (h₀.running hL hr).2]
  · rw [State.setInode_self, State.setInode_disk]
    exact hdense

theorem Changed.closing (hL : Layout sb first) (h₀ : Consistent sb first s₀)
    (hr : Ready ip s₀) (hrun : Running sb first (dinodeAt sb s₀.disk) ip s [])
    (hg : Changed sb (dinodeAt sb s₀.disk) ip s₀ s)
    (hdense : (s.inode ip).copy.Dense s.disk) : Closing sb first ip s₀ s := by
  have h := hg.closing_setCopy hL h₀ hr hrun rfl hrun.live hdense
  have hself : s.setInode ip ((s.inode ip).setCopy (s.inode ip).copy) = s :=
    s.setInode_eq_self ip
  rwa [hself] at h

/-- **Closing**: `iupdate` writes the copy back, and the state is consistent again. -/
theorem wp_iupdate {E : Stop → Prop} [LogMayPanic E] (hL : Layout sb first)
    (h₀ : Consistent sb first s₀) (hr : Ready ip s₀) (h : Closing sb first ip s₀ t) :
    wp (iupdate sb ip) E (fun _ s' => Consistent sb first s' ∧ s'.inode = t.inode ∧
      OthersKept sb (· = (s₀.inode ip).inum) s₀ s' ∧ Counted t s' ∧
      ∀ b, sb.bmapstart ≤ b → s'.disk b = t.disk b) t := by
  have hinum := (h.sameTable ip).1
  have hlt := h.running.inum_lt
  simp only [iupdate, wp_bind, wp_get, bread, wp_pure]
  refine wp_logWrite fun l => ?_
  generalize hd : update t.disk (IBLOCK sb (t.inode ip).inum)
    (putDinode (t.disk (IBLOCK sb (t.inode ip).inum)) (dinodeOff (t.inode ip).inum)
      (t.inode ip).copy) = d
  have hdin : ∀ i < sb.ninodes, dinodeAt sb d i = view (dinodeAt sb s₀.disk) (t.inode ip) i := by
    intro i hi
    rw [← hd, dinodeAt_update, view]
    by_cases hii : i = (t.inode ip).inum
    · rw [hii, update_self, update_self]
    · rw [update_of_ne hii, update_of_ne hii, h.running.dinodes i hi]
  have hblocks : ∀ b, sb.bmapstart ≤ b → d b = t.disk b := by
    intro b hb
    rw [← hd]
    refine update_of_ne ?_ _ _
    have := hL.IBLOCK_lt hlt
    omega
  have hown : ∀ p, diskOwner sb d p = owns sb (dinodeAt sb s₀.disk) ip t p := by
    intro p
    have hsame : owner sb (dinodeAt sb d) d p =
        owner sb (view (dinodeAt sb s₀.disk) (t.inode ip)) d p := by
      unfold owner
      by_cases hp : p.1 < sb.ninodes
      · rw [hdin _ hp]
      · rw [if_neg fun hc => hp hc.1, if_neg fun hc => hp hc.1]
    refine hsame.trans (owner_congr_disk fun b hb => hblocks b ?_)
    have hdata := h.running.owned_data hb
    have := hL.bmapstart_lt
    omega
  have hready : ∀ j, Ready j { t with disk := d, log := l } → Ready j s₀ := fun j hj =>
    h.sameTable.ready.mp ⟨hj.lt, hj.ref, hj.valid⟩
  refine ⟨⟨(wellFormed_iff_books hL).mpr ?_, fun i hi hlive => ?_, ⟨?_, ?_, ?_, ?_⟩⟩, rfl,
    fun i hi hne => ?_, ⟨rfl, Nat.le_refl _⟩, hblocks⟩
  · exact h.running.books.congr hL hown fun b _ => hblocks _ (bmapstart_le_BBLOCK b)
  · by_cases hii : i = (t.inode ip).inum
    · -- the inode that was written: its blocks are those of the copy
      subst hii
      have hcopy : dinodeAt sb d (t.inode ip).inum =
          view (dinodeAt sb s₀.disk) (t.inode ip) (t.inode ip).inum := hdin _ hlt
      refine dense_congr (D := view (dinodeAt sb s₀.disk) (t.inode ip)) (d := t.disk) hlt hcopy
        (hcopy ▸ hlive) (fun k => hown _) ?_
      rw [view, update_self]
      exact h.dense
    · have hother : dinodeAt sb d i = dinodeAt sb s₀.disk i := by
        rw [hdin i hi, view, update_of_ne hii]
      rw [hother] at hlive
      refine dense_congr hi hother hlive (fun k => (hown _).trans (h.elsewhere _ ?_))
        (h₀.noHole i hi hlive)
      rwa [← hinum]
  · intro i hi j hj hri hrj heq
    dsimp only at hri hrj heq
    rw [(h.sameTable i).2.1] at hri
    rw [(h.sameTable j).2.1] at hrj
    rw [(h.sameTable i).1, (h.sameTable j).1] at heq
    exact h₀.cached.unique i hi j hj hri hrj heq
  · intro j hj
    have hj₀ := hready j hj
    show (t.inode j).inum < _
    rw [(h.sameTable j).1]
    exact h₀.cached.inum_lt j hj₀
  · intro j hj
    show (t.inode j).copy.type ≠ 0
    by_cases hjp : j = ip
    · rw [hjp]
      exact h.running.live
    · rw [h.others j hjp]
      exact h₀.cached.live j (hready j hj)
  · intro j hj
    have hj₀ := hready j hj
    show (t.inode j).copy = dinodeAt sb d (t.inode j).inum
    by_cases hjp : j = ip
    · rw [hjp, hdin _ hlt, view, update_self]
    · have hne : (s₀.inode j).inum ≠ (t.inode ip).inum := fun heq =>
        hjp (h₀.cached.unique j hj.lt ip hr.lt hj₀.ref hr.ref (heq.trans hinum))
      rw [h.others j hjp, hdin _ (h₀.cached.inum_lt j hj₀), view, update_of_ne hne]
      exact h₀.cached.copy j hj₀
  · show dinodeAt sb d i = dinodeAt sb s₀.disk i
    rw [← hd, dinodeAt_update, update_of_ne (by rw [hinum]; exact hne)]
    unfold dinodeAt
    rw [h.low _ hi]

end

end Xv6.Fs
