import Xv6.Fs.Path

/-!
# Looking up a path

On intact directories a lookup does not panic, and it leaves the file system as it was but
for the reference to the inode that it returns.
-/

namespace Xv6.Fs

open ByteView Hoare Function

/-- Inode `i` is allocated and has links to it. -/
structure Linked (sb : Superblock) (d : Disk) (i : Nat) : Prop where
  lt : i < sb.ninodes
  live : (dinodeAt sb d i).type ≠ 0
  links : (dinodeAt sb d i).nlink ≠ 0

/-- **Intact directories**: a linked directory has whole entries, and the ones in use name
    linked inodes. -/
structure Tree (sb : Superblock) (d : Disk) : Prop where
  root : Linked sb d ROOTINO
  whole : ∀ i, Linked sb d i → (dinodeAt sb d i).type = T_DIR →
    (dinodeAt sb d i).size.toNat % DIRENTSIZE = 0
  entries : ∀ i, Linked sb d i → (dinodeAt sb d i).type = T_DIR →
    ∀ k < direntCount (dinodeAt sb d i).size, direntInum (direntAt (dinodeAt sb d i) d k) ≠ 0 →
      Linked sb d (direntInum (direntAt (dinodeAt sb d i) d k))

/-- Two entries of `itable` are free: the one for an inode and the one for its directory. -/
def Room (s : State) : Prop :=
  ∃ i < NINODE, ∃ j < NINODE, i ≠ j ∧ (s.inode i).ref = 0 ∧ (s.inode j).ref = 0

/-- From `s₀` on, `n j` references to the inode `j` have been taken, and its lock if `l j`;
    the state is that of `s₀` but for this and for what entries of `itable` have cached. -/
structure Taken (sb : Superblock) (first : Nat) (s₀ : State) (n : Nat → Nat) (l : Nat → Bool)
    (s : State) : Prop where
  consistent : Consistent sb first s
  disk : s.disk = s₀.disk
  log : s.log = s₀.log
  ref : ∀ j, (s.inode j).ref = (s₀.inode j).ref + n j
  inum : ∀ j, 0 < (s₀.inode j).ref → (s.inode j).inum = (s₀.inode j).inum
  lock : ∀ j, (s.inode j).lock = ((s₀.inode j).lock || l j)

def oneRef (ip j : Nat) : Nat := if j = ip then 1 else 0

def oneLock (ip : Nat) (locked : Bool) (j : Nat) : Bool := locked && decide (j = ip)

/-- One reference to the inode `ip` has been taken, and maybe its lock. -/
structure Held (sb : Superblock) (first : Nat) (s₀ : State) (ip : Nat) (locked : Bool)
    (s : State) : Prop extends Taken sb first s₀ (oneRef ip) (oneLock ip locked) s where
  lt : ip < NINODE
  unlocked : locked = true → (s₀.inode ip).lock = false
  valid : locked = true → (s.inode ip).valid = true
  inum_lt : (s.inode ip).inum < sb.ninodes
  live : (dinodeAt sb s₀.disk (s.inode ip).inum).type ≠ 0
  -- dropping the reference does not free the inode
  links : (s₀.inode ip).ref = 0 → (dinodeAt sb s₀.disk (s.inode ip).inum).nlink ≠ 0

/-- No reference and no lock is left. -/
def Released (sb : Superblock) (first : Nat) (s₀ s : State) : Prop :=
  Taken sb first s₀ (fun _ => 0) (fun _ => false) s

/-- To wait is not to panic. -/
def Waits (e : Stop) : Prop := e = .asleep

section Calls

variable {sb : Superblock} {first ip dp inum : Nat} {s s' s₀ : State}

/-! ### Single calls -/

theorem wp_ilock_eq {E : Stop → Prop} (h : Cached sb s) (hip : ip < NINODE)
    (href : 0 < (s.inode ip).ref) (hlive : (dinodeAt sb s.disk (s.inode ip).inum).type ≠ 0)
    (hwait : (s.inode ip).lock = true → E .asleep) :
    wp (ilock sb ip) E (fun _ s' => (s.inode ip).lock = false ∧
      s' = s.setInode ip { s.inode ip with
        lock := true, valid := true, copy := dinodeAt sb s.disk (s.inode ip).inum }) s := by
  simp only [ilock, wp_bind, wp_get]
  rw [if_neg (by omega)]
  split
  · rename_i hlock
    exact hwait hlock
  rename_i hlock
  simp only [wp_bind, setInode, wp_modify]
  split
  · rename_i hvalid
    rw [← h.copy ip ⟨hip, href, hvalid⟩]
    refine ⟨by simpa using hlock, ?_⟩
    simp only [← hvalid]
  · simp only [wp_bind, bread, wp_get, wp_pure, wp_modify]
    split
    · rename_i hzero
      exact absurd hzero hlive
    · refine ⟨by simpa using hlock, ?_⟩
      simp only [State.setInode, update_self, update_idem]
      rfl

theorem wp_iunlock_eq {E : Stop → Prop} (href : 0 < (s.inode ip).ref)
    (hlock : (s.inode ip).lock = true) :
    wp (iunlock ip) E (fun _ s' => s' = s.setInode ip { s.inode ip with lock := false }) s := by
  simp only [iunlock, wp_bind, wp_get]
  rw [if_neg (not_or.mpr ⟨by simp [hlock], by omega⟩)]
  exact rfl

/-- What `iunlock` and `iput` do together. -/
def unlockedPut (s : State) (ip : Nat) : State :=
  s.setInode ip { s.inode ip with lock := false, ref := (s.inode ip).ref - 1 }

theorem wp_iunlockput_eq {E : Stop → Prop} (href : 0 < (s.inode ip).ref)
    (hlock : (s.inode ip).lock = true)
    (hkeep : ¬ ((s.inode ip).ref = 1 ∧ (s.inode ip).valid = true ∧ (s.inode ip).copy.nlink = 0)) :
    wp (iunlockput sb ip) E (fun _ s' => s' = unlockedPut s ip) s := by
  unfold iunlockput
  rw [wp_bind]
  refine wp_mono (wp_iunlock_eq href hlock) fun _ t ht => ?_
  subst ht
  refine wp_mono (wp_iput_eq (by rwa [State.setInode_self])) fun _ u hu => ?_
  subst hu
  simp only [unlockedPut, State.setInode, update_self, update_idem]

theorem not_partialEntry {size : UInt32} (h : size.toNat % DIRENTSIZE = 0) :
    ¬ PartialEntry size := by
  rintro ⟨k, hk, hne⟩
  have hlt := direntCount_lt hk
  have hsize := size.toNat_lt
  rw [show DIRENTSIZE = 16 from rfl] at h hlt hne
  have hoff : (UInt32.ofNat (k * 16)).toNat = k * 16 := by
    rw [UInt32.toNat_ofNat']
    omega
  have hn : (UInt32.ofNat 16).toNat = 16 := rfl
  have hend : (UInt32.ofNat (k * 16) + UInt32.ofNat 16).toNat = k * 16 + 16 := by
    rw [UInt32.toNat_add, hoff, hn]
    omega
  refine hne ?_
  unfold readLen
  rw [if_neg, hoff, hn]
  · omega
  · rw [UInt32.lt_iff_toNat_lt, UInt32.lt_iff_toNat_lt, hoff, hend]
    omega

/-! ### References along a path -/

theorem oneRef_self (ip : Nat) : oneRef ip ip = 1 := if_pos rfl

theorem oneRef_of_ne {j : Nat} (h : j ≠ ip) : oneRef ip j = 0 := if_neg h

theorem oneLock_self (ip : Nat) (locked : Bool) : oneLock ip locked ip = locked := by
  simp [oneLock]

theorem oneLock_of_ne {j : Nat} (h : j ≠ ip) (locked : Bool) : oneLock ip locked j = false := by
  simp [oneLock, h]

theorem Taken.refl (h : Consistent sb first s) :
    Taken sb first s (fun _ => 0) (fun _ => false) s :=
  ⟨h, rfl, rfl, fun _ => rfl, fun _ _ => rfl, fun _ => (Bool.or_false _).symm⟩

section Taken

variable {n n' : Nat → Nat} {l l' : Nat → Bool}

theorem Taken.setInode (h : Taken sb first s₀ n l s) (hip : ip < NINODE)
    (hpos : 0 < (s.inode ip).ref) (x : Inode) (hinum : x.inum = (s.inode ip).inum)
    (hvalid : 0 < x.ref → x.valid = true →
      x.inum < sb.ninodes ∧ x.copy.type ≠ 0 ∧ x.copy = dinodeAt sb s.disk x.inum)
    (href : x.ref = (s₀.inode ip).ref + n' ip) (hlock : x.lock = ((s₀.inode ip).lock || l' ip))
    (hn : ∀ j, j ≠ ip → n' j = n j) (hl : ∀ j, j ≠ ip → l' j = l j) :
    Taken sb first s₀ n' l' (s.setInode ip x) := by
  refine ⟨h.consistent.of_eq (h.consistent.cached.keepInum hip hpos x hinum hvalid) rfl, h.disk,
    h.log, fun j => ?_, fun j hj => ?_, fun j => ?_⟩ <;> by_cases hji : j = ip
  · subst hji
    rw [State.setInode_self, href]
  · rw [State.setInode_ne _ _ hji, h.ref, hn j hji]
  · subst hji
    rw [State.setInode_self, hinum, h.inum j hj]
  · rw [State.setInode_ne _ _ hji, h.inum j hj]
  · subst hji
    rw [State.setInode_self, hlock]
  · rw [State.setInode_ne _ _ hji, h.lock, hl j hji]

theorem Taken.got (h : Taken sb first s₀ n l s) (hgot : Got s inum ip s') :
    Taken sb first s₀ (fun j => n j + oneRef ip j) l s' ∧ (s'.inode ip).inum = inum := by
  refine ⟨?_, hgot.inum_eq⟩
  have hconsistent := hgot.consistent h.consistent
  obtain ⟨hip, ⟨hpos, hinum, rfl⟩ | ⟨hzero, -, rfl⟩⟩ := hgot
  · refine h.setInode hip hpos _ rfl (fun _ hvalid =>
      h.consistent.cached.entry ⟨hip, hpos, hvalid⟩) ?_ (h.lock ip) (fun j hj => ?_) fun _ _ => rfl
    · rw [oneRef_self, h.ref, Nat.add_assoc]
    · rw [oneRef_of_ne hj, Nat.add_zero]
  · have hbase : (s₀.inode ip).ref = 0 ∧ n ip = 0 := by
      have := h.ref ip
      omega
    refine ⟨hconsistent, h.disk, h.log, fun j => ?_, fun j hj => ?_, fun j => ?_⟩ <;>
      by_cases hji : j = ip
    · subst hji
      rw [State.setInode_self, oneRef_self, hbase.1, hbase.2]
    · rw [State.setInode_ne _ _ hji, h.ref, oneRef_of_ne hji, Nat.add_zero]
    · subst hji
      omega
    · rw [State.setInode_ne _ _ hji, h.inum j hj]
    · subst hji
      rw [State.setInode_self]
      exact h.lock j
    · rw [State.setInode_ne _ _ hji, h.lock]

theorem Taken.unlockedPut (h : Taken sb first s₀ n l s) (hip : ip < NINODE) (hn : 0 < n ip)
    (hbase : (s₀.inode ip).lock = false) (hn' : ∀ j, n j = n' j + oneRef ip j)
    (hl : ∀ j, l' j = (l j && !decide (j = ip))) :
    Taken sb first s₀ n' l' (unlockedPut s ip) := by
  have hpos : 0 < (s.inode ip).ref := by
    rw [h.ref]
    omega
  refine h.setInode hip hpos _ rfl (fun _ hvalid => h.consistent.cached.entry ⟨hip, hpos, hvalid⟩)
    ?_ ?_ (fun j hj => ?_) fun j hj => ?_
  · show (s.inode ip).ref - 1 = _
    rw [h.ref, hn' ip, oneRef_self]
    omega
  · show false = _
    simp [hbase, hl]
  · rw [hn' j, oneRef_of_ne hj, Nat.add_zero]
  · simp [hl, hj]

end Taken

theorem Held.ref_pos {locked : Bool} (h : Held sb first s₀ ip locked s) :
    0 < (s.inode ip).ref := by
  rw [h.ref, oneRef_self]
  omega

theorem Held.ready (h : Held sb first s₀ ip true s) : Ready ip s := ⟨h.lt, h.ref_pos, h.valid rfl⟩

theorem Held.copy (h : Held sb first s₀ ip true s) :
    (s.inode ip).copy = dinodeAt sb s₀.disk (s.inode ip).inum :=
  h.disk ▸ h.consistent.cached.copy ip h.ready

theorem Held.wp_ilock {E : Stop → Prop} (h : Held sb first s₀ ip false s)
    (hwait : (s₀.inode ip).lock = true → E .asleep) :
    wp (ilock sb ip) E (fun _ s' => Held sb first s₀ ip true s' ∧
      (s'.inode ip).inum = (s.inode ip).inum) s := by
  have hlive := h.live
  rw [← h.disk] at hlive
  have hsame : (s.inode ip).lock = (s₀.inode ip).lock := by
    rw [h.lock ip, oneLock_self, Bool.or_false]
  refine wp_mono (wp_ilock_eq h.consistent.cached h.lt h.ref_pos hlive fun hlock =>
    hwait (hsame ▸ hlock)) fun _ t ⟨hfree, ht⟩ => ?_
  subst ht
  have hbase : (s₀.inode ip).lock = false := hsame ▸ hfree
  refine ⟨⟨h.toTaken.setInode h.lt h.ref_pos _ rfl (fun _ _ => ⟨h.inum_lt, hlive, rfl⟩) (h.ref ip) ?_
    (fun _ _ => rfl) (fun j hj => ?_), h.lt, fun _ => hbase, fun _ => ?_, ?_, ?_, fun hzero => ?_⟩,
    by rw [State.setInode_self]⟩
  · rw [oneLock_self, Bool.or_true]
  · rw [oneLock_of_ne hj, oneLock_of_ne hj]
  all_goals rw [State.setInode_self]
  · exact h.inum_lt
  · exact h.live
  · exact h.links hzero

theorem Held.not_last (h : Held sb first s₀ ip true s) (hone : (s.inode ip).ref = 1) :
    (s.inode ip).copy.nlink ≠ 0 := by
  rw [h.copy]
  refine h.links ?_
  rw [h.ref, oneRef_self] at hone
  omega

theorem Held.wp_iunlockput {E : Stop → Prop} (h : Held sb first s₀ ip true s) :
    wp (iunlockput sb ip) E (fun _ => Released sb first s₀) s := by
  have hlock : (s.inode ip).lock = true := by
    rw [h.lock, oneLock_self, Bool.or_true]
  refine wp_mono (wp_iunlockput_eq h.ref_pos hlock fun hlast => h.not_last hlast.1 hlast.2.2)
    fun _ t ht => ?_
  subst ht
  refine h.toTaken.unlockedPut h.lt (by rw [oneRef_self]; exact Nat.one_pos) (h.unlocked rfl)
    (fun j => (Nat.zero_add _).symm) fun j => ?_
  simp [oneLock]

theorem Taken.held (h : Taken sb first s₀ (fun _ => 0) (fun _ => false) s)
    (hlink : Linked sb s₀.disk inum) (hgot : Got s inum ip s') :
    Held sb first s₀ ip false s' := by
  obtain ⟨htaken, hinum⟩ := h.got hgot
  have hzero : (fun j => 0 + oneRef ip j) = oneRef ip := funext fun j => Nat.zero_add _
  have hnone : (fun _ => false) = oneLock ip false := rfl
  rw [hzero, hnone] at htaken
  exact ⟨htaken, hgot.1, nofun, nofun, hinum ▸ hlink.lt, hinum ▸ hlink.live,
    fun _ => hinum ▸ hlink.links⟩

theorem Held.wp_next {E : Stop → Prop} (h : Held sb first s₀ dp true s)
    (hlink : Linked sb s₀.disk inum) (hgot : Got s inum ip s') :
    wp (iunlockput sb dp) E (fun _ t => Held sb first s₀ ip false t ∧ (t.inode ip).inum = inum)
      s' := by
  obtain ⟨htaken, hinum⟩ := h.toTaken.got hgot
  have hready := hgot.ready h.ready
  have hlock : (s'.inode dp).lock = true := by
    rw [htaken.lock, oneLock_self, Bool.or_true]
  have hkeep : ¬ ((s'.inode dp).ref = 1 ∧ (s'.inode dp).valid = true ∧
      (s'.inode dp).copy.nlink = 0) := by
    rintro ⟨hone, -, hnlink⟩
    rw [htaken.ref, oneRef_self] at hone
    have hne : dp ≠ ip := by
      rintro rfl
      rw [oneRef_self] at hone
      omega
    rw [oneRef_of_ne hne] at hone
    have hsame : s'.inode dp = s.inode dp := by
      obtain ⟨-, ⟨-, -, rfl⟩ | ⟨-, -, rfl⟩⟩ := hgot <;> exact State.setInode_ne _ _ hne
    rw [hsame] at hnlink
    exact h.not_last (by rw [h.ref, oneRef_self]; omega) hnlink
  refine wp_mono (wp_iunlockput_eq hready.ref hlock hkeep) fun _ t ht => ?_
  subst ht
  have hinum' : ((unlockedPut s' dp).inode ip).inum = inum := by
    unfold unlockedPut
    by_cases hne : ip = dp
    · subst hne
      rw [State.setInode_self]
      exact hinum
    · rw [State.setInode_ne _ _ hne, hinum]
  refine ⟨⟨htaken.unlockedPut h.lt (by rw [oneRef_self]; omega) (h.unlocked rfl)
    (fun j => Nat.add_comm _ _) fun j => ?_, hgot.1, nofun, nofun, hinum' ▸ hlink.lt,
    hinum' ▸ hlink.live, fun _ => hinum' ▸ hlink.links⟩, hinum'⟩
  simp [oneLock]

theorem Held.exists_free {locked : Bool} (hroom : Room s₀) (h : Held sb first s₀ ip locked s) :
    ¬ ∀ j < NINODE, 0 < (s.inode j).ref := by
  obtain ⟨i, hi, j, hj, hij, hzi, hzj⟩ := hroom
  intro hall
  have hri := hall i hi
  have hrj := hall j hj
  rw [h.ref] at hri hrj
  have hi' : i = ip := by
    by_contra hne
    rw [oneRef_of_ne hne] at hri
    omega
  have hj' : j = ip := by
    by_contra hne
    rw [oneRef_of_ne hne] at hrj
    omega
  exact hij (hi'.trans hj'.symm)

/-- **`dirlookup`** in a linked directory that is locked. -/
theorem Held.wp_dirlookup (htree : Tree sb s₀.disk) (hroom : Room s₀)
    (h : Held sb first s₀ dp true s) (hdir : (s.inode dp).copy.type = T_DIR)
    (hnlink : (s.inode dp).copy.nlink ≠ 0) (name : Name) :
    wp (dirlookup sb dp name) Waits (fun r s' => match r with
      | none => s' = s
      | some (ip, _) => ∃ inum, Linked sb s₀.disk inum ∧ Got s inum ip s') s := by
  have hlink : Linked sb s₀.disk (s.inode dp).inum := ⟨h.inum_lt, h.live, h.copy ▸ hnlink⟩
  refine wp_mono (Fs.wp_dirlookup name (h.consistent.dense h.ready) (absurd hdir)
    (fun hpart => ?_) fun hfull => absurd hfull (h.exists_free hroom)) fun r t ht => ?_
  · refine absurd hpart (not_partialEntry ?_)
    rw [h.copy]
    exact htree.whole _ hlink (h.copy ▸ hdir)
  · cases r with
    | none => exact ht
    | some found =>
      obtain ⟨k, hk, hused, -, hgot⟩ := ht
      rw [h.copy, h.disk] at hused hgot
      rw [h.copy] at hk
      exact ⟨_, htree.entries _ hlink (h.copy ▸ hdir) k hk hused, hgot⟩

/-- The inode that a lookup has arrived at, or nothing. -/
def LookedUp (sb : Superblock) (first : Nat) (s₀ : State) (r : Option Nat) (s : State) : Prop :=
  match r with
  | none => Released sb first s₀ s
  | some ip => Held sb first s₀ ip false s

theorem wp_namexFrom (htree : Tree sb s₀.disk) (hroom : Room s₀) (fuel : Nat)
    (h : Held sb first s₀ ip false s) (path : List UInt8) (name : Name) :
    wp (namexFrom sb false fuel ip path name) Waits
      (fun r => LookedUp sb first s₀ r.1) s := by
  induction fuel generalizing ip s path name with
  | zero => exact h
  | succ fuel ih =>
    unfold namexFrom
    split
    · exact h
    · rename_i name rest _
      rw [wp_bind]
      refine wp_mono (h.wp_ilock fun _ => rfl) fun _ t ⟨ht, _⟩ => ?_
      simp only [wp_bind, wp_get]
      rw [wp_ite]
      refine ⟨fun _ => ?_, fun hdir => ?_⟩
      · rw [wp_bind]
        exact wp_mono ht.wp_iunlockput fun _ u hu => hu
      rw [wp_ite]
      refine ⟨fun _ => ?_, fun hnlink => ?_⟩
      · rw [wp_bind]
        exact wp_mono ht.wp_iunlockput fun _ u hu => hu
      rw [if_neg (by simp), wp_bind]
      refine wp_mono (ht.wp_dirlookup htree hroom (not_not.mp hdir) hnlink name) fun r u hu => ?_
      cases r with
      | none =>
        subst hu
        rw [wp_bind]
        exact wp_mono ht.wp_iunlockput fun _ v hv => hv
      | some next =>
        obtain ⟨inum, hlink, hgot⟩ := hu
        rw [wp_bind]
        exact wp_mono (ht.wp_next hlink hgot) fun _ v hv => ih hv.1 rest name

/-- The current directory of a process. -/
structure Cwd (sb : Superblock) (s : State) (cwd : Nat) : Prop where
  lt : cwd < NINODE
  ref : 0 < (s.inode cwd).ref
  inum_lt : (s.inode cwd).inum < sb.ninodes
  live : (dinodeAt sb s.disk (s.inode cwd).inum).type ≠ 0

/-- The number of the inode that a lookup of `path` starts at. -/
def startInum (s : State) (cwd : Nat) (path : List UInt8) : Nat :=
  if path.head? = some slash then ROOTINO else (s.inode cwd).inum

/-- **`namex`** takes a reference to the inode it starts at, and goes on from there. -/
theorem wp_namex {E : Stop → Prop} {cwd : Nat} {parent : Bool} {path : List UInt8} {name : Name}
    {Q : Option Nat × Name → State → Prop} (htree : Tree sb s₀.disk) (hcwd : Cwd sb s₀ cwd)
    (h : Consistent sb first s₀) (hfull : ¬ Room s₀ → E (.panic .igetNoInodes))
    (hloop : ∀ ip t, Held sb first s₀ ip false t → (t.inode ip).inum = startInum s₀ cwd path →
      wp (namexFrom sb parent (path.length + 1) ip path name) E Q t) :
    wp (namex sb (some cwd) path parent name) E Q s₀ := by
  unfold namex startInum at *
  rw [wp_ite]
  refine ⟨fun hroot => ?_, fun hrel => ?_⟩ <;> rw [wp_bind]
  · rw [if_pos hroot] at hloop
    refine wp_mono (wp_iget ROOTINO fun hall => hfull ?_) fun ip t hgot =>
      hloop ip t ((Taken.refl h).held htree.root hgot) hgot.inum_eq
    rintro ⟨i, hi, -, -, -, hzero, -⟩
    exact absurd (hall i hi) (by omega)
  · rw [if_neg hrel] at hloop
    simp only [idup, wp_bind, Fs.setInode, wp_modify, wp_pure]
    refine hloop cwd _ ⟨(Taken.refl h).setInode hcwd.lt hcwd.ref _ rfl (fun _ hvalid =>
      h.cached.entry ⟨hcwd.lt, hcwd.ref, hvalid⟩) ?_ (Bool.or_false _).symm
      (fun j hj => oneRef_of_ne hj) fun _ _ => rfl, hcwd.lt, by rintro ⟨⟩, by rintro ⟨⟩, ?_, ?_,
        fun hzero => ?_⟩
      (by rw [State.setInode_self])
    · rw [oneRef_self]
    · rw [State.setInode_self]
      exact hcwd.inum_lt
    · rw [State.setInode_self]
      exact hcwd.live
    · exact absurd hcwd.ref (by omega)

/-- **`namei`** takes a reference to the inode that it returns, and nothing else. -/
theorem wp_namei {cwd : Nat} (htree : Tree sb s₀.disk) (hroom : Room s₀)
    (hcwd : Cwd sb s₀ cwd) (h : Consistent sb first s₀) (path : List UInt8) :
    wp (namei sb (some cwd) path) Waits (LookedUp sb first s₀) s₀ := by
  unfold namei
  rw [wp_bind]
  exact wp_namex htree hcwd h (absurd hroom) fun ip t ht _ =>
    wp_mono (wp_namexFrom htree hroom _ ht path _) fun _ _ hr => hr

end Calls

end Xv6.Fs
