import Xv6.Fs.References
import Xv6.Fs.Lookup

/-!
# Lookups that leave the disk alone

On a disk whose directories are intact and whose files have no holes, looking a path up, reading
and dropping references log no block, in a transaction or outside of one.  The disk may be
exchanged for another with the same inodes, as long as it is intact too.
-/

namespace Xv6.Fs

open ByteView Hoare

/-- No block is logged outside of a transaction. -/
def InTrans (e : Stop) : Prop := e ≠ .panic (.log .logWriteOutsideOfTrans)

/-- Disks with intact directories and no holes, all with the same inodes. -/
structure Sealed (sb : Superblock) (𝒟 : Disk → Prop) : Prop where
  tree : ∀ d, 𝒟 d → Tree sb d
  noHole : ∀ d, 𝒟 d → NoHole sb d
  same : ∀ d d', 𝒟 d → 𝒟 d' → ∀ i < sb.ninodes, dinodeAt sb d i = dinodeAt sb d' i

/-- The disk is one of these, and the inodes in use are linked. -/
structure Clean (sb : Superblock) (𝒟 : Disk → Prop) (s : State) : Prop where
  disk : 𝒟 s.disk
  linked : ∀ j, 0 < (s.inode j).ref → Linked sb s.disk (s.inode j).inum
  copy : ∀ j, 0 < (s.inode j).ref → (s.inode j).valid = true →
    (s.inode j).copy = dinodeAt sb s.disk (s.inode j).inum

/-- The references and the lock that an operation holds, in a clean state.  The inodes of the
    references `base` satisfy `G`. -/
structure Quiet (sb : Superblock) (𝒟 : Disk → Prop) (G : Dinode → Prop) (base : Nat → Nat)
    (held : List Nat) (locked : Option Nat) (s : State) : Prop extends
    Holding base held locked s, Clean sb 𝒟 s where
  ready : ∀ ip, locked = some ip → 0 < (s.inode ip).ref ∧ (s.inode ip).valid = true
  good : ∀ j, 0 < base j → G (dinodeAt sb s.disk (s.inode j).inum)

section Quiet

variable {sb : Superblock} {𝒟 : Disk → Prop} {G : Dinode → Prop} {base : Nat → Nat}
  {held : List Nat} {locked : Option Nat} {s s' : State} {ip inum : Nat}

theorem Quiet.ref_pos (h : Quiet sb 𝒟 G base (ip :: held) locked s) : 0 < (s.inode ip).ref := by
  rw [h.ref, List.count_cons_self]
  omega

theorem Quiet.setInode {x : Inode} {held' : List Nat} {locked' : Option Nat}
    (h : Quiet sb 𝒟 G base held locked s) (hx : Holding base held' locked' (s.setInode ip x))
    (hinum : 0 < base ip → x.inum = (s.inode ip).inum)
    (hlinked : 0 < x.ref → Linked sb s.disk x.inum)
    (hcopy : 0 < x.ref → x.valid = true → x.copy = dinodeAt sb s.disk x.inum)
    (hready : locked' = some ip → 0 < x.ref ∧ x.valid = true)
    (hready' : ∀ j, j ≠ ip → locked' = some j → locked = some j) :
    Quiet sb 𝒟 G base held' locked' (s.setInode ip x) := by
  refine ⟨hx, ⟨h.disk, fun j => ?_, fun j => ?_⟩, fun j => ?_, fun j => ?_⟩ <;> by_cases hj : j = ip
  · rw [hj, State.setInode_self]
    exact hlinked
  · rw [State.setInode_ne _ _ hj]
    exact h.linked j
  · rw [hj, State.setInode_self]
    exact hcopy
  · rw [State.setInode_ne _ _ hj]
    exact h.copy j
  · rw [hj, State.setInode_self]
    exact hready
  · rw [State.setInode_ne _ _ hj]
    exact fun hl => h.ready j (hready' j hj hl)
  · rw [hj, State.setInode_self]
    intro hpos
    rw [hinum hpos]
    exact h.good ip hpos
  · rw [State.setInode_ne _ _ hj]
    exact h.good j

theorem Quiet.setLog (h : Quiet sb 𝒟 G base held locked s) (l : Log.LogState) :
    Quiet sb 𝒟 G base held locked { s with log := l } :=
  ⟨⟨h.lt, h.ref, h.lock⟩, ⟨h.disk, h.linked, h.copy⟩, h.ready, h.good⟩

theorem Quiet.wp_beginOp (h : Quiet sb 𝒟 G base held locked s) :
    wp beginOp InTrans (fun _ => Quiet sb 𝒟 G base held locked) s := by
  simp only [beginOp, wp_bind, wp_get]
  split
  · rintro ⟨⟩
  · exact h.setLog _

theorem Quiet.wp_endOp (h : Quiet sb 𝒟 G base held locked s) :
    wp endOp InTrans (fun _ => Quiet sb 𝒟 G base held locked) s := by
  simp only [endOp, wp_bind, wp_get]
  split
  · rename_i e he
    rintro ⟨⟩
    simp only [Log.endOp] at he
    split at he
    · cases he
    · split at he <;> cases he
  · exact h.setLog _
  · exact h.setLog _

theorem Quiet.wp_idup (h : Quiet sb 𝒟 G base held locked s) (href : 0 < (s.inode ip).ref) :
    wp (idup ip) InTrans (fun r s' => r = ip ∧ Quiet sb 𝒟 G base (ip :: held) locked s' ∧
      (s'.inode ip).inum = (s.inode ip).inum ∧ s'.disk = s.disk) s := by
  simp only [idup, wp_bind, Fs.setInode, wp_modify, wp_pure]
  refine ⟨trivial, h.setInode (h.toHolding.take (h.lt ip href) rfl rfl) (fun _ => rfl)
    (fun _ => h.linked ip href) (fun _ => h.copy ip href)
    (fun hl => ⟨Nat.succ_pos _, (h.ready ip hl).2⟩) fun _ _ hl => hl, ?_, rfl⟩
  rw [State.setInode_self]

theorem Quiet.not_last (h : Quiet sb 𝒟 G base (ip :: held) locked s) :
    ¬ ((s.inode ip).ref = 1 ∧ (s.inode ip).valid = true ∧ (s.inode ip).copy.nlink = 0) := by
  rintro ⟨-, hvalid, hnlink⟩
  rw [h.copy ip h.ref_pos hvalid] at hnlink
  exact (h.linked ip h.ref_pos).links hnlink

theorem Quiet.wp_iput (h : Quiet sb 𝒟 G base (ip :: held) none s) :
    wp (iput sb ip) InTrans (fun _ => Quiet sb 𝒟 G base held none) s := by
  refine wp_mono (wp_iput_eq h.not_last) fun _ t ht => ?_
  subst ht
  exact h.setInode (h.toHolding.drop rfl rfl) (fun _ => rfl) (fun _ => h.linked ip h.ref_pos)
    (fun _ => h.copy ip h.ref_pos) nofun fun _ _ hl => hl

theorem Quiet.wp_ilock (h : Quiet sb 𝒟 G base (ip :: held) none s) :
    wp (ilock sb ip) InTrans (fun _ => Quiet sb 𝒟 G base (ip :: held) (some ip)) s := by
  have hlink := h.linked ip h.ref_pos
  have hlocked : ∀ x : Inode, x.ref = (s.inode ip).ref → x.lock = true → x.valid = true →
      x.inum = (s.inode ip).inum → x.copy = dinodeAt sb s.disk (s.inode ip).inum →
      Quiet sb 𝒟 G base (ip :: held) (some ip) (s.setInode ip x) := by
    intro x href hlock hvalid hinum hcopy
    refine h.setInode (h.toHolding.setInode (fun _ => h.lt ip h.ref_pos) (href.trans (h.ref ip))
      (by rw [hlock, decide_eq_true rfl]) (fun _ _ => rfl) fun j hj => by simp [Ne.symm hj])
      (fun _ => hinum) (fun _ => hinum ▸ hlink) (fun _ _ => hinum ▸ hcopy)
      (fun _ => ⟨href ▸ h.ref_pos, hvalid⟩) fun j hj hl => absurd (Option.some.inj hl).symm hj
  simp only [ilock, wp_bind, wp_get, Fs.setInode]
  split
  · exact nofun
  split
  · exact nofun
  simp only [wp_bind, wp_modify]
  split
  · rename_i hvalid
    exact hlocked _ rfl rfl hvalid rfl (h.copy ip h.ref_pos hvalid)
  · simp only [wp_bind, bread, wp_get, wp_pure, wp_modify]
    split
    · rename_i hzero
      exact absurd hzero hlink.live
    · rw [wp_pure]
      simp only [State.setInode, Function.update_self, Function.update_idem]
      exact hlocked _ rfl rfl rfl rfl rfl

theorem Quiet.wp_iunlock (h : Quiet sb 𝒟 G base (ip :: held) (some ip) s) :
    wp (iunlock ip) InTrans (fun _ => Quiet sb 𝒟 G base (ip :: held) none) s := by
  simp only [iunlock, wp_bind, wp_get, Fs.setInode]
  split
  · rintro ⟨⟩
  · simp only [wp_modify]
    exact h.setInode (h.toHolding.setInode (h.lt ip) (h.ref ip) rfl (fun _ _ => rfl)
      fun j hj => by simp [Ne.symm hj]) (fun _ => rfl) (h.linked ip) (h.copy ip) (by rintro ⟨⟩)
        fun _ _ h => by cases h

theorem Quiet.wp_iunlockput (h : Quiet sb 𝒟 G base (ip :: held) (some ip) s) :
    wp (iunlockput sb ip) InTrans (fun _ => Quiet sb 𝒟 G base held none) s := by
  unfold iunlockput
  rw [wp_bind]
  exact wp_mono h.wp_iunlock fun _ t ht => ht.wp_iput

theorem Quiet.got (h : Quiet sb 𝒟 G base held locked s) (hlink : Linked sb s.disk inum)
    (hgot : Got s inum ip s') : Quiet sb 𝒟 G base (ip :: held) locked s' := by
  have hholding := h.toHolding.got hgot
  obtain ⟨-, ⟨hpos, -, rfl⟩ | ⟨hzero, -, rfl⟩⟩ := hgot
  · exact h.setInode hholding (fun _ => rfl) (fun _ => h.linked ip hpos) (fun _ => h.copy ip hpos)
      (fun hl => ⟨Nat.succ_pos _, (h.ready ip hl).2⟩) fun _ _ hl => hl
  · have hbase : base ip = 0 ∧ held.count ip = 0 := by
      have := h.ref ip
      omega
    refine h.setInode hholding (fun hpos => absurd hbase.1 (Nat.ne_of_gt hpos)) (fun _ => hlink)
      (fun _ => nofun) (fun hl => ?_) fun _ _ hl => hl
    -- a locked inode is in use
    exact absurd hzero (Nat.ne_of_gt (h.ready ip hl).1)

theorem Quiet.wp_iget (h : Quiet sb 𝒟 G base held locked s) (hlink : Linked sb s.disk inum) :
    wp (iget inum) InTrans (fun ip s' => Quiet sb 𝒟 G base (ip :: held) locked s' ∧
      (s'.inode ip).inum = inum ∧ s'.disk = s.disk) s :=
  wp_mono (Fs.wp_iget inum fun _ => nofun) fun _ _ hgot => ⟨h.got hlink hgot, hgot.inum_eq, hgot.disk⟩

theorem Quiet.adopt (h : Quiet sb 𝒟 G base (ip :: held) locked s)
    (hgood : G (dinodeAt sb s.disk (s.inode ip).inum)) :
    Quiet sb 𝒟 G (addRef base ip) held locked s := by
  refine ⟨h.toHolding.adopt, h.toClean, h.ready, fun j hj => ?_⟩
  by_cases hji : j = ip
  · rw [hji]
    exact hgood
  · rw [addRef, if_neg hji] at hj
    exact h.good j hj

theorem Quiet.disown (h : Quiet sb 𝒟 G (addRef base ip) held locked s) :
    Quiet sb 𝒟 G base (ip :: held) locked s := by
  refine ⟨h.toHolding.disown, h.toClean, h.ready, fun j hj => h.good j ?_⟩
  unfold addRef
  split
  · exact Nat.succ_pos _
  · exact hj

theorem Quiet.perm {held' : List Nat} (h : Quiet sb 𝒟 G base held locked s)
    (hperm : held.Perm held') : Quiet sb 𝒟 G base held' locked s :=
  ⟨h.toHolding.perm hperm, h.toClean, h.ready, h.good⟩

section Sealed

variable (hsealed : Sealed sb 𝒟)
include hsealed

theorem Quiet.dense (h : Quiet sb 𝒟 G base (ip :: held) (some ip) s) :
    (s.inode ip).copy.Dense s.disk := by
  have hlink := h.linked ip h.ref_pos
  rw [h.copy ip h.ref_pos (h.ready ip rfl).2]
  exact hsealed.noHole _ h.disk _ hlink.lt hlink.live

theorem Quiet.wp_readi (h : Quiet sb 𝒟 G base (ip :: held) (some ip) s) (fault : Nat → Bool)
    (off n : UInt32) :
    wp (readi sb ip fault off n) InTrans (fun _ => Quiet sb 𝒟 G base (ip :: held) (some ip)) s := by
  refine wp_mono (Fs.wp_readi fault off n (h.dense hsealed)) fun _ t ⟨ht, _⟩ => ?_
  rw [ht]
  exact h

/-- The references after a lookup: one more, if it has found an inode. -/
def QuietFound (sb : Superblock) (𝒟 : Disk → Prop) (G : Dinode → Prop) (base : Nat → Nat)
    (held : List Nat) (locked : Option Nat) (r : Option Nat) (s : State) : Prop :=
  match r with
  | none => Quiet sb 𝒟 G base held locked s
  | some ip => Quiet sb 𝒟 G base (ip :: held) locked s

theorem Quiet.wp_dirlookup (h : Quiet sb 𝒟 G base (ip :: held) (some ip) s)
    (hdir : (s.inode ip).copy.type = T_DIR) (name : Name) :
    wp (dirlookup sb ip name) InTrans
      (fun r => QuietFound sb 𝒟 G base (ip :: held) (some ip) (r.map Prod.fst)) s := by
  have hcopy := h.copy ip h.ref_pos (h.ready ip rfl).2
  have hlink := h.linked ip h.ref_pos
  refine wp_mono (Fs.wp_dirlookup name (h.dense hsealed) (absurd hdir) (fun _ => nofun)
    fun _ => nofun) fun r t ht => ?_
  cases r with
  | none =>
    rw [show t = s from ht]
    exact h
  | some found =>
    obtain ⟨k, hk, hused, -, hgot⟩ := ht
    rw [hcopy] at hk hused hgot
    exact h.got ((hsealed.tree _ h.disk).entries _ hlink (hcopy ▸ hdir) k hk hused) hgot

theorem Quiet.wp_namexFrom (nameiparent : Bool) (fuel : Nat)
    (h : Quiet sb 𝒟 G base (ip :: held) none s) (path : List UInt8) (name : Name) :
    wp (namexFrom sb nameiparent fuel ip path name) InTrans
      (fun r => QuietFound sb 𝒟 G base held none r.1) s := by
  induction fuel generalizing ip s path name with
  | zero => exact h
  | succ fuel ih =>
    unfold namexFrom
    split
    · split
      · rw [wp_bind]
        exact wp_mono h.wp_iput fun _ t ht => ht
      · exact h
    · rename_i name rest _
      rw [wp_bind]
      refine wp_mono h.wp_ilock fun _ t ht => ?_
      simp only [wp_bind, wp_get]
      rw [wp_ite]
      refine ⟨fun _ => ?_, fun hdir => ?_⟩
      · rw [wp_bind]
        exact wp_mono ht.wp_iunlockput fun _ u hu => hu
      rw [wp_ite]
      refine ⟨fun _ => ?_, fun _ => ?_⟩
      · rw [wp_bind]
        exact wp_mono ht.wp_iunlockput fun _ u hu => hu
      rw [wp_ite]
      refine ⟨fun _ => ?_, fun _ => ?_⟩
      · rw [wp_bind]
        exact wp_mono ht.wp_iunlock fun _ u hu => hu
      rw [wp_bind]
      refine wp_mono (ht.wp_dirlookup hsealed (not_not.mp hdir) name) fun r u hu => ?_
      cases r with
      | none =>
        have hu' : Quiet sb 𝒟 G base (ip :: held) (some ip) u := hu
        rw [wp_bind]
        exact wp_mono hu'.wp_iunlockput fun _ v hv => hv
      | some next =>
        have hu' : Quiet sb 𝒟 G base (next.1 :: ip :: held) (some ip) u := hu
        rw [wp_bind]
        exact wp_mono (hu'.perm (List.Perm.swap _ _ _)).wp_iunlockput fun _ v hv => ih hv rest name

/-- **`namei`** logs nothing. -/
theorem Quiet.wp_namei (h : Quiet sb 𝒟 G base held none s) {cwd : Option Nat}
    (hcwd : ∀ c, cwd = some c → 0 < (s.inode c).ref) (path : List UInt8) :
    wp (namei sb cwd path) InTrans (QuietFound sb 𝒟 G base held none) s := by
  simp only [namei, namex, wp_bind]
  split
  · rw [wp_bind]
    exact wp_mono (h.wp_iget (hsealed.tree _ h.disk).root) fun ip t ht =>
      ht.1.wp_namexFrom hsealed false _ path _
  · split
    · rintro ⟨⟩
    · rw [wp_bind]
      refine wp_mono (h.wp_idup (hcwd _ rfl)) ?_
      rintro ip t ⟨hip, ht, _⟩
      subst hip
      exact ht.wp_namexFrom hsealed false _ path _

end Sealed

end Quiet

end Xv6.Fs
