import Xv6.Fs.Path
import Xv6.Lib.Within

/-!
# References to in-memory inodes

Who has a reference to an inode is not recorded anywhere; here a running operation is given a
list of the references it holds.  `iget`, `idup` and `dirlookup` add to it, `iput` takes from it,
and whatever else an operation does leaves all counts and locks alone.  This holds on any disk.
-/

namespace Xv6.Fs

open ByteView Hoare

abbrev Any {ε : Type} (_ : ε) : Prop := True

/-- No reference count and no lock has changed. -/
def SameRefs (s s' : State) : Prop :=
  ∀ j, (s'.inode j).ref = (s.inode j).ref ∧ (s'.inode j).lock = (s.inode j).lock

instance : IsPreorder State SameRefs where
  refl _ _ := ⟨rfl, rfl⟩
  trans _ _ _ h h' j := ⟨(h' j).1.trans (h j).1, (h' j).2.trans (h j).2⟩

section Within

variable (sb : Superblock)

theorem within_setInode {ip : Nat} {f : Inode → Inode}
    (h : ∀ x, (f x).ref = x.ref ∧ (f x).lock = x.lock) : Within Any SameRefs (setInode ip f) := by
  refine Within.modify fun s j => ?_
  by_cases hj : j = ip
  · rw [hj, State.setInode_self]
    exact h _
  · rw [State.setInode_ne _ _ hj]
    exact ⟨rfl, rfl⟩

theorem within_bread (b : Nat) : Within Any SameRefs (bread b) :=
  Within.bind Within.get fun _ => Within.pure _

theorem within_logWrite (b : Nat) (v : Block) : Within Any SameRefs (logWrite b v) := by
  refine Within.bind Within.get fun s => ?_
  split
  · exact Within.fail trivial
  · exact Within.modify fun _ _ => ⟨rfl, rfl⟩

theorem within_beginOp : Within Any SameRefs beginOp := by
  refine Within.bind Within.get fun s => ?_
  split
  · exact Within.fail trivial
  · exact Within.modify fun _ _ => ⟨rfl, rfl⟩

theorem within_endOp : Within Any SameRefs endOp := by
  refine Within.bind Within.get fun s => ?_
  split
  · exact Within.fail trivial
  · exact Within.modify fun _ _ => ⟨rfl, rfl⟩
  · exact Within.modify fun _ _ => ⟨rfl, rfl⟩

theorem within_balloc : Within Any SameRefs (balloc sb) := by
  have hscan : ∀ b, Within Any SameRefs (ballocFrom sb b) := fun b =>
    Within.bind (within_bread _) fun _ => Within.findFirst (fun _ => Within.ite
      (Within.bind (within_logWrite _ _) fun _ => Within.bind
        (Within.bind (within_bread _) fun _ => within_logWrite _ _) fun _ => Within.pure _)
      (Within.pure _)) _ _
  refine Within.bind Within.get fun s => Within.bind (Within.modify fun _ _ => ⟨rfl, rfl⟩) fun _ =>
    Within.ite (Within.pure _) (Within.bind (Within.findFirst (fun _ => hscan _) _ _) fun _ =>
      Within.pure _)

theorem within_bfree (b : UInt32) : Within Any SameRefs (bfree sb b) :=
  Within.bind (within_bread _) fun _ => Within.ite (Within.fail trivial) (within_logWrite _ _)

theorem within_setAddr (ip : Nat) (k : Fin (NDIRECT + 1)) (a : UInt32) :
    Within Any SameRefs (setAddr ip k a) := within_setInode fun _ => ⟨rfl, rfl⟩

theorem within_addrOrAlloc (ip : Nat) (k : Fin (NDIRECT + 1)) :
    Within Any SameRefs (addrOrAlloc sb ip k) :=
  Within.bind Within.get fun _ => Within.ite
    (Within.bind (within_balloc sb) fun _ => Within.ite (Within.pure _)
      (Within.bind (within_setAddr _ _ _) fun _ => Within.pure _))
    (Within.pure _)

theorem within_bmap (ip bn : Nat) : Within Any SameRefs (bmap sb ip bn) := by
  unfold bmap
  split
  · exact within_addrOrAlloc sb _ _
  split
  · refine Within.bind (within_addrOrAlloc sb _ _) fun _ => Within.ite (Within.pure _)
      (Within.bind (within_bread _) fun _ => Within.ite (Within.bind (within_balloc sb) fun _ =>
        Within.ite (Within.pure _) (Within.bind (within_logWrite _ _) fun _ => Within.pure _))
        (Within.pure _))
  · exact Within.fail trivial

theorem within_iupdate (ip : Nat) : Within Any SameRefs (iupdate sb ip) :=
  Within.bind Within.get fun _ => Within.bind (within_bread _) fun _ => within_logWrite _ _

theorem within_ifree (inum : Nat) : Within Any SameRefs (ifree sb inum) :=
  Within.bind (within_bread _) fun _ => within_logWrite _ _

theorem within_itrunc (ip : Nat) : Within Any SameRefs (itrunc sb ip) := by
  refine Within.bind (Within.forRange (fun i => ?_) _ _) fun _ => Within.bind ?_ fun _ =>
    Within.bind (within_setInode fun _ => ⟨rfl, rfl⟩) fun _ => within_iupdate sb ip
  · split
    · exact Within.bind Within.get fun _ => Within.ite (Within.pure _)
        (Within.bind (within_bfree sb _) fun _ => within_setAddr _ _ _)
    · exact Within.pure _
  · exact Within.bind Within.get fun _ => Within.ite (Within.pure _)
      (Within.bind (within_bread _) fun _ => Within.bind
        (Within.forRange (fun _ => Within.ite (Within.pure _) (within_bfree sb _)) _ _) fun _ =>
          Within.bind (within_bfree sb _) fun _ => within_setAddr _ _ _)

theorem within_readi (ip : Nat) (fault : Nat → Bool) (off n : UInt32) :
    Within Any SameRefs (readi sb ip fault off n) := by
  have hbody : ∀ n v, Within Any SameRefs (readBody sb ip fault n v) := fun n v =>
    Within.ite (Within.bind (within_bmap sb _ _) fun _ => Within.ite (Within.pure _)
      (Within.bind (within_bread _) fun _ => Within.ite (Within.pure _) (Within.pure _)))
      (Within.pure _)
  exact Within.bind Within.get fun _ => Within.ite (Within.pure _)
    (Within.bind (Within.loop (hbody _) _ _) fun _ => Within.pure _)

end Within

/-! ### The references of an operation -/

/-- The references to each entry of `itable` are `base` and the ones that an operation holds;
    the operation has the lock of at most one inode, and no other lock is held. -/
structure Holding (base : Nat → Nat) (held : List Nat) (locked : Option Nat) (s : State) :
    Prop where
  lt : ∀ j, 0 < (s.inode j).ref → j < NINODE
  ref : ∀ j, (s.inode j).ref = base j + held.count j
  lock : ∀ j, (s.inode j).lock = decide (locked = some j)

section Holding

variable {sb : Superblock} {base : Nat → Nat} {held : List Nat} {locked : Option Nat}
  {s s' : State} {ip : Nat}

theorem Holding.ref_pos_of_base (h : Holding base held locked s) (hpos : 0 < base ip) :
    0 < (s.inode ip).ref := by
  rw [h.ref]
  omega

theorem Holding.same (h : Holding base held locked s) (hs : SameRefs s s') :
    Holding base held locked s' :=
  ⟨fun j hj => h.lt j ((hs j).1 ▸ hj), fun j => (hs j).1.trans (h.ref j),
    fun j => (hs j).2.trans (h.lock j)⟩

theorem Holding.wp_within {α : Type} {c : FsM α} (h : Holding base held locked s)
    (hc : Within Any SameRefs c) : wp c Any (fun _ => Holding base held locked) s :=
  wp_mono (hc s) fun _ _ hs => h.same hs

theorem Holding.setInode (h : Holding base held locked s) {x : Inode} {held' : List Nat}
    {locked' : Option Nat} (hlt : 0 < x.ref → ip < NINODE)
    (hself : x.ref = base ip + held'.count ip)
    (hlock : x.lock = decide (locked' = some ip))
    (hother : ∀ j, j ≠ ip → held'.count j = held.count j)
    (hother' : ∀ j, j ≠ ip → (locked' = some j ↔ locked = some j)) :
    Holding base held' locked' (s.setInode ip x) := by
  constructor <;> intro j <;> by_cases hj : j = ip
  · rw [hj, State.setInode_self]
    exact hlt
  · rw [State.setInode_ne _ _ hj]
    exact h.lt j
  · rw [hj, State.setInode_self, hself]
  · rw [State.setInode_ne _ _ hj, h.ref, hother j hj]
  · rw [hj, State.setInode_self, hlock]
  · rw [State.setInode_ne _ _ hj, h.lock]
    exact (decide_eq_decide.mpr (hother' j hj)).symm

theorem Holding.take (h : Holding base held locked s) {x : Inode} (hip : ip < NINODE)
    (href : x.ref = (s.inode ip).ref + 1) (hlock : x.lock = (s.inode ip).lock) :
    Holding base (ip :: held) locked (s.setInode ip x) := by
  refine h.setInode (fun _ => hip) ?_ (hlock.trans (h.lock ip)) (fun j hj => ?_) fun _ _ => Iff.rfl
  · rw [href, h.ref, List.count_cons_self]
    omega
  · exact List.count_cons_of_ne (Ne.symm hj)

theorem Holding.got {inum : Nat} (h : Holding base held locked s) (hgot : Got s inum ip s') :
    Holding base (ip :: held) locked s' := by
  obtain ⟨hip, ⟨-, -, rfl⟩ | ⟨hzero, -, rfl⟩⟩ := hgot
  · exact h.take hip rfl rfl
  · exact h.take hip (by rw [hzero]) rfl

theorem Holding.wp_iget (h : Holding base held locked s) (inum : Nat) :
    wp (iget inum) Any (fun ip => Holding base (ip :: held) locked) s :=
  wp_mono (Fs.wp_iget inum fun _ => trivial) fun _ _ hgot => h.got hgot

theorem Holding.wp_idup {E : Stop → Prop} (h : Holding base held locked s)
    (href : 0 < (s.inode ip).ref) :
    wp (idup ip) E (fun r s' => r = ip ∧ Holding base (ip :: held) locked s') s := by
  simp only [idup, wp_bind, Fs.setInode, wp_modify, wp_pure]
  exact ⟨trivial, h.take (h.lt ip href) rfl rfl⟩

theorem Holding.wp_ilock (h : Holding base held none s) :
    wp (ilock sb ip) Any (fun _ => Holding base held (some ip)) s := by
  have hlocked : ∀ x : Inode, x.ref = (s.inode ip).ref → x.lock = true →
      Holding base held (some ip) (s.setInode ip x) := fun x href hlock =>
    h.setInode (fun hx => h.lt ip (href ▸ hx)) (href.trans (h.ref ip))
      (by rw [hlock, decide_eq_true rfl]) (fun _ _ => rfl) fun j hj => by simp [Ne.symm hj]
  simp only [ilock, wp_bind, wp_get, Fs.setInode]
  split
  · trivial
  split
  · trivial
  simp only [wp_bind, wp_modify]
  split
  · exact hlocked _ rfl rfl
  · simp only [wp_bind, bread, wp_get, wp_pure, wp_modify]
    split
    · trivial
    · rw [wp_pure, State.setInode_self]
      have hidem : ∀ x y, (s.setInode ip x).setInode ip y = s.setInode ip y := fun x y => by
        simp only [State.setInode, Function.update_idem]
      rw [hidem]
      exact hlocked _ rfl rfl

theorem Holding.wp_iunlock (h : Holding base held (some ip) s) :
    wp (iunlock ip) Any (fun _ => Holding base held none) s := by
  simp only [iunlock, wp_bind, wp_get, Fs.setInode]
  split
  · trivial
  · simp only [wp_modify]
    exact h.setInode (h.lt ip) (h.ref ip) rfl (fun _ _ => rfl) fun j hj => by simp [Ne.symm hj]

theorem Holding.drop (h : Holding base (ip :: held) locked s) {x : Inode}
    (href : x.ref = (s.inode ip).ref - 1) (hlock : x.lock = (s.inode ip).lock) :
    Holding base held locked (s.setInode ip x) := by
  refine h.setInode (fun hx => h.lt ip (by omega)) ?_ (hlock.trans (h.lock ip)) (fun j hj => ?_)
    fun _ _ => Iff.rfl
  · rw [href, h.ref, List.count_cons_self]
    omega
  · exact (List.count_cons_of_ne (Ne.symm hj)).symm

/-- **`iput`** drops a reference, whether the inode is freed or not. -/
theorem Holding.wp_iput (h : Holding base (ip :: held) locked s) :
    wp (iput sb ip) Any (fun _ => Holding base held locked) s := by
  simp only [iput, wp_bind, wp_get]
  split
  · split
    · trivial
    rw [wp_bind]
    refine wp_mono (h.wp_within (within_itrunc sb ip)) fun _ t ht => ?_
    rw [wp_bind]
    refine wp_mono (ht.wp_within (within_setInode fun _ => ⟨rfl, rfl⟩)) fun _ u hu => ?_
    simp only [wp_bind, Fs.setInode, wp_modify]
    have hdrop : Holding base held locked
        (u.setInode ip { u.inode ip with ref := (u.inode ip).ref - 1 }) := hu.drop rfl rfl
    exact hdrop.wp_within (within_ifree sb _)
  · simp only [Fs.setInode, wp_modify]
    exact h.drop rfl rfl

theorem Holding.wp_iunlockput (h : Holding base (ip :: held) (some ip) s) :
    wp (iunlockput sb ip) Any (fun _ => Holding base held none) s := by
  unfold iunlockput
  rw [wp_bind]
  exact wp_mono h.wp_iunlock fun _ t ht => ht.wp_iput

def addRef (base : Nat → Nat) (ip j : Nat) : Nat := if j = ip then base j + 1 else base j

theorem addRef_comm (base : Nat → Nat) (i j : Nat) :
    addRef (addRef base i) j = addRef (addRef base j) i := by
  funext n
  unfold addRef
  split <;> split <;> rfl

theorem addRef_add_count (base : Nat → Nat) (held : List Nat) (ip j : Nat) :
    addRef base ip j + held.count j = base j + (ip :: held).count j := by
  unfold addRef
  split
  · rename_i hj
    rw [hj, List.count_cons_self]
    omega
  · rename_i hj
    rw [List.count_cons_of_ne (Ne.symm hj)]

theorem Holding.adopt (h : Holding base (ip :: held) locked s) :
    Holding (addRef base ip) held locked s :=
  ⟨h.lt, fun j => by rw [h.ref, addRef_add_count], h.lock⟩

theorem Holding.disown (h : Holding (addRef base ip) held locked s) :
    Holding base (ip :: held) locked s :=
  ⟨h.lt, fun j => by rw [h.ref, addRef_add_count], h.lock⟩

theorem Holding.perm {held' : List Nat} (h : Holding base held locked s)
    (hperm : held.Perm held') : Holding base held' locked s :=
  ⟨h.lt, fun j => by rw [h.ref, hperm.count_eq], h.lock⟩

/-! ### Looking up a path -/

/-- The references after a lookup: one more, if it has found an inode. -/
def Found (base : Nat → Nat) (held : List Nat) (locked : Option Nat) (r : Option Nat) (s : State) :
    Prop :=
  match r with
  | none => Holding base held locked s
  | some ip => Holding base (ip :: held) locked s

theorem Holding.wp_dirlookup (h : Holding base held locked s) (dp : Nat) (name : Name) :
    wp (dirlookup sb dp name) Any (fun r => Found base held locked (r.map Prod.fst)) s := by
  simp only [dirlookup, wp_bind, wp_get]
  split
  · trivial
  refine wp_findFirst (I := fun _ t => Holding base held locked t) _ h (fun k t _ _ ht => ?_)
    fun t ht => ht
  rw [wp_bind]
  refine wp_mono (ht.wp_within (within_readi sb _ _ _ _)) fun r u hu => ?_
  split
  · trivial
  split
  · exact hu
  split
  · rw [wp_bind]
    exact wp_mono (hu.wp_iget _) fun ip v hv => hv
  · exact hu

theorem Holding.wp_namexFrom (nameiparent : Bool) (fuel : Nat)
    (h : Holding base (ip :: held) none s) (path : List UInt8) (name : Name) :
    wp (namexFrom sb nameiparent fuel ip path name) Any
      (fun r => Found base held none r.1) s := by
  induction fuel generalizing ip s path name with
  | zero => exact h
  | succ fuel ih =>
    unfold namexFrom
    split
    · split
      · rw [wp_bind]
        exact wp_mono h.wp_iput fun _ t ht => ht
      · exact h
    rename_i name rest _
    rw [wp_bind]
    refine wp_mono h.wp_ilock fun _ t ht => ?_
    have hleave : wp (do iunlockput sb ip; return (none, name)) Any
        (fun r : Option Nat × Name => Found base held none r.1) t := by
      rw [wp_bind]
      exact wp_mono ht.wp_iunlockput fun _ u hu => hu
    simp only [wp_bind, wp_get]
    split
    · simpa only [wp_bind] using hleave
    split
    · simpa only [wp_bind] using hleave
    split
    · rw [wp_bind]
      exact wp_mono ht.wp_iunlock fun _ u hu => hu
    rw [wp_bind]
    refine wp_mono (ht.wp_dirlookup ip name) fun r u hu => ?_
    cases r with
    | none =>
      have hu' : Holding base (ip :: held) (some ip) u := hu
      rw [wp_bind]
      exact wp_mono hu'.wp_iunlockput fun _ v hv => hv
    | some next =>
      have hu' : Holding base (next.1 :: ip :: held) (some ip) u := hu
      rw [wp_bind]
      exact wp_mono (hu'.perm (List.Perm.swap _ _ _)).wp_iunlockput fun _ v hv => ih hv rest name

/-- **`namei`** takes a reference to the inode that it returns, and keeps no other. -/
theorem Holding.wp_namei (h : Holding base held none s) {cwd : Option Nat}
    (hcwd : ∀ c, cwd = some c → 0 < (s.inode c).ref) (path : List UInt8) :
    wp (namei sb cwd path) Any (Found base held none) s := by
  simp only [namei, namex, wp_bind]
  split
  · rw [wp_bind]
    exact wp_mono (h.wp_iget _) fun ip t ht => ht.wp_namexFrom false _ path _
  · split
    · trivial
    · rw [wp_bind]
      refine wp_mono (h.wp_idup (hcwd _ rfl)) ?_
      rintro ip t ⟨hip, ht⟩
      subst hip
      exact ht.wp_namexFrom false _ path _

end Holding

theorem wp_namei_root {E : Stop → Prop} {Q : Option Nat → State → Prop} {sb : Superblock}
    {s : State} (cwd : Option Nat) :
    wp (namei sb cwd [slash]) E Q s ↔ wp (iget ROOTINO) E (fun ip => Q (some ip)) s := by
  have hend : skipelem [slash] = none := rfl
  simp only [namei, namex, wp_bind, namexFrom, hend]
  rw [if_pos (show [slash].head? = some slash from rfl), wp_bind]
  exact Iff.rfl

end Xv6.Fs
