import Xv6.Process.Exec
import Xv6.Process.Spaces
import Xv6.Fs.References

/-!
# Processes and the references they have

A process has one reference, to its current directory.  The operations on processes take and
drop references through calls to the file system.  What these calls keep is a parameter here, a
`Discipline`, so that one proof about processes serves for any disk and for intact ones.
-/

namespace Xv6.Process

open ByteView Hoare Vm Fs

/-- **What calls to the file system keep.**  `H base held locked` is said of a state in which
    processes have the references `base` between them, the running operation has the references
    `held` and the lock of `locked`.  Calls stop with errors in `E` only.  An inode is `Fit` to be
    a current directory. -/
structure Discipline (sb : Superblock) (E : Fs.Stop → Prop) where
  H : (Nat → Nat) → List Nat → Option Nat → Fs.State → Prop
  Fit : Nat → Fs.State → Prop
  holding : ∀ {base held locked s}, H base held locked s → Holding base held locked s
  fit : ∀ {base held s ip}, H base held none s → 0 < base ip → Fit ip s
  adopt : ∀ {base held s ip}, H base (ip :: held) none s → Fit ip s → H (addRef base ip) held none s
  disown : ∀ {base held s ip}, H (addRef base ip) held none s → H base (ip :: held) none s
  wp_beginOp : ∀ {base held locked s}, H base held locked s →
    wp beginOp E (fun _ => H base held locked) s
  wp_endOp : ∀ {base held locked s}, H base held locked s →
    wp endOp E (fun _ => H base held locked) s
  wp_idup : ∀ {base held s ip}, H base held none s → 0 < base ip →
    wp (idup ip) E (fun r s' => r = ip ∧ H base (ip :: held) none s' ∧ Fit ip s') s
  wp_iput : ∀ {base held s ip}, H base (ip :: held) none s →
    wp (iput sb ip) E (fun _ => H base held none) s
  wp_ilock : ∀ {base held s ip}, H base (ip :: held) none s →
    wp (ilock sb ip) E (fun _ => H base (ip :: held) (some ip)) s
  wp_readi : ∀ {base held s ip} off n, H base (ip :: held) (some ip) s →
    wp (readi sb ip (fun _ => false) off n) E (fun _ => H base (ip :: held) (some ip)) s
  wp_iunlockput : ∀ {base held s ip}, H base (ip :: held) (some ip) s →
    wp (iunlockput sb ip) E (fun _ => H base held none) s
  wp_namei : ∀ {base s cwd} path, H base [] none s → (∀ c, cwd = some c → 0 < base c) →
    wp (namei sb cwd path) E (fun r => H base r.toList none) s
  wp_blocktest : ∀ {base s}, H base [] none s → wp blocktest E (fun _ => H base [] none) s
  wp_root : ∀ {base s cwd}, H base [] none s →
    wp (namei sb cwd [slash]) E (fun r s' => ∃ ip, r = some ip ∧ H base [ip] none s' ∧ Fit ip s') s

/-- The kernel stops where the file system may stop, or elsewhere. -/
def Stops (E : Fs.Stop → Prop) : Stop → Prop
  | .fs e => E e
  | _ => True

/-- The process is neither free nor a zombie. -/
def Proc.Live (x : Proc) : Prop := x.state ≠ .UNUSED ∧ x.state ≠ .ZOMBIE

/-- Every process is where it was, and is live if it was. -/
structure Calm (k k' : Kernel) : Prop where
  first : k'.first = k.first
  initproc : k'.initproc = k.initproc
  cwd : ∀ q, (k'.proc q).cwd = (k.proc q).cwd
  live : ∀ q, (k'.proc q).Live ↔ (k.proc q).Live

/-- The same, and nothing has happened in the file system. -/
structure Still (k k' : Kernel) : Prop extends Calm k k' where
  fs : k'.fs = k.fs

theorem Calm.refl (k : Kernel) : Calm k k := ⟨rfl, rfl, fun _ => rfl, fun _ => Iff.rfl⟩

theorem Calm.trans {k k' k'' : Kernel} (h : Calm k k') (h' : Calm k' k'') : Calm k k'' :=
  ⟨h'.first.trans h.first, h'.initproc.trans h.initproc, fun q => (h'.cwd q).trans (h.cwd q),
    fun q => (h'.live q).trans (h.live q)⟩

instance : IsPreorder Kernel Still where
  refl k := ⟨.refl k, rfl⟩
  trans _ _ _ h h' := ⟨h.toCalm.trans h'.toCalm, h'.fs.trans h.fs⟩

/-! ### What leaves the file system alone -/

section Within

variable {E : Fs.Stop → Prop} {k : Kernel}

theorem within_vm {α : Type} (c : VmM α) : Within (Stops E) Still (vm c) := by
  intro k
  rw [wp_vm]
  exact wp_mono (wp_any fun _ => trivial) fun _ m _ =>
    ⟨⟨rfl, rfl, fun _ => rfl, fun _ => Iff.rfl⟩, rfl⟩

theorem Still.setProc {p : Nat} {x : Proc} (hcwd : x.cwd = (k.proc p).cwd)
    (hlive : x.Live ↔ (k.proc p).Live) : Still k (k.setProc p x) := by
  refine ⟨⟨rfl, rfl, fun q => ?_, fun q => ?_⟩, rfl⟩ <;> by_cases hq : q = p
  · rw [hq, setProc_self, hcwd]
  · rw [setProc_ne hq]
  · rw [hq, setProc_self, hlive]
  · rw [setProc_ne hq]

theorem within_setProc {p : Nat} {f : Proc → Proc}
    (h : ∀ x, (f x).cwd = x.cwd ∧ ((f x).Live ↔ x.Live)) : Within (Stops E) Still (setProc p f) := by
  intro k
  rw [wp_setProc]
  exact Still.setProc (h _).1 (h _).2

theorem within_setTrapframe (p field v : Nat) :
    Within (Stops E) Still (Process.setTrapframe p field v) :=
  Within.bind Within.get fun _ => within_vm _

theorem within_copyTrapframe (np p : Nat) : Within (Stops E) Still (copyTrapframe np p) :=
  Within.bind Within.get fun _ => within_vm _

theorem within_growproc (img : Image) (p : Nat) (n : Int) :
    Within (Stops E) Still (growproc img p n) := by
  have hsz : ∀ sz, Within (Stops E) Still (setProc p fun x => x.setSz sz) := fun _ =>
    within_setProc fun _ => ⟨rfl, Iff.rfl⟩
  unfold growproc
  refine Within.bind Within.get fun k => Within.ite ?_ (Within.ite ?_ (Within.pure _))
  · refine Within.ite (Within.pure _) (Within.bind (within_vm _) fun sz => ?_)
    exact Within.ite (Within.pure _) (Within.bind (hsz sz) fun _ => Within.pure _)
  · refine Within.ite (Within.pure _) (Within.bind (within_vm _) fun sz => ?_)
    exact Within.bind (hsz sz) fun _ => Within.pure _

theorem within_userStore (p va : Nat) (b : UInt8) : Within (Stops E) Still (userStore p va b) := by
  refine Within.bind Within.get fun k => ?_
  split
  · exact Within.pure _
  · exact Within.when (within_vm _)

theorem within_pushStack (pagetable stackbase sp : Nat) (argv : List (List UInt8)) :
    Within (Stops E) Still (pushStack pagetable stackbase sp argv) := by
  have hpush : ∀ sp arg, Within (Stops E) Still (pushArg pagetable stackbase sp arg) := by
    intro sp arg
    unfold pushArg
    exact Within.ite (Within.pure _) (Within.bind (within_vm _) fun _ => Within.pure _)
  have heach : ∀ argv sp ustack,
      Within (Stops E) Still (pushEach (pushArg pagetable stackbase) argv sp ustack) := by
    intro argv
    induction argv with
    | nil => exact fun _ _ => Within.pure _
    | cons arg argv ih =>
      intro sp ustack
      rw [pushEach]
      refine Within.bind (hpush sp arg) fun r => ?_
      split
      · exact Within.pure _
      · exact ih _ _
  unfold pushStack pushArgs
  refine Within.bind (heach argv sp []) fun r => ?_
  split
  · exact Within.pure _
  · unfold pushUstack
    exact Within.ite (Within.pure _) (Within.bind (within_vm _) fun _ => Within.pure _)

theorem within_execCommit (img : Image) (p : Nat) (path : List UInt8) (elf : Elfhdr)
    (pagetable sz sp : Nat) :
    Within (Stops E) Still (execCommit img p path elf pagetable sz sp) := by
  unfold execCommit
  refine Within.bind (within_setTrapframe _ _ _) fun _ =>
    Within.bind (within_setProc fun _ => ⟨rfl, Iff.rfl⟩) fun _ => Within.bind Within.get fun _ => ?_
  exact Within.bind (within_setProc fun _ => ⟨rfl, Iff.rfl⟩) fun _ =>
    Within.bind (within_setTrapframe _ _ _) fun _ =>
      Within.bind (within_setTrapframe _ _ _) fun _ => within_vm _

theorem within_execStack (img : Image) (sb : Superblock) (p : Nat) (path : List UInt8)
    (argv : List (List UInt8)) (elf : Elfhdr) (pagetable sz : Nat) :
    Within (Stops E) Still (execStack img sb p path argv elf pagetable sz) := by
  have hbad : ∀ sz, Within (Stops E) Still (execBad img sb pagetable sz none) := fun _ =>
    Within.bind (Within.when (within_vm _)) fun _ => Within.pure _
  unfold execStack
  dsimp only
  refine Within.bind (within_vm _) fun sz1 => Within.ite (hbad _) ?_
  -- where the guard page and the stack are does not matter
  generalize u64sub sz1 ((USERSTACK + 1) * PGSIZE) = guard
  generalize u64sub sz1 (USERSTACK * PGSIZE) = stackbase
  refine Within.bind (within_vm _) fun _ => Within.bind (within_pushStack _ _ _ _) fun r => ?_
  split
  · exact hbad _
  · exact Within.bind (within_execCommit _ _ _ _ _ _ _) fun _ => Within.pure _

end Within

/-! ### `kexec` -/

section Kexec

variable {img : Image} {sb : Superblock} {E : Fs.Stop → Prop} (D : Discipline sb E)
  {base : Nat → Nat} {held : List Nat} {locked : Option Nat} {k₀ k k' : Kernel} {ip p : Nat}

/-- An operation that began in `k₀` has the references `held`. -/
structure Doing (D : Discipline sb E) (k₀ : Kernel) (base : Nat → Nat) (held : List Nat)
    (locked : Option Nat) (k : Kernel) : Prop where
  calm : Calm k₀ k
  files : D.H base held locked k.fs

variable {D}

theorem Doing.still (h : Doing D k₀ base held locked k) (hs : Still k k') :
    Doing D k₀ base held locked k' :=
  ⟨h.calm.trans hs.toCalm, hs.fs ▸ h.files⟩

theorem Doing.wp_within {α : Type} {c : KM α} (h : Doing D k₀ base held locked k)
    (hc : Within (Stops E) Still c) :
    wp c (Stops E) (fun _ => Doing D k₀ base held locked) k :=
  wp_mono (hc k) fun _ _ hs => h.still hs

theorem Doing.wp_fs {α : Type} {c : FsM α} {Q : α → Fs.State → Prop}
    (h : Doing D k₀ base held locked k) (hc : wp c E Q k.fs) :
    wp (fs c) (Stops E) (fun a k' => Calm k₀ k' ∧ Q a k'.fs) k := by
  rw [Process.wp_fs]
  exact wp_mono hc fun a s hs => ⟨h.calm.trans ⟨rfl, rfl, fun _ => rfl, fun _ => Iff.rfl⟩, hs⟩

theorem Doing.wp_readi (h : Doing D k₀ base (ip :: held) (some ip) k) (off n : UInt32) :
    wp (fs (readi sb ip (fun _ => false) off n)) (Stops E)
      (fun _ => Doing D k₀ base (ip :: held) (some ip)) k :=
  wp_mono (h.wp_fs (D.wp_readi off n h.files)) fun _ _ hk => ⟨hk.1, hk.2⟩

theorem Doing.wp_loadseg (h : Doing D k₀ base (ip :: held) (some ip) k) (pagetable va : Nat)
    (offset sz : UInt32) :
    wp (loadseg sb pagetable va ip offset sz) (Stops E)
      (fun _ => Doing D k₀ base (ip :: held) (some ip)) k := by
  unfold loadseg
  rw [wp_bind]
  refine wp_mono (wp_loop_keep (I := Doing D k₀ base (ip :: held) (some ip)) (fun v k h => ?_) _ _ h)
    fun _ _ hk => hk
  unfold loadBody
  split
  · rw [wp_bind]
    refine wp_mono (h.wp_within (within_vm _)) fun pa k₁ h₁ => ?_
    split
    · trivial
    rw [wp_bind]
    refine wp_mono (h₁.wp_readi _ _) fun r k₂ h₂ => ?_
    rw [wp_bind]
    refine wp_mono (h₂.wp_within (within_vm _)) fun _ k₃ h₃ => ?_
    rw [wp_ite]
    exact ⟨fun _ => h₃, fun _ => h₃⟩
  · exact h

theorem Doing.wp_phBody (h : Doing D k₀ base (ip :: held) (some ip) k) (pagetable phnum : Nat)
    (v : PhVars) :
    wp (phBody img sb pagetable ip phnum v) (Stops E)
      (fun _ => Doing D k₀ base (ip :: held) (some ip)) k := by
  unfold phBody
  split
  · rw [wp_bind]
    refine wp_mono (h.wp_readi _ _) fun ⟨n, hdr⟩ k₁ h₁ => ?_
    simp only [wp_ite, wp_pure, wp_bind]
    generalize getProghdr hdr = ph
    generalize u64 (ph.vaddr + ph.memsz) = top
    refine ⟨fun _ => h₁, fun _ => ⟨fun _ => h₁, fun _ => ⟨fun _ => h₁, fun _ => ⟨fun _ => h₁,
      fun _ => ⟨fun _ => h₁, fun _ => ?_⟩⟩⟩⟩⟩
    refine wp_mono (h₁.wp_within (within_vm _)) fun sz1 k₂ h₂ => ⟨fun _ => h₂, fun _ => ?_⟩
    exact wp_mono (h₂.wp_loadseg _ _ _ _) fun r k₃ h₃ => ⟨fun _ => h₃, fun _ => h₃⟩
  · exact h

theorem Doing.wp_close (h : Doing D k₀ base (ip :: held) (some ip) k) {α : Type} {c : KM α}
    {Q : α → Kernel → Prop}
    (hc : ∀ k', Doing D k₀ base held none k' → wp c (Stops E) Q k') :
    wp (do fs (iunlockput sb ip); fs endOp; c) (Stops E) Q k := by
  simp only [wp_bind]
  refine wp_mono (h.wp_fs (D.wp_iunlockput h.files)) fun _ k₁ hk₁ => ?_
  have h₁ : Doing D k₀ base held none k₁ := ⟨hk₁.1, hk₁.2⟩
  exact wp_mono (h₁.wp_fs (D.wp_endOp h₁.files)) fun _ k₂ hk₂ => hc k₂ ⟨hk₂.1, hk₂.2⟩

/-- **`kexec`** leaves every process where it is, and keeps no reference. -/
theorem wp_kexec_keeps (h : D.H base [] none k.fs)
    (hcwd : ∀ c, (k.proc p).cwd = some c → 0 < base c) (path : List UInt8)
    (argv : List (List UInt8)) :
    wp (kexec img sb p path argv) (Stops E) (fun _ => Doing D k base [] none) k := by
  have hbad : ∀ {ip pagetable sz : Nat} {k' : Kernel}, Doing D k base [ip] (some ip) k' →
      wp (execBad img sb pagetable sz (some ip)) (Stops E) (fun _ => Doing D k base [] none) k' := by
    intro ip pagetable sz k' h'
    unfold execBad
    rw [wp_bind]
    exact wp_mono (h'.wp_within (Within.when (within_vm _))) fun _ k₁ h₁ =>
      h₁.wp_close fun k₂ h₂ => h₂
  have h₀ : Doing D k base [] none k := ⟨.refl k, h⟩
  unfold kexec
  rw [wp_bind]
  refine wp_mono (h₀.wp_fs (D.wp_beginOp h)) fun _ k₁ hk₁ => ?_
  have h₁ : Doing D k base [] none k₁ := ⟨hk₁.1, hk₁.2⟩
  simp only [wp_bind, wp_get]
  refine wp_mono (h₁.wp_fs (D.wp_namei path h₁.files fun c hc => hcwd c (by
    rw [← hk₁.1.cwd, hc]))) fun r k₂ hk₂ => ?_
  cases r with
  | none =>
    have h₂ : Doing D k base [] none k₂ := ⟨hk₂.1, hk₂.2⟩
    rw [wp_bind]
    exact wp_mono (h₂.wp_fs (D.wp_endOp h₂.files)) fun _ k₃ hk₃ => ⟨hk₃.1, hk₃.2⟩
  | some ip =>
    have h₂ : Doing D k base [ip] none k₂ := ⟨hk₂.1, hk₂.2⟩
    rw [wp_bind]
    refine wp_mono (h₂.wp_fs (D.wp_ilock h₂.files)) fun _ k₃ hk₃ => ?_
    have h₃ : Doing D k base [ip] (some ip) k₃ := ⟨hk₃.1, hk₃.2⟩
    rw [wp_bind]
    refine wp_mono (h₃.wp_readi _ _) fun r k₄ h₄ => ?_
    split
    · exact hbad h₄
    split
    · exact hbad h₄
    rw [wp_bind]
    refine wp_mono (h₄.wp_within (within_vm _)) fun r k₅ h₅ => ?_
    cases r with
    | none => exact hbad h₅
    | some pagetable =>
      rw [wp_bind]
      refine wp_mono (wp_loop_keep (I := Doing D k base [ip] (some ip))
        (fun v _ h' => h'.wp_phBody _ _ v) _ _ h₅) fun v k₆ h₆ => ?_
      split
      · exact hbad h₆
      · exact h₆.wp_close fun k₇ h₇ => h₇.wp_within (within_execStack _ _ _ _ _ _ _ _)

end Kexec

/-! ### Where processes are -/

/-- The number of processes whose current directory is `j`. -/
def occupants (k : Kernel) (j : Nat) : Nat :=
  ((Finset.range NPROC).filter fun p => (k.proc p).cwd = some j).card

section Occupants

variable {k k' : Kernel} {p ip : Nat}

theorem occupants_congr (h : ∀ q < NPROC, (k'.proc q).cwd = (k.proc q).cwd) :
    occupants k' = occupants k := by
  funext j
  unfold occupants
  congr 1
  exact Finset.filter_congr fun q hq => by rw [h q (Finset.mem_range.mp hq)]

theorem occupants_enter (hp : p < NPROC) (hnone : (k.proc p).cwd = none)
    (hsome : (k'.proc p).cwd = some ip) (hother : ∀ q, q ≠ p → (k'.proc q).cwd = (k.proc q).cwd) :
    occupants k' = addRef (occupants k) ip := by
  funext j
  unfold addRef
  split
  · rename_i hj
    subst hj
    have hset : ((Finset.range NPROC).filter fun q => (k'.proc q).cwd = some j) =
        insert p ((Finset.range NPROC).filter fun q => (k.proc q).cwd = some j) := by
      ext q
      simp only [Finset.mem_filter, Finset.mem_range, Finset.mem_insert]
      by_cases hq : q = p
      · subst hq
        simp [hp, hsome]
      · simp [hq, hother q hq]
    unfold occupants
    rw [hset, Finset.card_insert_of_notMem (by simp [hnone])]
  · rename_i hj
    unfold occupants
    congr 1
    refine Finset.filter_congr fun q _ => ?_
    by_cases hq : q = p
    · subst hq
      simp [hnone, hsome, Ne.symm hj]
    · rw [hother q hq]

theorem occupants_pos (hp : p < NPROC) (hcwd : (k.proc p).cwd = some ip) : 0 < occupants k ip :=
  Finset.card_pos.mpr ⟨p, Finset.mem_filter.mpr ⟨Finset.mem_range.mpr hp, hcwd⟩⟩

end Occupants

/-- **References are balanced**: the file system counts the processes that are at each inode, and
    only live processes are anywhere.  Until the first process has returned from `forkret` there
    is only that process, and it is nowhere; from then on live processes are somewhere. -/
structure Balanced {sb : Superblock} {E : Fs.Stop → Prop} (D : Discipline sb E) (k : Kernel) :
    Prop where
  files : D.H (occupants k) [] none k.fs
  idle : ∀ p < NPROC, ¬ (k.proc p).Live → (k.proc p).cwd = none
  starting : k.first = true → ∀ p < NPROC,
    (k.proc p).cwd = none ∧ ((k.proc p).Live → k.initproc = some p)
  settled : k.first = false → ∀ p < NPROC, (k.proc p).Live → (k.proc p).cwd ≠ none

section Operations

variable {img : Image} {sb : Superblock} {E : Fs.Stop → Prop} {D : Discipline sb E}
  {k k' : Kernel} {p np : Nat}

theorem Balanced.calm (h : Balanced D k) (hk : Calm k k')
    (hfiles : D.H (occupants k) [] none k'.fs) : Balanced D k' := by
  refine ⟨?_, fun p hp hlive => ?_, fun hfirst p hp => ?_, fun hfirst p hp hlive => ?_⟩
  · rwa [occupants_congr fun q _ => hk.cwd q]
  · rw [hk.cwd]
    exact h.idle p hp (mt (hk.live p).mpr hlive)
  · rw [hk.cwd, hk.live, hk.initproc]
    exact h.starting (hk.first ▸ hfirst) p hp
  · rw [hk.cwd]
    exact h.settled (hk.first ▸ hfirst) p hp ((hk.live p).mp hlive)

theorem Balanced.still (h : Balanced D k) (hk : Still k k') : Balanced D k' :=
  h.calm hk.toCalm (hk.fs ▸ h.files)

theorem Balanced.doing (h : Balanced D k) (hk : Doing D k (occupants k) [] none k') :
    Balanced D k' :=
  h.calm hk.calm hk.files

theorem Balanced.doing_self (h : Balanced D k) : Doing D k (occupants k) [] none k :=
  ⟨.refl k, h.files⟩

theorem Balanced.cwd_pos (h : Balanced D k) (hp : p < NPROC) {c : Nat}
    (hcwd : (k.proc p).cwd = some c) : 0 < occupants k c ∧ k.first = false := by
  refine ⟨occupants_pos hp hcwd, ?_⟩
  by_contra hfirst
  have hnone := (h.starting (by simpa using hfirst) p hp).1
  rw [hcwd] at hnone
  cases hnone

theorem wp_kexec_balanced (h : Balanced D k) (hp : p < NPROC) (path : List UInt8)
    (argv : List (List UInt8)) :
    wp (kexec img sb p path argv) (Stops E) (fun _ => Balanced D) k :=
  wp_mono (wp_kexec_keeps h.files (fun _ hc => occupants_pos hp hc) path argv)
    fun _ _ hk => h.doing hk

/-! ### A free process is taken or given back -/

/-- Only the process `p` has changed. -/
structure Elsewhere (p : Nat) (k k' : Kernel) : Prop where
  first : k'.first = k.first
  initproc : k'.initproc = k.initproc
  fs : k'.fs = k.fs
  cwd : ∀ q, q ≠ p → (k'.proc q).cwd = (k.proc q).cwd
  live : ∀ q, q ≠ p → ((k'.proc q).Live ↔ (k.proc q).Live)

theorem Elsewhere.trans {k'' : Kernel} (h : Elsewhere p k k') (h' : Elsewhere p k' k'') :
    Elsewhere p k k'' :=
  ⟨h'.first.trans h.first, h'.initproc.trans h.initproc, h'.fs.trans h.fs,
    fun q hq => (h'.cwd q hq).trans (h.cwd q hq), fun q hq => (h'.live q hq).trans (h.live q hq)⟩

theorem Still.elsewhere (h : Still k k') (p : Nat) : Elsewhere p k k' :=
  ⟨h.first, h.initproc, h.fs, fun q _ => h.cwd q, fun q _ => h.live q⟩

theorem Elsewhere.setProc (k : Kernel) (p : Nat) (x : Proc) : Elsewhere p k (k.setProc p x) :=
  ⟨rfl, rfl, rfl, fun q hq => by rw [setProc_ne hq], fun q hq => by rw [setProc_ne hq]⟩

theorem Elsewhere.still (h : Elsewhere p k k') (hcwd : (k'.proc p).cwd = (k.proc p).cwd)
    (hlive : (k'.proc p).Live ↔ (k.proc p).Live) : Still k k' := by
  refine ⟨⟨h.first, h.initproc, fun q => ?_, fun q => ?_⟩, h.fs⟩ <;> by_cases hq : q = p
  · rw [hq, hcwd]
  · exact h.cwd q hq
  · rw [hq, hlive]
  · exact h.live q hq

/-- What `freeproc` leaves of a process. -/
structure Cleared (p : Nat) (k k' : Kernel) : Prop extends Elsewhere p k k' where
  nowhere : (k'.proc p).cwd = none
  unused : ¬ (k'.proc p).Live

theorem wp_freeproc_cleared :
    wp (freeproc img p) (Stops E) (fun _ => Cleared p k) k := by
  unfold freeproc
  simp only [wp_bind, wp_get]
  refine wp_mono (Within.when (R := Still) (within_vm _) k) fun _ k₁ h₁ => ?_
  rw [wp_setProc]
  refine wp_mono (Within.when (R := Still) (within_vm _) _) fun _ k₂ h₂ => ?_
  rw [wp_setProc]
  have h := (((h₁.elsewhere p).trans (.setProc k₁ p _)).trans (h₂.elsewhere p)).trans
    (.setProc k₂ p (k₂.proc p).clear)
  refine ⟨h, ?_, ?_⟩
  · rw [setProc_self]
    rfl
  · rw [setProc_self]
    exact fun hlive => hlive.1 rfl

/-- A free process is taken, or nothing has happened. -/
def Allocated (k : Kernel) (r : Option Nat) (k' : Kernel) : Prop :=
  match r with
  | none => Still k k'
  | some np => np < NPROC ∧ ¬ (k.proc np).Live ∧ Elsewhere np k k' ∧ (k'.proc np).cwd = none

theorem wp_allocFound_taken (hp : p < NPROC) (hfree : ¬ (k.proc p).Live)
    (hcwd : (k.proc p).cwd = none) :
    wp (allocFound img p) (Stops E) (Allocated k) k := by
  have hback : ∀ {k'}, Elsewhere p k k' → wp (do freeproc img p; return none) (Stops E)
      (Allocated k) k' := by
    intro k' hk'
    rw [wp_bind]
    refine wp_mono wp_freeproc_cleared fun _ k'' hk'' => ?_
    exact (hk'.trans hk''.toElsewhere).still (hk''.nowhere.trans hcwd.symm)
      (iff_of_false hk''.unused hfree)
  unfold allocFound allocpid
  simp only [wp_bind, wp_get, wp_modify, wp_pure, wp_setProc]
  have h₀ : Elsewhere p k (k.setNextpid (if k.nextpid + 1 < 2 ^ 31 then k.nextpid + 1 else 1)) :=
    ⟨rfl, rfl, rfl, fun _ _ => rfl, fun _ _ => Iff.rfl⟩
  revert h₀
  generalize hk₀ : k.setNextpid (if k.nextpid + 1 < 2 ^ 31 then k.nextpid + 1 else 1) = k₀
  intro h₀
  have hcwd₀ : (k₀.proc p).cwd = none := by
    rw [← hk₀]
    exact hcwd
  refine wp_mono (within_vm _ _) fun trapframe k₁ h₁ => ?_
  have hcwd₁ : (k₁.proc p).cwd = none := by
    rw [h₁.cwd, setProc_self]
    exact hcwd₀
  have htaken := (h₀.trans (.setProc k₀ p _)).trans (h₁.elsewhere p)
  cases trapframe with
  | none => exact hback (htaken.trans (.setProc k₁ p _))
  | some trapframe =>
    rw [wp_bind]
    refine wp_mono (within_vm _ _) fun pagetable k₂ h₂ => ?_
    rw [wp_bind, wp_setProc]
    have htaken' := ((htaken.trans (.setProc k₁ p _)).trans (h₂.elsewhere p)).trans
      (.setProc k₂ p ((k₂.proc p).setPagetable (pagetable.getD 0)))
    cases pagetable with
    | none => exact hback htaken'
    | some pagetable =>
      refine ⟨hp, hfree, htaken', ?_⟩
      rw [setProc_self]
      show (k₂.proc p).cwd = none
      rw [h₂.cwd, setProc_self]
      exact hcwd₁

theorem wp_allocproc_taken (hidle : ∀ p < NPROC, ¬ (k.proc p).Live → (k.proc p).cwd = none) :
    wp (allocproc img) (Stops E) (Allocated k) k := by
  unfold allocproc
  simp only [wp_bind, wp_get]
  split
  · exact refl_of Still k
  · rename_i p hfind
    have hp : p < NPROC := List.mem_range.mp (List.mem_of_find?_eq_some hfind)
    have hunused := List.find?_some hfind
    have hfree : ¬ (k.proc p).Live := fun hlive => hlive.1 (of_decide_eq_true hunused)
    exact wp_allocFound_taken hp hfree (hidle p hp hfree)

theorem wp_userinit_balanced (h : Balanced D k) (hfirst : k.first = true)
    (hinit : k.initproc = none) (initcode : Nat → UInt8) :
    wp (userinit img initcode) (Stops E) (fun _ => Balanced D) k := by
  have hdead : ∀ q < NPROC, ¬ (k.proc q).Live := fun q hq hlive => by
    have := (h.starting hfirst q hq).2 hlive
    rw [hinit] at this
    cases this
  have hpage : ∀ pagetable page, Within (Stops E) Still (userinitPage initcode pagetable page) := by
    intro pagetable page
    refine Within.bind (within_vm _) fun mem => ?_
    split
    · exact Within.fail trivial
    · exact Within.bind (within_vm _) fun _ => Within.bind (Within.when (within_vm _)) fun _ =>
        Within.bind (within_vm _) fun _ => Within.ite (Within.fail trivial) (Within.pure _)
  unfold userinit
  rw [wp_bind]
  refine wp_mono (wp_allocproc_taken h.idle) fun r k₁ h₁ => ?_
  cases r with
  | none => trivial
  | some p =>
    obtain ⟨hp, -, helse, hcwd⟩ := h₁
    simp only [wp_bind, wp_modify, wp_get]
    refine wp_mono (within_vm _ _) fun _ k₂ h₂ => ?_
    refine wp_mono (Within.forRange (hpage _) _ _ k₂) fun _ k₃ h₃ => ?_
    rw [wp_setProc]
    refine wp_mono (within_setTrapframe _ _ _ _) fun _ k₄ h₄ => ?_
    refine wp_mono (within_setTrapframe _ _ _ _) fun _ k₅ h₅ => ?_
    rw [wp_setProc]
    have hset : Still k₃ (k₃.setProc p ((k₃.proc p).setSz (4 * PGSIZE))) :=
      Still.setProc rfl Iff.rfl
    have hrest : Still (k₁.setInitproc p) k₅ := trans_of Still h₂
      (trans_of Still h₃ (trans_of Still hset (trans_of Still h₄ h₅)))
    have hnone : ∀ q < NPROC, (k₅.proc q).cwd = none := fun q hq => by
      rw [hrest.cwd]
      by_cases hqp : q = p
      · rw [hqp]
        exact hcwd
      · exact (helse.cwd q hqp).trans (h.idle q hq (hdead q hq))
    have hfirst₅ : k₅.first = true := hrest.first.trans (helse.first.trans hfirst)
    have hcwds : ∀ q, ((k₅.setProc p ((k₅.proc p).setState .RUNNABLE)).proc q).cwd =
        (k₅.proc q).cwd := fun q => by
      by_cases hqp : q = p
      · rw [hqp, setProc_self]
        rfl
      · rw [setProc_ne hqp]
    have hocc : occupants k₅ = occupants k := by
      refine occupants_congr fun q hq => ?_
      rw [hnone q hq, h.idle q hq (hdead q hq)]
    refine ⟨?_, fun q hq _ => (hcwds q).trans (hnone q hq), fun _ q hq => ⟨(hcwds q).trans (hnone q hq),
      fun hlive => ?_⟩, fun hfalse => ?_⟩
    · rw [occupants_congr fun q _ => hcwds q, hocc]
      show D.H _ _ _ k₅.fs
      rw [hrest.fs]
      show D.H _ _ _ k₁.fs
      rw [helse.fs]
      exact h.files
    · show k₅.initproc = some q
      rw [hrest.initproc]
      by_contra hne
      have hqp : q ≠ p := fun hqp => hne (by rw [hqp]; rfl)
      rw [setProc_ne hqp, hrest.live] at hlive
      exact hdead q hq ((helse.live q hqp).mp hlive)
    · exact absurd (hfirst₅.symm.trans hfalse) (by decide)

/-! ### Processes move -/

theorem Balanced.enter {ip : Nat} (h : Balanced D k)
    (hstay : ∀ q, q ≠ p → (k'.proc q).cwd = (k.proc q).cwd)
    (hlive : ∀ q, q ≠ p → ((k'.proc q).Live ↔ (k.proc q).Live))
    (hself : (k'.proc p).cwd = some ip) (hlive' : (k'.proc p).Live)
    (hfirst : k'.first = false) (hsettled : ∀ q < NPROC, q ≠ p → (k.proc q).Live →
      (k.proc q).cwd ≠ none)
    (hfiles : D.H (occupants k') [] none k'.fs) : Balanced D k' := by
  refine ⟨hfiles, fun q hq hdead => ?_, fun hcontra => ?_, fun _ q hq hq' => ?_⟩
  · have hqp : q ≠ p := fun hqp => hdead (hqp ▸ hlive')
    rw [hstay q hqp]
    exact h.idle q hq (mt (hlive q hqp).mpr hdead)
  · exact absurd (hcontra.symm.trans hfirst) nofun
  · by_cases hqp : q = p
    · rw [hqp, hself]
      exact nofun
    · rw [hstay q hqp]
      exact hsettled q hq hqp ((hlive q hqp).mp hq')

theorem wp_kfork_balanced (h : Balanced D k) (hp : p < NPROC) :
    wp (kfork img p) (Stops E) (fun _ => Balanced D) k := by
  unfold kfork
  rw [wp_bind]
  refine wp_mono (wp_allocproc_taken h.idle) fun r k₁ h₁ => ?_
  cases r with
  | none => exact h.still h₁
  | some np =>
    obtain ⟨hnp, hfree, helse, hnone⟩ := h₁
    simp only [wp_bind, wp_get]
    refine wp_mono (within_vm _ _) fun r k₂ h₂ => ?_
    rw [wp_ite]
    refine ⟨fun _ => ?_, fun _ => ?_⟩
    · rw [wp_bind]
      refine wp_mono wp_freeproc_cleared fun _ k₃ h₃ => ?_
      refine h.still (((helse.trans (h₂.elsewhere np)).trans h₃.toElsewhere).still
        (h₃.nowhere.trans (h.idle np hnp hfree).symm) (iff_of_false h₃.unused hfree))
    simp only [wp_bind, wp_setProc]
    refine wp_mono (within_copyTrapframe _ _ _) fun _ k₃ h₃ => ?_
    refine wp_mono (within_setTrapframe _ _ _ _) fun _ k₄ h₄ => ?_
    have hset : Still k₂ (k₂.setProc np ((k₂.proc np).setSz (k₁.proc p).sz)) :=
      Still.setProc rfl Iff.rfl
    have hrest : Still k₁ k₄ :=
      trans_of Still h₂ (trans_of Still hset (trans_of Still h₃ h₄))
    have htaken : Elsewhere np k k₄ := helse.trans (hrest.elsewhere np)
    split
    · trivial
    rename_i c hc
    have hpnp : p ≠ np := fun heq => by
      rw [heq, hnone] at hc
      cases hc
    rw [helse.cwd p hpnp] at hc
    obtain ⟨hpos, hfirst⟩ := h.cwd_pos hp hc
    rw [wp_bind, Process.wp_fs]
    have hfiles := h.files
    rw [← htaken.fs] at hfiles
    refine wp_mono (D.wp_idup hfiles hpos) ?_
    rintro r s₅ ⟨hr, hs₅, hfit⟩
    subst hr
    simp only [wp_bind, wp_setProc, wp_pure]
    generalize hk₆ : ((((k₄.setFs s₅).setProc np _).setProc np _).setProc np _) = k₆
    have hother : ∀ q, q ≠ np → k₆.proc q = k₄.proc q := fun q hq => by
      rw [← hk₆, setProc_ne hq, setProc_ne hq, setProc_ne hq]
      rfl
    have hself : (k₆.proc np).cwd = some r ∧ (k₆.proc np).state = .RUNNABLE := by
      rw [← hk₆, setProc_self, setProc_self, setProc_self]
      exact ⟨rfl, rfl⟩
    have hcwds : ∀ q, q ≠ np → (k₆.proc q).cwd = (k.proc q).cwd := fun q hq =>
      (congrArg Proc.cwd (hother q hq)).trans (htaken.cwd q hq)
    refine h.enter hcwds (fun q hq => ?_) hself.1 ⟨?_, ?_⟩ ?_ (fun q hq _ => h.settled hfirst q hq) ?_
    · rw [hother q hq]
      exact htaken.live q hq
    · rw [hself.2]
      decide
    · rw [hself.2]
      decide
    · rw [← hk₆]
      exact htaken.first.trans hfirst
    · rw [occupants_enter hnp (h.idle np hnp hfree) hself.1 hcwds, ← hk₆]
      exact D.adopt hs₅ hfit

theorem within_wakeup (me : Nat) (chan : Option Nat) : Within (Stops E) Still (wakeup me chan) := by
  refine Within.forRange (fun q k => ?_) _ _
  simp only [wp_bind, wp_get, wp_when, wp_setProc]
  refine ⟨fun hq => Still.setProc rfl ?_, fun _ => refl_of Still k⟩
  simp [Proc.Live, hq.2.1]

theorem within_reparent (p : Nat) : Within (Stops E) Still (reparent p) := by
  refine Within.forRange (fun pp => Within.bind Within.get fun k => Within.when ?_) _ _
  exact Within.bind (within_setProc fun _ => ⟨rfl, Iff.rfl⟩) fun _ => within_wakeup _ _

theorem occupants_leave {ip : Nat} (hp : p < NPROC) (hcwd : (k.proc p).cwd = some ip)
    (hnone : (k'.proc p).cwd = none) (hother : ∀ q, q ≠ p → (k'.proc q).cwd = (k.proc q).cwd) :
    occupants k = addRef (occupants k') ip :=
  occupants_enter hp hnone hcwd fun q hq => (hother q hq).symm

theorem wp_kexit_balanced (h : Balanced D k) (hp : p < NPROC) (status : UInt32) : wp (kexit sb p status) (Stops E) (fun _ => Balanced D) k := by
  unfold kexit
  simp only [wp_bind, wp_get]
  split
  · trivial
  rw [wp_bind]
  refine wp_mono (h.doing_self.wp_fs (D.wp_beginOp h.files)) ?_
  rintro _ k₁ ⟨hcalm₁, h₁⟩
  split
  · trivial
  rename_i c hc
  have hfirst := (h.cwd_pos hp hc).2
  let away : Kernel := k.setProc p ((k.proc p).setCwd none)
  have haway : occupants k = addRef (occupants away) c :=
    occupants_leave hp hc (by simp [away]; rfl) fun q hq => by simp only [away, setProc_ne hq]
  rw [haway] at h₁
  have hd₁ : Doing D k (occupants away) [c] none k₁ := ⟨hcalm₁, D.disown h₁⟩
  simp only [wp_bind]
  refine wp_mono (hd₁.wp_fs (D.wp_iput hd₁.files)) ?_
  rintro _ k₂ ⟨hcalm₂, h₂⟩
  have hd₂ : Doing D k (occupants away) [] none k₂ := ⟨hcalm₂, h₂⟩
  refine wp_mono (hd₂.wp_fs (D.wp_endOp h₂)) ?_
  rintro _ k₃ ⟨hcalm₃, h₃⟩
  rw [wp_setProc]
  refine wp_mono (within_reparent _ _) fun _ k₄ h₄ => ?_
  rw [wp_get]
  refine wp_mono (within_wakeup _ _ _) fun _ k₅ h₅ => ?_
  rw [wp_setProc]
  have hrest := trans_of Still h₄ h₅
  generalize hk₆ : k₅.setProc p _ = k₆
  have hself : (k₆.proc p).cwd = none ∧ ¬ (k₆.proc p).Live := by
    rw [← hk₆, setProc_self]
    refine ⟨?_, fun hz => hz.2 rfl⟩
    show (k₅.proc p).cwd = none
    rw [hrest.cwd, setProc_self]
    rfl
  have hcwds : ∀ q, q ≠ p → (k₆.proc q).cwd = (k.proc q).cwd := fun q hq => by
    rw [← hk₆, setProc_ne hq, hrest.cwd, setProc_ne hq, hcalm₃.cwd]
  have hlives : ∀ q, q ≠ p → ((k₆.proc q).Live ↔ (k.proc q).Live) := fun q hq => by
    rw [← hk₆, setProc_ne hq, hrest.live, setProc_ne hq, hcalm₃.live]
  have hfirst₆ : k₆.first = false := by
    rw [← hk₆]
    exact hrest.first.trans (hcalm₃.first.trans hfirst)
  refine ⟨?_, fun q hq hdead => ?_, fun hcontra => ?_, fun _ q hq hq' => ?_⟩
  · have hocc : occupants k₆ = occupants away := occupants_congr fun q _ => by
      by_cases hqp : q = p
      · rw [hqp, hself.1]
        simp [away]
        rfl
      · rw [hcwds q hqp]
        simp only [away, setProc_ne hqp]
    rw [hocc, ← hk₆]
    show D.H _ _ _ k₅.fs
    rw [hrest.fs]
    exact h₃
  · by_cases hqp : q = p
    · rw [hqp, hself.1]
    · rw [hcwds q hqp]
      exact h.idle q hq (mt (hlives q hqp).mpr hdead)
  · exact absurd (hcontra.symm.trans hfirst₆) (by decide)
  · have hqp : q ≠ p := fun hqp => hself.2 (hqp ▸ hq')
    rw [hcwds q hqp]
    exact h.settled hfirst q hq ((hlives q hqp).mp hq')

theorem wp_kwait_balanced (h : Balanced D k) (hlive : (k.proc p).Live) (addr : Nat) :
    wp (kwait img p addr) (Stops E) (fun _ => Balanced D) k := by
  have hscan : ∀ pp < NPROC, ∀ k', Still k k' →
      wp (waitScan img p addr pp) (Stops E) (fun _ => Still k) k' := by
    intro pp hpp k' hk'
    have hxstate : ∀ xstate, Within (Stops E) Still (xstateFails p addr xstate) := fun xstate => by
      unfold xstateFails
      exact Within.ite (Within.bind Within.get fun _ => Within.bind (within_vm _) fun _ =>
        Within.pure _) (Within.pure _)
    unfold waitScan
    simp only [wp_bind, wp_get]
    split
    · exact hk'
    rw [wp_ite]
    refine ⟨fun hzombie => ?_, fun _ => hk'⟩
    rw [wp_bind]
    refine wp_mono (hxstate _ k') fun failed k₁ h₁ => ?_
    have hk₁ := trans_of Still hk' h₁
    split
    · exact hk₁
    rw [wp_bind, wp_setProc, wp_bind]
    refine wp_mono wp_freeproc_cleared fun _ k₂ h₂ => ?_
    have hdead : ¬ (k.proc pp).Live := fun hl => ((hk'.live pp).mpr hl).2 hzombie
    exact ((hk₁.elsewhere pp).trans ((Elsewhere.setProc k₁ pp _).trans h₂.toElsewhere)).still
      (h₂.nowhere.trans (h.idle pp hpp hdead).symm) (iff_of_false h₂.unused hdead)
  unfold kwait
  rw [wp_bind]
  refine wp_findFirst (I := fun _ => Still k) _ (refl_of Still k)
    (fun pp k' _ hpp hk' => wp_mono (hscan pp (by omega) k' hk') fun r k'' hk'' => ?_)
    fun k' hk' => ?_
  · cases r with
    | none => exact hk''
    | some r => exact h.still hk''
  · simp only [wp_bind, wp_get]
    split
    · exact h.still hk'
    · rw [wp_bind, wp_setProc]
      have hsleep : Still k' (k'.setProc p (((k'.proc p).setChan (some p)).setState .SLEEPING)) :=
        Still.setProc rfl (iff_of_true (by simp [Proc.Live]) ((hk'.live p).mpr hlive))
      exact h.still (trans_of Still hk' hsleep)

theorem wp_forkret_balanced (h : Balanced D k) (hp : p < NPROC) (hlive : (k.proc p).Live) :
    wp (forkret img sb p) (Stops E) (fun _ => Balanced D) k := by
  simp only [forkret, wp_bind, wp_get, wp_when]
  refine ⟨fun hfirst => ?_, fun _ => h⟩
  refine wp_mono (h.doing_self.wp_fs (D.wp_root h.files)) ?_
  rintro r k₁ ⟨hcalm, ip, hr, hs, hfit⟩
  subst hr
  rw [wp_setProc]
  generalize hk₂ : k₁.setProc p _ = k₂
  have hself : (k₂.proc p).cwd = some ip := by
    rw [← hk₂, setProc_self]
    rfl
  have hother : ∀ q, q ≠ p → k₂.proc q = k₁.proc q := fun q hq => by
    rw [← hk₂, setProc_ne hq]
  have hocc : occupants k₂ = addRef (occupants k) ip :=
    occupants_enter hp (h.starting hfirst p hp).1 hself fun q hq => by rw [hother q hq, hcalm.cwd]
  have hfiles : D.H (occupants k₂) [] none k₂.fs := by
    rw [hocc, ← hk₂]
    exact D.adopt hs hfit
  refine wp_mono (wp_kexec_keeps hfiles (fun c hc => occupants_pos hp hc) _ _) fun r k₃ h₃ => ?_
  rw [wp_ite]
  refine ⟨fun _ => trivial, fun _ => ?_⟩
  rw [wp_modify]
  have hcwds : ∀ q, (k₃.proc q).cwd = (k₂.proc q).cwd := h₃.calm.cwd
  have honly : ∀ q < NPROC, q ≠ p → ¬ (k.proc q).Live := fun q hq hqp hq' => by
    have hqi := (h.starting hfirst q hq).2 hq'
    rw [(h.starting hfirst p hp).2 hlive] at hqi
    exact hqp (Option.some.inj hqi).symm
  refine h.enter (fun q hq => ?_) (fun q hq => ?_)
    ((hcwds p).trans hself) ?_ rfl (fun q hq hqp hq' => absurd hq' (honly q hq hqp)) ?_
  · show (k₃.proc q).cwd = _
    rw [hcwds, hother q hq, hcalm.cwd]
  · show (k₃.proc q).Live ↔ _
    rw [h₃.calm.live, hother q hq, hcalm.live]
  · show (k₃.proc p).Live
    rw [h₃.calm.live, ← hk₂, setProc_self]
    exact (hcalm.live p).mpr hlive
  · have hcount : occupants { k₃ with first := false } = occupants k₂ :=
      occupants_congr fun q _ => hcwds q
    rw [hcount]
    exact h₃.files

/-- **`chdir`**, to an inode that may be a current directory. -/
theorem wp_chdir_balanced (h : Balanced D k) (hp : p < NPROC) (hlive : (k.proc p).Live)
    (path : List UInt8)
    (hfit : ∀ ip s', namei sb (k.proc p).cwd path k.fs = .ok (some ip, s') → D.Fit ip s') :
    wp (chdir sb p path) (Stops E) (fun _ => Balanced D) k := by
  simp only [chdir, wp_bind, wp_get]
  have hnamei := wp_run (D.wp_namei path h.files fun c hc => occupants_pos hp hc)
  refine wp_mono (h.doing_self.wp_fs hnamei) ?_
  rintro r k₁ ⟨hcalm, hr, h₁⟩
  cases r with
  | none => exact h.doing ⟨hcalm, h₁⟩
  | some ip =>
    rw [wp_bind]
    have hd₁ : Doing D k (addRef (occupants k) ip) [] none k₁ :=
      ⟨hcalm, D.adopt h₁ (hfit ip _ hr)⟩
    refine wp_mono (hd₁.wp_fs (D.wp_beginOp hd₁.files)) ?_
    rintro _ k₂ ⟨hcalm₂, h₂⟩
    split
    · trivial
    rename_i c hc
    have hfirst := (h.cwd_pos hp hc).2
    let away : Kernel := k.setProc p ((k.proc p).setCwd none)
    have hstay : ∀ q, q ≠ p → (away.proc q).cwd = (k.proc q).cwd := fun q hq => by
      simp only [away, setProc_ne hq]
    have hnone : (away.proc p).cwd = none := by
      simp only [away, setProc_self]
      rfl
    rw [occupants_leave hp hc hnone hstay, addRef_comm] at h₂
    have hd₂ : Doing D k (addRef (occupants away) ip) [c] none k₂ := ⟨hcalm₂, D.disown h₂⟩
    simp only [wp_bind]
    refine wp_mono (hd₂.wp_fs (D.wp_iput hd₂.files)) ?_
    rintro _ k₃ ⟨hcalm₃, h₃⟩
    rw [wp_setProc, Process.wp_fs]
    refine wp_mono (D.wp_endOp h₃) fun _ s₄ h₄ => ?_
    rw [wp_pure]
    generalize hk₄ : (k₃.setProc p _).setFs s₄ = k₄
    have hself : (k₄.proc p).cwd = some ip ∧ ((k₄.proc p).Live ↔ (k₃.proc p).Live) := by
      rw [← hk₄, setFs_proc, setProc_self]
      exact ⟨rfl, Iff.rfl⟩
    have hother : ∀ q, q ≠ p → k₄.proc q = k₃.proc q := fun q hq => by
      rw [← hk₄, setFs_proc, setProc_ne hq]
    have hcwds : ∀ q, q ≠ p → (k₄.proc q).cwd = (k.proc q).cwd := fun q hq => by
      rw [hother q hq, hcalm₃.cwd]
    refine h.enter hcwds (fun q hq => ?_) hself.1 ?_ ?_ (fun q hq _ => h.settled hfirst q hq) ?_
    · rw [hother q hq, hcalm₃.live]
    · exact hself.2.mpr ((hcalm₃.live p).mpr hlive)
    · rw [← hk₄]
      exact hcalm₃.first.trans hfirst
    · rw [occupants_enter hp hnone hself.1 fun q hq => (hcwds q hq).trans (hstay q hq).symm, ← hk₄]
      exact h₄

theorem within_kkill (pid : Int) : Within (Stops E) Still (kkill pid) := by
  refine Within.bind Within.get fun k => ?_
  split
  · exact Within.pure _
  · refine Within.bind (within_setProc fun x => ⟨rfl, ?_⟩) fun _ => Within.pure _
    simp only [Proc.Live, Proc.setState_state]
    split
    · rename_i hs
      simp [hs]
    · exact Iff.rfl

end Operations

end Xv6.Process
