import Xv6.Process.System
import Xv6.Process.Discipline

/-!
# References over whole runs

The linked system calls as a transition system, and the invariant that references are balanced
along its runs, for any discipline of the file system.  That every reference count is the number
of processes at the inode is the case of an arbitrary disk.
-/

namespace Xv6.Process

open ByteView Hoare Vm Fs Transition Function

/-- The system calls that reach the file system or the process table, and what else happens to
    processes. -/
inductive Syscall where
  | op (o : Op)
  /-- `write` to descriptor 3. -/
  | blocktest

section System

variable (img : Image) (sb : Superblock)

def execCall : Syscall → KM Unit
  | .op o => exec img sb o
  | .blocktest => fs blocktest

/-- A complete call. -/
def stepCall (k : Kernel) (c : Syscall) : Outcome Stop Kernel :=
  match execCall img sb c k with
  | .ok (_, k') => .done k'
  | .error (.fs .asleep) => .blocked
  | .error e => .fail e

/-- `userinit` is called once, at boot, and nothing happens in the file system but for what the
    calls do. -/
def allowedCall (k : Kernel) : Syscall → Bool
  | .op (.userinit _) => k.first && k.initproc.isNone
  | .op (.files _) => false
  | .op o => allowed k o
  | .blocktest => true

variable {img sb} {E : Fs.Stop → Prop} {D : Discipline sb E} {k k' k₀ : Kernel} {c : Syscall}
  {p : Nat}

theorem running_live (h : running k p = true) : p < NPROC ∧ (k.proc p).Live := by
  obtain ⟨hp, hs⟩ := running_iff.mp h
  exact ⟨hp, by simp [hs], by simp [hs]⟩

/-- A call of `chdir` that succeeds goes to an inode that may be a current directory. -/
def ChdirFits (D : Discipline sb E) (k : Kernel) : Syscall → Prop
  | .op (.chdir p path) =>
    ∀ ip s', namei sb (k.proc p).cwd path k.fs = .ok (some ip, s') → D.Fit ip s'
  | _ => True

/-- **Every call keeps references balanced.** -/
theorem wp_execCall (h : Balanced D k) (hok : allowedCall k c = true) (hfit : ChdirFits D k c) :
    wp (execCall img sb c) (Stops E) (fun _ => Balanced D) k := by
  have hstill : ∀ {α : Type} {c : KM α}, Within (Stops E) Still c →
      wp (do let _ ← c) (Stops E) (fun _ => Balanced D) k := fun hc => by
    rw [wp_bind]
    exact wp_mono (hc k) fun _ _ hk => h.still hk
  cases c with
  | blocktest =>
    exact wp_mono (h.doing_self.wp_fs (D.wp_blocktest h.files)) fun _ _ hk => h.doing ⟨hk.1, hk.2⟩
  | op o =>
    cases o with
    | userinit initcode =>
      simp only [allowedCall, Bool.and_eq_true, Option.isNone_iff_eq_none] at hok
      exact wp_userinit_balanced h hok.1 hok.2 initcode
    | forkret p =>
      obtain ⟨hp, hlive⟩ := running_live hok
      exact wp_forkret_balanced h hp hlive
    | growproc p n => exact hstill (within_growproc img p n)
    | kfork p =>
      simp only [execCall, exec, wp_bind]
      exact wp_kfork_balanced h (running_live hok).1
    | kexec p path argv =>
      simp only [allowedCall, allowed, Bool.and_eq_true] at hok
      simp only [execCall, exec, wp_bind]
      exact wp_kexec_balanced h (running_live hok.1).1 path argv
    | chdir p path =>
      obtain ⟨hp, hlive⟩ := running_live hok
      simp only [execCall, exec, wp_bind]
      exact wp_chdir_balanced h hp hlive path hfit
    | kexit p status => exact wp_kexit_balanced h (running_live hok).1 status
    | kwait p addr =>
      simp only [execCall, exec, wp_bind]
      exact wp_kwait_balanced h (running_live hok).2 addr
    | kkill pid => exact hstill (within_kkill pid)
    | schedule p =>
      obtain ⟨-, hs⟩ := of_decide_eq_true hok
      exact h.still (Still.setProc rfl (iff_of_true (by simp [Proc.Live]) (by simp [Proc.Live, hs])))
    | yield p =>
      exact h.still (Still.setProc rfl (iff_of_true (by simp [Proc.Live]) (running_live hok).2))
    | store p va b => exact wp_mono (within_userStore p va b k) fun _ _ hk => h.still hk
    | files s => exact absurd hok (by simp [allowedCall])

theorem stepCall_balanced (h : Balanced D k) (hok : allowedCall k c = true)
    (hfit : ChdirFits D k c) (hs : stepCall img sb k c = .done k') : Balanced D k' := by
  unfold stepCall at hs
  split at hs
  · rename_i hexec
    cases hs
    exact wp_ok (wp_execCall h hok hfit) hexec
  · cases hs
  · cases hs

theorem stepCall_stops (h : Balanced D k) (hok : allowedCall k c = true) (hfit : ChdirFits D k c)
    {e : Stop} (hs : stepCall img sb k c = .fail e) : Stops E e := by
  unfold stepCall at hs
  split at hs
  · cases hs
  · cases hs
  · rename_i hexec
    cases hs
    exact wp_error (wp_execCall h hok hfit) hexec

/-- The kernel before `userinit`: there is no process, and no inode is in use. -/
structure Fresh (k : Kernel) : Prop where
  first : k.first = true
  initproc : k.initproc = none
  proc : ∀ p < NPROC, (k.proc p).state = .UNUSED ∧ (k.proc p).cwd = none
  inode : ∀ j, (k.fs.inode j).ref = 0 ∧ (k.fs.inode j).lock = false

/-- The kernel after `forkret`: process `p` is in the root directory, `ip`, and there is no other
    process. -/
structure Started (sb : Superblock) (p ip : Nat) (k : Kernel) : Prop where
  first : k.first = false
  lt : p < NPROC
  live : (k.proc p).Live
  cwd : (k.proc p).cwd = some ip
  others : ∀ q < NPROC, q ≠ p → ¬ (k.proc q).Live ∧ (k.proc q).cwd = none
  root : ip < NINODE ∧ (k.fs.inode ip).inum = ROOTINO ∧ (k.fs.inode ip).ref = 1
  copy : (k.fs.inode ip).valid = true → (k.fs.inode ip).copy = dinodeAt sb k.fs.disk ROOTINO
  unused : ∀ j, j ≠ ip → (k.fs.inode j).ref = 0
  lock : ∀ j, (k.fs.inode j).lock = false

/-- The states in which runs begin. -/
inductive Start (sb : Superblock) (k : Kernel) : Prop where
  | fresh (h : Fresh k)
  | started {p ip : Nat} (h : Started sb p ip k)

theorem Fresh.occupants (h : Fresh k) : Process.occupants k = fun _ => 0 := by
  funext j
  refine Finset.card_eq_zero.mpr (Finset.filter_eq_empty_iff.mpr fun p hp => ?_)
  rw [(h.proc p (Finset.mem_range.mp hp)).2]
  exact nofun

theorem Fresh.balanced (h : Fresh k) (hfiles : D.H (Process.occupants k) [] none k.fs) : Balanced D k := by
  have hdead : ∀ p < NPROC, ¬ (k.proc p).Live := fun p hp hlive => hlive.1 (h.proc p hp).1
  exact ⟨hfiles, fun p hp _ => (h.proc p hp).2, fun _ p hp => ⟨(h.proc p hp).2,
    fun hlive => absurd hlive (hdead p hp)⟩, fun _ p hp hlive => absurd hlive (hdead p hp)⟩

theorem Started.occupants {ip : Nat} (h : Started sb p ip k) (j : Nat) :
    Process.occupants k j = if j = ip then 1 else 0 := by
  have hset : ((Finset.range NPROC).filter fun q => (k.proc q).cwd = some j) =
      if j = ip then {p} else ∅ := by
    ext q
    simp only [Finset.mem_filter, Finset.mem_range]
    by_cases hq : q = p
    · subst hq
      rw [h.cwd]
      split <;> simp_all [h.lt, eq_comm]
    · have hnone : ¬ (q < NPROC ∧ (k.proc q).cwd = some j) := fun ⟨hlt, hcwd⟩ => by
        rw [(h.others q hlt hq).2] at hcwd
        cases hcwd
      split <;> simp [hq, hnone]
  unfold Process.occupants
  rw [hset]
  split <;> rfl

theorem Started.balanced {ip : Nat} (h : Started sb p ip k)
    (hfiles : D.H (Process.occupants k) [] none k.fs) : Balanced D k := by
  refine ⟨hfiles, fun q hq hdead => ?_, fun hfirst => ?_, fun _ q hq hlive => ?_⟩
  · exact (h.others q hq fun hqp => hdead (hqp ▸ h.live)).2
  · exact absurd (hfirst.symm.trans h.first) nofun
  · have hqp : q = p := by
      by_contra hne
      exact (h.others q hq hne).1 hlive
    rw [hqp, h.cwd]
    exact nofun

theorem Start.balanced (h : Start sb k) (hfiles : D.H (Process.occupants k) [] none k.fs) :
    Balanced D k := by
  cases h with
  | fresh h => exact h.balanced hfiles
  | started h => exact h.balanced hfiles

theorem Start.holding (h : Start sb k) : Holding (occupants k) [] none k.fs := by
  cases h with
  | fresh h =>
    exact ⟨fun j hj => absurd (h.inode j).1 (Nat.ne_of_gt hj),
      fun j => by rw [h.occupants, (h.inode j).1]; rfl, fun j => (h.inode j).2⟩
  | @started p ip h =>
    have href : ∀ j, (k.fs.inode j).ref = if j = ip then 1 else 0 := fun j => by
      split
      · rename_i hj
        rw [hj, h.root.2.2]
      · rename_i hj
        rw [h.unused j hj]
    refine ⟨fun j hj => ?_, fun j => by rw [h.occupants, href]; rfl, fun j => h.lock j⟩
    have hj' : j = ip := by
      by_contra hne
      exact absurd (h.unused j hne) (Nat.ne_of_gt hj)
    rw [hj']
    exact h.root.1

/-! ### Any disk -/

/-- On any disk, any inode may be a current directory as far as references go. -/
def anyDisk (sb : Superblock) : Discipline sb Any where
  H := Holding
  Fit _ _ := True
  holding h := h
  fit _ _ := trivial
  adopt h _ := h.adopt
  disown h := h.disown
  wp_beginOp h := h.wp_within within_beginOp
  wp_endOp h := h.wp_within within_endOp
  wp_idup h hpos := wp_mono (h.wp_idup (h.ref_pos_of_base hpos)) fun _ _ hs =>
    ⟨hs.1, hs.2, trivial⟩
  wp_iput h := h.wp_iput
  wp_ilock h := h.wp_ilock
  wp_readi off n h := h.wp_within (within_readi sb _ _ off n)
  wp_iunlockput h := h.wp_iunlockput
  wp_namei path h hcwd := wp_mono (h.wp_namei (fun c hc => h.ref_pos_of_base (hcwd c hc)) path)
    fun r _ hs => by cases r <;> exact hs
  wp_blocktest h := ⟨h.lt, h.ref, h.lock⟩
  wp_root h := (wp_namei_root _).mpr
    (wp_mono (h.wp_iget _) fun ip _ hs => ⟨ip, rfl, hs, trivial⟩)

instance : DecidablePred Proc.Live := fun x =>
  inferInstanceAs (Decidable (x.state ≠ .UNUSED ∧ x.state ≠ .ZOMBIE))

/-- **Reference counts are numbers of current directories**: whatever the paths, the disk and the
    failures, between any two calls of a run the count of every entry of `itable` is the number of
    live processes whose current directory it is, and no inode is locked. -/
theorem refs_balanced (h₀ : Start sb k₀)
    (hk : Reachable k₀ (stepCall img sb) (fun k c => allowedCall k c = true) k) :
    ∀ j, (k.fs.inode j).ref =
        ((Finset.range NPROC).filter fun p => (k.proc p).Live ∧ (k.proc p).cwd = some j).card ∧
      (k.fs.inode j).lock = false := by
  have h : Balanced (anyDisk sb) k := hk.invariant (h₀.balanced h₀.holding)
    fun {_ _ c} _ hI hok hstep => stepCall_balanced hI hok (by
      cases c with
      | blocktest => trivial
      | op o => cases o <;> first | exact fun _ _ _ => trivial | trivial) hstep
  intro j
  have hfiles : Holding (occupants k) [] none k.fs := h.files
  refine ⟨?_, hfiles.lock j⟩
  rw [hfiles.ref j, List.count_nil, Nat.add_zero, occupants]
  congr 1
  refine Finset.filter_congr fun p hp => ⟨fun hcwd => ⟨?_, hcwd⟩, And.right⟩
  by_contra hdead
  rw [h.idle p (Finset.mem_range.mp hp) hdead] at hcwd
  cases hcwd

end System

/-! ### A run -/

section Example

/-- The root directory, with an entry for the program `init`. -/
def rootDir : Dinode :=
  { Dinode.zero with type := T_DIR, nlink := 1, size := 16, addrs := fun k => if k.val = 0 then 46 else 0 }

/-- A program without segments: it is no more than an ELF header. -/
def initFile : Dinode :=
  { Dinode.zero with type := 2, nlink := 1, size := 64, addrs := fun k => if k.val = 0 then 47 else 0 }

def initDisk (b : Nat) : Block :=
  if b = IBLOCK Mkfs.sb ROOTINO then
    putDinode (putDinode (fun _ => 0) (dinodeOff ROOTINO) rootDir) (dinodeOff 2) initFile
  else if b = 46 then fun k => (2 :: 0 :: initPath).getD k 0
  else if b = 47 then putLE (fun _ => 0) 0 4 ELF_MAGIC
  else fun _ => 0

/-- The first process runs in the root directory. -/
def initKernel : Kernel where
  mem := smallMem
  fs := { Fs.boot with
    disk := initDisk
    inode := update Fs.boot.inode 0 ⟨ROOTINO, 1, false, false, Dinode.zero⟩ }
  proc := update smallKernel.proc 0
    (((smallKernel.proc 0).setState .RUNNING).setCwd (some 0))
  nextpid := 2
  initproc := some 0
  first := false

theorem initKernel_started : Started Mkfs.sb 0 0 initKernel := by
  refine ⟨rfl, by decide, ⟨by decide, by decide⟩, rfl, fun q _ hq => ?_,
    ⟨by decide, rfl, rfl⟩, nofun, fun j hj => ?_, fun j => ?_⟩
  · have hproc : initKernel.proc q = smallKernel.proc q := update_of_ne hq ..
    rw [hproc]
    exact ⟨fun hlive => hlive.1 rfl, rfl⟩
  · rw [show initKernel.fs.inode j = Fs.boot.inode j from update_of_ne hj ..]
    rfl
  · by_cases hj : j = 0
    · rw [hj]
      rfl
    · rw [show initKernel.fs.inode j = Fs.boot.inode j from update_of_ne hj ..]
      rfl

/-- The process has a child, and goes elsewhere. -/
def initCalls : List Syscall := [.op (.kfork 0), .op (.chdir 0 initPath)]

theorem initCalls_run :
    (run (stepCall smallImage Mkfs.sb) allowedCall initKernel initCalls).isSome = true := by
  decide +kernel

def initState : Kernel :=
  finalState (stepCall smallImage Mkfs.sb) allowedCall initKernel initCalls

theorem refs_balanced_initState : Start Mkfs.sb initKernel ∧
    ∀ j, (initState.fs.inode j).ref =
        ((Finset.range NPROC).filter fun p =>
          (initState.proc p).Live ∧ (initState.proc p).cwd = some j).card ∧
      (initState.fs.inode j).lock = false :=
  ⟨.started initKernel_started,
    refs_balanced (.started initKernel_started) (reachable_finalState initCalls_run)⟩

end Example

end Xv6.Process
