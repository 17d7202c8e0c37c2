import Xv6.Ptable.Model

/-!
# What a step does to the process table

Whatever the call and wherever it stands, a step changes the table in one of nine ways
(`Change`), and every invariant follows from these.
-/

namespace Xv6.Ptable

open Transition Process Function

section Fields

variable (t : Table) (p q : Nat) (x : Proc) (pc : Pc) (l : Option Nat) (n : Nat)

@[simp] theorem setProc_proc : (t.setProc q x).proc = update t.proc q x := rfl
@[simp] theorem setProc_pc : (t.setProc q x).pc = t.pc := rfl
@[simp] theorem setPc_proc : (t.setPc p pc).proc = t.proc := rfl
@[simp] theorem setPc_pc : (t.setPc p pc).pc = update t.pc p pc := rfl
@[simp] theorem setLock_proc : (t.setLock l).proc = t.proc := rfl
@[simp] theorem setNextpid_proc : (t.setNextpid n).proc = t.proc := rfl
@[simp] theorem setNextpid_pc : (t.setNextpid n).pc = t.pc := rfl

end Fields

/-! ### What a step does -/

/-- The process has been set up and has not exited. -/
def Alive (x : Proc) : Prop := x.state = .SLEEPING ∨ x.state = .RUNNABLE ∨ x.state = .RUNNING

/-- Nothing has changed that another process relies on. -/
structure Stirred (x y : Proc) : Prop where
  state : y.state = x.state ∨ (Alive x ∧ Alive y)
  parent : y.parent = x.parent
  pid : y.pid = x.pid
  xstate : y.xstate = x.xstate
  killed : y.killed = x.killed
  unused : x.state = .UNUSED → y = x

/-- What a step of `p` does to the entries of the table. -/
inductive Change (t : Table) (p : Nat) : Option Note → (Nat → Proc) → Prop where
  | stir {f : Nat → Proc} (note : Option Note) (entries : ∀ q, Stirred (t.proc q) (f q))
      (quiet : note = none ∨ note = some .waitFails ∨
        ((∃ status, note = some (.exits status)) ∧ t.pc p = .idle)) :
      Change t p note f
  | create (j : Nat) (mem : Memory) (sz cwd : Nat) (lt : j < NPROC)
      (unused : (t.proc j).state = .UNUSED) (at_ : t.pc p = .allocating j) :
      Change t p (some (.created j))
        (update t.proc j (copied (t.proc j) t.nextpid mem sz cwd))
  | discard (j : Nat) (lt : j < NPROC) (unused : (t.proc j).state = .UNUSED)
      (at_ : t.pc p = .allocating j) :
      Change t p (some .discarded) (update t.proc j (freed (t.proc j)))
  | adopt (np : Nat) (at_ : t.pc p = .forked np) :
      Change t p none (update t.proc np ((t.proc np).setParent (some p)))
  | publish (np : Nat) (at_ : t.pc p = .publishing np) :
      Change t p none (update t.proc np ((t.proc np).setState .RUNNABLE))
  | reparent (status : UInt32) (i : Nat) (lt : i < NPROC) (at_ : t.pc p = .reparenting status i)
      (child : (t.proc i).parent = some p) :
      Change t p none (update t.proc i ((t.proc i).setParent (some t.initproc)))
  | die (status : UInt32) (at_ : t.pc p = .dying status) :
      Change t p none
        (update t.proc p (((t.proc p).setXstate status).setState .ZOMBIE))
  | reap (addr i : Nat) (havekids : Bool) (stored : Option UInt32) (lt : i < NPROC)
      (at_ : t.pc p = .scanning addr i havekids) (child : (t.proc i).parent = some p)
      (zombie : (t.proc i).state = .ZOMBIE)
      (status : stored = if addr ≠ 0 then some (t.proc i).xstate else none) :
      Change t p (some (.reaped i (t.proc i).pid addr stored))
        (update t.proc i (freed ((t.proc i).setParent none)))
  | kill (pid : Int) (j : Nat) (lt : j < NPROC) (at_ : t.pc p = .killing pid j)
      (found : ((t.proc j).pid : Int) = pid) :
      Change t p (some (.named j)) (update t.proc j (slain (t.proc j)))

section Change

variable {t t' : Table} {p : Nat} {a : Act} {n : Option Note}

theorem Stirred.refl (x : Proc) : Stirred x x := ⟨Or.inl rfl, rfl, rfl, rfl, rfl, fun _ => rfl⟩

theorem stirred_update {q : Nat} {y : Proc} (hx : Alive (t.proc q)) (hy : Alive y)
    (hparent : y.parent = (t.proc q).parent) (hpid : y.pid = (t.proc q).pid)
    (hxstate : y.xstate = (t.proc q).xstate) (hkilled : y.killed = (t.proc q).killed) (r : Nat) :
    Stirred (t.proc r) (update t.proc q y r) := by
  by_cases hr : r = q
  · subst hr
    rw [update_self]
    refine ⟨Or.inr ⟨hx, hy⟩, hparent, hpid, hxstate, hkilled, fun hun => ?_⟩
    rcases hx with h | h | h <;> rw [h] at hun <;> cases hun
  · rw [update_of_ne hr]
    exact Stirred.refl _

theorem stirred_wakeSlot (t : Table) (p : Nat) (chan : Option Nat) (j q : Nat) :
    Stirred (t.proc q) ((wakeSlot t p chan j).proc q) := by
  unfold wakeSlot
  split
  · rename_i hj
    rw [setProc_proc]
    exact stirred_update (y := (t.proc j).setState .RUNNABLE) (Or.inl hj.2.1)
      (Or.inr (Or.inl rfl)) rfl rfl rfl rfl q
  · exact Stirred.refl _

theorem wakeSlot_pc (t : Table) (p : Nat) (chan : Option Nat) (j : Nat) :
    (wakeSlot t p chan j).pc = t.pc := by
  unfold wakeSlot
  split <;> rfl

theorem wakeSlot_waitLock (t : Table) (p : Nat) (chan : Option Nat) (j : Nat) :
    (wakeSlot t p chan j).waitLock = t.waitLock := by
  unfold wakeSlot
  split <;> rfl

theorem wakeSlot_initproc (t : Table) (p : Nat) (chan : Option Nat) (j : Nat) :
    (wakeSlot t p chan j).initproc = t.initproc := by
  unfold wakeSlot
  split <;> rfl

theorem wakeSlot_nextpid (t : Table) (p : Nat) (chan : Option Nat) (j : Nat) :
    (wakeSlot t p chan j).nextpid = t.nextpid := by
  unfold wakeSlot
  split <;> rfl

/-- `allocpid` has been called. -/
def takesPid : Option Note → Bool
  | some (.created _) | some .discarded => true
  | _ => false

/-- What the step of `p` leaves of the others; a new process starts afresh. -/
structure Others (t : Table) (p : Nat) (n : Option Note) (t' : Table) : Prop where
  pc : ∀ q, q ≠ p → t'.pc q = t.pc q ∨ (n = some (.created q) ∧ t'.pc q = .idle)
  fresh : ∀ q, n = some (.created q) → q ≠ p → t'.pc q = .idle
  initproc : t'.initproc = t.initproc
  nextpid : t'.nextpid = if takesPid n then succPid t.nextpid else t.nextpid

theorem others_setPc {u : Table} (pc : Pc) (hpc : u.pc = t.pc) (hinit : u.initproc = t.initproc)
    (hpid : u.nextpid = if takesPid n then succPid t.nextpid else t.nextpid)
    (hn : ∀ q, n ≠ some (.created q)) : Others t p n (u.setPc p pc) :=
  ⟨fun q hq => Or.inl (by rw [setPc_pc, update_of_ne hq, hpc]),
    fun q hq => absurd hq (hn q), hinit, hpid⟩

theorem running_alive (h : running t p = true) : p < NPROC ∧ Alive (t.proc p) := by
  obtain ⟨hp, hs⟩ := of_decide_eq_true h
  exact ⟨hp, Or.inr (Or.inr hs)⟩

theorem allocSlot_change {j : Nat} {mem : Memory} (hpc : t.pc p = .allocating j) (hj : j < NPROC)
    (hu : (t.proc j).state = .UNUSED) (h : allocSlot t p j mem = .done (t', n)) :
    Change t p n t'.proc ∧ Others t p n t' := by
  unfold allocSlot at h
  simp only [setNextpid_proc] at h
  split at h
  · cases h
    exact ⟨.discard j hj hu hpc, others_setPc _ rfl rfl rfl nofun⟩
  · split at h
    · cases h
    · cases h
      refine ⟨.create j mem _ _ hj hu hpc, fun q hq => ?_, fun q hq hne => ?_, rfl, rfl⟩
      · rw [setPc_pc, update_of_ne hq, setPc_pc, setProc_pc, setNextpid_pc]
        by_cases hqj : q = j
        · subst hqj
          exact Or.inr ⟨rfl, update_self ..⟩
        · exact Or.inl (update_of_ne hqj ..)
      · cases hq
        rw [setPc_pc, update_of_ne hne, setPc_pc, update_self]

theorem still_change {u : Table} {pc : Pc} (hu : (u.proc, u.pc, u.initproc, u.nextpid) =
    (t.proc, t.pc, t.initproc, t.nextpid)) (h : (.done (u.setPc p pc, none) : Result) = .done (t', n)) :
    Change t p n t'.proc ∧ Others t p n t' := by
  simp only [Prod.mk.injEq] at hu
  cases h
  refine ⟨.stir _ (fun q => ?_) (Or.inl rfl), others_setPc _ hu.2.1 hu.2.2.1 hu.2.2.2 nofun⟩
  rw [setPc_proc, hu.1]
  exact Stirred.refl _

theorem waking_change {chan : Option Nat} {j : Nat} {pc : Pc}
    (h : (.done ((wakeSlot t p chan j).setPc p pc, none) : Result) = .done (t', n)) :
    Change t p n t'.proc ∧ Others t p n t' := by
  cases h
  exact ⟨.stir _ (stirred_wakeSlot t p chan j) (Or.inl rfl),
    others_setPc _ (wakeSlot_pc ..) (wakeSlot_initproc ..) (wakeSlot_nextpid ..) nofun⟩

theorem startExit_change {status : UInt32} (hp : Alive (t.proc p)) (hpc : t.pc p = .idle)
    (h : startExit t p status = .done (t', n)) : Change t p n t'.proc ∧ Others t p n t' := by
  unfold startExit at h
  split at h
  · cases h
  · cases h
    exact ⟨.stir _ (stirred_update hp hp rfl rfl rfl rfl) (Or.inr (Or.inr ⟨⟨status, rfl⟩, hpc⟩)),
      others_setPc _ rfl rfl rfl nofun⟩

theorem startCall_change {c : Call} (hp : Alive (t.proc p)) (hpc : t.pc p = .idle)
    (h : startCall t p c = .done (t', n)) : Change t p n t'.proc ∧ Others t p n t' := by
  cases c with
  | exit status => exact startExit_change hp hpc h
  | sleep chan =>
    cases h
    exact ⟨.stir _ (stirred_update hp (Or.inl rfl) rfl rfl rfl rfl) (Or.inl rfl),
      others_setPc _ rfl rfl rfl nofun⟩
  | fork => exact still_change rfl h
  | wait addr => exact still_change rfl h
  | kill pid => exact still_change rfl h
  | wakeup chan => exact still_change rfl h

theorem scanChild_change {addr i : Nat} {havekids : Bool} {mem : Memory}
    (hpc : t.pc p = .scanning addr i havekids) (hi : i < NPROC)
    (hchild : (t.proc i).parent = some p) (h : scanChild t p addr i mem = .done (t', n)) :
    Change t p n t'.proc ∧ Others t p n t' := by
  unfold scanChild at h
  split at h
  · rename_i hz
    split at h
    · cases h
      exact ⟨.stir _ (fun _ => Stirred.refl _) (Or.inr (Or.inl rfl)), others_setPc _ rfl rfl rfl nofun⟩
    · cases h
      exact ⟨.reap addr i havekids _ hi hpc hchild hz rfl, others_setPc _ rfl rfl rfl nofun⟩
  · exact still_change rfl h

/-- **What a step of a call does to the table.** -/
theorem advance_change {mem : Memory} (hp : Alive (t.proc p))
    (h : advance t p mem = .done (t', n)) : Change t p n t'.proc ∧ Others t p n t' := by
  unfold advance at h
  cases hpc : t.pc p with
  | idle =>
    rw [hpc] at h
    cases h
  | dead =>
    rw [hpc] at h
    cases h
  | allocating j =>
    simp only [hpc] at h
    split at h
    · rename_i hj
      split at h
      · rename_i hu
        exact allocSlot_change hpc hj hu h
      · exact still_change rfl h
    · exact still_change rfl h
  | forked np =>
    simp only [hpc] at h
    split at h
    · cases h
      exact ⟨.adopt np hpc, others_setPc _ rfl rfl rfl nofun⟩
    · cases h
  | publishing np =>
    simp only [hpc] at h
    cases h
    exact ⟨.publish np hpc, others_setPc _ rfl rfl rfl nofun⟩
  | exiting status =>
    simp only [hpc] at h
    split at h
    · exact still_change (u := t.setLock (some p)) rfl h
    · cases h
  | reparenting status i =>
    simp only [hpc] at h
    split at h
    · rename_i hi
      split at h
      · rename_i hchild
        cases h
        exact ⟨.reparent status i hi hpc hchild, others_setPc _ rfl rfl rfl nofun⟩
      · exact still_change rfl h
    · exact still_change rfl h
  | reparentWaking status i j =>
    simp only [hpc] at h
    split at h
    · exact waking_change h
    · exact still_change rfl h
  | exitWaking status j =>
    simp only [hpc] at h
    split at h
    · exact waking_change h
    · exact still_change rfl h
  | dying status =>
    simp only [hpc] at h
    cases h
    exact ⟨.die status hpc, others_setPc _ rfl rfl rfl nofun⟩
  | waiting addr =>
    simp only [hpc] at h
    split at h
    · exact still_change (u := t.setLock (some p)) rfl h
    · cases h
  | scanning addr i havekids =>
    simp only [hpc] at h
    split at h
    · rename_i hi
      split at h
      · rename_i hchild
        exact scanChild_change hpc hi hchild h
      · exact still_change rfl h
    · exact still_change rfl h
  | checking addr havekids =>
    simp only [hpc] at h
    split at h
    · cases h
      exact ⟨.stir _ (fun _ => Stirred.refl _) (Or.inr (Or.inl rfl)), others_setPc _ rfl rfl rfl nofun⟩
    · exact still_change rfl h
  | dozing addr =>
    simp only [hpc] at h
    cases h
    exact ⟨.stir _ (stirred_update hp (Or.inl rfl) rfl rfl rfl rfl) (Or.inl rfl),
      others_setPc _ rfl rfl rfl nofun⟩
  | woken addr =>
    simp only [hpc] at h
    cases h
    exact ⟨.stir _ (stirred_update hp hp rfl rfl rfl rfl) (Or.inl rfl), others_setPc _ rfl rfl rfl nofun⟩
  | slept =>
    simp only [hpc] at h
    cases h
    exact ⟨.stir _ (stirred_update hp hp rfl rfl rfl rfl) (Or.inl rfl), others_setPc _ rfl rfl rfl nofun⟩
  | waking chan j =>
    simp only [hpc] at h
    split at h
    · exact waking_change h
    · exact still_change rfl h
  | killing pid j =>
    simp only [hpc] at h
    split at h
    · rename_i hj
      split at h
      · rename_i hfound
        cases h
        exact ⟨.kill pid j hj hpc hfound, others_setPc _ rfl rfl rfl nofun⟩
      · exact still_change rfl h
    · exact still_change rfl h

/-- **What a step does to the table.** -/
theorem step_change (hok : allowed t a = true) (h : step t a = .done (t', n)) :
    a.actor < NPROC ∧ Alive (t.proc a.actor) ∧ Change t a.actor n t'.proc ∧
      Others t a.actor n t' := by
  have hself : ∀ {q : Nat} {y : Proc}, Alive (t.proc q) → Alive y → y.parent = (t.proc q).parent →
      y.pid = (t.proc q).pid → y.xstate = (t.proc q).xstate → y.killed = (t.proc q).killed →
      Change t q none (t.setProc q y).proc ∧ Others t q none (t.setProc q y) :=
    fun hx hy hparent hpid hxstate hkilled =>
      ⟨.stir _ (stirred_update hx hy hparent hpid hxstate hkilled) (Or.inl rfl),
        fun _ _ => Or.inl rfl, nofun, rfl, rfl⟩
  cases a with
  | call p c =>
    obtain ⟨hrun, hpc⟩ := Bool.and_eq_true_iff.mp hok
    obtain ⟨hp, halive⟩ := running_alive hrun
    exact ⟨hp, halive, startCall_change halive (of_decide_eq_true hpc) h⟩
  | advance p mem =>
    obtain ⟨hp, halive⟩ := running_alive hok
    exact ⟨hp, halive, advance_change halive h⟩
  | trap p =>
    obtain ⟨hrun, hpc⟩ := Bool.and_eq_true_iff.mp hok
    obtain ⟨hp, halive⟩ := running_alive hrun
    refine ⟨hp, halive, ?_⟩
    unfold step at h
    dsimp only at h
    split at h
    · exact startExit_change halive (of_decide_eq_true hpc) h
    · cases h
      exact ⟨.stir _ (fun _ => Stirred.refl _) (Or.inl rfl), fun _ _ => Or.inl rfl, nofun, rfl, rfl⟩
  | schedule p =>
    obtain ⟨hp, hs⟩ := of_decide_eq_true hok
    have halive : Alive (t.proc p) := Or.inr (Or.inl hs)
    cases h
    exact ⟨hp, halive, hself halive (Or.inr (Or.inr rfl)) rfl rfl rfl rfl⟩
  | yield p =>
    obtain ⟨hp, halive⟩ := running_alive (Bool.and_eq_true_iff.mp hok).1
    cases h
    exact ⟨hp, halive, hself halive (Or.inr (Or.inl rfl)) rfl rfl rfl rfl⟩
  | space p sz pagetable =>
    obtain ⟨hp, halive⟩ := running_alive (Bool.and_eq_true_iff.mp hok).1
    cases h
    exact ⟨hp, halive, hself halive halive rfl rfl rfl rfl⟩
  | chdir p cwd =>
    obtain ⟨hp, halive⟩ := running_alive (Bool.and_eq_true_iff.mp hok).1
    cases h
    exact ⟨hp, halive, hself halive halive rfl rfl rfl rfl⟩

end Change

/-! ### Who is alive, and whose child -/

section Alive

variable {t t' : Table} {p q r : Nat} {n : Option Note} {f : Nat → Proc}

theorem Alive.ne_unused {x : Proc} (h : Alive x) : x.state ≠ .UNUSED := by
  rcases h with h | h | h <;> simp [h]

theorem Alive.ne_used {x : Proc} (h : Alive x) : x.state ≠ .USED := by
  rcases h with h | h | h <;> simp [h]

theorem Alive.ne_zombie {x : Proc} (h : Alive x) : x.state ≠ .ZOMBIE := by
  rcases h with h | h | h <;> simp [h]

theorem Change.alive (hc : Change t p n f) (hr : Alive (t.proc r)) :
    Alive (f r) ∨ (r = p ∧ ∃ status, t.pc p = .dying status) := by
  have hkeep : ∀ {i : Nat} {y : Proc}, (Alive (t.proc i) → Alive y) →
      Alive (update t.proc i y r) := fun {i y} hy => by
    by_cases hri : r = i
    · subst hri
      rw [update_self]
      exact hy hr
    · rwa [update_of_ne hri]
  cases hc with
  | stir _ hs =>
    rcases (hs r).state with heq | ⟨-, hy⟩
    · unfold Alive at hr ⊢
      rw [heq]
      exact Or.inl hr
    · exact Or.inl hy
  | create j mem sz cwd _ hu => exact Or.inl (hkeep fun hj => absurd hu hj.ne_unused)
  | discard j _ hu => exact Or.inl (hkeep fun hj => absurd hu hj.ne_unused)
  | adopt np => exact Or.inl (hkeep fun hy => hy)
  | publish np => exact Or.inl (hkeep fun _ => Or.inr (Or.inl rfl))
  | reparent status i => exact Or.inl (hkeep fun hy => hy)
  | die status hat =>
    by_cases hrp : r = p
    · exact Or.inr ⟨hrp, status, hat⟩
    · rw [update_of_ne hrp]
      exact Or.inl hr
  | reap addr i havekids stored _ _ _ hz => exact Or.inl (hkeep fun hi => absurd hz hi.ne_zombie)
  | kill pid j =>
    refine Or.inl (hkeep fun hj => ?_)
    rcases hj with hs | hs | hs <;> simp [Alive, slain, hs]

theorem Change.of_alive (hc : Change t p n f) (hr : Alive (f r)) :
    Alive (t.proc r) ∨ t.pc p = .publishing r := by
  have hother : ∀ {i : Nat} {y : Proc}, Alive (update t.proc i y r) →
      (Alive y → Alive (t.proc i) ∨ t.pc p = .publishing i) →
      Alive (t.proc r) ∨ t.pc p = .publishing r := fun {i y} hr hy => by
    by_cases hri : r = i
    · subst hri
      rw [update_self] at hr
      exact hy hr
    · rw [update_of_ne hri] at hr
      exact Or.inl hr
  have hself : ∀ {x y : Proc}, y.state = x.state → Alive y → Alive x := fun heq hy => by
    unfold Alive at hy ⊢
    rwa [← heq]
  cases hc with
  | stir _ hs =>
    rcases (hs r).state with heq | ⟨hx, -⟩
    · exact Or.inl (hself heq hr)
    · exact Or.inl hx
  | create j mem sz cwd => exact hother hr fun hy => absurd rfl hy.ne_used
  | discard j => exact hother hr fun hy => absurd rfl hy.ne_unused
  | adopt np => exact hother hr fun hy => Or.inl (hself rfl hy)
  | publish np hat => exact hother hr fun _ => Or.inr hat
  | reparent status i => exact hother hr fun hy => Or.inl (hself rfl hy)
  | die status => exact hother hr fun hy => absurd rfl hy.ne_zombie
  | reap addr i => exact hother hr fun hy => absurd rfl hy.ne_unused
  | kill pid j =>
    refine hother hr fun hy => Or.inl ?_
    by_cases hs : (t.proc j).state = .SLEEPING
    · exact Or.inl hs
    · refine hself (y := slain (t.proc j)) ?_ hy
      simp [slain, hs]

theorem update_or {α : Type} {g : Proc → α} {i : Nat} {y : Proc} {v : α}
    (h : g (update t.proc i y q) = v) : g (t.proc q) = v ∨ (q = i ∧ g y = v) := by
  by_cases hq : q = i
  · subst hq
    rw [update_self] at h
    exact Or.inr ⟨rfl, h⟩
  · rw [update_of_ne hq] at h
    exact Or.inl h

/-- A parent pointer that is new is that of `kfork` or that of `reparent`. -/
theorem Change.parent_of (hc : Change t p n f) (hr : (f q).parent = some r) :
    (t.proc q).parent = some r ∨ (r = p ∧ t.pc p = .forked q) ∨
      (r = t.initproc ∧ ∃ status, t.pc p = .reparenting status q ∧
        (t.proc q).parent = some p) := by
  cases hc with
  | stir _ hs => exact Or.inl ((hs q).parent ▸ hr)
  | create j mem sz cwd =>
    rcases update_or hr with h | ⟨rfl, h⟩
    · exact Or.inl h
    · exact Or.inl h
  | discard j =>
    rcases update_or hr with h | ⟨-, h⟩
    · exact Or.inl h
    · cases h
  | adopt np hat =>
    rcases update_or hr with h | ⟨rfl, h⟩
    · exact Or.inl h
    · cases h
      exact Or.inr (Or.inl ⟨rfl, hat⟩)
  | publish np =>
    rcases update_or hr with h | ⟨rfl, h⟩
    · exact Or.inl h
    · exact Or.inl h
  | reparent status i _ hat hchild =>
    rcases update_or hr with h | ⟨rfl, h⟩
    · exact Or.inl h
    · cases h
      exact Or.inr (Or.inr ⟨rfl, status, hat, hchild⟩)
  | die status =>
    rcases update_or hr with h | ⟨rfl, h⟩
    · exact Or.inl h
    · exact Or.inl h
  | reap addr i =>
    rcases update_or hr with h | ⟨-, h⟩
    · exact Or.inl h
    · cases h
  | kill pid j =>
    rcases update_or hr with h | ⟨rfl, h⟩
    · exact Or.inl h
    · exact Or.inl h

theorem Change.state_of (hc : Change t p n f) (hf : ¬ Alive (f q)) :
    (f q).state = (t.proc q).state ∨ n = some (.created q) ∧ (f q).state = .USED ∨
      (f q).state = .UNUSED ∧ (f q).parent = none ∨
      q = p ∧ (f q).state = .ZOMBIE ∧ ∃ status, t.pc p = .dying status := by
  have hother : ∀ {i : Nat} {y : Proc}, q ≠ i →
      (update t.proc i y q).state = (t.proc q).state := fun hq => by
    rw [update_of_ne hq]
  cases hc with
  | stir _ hs =>
    rcases (hs q).state with heq | ⟨-, hy⟩
    · exact Or.inl heq
    · exact absurd hy hf
  | create j mem sz cwd =>
    by_cases hq : q = j
    · subst hq
      rw [update_self]
      exact Or.inr (Or.inl ⟨rfl, rfl⟩)
    · exact Or.inl (hother hq)
  | discard j =>
    by_cases hq : q = j
    · subst hq
      rw [update_self]
      exact Or.inr (Or.inr (Or.inl ⟨rfl, rfl⟩))
    · exact Or.inl (hother hq)
  | adopt np =>
    by_cases hq : q = np
    · subst hq
      rw [update_self]
      exact Or.inl rfl
    · exact Or.inl (hother hq)
  | publish np =>
    by_cases hq : q = np
    · subst hq
      rw [update_self] at hf
      exact absurd (Or.inr (Or.inl rfl)) hf
    · exact Or.inl (hother hq)
  | reparent status i =>
    by_cases hq : q = i
    · subst hq
      rw [update_self]
      exact Or.inl rfl
    · exact Or.inl (hother hq)
  | die status hat =>
    by_cases hq : q = p
    · subst hq
      rw [update_self]
      exact Or.inr (Or.inr (Or.inr ⟨rfl, rfl, status, hat⟩))
    · exact Or.inl (hother hq)
  | reap addr i =>
    by_cases hq : q = i
    · subst hq
      rw [update_self]
      exact Or.inr (Or.inr (Or.inl ⟨rfl, rfl⟩))
    · exact Or.inl (hother hq)
  | kill pid j =>
    by_cases hq : q = j
    · subst hq
      rw [update_self] at hf ⊢
      by_cases hs : (t.proc q).state = .SLEEPING
      · exact absurd (by simp [Alive, slain, hs]) hf
      · exact Or.inl (by simp [slain, hs])
    · exact Or.inl (hother hq)

theorem Change.created_unused (hc : Change t p (some (.created q)) f) :
    q < NPROC ∧ (t.proc q).state = .UNUSED ∧ (f q).state = .USED := by
  cases hc with
  | stir _ _ hquiet => rcases hquiet with h | h | ⟨⟨_, h⟩, -⟩ <;> cases h
  | create j mem sz cwd hlt hu =>
    rw [update_self]
    exact ⟨hlt, hu, rfl⟩

theorem Change.created_at (hc : Change t p (some (.created q)) f) :
    t.pc p = .allocating q ∧ (f q).pid = t.nextpid ∧ (f q).parent = (t.proc q).parent ∧
      (f q).killed = (t.proc q).killed := by
  cases hc with
  | stir _ _ hquiet => rcases hquiet with h | h | ⟨⟨_, h⟩, -⟩ <;> cases h
  | create j mem sz cwd _ _ hat =>
    rw [update_self]
    exact ⟨hat, rfl, rfl, rfl⟩

theorem Change.exits_idle {s : UInt32} (hc : Change t p (some (.exits s)) f) : t.pc p = .idle := by
  cases hc with
  | stir _ _ hquiet =>
    rcases hquiet with h | h | ⟨-, h⟩
    · cases h
    · cases h
    · exact h

theorem Change.reaped {pid addr : Nat} {stored : Option UInt32}
    (hc : Change t p (some (.reaped q pid addr stored)) f) :
    q < NPROC ∧ (t.proc q).parent = some p ∧ (t.proc q).state = .ZOMBIE ∧ pid = (t.proc q).pid ∧
      stored = (if addr ≠ 0 then some (t.proc q).xstate else none) ∧ (f q).state = .UNUSED := by
  cases hc with
  | stir _ _ hquiet => rcases hquiet with h | h | ⟨⟨_, h⟩, -⟩ <;> cases h
  | reap addr i havekids stored hlt _ hchild hz hst =>
    rw [update_self]
    exact ⟨hlt, hchild, hz, rfl, hst, rfl⟩

theorem Change.named (hc : Change t p (some (.named q)) f) :
    q < NPROC ∧ ∃ pid, t.pc p = .killing pid q ∧ ((t.proc q).pid : Int) = pid := by
  cases hc with
  | stir _ _ hquiet => rcases hquiet with h | h | ⟨⟨_, h⟩, -⟩ <;> cases h
  | kill pid j hlt hat hfound => exact ⟨hlt, pid, hat, hfound⟩

end Alive

end Xv6.Ptable
