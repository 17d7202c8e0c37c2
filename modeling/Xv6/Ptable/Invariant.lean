import Xv6.Ptable.Change

/-!
# Parents and zombies

What each process relies on where it stands (`At`), and the invariant that follows: a parent
pointer leads to a process that is alive.
-/

namespace Xv6.Ptable

open Transition Process Function

/-! ### What a process relies on -/

/-- The places at which a process holds `wait_lock`. -/
def holds : Pc → Bool
  | .reparenting .. | .reparentWaking .. | .exitWaking .. | .dying _ | .scanning ..
  | .checking .. | .dozing _ => true
  | _ => false

/-- The process that `kfork` has allocated and has not made runnable yet. -/
def newborn : Pc → Option Nat
  | .forked np | .publishing np => some np
  | _ => none

/-- The status that `kexit` has been called with. -/
def exitStatus : Pc → Option UInt32
  | .exiting s | .reparenting s _ | .reparentWaking s _ _ | .exitWaking s _ | .dying s => some s
  | _ => none

/-- None of the entries below `i` is a child of `p`. -/
def NoChild (t : Table) (p i : Nat) : Prop := ∀ q < NPROC, q < i → (t.proc q).parent ≠ some p

/-- What holds where `p` stands. -/
def At (t : Table) (p : Nat) : Pc → Prop
  | .forked np => np < NPROC ∧ (t.proc np).state = .USED ∧ (t.proc np).parent = none
  | .publishing np => np < NPROC ∧ (t.proc np).state = .USED
  | .exiting _ => p ≠ t.initproc
  | .reparenting _ i => p ≠ t.initproc ∧ NoChild t p i
  | .reparentWaking _ i _ => p ≠ t.initproc ∧ NoChild t p (i + 1)
  | .exitWaking .. | .dying _ => p ≠ t.initproc ∧ NoChild t p NPROC
  | .scanning _ i havekids => havekids = false → NoChild t p i
  | .checking _ havekids => havekids = false → NoChild t p NPROC
  | _ => True

structure Inv (t : Table) : Prop where
  init_lt : t.initproc < NPROC
  init_alive : Alive (t.proc t.initproc)
  parent : ∀ q < NPROC, ∀ r, (t.proc q).parent = some r → r < NPROC ∧ Alive (t.proc r)
  unused : ∀ q < NPROC, (t.proc q).state = .UNUSED → (t.proc q).parent = none
  used : ∀ q < NPROC, (t.proc q).state = .USED → t.pc q = .idle
  zombie : ∀ q < NPROC, (t.proc q).state = .ZOMBIE → t.pc q = .dead
  at_ : ∀ p < NPROC, Alive (t.proc p) → At t p (t.pc p)
  lock : ∀ p < NPROC, Alive (t.proc p) → holds (t.pc p) = true → t.waitLock = some p
  once : ∀ p < NPROC, ∀ q < NPROC, ∀ np, Alive (t.proc p) → Alive (t.proc q) →
    newborn (t.pc p) = some np → newborn (t.pc q) = some np → p = q

section Invariant

variable {t t' : Table} {p q r : Nat} {a : Act} {n : Option Note} {f : Nat → Proc}

theorem Inv.exclusive (h : Inv t) (hp : p < NPROC) (hq : q < NPROC) (hap : Alive (t.proc p))
    (haq : Alive (t.proc q)) (hhp : holds (t.pc p) = true) (hhq : holds (t.pc q) = true) :
    p = q :=
  Option.some.inj ((h.lock p hp hap hhp).symm.trans (h.lock q hq haq hhq))

theorem Change.newborn_stable (hc : Change t p n f) (h : Inv t) (hp : p < NPROC)
    (hap : Alive (t.proc p)) (hq : q < NPROC) (haq : Alive (t.proc q)) (hqp : q ≠ p) {np : Nat}
    (hnew : newborn (t.pc q) = some np) (hs : (t.proc np).state = .USED) :
    (f np).state = .USED ∧ ((t.proc np).parent = none → (f np).parent = none) := by
  have hsame : ∀ {i : Nat} {y : Proc}, np ≠ i → (update t.proc i y np).state = .USED ∧
      ((t.proc np).parent = none → (update t.proc i y np).parent = none) := fun hne => by
    rw [update_of_ne hne]
    exact ⟨hs, fun hnone => hnone⟩
  have hstate : ∀ {i : Nat}, (t.proc i).state ≠ .USED → np ≠ i := fun hi heq => hi (heq ▸ hs)
  cases hc with
  | stir _ hst =>
    rcases (hst np).state with heq | ⟨hx, -⟩
    · exact ⟨heq.trans hs, fun hnone => (hst np).parent.trans hnone⟩
    · exact absurd hs hx.ne_used
  | create j mem sz cwd _ hu => exact hsame (hstate (by simp [hu]))
  | discard j _ hu => exact hsame (hstate (by simp [hu]))
  | adopt np' hat =>
    exact hsame fun heq => hqp (h.once q hq p hp np haq hap hnew (by rw [hat, heq]; rfl))
  | publish np' hat =>
    exact hsame fun heq => hqp (h.once q hq p hp np haq hap hnew (by rw [hat, heq]; rfl))
  | reparent status i _ _ hchild =>
    by_cases hi : np = i
    · subst hi
      rw [update_self]
      refine ⟨hs, fun hnone => ?_⟩
      rw [hnone] at hchild
      cases hchild
    · exact hsame hi
  | die status => exact hsame (hstate hap.ne_used)
  | reap addr i havekids stored _ _ _ hz => exact hsame (hstate (by simp [hz]))
  | kill pid j =>
    by_cases hj : np = j
    · subst hj
      rw [update_self]
      exact ⟨by simp [slain, hs], fun hnone => hnone⟩
    · exact hsame hj

theorem Change.noChild_stable (hc : Change t p n f) (h : Inv t) (hp : p < NPROC)
    (hap : Alive (t.proc p)) (hq : q < NPROC) (haq : Alive (t.proc q)) (hqp : q ≠ p)
    (hinit : q = t.initproc → holds (t.pc q) = true) {i : Nat} (hno : NoChild t q i) :
    ∀ r < NPROC, r < i → (f r).parent ≠ some q := by
  intro r hr hri hparent
  rcases hc.parent_of hparent with hold | ⟨heq, -⟩ | ⟨heq, status, hat, -⟩
  · exact hno r hr hri hold
  · exact hqp heq
  · exact hqp (h.exclusive hq hp haq hap (hinit heq) (by rw [hat]; rfl))

/-- **Interference**: what `q` relies on is not disturbed by a step of `p`. -/
theorem Change.at_stable (hc : Change t p n t'.proc) (h : Inv t) (hp : p < NPROC)
    (hap : Alive (t.proc p)) (hq : q < NPROC) (haq : Alive (t.proc q)) (hqp : q ≠ p)
    (hinit : t'.initproc = t.initproc) : At t' q (t.pc q) := by
  have hat := h.at_ q hq haq
  have hnew : ∀ {np : Nat}, newborn (t.pc q) = some np → (t.proc np).state = .USED →
      (t'.proc np).state = .USED ∧ ((t.proc np).parent = none → (t'.proc np).parent = none) :=
    fun hnb hs => hc.newborn_stable h hp hap hq haq hqp hnb hs
  have hexit : ∀ {i : Nat}, q ≠ t.initproc ∧ NoChild t q i → q ≠ t'.initproc ∧ NoChild t' q i :=
    fun ⟨hne, hno⟩ => ⟨hinit ▸ hne, hc.noChild_stable h hp hap hq haq hqp (fun heq => absurd heq hne) hno⟩
  have hscan : ∀ {i : Nat}, holds (t.pc q) = true → NoChild t q i → NoChild t' q i :=
    fun hh hno => hc.noChild_stable h hp hap hq haq hqp (fun _ => hh) hno
  cases hpc : t.pc q with
  | forked np =>
    rw [hpc] at hat hnew
    obtain ⟨hlt, hs, hnone⟩ := hat
    obtain ⟨hs', hnone'⟩ := hnew rfl hs
    exact ⟨hlt, hs', hnone' hnone⟩
  | publishing np =>
    rw [hpc] at hat hnew
    exact ⟨hat.1, (hnew rfl hat.2).1⟩
  | exiting status =>
    rw [hpc] at hat
    exact fun heq => hat (heq.trans hinit)
  | reparenting status i =>
    rw [hpc] at hat
    exact hexit hat
  | reparentWaking status i j =>
    rw [hpc] at hat
    exact hexit hat
  | exitWaking status j =>
    rw [hpc] at hat
    exact hexit hat
  | dying status =>
    rw [hpc] at hat
    exact hexit hat
  | scanning addr i havekids =>
    rw [hpc] at hat hscan
    exact fun hk => hscan rfl (hat hk)
  | checking addr havekids =>
    rw [hpc] at hat hscan
    exact fun hk => hscan rfl (hat hk)
  | _ => trivial

/-- What the step of `p` has to establish for `p`. -/
structure Own (t : Table) (p : Nat) (n : Option Note) (t' : Table) : Prop where
  at_ : Alive (t'.proc p) → At t' p (t'.pc p)
  lock : Alive (t'.proc p) → holds (t'.pc p) = true → t'.waitLock = some p
  keep : t'.waitLock = t.waitLock ∨ t.waitLock = none ∨ holds (t.pc p) = true
  newborn : ∀ np, newborn (t'.pc p) = some np →
    newborn (t.pc p) = some np ∨ n = some (.created np)
  forked : ∀ np, t'.pc p = .forked np → t.pc p = .forked np ∨ n = some (.created np)
  exits : ∀ s, exitStatus (t'.pc p) = some s →
    exitStatus (t.pc p) = some s ∨ n = some (.exits s)
  dead : (t'.proc p).state = .ZOMBIE → t'.pc p = .dead

theorem Others.pc_eq (ho : Others t p n t') (hc : Change t p n t'.proc) (hqp : q ≠ p)
    (hq : (t.proc q).state ≠ .UNUSED) : t'.pc q = t.pc q := by
  rcases ho.pc q hqp with heq | ⟨rfl, -⟩
  · exact heq
  · exact absurd hc.created_unused.2.1 hq

/-- Another process that is alive after the step is where it was before, and was alive, or
    has just been made runnable. -/
theorem Change.alive_before (hc : Change t p n t'.proc) (ho : Others t p n t') (h : Inv t)
    (hp : p < NPROC) (hap : Alive (t.proc p)) (hq : q < NPROC) (hqp : q ≠ p)
    (ha : Alive (t'.proc q)) :
    (Alive (t.proc q) ∧ t'.pc q = t.pc q) ∨ t'.pc q = .idle := by
  rcases hc.of_alive ha with halive | hpub
  · exact Or.inl ⟨halive, ho.pc_eq hc hqp halive.ne_unused⟩
  · have hat := h.at_ p hp hap
    rw [hpub] at hat
    rw [ho.pc_eq hc hqp (by rw [hat.2]; simp), h.used q hq hat.2]
    exact Or.inr rfl

theorem Inv.of_change (h : Inv t) (hp : p < NPROC) (hap : Alive (t.proc p))
    (hc : Change t p n t'.proc) (ho : Others t p n t') (hown : Own t p n t') : Inv t' := by
  have hne_new : ∀ {q np : Nat}, q < NPROC → Alive (t.proc q) → newborn (t.pc q) = some np →
      (t.proc np).state = .USED := fun {q np} hq haq hnew => by
    have hat := h.at_ q hq haq
    cases hpc : t.pc q <;> rw [hpc] at hat hnew <;> cases hnew
    · exact hat.2.1
    · exact hat.2
  refine ⟨ho.initproc ▸ h.init_lt, ?_, fun q hq r hr => ?_, fun q hq hu => ?_, fun q hq hu => ?_,
    fun q hq hz => ?_, fun q hq ha => ?_, fun q hq ha hh => ?_, fun q hq r hr np haq har hnq hnr => ?_⟩
  · rw [ho.initproc]
    rcases hc.alive h.init_alive with ha | ⟨heq, status, hat⟩
    · exact ha
    · have hdying := h.at_ p hp hap
      rw [hat] at hdying
      exact absurd heq.symm hdying.1
  · -- parents
    have hlive : r < NPROC ∧ Alive (t.proc r) := by
      rcases hc.parent_of hr with hold | ⟨rfl, -⟩ | ⟨rfl, -⟩
      · exact h.parent q hq r hold
      · exact ⟨hp, hap⟩
      · exact ⟨h.init_lt, h.init_alive⟩
    refine ⟨hlive.1, ?_⟩
    rcases hc.alive hlive.2 with ha | ⟨rfl, status, hat⟩
    · exact ha
    · have hdying := h.at_ r hp hap
      rw [hat] at hdying
      rcases hc.parent_of hr with hold | ⟨-, hpc⟩ | ⟨heq, -⟩
      · exact absurd hold (hdying.2 q hq hq)
      · rw [hat] at hpc
        cases hpc
      · exact absurd heq hdying.1
  · rcases hc.state_of (fun ha => ha.ne_unused hu) with heq | ⟨-, hs⟩ | ⟨-, hnone⟩ | ⟨-, hs, -⟩
    · have hold := h.unused q hq (heq ▸ hu)
      cases hparent : (t'.proc q).parent with
      | none => rfl
      | some r =>
        rcases hc.parent_of hparent with hr | ⟨-, hat⟩ | ⟨-, status, -, hr⟩
        · rw [hold] at hr
          cases hr
        · have hused := hne_new hp hap (by rw [hat]; rfl)
          rw [← heq, hu] at hused
          cases hused
        · rw [hold] at hr
          cases hr
    · rw [hu] at hs
      cases hs
    · exact hnone
    · rw [hu] at hs
      cases hs
  · rcases hc.state_of (fun ha => ha.ne_used hu) with heq | ⟨hcr, -⟩ | ⟨hs, -⟩ | ⟨-, hs, -⟩
    · have hused : (t.proc q).state = .USED := heq ▸ hu
      have hqp : q ≠ p := by
        rintro rfl
        exact hap.ne_used hused
      rw [ho.pc_eq hc hqp (by simp [hused]), h.used q hq hused]
    · refine ho.fresh q hcr ?_
      rintro rfl
      subst hcr
      exact hap.ne_unused hc.created_unused.2.1
    · rw [hu] at hs
      cases hs
    · rw [hu] at hs
      cases hs
  · rcases hc.state_of (fun ha => ha.ne_zombie hz) with heq | ⟨-, hs⟩ | ⟨hs, -⟩ | ⟨rfl, -⟩
    · have hzombie : (t.proc q).state = .ZOMBIE := heq ▸ hz
      have hqp : q ≠ p := by
        rintro rfl
        exact hap.ne_zombie hzombie
      rw [ho.pc_eq hc hqp (by simp [hzombie]), h.zombie q hq hzombie]
    · rw [hz] at hs
      cases hs
    · rw [hz] at hs
      cases hs
    · exact hown.dead hz
  · by_cases hqp : q = p
    · subst hqp
      exact hown.at_ ha
    · rcases hc.alive_before ho h hp hap hq hqp ha with ⟨halive, hpc⟩ | hidle
      · rw [hpc]
        exact hc.at_stable h hp hap hq halive hqp ho.initproc
      · rw [hidle]
        trivial
  · by_cases hqp : q = p
    · subst hqp
      exact hown.lock ha hh
    · rcases hc.alive_before ho h hp hap hq hqp ha with ⟨halive, hpc⟩ | hidle
      · rw [hpc] at hh
        have hlock := h.lock q hq halive hh
        rcases hown.keep with heq | hnone | hheld
        · rw [heq, hlock]
        · rw [hnone] at hlock
          cases hlock
        · exact absurd (h.exclusive hq hp halive hap hh hheld) hqp
      · rw [hidle] at hh
        cases hh
  · -- a new process has one creator
    have hback : ∀ {q : Nat}, q < NPROC → Alive (t'.proc q) → newborn (t'.pc q) = some np →
        (Alive (t.proc q) ∧ newborn (t.pc q) = some np) ∨
          (q = p ∧ n = some (.created np)) := fun {q} hq ha hnew => by
      by_cases hqp : q = p
      · subst hqp
        rcases hown.newborn np hnew with hold | hcr
        · exact Or.inl ⟨hap, hold⟩
        · exact Or.inr ⟨rfl, hcr⟩
      · rcases hc.alive_before ho h hp hap hq hqp ha with ⟨halive, hpc⟩ | hidle
        · exact Or.inl ⟨halive, hpc ▸ hnew⟩
        · rw [hidle] at hnew
          cases hnew
    have hclash : ∀ {q : Nat}, q < NPROC → Alive (t.proc q) → newborn (t.pc q) = some np →
        n ≠ some (.created np) := fun hq haq hnew hcr => by
      subst hcr
      have hused := hne_new hq haq hnew
      rw [hc.created_unused.2.1] at hused
      cases hused
    rcases hback hq haq hnq with ⟨haq', hnq'⟩ | ⟨rfl, hcr⟩
    · rcases hback hr har hnr with ⟨har', hnr'⟩ | ⟨rfl, hcr⟩
      · exact h.once q hq r hr np haq' har' hnq' hnr'
      · exact absurd hcr (hclash hq haq' hnq')
    · rcases hback hr har hnr with ⟨har', hnr'⟩ | ⟨rfl, -⟩
      · exact absurd hcr (hclash hr har' hnr')
      · rfl

theorem Change.own (hc : Change t p n t'.proc) (hap : Alive (t.proc p))
    (hdying : ∀ status, t.pc p ≠ .dying status) (hat : At t' p (t'.pc p))
    (hlock : holds (t'.pc p) = true → t'.waitLock = some p)
    (hkeep : t'.waitLock = t.waitLock ∨ t.waitLock = none ∨ holds (t.pc p) = true)
    (hnew : ∀ np, newborn (t'.pc p) = some np →
      newborn (t.pc p) = some np ∨ n = some (.created np))
    (hforked : ∀ np, t'.pc p = .forked np → t.pc p = .forked np ∨ n = some (.created np))
    (hexits : ∀ s, exitStatus (t'.pc p) = some s →
      exitStatus (t.pc p) = some s ∨ n = some (.exits s)) : Own t p n t' := by
  refine ⟨fun _ => hat, fun _ => hlock, hkeep, hnew, hforked, hexits, fun hz => ?_⟩
  rcases hc.alive hap with ha | ⟨-, status, hpc⟩
  · exact absurd hz ha.ne_zombie
  · exact absurd hpc (hdying status)

theorem noChild_succ {i : Nat} (hno : NoChild t p i) (hi : (t.proc i).parent ≠ some p) :
    NoChild t p (i + 1) := by
  intro q hq hlt
  rcases Nat.lt_succ_iff_lt_or_eq.mp hlt with hlt | rfl
  · exact hno q hq hlt
  · exact hi

theorem noChild_all {i : Nat} (hi : ¬ i < NPROC) (hno : NoChild t p i) : NoChild t p NPROC :=
  fun q hq _ => hno q hq (Nat.lt_of_lt_of_le hq (Nat.not_lt.mp hi))

theorem noChild_congr {i : Nat} (hparent : ∀ q, (t'.proc q).parent = (t.proc q).parent)
    (hno : NoChild t p i) : NoChild t' p i :=
  fun q hq hlt => by
    rw [hparent]
    exact hno q hq hlt

theorem allocSlot_own {j : Nat} {mem : Memory} (h : Inv t) (hap : Alive (t.proc p))
    (hpc : t.pc p = .allocating j) (hj : j < NPROC) (hu : (t.proc j).state = .UNUSED)
    (hs : allocSlot t p j mem = .done (t', n)) : Own t p n t' := by
  have hc := (allocSlot_change hpc hj hu hs).1
  have hdying : ∀ status, t.pc p ≠ .dying status := fun status => by simp [hpc]
  unfold allocSlot at hs
  simp only [setNextpid_proc] at hs
  split at hs
  · cases hs
    refine hc.own hap hdying ?_ ?_ (Or.inl rfl) ?_ ?_ ?_ <;> simp [At, holds, newborn, exitStatus]
  · split at hs
    · cases hs
    · cases hs
      refine hc.own hap hdying ?_ ?_ (Or.inl rfl) ?_ ?_ ?_
      · simp only [setPc_pc, update_self]
        refine ⟨hj, ?_, ?_⟩ <;> simp only [setPc_proc, setProc_proc, update_self]
        · rfl
        · exact h.unused j hj hu
      · simp [holds]
      · simp [newborn]
      · simp
      · simp [exitStatus]

theorem startExit_own {status : UInt32} (hap : Alive (t.proc p)) (hpc : t.pc p = .idle)
    (hs : startExit t p status = .done (t', n)) : Own t p n t' := by
  have hc := (startExit_change hap hpc hs).1
  have hdying : ∀ status, t.pc p ≠ .dying status := fun status => by simp [hpc]
  unfold startExit at hs
  split at hs
  · cases hs
  · rename_i hne
    cases hs
    refine hc.own hap hdying ?_ ?_ (Or.inl rfl) ?_ ?_ ?_
    · simp only [setPc_pc, update_self]
      exact fun heq => hne heq.symm
    · simp [holds]
    · simp [newborn]
    · simp
    · simp [exitStatus]

theorem startCall_own {c : Call} (hap : Alive (t.proc p)) (hpc : t.pc p = .idle)
    (hs : startCall t p c = .done (t', n)) : Own t p n t' := by
  have hc := (startCall_change hap hpc hs).1
  have hdying : ∀ status, t.pc p ≠ .dying status := fun status => by simp [hpc]
  cases c with
  | exit status => exact startExit_own hap hpc hs
  | _ =>
    cases hs
    refine hc.own hap hdying ?_ ?_ (Or.inl rfl) ?_ ?_ ?_ <;> simp [At, holds, newborn, exitStatus]

theorem Change.own_free {u : Table} {pc : Pc} (hc : Change t p n (u.setPc p pc).proc)
    (hap : Alive (t.proc p)) (hdying : ∀ status, t.pc p ≠ .dying status)
    (hat : At (u.setPc p pc) p pc) (hfree : holds pc = false) (hnew : newborn pc = none)
    (hexits : exitStatus pc = none)
    (hkeep : u.waitLock = t.waitLock ∨ holds (t.pc p) = true) : Own t p n (u.setPc p pc) := by
  refine hc.own hap hdying ?_ ?_ ?_ ?_ ?_ ?_
  · rwa [setPc_pc, update_self]
  · rw [setPc_pc, update_self, hfree]
    nofun
  · exact hkeep.imp_right Or.inr
  · rw [setPc_pc, update_self, hnew]
    nofun
  · rw [setPc_pc, update_self]
    rintro np rfl
    cases hnew
  · rw [setPc_pc, update_self, hexits]
    nofun

theorem Change.own_held {u : Table} {pc : Pc} (hc : Change t p n (u.setPc p pc).proc) (h : Inv t)
    (hp : p < NPROC) (hap : Alive (t.proc p)) (hdying : ∀ status, t.pc p ≠ .dying status)
    (hat : At (u.setPc p pc) p pc) (hheld : holds (t.pc p) = true) (hnew : newborn pc = none)
    (hexits : ∀ s, exitStatus pc = some s → exitStatus (t.pc p) = some s)
    (hkeep : u.waitLock = t.waitLock) : Own t p n (u.setPc p pc) := by
  refine hc.own hap hdying ?_ ?_ (Or.inl hkeep) ?_ ?_ ?_
  · rwa [setPc_pc, update_self]
  · exact fun _ => hkeep.trans (h.lock p hp hap hheld)
  · rw [setPc_pc, update_self, hnew]
    nofun
  · rw [setPc_pc, update_self]
    rintro np rfl
    cases hnew
  · rw [setPc_pc, update_self]
    exact fun s hs => Or.inl (hexits s hs)

theorem Change.own_taken {pc : Pc} (hc : Change t p n ((t.setLock (some p)).setPc p pc).proc)
    (hap : Alive (t.proc p)) (hdying : ∀ status, t.pc p ≠ .dying status)
    (hat : At ((t.setLock (some p)).setPc p pc) p pc) (hnone : t.waitLock = none)
    (hnew : newborn pc = none)
    (hexits : ∀ s, exitStatus pc = some s → exitStatus (t.pc p) = some s) :
    Own t p n ((t.setLock (some p)).setPc p pc) := by
  refine hc.own hap hdying ?_ (fun _ => rfl) (Or.inr (Or.inl hnone)) ?_ ?_ ?_
  · rwa [setPc_pc, update_self]
  · rw [setPc_pc, update_self, hnew]
    nofun
  · rw [setPc_pc, update_self]
    rintro np rfl
    cases hnew
  · rw [setPc_pc, update_self]
    exact fun s hs => Or.inl (hexits s hs)

theorem noChild_zero (t : Table) (p : Nat) : NoChild t p 0 :=
  fun _ _ hlt => absurd hlt (Nat.not_lt_zero _)

theorem wakeSlot_parent (t : Table) (p : Nat) (chan : Option Nat) (j q : Nat) :
    ((wakeSlot t p chan j).proc q).parent = (t.proc q).parent :=
  (stirred_wakeSlot t p chan j q).parent

theorem advance_own {mem : Memory} (h : Inv t) (hp : p < NPROC) (hap : Alive (t.proc p))
    (hs : advance t p mem = .done (t', n)) : Own t p n t' := by
  have hc := (advance_change hap hs).1
  have hat := h.at_ p hp hap
  unfold advance at hs
  cases hpc : t.pc p with
  | idle =>
    rw [hpc] at hs
    cases hs
  | dead =>
    rw [hpc] at hs
    cases hs
  | allocating j =>
    simp only [hpc] at hs
    split at hs
    · rename_i hj
      split at hs
      · rename_i hu
        exact allocSlot_own h hap hpc hj hu hs
      · cases hs
        exact hc.own_free hap (by simp [hpc]) trivial rfl rfl rfl (Or.inl rfl)
    · cases hs
      exact hc.own_free hap (by simp [hpc]) trivial rfl rfl rfl (Or.inl rfl)
  | forked np =>
    simp only [hpc] at hs
    rw [hpc] at hat
    split at hs
    · cases hs
      refine hc.own hap (by simp [hpc]) ?_ ?_ (Or.inl rfl) ?_ ?_ ?_
      · simp only [setPc_pc, update_self]
        exact ⟨hat.1, by simp [hat.2.1]⟩
      · simp [holds]
      · simp [newborn, hpc]
      · simp
      · simp [exitStatus]
    · cases hs
  | publishing np =>
    simp only [hpc] at hs
    cases hs
    exact hc.own_free hap (by simp [hpc]) trivial rfl rfl rfl (Or.inl rfl)
  | exiting status =>
    simp only [hpc] at hs
    rw [hpc] at hat
    split at hs
    · rename_i hnone
      cases hs
      exact hc.own_taken hap (by simp [hpc]) ⟨hat, noChild_zero _ _⟩ hnone rfl
        (by simp [exitStatus, hpc])
    · cases hs
  | reparenting status i =>
    simp only [hpc] at hs
    rw [hpc] at hat
    split at hs
    · split at hs
      · cases hs
        refine hc.own_held h hp hap (by simp [hpc]) ⟨hat.1, ?_⟩ (by simp [hpc, holds]) rfl
          (by simp [exitStatus, hpc]) rfl
        intro q hq hlt
        simp only [setPc_proc, setProc_proc]
        by_cases hqi : q = i
        · subst hqi
          rw [update_self]
          exact fun heq => hat.1 (Option.some.inj heq).symm
        · rw [update_of_ne hqi]
          exact hat.2 q hq (by omega)
      · rename_i hchild
        cases hs
        exact hc.own_held h hp hap (by simp [hpc]) ⟨hat.1, noChild_succ hat.2 hchild⟩
          (by simp [hpc, holds]) rfl (by simp [exitStatus, hpc]) rfl
    · rename_i hi
      cases hs
      exact hc.own_held h hp hap (by simp [hpc]) ⟨hat.1, noChild_all hi hat.2⟩
        (by simp [hpc, holds]) rfl (by simp [exitStatus, hpc]) rfl
  | reparentWaking status i j =>
    simp only [hpc] at hs
    rw [hpc] at hat
    split at hs
    · cases hs
      exact hc.own_held h hp hap (by simp [hpc])
        ⟨fun heq => hat.1 (heq.trans (wakeSlot_initproc ..)),
          noChild_congr (wakeSlot_parent t p _ j) hat.2⟩
        (by simp [hpc, holds]) rfl (by simp [exitStatus, hpc]) (wakeSlot_waitLock ..)
    · cases hs
      exact hc.own_held h hp hap (by simp [hpc]) hat (by simp [hpc, holds]) rfl
        (by simp [exitStatus, hpc]) rfl
  | exitWaking status j =>
    simp only [hpc] at hs
    rw [hpc] at hat
    split at hs
    · cases hs
      exact hc.own_held h hp hap (by simp [hpc])
        ⟨fun heq => hat.1 (heq.trans (wakeSlot_initproc ..)),
          noChild_congr (wakeSlot_parent t p _ j) hat.2⟩
        (by simp [hpc, holds]) rfl (by simp [exitStatus, hpc]) (wakeSlot_waitLock ..)
    · cases hs
      exact hc.own_held h hp hap (by simp [hpc]) hat (by simp [hpc, holds]) rfl
        (by simp [exitStatus, hpc]) rfl
  | dying status =>
    simp only [hpc] at hs
    cases hs
    refine ⟨fun ha => absurd ?_ ha.ne_zombie, fun ha => absurd ?_ ha.ne_zombie,
      Or.inr (Or.inr (by simp [hpc, holds])), by simp [newborn], by simp, by simp [exitStatus],
      fun _ => by simp⟩ <;> simp
  | waiting addr =>
    simp only [hpc] at hs
    split at hs
    · rename_i hnone
      cases hs
      exact hc.own_taken hap (by simp [hpc]) (fun _ => noChild_zero _ _) hnone rfl nofun
    · cases hs
  | scanning addr i havekids =>
    simp only [hpc] at hs
    rw [hpc] at hat
    have hheld : holds (t.pc p) = true := by simp [hpc, holds]
    split at hs
    · split at hs
      · unfold scanChild at hs
        split at hs
        · split at hs
          · cases hs
            exact hc.own_free hap (by simp [hpc]) trivial rfl rfl rfl (Or.inr hheld)
          · cases hs
            exact hc.own_free hap (by simp [hpc]) trivial rfl rfl rfl (Or.inr hheld)
        · cases hs
          exact hc.own_held h hp hap (by simp [hpc]) nofun hheld rfl nofun rfl
      · rename_i hchild
        cases hs
        exact hc.own_held h hp hap (by simp [hpc]) (fun hk => noChild_succ (hat hk) hchild)
          hheld rfl nofun rfl
    · rename_i hi
      cases hs
      exact hc.own_held h hp hap (by simp [hpc]) (fun hk => noChild_all hi (hat hk))
        hheld rfl nofun rfl
  | checking addr havekids =>
    simp only [hpc] at hs
    have hheld : holds (t.pc p) = true := by simp [hpc, holds]
    split at hs
    · cases hs
      exact hc.own_free hap (by simp [hpc]) trivial rfl rfl rfl (Or.inr hheld)
    · cases hs
      exact hc.own_held h hp hap (by simp [hpc]) trivial hheld rfl nofun rfl
  | dozing addr =>
    simp only [hpc] at hs
    cases hs
    exact hc.own_free hap (by simp [hpc]) trivial rfl rfl rfl (Or.inr (by simp [hpc, holds]))
  | woken addr =>
    simp only [hpc] at hs
    cases hs
    exact hc.own_free hap (by simp [hpc]) trivial rfl rfl rfl (Or.inl rfl)
  | slept =>
    simp only [hpc] at hs
    cases hs
    exact hc.own_free hap (by simp [hpc]) trivial rfl rfl rfl (Or.inl rfl)
  | waking chan j =>
    simp only [hpc] at hs
    split at hs
    · cases hs
      exact hc.own_free hap (by simp [hpc]) trivial rfl rfl rfl (Or.inl (wakeSlot_waitLock ..))
    · cases hs
      exact hc.own_free hap (by simp [hpc]) trivial rfl rfl rfl (Or.inl rfl)
  | killing pid j =>
    simp only [hpc] at hs
    split at hs
    · split at hs
      · cases hs
        exact hc.own_free hap (by simp [hpc]) trivial rfl rfl rfl (Or.inl rfl)
      · cases hs
        exact hc.own_free hap (by simp [hpc]) trivial rfl rfl rfl (Or.inl rfl)
    · cases hs
      exact hc.own_free hap (by simp [hpc]) trivial rfl rfl rfl (Or.inl rfl)

theorem Inv.own_self {y : Proc} (h : Inv t) (hp : p < NPROC) (hap : Alive (t.proc p))
    (hy : Alive y) (hparent : y.parent = (t.proc p).parent) : Own t p none (t.setProc p y) := by
  have hparents : ∀ q, ((t.setProc p y).proc q).parent = (t.proc q).parent := fun q => by
    rw [setProc_proc]
    by_cases hq : q = p
    · subst hq
      rw [update_self, hparent]
    · rw [update_of_ne hq]
  have hat := h.at_ p hp hap
  refine ⟨fun _ => ?_, fun _ => h.lock p hp hap, Or.inl rfl, fun _ hnew => Or.inl hnew,
    fun _ hpc => Or.inl hpc, fun _ hs => Or.inl hs, fun hz => ?_⟩
  · rw [setProc_pc]
    have hused : ∀ {np : Nat}, (t.proc np).state = .USED → (t.setProc p y).proc np = t.proc np :=
      fun {np} hs => by
        rw [setProc_proc]
        refine update_of_ne ?_ _ _
        rintro rfl
        exact hap.ne_used hs
    cases hpc : t.pc p <;> rw [hpc] at hat
    case forked np => exact ⟨hat.1, by rw [hused hat.2.1]; exact hat.2⟩
    case publishing np => exact ⟨hat.1, by rw [hused hat.2]; exact hat.2⟩
    case scanning => exact fun hk => noChild_congr hparents (hat hk)
    case checking => exact fun hk => noChild_congr hparents (hat hk)
    case exiting => exact hat
    case reparenting => exact ⟨hat.1, noChild_congr hparents hat.2⟩
    case reparentWaking => exact ⟨hat.1, noChild_congr hparents hat.2⟩
    case exitWaking => exact ⟨hat.1, noChild_congr hparents hat.2⟩
    case dying => exact ⟨hat.1, noChild_congr hparents hat.2⟩
    all_goals trivial
  · rw [setProc_proc, update_self] at hz
    exact absurd hz hy.ne_zombie

theorem step_own (h : Inv t) (hok : allowed t a = true) (hs : step t a = .done (t', n)) :
    Own t a.actor n t' := by
  obtain ⟨hp, hap, -⟩ := step_change hok hs
  cases a with
  | call p c =>
    obtain ⟨-, hpc⟩ := Bool.and_eq_true_iff.mp hok
    exact startCall_own hap (of_decide_eq_true hpc) hs
  | advance p mem => exact advance_own h hp hap hs
  | trap p =>
    obtain ⟨-, hpc⟩ := Bool.and_eq_true_iff.mp hok
    unfold step at hs
    dsimp only at hs
    split at hs
    · exact startExit_own hap (of_decide_eq_true hpc) hs
    · cases hs
      exact ⟨h.at_ p hp, h.lock p hp, Or.inl rfl, fun _ hnew => Or.inl hnew,
        fun _ hpc => Or.inl hpc, fun _ hs => Or.inl hs, fun hz => absurd hz hap.ne_zombie⟩
  | schedule p =>
    cases hs
    exact h.own_self hp hap (Or.inr (Or.inr rfl)) rfl
  | yield p =>
    cases hs
    exact h.own_self hp hap (Or.inr (Or.inl rfl)) rfl
  | space p sz pagetable =>
    cases hs
    exact h.own_self hp hap hap rfl
  | chdir p cwd =>
    cases hs
    exact h.own_self hp hap hap rfl

/-- **One step keeps the invariant.** -/
theorem step_inv (h : Inv t) (hok : allowed t a = true) (hs : step t a = .done (t', n)) :
    Inv t' := by
  obtain ⟨hp, hap, hc, ho⟩ := step_change hok hs
  exact h.of_change hp hap hc ho (step_own h hok hs)

theorem Change.in_use (hc : Change t p n f) (h : Inv t) (hp : p < NPROC) (hap : Alive (t.proc p))
    (hn : n ≠ some (.created q)) (hu : (f q).state ≠ .UNUSED) :
    (t.proc q).state ≠ .UNUSED ∧ (f q).pid = (t.proc q).pid := by
  have hother : ∀ {i : Nat} {y : Proc}, (update t.proc i y q).state ≠ .UNUSED →
      (q = i → y.state ≠ .UNUSED → (t.proc i).state ≠ .UNUSED ∧ y.pid = (t.proc i).pid) →
      (t.proc q).state ≠ .UNUSED ∧ (update t.proc i y q).pid = (t.proc q).pid :=
    fun {i y} hq hy => by
      by_cases hqi : q = i
      · subst hqi
        rw [update_self] at hq ⊢
        exact hy rfl hq
      · rw [update_of_ne hqi] at hq ⊢
        exact ⟨hq, rfl⟩
  cases hc with
  | stir _ hs =>
    refine ⟨fun hun => hu ?_, (hs q).pid⟩
    rw [(hs q).unused hun, hun]
  | create j mem sz cwd =>
    refine hother hu fun hq => ?_
    subst hq
    exact absurd rfl hn
  | discard j => exact hother hu fun _ hy => absurd rfl hy
  | adopt np => exact hother hu fun _ hy => ⟨hy, rfl⟩
  | publish np hat =>
    have hnp := h.at_ p hp hap
    rw [hat] at hnp
    exact hother hu fun _ _ => ⟨by simp [hnp.2], rfl⟩
  | reparent status i => exact hother hu fun _ hy => ⟨hy, rfl⟩
  | die status => exact hother hu fun _ _ => ⟨hap.ne_unused, rfl⟩
  | reap addr i => exact hother hu fun _ hy => absurd rfl hy
  | kill pid j =>
    refine hother hu fun _ hy => ⟨fun hun => hy ?_, rfl⟩
    simp [slain, hun]

theorem Change.zombie_of (hc : Change t p n f) (hz : (f q).state = .ZOMBIE) :
    ((t.proc q).state = .ZOMBIE ∧ (f q).xstate = (t.proc q).xstate) ∨
      (q = p ∧ t.pc p = .dying (f q).xstate) := by
  have hother : ∀ {i : Nat} {y : Proc}, (update t.proc i y q).state = .ZOMBIE →
      (y.state = .ZOMBIE → (t.proc i).state = .ZOMBIE ∧ y.xstate = (t.proc i).xstate) →
      (t.proc q).state = .ZOMBIE ∧ (update t.proc i y q).xstate = (t.proc q).xstate :=
    fun {i y} hq hy => by
      by_cases hqi : q = i
      · subst hqi
        rw [update_self] at hq ⊢
        exact hy hq
      · rw [update_of_ne hqi] at hq ⊢
        exact ⟨hq, rfl⟩
  cases hc with
  | stir _ hs =>
    rcases (hs q).state with heq | ⟨-, hy⟩
    · exact Or.inl ⟨heq ▸ hz, (hs q).xstate⟩
    · exact absurd hz hy.ne_zombie
  | create j mem sz cwd => exact Or.inl (hother hz nofun)
  | discard j => exact Or.inl (hother hz nofun)
  | adopt np => exact Or.inl (hother hz fun hy => ⟨hy, rfl⟩)
  | publish np => exact Or.inl (hother hz nofun)
  | reparent status i => exact Or.inl (hother hz fun hy => ⟨hy, rfl⟩)
  | die status hat =>
    by_cases hq : q = p
    · subst hq
      rw [update_self]
      exact Or.inr ⟨rfl, hat⟩
    · rw [update_of_ne hq] at hz ⊢
      exact Or.inl ⟨hz, rfl⟩
  | reap addr i => exact Or.inl (hother hz nofun)
  | kill pid j =>
    refine Or.inl (hother hz fun hy => ⟨?_, rfl⟩)
    by_cases hs : (t.proc j).state = .SLEEPING
    · simp [slain, hs] at hy
    · simpa [slain, hs] using hy

theorem Change.zombie_stays (hc : Change t p n f) (h : Inv t) (hp : p < NPROC)
    (hap : Alive (t.proc p)) (hz : (t.proc q).state = .ZOMBIE) :
    (∃ pid addr stored, n = some (.reaped q pid addr stored)) ∨ ((f q).state = .ZOMBIE ∧
      (f q).pid = (t.proc q).pid ∧ (f q).xstate = (t.proc q).xstate) := by
  have hother : ∀ {i : Nat} {y : Proc}, (q = i → y.state = .ZOMBIE ∧ y.pid = (t.proc i).pid ∧
      y.xstate = (t.proc i).xstate) → (update t.proc i y q).state = .ZOMBIE ∧
      (update t.proc i y q).pid = (t.proc q).pid ∧
      (update t.proc i y q).xstate = (t.proc q).xstate := fun {i y} hy => by
    by_cases hqi : q = i
    · subst hqi
      rw [update_self]
      exact hy rfl
    · rw [update_of_ne hqi]
      exact ⟨hz, rfl, rfl⟩
  have hstate : ∀ {i : Nat}, (t.proc i).state ≠ .ZOMBIE → q ≠ i := fun hi heq => hi (heq ▸ hz)
  cases hc with
  | stir _ hs =>
    rcases (hs q).state with heq | ⟨hx, -⟩
    · exact Or.inr ⟨heq.trans hz, (hs q).pid, (hs q).xstate⟩
    · exact absurd hz hx.ne_zombie
  | create j mem sz cwd _ hu => exact Or.inr (hother fun heq => absurd heq (hstate (by simp [hu])))
  | discard j _ hu => exact Or.inr (hother fun heq => absurd heq (hstate (by simp [hu])))
  | adopt np => exact Or.inr (hother fun heq => ⟨heq ▸ hz, rfl, rfl⟩)
  | publish np hat =>
    have hnp := h.at_ p hp hap
    rw [hat] at hnp
    exact Or.inr (hother fun heq => absurd heq (hstate (by simp [hnp.2])))
  | reparent status i => exact Or.inr (hother fun heq => ⟨heq ▸ hz, rfl, rfl⟩)
  | die status => exact Or.inr (hother fun heq => absurd heq (hstate hap.ne_zombie))
  | reap addr i havekids stored =>
    by_cases hqi : q = i
    · subst hqi
      exact Or.inl ⟨_, _, _, rfl⟩
    · exact Or.inr (hother fun heq => absurd heq hqi)
  | kill pid j =>
    refine Or.inr (hother fun heq => ?_)
    subst heq
    exact ⟨by simp [slain, hz], rfl, rfl⟩

theorem step_waitFails (hinv : Inv t) (hok : allowed t a = true)
    (hs : step t a = .done (t', some .waitFails)) :
    (∀ q < NPROC, (t.proc q).parent ≠ some a.actor) ∨ (t.proc a.actor).killed = true ∨
      (t'.proc = t.proc ∧ ∃ mem addr i havekids, a = .advance a.actor mem ∧ mem.copied = false ∧
        t.pc a.actor = .scanning addr i havekids ∧ addr ≠ 0) := by
  obtain ⟨hp, hap, -⟩ := step_change hok hs
  have hat := hinv.at_ _ hp hap
  have hexit : ∀ {p : Nat} {status : UInt32}, startExit t p status ≠ .done (t', some .waitFails) :=
    fun {p status} h => by
      unfold startExit at h
      split at h <;> cases h
  cases a with
  | call p c => cases c <;> first | exact absurd hs hexit | cases hs
  | trap p =>
    unfold step at hs
    dsimp only at hs
    split at hs
    · exact absurd hs hexit
    · cases hs
  | advance p mem =>
    dsimp only [step, advance] at hs
    dsimp only [Act.actor] at hat ⊢
    cases hpc : t.pc p <;> simp only [hpc] at hs <;> rw [hpc] at hat
    case scanning addr i havekids =>
      split at hs
      · split at hs
        · unfold scanChild at hs
          split at hs
          · split at hs
            · rename_i hbad
              cases hs
              exact Or.inr (Or.inr ⟨rfl, mem, addr, i, havekids, rfl, hbad.2, rfl, hbad.1⟩)
            · cases hs
          · cases hs
        · cases hs
      · cases hs
    case checking addr havekids =>
      split at hs
      · rename_i hwhy
        refine hwhy.imp (fun hk q hq => hat hk q hq hq) Or.inl
      · cases hs
    case allocating j =>
      split at hs
      · split at hs
        · unfold allocSlot at hs
          dsimp only at hs
          split at hs
          · cases hs
          · split at hs <;> cases hs
        · cases hs
      · cases hs
    case killing pid j =>
      split at hs
      · split at hs <;> cases hs
      · cases hs
    all_goals first
      | cases hs
      | (split at hs <;> first | cases hs | (split at hs <;> cases hs))
  | _ => cases hs

theorem boot_proc (trapframe pagetable : Nat) (hq : q ≠ 0) :
    (boot trapframe pagetable).proc q = blank := by
  simp [boot, hq]

theorem boot_parent (trapframe pagetable : Nat) (q : Nat) :
    ((boot trapframe pagetable).proc q).parent = none := by
  by_cases hq : q = 0
  · subst hq
    rfl
  · rw [boot_proc _ _ hq]
    rfl

theorem boot_inv (trapframe pagetable : Nat) : Inv (boot trapframe pagetable) := by
  have hinit : Alive ((boot trapframe pagetable).proc 0) := Or.inr (Or.inl rfl)
  refine ⟨(by decide : 0 < NPROC), hinit, fun q _ r hr => ?_, fun q _ _ => boot_parent _ _ q,
    fun _ _ _ => rfl, fun q _ hz => ?_, fun _ _ _ => trivial, fun _ _ _ hh => ?_,
    fun _ _ _ _ _ _ _ hn => ?_⟩
  · rw [boot_parent] at hr
    cases hr
  · by_cases hq : q = 0
    · subst hq
      cases hz
    · rw [boot_proc _ _ hq] at hz
      cases hz
  · cases hh
  · cases hn

end Invariant

end Xv6.Ptable
