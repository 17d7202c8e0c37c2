import Xv6.Ptable.Invariant

/-!
# Every process is reaped once, by its parent

A run is watched from outside: each process gets a number when it is created, and it is
written down who created it, what it passed to `kexit`, who named it in `kkill`, and which
calls of `kwait` have returned it.
-/

namespace Xv6.Ptable

open Transition Process Function

/-- A call of `kwait` that has returned a process. -/
structure Return where
  /-- The process that made the call. -/
  waiter : Nat
  pid : Nat
  addr : Nat
  stored : Option UInt32
deriving DecidableEq, Repr

/-- What has happened so far.  Processes are numbered in the order of their creation. -/
structure History where
  count : Nat
  /-- The process that an entry of the table holds, or held last. -/
  who : Nat → Nat
  pid : Nat → Nat
  creator : Nat → Nat
  /-- The status with which a process has called `kexit`. -/
  exited : Nat → Option UInt32
  /-- A `kkill` has found the process. -/
  named : Nat → Bool
  returned : Nat → List Return
  /-- How many pids `allocpid` has given out. -/
  pids : Nat

def History.start : History where
  count := 1
  who := fun _ => 0
  pid := fun _ => 1
  creator := fun _ => 0
  exited := fun _ => none
  named := fun _ => false
  returned := fun _ => []
  pids := 1

/-- A call of `kwait` has returned process `i`. -/
def History.addReturn (h : History) (i : Nat) (x : Return) : History :=
  { h with returned := update h.returned i (x :: h.returned i) }

/-- What process `p` has done, in a table that was `t`, is written down. -/
def History.record (h : History) (t : Table) (p : Nat) : Note → History
  | .created np =>
    { h with
      count := h.count + 1
      who := update h.who np h.count
      pid := update h.pid h.count t.nextpid
      creator := update h.creator h.count (h.who p)
      pids := h.pids + 1 }
  | .discarded => { h with pids := h.pids + 1 }
  | .exits status => { h with exited := update h.exited (h.who p) (some status) }
  | .named q =>
    if (t.proc q).state = .UNUSED then h
    else { h with named := update h.named (h.who q) true }
  | .reaped q pid addr stored => h.addReturn (h.who q) ⟨h.who p, pid, addr, stored⟩
  | .waitFails => h

structure Run where
  table : Table
  history : History

def History.after (h : History) (t : Table) (p : Nat) (n : Option Note) : History :=
  match n with
  | none => h
  | some n => h.record t p n

def watch (r : Run) (a : Act) : Outcome Panic Run :=
  match step r.table a with
  | .done (t, n) => .done ⟨t, r.history.after r.table a.actor n⟩
  | .blocked => .blocked
  | .fail e => .fail e

def Reach (trapframe pagetable : Nat) : Run → Prop :=
  Reachable ⟨boot trapframe pagetable, .start⟩ watch fun r a => allowed r.table a = true

/-- A call of `kwait` that has returned process `i` has returned its pid, has stored what it
    passed to `kexit`, and was made by its creator, or by init when the creator had exited. -/
structure Return.Right (h : History) (i : Nat) (x : Return) : Prop where
  pid : x.pid = h.pid i
  status : ∃ s, h.exited i = some s ∧ x.stored = if x.addr ≠ 0 then some s else none
  waiter : x.waiter = h.creator i ∨ (x.waiter = 0 ∧ h.exited (h.creator i) ≠ none)

/-- The history says what the table shows. -/
structure Kept (t : Table) (h : History) : Prop where
  count_pos : 0 < h.count
  init : h.who t.initproc = 0
  lt : ∀ q < NPROC, (t.proc q).state ≠ .UNUSED → h.who q < h.count
  inj : ∀ q < NPROC, ∀ r < NPROC, (t.proc q).state ≠ .UNUSED → (t.proc r).state ≠ .UNUSED →
    h.who q = h.who r → q = r
  pid : ∀ q < NPROC, (t.proc q).state ≠ .UNUSED → h.pid (h.who q) = (t.proc q).pid
  live : ∀ q < NPROC, (t.proc q).state ≠ .UNUSED → h.returned (h.who q) = []
  fresh : ∀ i, h.count ≤ i → h.returned i = []
  exits : ∀ p < NPROC, Alive (t.proc p) → ∀ s, exitStatus (t.pc p) = some s →
    h.exited (h.who p) = some s
  zombie : ∀ q < NPROC, (t.proc q).state = .ZOMBIE → h.exited (h.who q) = some (t.proc q).xstate
  newborn : ∀ p < NPROC, Alive (t.proc p) → ∀ np, t.pc p = .forked np →
    h.creator (h.who np) = h.who p
  parent : ∀ q < NPROC, ∀ r, (t.proc q).parent = some r → h.creator (h.who q) = h.who r ∨
    (r = t.initproc ∧ h.exited (h.creator (h.who q)) ≠ none)
  once : ∀ i, (h.returned i).length ≤ 1
  returned : ∀ i, ∀ x ∈ h.returned i, i < h.count ∧ x.Right h i

section Kept

variable {t t' : Table} {h : History} {p q : Nat} {a : Act} {n : Option Note}

theorem Kept.move (hk : Kept t h) (hinit : t'.initproc = t.initproc)
    (huse : ∀ q < NPROC, (t'.proc q).state ≠ .UNUSED →
      (t.proc q).state ≠ .UNUSED ∧ (t'.proc q).pid = (t.proc q).pid)
    (hexits : ∀ p < NPROC, Alive (t'.proc p) → ∀ s, exitStatus (t'.pc p) = some s →
      h.exited (h.who p) = some s)
    (hzombie : ∀ q < NPROC, (t'.proc q).state = .ZOMBIE →
      h.exited (h.who q) = some (t'.proc q).xstate)
    (hnew : ∀ p < NPROC, Alive (t'.proc p) → ∀ np, t'.pc p = .forked np →
      h.creator (h.who np) = h.who p)
    (hparent : ∀ q < NPROC, ∀ r, (t'.proc q).parent = some r → h.creator (h.who q) = h.who r ∨
      (r = t'.initproc ∧ h.exited (h.creator (h.who q)) ≠ none)) : Kept t' h where
  count_pos := hk.count_pos
  init := hinit ▸ hk.init
  lt q hq hu := hk.lt q hq (huse q hq hu).1
  inj q hq r hr hu hu' := hk.inj q hq r hr (huse q hq hu).1 (huse r hr hu').1
  pid q hq hu := (hk.pid q hq (huse q hq hu).1).trans (huse q hq hu).2.symm
  live q hq hu := hk.live q hq (huse q hq hu).1
  fresh := hk.fresh
  exits := hexits
  zombie := hzombie
  newborn := hnew
  parent := hparent
  once := hk.once
  returned := hk.returned

theorem Kept.exits_now (hk : Kept t h) (hp : p < NPROC) (hap : Alive (t.proc p))
    (hpc : t.pc p = .idle) (status : UInt32) : Kept t (h.record t p (.exits status)) := by
  have hother : ∀ {i : Nat}, i ≠ h.who p →
      (h.record t p (.exits status)).exited i = h.exited i := fun hi => update_of_ne hi ..
  have hsome : ∀ {i : Nat}, h.exited i ≠ none →
      (h.record t p (.exits status)).exited i ≠ none := fun {i} hi => by
    by_cases hip : i = h.who p
    · rw [hip]
      show update h.exited (h.who p) (some status) (h.who p) ≠ none
      simp
    · rwa [hother hip]
  have hne : ∀ {q : Nat}, q < NPROC → (t.proc q).state ≠ .UNUSED → q ≠ p → h.who q ≠ h.who p :=
    fun hq hu hqp heq => hqp (hk.inj _ hq p hp hu hap.ne_unused heq)
  refine ⟨hk.count_pos, hk.init, hk.lt, hk.inj, hk.pid, hk.live, hk.fresh, fun r hr har s hs => ?_,
    fun q hq hz => ?_, hk.newborn, fun q hq r hr => ?_, hk.once, fun i x hx => ?_⟩
  · have hrp : r ≠ p := by
      rintro rfl
      rw [hpc] at hs
      cases hs
    exact (hother (hne hr har.ne_unused hrp)).trans (hk.exits r hr har s hs)
  · have hqp : q ≠ p := by
      rintro rfl
      exact hap.ne_zombie hz
    exact (hother (hne hq (by simp [hz]) hqp)).trans (hk.zombie q hq hz)
  · exact (hk.parent q hq r hr).imp_right fun ⟨heq, hex⟩ => ⟨heq, hsome hex⟩
  · obtain ⟨hlt, hpid, ⟨s, hs, hst⟩, hw⟩ := hk.returned i x hx
    have hip : i ≠ h.who p := by
      rintro rfl
      have hx' : x ∈ h.returned (h.who p) := hx
      rw [hk.live p hp hap.ne_unused] at hx'
      cases hx'
    exact ⟨hlt, hpid, ⟨s, (hother hip).trans hs, hst⟩, hw.imp_right fun ⟨heq, hex⟩ => ⟨heq, hsome hex⟩⟩

theorem Kept.returns (hk : Kept t h) {i : Nat} {s : UInt32} {w pid addr : Nat}
    (hlt : i < h.count) (hgone : ∀ q < NPROC, (t.proc q).state ≠ .UNUSED → h.who q ≠ i)
    (hnone : h.returned i = []) (hs : h.exited i = some s) (hpid : pid = h.pid i)
    (hw : w = h.creator i ∨ (w = 0 ∧ h.exited (h.creator i) ≠ none)) :
    Kept t (h.addReturn i ⟨w, pid, addr, if addr ≠ 0 then some s else none⟩) := by
  refine ⟨hk.count_pos, hk.init, hk.lt, hk.inj, hk.pid, fun q hq hu => ?_, fun j hj => ?_, hk.exits,
    hk.zombie, hk.newborn, hk.parent, fun j => ?_, fun j x hx => ?_⟩
  · exact (update_of_ne (hgone q hq hu) ..).trans (hk.live q hq hu)
  · have hj' : h.count ≤ j := hj
    exact (update_of_ne (by omega) ..).trans (hk.fresh j hj)
  all_goals by_cases hji : j = i
  · subst hji
    simp [History.addReturn, hnone]
  · simp only [History.addReturn, update_of_ne hji]
    exact hk.once j
  · subst hji
    simp only [History.addReturn, update_self, hnone, List.mem_singleton] at hx
    subst hx
    exact ⟨hlt, hpid, ⟨s, hs, rfl⟩, hw⟩
  · simp only [History.addReturn, update_of_ne hji] at hx
    obtain ⟨hj, hpid', hs', hw'⟩ := hk.returned j x hx
    exact ⟨hj, hpid', hs', hw'⟩

theorem Kept.carry (hk : Kept t h) (hinv : Inv t) (hp : p < NPROC) (hap : Alive (t.proc p))
    (hc : Change t p n t'.proc) (ho : Others t p n t') (hown : Own t p n t')
    (hn : ∀ q, n ≠ some (.created q))
    (hex : ∀ s, n = some (.exits s) → h.exited (h.who p) = some s) : Kept t' h := by
  refine hk.move ho.initproc (fun q _ hu => hc.in_use hinv hp hap (hn q) hu) (fun r hr har s hs => ?_)
    (fun q hq hz => ?_) (fun r hr har np hnp => ?_) fun q hq r hr => ?_
  · by_cases hrp : r = p
    · subst hrp
      exact (hown.exits s hs).elim (hk.exits r hp hap s) (hex s)
    · rcases hc.alive_before ho hinv hp hap hr hrp har with ⟨ha, hpc⟩ | hidle
      · exact hk.exits r hr ha s (hpc ▸ hs)
      · rw [hidle] at hs
        cases hs
  · rcases hc.zombie_of hz with ⟨hold, heq⟩ | ⟨rfl, hat⟩
    · exact (hk.zombie q hq hold).trans (congrArg some heq.symm)
    · exact hk.exits q hp hap _ (by rw [hat]; rfl)
  · by_cases hrp : r = p
    · subst hrp
      exact (hown.forked np hnp).elim (hk.newborn r hp hap np) fun hcr => absurd hcr (hn np)
    · rcases hc.alive_before ho hinv hp hap hr hrp har with ⟨ha, hpc⟩ | hidle
      · exact hk.newborn r hr ha np (hpc ▸ hnp)
      · rw [hidle] at hnp
        cases hnp
  · rw [ho.initproc]
    rcases hc.parent_of hr with hold | ⟨rfl, hat⟩ | ⟨rfl, status, hat, hold⟩
    · exact hk.parent q hq r hold
    · exact Or.inl (hk.newborn r hp hap q hat)
    · -- the child goes from its creator, which is exiting, to init
      have hne := hinv.at_ p hp hap
      rw [hat] at hne
      refine Or.inr ⟨rfl, ?_⟩
      rcases hk.parent q hq p hold with heq | ⟨heq, -⟩
      · rw [heq, hk.exits p hp hap status (by rw [hat]; rfl)]
        simp
      · exact absurd heq hne.1

theorem Kept.creates {j : Nat} (hk : Kept t h) (hinv : Inv t) (hp : p < NPROC)
    (hap : Alive (t.proc p)) (hc : Change t p (some (.created j)) t'.proc)
    (ho : Others t p (some (.created j)) t') (hown : Own t p (some (.created j)) t') :
    Kept t' (h.record t p (.created j)) := by
  obtain ⟨hj, hu, hused⟩ := hc.created_unused
  obtain ⟨hat, hpid, hparent, -⟩ := hc.created_at
  have hnone : (t'.proc j).parent = none := hparent.trans (hinv.unused j hj hu)
  have hne : ∀ {q : Nat}, (t.proc q).state ≠ .UNUSED → q ≠ j := fun hq heq => hq (heq ▸ hu)
  have hwho : ∀ {q : Nat}, q ≠ j → (h.record t p (.created j)).who q = h.who q :=
    fun hq => update_of_ne hq ..
  have hwhoj : (h.record t p (.created j)).who j = h.count := update_self ..
  have hpidOld : ∀ {i : Nat}, i < h.count → (h.record t p (.created j)).pid i = h.pid i :=
    fun hi => update_of_ne hi.ne ..
  have hcreator : ∀ {i : Nat}, i < h.count →
      (h.record t p (.created j)).creator i = h.creator i := fun hi => update_of_ne hi.ne ..
  have huse : ∀ {q : Nat}, q ≠ j → (t'.proc q).state ≠ .UNUSED →
      (t.proc q).state ≠ .UNUSED ∧ (t'.proc q).pid = (t.proc q).pid := fun hq huq =>
    hc.in_use hinv hp hap (fun heq => hq (by cases heq; rfl)) huq
  have halive : ∀ {r : Nat}, Alive (t'.proc r) → Alive (t.proc r) := fun {r} har => by
    rcases hc.of_alive har with ha | hpub
    · exact ha
    · rw [hat] at hpub
      cases hpub
  have hpc : ∀ {r : Nat}, r ≠ p → Alive (t'.proc r) → t'.pc r = t.pc r := fun hr har =>
    ho.pc_eq hc hr (halive har).ne_unused
  refine ⟨Nat.succ_pos _, ?_, fun q hq huq => ?_, fun q hq r hr huq hur heq => ?_, fun q hq huq => ?_,
    fun q hq huq => ?_, fun i hi => hk.fresh i (Nat.le_of_succ_le hi), fun r hr har s hs => ?_,
    fun q hq hz => ?_, fun r hr har np hnp => ?_, fun q hq r hr => ?_, hk.once, fun i x hx => ?_⟩
  · rw [ho.initproc, hwho (hne hinv.init_alive.ne_unused), hk.init]
  · by_cases hqj : q = j
    · rw [hqj, hwhoj]
      exact Nat.lt_succ_self _
    · rw [hwho hqj]
      exact Nat.lt_succ_of_lt (hk.lt q hq (huse hqj huq).1)
  · have hlt : ∀ {q : Nat}, q < NPROC → q ≠ j → (t'.proc q).state ≠ .UNUSED →
        (h.record t p (.created j)).who q ≠ h.count := fun hq hqj huq => by
      rw [hwho hqj]
      exact (hk.lt _ hq (huse hqj huq).1).ne
    by_cases hqj : q = j <;> by_cases hrj : r = j
    · rw [hqj, hrj]
    · rw [hqj, hwhoj] at heq
      exact absurd heq.symm (hlt hr hrj hur)
    · rw [hrj, hwhoj] at heq
      exact absurd heq (hlt hq hqj huq)
    · rw [hwho hqj, hwho hrj] at heq
      exact hk.inj q hq r hr (huse hqj huq).1 (huse hrj hur).1 heq
  · by_cases hqj : q = j
    · rw [hqj, hwhoj, hpid]
      exact update_self ..
    · obtain ⟨hold, heq⟩ := huse hqj huq
      rw [hwho hqj, hpidOld (hk.lt q hq hold), hk.pid q hq hold, heq]
  · by_cases hqj : q = j
    · rw [hqj, hwhoj]
      exact hk.fresh _ (Nat.le_refl _)
    · rw [hwho hqj]
      exact hk.live q hq (huse hqj huq).1
  · rw [hwho (hne (halive har).ne_unused)]
    by_cases hrp : r = p
    · subst hrp
      exact (hown.exits s hs).elim (hk.exits r hp hap s) nofun
    · exact hk.exits r hr (halive har) s (hpc hrp har ▸ hs)
  · rcases hc.zombie_of hz with ⟨hold, heq⟩ | ⟨-, hdying⟩
    · rw [hwho (hne (by simp [hold]))]
      exact (hk.zombie q hq hold).trans (congrArg some heq.symm)
    · rw [hat] at hdying
      cases hdying
  · -- an older newborn is in use, so it is not the new process
    have hold : ∀ {r np : Nat}, r < NPROC → Alive (t.proc r) → t.pc r = .forked np →
        (h.record t p (.created j)).creator ((h.record t p (.created j)).who np) =
          (h.record t p (.created j)).who r := fun {r np} hr har hnp => by
      have hrel := hinv.at_ r hr har
      rw [hnp] at hrel
      have hunp : (t.proc np).state ≠ .UNUSED := by simp [hrel.2.1]
      rw [hwho (hne hunp), hwho (hne har.ne_unused), hcreator (hk.lt np hrel.1 hunp),
        hk.newborn r hr har np hnp]
    by_cases hrp : r = p
    · subst hrp
      rcases hown.forked np hnp with hnp | hcr
      · exact hold hp hap hnp
      · cases hcr
        rw [hwhoj, hwho (hne hap.ne_unused)]
        exact update_self ..
    · exact hold hr (halive har) (hpc hrp har ▸ hnp)
  · have hqj : q ≠ j := by
      rintro rfl
      rw [hnone] at hr
      cases hr
    have hold : (t.proc q).parent = some r := by
      rcases hc.parent_of hr with hold | ⟨-, hforked⟩ | ⟨-, status, hrep, -⟩
      · exact hold
      · rw [hat] at hforked
        cases hforked
      · rw [hat] at hrep
        cases hrep
    have huq : (t.proc q).state ≠ .UNUSED := fun hun => by
      rw [hinv.unused q hq hun] at hold
      cases hold
    rw [hwho hqj, hwho (hne (hinv.parent q hq r hold).2.ne_unused), hcreator (hk.lt q hq huq),
      ho.initproc]
    exact hk.parent q hq r hold
  · obtain ⟨hi, hpidx, hs, hw⟩ := hk.returned i x hx
    refine ⟨Nat.lt_succ_of_lt hi, ?_, hs, ?_⟩
    · rw [hpidOld hi, hpidx]
    · rw [hcreator hi]
      exact hw

theorem Kept.aside (hk : Kept t h) (pids : Nat) (named : Nat → Bool) :
    Kept t { h with pids := pids, named := named } := by
  refine ⟨hk.count_pos, hk.init, hk.lt, hk.inj, hk.pid, hk.live, hk.fresh, hk.exits, hk.zombie,
    hk.newborn, hk.parent, hk.once, fun i x hx => ?_⟩
  obtain ⟨hi, hpid, hs, hw⟩ := hk.returned i x hx
  exact ⟨hi, hpid, hs, hw⟩

/-- **One step keeps the history.** -/
theorem step_kept (hk : Kept t h) (hinv : Inv t) (hok : allowed t a = true)
    (hs : step t a = .done (t', n)) : Kept t' (h.after t a.actor n) := by
  obtain ⟨hp, hap, hc, ho⟩ := step_change hok hs
  have hown := step_own hinv hok hs
  have hcarry : ∀ {h' : History}, Kept t h' → (∀ q, n ≠ some (.created q)) →
      (∀ s, n = some (.exits s) → h'.exited (h'.who a.actor) = some s) → Kept t' h' :=
    fun hk' => hk'.carry hinv hp hap hc ho hown
  generalize a.actor = p at *
  cases hn : n with
  | none =>
    subst hn
    exact hcarry hk nofun nofun
  | some note =>
    subst hn
    cases note with
    | created j => exact hk.creates hinv hp hap hc ho hown
    | discarded => exact hcarry (hk.aside _ _) nofun nofun
    | exits status =>
      refine hcarry (hk.exits_now hp hap hc.exits_idle status) nofun fun s heq => ?_
      cases heq
      exact update_self ..
    | named q =>
      refine hcarry ?_ nofun nofun
      unfold History.after History.record
      dsimp only
      split
      · exact hk
      · exact hk.aside _ _
    | reaped q pid addr stored =>
      obtain ⟨hq, hchild, hz, rfl, rfl, hfree⟩ := hc.reaped
      have huq : (t.proc q).state ≠ .UNUSED := by simp [hz]
      have hk' : Kept t' h := hcarry hk nofun nofun
      refine hk'.returns (hk.lt q hq huq) (fun r hr hur => ?_) (hk.live q hq huq)
        (hk.zombie q hq hz) (hk.pid q hq huq).symm ?_
      · have hur' := (hc.in_use hinv hp hap nofun hur).1
        intro heq
        rw [hk.inj r hr q hq hur' huq heq] at hur
        exact hur hfree
      · rcases hk.parent q hq p hchild with heq | ⟨rfl, hex⟩
        · exact Or.inl heq.symm
        · exact Or.inr ⟨hk.init, hex⟩
    | waitFails => exact hcarry hk nofun nofun

theorem start_kept (trapframe pagetable : Nat) : Kept (boot trapframe pagetable) .start := by
  have hzero : ∀ q, ((boot trapframe pagetable).proc q).state ≠ .UNUSED → q = 0 := fun q hq => by
    by_contra hne
    rw [boot_proc _ _ hne] at hq
    exact hq rfl
  refine ⟨Nat.one_pos, rfl, fun _ _ _ => Nat.one_pos, fun q _ r _ hq hr _ => ?_, fun q _ hq => ?_,
    fun _ _ _ => rfl, fun _ _ => rfl, fun _ _ _ _ => nofun, fun q _ hz => ?_, fun _ _ _ _ => nofun,
    fun q _ r hr => ?_, fun _ => Nat.zero_le _, fun _ _ => nofun⟩
  · rw [hzero q hq, hzero r hr]
  · rw [hzero q hq]
    rfl
  · have hq := hzero q (by simp [hz])
    subst hq
    cases hz
  · exact absurd hr (by rw [boot_parent]; simp)

theorem reach_kept {trapframe pagetable : Nat} {r : Run} (hr : Reach trapframe pagetable r) :
    Inv r.table ∧ Kept r.table r.history := by
  refine Reachable.invariant (I := fun r : Run => Inv r.table ∧ Kept r.table r.history)
    ⟨boot_inv .., start_kept ..⟩ (fun {r r' a} _ ⟨hinv, hk⟩ hok hs => ?_) hr
  unfold watch at hs
  split at hs
  · rename_i t' n hstep
    cases hs
    exact ⟨step_inv hinv hok hstep, step_kept hk hinv hok hstep⟩
  · cases hs
  · cases hs

end Kept

/-- **Every process is reaped at most once, by its parent.**  Whatever the interleaving of
    `kfork`, `kexit`, `kwait`, `kkill`, `sleep` and `wakeup`: a parent pointer leads to a
    process that has not exited, a zombie stays as it is until a `kwait` of its parent frees
    it, at most one `kwait` returns a process, and `kwait` fails only for one of its three
    reasons. -/
theorem reaped_once {trapframe pagetable : Nat} {r : Run} (hr : Reach trapframe pagetable r) :
    (∀ q < NPROC, ∀ p, (r.table.proc q).parent = some p → p < NPROC ∧
      (r.table.proc p).state ≠ .UNUSED ∧ (r.table.proc p).state ≠ .ZOMBIE) ∧
    (∀ i, (r.history.returned i).length ≤ 1 ∧ ∀ x ∈ r.history.returned i, x.Right r.history i) ∧
    r.history.who r.table.initproc = 0 ∧
    ∀ a t' n, allowed r.table a = true → step r.table a = .done (t', n) →
      (∀ q, (r.table.proc q).state = .ZOMBIE →
        (∃ pid addr stored, n = some (.reaped q pid addr stored)) ∨
        ((t'.proc q).state = .ZOMBIE ∧ (t'.proc q).pid = (r.table.proc q).pid ∧
          (t'.proc q).xstate = (r.table.proc q).xstate)) ∧
      (∀ q pid addr stored, n = some (.reaped q pid addr stored) →
        (r.table.proc q).parent = some a.actor ∧ (r.table.proc q).state = .ZOMBIE ∧
          (t'.proc q).state = .UNUSED) ∧
      (n = some .waitFails → (∀ q < NPROC, (r.table.proc q).parent ≠ some a.actor) ∨
        (r.table.proc a.actor).killed = true ∨
        (t'.proc = r.table.proc ∧ ∃ mem addr i havekids, a = .advance a.actor mem ∧
          mem.copied = false ∧ r.table.pc a.actor = .scanning addr i havekids ∧ addr ≠ 0)) := by
  obtain ⟨hinv, hk⟩ := reach_kept hr
  refine ⟨fun q hq p hparent => ?_, fun i => ⟨hk.once i, fun x hx => (hk.returned i x hx).2⟩, hk.init,
    fun a t' n hok hs => ?_⟩
  · obtain ⟨hp, hap⟩ := hinv.parent q hq p hparent
    exact ⟨hp, hap.ne_unused, hap.ne_zombie⟩
  · obtain ⟨hp, hap, hc, -⟩ := step_change hok hs
    refine ⟨fun q hz => hc.zombie_stays hinv hp hap hz, fun q pid addr stored hn => ?_, fun hn => ?_⟩
    · subst hn
      obtain ⟨-, hchild, hz, -, -, hfree⟩ := hc.reaped
      exact ⟨hchild, hz, hfree⟩
    · subst hn
      exact step_waitFails hinv hok hs

section Example

/-- Memory does not run out. -/
def plenty : Memory := ⟨0x87fff000, 0x87ffe000, true⟩

/-- `p` takes `n` steps of the call that it is in. -/
def proceed (p n : Nat) : List Act := List.replicate n (.advance p plenty)

/-- The first process forks, the child exits with 7, and the first process waits for it. -/
def family : List Act :=
  [.schedule 0, .chdir 0 1, .call 0 .fork] ++ proceed 0 4 ++ [.schedule 1, .call 1 (.exit 7)] ++
    proceed 1 132 ++ [.call 0 (.wait 0x4000)] ++ proceed 0 3

/-- A boot whose memory is at two fixed addresses. -/
def booted : Run := ⟨boot 0x87ffd000 0x87ffc000, .start⟩

set_option maxRecDepth 8000 in
theorem family_runs : (run watch (fun r a => allowed r.table a) booted family).isSome = true := by
  decide

def familyRun : Run := finalState watch (fun r a => allowed r.table a) booted family

set_option maxRecDepth 8000 in
theorem familyRun_returned :
    familyRun.history.returned 1 = [⟨0, 2, 0x4000, some 7⟩] := by
  decide

theorem reaped_once_familyRun :
    Reach 0x87ffd000 0x87ffc000 familyRun ∧
      familyRun.history.returned 1 = [⟨0, 2, 0x4000, some 7⟩] ∧
      (∀ q < NPROC, ∀ p, (familyRun.table.proc q).parent = some p → p < NPROC ∧
        (familyRun.table.proc p).state ≠ .UNUSED ∧ (familyRun.table.proc p).state ≠ .ZOMBIE) ∧
      ∀ i, (familyRun.history.returned i).length ≤ 1 ∧
        ∀ x ∈ familyRun.history.returned i, x.Right familyRun.history i := by
  have hr : Reach 0x87ffd000 0x87ffc000 familyRun := reachable_finalState family_runs
  obtain ⟨hparent, honce, -⟩ := reaped_once hr
  exact ⟨hr, familyRun_returned, hparent, honce⟩

end Example

end Xv6.Ptable
