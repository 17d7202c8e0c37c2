import Xv6.Ptable.Reaping

/-!
# What is left in a free entry

`freeproc` clears an entry, and `allocproc` relies on it.  A free entry has pid 0, so
`kkill(0)` finds one and marks it; unless that happens, free entries stay clear, and a process
is marked only by a `kkill` that names it.

`allocpid` counts up and starts again at 1 without looking at the table: two processes have
different pids as long as it has not started again.
-/

namespace Xv6.Ptable

open Transition Process Function

/-! ### Free entries -/

/-- An entry as `freeproc` leaves it. -/
structure Blank (x : Proc) : Prop where
  pid : x.pid = 0
  parent : x.parent = none
  chan : x.chan = none
  killed : x.killed = false
  xstate : x.xstate = 0
  sz : x.sz = 0
  pagetable : x.pagetable = 0
  trapframe : x.trapframe = 0
  cwd : x.cwd = none

theorem freed_blank (x : Proc) : Blank (freed x) := ⟨rfl, rfl, rfl, rfl, rfl, rfl, rfl, rfl, rfl⟩

/-- `kkill` is not called with pid 0. -/
def sparing : Act → Bool
  | .call _ (.kill pid) => decide (pid ≠ 0)
  | _ => true

/-- The runs in which `kkill` is never called with pid 0. -/
def ReachSparing (trapframe pagetable : Nat) : Run → Prop :=
  Reachable ⟨boot trapframe pagetable, .start⟩ watch
    fun r a => (allowed r.table a && sparing a) = true

/-- Free entries are clear, and who is marked has been named. -/
structure Clean (t : Table) (h : History) : Prop where
  unused : ∀ q < NPROC, (t.proc q).state = .UNUSED → Blank (t.proc q)
  killed : ∀ q < NPROC, (t.proc q).state ≠ .UNUSED → (t.proc q).killed = true →
    h.named (h.who q) = true
  killing : ∀ p < NPROC, Alive (t.proc p) → ∀ pid j, t.pc p = .killing pid j → pid ≠ 0
  fresh : ∀ i, h.count ≤ i → h.named i = false

section Clean

variable {t t' : Table} {h : History} {p q : Nat} {a : Act} {n : Option Note} {f : Nat → Proc}

/-- How entry `q` comes to be free after a step of `p`, being `y` then: it was so before, it has
    been cleared, or `kkill` has found it. -/
def Vacant (t : Table) (p q : Nat) (y : Proc) : Prop :=
  ((t.proc q).state = .UNUSED ∧ y = t.proc q) ∨ Blank y ∨
    ((t.proc q).state = .UNUSED ∧ ∃ pid, t.pc p = .killing pid q ∧ ((t.proc q).pid : Int) = pid)

theorem Change.vacant (hc : Change t p n f) (hinv : Inv t) (hp : p < NPROC)
    (hap : Alive (t.proc p)) (hu : (f q).state = .UNUSED) : Vacant t p q (f q) := by
  have hother : ∀ {i : Nat} {y : Proc}, (update t.proc i y q).state = .UNUSED →
      (q = i → y.state = .UNUSED → Vacant t p i y) → Vacant t p q (update t.proc i y q) :=
    fun {i y} hu hy => by
      by_cases hq : q = i
      · subst hq
        rw [update_self] at hu ⊢
        exact hy rfl hu
      · rw [update_of_ne hq] at hu ⊢
        exact Or.inl ⟨hu, rfl⟩
  cases hc with
  | stir _ hs =>
    rcases (hs q).state with heq | ⟨-, hy⟩
    · have hun : (t.proc q).state = .UNUSED := heq ▸ hu
      exact Or.inl ⟨hun, (hs q).unused hun⟩
    · exact absurd hu hy.ne_unused
  | create j mem sz cwd => exact hother hu nofun
  | discard j => exact hother hu fun _ _ => Or.inr (Or.inl (freed_blank _))
  | adopt np hat =>
    refine hother hu fun _ hy => ?_
    have hnp := hinv.at_ p hp hap
    rw [hat] at hnp
    exact absurd (hnp.2.1.symm.trans hy) nofun
  | publish np => exact hother hu nofun
  | reparent status i hi _ hchild =>
    refine hother hu fun _ hy => ?_
    rw [hinv.unused i hi hy] at hchild
    cases hchild
  | die status => exact hother hu nofun
  | reap addr i => exact hother hu fun _ _ => Or.inr (Or.inl (freed_blank _))
  | kill pid j _ hat hfound =>
    refine hother hu fun _ hy => Or.inr (Or.inr ⟨?_, pid, hat, hfound⟩)
    by_cases hs : (t.proc j).state = .SLEEPING
    · simp [slain, hs] at hy
    · simpa [slain, hs] using hy

/-- `kkill` marks the process that it finds, and nothing else marks a process. -/
theorem Change.killed_of (hc : Change t p n f) (hk : (f q).killed = true) :
    (t.proc q).killed = true ∨ n = some (.named q) := by
  cases hc with
  | stir _ hs => exact Or.inl ((hs q).killed ▸ hk)
  | kill pid j =>
    rcases update_or hk with h | ⟨rfl, -⟩
    · exact Or.inl h
    · exact Or.inr rfl
  | discard j =>
    rcases update_or hk with h | ⟨-, h⟩
    · exact Or.inl h
    · cases h
  | reap addr i =>
    rcases update_or hk with h | ⟨-, h⟩
    · exact Or.inl h
    · cases h
  | _ =>
    rcases update_or hk with h | ⟨rfl, h⟩
    · exact Or.inl h
    · exact Or.inl h

theorem step_killing {pid : Int} {j : Nat} (hs : step t a = .done (t', n))
    (hpc : t'.pc a.actor = .killing pid j) :
    (∃ i, t.pc a.actor = .killing pid i) ∨ a = .call a.actor (.kill pid) := by
  have hexit : ∀ {p : Nat} {status : UInt32}, startExit t p status = .done (t', n) →
      t'.pc p ≠ .killing pid j := fun {p status} h => by
    unfold startExit at h
    split at h
    · cases h
    · cases h
      simp
  cases a with
  | call p c =>
    cases c with
    | kill pid' =>
      cases hs
      simp only [Act.actor, setPc_pc, update_self, Pc.killing.injEq] at hpc
      exact Or.inr (by rw [hpc.1]; rfl)
    | exit status => exact absurd hpc (hexit hs)
    | _ =>
      cases hs
      simp [Act.actor] at hpc
  | trap p =>
    unfold step at hs
    dsimp only at hs
    split at hs
    · exact absurd hpc (hexit hs)
    · cases hs
      exact Or.inl ⟨j, hpc⟩
  | advance p mem =>
    dsimp only [step, advance] at hs
    dsimp only [Act.actor] at hpc ⊢
    cases hat : t.pc p with
    | killing pid' i =>
      simp only [hat] at hs
      repeat' split at hs
      all_goals
        cases hs
        simp only [setPc_pc, update_self, Pc.killing.injEq, reduceCtorEq] at hpc
      exact Or.inl ⟨i, by rw [hpc.1]⟩
    | _ =>
      simp only [hat, allocSlot, scanChild] at hs
      repeat' split at hs
      all_goals
        cases hs
      all_goals simp at hpc
  | _ =>
    cases hs
    exact Or.inl ⟨j, hpc⟩

theorem History.after_who (h : History) (t : Table) (p : Nat) (hn : n ≠ some (.created q)) :
    (h.after t p n).who q = h.who q := by
  unfold History.after History.record
  split
  · rfl
  · split
    · refine update_of_ne ?_ _ _
      rintro rfl
      exact hn rfl
    all_goals first | rfl | (split <;> rfl)

theorem History.after_named (h : History) (t : Table) (p : Nat) {i : Nat}
    (hi : h.named i = true) : (h.after t p n).named i = true := by
  unfold History.after History.record
  split
  · exact hi
  · split
    case h_4 =>
      split
      · exact hi
      · dsimp only
        rw [update_apply, hi, ite_self]
    all_goals exact hi

theorem step_clean (hcl : Clean t h) (hk : Kept t h) (hinv : Inv t) (hok : allowed t a = true)
    (hsp : sparing a = true) (hs : step t a = .done (t', n)) :
    Clean t' (h.after t a.actor n) := by
  obtain ⟨hp, hap, hc, ho⟩ := step_change hok hs
  refine ⟨fun q hq hu => ?_, fun q hq hu hkilled => ?_, fun r hr har pid j hpc => ?_, fun i hi => ?_⟩
  · rcases hc.vacant hinv hp hap hu with ⟨hun, heq⟩ | hblank | ⟨hun, pid, hat, hpid⟩
    · exact heq ▸ hcl.unused q hq hun
    · exact hblank
    · -- a free entry has pid 0, which `kkill` was not called with
      rw [(hcl.unused q hq hun).pid] at hpid
      exact absurd hpid.symm (hcl.killing _ hp hap pid q hat)
  · by_cases hcr : n = some (.created q)
    · subst hcr
      have hun := hc.created_unused.2.1
      rw [hc.created_at.2.2.2, (hcl.unused q hq hun).killed] at hkilled
      cases hkilled
    · have hold := (hc.in_use hinv hp hap hcr hu).1
      rw [h.after_who t _ hcr]
      rcases hc.killed_of hkilled with hkilled | rfl
      · exact h.after_named t _ (hcl.killed q hq hold hkilled)
      · unfold History.after History.record
        dsimp only
        rw [if_neg hold]
        exact update_self ..
  · by_cases hra : r = a.actor
    · subst hra
      rcases step_killing hs hpc with ⟨i, hat⟩ | hcall
      · exact hcl.killing _ hp hap pid i hat
      · rw [hcall] at hsp
        exact of_decide_eq_true hsp
    · rcases hc.alive_before ho hinv hp hap hr hra har with ⟨har', heq⟩ | hidle
      · exact hcl.killing r hr har' pid j (heq ▸ hpc)
      · rw [hidle] at hpc
        cases hpc
  · unfold History.after History.record at hi ⊢
    split at hi
    · exact hcl.fresh i hi
    · split at hi
      case h_1 => exact hcl.fresh i (Nat.le_of_succ_le hi)
      case h_4 q =>
        split at hi
        · rename_i hun
          rw [if_pos hun]
          exact hcl.fresh i hi
        · rename_i hun
          rw [if_neg hun]
          have hlt := hk.lt q hc.named.1 hun
          exact (update_of_ne (Nat.ne_of_gt (Nat.lt_of_lt_of_le hlt hi)) ..).trans
            (hcl.fresh i hi)
      all_goals exact hcl.fresh i hi

theorem start_clean (trapframe pagetable : Nat) : Clean (boot trapframe pagetable) .start := by
  refine ⟨fun q _ hu => ?_, fun q _ _ hk => ?_, fun _ _ _ _ _ => nofun, fun _ _ => rfl⟩
  · by_cases hq : q = 0
    · subst hq
      cases hu
    · rw [boot_proc _ _ hq]
      exact ⟨rfl, rfl, rfl, rfl, rfl, rfl, rfl, rfl, rfl⟩
  · by_cases hq : q = 0
    · subst hq
      cases hk
    · rw [boot_proc _ _ hq] at hk
      cases hk

theorem reach_clean {trapframe pagetable : Nat} {r : Run} (hr : ReachSparing trapframe pagetable r) :
    Clean r.table r.history := by
  refine Reachable.invariant (I := fun r : Run => Clean r.table r.history) (start_clean ..)
    (fun {r r' a} hbefore hcl hok hs => ?_) hr
  obtain ⟨hinv, hk⟩ := reach_kept (hbefore.mono fun _ _ hok => (Bool.and_eq_true_iff.mp hok).1)
  obtain ⟨hok, hsp⟩ := Bool.and_eq_true_iff.mp hok
  unfold watch at hs
  split at hs
  · rename_i t' n hstep
    cases hs
    exact step_clean hcl hk hinv hok hsp hstep
  · cases hs
  · cases hs

end Clean

/-- **Entries are recycled clean**, unless `kkill` is called with pid 0: a free entry is clear, a
    process starts with `killed` clear, and `usertrap` ends a process only if a `kkill` has
    named it since it was created. -/
theorem recycled_clean {trapframe pagetable : Nat} {r : Run}
    (hr : ReachSparing trapframe pagetable r) :
    (∀ q < NPROC, (r.table.proc q).state = .UNUSED → Blank (r.table.proc q)) ∧
    ∀ a t' n, allowed r.table a = true → step r.table a = .done (t', n) →
      (∀ q, n = some (.created q) → (t'.proc q).killed = false ∧
        (r.history.after r.table a.actor n).named
          ((r.history.after r.table a.actor n).who q) = false) ∧
      (∀ q, n = some (.named q) → ∃ pid, r.table.pc a.actor = .killing pid q ∧
        ((r.table.proc q).pid : Int) = pid) ∧
      (∀ p status, a = .trap p → n = some (.exits status) →
        r.history.named (r.history.who p) = true) := by
  have hcl := reach_clean hr
  refine ⟨hcl.unused, fun a t' n hok hs => ?_⟩
  obtain ⟨hp, hap, hc, -⟩ := step_change hok hs
  refine ⟨fun q hn => ?_, fun q hn => ?_, fun p status ha hn => ?_⟩
  · subst hn
    obtain ⟨hq, hun, -⟩ := hc.created_unused
    refine ⟨hc.created_at.2.2.2.trans (hcl.unused q hq hun).killed, ?_⟩
    have hwho : (r.history.after r.table a.actor (some (.created q))).who q = r.history.count :=
      update_self ..
    rw [hwho]
    exact hcl.fresh _ (Nat.le_refl _)
  · subst hn
    exact hc.named.2
  · subst ha hn
    refine hcl.killed p hp hap.ne_unused ?_
    by_contra hk
    unfold step at hs
    dsimp only at hs
    rw [if_neg hk] at hs
    cases hs

section Example

/-- The first process forks and kills its child. -/
def slayOps : List Act :=
  [.schedule 0, .chdir 0 1, .call 0 .fork] ++ proceed 0 4 ++ [.call 0 (.kill 2)] ++ proceed 0 2 ++
    [.schedule 1]

def slayRun : Run := finalState watch (fun r a => allowed r.table a && sparing a) booted slayOps

theorem recycled_clean_slayRun :
    ReachSparing 0x87ffd000 0x87ffc000 slayRun ∧ (slayRun.table.proc 1).killed = true ∧
      (∀ q < NPROC, (slayRun.table.proc q).state = .UNUSED → Blank (slayRun.table.proc q)) ∧
      ∀ t' status, step slayRun.table (.trap 1) = .done (t', some (.exits status)) →
        slayRun.history.named (slayRun.history.who 1) = true := by
  have hruns : (run watch (fun r a => allowed r.table a && sparing a) booted slayOps).isSome =
      true := by decide
  have hr : ReachSparing 0x87ffd000 0x87ffc000 slayRun := reachable_finalState hruns
  obtain ⟨hblank, hstep⟩ := recycled_clean hr
  refine ⟨hr, by decide, hblank, fun t' status hs => ?_⟩
  exact (hstep (.trap 1) t' _ (by decide) hs).2.2 1 status rfl rfl

/-- The first process calls `kkill(0)`. -/
def strayOps : List Act := [.schedule 0, .chdir 0 1, .call 0 (.kill 0)] ++ proceed 0 2

/-- And then it forks. -/
def strayForkOps : List Act := strayOps ++ [.call 0 .fork] ++ proceed 0 4 ++ [.schedule 1]

def strayRun : Run := finalState watch (fun r a => allowed r.table a) booted strayOps

def strayForkRun : Run := finalState watch (fun r a => allowed r.table a) booted strayForkOps

/-- `kkill(0)` marks a free entry, and the process that is created in it is ended by
    `usertrap` though no `kkill` has named it. -/
theorem kkill_zero_marks :
    (Reach 0x87ffd000 0x87ffc000 strayRun ∧ (strayRun.table.proc 1).state = .UNUSED ∧
      (strayRun.table.proc 1).killed = true) ∧
    Reach 0x87ffd000 0x87ffc000 strayForkRun ∧
      allowed strayForkRun.table (.trap 1) = true ∧
      (step strayForkRun.table (.trap 1)).state?.map Prod.snd = some (some (.exits minusOne)) ∧
      strayForkRun.history.named (strayForkRun.history.who 1) = false := by
  have hstray : (run watch (fun r a => allowed r.table a) booted strayOps).isSome = true := by
    decide
  have hfork : (run watch (fun r a => allowed r.table a) booted strayForkOps).isSome = true := by
    decide
  exact ⟨⟨reachable_finalState hstray, by decide, by decide⟩,
    reachable_finalState hfork, by decide, by decide, by decide⟩

end Example

/-! ### Pids -/

/-- The pids that have been given out, as long as `allocpid` has not started again. -/
structure Numbered (t : Table) (h : History) : Prop where
  next : t.nextpid = succPid h.pids
  range : ∀ q < NPROC, (t.proc q).state ≠ .UNUSED → (t.proc q).pid ≤ h.pids
  distinct : ∀ q < NPROC, ∀ r < NPROC, (t.proc q).state ≠ .UNUSED → (t.proc r).state ≠ .UNUSED →
    (t.proc q).pid = (t.proc r).pid → q = r

section Numbered

variable {t t' : Table} {h : History} {a : Act} {n : Option Note}

theorem History.after_pids (h : History) (t : Table) (p : Nat) :
    (h.after t p n).pids = if takesPid n then h.pids + 1 else h.pids := by
  unfold History.after History.record
  split
  · rfl
  · split
    case h_4 => split <;> rfl
    all_goals rfl

theorem step_numbered (hnum : Numbered t h) (hinv : Inv t) (hok : allowed t a = true)
    (hs : step t a = .done (t', n)) (hlt : (h.after t a.actor n).pids < 2 ^ 31) :
    Numbered t' (h.after t a.actor n) := by
  obtain ⟨hp, hap, hc, ho⟩ := step_change hok hs
  have hpids := h.after_pids (n := n) t a.actor
  have hle : h.pids ≤ (h.after t a.actor n).pids := by
    rw [hpids]
    split <;> omega
  have hold : ∀ {q : Nat}, n ≠ some (.created q) → (t'.proc q).state ≠ .UNUSED →
      (t.proc q).state ≠ .UNUSED ∧ (t'.proc q).pid = (t.proc q).pid := fun hn hu =>
    hc.in_use hinv hp hap hn hu
  have hnew : ∀ {q : Nat}, n = some (.created q) → (t'.proc q).pid = h.pids + 1 ∧
      (h.after t a.actor n).pids = h.pids + 1 := fun {q} hn => by
    subst hn
    have hpids' : (h.after t a.actor (some (.created q))).pids = h.pids + 1 := hpids
    refine ⟨?_, hpids'⟩
    rw [hc.created_at.2.1, hnum.next, succPid, if_pos (hpids' ▸ hlt)]
  have hfresh : ∀ {q r : Nat}, r < NPROC → n = some (.created q) → n ≠ some (.created r) →
      (t'.proc r).state ≠ .UNUSED → (t'.proc q).pid ≠ (t'.proc r).pid :=
    fun {q r} hr hq hnr hu => by
      obtain ⟨hur, hpid⟩ := hold hnr hu
      have hrange := hnum.range r hr hur
      rw [(hnew hq).1, hpid]
      omega
  refine ⟨?_, fun q hq hu => ?_, fun q hq r hr hu hu' heq => ?_⟩
  · rw [ho.nextpid, hpids, hnum.next]
    split
    · rename_i htakes
      rw [hpids, if_pos htakes] at hlt
      conv_lhs => rw [succPid.eq_def h.pids, if_pos hlt]
    · rfl
  · by_cases hn : n = some (.created q)
    · rw [(hnew hn).1, (hnew hn).2]
    · obtain ⟨huq, hpid⟩ := hold hn hu
      rw [hpid]
      exact (hnum.range q hq huq).trans hle
  · by_cases hnq : n = some (.created q) <;> by_cases hnr : n = some (.created r)
    · rw [hnq] at hnr
      cases hnr
      rfl
    · exact absurd heq (hfresh hr hnq hnr hu')
    · exact absurd heq.symm (hfresh hq hnr hnq hu)
    · obtain ⟨huq, hpq⟩ := hold hnq hu
      obtain ⟨hur, hpr⟩ := hold hnr hu'
      exact hnum.distinct q hq r hr huq hur (by rw [← hpq, ← hpr, heq])

theorem start_numbered (trapframe pagetable : Nat) : Numbered (boot trapframe pagetable) .start := by
  have hzero : ∀ q, ((boot trapframe pagetable).proc q).state ≠ .UNUSED → q = 0 := fun q hq => by
    by_contra hne
    rw [boot_proc _ _ hne] at hq
    exact hq rfl
  refine ⟨rfl, fun q _ hq => ?_, fun q _ r _ hq hr _ => ?_⟩
  · rw [hzero q hq]
    rfl
  · rw [hzero q hq, hzero r hr]

theorem reach_numbered {trapframe pagetable : Nat} {r : Run} (hr : Reach trapframe pagetable r)
    (hlt : r.history.pids < 2 ^ 31) : Numbered r.table r.history := by
  revert hlt
  refine Reachable.invariant
    (I := fun r : Run => r.history.pids < 2 ^ 31 → Numbered r.table r.history)
    (fun _ => start_numbered ..) (fun {r r' a} hbefore ih hok hs hlt => ?_) hr
  have hinv := (reach_kept hbefore).1
  unfold watch at hs
  split at hs
  · rename_i t' n hstep
    cases hs
    refine step_numbered (ih ?_) hinv hok hstep hlt
    rw [History.after_pids] at hlt
    split at hlt <;> omega
  · cases hs
  · cases hs

end Numbered

/-- **Pids identify processes**, as long as `allocpid` has been called fewer than `2^31` times
    since boot. -/
theorem pids_distinct {trapframe pagetable : Nat} {r : Run} (hr : Reach trapframe pagetable r)
    (hlt : r.history.pids < 2 ^ 31) :
    ∀ q < NPROC, ∀ s < NPROC, (r.table.proc q).state ≠ .UNUSED →
      (r.table.proc s).state ≠ .UNUSED → (r.table.proc q).pid = (r.table.proc s).pid → q = s :=
  (reach_numbered hr hlt).distinct

section Example

theorem pids_distinct_slayRun :
    slayRun.history.pids = 2 ∧ ∀ q < NPROC, ∀ s < NPROC, (slayRun.table.proc q).state ≠ .UNUSED →
      (slayRun.table.proc s).state ≠ .UNUSED →
      (slayRun.table.proc q).pid = (slayRun.table.proc s).pid → q = s := by
  have hruns : (run watch (fun r a => allowed r.table a && sparing a) booted slayOps).isSome =
      true := by decide
  have hr : ReachSparing 0x87ffd000 0x87ffc000 slayRun := reachable_finalState hruns
  have hpids : slayRun.history.pids = 2 := by decide
  refine ⟨hpids, pids_distinct (hr.mono fun _ _ hok => (Bool.and_eq_true_iff.mp hok).1) ?_⟩
  rw [hpids]
  decide

/-- There is no memory for a trapframe. -/
def exhausted : Memory := ⟨0, 0, false⟩

section Fork

variable {trapframe pagetable : Nat} {t : Table} {h : History}

theorem fork_looks (hr : Reach trapframe pagetable ⟨t, h⟩) (hrun : (t.proc 0).state = .RUNNING)
    (hpc : t.pc 0 = .idle) : Reach trapframe pagetable ⟨t.setPc 0 (.allocating 1), h⟩ := by
  have hN : 0 < NPROC := by decide
  have hcall : Reach trapframe pagetable ⟨t.setPc 0 (.allocating 0), h⟩ :=
    .step (a := .call 0 .fork) hr (by simp [allowed, running, hrun, hpc, hN]) rfl
  refine .step (a := .advance 0 exhausted) hcall ?_ ?_
  · simp [allowed, running, hrun, hN]
  · simp [watch, step, advance, hrun, hN, History.after, Table.setPc]

/-- A `kfork` that fails takes a pid and leaves everything else as it was. -/
theorem failing_fork (hr : Reach trapframe pagetable ⟨t, h⟩) (hrun : (t.proc 0).state = .RUNNING)
    (hpc : t.pc 0 = .idle) (hfree : t.proc 1 = blank) :
    Reach trapframe pagetable ⟨t.setNextpid (succPid t.nextpid), h.record t 0 .discarded⟩ := by
  have hN : 0 < NPROC ∧ 1 < NPROC := by decide
  refine .step (a := .advance 0 exhausted) (fork_looks hr hrun hpc) ?_ ?_
  · simp [allowed, running, hrun, hN]
  · have hblank : freed blank = blank := by simp [freed, blank, Proc.clear, Proc.setTrapframe]
    have hproc : update t.proc 1 (freed (t.proc 1)) = t.proc := by
      rw [hfree, hblank, ← hfree, update_eq_self]
    have hpcs : update t.pc 0 .idle = t.pc := by rw [← hpc, update_eq_self]
    have hstate : (t.proc 1).state = .UNUSED := by rw [hfree]; rfl
    simp only [watch, step, advance, setPc_pc, update_self, hN, if_true, setPc_proc, hstate,
      allocSlot, exhausted, true_or, History.after, Act.actor]
    simp [Table.setProc, Table.setPc, Table.setNextpid, hproc, hpcs, History.record]

/-- A `kfork` that succeeds makes entry 1 a process with the next pid. -/
theorem working_fork (hr : Reach trapframe pagetable ⟨t, h⟩) (hrun : (t.proc 0).state = .RUNNING)
    (hpc : t.pc 0 = .idle) (hfree : t.proc 1 = blank) (cwd : Nat) (hcwd : (t.proc 0).cwd = some cwd) :
    ∃ r : Run, Reach trapframe pagetable r ∧ r.table.proc 0 = t.proc 0 ∧
      (r.table.proc 1).state = .USED ∧ (r.table.proc 1).pid = t.nextpid := by
  have hN : 0 < NPROC ∧ 1 < NPROC := by decide
  have hstate : (t.proc 1).state = .UNUSED := by rw [hfree]; rfl
  have hstep : watch ⟨t.setPc 0 (.allocating 1), h⟩ (.advance 0 plenty) =
      .done ⟨((((t.setPc 0 (.allocating 1)).setNextpid (succPid t.nextpid)).setProc 1
        (copied (t.proc 1) t.nextpid plenty (t.proc 0).sz cwd)).setPc 1 .idle).setPc 0 (.forked 1),
        h.record (t.setPc 0 (.allocating 1)) 0 (.created 1)⟩ := by
    simp only [watch, step, advance, setPc_pc, update_self, hN, if_true, setPc_proc, hstate,
      allocSlot, setNextpid_proc, hcwd]
    rfl
  refine ⟨_, .step (fork_looks hr hrun hpc) ?_ hstep, ?_, ?_, ?_⟩
  · simp [allowed, running, hrun, hN]
  · rfl
  · rfl
  · rfl

end Fork

/-- The first process runs, and forks without end. -/
def forkingRun : Run :=
  finalState watch (fun r a => allowed r.table a) booted [.schedule 0, .chdir 0 1]

theorem forkingRun_reach : Reach 0x87ffd000 0x87ffc000 forkingRun :=
  reachable_finalState (by decide)

/-- Every value of `nextpid` is reached. -/
theorem forking_nextpid (pid : Nat) (hlow : 2 ≤ pid) (hhigh : pid < 2 ^ 31) :
    ∃ h, Reach 0x87ffd000 0x87ffc000 ⟨forkingRun.table.setNextpid pid, h⟩ := by
  induction pid, hlow using Nat.le_induction with
  | base => exact ⟨forkingRun.history, forkingRun_reach⟩
  | succ pid hlow ih =>
    obtain ⟨h, hr⟩ := ih (by omega)
    have hnext : succPid pid = pid + 1 := if_pos hhigh
    rw [← hnext]
    exact ⟨_, failing_fork hr rfl rfl rfl⟩

/-- `kfork` has failed until `allocpid` starts again, and then it succeeds: the new process has
    the pid of the first one, which is still there. -/
theorem pid_given_twice : ∃ r : Run, Reach 0x87ffd000 0x87ffc000 r ∧
    (r.table.proc 0).state ≠ .UNUSED ∧ (r.table.proc 1).state ≠ .UNUSED ∧
    (r.table.proc 0).pid = (r.table.proc 1).pid := by
  obtain ⟨h, hr⟩ := forking_nextpid (2 ^ 31 - 1) (by decide) (by decide)
  obtain ⟨r, hr', hzero, hone, hpid⟩ :=
    working_fork (failing_fork hr rfl rfl rfl) rfl rfl rfl 1 rfl
  refine ⟨r, hr', ?_, ?_, ?_⟩
  · rw [hzero]
    nofun
  · rw [hone]
    nofun
  · rw [hzero, hpid]
    rfl

end Example

end Xv6.Ptable
