import Xv6.Sched.Steps

/-!
# Locks are not lost, not taken twice and not waited for in a circle

A CPU that waits for a lock holds only locks of a smaller rank (`Orderly`), and a lock that is
taken is one that its CPU still has to release (`Tight`).  With both, the tests of `acquire`,
`release` and `sched` never fail, and whoever holds a lock goes on, or waits for a process lock
whose holder goes on.
-/

namespace Xv6.Sched

open Transition Process Function

/-! ### The order in which a thread takes locks -/

/-- A process lock is taken last: no other lock is taken while one is held. -/
def Lock.rank : Lock → Nat
  | .proc _ => 1
  | .wait | .cond _ => 0

/-- `kexit` after `sched`. -/
def Frame.ended : Frame → Bool
  | .exit _ _ .dead => true
  | _ => false

/-- The frame, if there is one, is not behind the end of `kexit`. -/
def Goes (next : Option Frame) : Prop := ∀ g ∈ next, g.ended = false

/-- An instruction of the frame `top` takes a lock of a greater rank than those of the frame,
    and does not lead behind the end of `kexit`. -/
def Orderly (top : Frame) : Instr → Prop
  | .acquire x next => (∀ y ∈ top.locks, y.rank < x.rank) ∧ Goes next
  | .goto next | .release _ next | .write _ _ next | .alloc _ next | .reject _ next
  | .setCond _ _ next => Goes next
  | .sched .. => True
  | .rest => top.locks = []
  | .panic _ => False

section Orderly

variable {m : Machine} {c p : Nat} {ok : Bool} {f g after : Frame} {fs : List Frame}

theorem goes_none : Goes none := fun _ h => by cases h

theorem goes_some (h : g.ended = false) : Goes (some g) := fun g' hg => by
  cases hg
  exact h

theorem Frame.not_ended (h : f.locks = []) : f.ended = false := by
  unfold Frame.ended
  split
  · simp [Frame.locks] at h
  · rfl

theorem Frame.resumes_not_ended (h : f.resumes = true) : f.ended = false := by
  unfold Frame.ended
  split
  · cases h
  · rfl

theorem goes_head (hfs : ∀ f ∈ fs, f.locks = []) : Goes fs.head? := fun f hf =>
  Frame.not_ended (hfs f (List.mem_of_mem_head? hf))

theorem goes_append {next : Option Frame} (hn : Goes next) (hfs : ∀ f ∈ fs, f.locks = []) :
    Goes (next.toList ++ fs).head? := by
  cases next with
  | none => exact goes_head hfs
  | some g => exact hn

theorem sleepInstr_orderly {x : Slot} {chan : Chan} {lk : Lock} {k : SleepAt → Frame}
    (at_ : SleepAt) (hlocks : ∀ at_, (k at_).locks = at_.locks p lk) (hlk : lk.rank = 0)
    (hk : ∀ at_, (k at_).ended = false) (hafter : after.ended = false) :
    Orderly (k at_) (sleepInstr x p chan lk k after at_) := by
  cases at_ with
  | acquire =>
    refine ⟨fun y hy => ?_, goes_some (hk _)⟩
    rw [hlocks, SleepAt.locks, List.mem_singleton] at hy
    rw [hy, hlk]
    exact Nat.one_pos
  | retake =>
    refine ⟨fun y hy => ?_, goes_some hafter⟩
    rw [hlocks] at hy
    cases hy
  | sched => trivial
  | _ => exact goes_some (hk _)

theorem wakeInstr_orderly {chan : Option Chan} {k : Nat → WakeAt → Frame} {B : List Lock}
    (j : Nat) (at_ : WakeAt) (hlocks : ∀ j at_, (k j at_).locks = at_.locks j ++ B)
    (hB : ∀ y ∈ B, y.rank = 0) (hk : ∀ j at_, (k j at_).ended = false)
    (hafter : after.ended = false) : Orderly (k j at_) (wakeInstr m c chan j k after at_) := by
  cases at_ with
  | acquire =>
    dsimp only [wakeInstr]
    split
    · split
      · exact goes_some (hk ..)
      · refine ⟨fun y hy => ?_, goes_some (hk ..)⟩
        rw [hlocks] at hy
        rw [hB y hy]
        exact Nat.one_pos
    · exact goes_some hafter
  | test =>
    dsimp only [wakeInstr]
    split
    · exact goes_some (hk ..)
    · exact goes_some (hk ..)
  | release => exact goes_some (hk ..)

theorem orderly_first {x : Lock} (hf : f.locks = []) (hg : g.ended = false) :
    Orderly f (.acquire x (some g)) := by
  refine ⟨fun y hy => ?_, goes_some hg⟩
  rw [hf] at hy
  cases hy

theorem orderly_second {j : Nat} (hf : f.locks = [.wait]) (hg : g.ended = false) :
    Orderly f (.acquire (.proc j) (some g)) := by
  refine ⟨fun y hy => ?_, goes_some hg⟩
  rw [hf, List.mem_singleton] at hy
  rw [hy]
  exact Nat.one_pos

theorem killInstr_orderly (pid : Int) (j : Nat) (at_ : KillAt) :
    Orderly (.kill pid j at_) (killInstr m pid j at_) := by
  cases at_ with
  | acquire =>
    dsimp only [killInstr]
    split
    · exact orderly_first rfl rfl
    · exact goes_none
  | test =>
    dsimp only [killInstr]
    split
    · exact goes_some rfl
    · exact goes_some rfl
  | skip => exact goes_some rfl
  | found => exact goes_none

theorem forkInstr_orderly (p : Nat) (at_ : ForkAt) :
    Orderly (.fork p at_) (forkInstr m p ok at_) := by
  cases at_ with
  | acquire j =>
    dsimp only [forkInstr]
    split
    · exact orderly_first rfl rfl
    · exact goes_none
  | test j =>
    dsimp only [forkInstr]
    split
    · split
      · exact goes_some rfl
      · exact goes_some rfl
    · exact goes_some rfl
  | lockWait np => exact orderly_first rfl rfl
  | lockNew np => exact orderly_first rfl rfl
  | abort j => exact goes_none
  | finish np => exact goes_none
  | _ => exact goes_some rfl

theorem exitInstr_orderly (p : Nat) (status : UInt32) (at_ : ExitAt) (h : at_ ≠ .dead) :
    Orderly (.exit p status at_) (exitInstr m c p status at_) := by
  have hwait : ∀ y ∈ [Lock.wait], y.rank = 0 := by decide
  cases at_ with
  | lock => exact orderly_first rfl rfl
  | reparent i =>
    dsimp only [exitInstr]
    split
    · split
      · exact goes_some rfl
      · exact goes_some rfl
    · exact goes_some rfl
  | reparentWaking i j at_ =>
    exact wakeInstr_orderly (k := fun j at_ => .exit p status (.reparentWaking i j at_)) j at_
      (fun _ _ => rfl) hwait (fun _ _ => rfl) rfl
  | waking chan j at_ =>
    exact wakeInstr_orderly (k := fun j at_ => .exit p status (.waking chan j at_)) j at_
      (fun _ _ => rfl) hwait (fun _ _ => rfl) rfl
  | acquire => exact orderly_second rfl rfl
  | mark => exact goes_some rfl
  | unlock => exact goes_some rfl
  | sched => trivial
  | dead => exact absurd rfl h

theorem waitInstr_orderly (p addr : Nat) (at_ : WaitAt) :
    Orderly (.wait p addr at_) (waitInstr m p addr ok at_) := by
  cases at_ with
  | lock => exact orderly_first rfl rfl
  | scan i havekids =>
    dsimp only [waitInstr]
    split
    · split
      · exact orderly_second rfl rfl
      · exact goes_some rfl
    · exact goes_some rfl
  | test i =>
    dsimp only [waitInstr]
    split
    · split
      · exact goes_some rfl
      · exact goes_some rfl
    · exact goes_some rfl
  | killed => exact orderly_second rfl rfl
  | sleep at_ =>
    exact sleepInstr_orderly (k := fun at_ => .wait p addr (.sleep at_)) at_ (fun _ => rfl) rfl
      (fun _ => rfl) rfl
  | unlock => exact goes_none
  | _ => exact goes_some rfl

theorem waiterInstr_orderly (l : Nat) (at_ : WaiterAt) (hproc : (m.cpu c).proc = some p) :
    Orderly (.waiter l at_) (waiterInstr m c l ok at_) := by
  cases at_ with
  | acquire => exact orderly_first rfl rfl
  | test =>
    dsimp only [waiterInstr]
    rw [hproc]
    split
    · exact goes_some rfl
    · exact goes_some rfl
  | sleep p at_ =>
    exact sleepInstr_orderly (k := fun at_ => .waiter l (.sleep p at_)) at_ (fun _ => rfl) rfl
      (fun _ => rfl) rfl
  | use =>
    dsimp only [waiterInstr]
    split
    · exact goes_some rfl
    · exact goes_some rfl
  | release => exact goes_none

theorem wakerInstr_orderly (l : Nat) (at_ : WakerAt) :
    Orderly (.waker l at_) (wakerInstr m c l at_) := by
  cases at_ with
  | acquire => exact orderly_first rfl rfl
  | set => exact goes_some rfl
  | waking j at_ =>
    refine wakeInstr_orderly (k := fun j at_ => .waker l (.waking j at_)) (B := [.cond l]) j at_
      (fun _ _ => rfl) (fun y hy => ?_) (fun _ _ => rfl) rfl
    rw [List.mem_singleton.mp hy]
    rfl
  | release => exact goes_none

/-- **Every instruction of a process is orderly.** -/
theorem instr_orderly (f : Frame) (hproc : (m.cpu c).proc = some p) (hf : f.ended = false) :
    Orderly f (instr m c ok f) := by
  cases f with
  | user => rfl
  | forkret p => exact goes_some rfl
  | yield p at_ =>
    cases at_ with
    | acquire => exact orderly_first rfl rfl
    | mark => exact goes_some rfl
    | sched => trivial
    | release => exact goes_none
  | kill pid j at_ => exact killInstr_orderly pid j at_
  | fork p at_ => exact forkInstr_orderly p at_
  | exit p status at_ =>
    refine exitInstr_orderly p status at_ ?_
    rintro rfl
    cases hf
  | wait p addr at_ => exact waitInstr_orderly p addr at_
  | waiter l at_ => exact waiterInstr_orderly l at_ hproc
  | waker l at_ => exact wakerInstr_orderly l at_

end Orderly

/-! ### Locks that are taken are held -/

/-- Every lock that is taken is one that the code on its CPU has to release, and no CPU is behind
    the end of `kexit`. -/
structure Tight (m : Machine) : Prop where
  held : ∀ x c, m.lock x = some c → x ∈ m.held c
  goes : ∀ c p, (m.cpu c).mode = .exec p → Goes (m.stack p).head?

section Tight

variable {m m' : Machine} {c : Nat} {top : Frame} {fs : List Frame} {next : Option Frame}

theorem frames_orderly (ht : Tight m) (h : Inv m) (hfr : m.frames c = top :: fs) (ok : Bool) :
    Orderly top (instr m c ok top) := by
  cases hmode : (m.cpu c).mode
  case exec p =>
    rw [frames_exec hmode] at hfr
    apply instr_orderly top (h.exec_proc hmode)
    apply ht.goes c p hmode top
    rw [hfr]
    rfl
  case irq j f =>
    unfold Machine.frames at hfr
    rw [hmode] at hfr
    cases hfr
    have hok := (h.cpu c).mode
    unfold ModeOk at hok
    rw [hmode] at hok
    obtain ⟨l, at_, rfl⟩ := hok
    exact wakerInstr_orderly l at_
  all_goals
    unfold Machine.frames at hfr
    rw [hmode] at hfr
    cases hfr

theorem Orderly.goes {i : Instr} (h : Orderly top i) : Goes i.next := by
  cases i with
  | acquire x next => exact h.2
  | sched p next => exact goes_none
  | rest => exact goes_none
  | panic e => exact goes_none
  | _ => exact h

theorem Continues.goes (hcont : Continues m c next m') (hnext : Goes next) {p : Nat}
    (hp : (m'.cpu c).mode = .exec p) : Goes (m'.stack p).head? := by
  obtain ⟨fs, hfr, hfs⟩ := hcont.frames
  rw [← frames_exec hp, hfr]
  exact goes_append hnext hfs

theorem Tight.of_elsewhere (ht : Tight m) (he : Elsewhere m c m')
    (hgoes : ∀ p, (m'.cpu c).mode = .exec p → Goes (m'.stack p).head?) : Tight m' := by
  constructor
  · intro x c' hx
    by_cases hcc : c' = c
    · subst hcc
      exact he.locks.held (fun y => ht.held y c') hx
    · rw [he.held_eq hcc]
      exact ht.held x c' (he.locks.elsewhere hcc hx)
  · intro c' p hp
    by_cases hcc : c' = c
    · subst hcc
      exact hgoes p hp
    · rw [he.cpu c' hcc] at hp
      rw [he.stack c' p hcc hp]
      exact ht.goes c' p hp

theorem step_tight {a : Act} (ht : Tight m) (h : Inv m) (hs : step m a = .done m') : Tight m' := by
  obtain ⟨c, hkind⟩ := step_kind h hs
  cases hkind with
  | idle hidle =>
    apply ht.of_elsewhere hidle.toElsewhere
    intro p hp
    obtain ⟨f, fs, hst, hf⟩ := hidle.exec p hp
    rw [hidle.stackEq, hst]
    exact goes_some (Frame.resumes_not_ended hf)
  | instr ok top fs hfr hcont =>
    exact ht.of_elsewhere hcont.toElsewhere fun p => hcont.goes (frames_orderly ht h hfr ok).goes
  | push f hfree hf hcont =>
    exact ht.of_elsewhere hcont.toElsewhere fun p => hcont.goes (goes_some (Frame.not_ended hf))

theorem boot_tight : Tight boot :=
  ⟨fun _ _ h => (by cases h), fun _ _ h => (by cases h)⟩

theorem reach_tight (hr : Reach m) : Tight m :=
  (Reachable.invariant (I := fun m => Inv m ∧ Tight m) ⟨boot_inv, boot_tight⟩
    (fun _ h _ hs => ⟨step_inv h.1 hs, step_tight h.2 h.1 hs⟩) hr).2

end Tight

/-! ### What a run never does -/

section Never

variable {m : Machine} {c : Nat} {ok : Bool} {x : Lock} {e : Panic}

/-- A lock is taken just while the code on its CPU has it to release, and once only. -/
theorem locks_exact (hr : Reach m) (x : Lock) (c : Nat) :
    (m.held c).Nodup ∧ (m.lock x = some c ↔ x ∈ m.held c) :=
  ⟨((reach_inv hr).cpu c).nodup, (reach_tight hr).held x c, ((reach_inv hr).cpu c).held x⟩

/-- The scheduler of CPU 1 looks at entry 1 while CPU 0 runs the first process, which makes a
    condition true and comes to entry 1. -/
def spinning : List Act := go 0 35 ++ go 1 4 ++ .call 0 (.signal 0) :: go 0 3

set_option maxRecDepth 8000 in
theorem reach_spinning : Reach (after spinning) := reach_after (by decide)

set_option maxRecDepth 8000 in
theorem locks_exact_spinning :
    Reach (after spinning) ∧ ((after spinning).held 1).Nodup ∧
      ((after spinning).lock (.proc 1) = some 1 ↔ .proc 1 ∈ (after spinning).held 1) :=
  ⟨reach_spinning, locks_exact reach_spinning (.proc 1) 1⟩

theorem acquire_safe (ht : Tight m) (hx : x ∉ m.held c) : acquire m c x ≠ .fail e := by
  intro hs
  unfold acquire at hs
  split at hs
  · cases hs
  · rename_i c' hlock
    split at hs
    · rename_i hcc
      exact hx (ht.held x c (hcc ▸ hlock))
    · cases hs

theorem acquire_blocked (hs : acquire m c x = .blocked) : ∃ c', c' ≠ c ∧ m.lock x = some c' := by
  unfold acquire at hs
  split at hs
  · cases hs
  · rename_i c' hlock
    split at hs
    · cases hs
    · rename_i hne
      exact ⟨c', hne, hlock⟩

theorem release_held (h : Inv m) (hx : x ∈ m.held c) :
    release m c x = .done (m.setLock x none) := if_pos ((h.cpu c).held x hx)

section Perform

variable {top : Frame} {fs : List Frame} {i : Instr} {p : Nat}

theorem release_performs (h : Inv m) (hfr : m.frames c = top :: fs) {next : Option Frame}
    (held : top.locks.Perm (x :: nextLocks next)) : ∃ m', perform m c fs (.release x next) = .done m' := by
  have hx : x ∈ m.held c := by
    rw [(h.frames_locks hfr).1, held.mem_iff]
    exact List.mem_cons_self
  exact ⟨_, by rw [perform, release_held h hx, Outcome.done_bind]⟩

theorem sched_performs (h : Inv m) (hfr : m.frames c = top :: fs) {g : Frame} {s : ProcState}
    (held : top.locks = [.proc p]) (own : (m.cpu c).proc = some p) (marked : top.mark = some s) :
    ∃ m', perform m c fs (.sched p (some g)) = .done m' := by
  have hheld := (h.frames_locks hfr).1
  have hlock : m.lock (.proc p) = some c := by
    refine (h.cpu c).held _ ?_
    rw [hheld, held]
    exact List.mem_singleton_self _
  have hnoff : m.noff c = 1 := by
    unfold Machine.noff
    rw [hheld, held]
    rfl
  have hok := (h.cpu c).mode
  rw [(h.cpu c).proc] at own
  unfold Machine.frames at hfr
  unfold ModeOk at hok
  have hstate : (m.proc p).state ≠ .RUNNING := by
    cases hmode : (m.cpu c).mode <;> rw [hmode] at hfr own hok <;> cases own <;>
      dsimp only at hfr hok
    case exec =>
      have hself := h.self p top (by rw [hfr]; exact List.mem_cons_self)
      rw [hok.1, hfr, show topMark (top :: fs) = some s from marked]
      rcases (Frame.mark_locks hself marked).2 with rfl | rfl | rfl <;> decide
    all_goals cases hfr
  rw [perform, enterSwtch, if_neg (not_not.mpr hlock), if_neg (not_not.mpr hnoff), if_neg hstate]
  exact ⟨_, rfl⟩

theorem perform_fail (ht : Tight m) (h : Inv m) (hfr : m.frames c = top :: fs)
    (hl : Legal m (m.cpu c).proc top i) (ho : Orderly top i) : perform m c fs i ≠ .fail e := by
  intro hs
  cases hl with
  | acquire x next held =>
    refine acquire_safe ht (fun hx => ?_) (Outcome.fail_of_bind hs)
    rw [(h.frames_locks hfr).1] at hx
    exact Nat.lt_irrefl _ (ho.1 x hx)
  | release x next held =>
    obtain ⟨m', hm'⟩ := release_performs h hfr held
    rw [hm'] at hs
    cases hs
  | sched p g s held own marked =>
    obtain ⟨m', hm'⟩ := sched_performs (g := g) h hfr held.1 own marked.1
    rw [hm'] at hs
    cases hs
  | panic e => exact ho
  | _ => cases hs

theorem perform_blocked (h : Inv m) (hfr : m.frames c = top :: fs)
    (hl : Legal m (m.cpu c).proc top i) (ho : Orderly top i) (hx : x ∈ m.held c)
    (hs : perform m c fs i = .blocked) : ∃ y c', c' ≠ c ∧ m.lock y = some c' ∧ x.rank < y.rank := by
  rw [(h.frames_locks hfr).1] at hx
  cases hl with
  | acquire y next held =>
    obtain ⟨c', hne, hy⟩ := acquire_blocked (Outcome.blocked_of_bind hs)
    exact ⟨y, c', hne, hy, ho.1 x hx⟩
  | release y next held =>
    obtain ⟨m', hm'⟩ := release_performs h hfr held
    rw [hm'] at hs
    cases hs
  | sched p g s held own marked =>
    obtain ⟨m', hm'⟩ := sched_performs (g := g) h hfr held.1 own marked.1
    rw [hm'] at hs
    cases hs
  | rest =>
    rw [show top.locks = [] from ho] at hx
    cases hx
  | _ => cases hs

end Perform

/-- Outside of threads and interrupt handlers, a CPU waits only where it holds no lock. -/
theorem scheduler_runs (h : Inv m) (hfr : m.frames c = []) (hx : x ∈ m.held c) (ok : Bool) :
    ∃ m', run m c ok = .done m' := by
  have hheld := (h.cpu c).held x hx
  unfold Machine.frames at hfr
  unfold Machine.held at hx
  unfold run
  cases hmode : (m.cpu c).mode <;> rw [hmode] at hfr hx <;> dsimp only at hfr hx ⊢
  case look j => cases hx
  case drop j =>
    rw [List.mem_singleton] at hx
    rw [release, if_pos (hx ▸ hheld)]
    exact ⟨_, rfl⟩
  case exec p =>
    rw [hfr] at hx
    cases hx
  case irq j f => cases hfr
  case saveSched j k => split <;> exact ⟨_, rfl⟩
  case saveProc p k => split <;> exact ⟨_, rfl⟩
  all_goals exact ⟨_, rfl⟩

theorem run_safe (ht : Tight m) (h : Inv m) : run m c ok ≠ .fail e := by
  cases hfr : m.frames c with
  | cons top fs =>
    rw [run_frames hfr]
    exact perform_fail ht h hfr (frames_legal h hfr ok) (frames_orderly ht h hfr ok)
  | nil =>
    intro hs
    cases hheld : m.held c with
    | cons x L =>
      obtain ⟨m', hm'⟩ := scheduler_runs h hfr (hheld ▸ List.mem_cons_self) ok
      rw [hm'] at hs
      cases hs
    | nil =>
      unfold run at hs
      unfold Machine.held at hheld
      cases hmode : (m.cpu c).mode <;> rw [hmode] at hs hheld <;> dsimp only at hs hheld
      case look j =>
        refine acquire_safe ht ?_ (Outcome.fail_of_bind hs)
        unfold Machine.held
        rw [hmode]
        exact List.not_mem_nil
      case exec p =>
        rw [hfr] at hs
        cases hs
      case irq j f =>
        rw [hfr] at hs
        cases hs
      all_goals cases hheld

theorem run_waits (ht : Tight m) (h : Inv m) (hx : m.lock x = some c) (ok : Bool) :
    (∃ m', run m c ok = .done m') ∨ ∃ y c', c' ≠ c ∧ m.lock y = some c' ∧ x.rank < y.rank := by
  have hmem := ht.held x c hx
  cases hs : run m c ok with
  | done m' => exact Or.inl ⟨m', rfl⟩
  | fail e => exact absurd hs (run_safe ht h)
  | blocked =>
    cases hfr : m.frames c with
    | cons top fs =>
      exact Or.inr (perform_blocked h hfr (frames_legal h hfr ok) (frames_orderly ht h hfr ok) hmem
        ((run_frames hfr).symm.trans hs))
    | nil =>
      obtain ⟨m', hm'⟩ := scheduler_runs h hfr hmem ok
      rw [hm'] at hs
      cases hs

end Never

end Xv6.Sched
