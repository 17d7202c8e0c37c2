import Xv6.Sched.Model

/-!
# What an instruction may do

Whatever the frame, its next instruction changes the locks that the frame holds, the marks of
its process and the state of one entry in one of a few ways (`Legal`).
-/

namespace Xv6.Sched

open Transition Process

/-! ### What a frame says -/

/-- The state that the process of the frame has given itself. -/
def Frame.mark : Frame → Option ProcState
  | .yield _ .sched => some .RUNNABLE
  | .wait _ _ (.sleep .sched) | .waiter _ (.sleep _ .sched) => some .SLEEPING
  | .exit _ _ .unlock | .exit _ _ .sched => some .ZOMBIE
  | _ => none

/-- The process that `kfork` has allocated and has not made runnable yet. -/
def Frame.newborn : Frame → Option Nat
  | .fork _ (.unlock np) | .fork _ (.lockWait np) | .fork _ (.adopt np)
  | .fork _ (.unlockWait np) | .fork _ (.lockNew np) | .fork _ (.publish np) => some np
  | _ => none

/-- The variable `p` of the function, if it has one. -/
def Frame.self : Frame → Option Nat
  | .forkret p | .yield p _ | .fork p _ | .exit p _ _ | .wait p _ _ | .waiter _ (.sleep p _) =>
    some p
  | _ => none

/-- The frame goes on when `swtch` returns. -/
def Frame.resumes : Frame → Bool
  | .forkret _ | .yield _ .release | .wait _ _ (.sleep .clear) | .waiter _ (.sleep _ .clear) => true
  | _ => false

section Next

variable (next : Option Frame)

def nextLocks : List Lock := (next.map Frame.locks).getD []

def nextMark : Option ProcState := next.bind Frame.mark

def nextNewborn : Option Nat := next.bind Frame.newborn

end Next

/-- The instruction does not change what the frame says. -/
structure Plain (who : Option Nat) (top : Frame) (next : Option Frame) : Prop where
  mark : nextMark next = top.mark
  newborn : nextNewborn next = top.newborn
  self : ∀ g ∈ next, g.self = none ∨ g.self = who

/-- What the next instruction of the frame `top` may be, if `who` is the process that executes
    it. -/
inductive Legal (m : Machine) (who : Option Nat) (top : Frame) : Instr → Prop where
  | goto (next : Option Frame) (held : (nextLocks next).Perm top.locks)
      (plain : Plain who top next) : Legal m who top (.goto next)
  | acquire (x : Lock) (next : Option Frame) (held : (nextLocks next).Perm (x :: top.locks))
      (plain : Plain who top next) : Legal m who top (.acquire x next)
  | release (x : Lock) (next : Option Frame) (held : top.locks.Perm (x :: nextLocks next))
      (plain : Plain who top next) : Legal m who top (.release x next)
  | keep (j : Nat) (y : Slot) (next : Option Frame) (held : (nextLocks next).Perm top.locks)
      (plain : Plain who top next) (state : y.state = (m.proc j).state) :
      Legal m who top (.write j y next)
  | wake (j : Nat) (y : Slot) (next : Option Frame) (held : (nextLocks next).Perm top.locks)
      (plain : Plain who top next) (unmarked : top.mark = none) (locked : .proc j ∈ top.locks)
      (old : (m.proc j).state = .SLEEPING) (new : y.state = .RUNNABLE) :
      Legal m who top (.write j y next)
  | mark (p : Nat) (y : Slot) (g : Frame) (held : g.locks.Perm top.locks) (own : who = some p)
      (unmarked : top.mark = none) (marked : g.mark = some y.state)
      (newborn : top.newborn = none ∧ g.newborn = none) (self : g.self = none ∨ g.self = who)
      (locked : .proc p ∈ top.locks) : Legal m who top (.write p y (some g))
  | publish (np : Nat) (y : Slot) (g : Frame) (held : g.locks.Perm top.locks)
      (unmarked : top.mark = none ∧ g.mark = none)
      (newborn : top.newborn = some np ∧ g.newborn = none) (self : g.self = none ∨ g.self = who)
      (locked : .proc np ∈ top.locks) (new : y.state = .RUNNABLE) :
      Legal m who top (.write np y (some g))
  | reap (j : Nat) (y : Slot) (next : Option Frame) (held : (nextLocks next).Perm top.locks)
      (plain : Plain who top next) (unmarked : top.mark = none) (locked : .proc j ∈ top.locks)
      (old : (m.proc j).state = .ZOMBIE) (new : y.state = .UNUSED) :
      Legal m who top (.write j y next)
  | alloc (j : Nat) (g : Frame) (held : g.locks.Perm top.locks)
      (unmarked : top.mark = none ∧ g.mark = none)
      (newborn : top.newborn = none ∧ g.newborn = some j) (self : g.self = none ∨ g.self = who)
      (locked : .proc j ∈ top.locks) (old : (m.proc j).state = .UNUSED) :
      Legal m who top (.alloc j (some g))
  | reject (j : Nat) (next : Option Frame) (held : (nextLocks next).Perm top.locks)
      (plain : Plain who top next) (old : (m.proc j).state = .UNUSED) :
      Legal m who top (.reject j next)
  | setCond (l : Nat) (b : Bool) (next : Option Frame) (held : (nextLocks next).Perm top.locks)
      (plain : Plain who top next) : Legal m who top (.setCond l b next)
  | sched (p : Nat) (g : Frame) (s : ProcState) (held : top.locks = [.proc p] ∧ g.locks = [.proc p])
      (own : who = some p) (marked : top.mark = some s ∧ g.mark = none)
      (newborn : top.newborn = none ∧ g.newborn = none) (self : g.self = who)
      (resumes : s ≠ .ZOMBIE → g.resumes = true) : Legal m who top (.sched p (some g))
  | rest : Legal m who top .rest
  | panic (e : Panic) : Legal m who top (.panic e)

section Legal

variable {m : Machine} {c : Nat} {ok : Bool} {who : Option Nat} {top g : Frame}

theorem plain_some (hmark : g.mark = top.mark) (hnew : g.newborn = top.newborn)
    (hself : g.self = none ∨ g.self = who) : Plain who top (some g) := by
  refine ⟨hmark, hnew, fun g' hg => ?_⟩
  cases hg
  exact hself

theorem plain_none (hmark : top.mark = none) (hnew : top.newborn = none) : Plain who top none :=
  ⟨hmark.symm, hnew.symm, nofun⟩

/-- `sleep(chan, lk)`, wherever it is called. -/
theorem sleepInstr_legal {p : Nat} {chan : Chan} {lk : Lock} {k : SleepAt → Frame} {after : Frame}
    (at_ : SleepAt) (hlocks : ∀ at_, (k at_).locks = at_.locks p lk)
    (hmark : ∀ at_, (k at_).mark = if at_ = .sched then some .SLEEPING else none)
    (hnew : ∀ at_, (k at_).newborn = none) (hself : ∀ at_, (k at_).self = some p)
    (hresumes : (k .clear).resumes = true) (hafter : after.locks = [lk] ∧ after.mark = none ∧
      after.newborn = none ∧ (after.self = none ∨ after.self = some p)) :
    Legal m (some p) (k at_) (sleepInstr (m.proc p) p chan lk k after at_) := by
  have hplain : ∀ {a b : SleepAt}, a ≠ .sched → b ≠ .sched → Plain (some p) (k a) (some (k b)) :=
    fun ha hb => plain_some (by rw [hmark, hmark, if_neg ha, if_neg hb]) (by rw [hnew, hnew])
      (Or.inr (hself _))
  have hperm : ∀ {a b : SleepAt}, a.locks p lk = b.locks p lk →
      (k a).locks.Perm (k b).locks := fun hab => by rw [hlocks, hlocks, hab]
  cases at_ with
  | acquire =>
    refine .acquire _ _ ?_ (hplain nofun nofun)
    simp [nextLocks, hlocks, SleepAt.locks]
  | unlock =>
    refine .release _ _ ?_ (hplain nofun nofun)
    simpa [nextLocks, hlocks, SleepAt.locks] using List.Perm.swap _ _ _
  | setChan => exact .keep _ _ _ (hperm rfl) (hplain nofun nofun) rfl
  | mark =>
    refine .mark p _ _ (hperm rfl) rfl ?_ ?_ ⟨hnew _, hnew _⟩ (Or.inr (hself _)) ?_
    · rw [hmark, if_neg nofun]
    · rw [hmark, if_pos rfl]
      rfl
    · simp [hlocks, SleepAt.locks]
  | sched =>
    refine .sched p _ .SLEEPING ⟨hlocks _, hlocks _⟩ rfl ⟨?_, ?_⟩ ⟨hnew _, hnew _⟩ (hself _)
      fun _ => hresumes
    · rw [hmark, if_pos rfl]
    · rw [hmark, if_neg nofun]
  | clear => exact .keep _ _ _ (hperm rfl) (hplain nofun nofun) rfl
  | drop =>
    refine .release _ _ ?_ (hplain nofun nofun)
    simp [nextLocks, hlocks, SleepAt.locks]
  | retake =>
    obtain ⟨hl, hm, hn, hs⟩ := hafter
    refine .acquire _ _ ?_ (plain_some ?_ ?_ hs)
    · simp [nextLocks, hlocks, hl, SleepAt.locks]
    · rw [hm, hmark, if_neg nofun]
    · rw [hn, hnew]

/-- `wakeup(chan)`, wherever it is called; `B` are the locks of the caller. -/
theorem wakeInstr_legal {chan : Option Chan} {k : Nat → WakeAt → Frame} {after : Frame}
    {B : List Lock} (j : Nat) (at_ : WakeAt) (hlocks : ∀ j at_, (k j at_).locks = at_.locks j ++ B)
    (hmark : ∀ j at_, (k j at_).mark = none) (hnew : ∀ j at_, (k j at_).newborn = none)
    (hself : ∀ j at_, (k j at_).self = none ∨ (k j at_).self = who) (hafter : after.locks = B ∧
      after.mark = none ∧ after.newborn = none ∧ (after.self = none ∨ after.self = who)) :
    Legal m who (k j at_) (wakeInstr m c chan j k after at_) := by
  have hplain : ∀ {i j : Nat} {a b : WakeAt}, Plain who (k i a) (some (k j b)) :=
    plain_some (by rw [hmark, hmark]) (by rw [hnew, hnew]) (hself ..)
  cases at_ with
  | acquire =>
    dsimp only [wakeInstr]
    split
    · split
      · exact .goto _ (by simp [nextLocks, hlocks, WakeAt.locks]) hplain
      · exact .acquire _ _ (by simp [nextLocks, hlocks, WakeAt.locks]) hplain
    · obtain ⟨hl, hm, hn, hs⟩ := hafter
      refine .goto _ ?_ (plain_some (by rw [hm, hmark]) (by rw [hn, hnew]) hs)
      simp [nextLocks, hlocks, hl, WakeAt.locks]
  | test =>
    dsimp only [wakeInstr]
    split
    · rename_i hold
      exact .wake _ _ _ (by simp [nextLocks, hlocks, WakeAt.locks]) hplain (hmark ..)
        (by simp [hlocks, WakeAt.locks]) hold.1 rfl
    · exact .goto _ (by simp [nextLocks, hlocks, WakeAt.locks]) hplain
  | release => exact .release _ _ (by simp [nextLocks, hlocks, WakeAt.locks]) hplain

theorem yieldInstr_legal (p : Nat) (at_ : YieldAt) :
    Legal m (some p) (.yield p at_) (yieldInstr m p at_) := by
  cases at_ with
  | acquire => exact .acquire _ _ (List.Perm.refl _) (plain_some rfl rfl (Or.inr rfl))
  | mark =>
    exact .mark p _ _ (List.Perm.refl _) rfl rfl rfl ⟨rfl, rfl⟩ (Or.inr rfl) (List.mem_singleton_self _)
  | sched => exact .sched p _ .RUNNABLE ⟨rfl, rfl⟩ rfl ⟨rfl, rfl⟩ ⟨rfl, rfl⟩ rfl fun _ => rfl
  | release => exact .release _ _ (List.Perm.refl _) (plain_none rfl rfl)

theorem killInstr_legal (pid : Int) (j : Nat) (at_ : KillAt) :
    Legal m who (.kill pid j at_) (killInstr m pid j at_) := by
  cases at_ with
  | acquire =>
    dsimp only [killInstr]
    split
    · exact .acquire _ _ (List.Perm.refl _) (plain_some rfl rfl (Or.inl rfl))
    · exact .goto _ (List.Perm.refl _) (plain_none rfl rfl)
  | test =>
    dsimp only [killInstr]
    split
    · by_cases hs : (m.proc j).state = .SLEEPING
      · exact .wake _ _ _ (List.Perm.refl _) (plain_some rfl rfl (Or.inl rfl)) rfl
          (List.mem_singleton_self _) hs (by simp [hs])
      · exact .keep _ _ _ (List.Perm.refl _) (plain_some rfl rfl (Or.inl rfl)) (by simp [hs])
    · exact .goto _ (List.Perm.refl _) (plain_some rfl rfl (Or.inl rfl))
  | skip => exact .release _ _ (List.Perm.refl _) (plain_some rfl rfl (Or.inl rfl))
  | found => exact .release _ _ (List.Perm.refl _) (plain_none rfl rfl)

theorem forkInstr_legal (p : Nat) (at_ : ForkAt) :
    Legal m (some p) (.fork p at_) (forkInstr m p ok at_) := by
  have hplain : ∀ {a b : ForkAt}, (Frame.fork p b).newborn = (Frame.fork p a).newborn →
      Plain (some p) (.fork p a) (some (.fork p b)) := fun h => plain_some rfl h (Or.inr rfl)
  cases at_ with
  | acquire j =>
    dsimp only [forkInstr]
    split
    · exact .acquire _ _ (List.Perm.refl _) (hplain rfl)
    · exact .goto _ (List.Perm.refl _) (plain_none rfl rfl)
  | test j =>
    dsimp only [forkInstr]
    split
    · rename_i hold
      split
      · exact .alloc _ _ (List.Perm.refl _) ⟨rfl, rfl⟩ ⟨rfl, rfl⟩ (Or.inr rfl)
          (List.mem_singleton_self _) hold
      · exact .reject _ _ (List.Perm.refl _) (hplain rfl) hold
    · exact .goto _ (List.Perm.refl _) (hplain rfl)
  | skip j => exact .release _ _ (List.Perm.refl _) (hplain rfl)
  | abort j => exact .release _ _ (List.Perm.refl _) (plain_none rfl rfl)
  | unlock np => exact .release _ _ (List.Perm.refl _) (hplain rfl)
  | lockWait np => exact .acquire _ _ (List.Perm.refl _) (hplain rfl)
  | adopt np => exact .keep _ _ _ (List.Perm.refl _) (hplain rfl) rfl
  | unlockWait np => exact .release _ _ (List.Perm.refl _) (hplain rfl)
  | lockNew np => exact .acquire _ _ (List.Perm.refl _) (hplain rfl)
  | publish np =>
    exact .publish np _ _ (List.Perm.refl _) ⟨rfl, rfl⟩ ⟨rfl, rfl⟩ (Or.inr rfl)
      (List.mem_singleton_self _) rfl
  | finish np => exact .release _ _ (List.Perm.refl _) (plain_none rfl rfl)

theorem exitInstr_legal (p : Nat) (status : UInt32) (at_ : ExitAt) :
    Legal m (some p) (.exit p status at_) (exitInstr m c p status at_) := by
  have hplain : ∀ {a b : ExitAt}, (Frame.exit p status b).mark = (Frame.exit p status a).mark →
      Plain (some p) (.exit p status a) (some (.exit p status b)) := fun h =>
    plain_some h rfl (Or.inr rfl)
  cases at_ with
  | lock => exact .acquire _ _ (List.Perm.refl _) (hplain rfl)
  | reparent i =>
    dsimp only [exitInstr]
    split
    · split
      · exact .keep _ _ _ (List.Perm.refl _) (hplain rfl) rfl
      · exact .goto _ (List.Perm.refl _) (hplain rfl)
    · exact .goto _ (List.Perm.refl _) (hplain rfl)
  | reparentWaking i j at_ =>
    exact wakeInstr_legal (B := [.wait]) (k := fun j at_ => .exit p status (.reparentWaking i j at_))
      j at_ (fun _ _ => rfl) (fun _ _ => rfl) (fun _ _ => rfl) (fun _ _ => Or.inr rfl)
      ⟨rfl, rfl, rfl, Or.inr rfl⟩
  | waking chan j at_ =>
    exact wakeInstr_legal (B := [.wait]) (k := fun j at_ => .exit p status (.waking chan j at_))
      j at_ (fun _ _ => rfl) (fun _ _ => rfl) (fun _ _ => rfl) (fun _ _ => Or.inr rfl)
      ⟨rfl, rfl, rfl, Or.inr rfl⟩
  | acquire => exact .acquire _ _ (List.Perm.refl _) (hplain rfl)
  | mark =>
    exact .mark p _ _ (List.Perm.refl _) rfl rfl rfl ⟨rfl, rfl⟩ (Or.inr rfl) List.mem_cons_self
  | unlock => exact .release _ _ (List.Perm.swap ..) (hplain rfl)
  | sched => exact .sched p _ .ZOMBIE ⟨rfl, rfl⟩ rfl ⟨rfl, rfl⟩ ⟨rfl, rfl⟩ rfl fun h => absurd rfl h
  | dead => exact .panic _

theorem waitInstr_legal (p addr : Nat) (at_ : WaitAt) :
    Legal m (some p) (.wait p addr at_) (waitInstr m p addr ok at_) := by
  have hplain : ∀ {a b : WaitAt}, (Frame.wait p addr b).mark = (Frame.wait p addr a).mark →
      Plain (some p) (.wait p addr a) (some (.wait p addr b)) := fun h =>
    plain_some h rfl (Or.inr rfl)
  cases at_ with
  | lock => exact .acquire _ _ (List.Perm.refl _) (hplain rfl)
  | scan i havekids =>
    dsimp only [waitInstr]
    split
    · split
      · exact .acquire _ _ (List.Perm.refl _) (hplain rfl)
      · exact .goto _ (List.Perm.refl _) (hplain rfl)
    · cases havekids
      · exact .goto _ (List.Perm.refl _) (hplain rfl)
      · exact .goto _ (List.Perm.refl _) (hplain rfl)
  | test i =>
    dsimp only [waitInstr]
    split
    · rename_i hold
      split
      · exact .goto _ (List.Perm.refl _) (hplain rfl)
      · exact .reap _ _ _ (List.Perm.refl _) (hplain rfl) rfl List.mem_cons_self hold rfl
    · exact .goto _ (List.Perm.refl _) (hplain rfl)
  | skip i => exact .release _ _ (List.Perm.refl _) (hplain rfl)
  | drop i => exact .release _ _ (List.Perm.refl _) (hplain rfl)
  | killed => exact .acquire _ _ (List.Perm.refl _) (hplain rfl)
  | killedRead => exact .goto _ (List.Perm.refl _) (hplain rfl)
  | killedDone k =>
    cases k
    · exact .release _ _ (List.Perm.refl _) (hplain rfl)
    · exact .release _ _ (List.Perm.refl _) (hplain rfl)
  | sleep at_ =>
    exact sleepInstr_legal (k := fun at_ => .wait p addr (.sleep at_)) at_ (fun _ => rfl)
      (fun at_ => by cases at_ <;> rfl) (fun _ => rfl) (fun _ => rfl) rfl
      ⟨rfl, rfl, rfl, Or.inr rfl⟩
  | unlock => exact .release _ _ (List.Perm.refl _) (plain_none rfl rfl)

theorem waiterInstr_legal (l : Nat) (at_ : WaiterAt) (hproc : (m.cpu c).proc = who)
    (hself : (Frame.waiter l at_).self = none ∨ (Frame.waiter l at_).self = who) :
    Legal m who (.waiter l at_) (waiterInstr m c l ok at_) := by
  cases at_ with
  | acquire => exact .acquire _ _ (List.Perm.refl _) (plain_some rfl rfl (Or.inl rfl))
  | test =>
    dsimp only [waiterInstr]
    split
    · exact .goto _ (List.Perm.refl _) (plain_some rfl rfl (Or.inl rfl))
    · split
      · exact .panic _
      · rename_i p hp
        exact .goto _ (List.Perm.refl _) (plain_some rfl rfl (Or.inr (hp.symm.trans hproc)))
  | sleep p at_ =>
    have hwho : who = some p := (hself.resolve_left nofun).symm
    subst hwho
    exact sleepInstr_legal (k := fun at_ => .waiter l (.sleep p at_)) at_ (fun _ => rfl)
      (fun at_ => by cases at_ <;> rfl) (fun _ => rfl) (fun _ => rfl) rfl
      ⟨rfl, rfl, rfl, Or.inl rfl⟩
  | use =>
    dsimp only [waiterInstr]
    split
    · exact .setCond _ _ _ (List.Perm.refl _) (plain_some rfl rfl (Or.inl rfl))
    · exact .goto _ (List.Perm.refl _) (plain_some rfl rfl (Or.inl rfl))
  | release => exact .release _ _ (List.Perm.refl _) (plain_none rfl rfl)

theorem wakerInstr_legal (l : Nat) (at_ : WakerAt) :
    Legal m who (.waker l at_) (wakerInstr m c l at_) := by
  cases at_ with
  | acquire => exact .acquire _ _ (List.Perm.refl _) (plain_some rfl rfl (Or.inl rfl))
  | set => exact .setCond _ _ _ (List.Perm.refl _) (plain_some rfl rfl (Or.inl rfl))
  | waking j at_ =>
    exact wakeInstr_legal (B := [.cond l]) (k := fun j at_ => .waker l (.waking j at_))
      j at_ (fun _ _ => rfl) (fun _ _ => rfl) (fun _ _ => rfl) (fun _ _ => Or.inl rfl)
      ⟨rfl, rfl, rfl, Or.inl rfl⟩
  | release => exact .release _ _ (List.Perm.refl _) (plain_none rfl rfl)

/-- **Every instruction is legal.** -/
theorem instr_legal (f : Frame) (hproc : (m.cpu c).proc = who)
    (hself : f.self = none ∨ f.self = who) : Legal m who f (instr m c ok f) := by
  have hown : ∀ {p : Nat}, f.self = some p → who = some p := fun hp => by
    rcases hself with h | h
    · rw [hp] at h
      cases h
    · rw [← h, hp]
  cases f with
  | user => exact .rest
  | forkret p =>
    exact .release _ _ (List.Perm.refl _) (plain_some rfl rfl (Or.inl rfl))
  | yield p at_ => exact hown rfl ▸ yieldInstr_legal p at_
  | kill pid j at_ => exact killInstr_legal pid j at_
  | fork p at_ => exact hown rfl ▸ forkInstr_legal p at_
  | exit p status at_ => exact hown rfl ▸ exitInstr_legal p status at_
  | wait p addr at_ => exact hown rfl ▸ waitInstr_legal p addr at_
  | waiter l at_ => exact waiterInstr_legal l at_ hproc hself
  | waker l at_ => exact wakerInstr_legal l at_

end Legal

end Xv6.Sched
