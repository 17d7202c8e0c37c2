import Xv6.Lib.Transition
import Mathlib.Logic.Function.Basic
import Mathlib.Data.List.Basic

/-!
# Interrupts belong to threads

`push_off`, `pop_off`, `acquire` and `release` of `kernel/spinlock.c`, and the two places of
`kernel/proc.c` where a CPU switches between its scheduler and the kernel thread of a process.  The
count `noff` and the flag `intena` are fields of the CPU, but they are about the thread that it
runs: `sched` takes `intena` along in a local variable, and the count is 1 on either side of
`swtch`.

Each step is one call, made by the thread that a CPU runs.  Nothing else touches the fields of that
CPU meanwhile, since the call begins by turning interrupts off or needs them to be off.  Where a
thread is at depth 0 it may turn interrupts on and off, as traps and their handlers do.  The
handlers run as part of the thread that they interrupt.
-/

namespace Xv6.Sched.Interrupts

open Transition Function

inductive Lock where
  /-- `proc[p].lock` -/
  | proc (p : Nat)
  | other (l : Nat)
deriving DecidableEq, Repr

structure Thread where
  /-- Its `push_off`s without a `pop_off`, the last one first, each with the interrupt-enable bit
      that it found.  The thread of a new process begins with one that the scheduler made. -/
  pushes : List (Option Bool)
  /-- The lock it spins for in `acquire`. -/
  spinning : Option Lock
  /-- The local variable `intena` of `sched`. -/
  saved : Option Bool
deriving DecidableEq, Repr

/-- `struct cpu`, the interrupt-enable bit, and the thread of the scheduler. -/
structure Cpu where
  noff : Int
  intena : Bool
  /-- `SSTATUS_SIE` -/
  sie : Bool
  /-- The process that runs, or none for the scheduler. -/
  proc : Option Nat
  scheduler : Thread
  /-- The process that the loop of `scheduler` is at, from its `acquire` to its `release`. -/
  found : Option Nat
deriving DecidableEq, Repr

structure State where
  cpus : Nat → Cpu
  /-- The threads of the processes that exist. -/
  threads : Nat → Option Thread
  /-- Which CPU holds a lock. -/
  locks : Lock → Option Nat

inductive Panic where
  | acquire
  | release
  /-- `"pop_off - interruptible"` -/
  | interruptible
  | popOff
  /-- `"sched: p->lock"` -/
  | schedLock
  /-- `"sched: locks"` -/
  | schedLocks
  /-- `"sched: interruptible"` -/
  | schedInterruptible
deriving DecidableEq, Repr

def idle : Thread := ⟨[], none, none⟩

def State.init : State :=
  ⟨fun _ => ⟨0, false, false, none, idle, none⟩, fun _ => none, fun _ => none⟩

/-- The thread that a CPU runs. -/
def State.current (s : State) (c : Nat) : Thread :=
  match (s.cpus c).proc with
  | none => (s.cpus c).scheduler
  | some p => (s.threads p).getD idle

def State.setCpu (s : State) (c : Nat) (x : Cpu) : State :=
  { s with cpus := update s.cpus c x }

def State.setCurrent (s : State) (c : Nat) (t : Thread) : State :=
  match (s.cpus c).proc with
  | none => s.setCpu c { s.cpus c with scheduler := t }
  | some p => { s with threads := update s.threads p (some t) }

/-! ### `spinlock.c` -/

/-- The fields of the CPU in `push_off`. -/
def Cpu.pushOff (x : Cpu) : Cpu :=
  { x with
    sie := false
    intena := if x.noff = 0 then x.sie else x.intena
    noff := x.noff + 1 }

def pushOff (c : Nat) (s : State) : State :=
  let t := s.current c
  (s.setCpu c (s.cpus c).pushOff).setCurrent c { t with pushes := some (s.cpus c).sie :: t.pushes }

/-- The fields of the CPU in `pop_off`. -/
def Cpu.popOff (x : Cpu) : Cpu :=
  { x with
    noff := x.noff - 1
    sie := if x.noff - 1 = 0 ∧ x.intena = true then true else x.sie }

def popOff (c : Nat) (s : State) : Outcome Panic State :=
  let t := s.current c
  if (s.cpus c).sie then .fail .interruptible
  else if (s.cpus c).noff < 1 then .fail .popOff
  else .done ((s.setCpu c (s.cpus c).popOff).setCurrent c { t with pushes := t.pushes.tail })

/-- `acquire(lk)`, up to the loop. -/
def acquire (c : Nat) (l : Lock) (s : State) : Outcome Panic State :=
  let s := pushOff c s
  if s.locks l = some c then .fail .acquire
  else .done (s.setCurrent c { s.current c with spinning := some l })

/-- The round of the loop in which the lock is free. -/
def take (c : Nat) (l : Lock) (s : State) : Outcome Panic State :=
  if (s.current c).spinning = some l ∧ s.locks l = none then
    .done { s.setCurrent c { s.current c with spinning := none } with
      locks := update s.locks l (some c) }
  else .blocked

def release (c : Nat) (l : Lock) (s : State) : Outcome Panic State :=
  if s.locks l = some c then popOff c { s with locks := update s.locks l none }
  else .fail .release

/-! ### `proc.c` -/

/-- `sched()` up to `swtch`, in the thread of process `p`; its check of `p->state` aside. -/
def sched (c p : Nat) (s : State) : Outcome Panic State :=
  if s.locks (.proc p) ≠ some c then .fail .schedLock
  else if (s.cpus c).noff ≠ 1 then .fail .schedLocks
  else if (s.cpus c).sie then .fail .schedInterruptible
  else
    let t := s.current c
    .done ((s.setCurrent c { t with saved := some (s.cpus c).intena }).setCpu c
      { s.cpus c with proc := none })

/-- `swtch` in `scheduler`, and what the thread does next: it returns to `sched`, which sets
    `intena`, or it begins in `forkret`. -/
def dispatch (c p : Nat) (t : Thread) (s : State) : State :=
  s.setCpu c { s.cpus c with
    proc := some p
    intena := t.saved.getD (s.cpus c).intena }

/-- `acquire(&p->lock)` in the loop of `scheduler`. -/
def schedulerAcquire (c p : Nat) (s : State) : Outcome Panic State := do
  let s ← acquire c (.proc p) s
  return s.setCpu c { s.cpus c with found := some p }

/-- `release(&p->lock)` there. -/
def schedulerRelease (c p : Nat) (s : State) : Outcome Panic State :=
  release c (.proc p) (s.setCpu c { s.cpus c with found := none })

inductive Act where
  | pushOff (c : Nat)
  | popOff (c : Nat)
  | acquire (c : Nat) (l : Lock)
  | take (c : Nat) (l : Lock)
  | release (c : Nat) (l : Lock)
  /-- `intr_on()`, or the return from a trap. -/
  | intrOn (c : Nat)
  /-- `intr_off()`, or a trap. -/
  | intrOff (c : Nat)
  | sched (c : Nat)
  | schedulerAcquire (c p : Nat)
  | schedulerRelease (c p : Nat)
  | dispatch (c p : Nat)
  /-- The thread of a new process. -/
  | create (p : Nat)
deriving DecidableEq, Repr

/-- The thread of the CPU is free to call: it does not spin, and it is not the scheduler between
    the two calls of its loop. -/
def State.Free (s : State) (c : Nat) : Prop :=
  (s.current c).spinning = none ∧ ((s.cpus c).proc = none → (s.cpus c).found = none)

instance (s : State) (c : Nat) : Decidable (s.Free c) := inferInstanceAs (Decidable (_ ∧ _))

/-- The CPU is in the loop of `scheduler`, with the lock of the process. -/
def State.Found (s : State) (c p : Nat) : Prop :=
  (s.cpus c).proc = none ∧ (s.cpus c).scheduler.spinning = none ∧ (s.cpus c).found = some p

instance (s : State) (c p : Nat) : Decidable (s.Found c p) := inferInstanceAs (Decidable (_ ∧ _))

def step (s : State) : Act → Outcome Panic State
  | .pushOff c => if s.Free c then .done (pushOff c s) else .blocked
  | .popOff c => if s.Free c then popOff c s else .blocked
  | .acquire c l => if s.Free c then acquire c l s else .blocked
  | .take c l => take c l s
  | .release c l => if s.Free c then release c l s else .blocked
  | .intrOn c => .done (s.setCpu c { s.cpus c with sie := true })
  | .intrOff c => .done (s.setCpu c { s.cpus c with sie := false })
  | .sched c =>
    match (s.cpus c).proc with
    | none => .blocked
    | some p => if s.Free c then sched c p s else .blocked
  | .schedulerAcquire c p =>
    if (s.cpus c).proc = none ∧ s.Free c then schedulerAcquire c p s else .blocked
  | .schedulerRelease c p => if s.Found c p then schedulerRelease c p s else .blocked
  | .dispatch c p =>
    match s.threads p with
    | none => .blocked
    | some t => if s.Found c p then .done (dispatch c p t s) else .blocked
  | .create p => .done { s with threads := update s.threads p (some ⟨[none], none, none⟩) }

/-- No CPU runs the process. -/
def State.Off (s : State) (p : Nat) : Prop := ∀ c, (s.cpus c).proc ≠ some p

/-- What the code around the calls sees to.  Interrupts are turned on and off at depth 0, where the
    loop of the scheduler is too when it comes to a process; no CPU runs a process that is
    `RUNNABLE`, or one whose slot of the table is free. -/
def Allowed (s : State) : Act → Prop
  | .intrOn c | .intrOff c | .schedulerAcquire c _ => (s.current c).pushes = []
  | .dispatch _ p | .create p => s.Off p
  | _ => True

/-! ### The invariant -/

structure Inv (s : State) : Prop where
  noff : ∀ c, (s.cpus c).noff = (s.current c).pushes.length
  sie : ∀ c, (s.cpus c).sie = true → (s.current c).pushes = []
  /-- `intena` is what the running process found when it pushed first. -/
  intena : ∀ c p b, (s.cpus c).proc = some p → (s.current c).pushes.getLast? = some (some b) →
    (s.cpus c).intena = b
  alive : ∀ c p, (s.cpus c).proc = some p → (s.threads p).isSome = true
  once : ∀ c c' p, (s.cpus c).proc = some p → (s.cpus c').proc = some p → c = c'
  /-- A process that does not run holds its lock, in `sched`, and has its `intena` there. -/
  parked : ∀ p t, s.threads p = some t → s.Off p →
    t.pushes.length = 1 ∧ ∀ b, t.pushes = [some b] → t.saved = some b
  /-- So does the scheduler while it does not run, and between the calls of its loop. -/
  scheduler : ∀ c p, (s.cpus c).proc = some p → (s.cpus c).scheduler.pushes.length = 1
  found : ∀ c p, (s.cpus c).proc = none → (s.cpus c).found = some p →
    (s.cpus c).scheduler.pushes.length = 1

theorem inv_init : Inv State.init := by
  refine ⟨fun _ => rfl, fun _ => nofun, fun _ _ _ => nofun, fun _ _ => nofun, fun _ _ _ => nofun,
    fun _ _ => nofun, fun _ _ => nofun, fun _ _ _ => nofun⟩

section Run

variable {s : State} {c : Nat} {x : Cpu} {t : Thread}

theorem setCurrent_cpu (s : State) (c : Nat) (t : Thread) :
    (s.setCurrent c t).cpus c = { s.cpus c with
      scheduler := if (s.cpus c).proc = none then t else (s.cpus c).scheduler } := by
  unfold State.setCurrent State.setCpu
  split
  · rename_i hproc
    simp [hproc]
  · rename_i p hproc
    rw [if_neg (by rw [hproc]; exact nofun)]

theorem setCurrent_cpu_ne {c' : Nat} (hne : c' ≠ c) : (s.setCurrent c t).cpus c' = s.cpus c' := by
  unfold State.setCurrent State.setCpu
  split
  · exact update_of_ne hne ..
  · rfl

theorem setCurrent_proc (s : State) (c : Nat) (t : Thread) (c' : Nat) :
    ((s.setCurrent c t).cpus c').proc = (s.cpus c').proc := by
  by_cases hne : c' = c
  · rw [hne, setCurrent_cpu]
  · rw [setCurrent_cpu_ne hne]

theorem setCurrent_thread (s : State) (c : Nat) (t : Thread) (p : Nat) :
    (s.setCurrent c t).threads p = if (s.cpus c).proc = some p then some t else s.threads p := by
  unfold State.setCurrent State.setCpu
  split
  · rename_i hproc
    rw [hproc, if_neg nofun]
  · rename_i q hproc
    rw [hproc]
    by_cases hq : p = q
    · rw [hq, if_pos rfl]
      exact update_self ..
    · rw [if_neg fun h => hq (Option.some.inj h).symm]
      exact update_of_ne hq ..

theorem current_setCurrent (s : State) (c : Nat) (t : Thread) :
    (s.setCurrent c t).current c = t := by
  unfold State.current
  rw [setCurrent_proc]
  split
  · rename_i hproc
    rw [setCurrent_cpu]
    exact if_pos hproc
  · rename_i p hproc
    rw [setCurrent_thread, if_pos hproc]
    rfl

theorem current_setCurrent_ne (honce : ∀ p, (s.cpus c).proc = some p → ∀ c' ≠ c,
    (s.cpus c').proc ≠ some p) {c' : Nat} (hne : c' ≠ c) :
    (s.setCurrent c t).current c' = s.current c' := by
  unfold State.current
  rw [setCurrent_proc, setCurrent_cpu_ne hne]
  split
  · rfl
  · rename_i p hproc
    rw [setCurrent_thread, if_neg fun h => honce p h c' hne hproc]

theorem current_setCpu (hproc : x.proc = (s.cpus c).proc)
    (hsched : x.scheduler = (s.cpus c).scheduler) (c' : Nat) :
    (s.setCpu c x).current c' = s.current c' := by
  unfold State.current State.setCpu
  by_cases hc : c' = c
  · subst hc
    simp only [update_self, hproc, hsched]
  · simp only [update_of_ne hc]

/-- **The thread of a CPU goes on**, with the fields of the CPU. -/
theorem Inv.run (h : Inv s) (hproc : x.proc = (s.cpus c).proc)
    (hsched : x.scheduler = (s.cpus c).scheduler) (hnoff : x.noff = t.pushes.length)
    (hsie : x.sie = true → t.pushes = [])
    (hfound : (s.cpus c).proc = none → x.found ≠ none → t.pushes.length = 1)
    (hintena : ∀ p b, (s.cpus c).proc = some p → t.pushes.getLast? = some (some b) → x.intena = b) :
    Inv ((s.setCpu c x).setCurrent c t) := by
  have hself : (s.setCpu c x).cpus c = x := update_self ..
  have hother : ∀ c' ≠ c, ((s.setCpu c x).setCurrent c t).cpus c' = s.cpus c' := fun c' hne =>
    (setCurrent_cpu_ne hne).trans (update_of_ne hne ..)
  have hprocs : ∀ c', (((s.setCpu c x).setCurrent c t).cpus c').proc = (s.cpus c').proc := by
    intro c'
    rw [setCurrent_proc]
    by_cases hne : c' = c
    · rw [hne, hself, hproc]
    · rw [show (s.setCpu c x).cpus c' = s.cpus c' from update_of_ne hne ..]
  have hcur : ((s.setCpu c x).setCurrent c t).current c = t := current_setCurrent ..
  have hcurs : ∀ c' ≠ c, ((s.setCpu c x).setCurrent c t).current c' = s.current c' := by
    intro c' hne
    rw [current_setCurrent_ne (fun p hp d hd hq => ?_) hne, current_setCpu hproc hsched]
    rw [hself, hproc] at hp
    rw [show (s.setCpu c x).cpus d = s.cpus d from update_of_ne hd ..] at hq
    exact hd (h.once d c p hq hp)
  have hthread : ∀ p, ((s.setCpu c x).setCurrent c t).threads p =
      if (s.cpus c).proc = some p then some t else s.threads p := by
    intro p
    rw [setCurrent_thread, hself, hproc]
    rfl
  have hcpu : ((s.setCpu c x).setCurrent c t).cpus c =
      { x with scheduler := if x.proc = none then t else x.scheduler } := by
    rw [setCurrent_cpu, hself]
  refine ⟨fun d => ?_, fun d hd => ?_, fun d p b hp hlast => ?_, fun d p hp => ?_,
    fun d d' p hd hd' => ?_, fun p u hu hoff => ?_, fun d p hp => ?_, fun d p hp hf => ?_⟩
  · by_cases hdc : d = c
    · rw [hdc, hcur, hcpu, ← hnoff]
    · rw [hcurs d hdc, hother d hdc, h.noff d]
  · by_cases hdc : d = c
    · rw [hdc, hcpu] at hd
      rw [hdc, hcur]
      exact hsie hd
    · rw [hother d hdc] at hd
      rw [hcurs d hdc]
      exact h.sie d hd
  · rw [hprocs] at hp
    by_cases hdc : d = c
    · subst hdc
      rw [hcur] at hlast
      rw [hcpu]
      exact hintena p b hp hlast
    · rw [hcurs d hdc] at hlast
      rw [hother d hdc]
      exact h.intena d p b hp hlast
  · rw [hprocs] at hp
    rw [hthread]
    split
    · rfl
    · exact h.alive d p hp
  · rw [hprocs] at hd hd'
    exact h.once d d' p hd hd'
  · have hoff' : s.Off p := fun d => hprocs d ▸ hoff d
    rw [hthread, if_neg (hoff' c)] at hu
    exact h.parked p u hu hoff'
  · rw [hprocs] at hp
    by_cases hdc : d = c
    · subst hdc
      have hsome : x.proc ≠ none := by
        rw [hproc, hp]
        exact nofun
      rw [hcpu]
      dsimp only
      rw [if_neg hsome, hsched]
      exact h.scheduler d p hp
    · rw [hother d hdc]
      exact h.scheduler d p hp
  · rw [hprocs] at hp
    by_cases hdc : d = c
    · subst hdc
      rw [hcpu] at hf ⊢
      dsimp only at hf ⊢
      rw [if_pos (hproc.trans hp)]
      exact hfound hp (by rw [hf]; exact nofun)
    · rw [hother d hdc] at hf ⊢
      exact h.found d p hp hf

/-! ### Steps -/

theorem Inv.pushOff (h : Inv s) (hfree : s.Free c) : Inv (pushOff c s) := by
  refine h.run rfl rfl ?_ nofun (fun hp hf => absurd (hfree.2 hp) hf) fun p b hp hlast => ?_
  · simp only [Cpu.pushOff, h.noff c, List.length_cons]
    omega
  · show (if (s.cpus c).noff = 0 then (s.cpus c).sie else (s.cpus c).intena) = b
    rw [h.noff c]
    cases hpushes : (s.current c).pushes with
    | nil =>
      rw [hpushes] at hlast
      rw [if_pos (show (([] : List (Option Bool)).length : Int) = 0 from rfl)]
      exact Option.some.inj (Option.some.inj hlast)
    | cons q qs =>
      rw [if_neg (by rw [List.length_cons]; omega)]
      refine h.intena c p b hp ?_
      rw [hpushes] at hlast ⊢
      rwa [List.getLast?_cons_cons] at hlast

theorem Inv.popOff (h : Inv s) (hfree : (s.cpus c).proc = none → (s.cpus c).found = none)
    {s' : State} (hstep : popOff c s = .done s') :
    Inv s' ∧ (s'.cpus c).sie = (decide ((s.current c).pushes.length = 1) && (s.cpus c).intena) := by
  unfold Interrupts.popOff at hstep
  dsimp only at hstep
  split at hstep
  · exact nomatch hstep
  rename_i hsie
  split at hstep
  · exact nomatch hstep
  rename_i hpos
  obtain rfl := Outcome.done.inj hstep
  have hnoff := h.noff c
  obtain ⟨q, qs, hpushes⟩ : ∃ q qs, (s.current c).pushes = q :: qs := by
    cases hpushes : (s.current c).pushes with
    | nil =>
      rw [hpushes] at hnoff
      exact absurd (show (s.cpus c).noff < 1 by rw [hnoff]; decide) hpos
    | cons q qs => exact ⟨q, qs, rfl⟩
  rw [hpushes, List.length_cons] at hnoff
  rw [hpushes]
  refine ⟨h.run rfl rfl ?_ ?_ (fun hp hf => absurd (hfree hp) hf) ?_, ?_⟩
  · show (s.cpus c).noff - 1 = (qs.length : Int)
    omega
  · intro hon
    show qs = []
    have hzero : (s.cpus c).noff - 1 = 0 := by
      by_contra hne
      have hoff : (s.cpus c).popOff.sie = (s.cpus c).sie := if_neg fun hand => hne hand.1
      exact hsie (hoff ▸ hon)
    exact List.length_eq_zero_iff.mp (by omega)
  · intro p b hp hlast
    refine h.intena c p b hp ?_
    rw [hpushes]
    cases qs with
    | nil => exact nomatch hlast
    | cons r rs => rwa [List.getLast?_cons_cons]
  · rw [setCurrent_cpu]
    show ((s.setCpu c (s.cpus c).popOff).cpus c).sie = _
    rw [show (s.setCpu c (s.cpus c).popOff).cpus c = (s.cpus c).popOff from update_self ..,
      Cpu.popOff, List.length_cons]
    have hiff : (s.cpus c).noff - 1 = 0 ↔ qs.length + 1 = 1 := by omega
    simp only [hiff, hsie]
    by_cases hone : qs.length + 1 = 1 <;> cases (s.cpus c).intena <;> simp [hone]

theorem Inv.setLocks (h : Inv s) (locks : Lock → Option Nat) : Inv { s with locks := locks } :=
  ⟨h.noff, h.sie, h.intena, h.alive, h.once, h.parked, h.scheduler, h.found⟩

theorem Inv.release (h : Inv s) (hfree : (s.cpus c).proc = none → (s.cpus c).found = none)
    {l : Lock} {s' : State} (hstep : release c l s = .done s') :
    Inv s' ∧ (s'.cpus c).sie = (decide ((s.current c).pushes.length = 1) && (s.cpus c).intena) := by
  unfold Interrupts.release at hstep
  split at hstep
  · exact (h.setLocks (update s.locks l none)).popOff hfree hstep
  · exact nomatch hstep

theorem current_of_proc {p : Nat} (hp : (s.cpus c).proc = some p) (ht : s.threads p = some t) :
    s.current c = t := by
  simp only [State.current, hp, ht, Option.getD_some]

theorem current_of_scheduler (hp : (s.cpus c).proc = none) :
    s.current c = (s.cpus c).scheduler := by
  simp only [State.current, hp]

theorem Inv.found_depth (h : Inv s) (hp : (s.cpus c).proc = none) (hf : (s.cpus c).found ≠ none) :
    (s.current c).pushes.length = 1 := by
  obtain ⟨p, hf⟩ := Option.ne_none_iff_exists'.mp hf
  rw [current_of_scheduler hp, h.found c p hp hf]

theorem Inv.setCurrent (h : Inv s) (ht : t.pushes = (s.current c).pushes) :
    Inv (s.setCurrent c t) := by
  have hsame : s.setCpu c (s.cpus c) = s := by
    unfold State.setCpu
    rw [update_eq_self]
  have hrun := h.run (c := c) (x := s.cpus c) (t := t) rfl rfl (by rw [ht, h.noff c])
    (fun hon => ht ▸ h.sie c hon) (fun hp hf => ht ▸ h.found_depth hp hf)
    (fun p b hp hlast => h.intena c p b hp (ht ▸ hlast))
  rwa [hsame] at hrun

theorem Inv.setCpu (h : Inv s) (hproc : x.proc = (s.cpus c).proc)
    (hsched : x.scheduler = (s.cpus c).scheduler) (hnoff : x.noff = (s.cpus c).noff)
    (hintena : x.intena = (s.cpus c).intena) (hsie : x.sie = true → (s.current c).pushes = [])
    (hfound : (s.cpus c).proc = none → x.found ≠ none → (s.current c).pushes.length = 1) :
    Inv (s.setCpu c x) := by
  have hrun := h.run (c := c) (x := x) (t := s.current c) hproc hsched (hnoff.trans (h.noff c)) hsie
    hfound (fun p b hp hlast => hintena.trans (h.intena c p b hp hlast))
  have hcpu : (s.setCpu c x).cpus c = x := update_self ..
  have hsame : (s.setCpu c x).setCurrent c (s.current c) = s.setCpu c x := by
    unfold State.setCurrent
    rw [hcpu]
    split
    · rename_i hp
      rw [current_of_scheduler (hproc ▸ hp), ← hsched]
      unfold State.setCpu
      rw [update_idem]
    · rename_i p hp
      obtain ⟨u, hu⟩ := Option.isSome_iff_exists.mp (h.alive c p (hproc ▸ hp))
      have hthreads : update s.threads p (some u) = s.threads := by
        rw [← hu, update_eq_self]
      rw [current_of_proc (hproc ▸ hp) hu]
      unfold State.setCpu
      dsimp only
      rw [hthreads]
  rwa [hsame] at hrun

theorem Inv.acquire (h : Inv s) (hfree : s.Free c) {l : Lock} {s' : State}
    (hstep : acquire c l s = .done s') :
    Inv s' ∧ (s'.current c).pushes.length = (s.current c).pushes.length + 1 := by
  unfold Interrupts.acquire at hstep
  dsimp only at hstep
  split at hstep
  · exact nomatch hstep
  obtain rfl := Outcome.done.inj hstep
  refine ⟨(h.pushOff hfree).setCurrent rfl, ?_⟩
  rw [current_setCurrent, Interrupts.pushOff, current_setCurrent, List.length_cons]

theorem Inv.take (h : Inv s) {l : Lock} {s' : State} (hstep : take c l s = .done s') : Inv s' := by
  unfold Interrupts.take at hstep
  split at hstep
  · obtain rfl := Outcome.done.inj hstep
    exact (h.setCurrent (c := c) (t := { s.current c with spinning := none }) rfl).setLocks _
  · exact nomatch hstep

theorem Inv.schedulerAcquire (h : Inv s) (hfree : s.Free c) (hdepth : (s.current c).pushes = [])
    {p : Nat} {s' : State} (hstep : schedulerAcquire c p s = .done s') : Inv s' := by
  obtain ⟨m, hacquire, hset⟩ := Outcome.bind_eq_done.mp hstep
  obtain ⟨hm, hlength⟩ := h.acquire hfree hacquire
  rw [hdepth] at hlength
  rw [← Outcome.done.inj hset]
  exact hm.setCpu rfl rfl rfl rfl (hm.sie c) fun _ _ => hlength

theorem Inv.schedulerRelease (h : Inv s) {p : Nat} {s' : State}
    (hstep : schedulerRelease c p s = .done s') : Inv s' := by
  have hset : Inv (s.setCpu c { s.cpus c with found := none }) :=
    h.setCpu rfl rfl rfl rfl (h.sie c) fun _ hne => absurd rfl hne
  have hnone : ((s.setCpu c { s.cpus c with found := none }).cpus c).found = none := by
    rw [show (s.setCpu c { s.cpus c with found := none }).cpus c = { s.cpus c with found := none }
      from update_self ..]
  exact (hset.release (fun _ => hnone) hstep).1

/-! ### Switches -/

theorem current_congr {s' : State} {d : Nat} (hcpu : s'.cpus d = s.cpus d)
    (hthread : ∀ q, (s.cpus d).proc = some q → s'.threads q = s.threads q) :
    s'.current d = s.current d := by
  unfold State.current
  rw [hcpu]
  split
  · rfl
  · rename_i q hq
    rw [hthread q hq]

/-- **A CPU switches** between its scheduler and a process that no other CPU runs. -/
theorem Inv.switch (h : Inv s) {s' : State} {p : Nat}
    (honly : ∀ d ≠ c, (s.cpus d).proc ≠ some p)
    (hfrom : ∀ q, (s.cpus c).proc = some q → q = p)
    (hto : ∀ q, (s'.cpus c).proc = some q → q = p)
    (hother : ∀ d ≠ c, s'.cpus d = s.cpus d)
    (hthread : ∀ q ≠ p, s'.threads q = s.threads q)
    (halive : (s'.threads p).isSome = true)
    (hnoff : (s'.cpus c).noff = (s'.current c).pushes.length)
    (hsie : (s'.cpus c).sie = false)
    (hintena : ∀ b, (s'.cpus c).proc = some p →
      (s'.current c).pushes.getLast? = some (some b) → (s'.cpus c).intena = b)
    (hparked : ∀ u, s'.threads p = some u → (s'.cpus c).proc ≠ some p →
      u.pushes.length = 1 ∧ ∀ b, u.pushes = [some b] → u.saved = some b)
    (hscheduler : (s'.cpus c).scheduler.pushes.length = 1) : Inv s' := by
  have hcurs : ∀ d ≠ c, s'.current d = s.current d := fun d hd =>
    current_congr (hother d hd) fun q hq => hthread q fun hqp => honly d hd (hqp ▸ hq)
  -- What runs afterwards on another CPU ran there before.
  have hran : ∀ d ≠ c, ∀ q, (s'.cpus d).proc = some q → (s.cpus d).proc = some q ∧ q ≠ p := by
    intro d hd q hq
    rw [hother d hd] at hq
    exact ⟨hq, fun hqp => honly d hd (hqp ▸ hq)⟩
  refine ⟨fun d => ?_, fun d hd => ?_, fun d q b hq hlast => ?_, fun d q hq => ?_,
    fun d d' q hd hd' => ?_, fun q w hw hoff => ?_, fun d q hq => ?_, fun d q hq hf => ?_⟩
  · by_cases hdc : d = c
    · rw [hdc, hnoff]
    · rw [hcurs d hdc, hother d hdc, h.noff d]
  · by_cases hdc : d = c
    · rw [hdc, hsie] at hd
      exact nomatch hd
    · rw [hother d hdc] at hd
      rw [hcurs d hdc]
      exact h.sie d hd
  · by_cases hdc : d = c
    · subst hdc
      exact hintena b (hto q hq ▸ hq) hlast
    · rw [hcurs d hdc] at hlast
      rw [hother d hdc] at hq ⊢
      exact h.intena d q b hq hlast
  · by_cases hdc : d = c
    · subst hdc
      rw [hto q hq]
      exact halive
    · rw [hthread q (hran d hdc q hq).2]
      exact h.alive d q (hran d hdc q hq).1
  · by_cases hdc : d = c <;> by_cases hdc' : d' = c
    · rw [hdc, hdc']
    · subst hdc
      exact absurd (hto q hd) (hran d' hdc' q hd').2
    · subst hdc'
      exact absurd (hto q hd') (hran d hdc q hd).2
    · exact h.once d d' q (hran d hdc q hd).1 (hran d' hdc' q hd').1
  · by_cases hqp : q = p
    · subst hqp
      exact hparked w hw (hoff c)
    · rw [hthread q hqp] at hw
      refine h.parked q w hw fun d hd => ?_
      by_cases hdc : d = c
      · exact hqp (hfrom q (hdc ▸ hd))
      · exact hoff d (by rw [hother d hdc]; exact hd)
  · by_cases hdc : d = c
    · rw [hdc]
      exact hscheduler
    · rw [hother d hdc]
      exact h.scheduler d q (hran d hdc q hq).1
  · by_cases hdc : d = c
    · rw [hdc]
      exact hscheduler
    · rw [hother d hdc] at hq hf ⊢
      exact h.found d q hq hf

theorem Inv.sched (h : Inv s) {p : Nat} (hp : (s.cpus c).proc = some p) {s' : State}
    (hstep : sched c p s = .done s') : Inv s' ∧ (s.cpus c).noff = 1 ∧ (s'.cpus c).noff = 1 := by
  unfold Interrupts.sched at hstep
  split at hstep
  · exact nomatch hstep
  split at hstep
  · exact nomatch hstep
  rename_i hone
  split at hstep
  · exact nomatch hstep
  rename_i hsie
  have hone' : (s.cpus c).noff = 1 := not_not.mp hone
  obtain ⟨u, hu⟩ := Option.isSome_iff_exists.mp (h.alive c p hp)
  have hcur := current_of_proc hp hu
  have hdepth : u.pushes.length = 1 := by
    have hnoff := h.noff c
    rw [hcur] at hnoff
    omega
  have hs' : s' =
      { s with
        cpus := update s.cpus c { s.cpus c with proc := none }
        threads := update s.threads p
          (some { u with saved := some (s.cpus c).intena }) } := by
    rw [← Outcome.done.inj hstep, hcur]
    unfold State.setCurrent State.setCpu
    rw [hp]
  have hself : s'.cpus c = { s.cpus c with proc := none } := by
    rw [hs']
    exact update_self ..
  have hparked : s'.threads p = some { u with saved := some (s.cpus c).intena } := by
    rw [hs']
    exact update_self ..
  have hcurrent : s'.current c = (s.cpus c).scheduler := by
    rw [current_of_scheduler (by rw [hself]), hself]
  refine ⟨h.switch (c := c) (p := p) (fun d hd hq => hd (h.once d c p hq hp))
    (fun q hq => ?_) (fun q hq => ?_) (fun d hd => ?_) (fun q hq => ?_) ?_ ?_ ?_ (fun b hq => ?_)
    (fun w hw _ => ?_) ?_, hone', by rw [hself]; exact hone'⟩
  · exact Option.some.inj (hq.symm.trans hp)
  · rw [hself] at hq
    exact nomatch hq
  · rw [hs']
    exact update_of_ne hd ..
  · rw [hs']
    exact update_of_ne hq ..
  · rw [hparked]
    rfl
  · rw [hcurrent, hself, h.scheduler c p hp]
    exact hone'
  · rw [hself]
    exact Bool.eq_false_iff.mpr hsie
  · rw [hself] at hq
    exact nomatch hq
  · obtain rfl := Option.some.inj (hparked.symm.trans hw)
    refine ⟨hdepth, fun b hb => ?_⟩
    have hlast : (s.current c).pushes.getLast? = some (some b) := by
      rw [hcur, show u.pushes = [some b] from hb]
      rfl
    rw [h.intena c p b hp hlast]
  · rw [hself]
    exact h.scheduler c p hp

theorem Inv.dispatch (h : Inv s) {p : Nat} (hfound : s.Found c p) (ht : s.threads p = some t)
    (hoff : s.Off p) :
    Inv (dispatch c p t s) ∧ (s.cpus c).noff = 1 ∧ ((dispatch c p t s).cpus c).noff = 1 := by
  obtain ⟨hp, -, hf⟩ := hfound
  have hdepth := h.found c p hp hf
  have hnoff : (s.cpus c).noff = 1 := by
    rw [h.noff c, current_of_scheduler hp, hdepth]
    rfl
  obtain ⟨hlength, hsaved⟩ := h.parked p t ht hoff
  have hself : (Interrupts.dispatch c p t s).cpus c =
      { s.cpus c with proc := some p, intena := t.saved.getD (s.cpus c).intena } :=
    update_self ..
  have hcurrent : (Interrupts.dispatch c p t s).current c = t :=
    current_of_proc (by rw [hself]) ht
  refine ⟨h.switch (c := c) (p := p) (fun d _ => hoff d) (fun q hq => ?_) (fun q hq => ?_)
    (fun d hd => update_of_ne hd ..) (fun _ _ => rfl) ?_ ?_ ?_ (fun b _ hlast => ?_)
    (fun w _ hne => ?_) ?_, hnoff, by rw [hself]; exact hnoff⟩
  · rw [hp] at hq
    exact nomatch hq
  · rw [hself] at hq
    exact (Option.some.inj hq).symm
  · show (s.threads p).isSome = true
    rw [ht]
    rfl
  · rw [hcurrent, hself, hlength]
    exact hnoff
  · rw [hself]
    refine Bool.eq_false_iff.mpr fun hon => ?_
    have hnil := h.sie c hon
    rw [current_of_scheduler hp] at hnil
    rw [hnil] at hdepth
    exact nomatch hdepth
  · rw [hcurrent] at hlast
    obtain ⟨q, hq⟩ := List.length_eq_one_iff.mp hlength
    rw [hq, List.getLast?_singleton] at hlast
    rw [hself, hsaved b (hq.trans (by rw [Option.some.inj hlast]))]
    rfl
  · rw [hself] at hne
    exact absurd rfl hne
  · rw [hself]
    exact hdepth

theorem Inv.create (h : Inv s) {p : Nat} (hoff : s.Off p) :
    Inv { s with threads := update s.threads p (some ⟨[none], none, none⟩) } := by
  have hthread : ∀ q ≠ p,
      update s.threads p (some ⟨[none], none, none⟩) q = s.threads q := fun q hq =>
    update_of_ne hq ..
  have hne : ∀ d q, (s.cpus d).proc = some q → q ≠ p := fun d q hq hqp => hoff d (hqp ▸ hq)
  have hcurs : ∀ d, State.current
      { s with threads := update s.threads p (some ⟨[none], none, none⟩) } d =
      s.current d := fun d => current_congr rfl fun q hq => hthread q (hne d q hq)
  refine ⟨fun d => ?_, fun d hd => ?_, fun d q b hq hlast => ?_, fun d q hq => ?_, h.once,
    fun q w hw hoff' => ?_, h.scheduler, h.found⟩
  · rw [hcurs]
    exact h.noff d
  · rw [hcurs]
    exact h.sie d hd
  · rw [hcurs] at hlast
    exact h.intena d q b hq hlast
  · show (update s.threads p (some ⟨[none], none, none⟩) q).isSome = true
    rw [hthread q (hne d q hq)]
    exact h.alive d q hq
  · by_cases hqp : q = p
    · subst hqp
      have hnew : update s.threads q (some ⟨[none], none, none⟩) q =
          some ⟨[none], none, none⟩ := update_self ..
      obtain rfl := Option.some.inj (hnew.symm.trans hw)
      exact ⟨rfl, fun b hb => nomatch hb⟩
    · exact h.parked q w ((hthread q hqp).symm.trans hw) hoff'

/-! ### Runs -/

theorem Inv.step (h : Inv s) {a : Act} {s' : State} (hstep : step s a = .done s')
    (hallowed : Allowed s a) : Inv s' := by
  cases a with
  | pushOff c =>
    simp only [Interrupts.step] at hstep
    split at hstep
    · exact Outcome.done.inj hstep ▸ h.pushOff ‹_›
    · exact nomatch hstep
  | popOff c =>
    simp only [Interrupts.step] at hstep
    split at hstep
    · exact (h.popOff (‹s.Free c›).2 hstep).1
    · exact nomatch hstep
  | acquire c l =>
    simp only [Interrupts.step] at hstep
    split at hstep
    · exact (h.acquire ‹_› hstep).1
    · exact nomatch hstep
  | take c l => exact h.take hstep
  | release c l =>
    simp only [Interrupts.step] at hstep
    split at hstep
    · exact (h.release (‹s.Free c›).2 hstep).1
    · exact nomatch hstep
  | intrOn c =>
    rw [← Outcome.done.inj hstep]
    exact h.setCpu rfl rfl rfl rfl (fun _ => hallowed) h.found_depth
  | intrOff c =>
    rw [← Outcome.done.inj hstep]
    exact h.setCpu rfl rfl rfl rfl nofun h.found_depth
  | sched c =>
    simp only [Interrupts.step] at hstep
    split at hstep
    · exact nomatch hstep
    · split at hstep
      · exact (h.sched ‹_› hstep).1
      · exact nomatch hstep
  | schedulerAcquire c p =>
    simp only [Interrupts.step] at hstep
    split at hstep
    · exact h.schedulerAcquire (‹_ ∧ s.Free c›).2 hallowed hstep
    · exact nomatch hstep
  | schedulerRelease c p =>
    simp only [Interrupts.step] at hstep
    split at hstep
    · exact h.schedulerRelease hstep
    · exact nomatch hstep
  | dispatch c p =>
    simp only [Interrupts.step] at hstep
    split at hstep
    · exact nomatch hstep
    · split at hstep
      · exact Outcome.done.inj hstep ▸ (h.dispatch ‹_› ‹_› hallowed).1
      · exact nomatch hstep
  | create p => exact Outcome.done.inj hstep ▸ h.create hallowed

theorem inv_of_reachable (hs : Reachable State.init step Allowed s) : Inv s :=
  hs.invariant inv_init fun _ h hallowed hstep => h.step hstep hallowed

/-- The last `pop_off` of a process puts back the bit that its first `push_off` found. -/
theorem Inv.popOff_last (h : Inv s) {p : Nat} {b : Bool} (hp : (s.cpus c).proc = some p)
    (hpushes : (s.current c).pushes = [some b]) :
    ∃ s', Interrupts.popOff c s = .done s' ∧ (s'.cpus c).sie = b ∧ (s'.current c).pushes = [] := by
  have hsie : (s.cpus c).sie = false := by
    refine Bool.eq_false_iff.mpr fun hon => ?_
    rw [h.sie c hon] at hpushes
    exact nomatch hpushes
  have hnoff : (s.cpus c).noff = 1 := by
    rw [h.noff c, hpushes]
    rfl
  have hintena : (s.cpus c).intena = b := h.intena c p b hp (by rw [hpushes]; rfl)
  have hdone : Interrupts.popOff c s = .done ((s.setCpu c (s.cpus c).popOff).setCurrent c
      { s.current c with pushes := (s.current c).pushes.tail }) := by
    unfold Interrupts.popOff
    rw [hsie, hnoff]
    rfl
  refine ⟨_, hdone, ?_, ?_⟩
  · rw [(h.popOff (fun hnone => nomatch hp.symm.trans hnone) hdone).2, hpushes, hintena]
    exact Bool.true_and b
  · rw [current_setCurrent, hpushes]
    rfl

end Run

/-- **Interrupts belong to threads.**  In every state that a run reaches the count of a CPU is the
    depth of the thread it runs, and interrupts are off at depth 1 and more.  The count is 1 at
    either end of a switch.  When a process is at depth 1 by a `push_off` of its own, wherever it made it,
    the `pop_off` or the `release` that comes next puts the bit back that the `push_off` found. -/
theorem interrupts_per_thread {s : State} (hs : Reachable State.init step Allowed s) :
    (∀ c, (s.cpus c).noff = (s.current c).pushes.length ∧ 0 ≤ (s.cpus c).noff) ∧
    (∀ c, 0 < (s.cpus c).noff → (s.cpus c).sie = false) ∧
    (∀ c s', step s (.sched c) = .done s' → (s.cpus c).noff = 1 ∧ (s'.cpus c).noff = 1) ∧
    (∀ c p s', Allowed s (.dispatch c p) → step s (.dispatch c p) = .done s' →
      (s.cpus c).noff = 1 ∧ (s'.cpus c).noff = 1) ∧
    ∀ c p b, (s.cpus c).proc = some p → (s.current c).pushes = [some b] →
      (∃ s', popOff c s = .done s' ∧ (s'.cpus c).sie = b ∧ (s'.current c).pushes = []) ∧
      ∀ l, s.locks l = some c →
        ∃ s', release c l s = .done s' ∧ (s'.cpus c).sie = b ∧ (s'.current c).pushes = [] := by
  have h := inv_of_reachable hs
  refine ⟨fun c => ⟨h.noff c, ?_⟩, fun c hpos => ?_, fun c s' hstep => ?_,
    fun c p s' hallowed hstep => ?_, fun c p b hp hpushes => ⟨h.popOff_last hp hpushes, ?_⟩⟩
  · rw [h.noff c]
    exact Int.natCast_nonneg _
  · refine Bool.eq_false_iff.mpr fun hon => ?_
    rw [h.noff c, h.sie c hon] at hpos
    exact absurd hpos (by decide)
  · simp only [step] at hstep
    split at hstep
    · exact nomatch hstep
    rename_i p hp
    split at hstep
    · exact (h.sched hp hstep).2
    · exact nomatch hstep
  · simp only [step] at hstep
    split at hstep
    · exact nomatch hstep
    rename_i t ht
    split at hstep
    · exact Outcome.done.inj hstep ▸ (h.dispatch ‹_› ht hallowed).2
    · exact nomatch hstep
  · intro l hl
    have hlocks := h.setLocks (update s.locks l none)
    obtain ⟨s', hpop, hbit⟩ := hlocks.popOff_last hp hpushes
    refine ⟨s', ?_, hbit⟩
    unfold release
    rw [if_pos hl]
    exact hpop

/-- Process 0 runs on CPU 0, where interrupts are on when it calls `yield`, and then on CPU 1. -/
def migration : List Act :=
  [.create 0, .schedulerAcquire 0 0, .take 0 (.proc 0), .dispatch 0 0, .release 0 (.proc 0),
    .intrOn 0, .acquire 0 (.proc 0), .take 0 (.proc 0), .sched 0, .schedulerRelease 0 0,
    .schedulerAcquire 1 0, .take 1 (.proc 0), .dispatch 1 0]

def migrated (n : Nat) : State := finalState step (fun _ _ => true) State.init (migration.take n)

theorem off_migrated : (migrated 3).Off 0 ∧ (migrated 12).Off 0 := by
  constructor
  · rintro (_ | c) hc
    · exact nomatch hc
    · exact nomatch hc
  · rintro (_ | _ | c) hc
    · exact nomatch hc
    · exact nomatch hc
    · exact nomatch hc

theorem reachable_migrated : Reachable State.init step Allowed (migrated 13) := by
  have h1 : Reachable State.init step Allowed (migrated 1) :=
    .step (a := .create 0) .init (fun _ => nofun) rfl
  have h2 : Reachable State.init step Allowed (migrated 2) :=
    .step (a := .schedulerAcquire 0 0) h1 rfl rfl
  have h3 : Reachable State.init step Allowed (migrated 3) :=
    .step (a := .take 0 (.proc 0)) h2 trivial rfl
  have h4 : Reachable State.init step Allowed (migrated 4) :=
    .step (a := .dispatch 0 0) h3 off_migrated.1 rfl
  have h5 : Reachable State.init step Allowed (migrated 5) :=
    .step (a := .release 0 (.proc 0)) h4 trivial rfl
  have h6 : Reachable State.init step Allowed (migrated 6) :=
    .step (a := .intrOn 0) h5 rfl rfl
  have h7 : Reachable State.init step Allowed (migrated 7) :=
    .step (a := .acquire 0 (.proc 0)) h6 trivial rfl
  have h8 : Reachable State.init step Allowed (migrated 8) :=
    .step (a := .take 0 (.proc 0)) h7 trivial rfl
  have h9 : Reachable State.init step Allowed (migrated 9) :=
    .step (a := .sched 0) h8 trivial rfl
  have h10 : Reachable State.init step Allowed (migrated 10) :=
    .step (a := .schedulerRelease 0 0) h9 trivial rfl
  have h11 : Reachable State.init step Allowed (migrated 11) :=
    .step (a := .schedulerAcquire 1 0) h10 rfl rfl
  have h12 : Reachable State.init step Allowed (migrated 12) :=
    .step (a := .take 1 (.proc 0)) h11 trivial rfl
  exact .step (a := .dispatch 1 0) h12 off_migrated.2 rfl

/-- The bit is off on CPU 1, and goes on there since it was on when the process made its
    `push_off` on CPU 0. -/
theorem interrupts_per_thread_migrated :
    Reachable State.init step Allowed (migrated 13) ∧ ((migrated 13).cpus 1).sie = false ∧
      ∃ s', release 1 (.proc 0) (migrated 13) = .done s' ∧ (s'.cpus 1).sie = true ∧
        (s'.current 1).pushes = [] := by
  obtain ⟨-, -, -, -, hpop⟩ := interrupts_per_thread reachable_migrated
  exact ⟨reachable_migrated, rfl, (hpop 1 0 true rfl rfl).2 (.proc 0) rfl⟩

end Xv6.Sched.Interrupts
