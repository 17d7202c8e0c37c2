import Xv6.Sched.Threads

/-!
# What a step changes

A step of a CPU is one of `scheduler` or of `swtch`, an instruction of the frame on top, or a
function that begins on top of functions without locks (`Kind`).  In each case the other CPUs
keep what they execute, and the locks change with those that the CPU has to release
(`Elsewhere`).  An invariant of the whole machine has to be checked in these three cases only.
-/

namespace Xv6.Sched

open Transition Process Function

/-- From the locks `lock`, of which CPU `c` has to release `L`, to the next ones. -/
inductive LockStep (c : Nat) (lock : Lock → Option Nat) (L : List Lock) :
    (Lock → Option Nat) → List Lock → Prop where
  | same {L' : List Lock} (held : L'.Perm L) : LockStep c lock L lock L'
  | take {L' : List Lock} (x : Lock) (held : L'.Perm (x :: L)) :
      LockStep c lock L (update lock x (some c)) L'
  | drop {L' : List Lock} (x : Lock) (held : L.Perm (x :: L')) :
      LockStep c lock L (update lock x none) L'

/-- What a step of CPU `c` leaves to the others. -/
structure Elsewhere (m : Machine) (c : Nat) (m' : Machine) : Prop where
  cpu : ∀ c', c' ≠ c → m'.cpu c' = m.cpu c'
  stack : ∀ c' q, c' ≠ c → (m.cpu c').mode = .exec q → m'.stack q = m.stack q
  locks : LockStep c m.lock (m.held c) m'.lock (m'.held c)

/-- A step of `scheduler` or of `swtch`: it wakes nobody and puts nobody to sleep. -/
structure Idle (m : Machine) (c : Nat) (m' : Machine) : Prop extends Elsewhere m c m' where
  frames : m.frames c = []
  stackEq : m'.stack = m.stack
  cond : m'.cond = m.cond
  chan : ∀ q, (m'.proc q).chan = (m.proc q).chan
  state : ∀ q, (m'.proc q).state = .SLEEPING → (m.proc q).state = .SLEEPING
  exec : ∀ p, (m'.cpu c).mode = .exec p → Resumable (m.stack p)

/-- CPU `c` goes on with `next`, on top of functions without locks. -/
structure Continues (m : Machine) (c : Nat) (next : Option Frame) (m' : Machine) : Prop
    extends Elsewhere m c m' where
  mode : ∀ q, (m'.cpu c).mode = .exec q → (m.cpu c).mode = .exec q
  frames : ∃ fs, m'.frames c = next.toList ++ fs ∧ ∀ f ∈ fs, f.locks = []

def Instr.slots (m : Machine) : Instr → Nat → Slot
  | .write j y _ => update m.proc j y
  | .alloc j _ => update m.proc j ((m.proc j).taken m.nextpid)
  | .reject j _ => update m.proc j .freed
  | _ => m.proc

def Instr.conds (m : Machine) : Instr → Nat → Bool
  | .setCond l b _ => update m.cond l b
  | _ => m.cond

/-- The frame that the CPU executes after the instruction. -/
def Instr.next : Instr → Option Frame
  | .goto next | .acquire _ next | .release _ next | .write _ _ next | .alloc _ next
  | .reject _ next | .setCond _ _ next => next
  | .sched .. | .rest | .panic _ => none

inductive Kind (m : Machine) (c : Nat) (m' : Machine) : Prop where
  | idle (idle : Idle m c m')
  | instr (ok : Bool) (top : Frame) (fs : List Frame) (frames : m.frames c = top :: fs)
      (continues : Continues m c (instr m c ok top).next m')
      (proc : m'.proc = (instr m c ok top).slots m) (cond : m'.cond = (instr m c ok top).conds m)
  | push (f : Frame) (free : ∀ g ∈ m.frames c, g.locks = []) (begins : f.locks = [])
      (continues : Continues m c (some f) m') (proc : m'.proc = m.proc) (cond : m'.cond = m.cond)

section Frames

variable {m m' m₁ : Machine} {c c' p : Nat} {top : Frame} {fs : List Frame} {next : Option Frame}

theorem LockStep.elsewhere {lock lock' : Lock → Option Nat} {L L' : List Lock}
    (h : LockStep c lock L lock' L') {x : Lock} (hne : c' ≠ c) (hx : lock' x = some c') :
    lock x = some c' := by
  cases h with
  | same => exact hx
  | take y =>
    by_cases hxy : x = y
    · rw [hxy, update_self] at hx
      exact absurd (Option.some.inj hx).symm hne
    · rwa [update_of_ne hxy] at hx
  | drop y =>
    by_cases hxy : x = y
    · rw [hxy, update_self] at hx
      cases hx
    · rwa [update_of_ne hxy] at hx

/-- No lock of the CPU is lost. -/
theorem LockStep.held {lock lock' : Lock → Option Nat} {L L' : List Lock}
    (h : LockStep c lock L lock' L') (hL : ∀ x, lock x = some c → x ∈ L) {x : Lock}
    (hx : lock' x = some c) : x ∈ L' := by
  cases h with
  | same held => exact held.mem_iff.mpr (hL x hx)
  | take y held =>
    rw [held.mem_iff, List.mem_cons]
    by_cases hxy : x = y
    · exact Or.inl hxy
    · rw [update_of_ne hxy] at hx
      exact Or.inr (hL x hx)
  | drop y held =>
    by_cases hxy : x = y
    · rw [hxy, update_self] at hx
      cases hx
    · rw [update_of_ne hxy] at hx
      exact (List.mem_cons.mp (held.mem_iff.mp (hL x hx))).resolve_left hxy

theorem frames_exec (hmode : (m.cpu c).mode = .exec p) : m.frames c = m.stack p := by
  unfold Machine.frames
  rw [hmode]

theorem Elsewhere.frames_eq (he : Elsewhere m c m') (hne : c' ≠ c) :
    m'.frames c' = m.frames c' := by
  unfold Machine.frames
  rw [he.cpu c' hne]
  cases hmode : (m.cpu c').mode <;> try rfl
  exact he.stack c' _ hne hmode

theorem Elsewhere.held_eq (he : Elsewhere m c m') (hne : c' ≠ c) : m'.held c' = m.held c' := by
  unfold Machine.held
  rw [he.cpu c' hne]
  cases hmode : (m.cpu c').mode <;> try rfl
  dsimp only
  rw [he.stack c' _ hne hmode]

theorem Inv.exec_proc (h : Inv m) (hmode : (m.cpu c).mode = .exec p) : (m.cpu c).proc = some p := by
  rw [(h.cpu c).proc, hmode]
  rfl

theorem Inv.exec_unique (h : Inv m) (hmode : (m.cpu c).mode = .exec p)
    (hmode' : (m.cpu c').mode = .exec p) : c = c' :=
  h.unique c c' p (h.exec_proc hmode) (h.exec_proc hmode')

theorem Inv.exec_in_use (h : Inv m) (hmode : (m.cpu c).mode = .exec p) :
    (m.proc p).state ≠ .UNUSED := by
  have hok := (h.cpu c).mode
  unfold ModeOk at hok
  rw [hmode] at hok
  rw [hok.1]
  cases hmark : topMark (m.stack p) with
  | none => decide
  | some s =>
    obtain ⟨f, hf, hs⟩ := Option.bind_eq_some_iff.mp hmark
    rcases (Frame.mark_locks (h.self p f (List.mem_of_mem_head? hf)) hs).2 with rfl | rfl | rfl <;>
      decide

/-- Of the frames that a CPU executes only the first holds locks, and those are the CPU's. -/
theorem Inv.frames_locks (h : Inv m) (hfr : m.frames c = top :: fs) :
    m.held c = top.locks ∧ ∀ f ∈ fs, f.locks = [] := by
  unfold Machine.frames at hfr
  cases hmode : (m.cpu c).mode <;> rw [hmode] at hfr <;> dsimp only at hfr
  case exec p =>
    have htail : ∀ f ∈ fs, f.locks = [] := by
      have htail := h.tail p
      rwa [hfr] at htail
    refine ⟨?_, htail⟩
    rw [held_exec hmode hfr, locks_eq_nil htail, List.append_nil]
  case irq j f =>
    cases hfr
    refine ⟨?_, fun f hf => by cases hf⟩
    unfold Machine.held
    rw [hmode]
  all_goals cases hfr

/-! ### Instructions -/

theorem run_frames {ok : Bool} (hfr : m.frames c = top :: fs) :
    run m c ok = perform m c fs (instr m c ok top) := by
  unfold run
  rw [hfr]
  unfold Machine.frames at hfr
  cases hmode : (m.cpu c).mode <;> rw [hmode] at hfr <;> first | rfl | cases hfr

theorem frames_legal (h : Inv m) (hfr : m.frames c = top :: fs) (ok : Bool) :
    Legal m (m.cpu c).proc top (instr m c ok top) := by
  unfold Machine.frames at hfr
  cases hmode : (m.cpu c).mode <;> rw [hmode] at hfr <;> dsimp only at hfr
  case exec p =>
    have hself := h.self p top (by rw [hfr]; exact List.mem_cons_self)
    exact instr_legal top rfl (h.exec_proc hmode ▸ hself)
  case irq j f =>
    cases hfr
    have hok := (h.cpu c).mode
    unfold ModeOk at hok
    rw [hmode] at hok
    obtain ⟨l, at_, rfl⟩ := hok
    exact wakerInstr_legal l at_
  all_goals cases hfr

theorem continues_setFrames (h : Inv m) (m₁ : Machine) (hfr : m.frames c = top :: fs)
    (next : Option Frame) (hcpu : m₁.cpu = m.cpu)
    (hstk : ∀ c' q, (m.cpu c').mode = .exec q → m₁.stack q = m.stack q)
    (hlocks : LockStep c m.lock top.locks m₁.lock (nextLocks next)) :
    Continues m c next (m₁.setFrames c (next.toList ++ fs)) ∧
    (m₁.setFrames c (next.toList ++ fs)).proc = m₁.proc ∧
    (m₁.setFrames c (next.toList ++ fs)).cond = m₁.cond := by
  obtain ⟨hheld, hfs⟩ := h.frames_locks hfr
  rw [← hheld] at hlocks
  unfold Machine.frames at hfr
  cases hmode : (m.cpu c).mode <;> rw [hmode] at hfr <;> dsimp only at hfr
  case exec p =>
    have hmode₁ : (m₁.cpu c).mode = .exec p := by rw [hcpu, hmode]
    rw [setFrames_exec hmode₁]
    refine ⟨⟨⟨fun c' _ => congrFun hcpu c', fun c' q hne hq => ?_, ?_⟩, fun q hq => ?_,
      fs, ?_, hfs⟩, rfl, rfl⟩
    · have hqp : q ≠ p := by
        rintro rfl
        exact hne (h.exec_unique hq hmode)
      rw [Machine.setStack_stack, update_of_ne hqp, hstk c' q hq]
    · unfold Machine.held
      rw [Machine.setStack_cpu, hmode₁]
      dsimp only
      rwa [Machine.setStack_stack, update_self, locks_append, locks_eq_nil hfs, List.append_nil]
    · rwa [Machine.setStack_cpu, hcpu] at hq
    · rw [frames_exec (p := p) (by exact hmode₁)]
      exact update_self ..
  case irq j f =>
    cases hfr
    have hset : ∀ {md : Mode}, (∀ q, md ≠ .exec q) → (m₁.setMode c md).held c = nextLocks next →
        (m₁.setMode c md).frames c = next.toList → Continues m c next (m₁.setMode c md) := by
      intro md hmd hlocks' hframes
      have hself : ((m₁.setMode c md).cpu c).mode = md := by
        rw [Machine.setMode, Machine.setCpu_cpu, update_self]
      refine ⟨⟨fun c' hc' => ?_, fun c' q _ hq => hstk c' q hq, ?_⟩, fun q hq => ?_, [], ?_,
        fun f hf => by cases hf⟩
      · rw [Machine.setMode, Machine.setCpu_cpu, update_of_ne hc', hcpu]
      · rw [hlocks']
        exact hlocks
      · rw [hself] at hq
        exact absurd hq (hmd q)
      · rw [hframes, List.append_nil]
    unfold Machine.setFrames
    rw [hcpu, hmode]
    cases next with
    | none =>
      refine ⟨hset (fun q hq => by cases hq) setCpu_held ?_, rfl, rfl⟩
      simp [Machine.frames, Machine.setMode]
    | some g =>
      refine ⟨hset (fun q hq => by cases hq) setCpu_held ?_, rfl, rfl⟩
      simp [Machine.frames, Machine.setMode]
  all_goals cases hfr

theorem perform_continues {i : Instr} {who : Option Nat} (h : Inv m) (hfr : m.frames c = top :: fs)
    (hl : Legal m who top i) (hs : perform m c fs i = .done m') :
    Continues m c i.next m' ∧ m'.proc = i.slots m ∧ m'.cond = i.conds m := by
  cases hl with
  | goto next held =>
    cases hs
    exact continues_setFrames h m hfr next rfl (fun _ _ _ => rfl) (.same held)
  | acquire x next held =>
    obtain ⟨m₁, h₁, h₂⟩ := Outcome.bind_eq_done.mp hs
    obtain ⟨-, rfl⟩ := acquire_done h₁
    cases h₂
    exact continues_setFrames h _ hfr next rfl (fun _ _ _ => rfl) (.take x held)
  | release x next held =>
    obtain ⟨m₁, h₁, h₂⟩ := Outcome.bind_eq_done.mp hs
    obtain ⟨-, rfl⟩ := release_done h₁
    cases h₂
    exact continues_setFrames h _ hfr next rfl (fun _ _ _ => rfl) (.drop x held)
  | alloc j g held _ _ _ _ old =>
    cases hs
    refine continues_setFrames h ((((m.setSlot j ((m.proc j).taken m.nextpid)).setNextpid
      (Ptable.succPid m.nextpid)).setStack j [.forkret j]).setStored j NREGS) hfr (some g) rfl
      (fun c' q hq => ?_) (.same held)
    have hqj : q ≠ j := by
      rintro rfl
      exact h.exec_in_use hq old
    exact update_of_ne hqj ..
  | reject j next held =>
    cases hs
    exact continues_setFrames h ((m.setSlot j .freed).setNextpid (Ptable.succPid m.nextpid)) hfr
      next rfl (fun _ _ _ => rfl) (.same held)
  | setCond l b next held =>
    cases hs
    exact continues_setFrames h (m.setCond l b) hfr next rfl (fun _ _ _ => rfl) (.same held)
  | sched p g s held =>
    dsimp only [perform] at hs
    unfold enterSwtch at hs
    split at hs
    · cases hs
    split at hs
    · cases hs
    split at hs
    · cases hs
    cases hs
    obtain ⟨hcont, hproc, hcond⟩ := continues_setFrames h m hfr (some g) rfl (fun _ _ _ => rfl)
      (.same (List.Perm.of_eq (held.2.trans held.1.symm)))
    have hlock : (m.setFrames c ((some g).toList ++ fs)).lock = m.lock := by
      unfold Machine.setFrames
      split <;> rfl
    refine ⟨⟨⟨fun c' hc' => ?_, hcont.stack, ?_⟩, fun q hq => ?_, [], ?_, fun f hf => by cases hf⟩,
      hproc, hcond⟩
    · rw [Machine.setMode, Machine.setCpu_cpu, update_of_ne hc']
      exact hcont.cpu c' hc'
    · rw [Machine.setMode, setCpu_held, (h.frames_locks hfr).1, held.1]
      change LockStep c m.lock _ (m.setFrames c ((some g).toList ++ fs)).lock _
      rw [hlock]
      exact .same (List.Perm.refl _)
    · rw [Machine.setMode, Machine.setCpu_cpu, update_self] at hq
      cases hq
    · simp [Machine.frames, Machine.setMode, Instr.next]
  | rest => cases hs
  | panic e => cases hs
  | keep j y next held | wake j y next held | reap j y next held =>
    cases hs
    exact continues_setFrames h (m.setSlot j y) hfr next rfl (fun _ _ _ => rfl) (.same held)
  | mark j y g held | publish j y g held =>
    cases hs
    exact continues_setFrames h (m.setSlot j y) hfr (some g) rfl (fun _ _ _ => rfl) (.same held)

end Frames

/-! ### The scheduler and `swtch` -/

section Scheduler

variable {m m' m₁ : Machine} {c p : Nat} {ok : Bool} {u : Cpu}

theorem idle_setCpu (hfr : m.frames c = []) (hcpu : m₁.cpu = m.cpu) (hstk : m₁.stack = m.stack)
    (hcond : m₁.cond = m.cond) (hproc : ∀ q, (m₁.proc q).chan = (m.proc q).chan ∧
      ((m₁.proc q).state = .SLEEPING → (m.proc q).state = .SLEEPING))
    (hlocks : LockStep c m.lock (m.held c) m₁.lock ((m₁.setCpu c u).held c))
    (hexec : ∀ p, u.mode = .exec p → Resumable (m.stack p)) : Idle m c (m₁.setCpu c u) := by
  refine ⟨⟨fun c' hc' => ?_, fun _ q _ _ => congrFun hstk q, hlocks⟩, hfr, hstk, hcond,
    fun q => (hproc q).1, fun q => (hproc q).2, fun p hp => ?_⟩
  · rw [Machine.setCpu_cpu, update_of_ne hc', hcpu]
  · rw [Machine.setCpu_cpu, update_self] at hp
    exact hexec p hp

theorem scheduler_idle (h : Inv m) (hfr : m.frames c = []) (hs : run m c ok = .done m') :
    Idle m c m' := by
  have hmode := (h.cpu c).mode
  -- the CPU goes on with the lock that it holds
  have hkeep : ∀ {u : Cpu}, (m.setCpu c u).held c = m.held c →
      (∀ p, u.mode = .exec p → Resumable (m.stack p)) → Idle m c (m.setCpu c u) :=
    fun hheld hexec => idle_setCpu hfr rfl rfl rfl (fun _ => ⟨rfl, id⟩)
      (.same (List.Perm.of_eq hheld)) hexec
  unfold run at hs
  unfold ModeOk at hmode
  unfold Machine.held at hkeep
  cases hm : (m.cpu c).mode <;> rw [hm] at hs hmode hkeep <;> dsimp only at hs hmode hkeep
  case look j =>
    obtain ⟨m₁, h₁, h₂⟩ := Outcome.bind_eq_done.mp hs
    obtain ⟨-, rfl⟩ := acquire_done h₁
    cases h₂
    refine idle_setCpu hfr rfl rfl rfl (fun _ => ⟨rfl, id⟩) ?_ fun p hp => by cases hp
    rw [setCpu_held, Machine.held, hm]
    exact .take _ (List.Perm.refl _)
  case drop j =>
    obtain ⟨m₁, h₁, h₂⟩ := Outcome.bind_eq_done.mp hs
    obtain ⟨-, rfl⟩ := release_done h₁
    cases h₂
    refine idle_setCpu hfr rfl rfl rfl (fun _ => ⟨rfl, id⟩) ?_ fun p hp => by cases hp
    rw [setCpu_held, Machine.held, hm]
    exact .drop _ (List.Perm.refl _)
  case mark j =>
    cases hs
    refine idle_setCpu hfr rfl rfl rfl (fun q => ?_) ?_ fun p hp => by cases hp
    · rw [Machine.setSlot_proc]
      by_cases hqj : q = j
      · rw [hqj, update_self]
        exact ⟨rfl, fun hq => by cases hq⟩
      · rw [update_of_ne hqj]
        exact ⟨rfl, id⟩
    · rw [setCpu_held, Machine.held, hm]
      exact .same (List.Perm.refl _)
  case loadProc j k =>
    obtain ⟨-, hr, -⟩ := hmode
    split at hs <;> cases hs
    · exact hkeep setCpu_held fun p hp => by cases hp
    · refine hkeep (setCpu_held.trans (hr.locks h).1) fun p hp => ?_
      cases hp
      exact hr.top
  case saveProc p k =>
    split at hs <;> cases hs
    · refine idle_setCpu hfr rfl rfl rfl (fun _ => ⟨rfl, id⟩) ?_ fun p hp => by cases hp
      rw [setCpu_held, Machine.held, hm]
      exact .same (List.Perm.refl _)
    · exact hkeep setCpu_held fun p hp => by cases hp
  case loadSched p k =>
    obtain ⟨-, -, hctx⟩ := hmode
    split at hs <;> cases hs
    · exact hkeep setCpu_held fun p hp => by cases hp
    · refine hkeep (setCpu_held.trans ?_) fun p hp => by cases hp
      dsimp only
      rw [hctx]
  case test j => split at hs <;> cases hs <;> exact hkeep setCpu_held fun p hp => by cases hp
  case saveSched j k => split at hs <;> cases hs <;> exact hkeep setCpu_held fun p hp => by cases hp
  case assign j =>
    cases hs
    exact hkeep setCpu_held fun p hp => by cases hp
  case clear j =>
    cases hs
    exact hkeep setCpu_held fun p hp => by cases hp
  case exec p =>
    rw [hfr] at hs
    cases hs
  case irq j f =>
    rw [hfr] at hs
    cases hs

end Scheduler

/-! ### Calls and interrupts -/

section Step

variable {m m' : Machine} {c p : Nat}

theorem push_kind {f : Frame} (h : Inv m) (hmode : (m.cpu c).mode = .exec p)
    (hfree : ∀ g ∈ m.stack p, g.locks = []) (hf : f.locks = []) :
    Kind m c (m.setFrames c (f :: m.stack p)) := by
  rw [setFrames_exec hmode]
  refine .push f (by rwa [frames_exec hmode]) hf ⟨⟨fun _ _ => rfl, fun c' q hne hq => ?_, ?_⟩,
    fun _ hq => hq, m.stack p, ?_, hfree⟩ rfl rfl
  · have hqp : q ≠ p := by
      rintro rfl
      exact hne (h.exec_unique hq hmode)
    exact update_of_ne hqp ..
  · have hheld : (m.setStack p (f :: m.stack p)).held c = m.held c := by
      unfold Machine.held
      rw [Machine.setStack_cpu, hmode]
      dsimp only
      rw [Machine.setStack_stack, update_self, locks, List.flatMap_cons, hf]
      rfl
    rw [hheld]
    exact .same (List.Perm.refl _)
  · rw [frames_exec (p := p) (by exact hmode)]
    exact update_self ..

/-- **What a step does.** -/
theorem step_kind {a : Act} (h : Inv m) (hs : step m a = .done m') : ∃ c, Kind m c m' := by
  cases a with
  | run c ok =>
    refine ⟨c, ?_⟩
    cases hfr : m.frames c with
    | nil => exact .idle (scheduler_idle h hfr hs)
    | cons top fs =>
      obtain ⟨hcont, hproc, hcond⟩ := perform_continues h hfr (frames_legal h hfr ok)
        ((run_frames hfr).symm.trans hs)
      exact .instr ok top fs hfr hcont hproc hcond
  | call c call =>
    refine ⟨c, ?_⟩
    dsimp only [step] at hs
    unfold startCall at hs
    split at hs
    · rename_i q fs p hmode hfr hp
      have hst : m.stack q = .user :: fs := (frames_exec hmode).symm.trans hfr
      have hfree : ∀ g ∈ m.stack q, g.locks = [] := by
        rw [hst]
        exact List.forall_mem_cons.mpr ⟨rfl, (h.frames_locks hfr).2⟩
      have hpush : Kind m c (m.setFrames c (call.frame p :: .user :: fs)) := by
        rw [← hst]
        exact push_kind h hmode hfree (by cases call <;> rfl)
      split at hs
      · split at hs
        · cases hs
        · cases hs
          exact hpush
      · cases hs
        exact hpush
    · cases hs
  | timer c =>
    refine ⟨c, ?_⟩
    dsimp only [step] at hs
    unfold timer at hs
    split at hs
    · rename_i q p hmode hp
      split at hs
      · rename_i hnoff
        cases hs
        rw [frames_exec hmode]
        exact push_kind h hmode (frames_free hmode hnoff) rfl
      · cases hs
    · cases hs
  | device c l =>
    refine ⟨c, ?_⟩
    dsimp only [step] at hs
    unfold device at hs
    split at hs
    · rename_i q hmode
      split at hs
      · rename_i hnoff
        cases hs
        rw [frames_exec hmode]
        exact push_kind h hmode (frames_free hmode hnoff) rfl
      · cases hs
    · rename_i j hmode
      cases hs
      refine .idle (idle_setCpu (by rw [Machine.frames, hmode]) rfl rfl rfl (fun _ => ⟨rfl, id⟩) ?_
        fun p hp => by cases hp)
      rw [setCpu_held, Machine.held, hmode]
      exact .same (List.Perm.refl _)
    · cases hs

end Step

end Xv6.Sched
