import Xv6.Sched.Instr

/-!
# Who runs, and what is saved

What holds of a CPU depends on what it executes (`ModeOk`), and speaks of one process only: the
one that is in `c->proc`, or whose lock the CPU holds.  So a step of another CPU does not
disturb it (`CpuOk.stable`).
-/

namespace Xv6.Sched

open Transition Process Function

/-! ### The invariant -/

/-- The entry that a CPU is concerned with. -/
def Mode.index : Mode → Nat
  | .look j | .test j | .mark j | .assign j | .saveSched j _ | .loadProc j _ | .clear j | .drop j
  | .irq j _ | .exec j | .saveProc j _ | .loadSched j _ => j

/-- The process that is in `c->proc` meanwhile. -/
def Mode.proc : Mode → Option Nat
  | .saveSched j _ | .loadProc j _ | .clear j | .exec j | .saveProc j _ | .loadSched j _ => some j
  | _ => none

def topMark (fs : List Frame) : Option ProcState := fs.head?.bind Frame.mark

/-- The processes that the frames have allocated. -/
def newborns (fs : List Frame) : List Nat := fs.filterMap Frame.newborn

/-- The thread goes on when it is switched to. -/
def Resumable (fs : List Frame) : Prop := ∃ f rest, fs = f :: rest ∧ f.resumes = true

/-- `p->context` can be switched to. -/
structure Ready (m : Machine) (p : Nat) : Prop where
  stored : m.stored p = NREGS
  top : Resumable (m.stack p)

/-- `p` has given up the CPU, and its state says for what. -/
def Parked (m : Machine) (p : Nat) : Prop :=
  (m.proc p).state = .ZOMBIE ∨
    (((m.proc p).state = .RUNNABLE ∨ (m.proc p).state = .SLEEPING) ∧ Resumable (m.stack p))

/-- What holds while a CPU executes what it does. -/
def ModeOk (m : Machine) (u : Cpu) : Prop :=
  match u.mode with
  | .look _ | .test _ | .drop _ => True
  | .mark j => (m.proc j).state = .RUNNABLE
  | .assign j => (m.proc j).state = .RUNNING ∧ Ready m j ∧ ∀ c, (m.cpu c).proc ≠ some j
  | .saveSched j _ => (m.proc j).state = .RUNNING ∧ Ready m j
  | .loadProc j _ => (m.proc j).state = .RUNNING ∧ Ready m j ∧ u.context = j
  | .irq _ f => ∃ l at_, f = .waker l at_
  | .exec p => (m.proc p).state = (topMark (m.stack p)).getD .RUNNING ∧ u.context = p
  | .saveProc p k => m.stored p = k ∧ k ≤ NREGS ∧ Parked m p ∧ u.context = p
  | .loadSched p _ => m.stored p = NREGS ∧ Parked m p ∧ u.context = p
  | .clear p => m.stored p = NREGS ∧ Parked m p

structure CpuOk (m : Machine) (c : Nat) : Prop where
  lt : (m.cpu c).mode.index < NPROC
  proc : (m.cpu c).proc = (m.cpu c).mode.proc
  nodup : (m.held c).Nodup
  held : ∀ x ∈ m.held c, m.lock x = some c
  mode : ModeOk m (m.cpu c)

/-- The states of a process that a CPU may be given. -/
def Waits (s : ProcState) : Prop := s = .USED ∨ s = .RUNNABLE ∨ s = .SLEEPING

/-- What holds of the kernel stacks: only the function on top holds locks, and a new process has
    one creator. -/
structure StacksOk (m : Machine) : Prop where
  self : ∀ p, ∀ f ∈ m.stack p, f.self = none ∨ f.self = some p
  tail : ∀ p, ∀ f ∈ (m.stack p).tail, f.locks = []
  newborn : ∀ p, ∀ np ∈ newborns (m.stack p), (m.proc np).state = .USED
  once : ∀ p q np, np ∈ newborns (m.stack p) → np ∈ newborns (m.stack q) → p = q
  single : ∀ p, (newborns (m.stack p)).Nodup

structure Inv (m : Machine) : Prop extends StacksOk m where
  cpu : ∀ c, CpuOk m c
  unique : ∀ c c' p, (m.cpu c).proc = some p → (m.cpu c').proc = some p → c = c'
  on_cpu : ∀ p, (m.proc p).state = .RUNNING →
    ∃ c, (m.cpu c).proc = some p ∨ (m.cpu c).mode = .assign p
  ready : ∀ p, Waits (m.proc p).state → (∀ c, (m.cpu c).proc ≠ some p) → Ready m p

section Frames

variable {m m' : Machine} {c c' p q : Nat} {f top : Frame} {fs : List Frame} {next : Option Frame}

/-- A process marks itself only while it holds its own lock. -/
theorem Frame.mark_locks {s : ProcState} (hs : f.self = none ∨ f.self = some p)
    (h : f.mark = some s) :
    .proc p ∈ f.locks ∧ (s = .RUNNABLE ∨ s = .SLEEPING ∨ s = .ZOMBIE) := by
  unfold Frame.mark at h
  split at h <;> cases h <;> rcases hs with hs | hs <;> cases hs <;>
    simp [Frame.locks, SleepAt.locks]

theorem Frame.mark_eq_none (h : f.locks = []) : f.mark = none := by
  unfold Frame.mark
  split <;> first | rfl | (simp [Frame.locks, SleepAt.locks] at h)

theorem Frame.resumes_locks (hs : f.self = none ∨ f.self = some p) (h : f.resumes = true) :
    f.locks = [.proc p] ∧ f.mark = none := by
  unfold Frame.resumes at h
  split at h
  case h_5 => cases h
  all_goals
    rcases hs with hs | hs <;> cases hs
    exact ⟨rfl, rfl⟩

theorem locks_append (next : Option Frame) (fs : List Frame) :
    locks (next.toList ++ fs) = nextLocks next ++ locks fs := by
  cases next <;> simp [locks, nextLocks]

theorem newborns_append (next : Option Frame) (fs : List Frame) :
    newborns (next.toList ++ fs) = (nextNewborn next).toList ++ newborns fs := by
  cases next with
  | none => simp [newborns, nextNewborn]
  | some g => cases hg : g.newborn <;> simp [newborns, nextNewborn, hg]

theorem topMark_append (next : Option Frame) (hfs : ∀ f ∈ fs, f.locks = []) :
    topMark (next.toList ++ fs) = nextMark next := by
  cases next with
  | none =>
    cases fs with
    | nil => rfl
    | cons f fs => exact Frame.mark_eq_none (hfs f List.mem_cons_self)
  | some g => rfl

theorem locks_eq_nil (hfs : ∀ f ∈ fs, f.locks = []) : locks fs = [] :=
  List.flatMap_eq_nil_iff.mpr hfs

end Frames

/-! ### A step of another CPU -/

/-- What a step of CPU `c` does to entry `q`: nothing that matters, what the process on `c`
    does to itself, or a change of state under `q`'s lock. -/
inductive Touch (m : Machine) (c q : Nat) (m' : Machine) : Prop where
  | same (state : (m'.proc q).state = (m.proc q).state) (stack : m'.stack q = m.stack q)
      (stored : m'.stored q = m.stored q)
  | own (owner : (m.cpu c).proc = some q)
      (state : (m'.proc q).state = (m.proc q).state ∨ .proc q ∈ m.held c)
  | turn (locked : .proc q ∈ m.held c) (old : (m.proc q).state ≠ .RUNNING)
      (ready : Waits (m'.proc q).state → Waits (m.proc q).state)
      (stack : m'.stack q = m.stack q) (stored : m'.stored q = m.stored q)
  | alloc (locked : .proc q ∈ m.held c) (old : (m.proc q).state = .UNUSED) (ready : Ready m' q)

structure Effect (m : Machine) (c : Nat) (m' : Machine) : Prop where
  cpu : ∀ c', c' ≠ c → m'.cpu c' = m.cpu c'
  lock : ∀ x c', c' ≠ c → m.lock x = some c' → m'.lock x = some c'
  slot : ∀ q, Touch m c q m'
  proc : ∀ p, (m'.cpu c).proc = some p → (m.cpu c).proc = some p ∨ (m.cpu c).mode = .assign p

section Stable

variable {m m' : Machine} {c c' p q : Nat}

theorem Inv.exclusive (h : Inv m) {x : Lock} (hc : x ∈ m.held c) (hc' : x ∈ m.held c') : c = c' :=
  Option.some.inj (((h.cpu c).held x hc).symm.trans ((h.cpu c').held x hc'))

/-- The process in `c->proc` runs, or its lock is held by `c`. -/
theorem Inv.running_or (h : Inv m) (hp : (m.cpu c).proc = some p) :
    (m.proc p).state = .RUNNING ∨ .proc p ∈ m.held c := by
  have hok := h.cpu c
  have hmode := hok.mode
  rw [hok.proc] at hp
  unfold ModeOk at hmode
  unfold Machine.held
  cases hm : (m.cpu c).mode <;> rw [hm] at hp hmode <;> cases hp
  case saveSched => exact Or.inl hmode.1
  case loadProc => exact Or.inl hmode.1
  case exec =>
    cases htop : topMark (m.stack p) with
    | none =>
      dsimp only at hmode
      rw [htop] at hmode
      exact Or.inl hmode.1
    | some s =>
      obtain ⟨f, hf, hmark⟩ := Option.bind_eq_some_iff.mp htop
      have hmem : f ∈ m.stack p := List.mem_of_head? hf
      have hlock := (Frame.mark_locks (h.self p f hmem) hmark).1
      exact Or.inr (List.mem_flatMap.mpr ⟨f, hmem, hlock⟩)
  all_goals exact Or.inr (List.mem_singleton_self _)

theorem Effect.on_other (he : Effect m c m') (h : Inv m) (hne : c' ≠ c)
    (hq : (m.cpu c').proc = some q) :
    (m'.proc q).state = (m.proc q).state ∧ m'.stack q = m.stack q ∧ m'.stored q = m.stored q := by
  have hlocked : .proc q ∈ m.held c → (m.proc q).state ≠ .RUNNING → False := fun hl hs =>
    (h.running_or hq).elim hs fun hl' => hne (h.exclusive hl' hl)
  cases he.slot q with
  | same hs hst hsv => exact ⟨hs, hst, hsv⟩
  | own howner => exact absurd (h.unique c' c q hq howner) hne
  | turn hl hold => exact (hlocked hl hold).elim
  | alloc hl hold => exact (hlocked hl (by simp [hold])).elim

theorem CpuOk.stable (h : Inv m) (he : Effect m c m') (hne : c' ≠ c) : CpuOk m' c' := by
  have hok := h.cpu c'
  have hcpu := he.cpu c' hne
  have hother : ∀ {q : Nat}, (m.cpu c').mode.proc = some q → (m'.proc q).state = (m.proc q).state ∧
      m'.stack q = m.stack q ∧ m'.stored q = m.stored q := fun hq =>
    he.on_other h hne (hok.proc.trans hq)
  have hready : ∀ {q : Nat}, m'.stack q = m.stack q → m'.stored q = m.stored q →
      Ready m q → Ready m' q := fun hst hsv ⟨hs, ht⟩ => ⟨hsv.trans hs, hst ▸ ht⟩
  have hparked : ∀ {q : Nat}, (m'.proc q).state = (m.proc q).state → m'.stack q = m.stack q →
      Parked m q → Parked m' q := fun hs hst hpk => by
    unfold Parked at hpk ⊢
    rwa [hs, hst]
  have hheld : m'.held c' = m.held c' := by
    unfold Machine.held
    rw [hcpu]
    cases hm : (m.cpu c').mode <;> try rfl
    rw [hm] at hother
    dsimp only
    rw [(hother rfl).2.1]
  refine ⟨hcpu ▸ hok.lt, hcpu ▸ hok.proc, hheld ▸ hok.nodup,
    fun x hx => he.lock x c' hne (hok.held x (hheld ▸ hx)), ?_⟩
  have hmode := hok.mode
  have hlocked : ∀ {q : Nat}, .proc q ∈ m.held c' → .proc q ∉ m.held c := fun h' hc =>
    hne (h.exclusive h' hc)
  rw [hcpu]
  unfold ModeOk at hmode ⊢
  cases hm : (m.cpu c').mode <;> rw [hm] at hmode hother <;> dsimp only at hmode ⊢
  case mark j =>
    have hl : .proc j ∈ m.held c' := by simp [Machine.held, hm]
    cases he.slot j with
    | same hs => rw [hs, hmode]
    | own _ hs => rw [hs.resolve_right (hlocked hl), hmode]
    | turn hl' => exact absurd hl' (hlocked hl)
    | alloc hl' => exact absurd hl' (hlocked hl)
  case assign j =>
    have hl : .proc j ∈ m.held c' := by simp [Machine.held, hm]
    obtain ⟨hs, hr, hnone⟩ := hmode
    have hsame : (m'.proc j).state = (m.proc j).state ∧ m'.stack j = m.stack j ∧
        m'.stored j = m.stored j := by
      cases he.slot j with
      | same hs hst hsv => exact ⟨hs, hst, hsv⟩
      | own howner => exact absurd howner (hnone c)
      | turn hl' => exact absurd hl' (hlocked hl)
      | alloc hl' => exact absurd hl' (hlocked hl)
    refine ⟨hsame.1.trans hs, hready hsame.2.1 hsame.2.2 hr, fun c'' hc'' => ?_⟩
    by_cases hcc : c'' = c
    · subst hcc
      rcases he.proc j hc'' with hold | hassign
      · exact hnone c'' hold
      · exact hlocked hl (by simp [Machine.held, hassign])
    · rw [he.cpu c'' hcc] at hc''
      exact hnone c'' hc''
  case saveSched j k =>
    obtain ⟨hs, hst, hsv⟩ := hother rfl
    exact ⟨hs.trans hmode.1, hready hst hsv hmode.2⟩
  case loadProc j k =>
    obtain ⟨hs, hst, hsv⟩ := hother rfl
    exact ⟨hs.trans hmode.1, hready hst hsv hmode.2.1, hmode.2.2⟩
  case irq => exact hmode
  case exec p =>
    obtain ⟨hs, hst, hsv⟩ := hother rfl
    exact ⟨by rw [hs, hst, hmode.1], hmode.2⟩
  case saveProc p k =>
    obtain ⟨hs, hst, hsv⟩ := hother rfl
    exact ⟨hsv.trans hmode.1, hmode.2.1, hparked hs hst hmode.2.2.1, hmode.2.2.2⟩
  case loadSched p k =>
    obtain ⟨hs, hst, hsv⟩ := hother rfl
    exact ⟨hsv.trans hmode.1, hparked hs hst hmode.2.1, hmode.2.2⟩
  case clear p =>
    obtain ⟨hs, hst, hsv⟩ := hother rfl
    exact ⟨hsv.trans hmode.1, hparked hs hst hmode.2⟩

/-- What is left to show of a step of CPU `c`: what it leaves of `c` itself, of the process that
    it gives up or takes, and of the stacks. -/
theorem Inv.of_effect (h : Inv m) (he : Effect m c m') (hc : CpuOk m' c)
    (hruns : ∀ p, (m'.proc p).state = .RUNNING → (m.proc p).state = .RUNNING ∨
      (m'.cpu c).mode = .assign p)
    (htakes : ∀ p, (m.cpu c).mode = .assign p → (m'.cpu c).proc = some p)
    (hgives : ∀ p, (m.cpu c).proc = some p → (m'.cpu c).proc ≠ some p →
      (m'.proc p).state ≠ .RUNNING ∧ (Waits (m'.proc p).state → Ready m' p))
    (hst : StacksOk m') : Inv m' := by
  have hcpus : ∀ c', CpuOk m' c' := fun c' => by
    by_cases hcc : c' = c
    · exact hcc ▸ hc
    · exact CpuOk.stable h he hcc
  have hkeep : ∀ {c' p : Nat}, c' ≠ c → (m.cpu c').proc = some p → (m'.cpu c').proc = some p :=
    fun hcc hp => by rwa [he.cpu _ hcc]
  refine ⟨hst, hcpus, fun c₁ c₂ p h₁ h₂ => ?_, fun p hp => ?_, fun p hw hnone => ?_⟩
  · -- only `c` may have got a process, and nobody had it
    have hself : ∀ {c' : Nat}, c' ≠ c → (m'.cpu c').proc = some p → (m'.cpu c).proc = some p →
        False := fun {c'} hcc hp' hp => by
      rw [he.cpu c' hcc] at hp'
      rcases he.proc p hp with hold | hassign
      · exact hcc (h.unique _ _ p hp' hold)
      · have hmode := (h.cpu c).mode
        unfold ModeOk at hmode
        rw [hassign] at hmode
        exact hmode.2.2 c' hp'
    by_cases h₁c : c₁ = c <;> by_cases h₂c : c₂ = c
    · rw [h₁c, h₂c]
    · subst h₁c
      exact (hself h₂c h₂ h₁).elim
    · subst h₂c
      exact (hself h₁c h₁ h₂).elim
    · rw [he.cpu _ h₁c] at h₁
      rw [he.cpu _ h₂c] at h₂
      exact h.unique _ _ p h₁ h₂
  · rcases hruns p hp with hold | hassign
    · obtain ⟨c', hc'⟩ := h.on_cpu p hold
      by_cases hcc : c' = c
      · subst hcc
        refine ⟨c', Or.inl ?_⟩
        rcases hc' with hproc | hassign
        · by_contra hne
          exact (hgives p hproc hne).1 hp
        · exact htakes p hassign
      · exact ⟨c', by rwa [he.cpu c' hcc]⟩
    · exact ⟨c, Or.inr hassign⟩
  · by_cases hcp : (m.cpu c).proc = some p
    · exact (hgives p hcp (hnone c)).2 hw
    · have hnone' : ∀ c', (m.cpu c').proc ≠ some p := fun c' hc' => by
        by_cases hcc : c' = c
        · exact hcp (hcc ▸ hc')
        · exact hnone c' (hkeep hcc hc')
      have hsame : m'.stack p = m.stack p → m'.stored p = m.stored p → Waits (m.proc p).state →
          Ready m' p := fun hstk hsv hw' => by
        obtain ⟨hs, ht⟩ := h.ready p hw' hnone'
        exact ⟨hsv.trans hs, hstk ▸ ht⟩
      cases he.slot p with
      | same hs hstk hsv => exact hsame hstk hsv (hs ▸ hw)
      | own howner => exact absurd howner hcp
      | turn _ _ hready hstk hsv => exact hsame hstk hsv (hready hw)
      | alloc _ _ hready => exact hready

end Stable

/-! ### The scheduler and `swtch` -/

section Scheduler

variable {m m' : Machine} {c p q j k : Nat} {u : Cpu}

theorem StacksOk.congr (h : StacksOk m) (hst : m'.stack = m.stack)
    (hused : ∀ q, (m.proc q).state = .USED → (m'.proc q).state = .USED) : StacksOk m' := by
  refine ⟨?_, ?_, fun p np hnp => ?_, ?_, ?_⟩
  · rw [hst]; exact h.self
  · rw [hst]; exact h.tail
  · rw [hst] at hnp
    exact hused np (h.newborn p np hnp)
  · rw [hst]; exact h.once
  · rw [hst]; exact h.single

theorem Inv.of_cpu (h : Inv m) (lock : Lock → Option Nat)
    (hlock : ∀ x c', c' ≠ c → m.lock x = some c' → lock x = some c')
    (hproc : ∀ p, u.proc = some p → (m.cpu c).proc = some p ∨ (m.cpu c).mode = .assign p)
    (hok : CpuOk ({ m with lock := lock }.setCpu c u) c)
    (htakes : ∀ p, (m.cpu c).mode = .assign p → u.proc = some p)
    (hgives : ∀ p, (m.cpu c).proc = some p → u.proc ≠ some p →
      (m.proc p).state ≠ .RUNNING ∧ (Waits (m.proc p).state → Ready m p)) :
    Inv ({ m with lock := lock }.setCpu c u) := by
  have hself : ({ m with lock := lock }.setCpu c u).cpu c = u := update_self ..
  refine h.of_effect ⟨fun c' hc' => update_of_ne hc' .., hlock, fun q => .same rfl rfl rfl,
    fun p hp => hproc p (hself ▸ hp)⟩ hok (fun p hp => Or.inl hp) (fun p hp => ?_)
    (fun p hp hne => ?_) (h.toStacksOk.congr rfl fun _ hq => hq)
  · rw [hself]
    exact htakes p hp
  · rw [hself] at hne
    obtain ⟨hs, hr⟩ := hgives p hp hne
    exact ⟨hs, fun hw => ⟨(hr hw).stored, (hr hw).top⟩⟩

theorem acquire_done {x : Lock} (h : acquire m c x = .done m') :
    m.lock x = none ∧ m' = m.setLock x (some c) := by
  unfold acquire at h
  split at h
  · rename_i hx
    cases h
    exact ⟨hx, rfl⟩
  · split at h <;> cases h

theorem release_done {x : Lock} (h : release m c x = .done m') :
    m.lock x = some c ∧ m' = m.setLock x none := by
  unfold release at h
  split at h
  · rename_i hx
    cases h
    exact ⟨hx, rfl⟩
  · cases h

/-- Taking a free lock, or giving back one's own, takes no lock from another CPU. -/
theorem update_lock {x : Lock} {l : Option Nat} (hx : m.lock x = none ∨ m.lock x = some c) :
    ∀ y c', c' ≠ c → m.lock y = some c' → update m.lock x l y = some c' :=
  fun y c' hne hy => by
    rw [update_of_ne, hy]
    rintro rfl
    rcases hx with hx | hx <;> rw [hx] at hy <;> cases hy
    exact hne rfl

theorem cpuOk_one (lock : Lock → Option Nat) (hlt : u.mode.index < NPROC) (hproc : u.proc = u.mode.proc)
    (hheld : ({ m with lock := lock }.setCpu c u).held c = [.proc q]) (hlock : lock (.proc q) = some c)
    (hmode : ModeOk ({ m with lock := lock }.setCpu c u) u) :
    CpuOk ({ m with lock := lock }.setCpu c u) c := by
  have hself : ({ m with lock := lock }.setCpu c u).cpu c = u := update_self ..
  refine ⟨?_, ?_, ?_, fun x hx => ?_, ?_⟩
  · rwa [hself]
  · rwa [hself]
  · rw [hheld]
    exact List.nodup_singleton _
  · rw [hheld, List.mem_singleton] at hx
    rw [hx]
    exact hlock
  · rwa [hself]

theorem Inv.of_mode (h : Inv m) (hproc : ∀ p, u.proc = some p → (m.cpu c).proc = some p ∨
      (m.cpu c).mode = .assign p) (hok : CpuOk (m.setCpu c u) c)
    (htakes : ∀ p, (m.cpu c).mode = .assign p → u.proc = some p)
    (hgives : ∀ p, (m.cpu c).proc = some p → u.proc ≠ some p →
      (m.proc p).state ≠ .RUNNING ∧ (Waits (m.proc p).state → Ready m p)) : Inv (m.setCpu c u) :=
  h.of_cpu m.lock (fun _ _ _ hx => hx) hproc hok htakes hgives

theorem Inv.off_cpu (h : Inv m) (hs : (m.proc j).state ≠ .RUNNING) (hl : .proc j ∈ m.held c)
    (hc : (m.cpu c).proc = none) (c' : Nat) : (m.cpu c').proc ≠ some j := by
  intro hc'
  rcases h.running_or hc' with hr | hl'
  · exact hs hr
  · rw [← h.exclusive hl hl', hc] at hc'
    cases hc'

theorem Ready.locks (h : Inv m) (hr : Ready m j) :
    locks (m.stack j) = [.proc j] ∧ topMark (m.stack j) = none := by
  obtain ⟨f, fs, hst, hf⟩ := hr.top
  obtain ⟨hl, hmark⟩ := Frame.resumes_locks (h.self j f (by rw [hst]; exact List.mem_cons_self)) hf
  have htail := h.tail j
  rw [hst] at htail ⊢
  refine ⟨?_, hmark⟩
  show f.locks ++ Sched.locks fs = [.proc j]
  rw [hl, show Sched.locks fs = [] from locks_eq_nil htail]
  rfl

theorem Parked.waits (hpk : Parked m p) : (m.proc p).state ≠ .RUNNING ∧
    (Waits (m.proc p).state → Resumable (m.stack p)) := by
  rcases hpk with hz | ⟨hs, hr⟩
  · rw [hz]
    refine ⟨nofun, fun hw => ?_⟩
    rcases hw with hw | hw | hw <;> cases hw
  · refine ⟨?_, fun _ => hr⟩
    rcases hs with hs | hs <;> rw [hs] <;> nofun

theorem Inv.of_advance (h : Inv m) (hproc : u.proc = (m.cpu c).proc)
    (hassign : ∀ p, (m.cpu c).mode ≠ .assign p) (hj : .proc j ∈ m.held c)
    (hheld : (m.setCpu c u).held c = [.proc j]) (hlt : u.mode.index < NPROC)
    (hself : u.proc = u.mode.proc) (hmode : ModeOk (m.setCpu c u) u) : Inv (m.setCpu c u) :=
  h.of_mode (fun _ hp => Or.inl (hproc ▸ hp))
    (cpuOk_one m.lock hlt hself hheld ((h.cpu c).held _ hj) hmode)
    (fun p hp => absurd hp (hassign p)) fun _ hp hne => absurd (hproc ▸ hp) hne

theorem setCpu_held : (m.setCpu c u).held c = match u.mode with
    | .look _ => []
    | .test j | .mark j | .assign j | .saveSched j _ | .loadProc j _ | .clear j | .drop j => [.proc j]
    | .irq _ f => f.locks
    | .exec p => locks (m.stack p)
    | .saveProc p _ | .loadSched p _ => [.proc p] := by
  unfold Machine.held
  rw [Machine.setCpu_cpu, update_self]
  rfl

/-- **The scheduler keeps the invariant**, and so does each instruction of `swtch`. -/
theorem scheduler_inv {ok : Bool} (h : Inv m) (hexec : ∀ p, (m.cpu c).mode ≠ .exec p)
    (hirq : ∀ j f, (m.cpu c).mode ≠ .irq j f) (hs : run m c ok = .done m') : Inv m' := by
  have hok := h.cpu c
  have hlt := hok.lt
  have hproc := hok.proc
  have hmode := hok.mode
  unfold ModeOk at hmode
  unfold run at hs
  cases hm : (m.cpu c).mode <;> rw [hm] at hlt hproc hmode <;> simp only [hm] at hs
  case exec p => exact absurd hm (hexec p)
  case irq j f => exact absurd hm (hirq j f)
  case look j =>
    obtain ⟨m₁, h₁, h₂⟩ := Outcome.bind_eq_done.mp hs
    obtain ⟨hfree, rfl⟩ := acquire_done h₁
    cases h₂
    refine h.of_cpu _ (update_lock (Or.inl hfree)) (fun p hp => Or.inl hp)
      (cpuOk_one (q := j) _ hlt hproc ?_ (update_self ..) trivial) (fun p hp => ?_)
      fun p hp hne => absurd hp hne
    · simp [Machine.held]
    · rw [hm] at hp
      cases hp
  case drop j =>
    obtain ⟨m₁, h₁, h₂⟩ := Outcome.bind_eq_done.mp hs
    obtain ⟨hown, rfl⟩ := release_done h₁
    cases h₂
    refine h.of_cpu _ (update_lock (Or.inr hown)) (fun p hp => Or.inl hp) ?_ (fun p hp => ?_)
      fun p hp hne => absurd hp hne
    · refine ⟨?_, ?_, ?_, ?_, ?_⟩ <;> simp only [setCpu_held, Machine.setCpu_cpu, update_self]
      · exact Nat.mod_lt _ (by decide)
      · exact hproc
      · exact List.nodup_nil
      · nofun
      · trivial
    · rw [hm] at hp
      cases hp
  all_goals
    have hj : .proc (m.cpu c).mode.index ∈ m.held c := by simp [Machine.held, hm, Mode.index]
    rw [hm] at hj
    dsimp only [Mode.index] at hj
  case test j =>
    by_cases hr : (m.proc j).state = .RUNNABLE
    · rw [if_pos hr] at hs
      cases hs
      exact h.of_advance rfl (by simp [hm]) hj setCpu_held hlt hproc hr
    · rw [if_neg hr] at hs
      cases hs
      exact h.of_advance rfl (by simp [hm]) hj setCpu_held hlt hproc trivial
  case mark j =>
    cases hs
    have hnone := h.off_cpu (j := j) (by rw [hmode]; nofun) hj hproc
    have hr := h.ready j (Or.inr (Or.inl hmode)) hnone
    have hcpu : ((m.setSlot j ((m.proc j).setState .RUNNING)).setMode c (.assign j)).cpu c =
        ⟨(m.cpu c).proc, .assign j, (m.cpu c).context⟩ := update_self ..
    refine h.of_effect (c := c) ⟨fun c' hc' => update_of_ne hc' .., fun _ _ _ hx => hx,
      fun q => ?_, fun p hp => Or.inl (by rwa [hcpu] at hp)⟩ ⟨?_, ?_, ?_, ?_, ?_⟩ (fun p hp => ?_)
      (fun p hp => ?_) (fun p hp hne => ?_) (h.toStacksOk.congr rfl fun q hq => ?_)
    · by_cases hq : q = j
      · subst hq
        refine .turn hj (by rw [hmode]; nofun) (fun hw => ?_) rfl rfl
        rw [Machine.setMode, Machine.setCpu_proc, Machine.setSlot_proc, update_self] at hw
        rcases hw with hw | hw | hw <;> cases hw
      · exact .same (congrArg Slot.state (update_of_ne hq ..)) rfl rfl
    · rwa [hcpu]
    · rw [hcpu]
      exact hproc
    · simp [Machine.held, hcpu]
    · intro x hx
      simp only [Machine.held, hcpu, List.mem_singleton] at hx
      exact hx ▸ hok.held _ hj
    · rw [hcpu]
      refine ⟨by simp [Machine.setMode], ⟨hr.stored, hr.top⟩, fun c' hc' => ?_⟩
      by_cases hcc : c' = c
      · subst hcc
        rw [hcpu, hproc] at hc'
        cases hc'
      · rw [Machine.setMode, Machine.setCpu_cpu, update_of_ne hcc] at hc'
        exact hnone c' hc'
    · by_cases hpj : p = j
      · rw [hcpu, hpj]
        exact Or.inr rfl
      · rw [Machine.setMode, Machine.setCpu_proc, Machine.setSlot_proc,
          update_of_ne hpj] at hp
        exact Or.inl hp
    · rw [hm] at hp
      cases hp
    · rw [hcpu] at hne
      exact absurd hp hne
    · have hqj : q ≠ j := by
        rintro rfl
        rw [hmode] at hq
        cases hq
      rw [Machine.setMode, Machine.setCpu_proc, Machine.setSlot_proc, update_of_ne hqj]
      exact hq
  case assign j =>
    cases hs
    refine h.of_mode (fun p hp => Or.inr ?_)
      (cpuOk_one m.lock hlt rfl setCpu_held (hok.held _ hj) ⟨hmode.1, hmode.2.1.1,
        hmode.2.1.2⟩) (fun p hp => ?_) fun p hp => ?_
    · cases hp
      exact hm
    · rw [hm] at hp
      cases hp
      rfl
    · rw [hproc] at hp
      cases hp
  case saveSched j k =>
    split at hs
    · cases hs
      exact h.of_advance rfl (by simp [hm]) hj setCpu_held hlt hproc ⟨hmode.1, hmode.2.1, hmode.2.2⟩
    · cases hs
      exact h.of_advance rfl (by simp [hm]) hj setCpu_held hlt hproc
        ⟨hmode.1, ⟨hmode.2.1, hmode.2.2⟩, rfl⟩
  case loadProc j k =>
    obtain ⟨hstate, hr, hctx⟩ := hmode
    by_cases hk : k < NREGS
    · rw [if_pos hk] at hs
      cases hs
      exact h.of_advance rfl (by simp [hm]) hj setCpu_held hlt hproc ⟨hstate, ⟨hr.1, hr.2⟩, hctx⟩
    · rw [if_neg hk] at hs
      cases hs
      obtain ⟨hl, hmark⟩ := hr.locks h
      refine h.of_advance rfl (by simp [hm]) hj (setCpu_held.trans hl) hlt hproc ⟨?_, hctx⟩
      rw [Machine.setCpu_stack, hmark]
      exact hstate
  case clear p =>
    cases hs
    obtain ⟨hstored, hpk⟩ := hmode
    refine h.of_mode nofun (cpuOk_one m.lock hlt rfl setCpu_held (hok.held _ hj) trivial)
      (fun q hq => ?_) fun q hq _ => ?_
    · rw [hm] at hq
      cases hq
    · rw [hproc] at hq
      cases hq
      obtain ⟨hne, hw⟩ := hpk.waits
      exact ⟨hne, fun hwaits => ⟨hstored, hw hwaits⟩⟩
  case saveProc p k =>
    obtain ⟨hstored, hle, hpk, hctx⟩ := hmode
    split at hs
    · rename_i hk
      cases hs
      have hcpu : ((m.setStored p (k + 1)).setMode c (.saveProc p (k + 1))).cpu c =
          ⟨(m.cpu c).proc, .saveProc p (k + 1), (m.cpu c).context⟩ := update_self ..
      refine h.of_effect (c := c) ⟨fun c' hc' => update_of_ne hc' .., fun _ _ _ hx => hx,
        fun q => ?_, fun q hq => Or.inl (by rwa [hcpu] at hq)⟩ ⟨?_, ?_, ?_, ?_, ?_⟩
        (fun q hq => Or.inl hq) (fun q hq => ?_) (fun q hq hne => ?_)
        (h.toStacksOk.congr rfl fun q hq => hq)
      · by_cases hq : q = p
        · subst hq
          exact .own hproc (Or.inl rfl)
        · exact .same rfl rfl (update_of_ne hq ..)
      · rwa [hcpu]
      · rw [hcpu]
        exact hproc
      · simp [Machine.held, hcpu]
      · intro x hx
        simp only [Machine.held, hcpu, List.mem_singleton] at hx
        exact hx ▸ hok.held _ hj
      · rw [hcpu]
        exact ⟨update_self .., hk, hpk, hctx⟩
      · rw [hm] at hq
        cases hq
      · rw [hcpu] at hne
        exact absurd hq hne
    · cases hs
      exact h.of_advance rfl (by simp [hm]) hj setCpu_held hlt hproc
        ⟨by rw [Machine.setCpu_stored]; omega, hpk, hctx⟩
  case loadSched p k =>
    obtain ⟨hstored, hpk, hctx⟩ := hmode
    by_cases hk : k < NREGS
    · rw [if_pos hk] at hs
      cases hs
      exact h.of_advance rfl (by simp [hm]) hj setCpu_held hlt hproc ⟨hstored, hpk, hctx⟩
    · rw [if_neg hk, hctx] at hs
      cases hs
      exact h.of_advance rfl (by simp [hm]) hj setCpu_held hlt hproc ⟨hstored, hpk⟩

end Scheduler

end Xv6.Sched
