import Xv6.Sched.Steps

/-!
# No wakeup is lost

A process that waits for a condition tests it while it holds the condition's lock, and gives
that lock back only when it holds its own; `wakeup` needs the latter to pass the process.  So
while the condition is true, whoever sleeps on it, or is about to, is still ahead of a scan.
-/

namespace Xv6.Sched

open Transition Process Function

/-! ### What a frame says about a condition -/

/-- The frame has found the condition false and holds its lock. -/
def Frame.tested : Frame → Option Nat
  | .waiter l (.sleep _ .acquire) | .waiter l (.sleep _ .unlock) => some l
  | _ => none

/-- The frame has given the lock of the condition back and is going to sleep. -/
def Frame.pending : Frame → Option Nat
  | .waiter l (.sleep _ .setChan) | .waiter l (.sleep _ .mark) => some l
  | _ => none

/-- The channel that the frame has set. -/
def Frame.sleepChan : Frame → Option Chan
  | .waiter l (.sleep _ .mark) => some (.cond l)
  | .wait p _ (.sleep .mark) => some (.proc p)
  | _ => none

/-- The frame has made the condition true, and its `wakeup` has passed the entries below this. -/
def Frame.scan : Frame → Option (Nat × Nat)
  | .waker l (.waking j .release) => some (l, j + 1)
  | .waker l (.waking j _) => some (l, j)
  | _ => none

def scanning (m : Machine) (c : Nat) : Option (Nat × Nat) := (m.frames c).head?.bind Frame.scan

/-- Process `p` runs and is going to sleep on condition `l`. -/
def Pending (m : Machine) (l p : Nat) : Prop :=
  ∃ c f, (m.cpu c).mode = .exec p ∧ (m.stack p).head? = some f ∧ f.pending = some l

/-- Process `p` sleeps on condition `l`, or is going to. -/
def Asleep (m : Machine) (l p : Nat) : Prop :=
  ((m.proc p).state = .SLEEPING ∧ (m.proc p).chan = some (.cond l)) ∨ Pending m l p

structure Watchful (m : Machine) : Prop where
  chan : ∀ c p f, (m.cpu c).mode = .exec p → (m.stack p).head? = some f →
    ∀ ch, f.sleepChan = some ch → (m.proc p).chan = some ch
  tested : ∀ c p f, (m.cpu c).mode = .exec p → (m.stack p).head? = some f →
    ∀ l, f.tested = some l → m.cond l = false
  noLost : ∀ l, m.cond l = true → ∀ p < NPROC, Asleep m l p →
    ∃ c i, scanning m c = some (l, i) ∧ i ≤ p

section Frames

variable {f : Frame} {l i : Nat}

theorem Frame.tested_locks (h : f.tested = some l) : .cond l ∈ f.locks := by
  unfold Frame.tested at h
  split at h <;> cases h <;> simp [Frame.locks, SleepAt.locks]

theorem Frame.scan_locks (h : f.scan = some (l, i)) : .cond l ∈ f.locks := by
  unfold Frame.scan at h
  split at h <;> cases h <;> simp [Frame.locks]

theorem Frame.pending_locks (h : f.pending = some l) : f.locks ≠ [] := by
  unfold Frame.pending at h
  split at h <;> cases h <;> simp [Frame.locks, SleepAt.locks]

theorem Frame.sleepChan_locks {ch : Chan} (h : f.sleepChan = some ch) :
    f.locks ≠ [] ∧ f.mark = none := by
  unfold Frame.sleepChan at h
  split at h <;> cases h <;> simp [Frame.locks, SleepAt.locks, Frame.mark]

/-- The frame has nothing to do with conditions. -/
structure Frame.Plain (f : Frame) : Prop where
  tested : f.tested = none
  pending : f.pending = none
  sleepChan : f.sleepChan = none
  scan : f.scan = none

theorem Frame.plain_of_free (h : f.locks = []) : f.Plain := by
  refine ⟨?_, ?_, ?_, ?_⟩
  · by_contra hne
    obtain ⟨l, hl⟩ := Option.ne_none_iff_exists'.mp hne
    have hmem := Frame.tested_locks hl
    rw [h] at hmem
    cases hmem
  · by_contra hne
    obtain ⟨l, hl⟩ := Option.ne_none_iff_exists'.mp hne
    exact Frame.pending_locks hl h
  · by_contra hne
    obtain ⟨l, hl⟩ := Option.ne_none_iff_exists'.mp hne
    exact (Frame.sleepChan_locks hl).1 h
  · by_contra hne
    obtain ⟨⟨l, i⟩, hl⟩ := Option.ne_none_iff_exists'.mp hne
    have hmem := Frame.scan_locks hl
    rw [h] at hmem
    cases hmem

theorem Frame.Plain.own {P : Chan → Prop} {Q : Nat → Prop} (h : f.Plain) :
    (∀ ch, f.sleepChan = some ch → P ch) ∧ ∀ l, f.tested = some l → Q l := by
  rw [h.sleepChan, h.tested]
  exact ⟨fun _ hch => (by cases hch), fun _ hl => (by cases hl)⟩

theorem Frame.plain_of_resumes (h : f.resumes = true) : f.Plain := by
  unfold Frame.resumes at h
  split at h
  case h_5 => cases h
  all_goals exact ⟨rfl, rfl, rfl, rfl⟩

end Frames

section Step

variable {m m' : Machine} {c : Nat}

theorem mem_held_of_head {f : Frame} {x : Lock} (hf : (m.frames c).head? = some f)
    (hx : x ∈ f.locks) : x ∈ m.held c := by
  unfold Machine.frames at hf
  unfold Machine.held
  cases hm : (m.cpu c).mode <;> rw [hm] at hf <;> try cases hf
  · exact hx
  · exact List.mem_flatMap.mpr ⟨f, List.mem_of_head? hf, hx⟩

/-- What is left to show of a step of CPU `c`. -/
theorem Watchful.of_step (h : Inv m) (hw : Watchful m) (he : Elsewhere m c m')
    (hchan : ∀ c' q, c' ≠ c → (m.cpu c').mode = .exec q → (m.proc q).state = .RUNNING →
      (m'.proc q).chan = (m.proc q).chan)
    (hcond : ∀ l, m'.cond l = m.cond l ∨
      (.cond l ∈ m.held c ∧ (m'.cond l = true → scanning m' c = some (l, 0))))
    (hasleep : ∀ l q, Asleep m' l q → Asleep m l q ∨ m.cond l = false)
    (hscan : ∀ l i, scanning m c = some (l, i) → ∀ q < NPROC, i ≤ q → Asleep m' l q →
      ∃ i', scanning m' c = some (l, i') ∧ i' ≤ q)
    (hown : ∀ p f, (m'.cpu c).mode = .exec p → (m'.stack p).head? = some f →
      (∀ ch, f.sleepChan = some ch → (m'.proc p).chan = some ch) ∧
      ∀ l, f.tested = some l → m'.cond l = false) : Watchful m' := by
  refine ⟨fun c' p f hmode hf ch hch => ?_, fun c' p f hmode hf l hl => ?_, fun l hl p hp hap => ?_⟩
  · by_cases hcc : c' = c
    · subst hcc
      exact (hown p f hmode hf).1 ch hch
    · rw [he.cpu c' hcc] at hmode
      rw [he.stack c' p hcc hmode] at hf
      obtain ⟨fs, hfs⟩ : ∃ fs, m.stack p = f :: fs := by
        cases hst : m.stack p with
        | nil =>
          rw [hst] at hf
          cases hf
        | cons g fs =>
          rw [hst] at hf
          cases hf
          exact ⟨fs, rfl⟩
      have hrun := h.exec_running hmode hfs (Frame.sleepChan_locks hch).2
      rw [hchan c' p hcc hmode hrun]
      exact hw.chan c' p f hmode hf ch hch
  · by_cases hcc : c' = c
    · subst hcc
      exact (hown p f hmode hf).2 l hl
    · rw [he.cpu c' hcc] at hmode
      rw [he.stack c' p hcc hmode] at hf
      have hold := hw.tested c' p f hmode hf l hl
      rcases hcond l with heq | ⟨hheld, -⟩
      · rw [heq, hold]
      · have hmem : .cond l ∈ m.held c' :=
          mem_held_of_head (by rw [frames_exec hmode, hf]) (Frame.tested_locks hl)
        exact absurd (h.exclusive hmem hheld) hcc
  · rcases hcond l with heq | ⟨-, hnew⟩
    · have hold : m.cond l = true := heq ▸ hl
      have hap' : Asleep m l p := (hasleep l p hap).resolve_right (by rw [hold]; decide)
      obtain ⟨c', i, hs, hi⟩ := hw.noLost l hold p hp hap'
      by_cases hcc : c' = c
      · subst hcc
        obtain ⟨i', hs', hi'⟩ := hscan l i hs p hp hi hap
        exact ⟨c', i', hs', hi'⟩
      · exact ⟨c', i, by rw [scanning, he.frames_eq hcc]; exact hs, hi⟩
    · exact ⟨c, 0, hnew hl, Nat.zero_le _⟩

theorem Watchful.of_quiet (h : Inv m) (hw : Watchful m) (he : Elsewhere m c m')
    (hcond : m'.cond = m.cond) (hchan : ∀ q, (m'.proc q).chan = (m.proc q).chan)
    (hsleep : ∀ q, (m'.proc q).state = .SLEEPING → (m.proc q).state = .SLEEPING)
    (hidle : scanning m c = none)
    (hplain : ∀ p f, (m'.cpu c).mode = .exec p → (m'.stack p).head? = some f → f.Plain) :
    Watchful m' := by
  refine hw.of_step h he (fun _ q _ _ _ => hchan q) (fun l => Or.inl (congrFun hcond l))
    (fun l q hq => Or.inl ?_) (fun l i hi => ?_) fun p f hp hf => (hplain p f hp hf).own
  · rcases hq with ⟨hs, hc⟩ | ⟨c', f, hmode, hf, hl⟩
    · exact Or.inl ⟨hsleep q hs, hchan q ▸ hc⟩
    · by_cases hcc : c' = c
      · subst hcc
        rw [(hplain q f hmode hf).pending] at hl
        cases hl
      · rw [he.cpu c' hcc] at hmode
        rw [he.stack c' q hcc hmode] at hf
        exact Or.inr ⟨c', f, hmode, hf, hl⟩
  · rw [hidle] at hi
    cases hi

/-! ### One instruction -/

/-- Process `q` is going to sleep on condition `l`, on a CPU other than `c`. -/
def PendingElsewhere (m : Machine) (c l q : Nat) : Prop :=
  ∃ c' f, c' ≠ c ∧ (m.cpu c').mode = .exec q ∧ (m.stack q).head? = some f ∧ f.pending = some l

/-- An instruction of the frame `top` on CPU `c` that leads to `next` and leaves the process table
    `slots` and the conditions `conds` loses no wakeup. -/
structure Heedful (m : Machine) (c : Nat) (top : Frame) (slots : Nat → Slot) (conds : Nat → Bool)
    (next : Option Frame) : Prop where
  chan : ∀ q, (m.proc q).state = .RUNNING → (m.cpu c).mode ≠ .exec q →
    (slots q).chan = (m.proc q).chan
  cond : ∀ l, conds l = m.cond l ∨
    (.cond l ∈ top.locks ∧ (conds l = true → next.bind Frame.scan = some (l, 0)))
  sleep : ∀ l q, (slots q).state = .SLEEPING → (slots q).chan = some (.cond l) →
    ((m.proc q).state = .SLEEPING ∧ (m.proc q).chan = some (.cond l)) ∨
    ((m.cpu c).mode = .exec q ∧ top.pending = some l)
  pending : ∀ g ∈ next, ∀ l, g.pending = some l →
    top.scan = none ∧ (top.pending = some l ∨ m.cond l = false)
  scan : ∀ l i, top.scan = some (l, i) → ∀ q < NPROC, i ≤ q →
    ((slots q).state = .SLEEPING ∧ (slots q).chan = some (.cond l)) ∨ PendingElsewhere m c l q →
    ∃ i', next.bind Frame.scan = some (l, i') ∧ i' ≤ q
  own : ∀ p, (m.cpu c).mode = .exec p → ∀ g ∈ next,
    (∀ ch, g.sleepChan = some ch → (slots p).chan = some ch) ∧ ∀ l, g.tested = some l → conds l = false

section Instruction

variable {top : Frame} {fs : List Frame} {next : Option Frame}

theorem Watchful.of_heedful (h : Inv m) (hw : Watchful m) (hfr : m.frames c = top :: fs)
    (hcont : Continues m c next m') (hheed : Heedful m c top m'.proc m'.cond next) :
    Watchful m' := by
  obtain ⟨fs', hfr', hfs'⟩ := hcont.frames
  have hhead : ∀ {f : Frame}, (m'.frames c).head? = some f → f ∈ next ∨ f.Plain := fun {f} hf => by
    rw [hfr'] at hf
    cases next with
    | none => exact Or.inr (Frame.plain_of_free (hfs' f (List.mem_of_head? hf)))
    | some g => exact Or.inl (by cases hf; rfl)
  have hscan' : ∀ {r : Nat × Nat}, next.bind Frame.scan = some r → scanning m' c = some r :=
    fun hr => by
      cases next with
      | none => cases hr
      | some g =>
        rw [scanning, hfr']
        exact hr
  have htop : ∀ {q : Nat}, (m.cpu c).mode = .exec q → (m.stack q).head? = some top := fun hq => by
    rw [← frames_exec hq, hfr]
    rfl
  have helse : ∀ {c' l q : Nat} {f : Frame}, c' ≠ c → (m'.cpu c').mode = .exec q →
      (m'.stack q).head? = some f → f.pending = some l → PendingElsewhere m c l q :=
    fun {c' l q f} hcc hmd hf hl => by
      rw [hcont.cpu c' hcc] at hmd
      rw [hcont.stack c' q hcc hmd] at hf
      exact ⟨c', f, hcc, hmd, hf, hl⟩
  refine hw.of_step h hcont.toElsewhere (fun c' q hcc hq hr => ?_) (fun l => ?_)
    (fun l q hq => ?_) (fun l i hi q hq hle ha => ?_) fun p f hp hf => ?_
  · exact hheed.chan q hr fun hq' => hcc (h.exec_unique hq hq')
  · rcases hheed.cond l with heq | ⟨hl, hnew⟩
    · exact Or.inl heq
    · exact Or.inr ⟨mem_held_of_head (by rw [hfr]; rfl) hl, fun ht => hscan' (hnew ht)⟩
  · rcases hq with ⟨hs, hc⟩ | ⟨c', f, hmd, hf, hl⟩
    · rcases hheed.sleep l q hs hc with hold | ⟨hmd, hl⟩
      · exact Or.inl (Or.inl hold)
      · exact Or.inl (Or.inr ⟨c, top, hmd, htop hmd, hl⟩)
    · by_cases hcc : c' = c
      · subst hcc
        rcases hhead (by rw [frames_exec hmd]; exact hf) with hg | hpl
        · rcases (hheed.pending f hg l hl).2 with hold | hfalse
          · exact Or.inl (Or.inr ⟨c', top, hcont.mode q hmd, htop (hcont.mode q hmd), hold⟩)
          · exact Or.inr hfalse
        · rw [hpl.pending] at hl
          cases hl
      · obtain ⟨c₁, f₁, -, hmd₁, hf₁, hl₁⟩ := helse hcc hmd hf hl
        exact Or.inl (Or.inr ⟨c₁, f₁, hmd₁, hf₁, hl₁⟩)
  · rw [scanning, hfr] at hi
    change top.scan = some (l, i) at hi
    have ha' : ((m'.proc q).state = .SLEEPING ∧ (m'.proc q).chan = some (.cond l)) ∨
        PendingElsewhere m c l q := by
      rcases ha with hs | ⟨c', f, hmd, hf, hl⟩
      · exact Or.inl hs
      · by_cases hcc : c' = c
        · subst hcc
          rcases hhead (by rw [frames_exec hmd]; exact hf) with hg | hpl
          · rw [(hheed.pending f hg l hl).1] at hi
            cases hi
          · rw [hpl.pending] at hl
            cases hl
        · exact Or.inr (helse hcc hmd hf hl)
    obtain ⟨i', hi', hle'⟩ := hheed.scan l i hi q hq hle ha'
    exact ⟨i', hscan' hi', hle'⟩
  · rcases hhead (by rw [frames_exec hp]; exact hf) with hg | hpl
    · exact hheed.own p (hcont.mode p hp) f hg
    · exact hpl.own

/-- An instruction of a frame that is in no scan and keeps the conditions. -/
theorem heedful_of_idle {slots : Nat → Slot} (hscan : top.scan = none)
    (hchan : ∀ q, (m.proc q).state = .RUNNING → (m.cpu c).mode ≠ .exec q →
      (slots q).chan = (m.proc q).chan)
    (hsleep : ∀ l q, (slots q).state = .SLEEPING → (slots q).chan = some (.cond l) →
      ((m.proc q).state = .SLEEPING ∧ (m.proc q).chan = some (.cond l)) ∨
      ((m.cpu c).mode = .exec q ∧ top.pending = some l))
    (hpending : ∀ g ∈ next, ∀ l, g.pending = some l → top.pending = some l ∨ m.cond l = false)
    (hown : ∀ p, (m.cpu c).mode = .exec p → ∀ g ∈ next,
      (∀ ch, g.sleepChan = some ch → (slots p).chan = some ch) ∧
      ∀ l, g.tested = some l → m.cond l = false) : Heedful m c top slots m.cond next := by
  refine ⟨hchan, fun l => Or.inl rfl, hsleep, fun g hg l hl => ⟨hscan, hpending g hg l hl⟩,
    fun l i hi => ?_, hown⟩
  rw [hscan] at hi
  cases hi

/-! ### Instructions that have nothing to do with conditions -/

/-- The instruction neither puts a process to sleep nor gives one that runs elsewhere another
    channel. -/
structure Instr.Calm (m : Machine) (c : Nat) (i : Instr) : Prop where
  chan : ∀ q, (m.proc q).state = .RUNNING → (m.cpu c).mode ≠ .exec q →
    (i.slots m q).chan = (m.proc q).chan
  sleep : ∀ q, (i.slots m q).state = .SLEEPING →
    (m.proc q).state = .SLEEPING ∧ (i.slots m q).chan = (m.proc q).chan
  cond : i.conds m = m.cond
  next : ∀ g ∈ i.next, g.Plain

section Calm

variable {i : Instr} {x : Lock} {j p : Nat} {y : Slot} {ok : Bool}

theorem Instr.Calm.heedful (hi : i.Calm m c) (hscan : top.scan = none) :
    Heedful m c top (i.slots m) (i.conds m) i.next := by
  rw [hi.cond]
  refine heedful_of_idle hscan hi.chan (fun l q hs hc => Or.inl ?_) (fun g hg l hl => ?_)
    fun p _ g hg => (hi.next g hg).own
  · obtain ⟨hs', hc'⟩ := hi.sleep q hs
    exact ⟨hs', hc' ▸ hc⟩
  · rw [(hi.next g hg).pending] at hl
    cases hl

theorem Instr.calm_of_same (hslots : i.slots m = m.proc) (hconds : i.conds m = m.cond)
    (hnext : ∀ g ∈ i.next, g.Plain) : i.Calm m c := by
  refine ⟨fun q _ _ => by rw [hslots], fun q hq => ?_, hconds, hnext⟩
  rw [hslots] at hq ⊢
  exact ⟨hq, rfl⟩

theorem Instr.calm_of_slot (hslots : i.slots m = update m.proc j y)
    (hconds : i.conds m = m.cond) (hnext : ∀ g ∈ i.next, g.Plain)
    (hchan : (m.proc j).state = .RUNNING → (m.cpu c).mode ≠ .exec j → y.chan = (m.proc j).chan)
    (hsleep : y.state = .SLEEPING → (m.proc j).state = .SLEEPING ∧ y.chan = (m.proc j).chan) :
    i.Calm m c := by
  refine ⟨fun q hq hmode => ?_, fun q hq => ?_, hconds, hnext⟩ <;> rw [hslots] at *
  · by_cases hqj : q = j
    · subst hqj
      rw [update_self]
      exact hchan hq hmode
    · rw [update_of_ne hqj]
  · by_cases hqj : q = j
    · subst hqj
      rw [update_self] at hq ⊢
      exact hsleep hq
    · rw [update_of_ne hqj] at hq ⊢
      exact ⟨hq, rfl⟩

theorem calm_goto (hnext : ∀ g ∈ next, g.Plain) : (Instr.goto next).Calm m c :=
  Instr.calm_of_same rfl rfl hnext

theorem calm_acquire (hnext : ∀ g ∈ next, g.Plain) : (Instr.acquire x next).Calm m c :=
  Instr.calm_of_same rfl rfl hnext

theorem calm_release (hnext : ∀ g ∈ next, g.Plain) : (Instr.release x next).Calm m c :=
  Instr.calm_of_same rfl rfl hnext

theorem plain_return : ∀ g ∈ (none : Option Frame), g.Plain := fun _ hg => by cases hg

theorem calm_return : (Instr.release x none).Calm m c := calm_release plain_return

theorem calm_rest : Instr.rest.Calm m c := Instr.calm_of_same rfl rfl plain_return

theorem calm_panic {e : Panic} : (Instr.panic e).Calm m c :=
  Instr.calm_of_same rfl rfl plain_return

theorem calm_sched : (Instr.sched p next).Calm m c := Instr.calm_of_same rfl rfl plain_return

theorem calm_write (hnext : ∀ g ∈ next, g.Plain) (hchan : y.chan = (m.proc j).chan)
    (hsleep : y.state = .SLEEPING → (m.proc j).state = .SLEEPING) :
    (Instr.write j y next).Calm m c :=
  Instr.calm_of_slot rfl rfl hnext (fun _ _ => hchan) fun hy => ⟨hsleep hy, hchan⟩

theorem plain_next {f : Frame} (ht : f.tested = none) (hp : f.pending = none)
    (hs : f.sleepChan = none) (hn : f.scan = none) : ∀ g ∈ some f, g.Plain := fun g hg => by
  cases hg
  exact ⟨ht, hp, hs, hn⟩

theorem yieldInstr_calm (at_ : YieldAt) : (yieldInstr m p at_).Calm m c := by
  cases at_ with
  | acquire => exact calm_acquire (plain_next rfl rfl rfl rfl)
  | mark => exact calm_write (plain_next rfl rfl rfl rfl) rfl fun h => by cases h
  | sched => exact calm_sched
  | release => exact calm_return

theorem killInstr_calm (pid : Int) (at_ : KillAt) : (killInstr m pid j at_).Calm m c := by
  cases at_ with
  | acquire =>
    dsimp only [killInstr]
    split
    · exact calm_acquire (plain_next rfl rfl rfl rfl)
    · exact calm_goto plain_return
  | test =>
    dsimp only [killInstr]
    split
    · refine calm_write (plain_next rfl rfl rfl rfl) rfl fun hy => ?_
      by_contra hne
      rw [Slot.slain_state, if_neg hne] at hy
      exact hne hy
    · exact calm_goto (plain_next rfl rfl rfl rfl)
  | skip => exact calm_release (plain_next rfl rfl rfl rfl)
  | found => exact calm_return

theorem forkInstr_calm (at_ : ForkAt) : (forkInstr m p ok at_).Calm m c := by
  cases at_ with
  | acquire j =>
    dsimp only [forkInstr]
    split
    · exact calm_acquire (plain_next rfl rfl rfl rfl)
    · exact calm_goto plain_return
  | test j =>
    dsimp only [forkInstr]
    split
    · rename_i hold
      split
      · exact Instr.calm_of_slot rfl rfl (plain_next rfl rfl rfl rfl) (fun _ _ => rfl)
          fun h => by cases h
      · refine Instr.calm_of_slot rfl rfl (plain_next rfl rfl rfl rfl) (fun hr => ?_)
          fun h => by cases h
        rw [hold] at hr
        cases hr
    · exact calm_goto (plain_next rfl rfl rfl rfl)
  | skip j | unlock np | unlockWait np => exact calm_release (plain_next rfl rfl rfl rfl)
  | abort j | finish np => exact calm_return
  | lockWait np | lockNew np => exact calm_acquire (plain_next rfl rfl rfl rfl)
  | adopt np => exact calm_write (plain_next rfl rfl rfl rfl) rfl id
  | publish np => exact calm_write (plain_next rfl rfl rfl rfl) rfl fun h => by cases h

theorem wakeInstr_calm {chan : Option Chan} {k : Nat → WakeAt → Frame} {after : Frame}
    (at_ : WakeAt) (hk : ∀ j at_, (k j at_).Plain) (hafter : after.Plain) :
    (wakeInstr m c chan j k after at_).Calm m c := by
  have hnext : ∀ {f : Frame}, f.Plain → ∀ g ∈ some f, g.Plain := fun hf g hg => by
    cases hg
    exact hf
  cases at_ with
  | acquire =>
    dsimp only [wakeInstr]
    split
    · split
      · exact calm_goto (hnext (hk ..))
      · exact calm_acquire (hnext (hk ..))
    · exact calm_goto (hnext hafter)
  | test =>
    dsimp only [wakeInstr]
    split
    · exact calm_write (hnext (hk ..)) rfl fun h => by cases h
    · exact calm_goto (hnext (hk ..))
  | release => exact calm_release (hnext (hk ..))

theorem exitInstr_calm (status : UInt32) (at_ : ExitAt) : (exitInstr m c p status at_).Calm m c := by
  cases at_ with
  | lock | acquire => exact calm_acquire (plain_next rfl rfl rfl rfl)
  | reparent i =>
    dsimp only [exitInstr]
    split
    · split
      · exact calm_write (plain_next rfl rfl rfl rfl) rfl id
      · exact calm_goto (plain_next rfl rfl rfl rfl)
    · exact calm_goto (plain_next rfl rfl rfl rfl)
  | reparentWaking i j at_ =>
    unfold exitInstr
    refine wakeInstr_calm at_ (fun _ _ => ?_) ?_ <;> exact ⟨rfl, rfl, rfl, rfl⟩
  | waking chan j at_ =>
    unfold exitInstr
    refine wakeInstr_calm at_ (fun _ _ => ?_) ?_ <;> exact ⟨rfl, rfl, rfl, rfl⟩
  | mark => exact calm_write (plain_next rfl rfl rfl rfl) rfl fun h => by cases h
  | unlock => exact calm_release (plain_next rfl rfl rfl rfl)
  | sched => exact calm_sched
  | dead => exact calm_panic

end Calm

/-! ### `sleep` and `wakeup` -/

section Conditions

variable {p l j : Nat} {ch : Chan} {g : Frame} {ok : Bool}

theorem heedful_same (hscan : top.scan = none) (hg : g.sleepChan = none)
    (hpending : ∀ l, g.pending = some l → top.pending = some l ∨ m.cond l = false)
    (htested : ∀ l, g.tested = some l → m.cond l = false) :
    Heedful m c top m.proc m.cond (some g) := by
  refine heedful_of_idle hscan (fun _ _ _ => rfl) (fun l q hs hc => Or.inl ⟨hs, hc⟩)
    (fun g' hg' => ?_) fun p _ g' hg' => ?_
  · cases hg'
    exact hpending
  · cases hg'
    rw [hg]
    exact ⟨fun _ hch => (by cases hch), htested⟩

/-- `p->chan = chan` -/
theorem heedful_setChan (hmode : (m.cpu c).mode = .exec p) (hrun : (m.proc p).state = .RUNNING)
    (hscan : top.scan = none) (hg : g.sleepChan = some ch) (hpending : g.pending = top.pending)
    (htested : g.tested = none) :
    Heedful m c top (update m.proc p ((m.proc p).setChan ch)) m.cond (some g) := by
  refine heedful_of_idle hscan (fun q _ hq => ?_) (fun l q hs hc => Or.inl ?_)
    (fun g' hg' l hl => ?_) fun p' hp' g' hg' => ?_
  · have hqp : q ≠ p := by
      rintro rfl
      exact hq hmode
    rw [update_of_ne hqp]
  · by_cases hqp : q = p
    · subst hqp
      rw [update_self, Slot.setChan_state, hrun] at hs
      cases hs
    · rw [update_of_ne hqp] at hs hc
      exact ⟨hs, hc⟩
  · cases hg'
    exact Or.inl (hpending ▸ hl)
  · cases hg'
    rw [hmode] at hp'
    cases hp'
    rw [hg, htested, update_self]
    exact ⟨fun _ hch => hch, fun _ hl => (by cases hl)⟩

/-- `p->state = SLEEPING` -/
theorem heedful_mark (hmode : (m.cpu c).mode = .exec p) (hchan : (m.proc p).chan = some ch)
    (hscan : top.scan = none) (hpending : ∀ l, ch = .cond l → top.pending = some l) (hg : g.Plain) :
    Heedful m c top (update m.proc p ((m.proc p).setState .SLEEPING)) m.cond (some g) := by
  refine heedful_of_idle hscan (fun q _ hq => ?_) (fun l q hs hc => ?_) (fun g' hg' l hl => ?_)
    fun p' _ g' hg' => ?_
  · have hqp : q ≠ p := by
      rintro rfl
      exact hq hmode
    rw [update_of_ne hqp]
  · by_cases hqp : q = p
    · subst hqp
      rw [update_self, Slot.setState_chan, hchan] at hc
      exact Or.inr ⟨hmode, hpending l (Option.some.inj hc)⟩
    · rw [update_of_ne hqp] at hs hc
      exact Or.inl ⟨hs, hc⟩
  · cases hg'
    rw [hg.pending] at hl
    cases hl
  · cases hg'
    exact hg.own

/-- `p->chan = 0` -/
theorem calm_clear (hmode : (m.cpu c).mode = .exec p) (hrun : (m.proc p).state = .RUNNING)
    (hg : g.Plain) : (Instr.write p ((m.proc p).setChan none) (some g)).Calm m c := by
  refine Instr.calm_of_slot rfl rfl (fun g' hg' => by cases hg'; exact hg)
    (fun _ hne => absurd hmode hne) fun hs => ?_
  rw [Slot.setChan_state, hrun] at hs
  cases hs

theorem waitInstr_heedful (h : Inv m) (hw : Watchful m) (addr : Nat) (at_ : WaitAt)
    (hmode : (m.cpu c).mode = .exec p) (hst : m.stack p = .wait p addr at_ :: fs) :
    Heedful m c (.wait p addr at_) ((waitInstr m p addr ok at_).slots m)
      ((waitInstr m p addr ok at_).conds m) (waitInstr m p addr ok at_).next := by
  have hchan := hw.chan c p _ hmode (by rw [hst]; rfl)
  cases at_ with
  | lock | killed => exact (calm_acquire (plain_next rfl rfl rfl rfl)).heedful rfl
  | scan i havekids =>
    dsimp only [waitInstr]
    split
    · split
      · exact (calm_acquire (plain_next rfl rfl rfl rfl)).heedful rfl
      · exact (calm_goto (plain_next rfl rfl rfl rfl)).heedful rfl
    · cases havekids <;> exact (calm_goto (plain_next rfl rfl rfl rfl)).heedful rfl
  | test i =>
    dsimp only [waitInstr]
    split
    · rename_i hold
      split
      · exact (calm_goto (plain_next rfl rfl rfl rfl)).heedful rfl
      · refine Instr.Calm.heedful ?_ rfl
        refine Instr.calm_of_slot rfl rfl (plain_next rfl rfl rfl rfl) (fun hr => ?_)
          fun h => by cases h
        rw [hold] at hr
        cases hr
    · exact (calm_goto (plain_next rfl rfl rfl rfl)).heedful rfl
  | skip i | drop i => exact (calm_release (plain_next rfl rfl rfl rfl)).heedful rfl
  | killedRead => exact (calm_goto (plain_next rfl rfl rfl rfl)).heedful rfl
  | killedDone k => cases k <;> exact (calm_release (plain_next rfl rfl rfl rfl)).heedful rfl
  | unlock => exact calm_return.heedful rfl
  | sleep at_ =>
    cases at_ with
    | acquire | retake => exact (calm_acquire (plain_next rfl rfl rfl rfl)).heedful rfl
    | unlock | drop => exact (calm_release (plain_next rfl rfl rfl rfl)).heedful rfl
    | setChan => exact heedful_setChan hmode (h.exec_running hmode hst rfl) rfl rfl rfl rfl
    | mark =>
      exact heedful_mark hmode (hchan _ rfl) rfl (fun _ hl => by cases hl) ⟨rfl, rfl, rfl, rfl⟩
    | sched => exact calm_sched.heedful rfl
    | clear => exact (calm_clear hmode (h.exec_running hmode hst rfl) ⟨rfl, rfl, rfl, rfl⟩).heedful rfl

/-- **The waiter loses no wakeup**: it goes to sleep only if the condition was false while it held
    the lock of the condition, which it gives back with its own lock held. -/
theorem waiterInstr_heedful (h : Inv m) (hw : Watchful m) (at_ : WaiterAt)
    (hmode : (m.cpu c).mode = .exec p) (hst : m.stack p = .waiter l at_ :: fs) :
    Heedful m c (.waiter l at_) ((waiterInstr m c l ok at_).slots m)
      ((waiterInstr m c l ok at_).conds m) (waiterInstr m c l ok at_).next := by
  have hchan := hw.chan c p _ hmode (by rw [hst]; rfl)
  have htested := hw.tested c p _ hmode (by rw [hst]; rfl)
  have hself := h.self p _ (by rw [hst]; exact List.mem_cons_self)
  cases at_ with
  | acquire => exact (calm_acquire (plain_next rfl rfl rfl rfl)).heedful rfl
  | test =>
    dsimp only [waiterInstr]
    split
    · exact (calm_goto (plain_next rfl rfl rfl rfl)).heedful rfl
    · rename_i hfalse
      split
      · exact calm_panic.heedful rfl
      · refine heedful_same rfl rfl (fun _ hl => by cases hl) fun l' hl' => ?_
        cases hl'
        exact Bool.eq_false_iff.mpr hfalse
  | use =>
    dsimp only [waiterInstr]
    split
    · refine ⟨fun _ _ _ => rfl, fun l' => ?_, fun l q hs hc => Or.inl ⟨hs, hc⟩, ?_,
        fun _ _ hi => (by cases hi), ?_⟩
      · by_cases hl : l' = l
        · subst hl
          refine Or.inr ⟨List.mem_singleton_self _, fun ht => ?_⟩
          rw [Instr.conds, update_self] at ht
          cases ht
        · exact Or.inl (update_of_ne hl ..)
      · intro g' hg' l' hl'
        cases hg'
        cases hl'
      · intro p' _ g' hg'
        cases hg'
        exact ⟨fun _ hch => (by cases hch), fun _ hl => (by cases hl)⟩
    · exact (calm_goto (plain_next rfl rfl rfl rfl)).heedful rfl
  | release => exact calm_return.heedful rfl
  | sleep p' at_ =>
    have hp : p' = p := Option.some.inj (hself.resolve_left fun h => by cases h)
    subst hp
    cases at_ with
    | acquire => exact heedful_same rfl rfl (fun _ hl => by cases hl) htested
    | unlock =>
      exact heedful_same rfl rfl (fun l' hl' => Or.inr (htested l' hl')) fun _ hl => by cases hl
    | setChan => exact heedful_setChan hmode (h.exec_running hmode hst rfl) rfl rfl rfl rfl
    | mark =>
      refine heedful_mark hmode (hchan _ rfl) rfl (fun l' hl' => ?_) ⟨rfl, rfl, rfl, rfl⟩
      cases hl'
      rfl
    | sched => exact calm_sched.heedful rfl
    | clear => exact (calm_clear hmode (h.exec_running hmode hst rfl) ⟨rfl, rfl, rfl, rfl⟩).heedful rfl
    | drop => exact (calm_release (plain_next rfl rfl rfl rfl)).heedful rfl
    | retake => exact (calm_acquire (plain_next rfl rfl rfl rfl)).heedful rfl

theorem Frame.pending_self {f : Frame} {q : Nat} (hself : f.self = none ∨ f.self = some q)
    (h : f.pending = some l) : .proc q ∈ f.locks := by
  unfold Frame.pending at h
  split at h <;> cases h <;> rcases hself with hs | hs <;> cases hs <;> exact List.mem_singleton_self _

/-- A process whose lock CPU `c` holds is not going to sleep elsewhere. -/
theorem not_pendingElsewhere (h : Inv m) (hheld : .proc j ∈ m.held c) :
    ¬ PendingElsewhere m c l j := by
  rintro ⟨c', f, hcc, hmode, hf, hl⟩
  have hmem : .proc j ∈ m.held c' := mem_held_of_head (by rw [frames_exec hmode, hf])
    (Frame.pending_self (h.self j f (List.mem_of_head? hf)) hl)
  exact hcc (h.exclusive hmem hheld)

theorem heedful_waking {at_ at' : WakeAt} {i i' : Nat} {slots : Nat → Slot}
    (hchan : ∀ q, (slots q).chan = (m.proc q).chan)
    (hsleep : ∀ q, (slots q).state = .SLEEPING → (m.proc q).state = .SLEEPING)
    (hscan : ∀ k, (Frame.waker l (.waking i at_)).scan = some (l, k) → ∀ q, k ≤ q →
      ((slots q).state = .SLEEPING ∧ (slots q).chan = some (.cond l)) ∨ PendingElsewhere m c l q →
      ∃ k', (Frame.waker l (.waking i' at')).scan = some (l, k') ∧ k' ≤ q) :
    Heedful m c (.waker l (.waking i at_)) slots m.cond (some (.waker l (.waking i' at'))) := by
  refine ⟨fun q _ _ => hchan q, fun _ => Or.inl rfl, fun l' q hs hc => Or.inl ⟨hsleep q hs, ?_⟩,
    fun g hg l' hl' => ?_, fun l' k hk q _ hle hq => ?_, fun p' _ g hg => ?_⟩
  · rwa [hchan q] at hc
  · cases hg
    cases hl'
  · have hl : l' = l := by
      cases at_ <;> cases hk <;> rfl
    subst hl
    exact hscan k hk q hle hq
  · cases hg
    exact ⟨fun _ hch => (by cases hch), fun _ hl => (by cases hl)⟩

/-- **`wakeup` passes nobody who sleeps or is going to.** -/
theorem wakerInstr_heedful (h : Inv m) (at_ : WakerAt) (hfr : m.frames c = .waker l at_ :: fs)
    (hproc : ∀ q, (m.cpu c).proc = some q → (m.proc q).state = .RUNNING ∧ (m.cpu c).mode = .exec q) :
    Heedful m c (.waker l at_) ((wakerInstr m c l at_).slots m)
      ((wakerInstr m c l at_).conds m) (wakerInstr m c l at_).next := by
  cases at_ with
  | acquire => exact (calm_acquire (plain_next rfl rfl rfl rfl)).heedful rfl
  | set =>
    refine ⟨fun _ _ _ => rfl, fun l' => ?_, fun l q hs hc => Or.inl ⟨hs, hc⟩, ?_,
        fun _ _ hi => (by cases hi), ?_⟩
    · by_cases hl : l' = l
      · subst hl
        exact Or.inr ⟨List.mem_singleton_self _, fun _ => rfl⟩
      · exact Or.inl (update_of_ne hl ..)
    · intro g' hg' l' hl'
      cases hg'
      cases hl'
    · intro p' _ g' hg'
      cases hg'
      exact ⟨fun _ hch => (by cases hch), fun _ hl => (by cases hl)⟩
  | release => exact calm_return.heedful rfl
  | waking j at_ =>
    cases at_ with
    | acquire =>
      dsimp only [wakerInstr, wakeInstr]
      split
      · split
        · rename_i hj
          obtain ⟨hrun, hmode⟩ := hproc j hj
          refine heedful_waking (fun _ => rfl) (fun _ hq => hq) fun k hk q hle hq => ⟨j + 1, rfl, ?_⟩
          cases hk
          have hqj : q ≠ j := by
            rintro rfl
            rcases hq with ⟨hs, -⟩ | ⟨c', f, hcc, hmode', -⟩
            · change (m.proc q).state = .SLEEPING at hs
              rw [hrun] at hs
              cases hs
            · exact hcc (h.exec_unique hmode' hmode)
          omega
        · exact heedful_waking (fun _ => rfl) (fun _ hq => hq) fun k hk q hle _ => ⟨k, hk, hle⟩
      · rename_i hj
        refine ⟨fun _ _ _ => rfl, fun _ => Or.inl rfl, fun l q hs hc => Or.inl ⟨hs, hc⟩, ?_, ?_, ?_⟩
        · intro g' hg' l' hl'
          cases hg'
          cases hl'
        · intro l' k hk q hq hle
          cases hk
          omega
        · intro p' _ g' hg'
          cases hg'
          exact ⟨fun _ hch => (by cases hch), fun _ hl => (by cases hl)⟩
    | test =>
      have hheld : .proc j ∈ m.held c :=
        mem_held_of_head (by rw [hfr]; rfl) List.mem_cons_self
      dsimp only [wakerInstr, wakeInstr]
      split
      · refine heedful_waking (fun q => ?_) (fun q hq => ?_) fun k hk q hle hq => ⟨j + 1, rfl, ?_⟩
        · by_cases hqj : q = j
          · subst hqj
            rw [Instr.slots, update_self]
            rfl
          · rw [Instr.slots, update_of_ne hqj]
        · by_cases hqj : q = j
          · subst hqj
            rw [Instr.slots, update_self] at hq
            cases hq
          · rwa [Instr.slots, update_of_ne hqj] at hq
        · cases hk
          have hqj : q ≠ j := by
            rintro rfl
            rcases hq with ⟨hs, -⟩ | hq
            · rw [Instr.slots, update_self] at hs
              cases hs
            · exact not_pendingElsewhere h hheld hq
          omega
      · rename_i hnot
        refine heedful_waking (fun _ => rfl) (fun _ hq => hq) fun k hk q hle hq => ⟨j + 1, rfl, ?_⟩
        cases hk
        have hqj : q ≠ j := by
          rintro rfl
          exact hq.elim hnot (not_pendingElsewhere h hheld)
        omega
    | release => exact heedful_waking (fun _ => rfl) (fun _ hq => hq) fun k hk q hle _ => ⟨k, hk, hle⟩

end Conditions

/-- **Every instruction is heedful.** -/
theorem instr_heedful {ok : Bool} (h : Inv m) (hw : Watchful m) (hfr : m.frames c = top :: fs) :
    Heedful m c top ((instr m c ok top).slots m) ((instr m c ok top).conds m)
      (instr m c ok top).next := by
  have hcpu := h.cpu c
  have hmodeok := hcpu.mode
  have hproc := hcpu.proc
  unfold ModeOk at hmodeok
  cases hmode : (m.cpu c).mode
  case exec p =>
    rw [hmode] at hproc
    have hst : m.stack p = top :: fs := by rw [← frames_exec hmode, hfr]
    have hself := h.self p top (by rw [hst]; exact List.mem_cons_self)
    cases top with
    | user => exact calm_rest.heedful rfl
    | forkret p => exact (calm_release (plain_next rfl rfl rfl rfl)).heedful rfl
    | yield p at_ => exact (yieldInstr_calm at_).heedful rfl
    | kill pid j at_ => exact (killInstr_calm pid at_).heedful rfl
    | fork p at_ => exact (forkInstr_calm at_).heedful rfl
    | exit p status at_ => exact (exitInstr_calm status at_).heedful rfl
    | wait p' addr at_ =>
      have hp : p' = p := Option.some.inj (hself.resolve_left fun h => by cases h)
      subst hp
      exact waitInstr_heedful h hw addr at_ hmode hst
    | waiter l at_ => exact waiterInstr_heedful h hw at_ hmode hst
    | waker l at_ =>
      refine wakerInstr_heedful h at_ hfr fun q hq => ?_
      rw [hproc] at hq
      cases hq
      exact ⟨h.exec_running hmode hst rfl, hmode⟩
  case irq j f =>
    rw [hmode] at hproc hmodeok
    obtain ⟨l, at_, rfl⟩ := hmodeok
    unfold Machine.frames at hfr
    rw [hmode] at hfr
    cases hfr
    refine wakerInstr_heedful h at_ (by rw [Machine.frames, hmode]) fun q hq => ?_
    rw [hproc] at hq
    cases hq
  all_goals
    unfold Machine.frames at hfr
    rw [hmode] at hfr
    cases hfr

end Instruction

/-! ### Steps -/

/-- **One step loses no wakeup.** -/
theorem step_watchful {a : Act} (h : Inv m) (hw : Watchful m) (hs : step m a = .done m') :
    Watchful m' := by
  obtain ⟨c, hkind⟩ := step_kind h hs
  cases hkind with
  | idle hidle =>
    apply hw.of_quiet h hidle.toElsewhere hidle.cond hidle.chan hidle.state
    · rw [scanning, hidle.frames]
      rfl
    · intro p f hp hf
      obtain ⟨g, fs, hst, hg⟩ := hidle.exec p hp
      rw [hidle.stackEq, hst] at hf
      cases hf
      exact Frame.plain_of_resumes hg
  | instr ok top fs hfr hcont hproc hcond =>
    apply hw.of_heedful h hfr hcont
    rw [hproc, hcond]
    exact instr_heedful h hw hfr
  | push f hfree hf hcont hproc hcond =>
    apply hw.of_quiet h hcont.toElsewhere hcond
    · intro q
      rw [hproc]
    · intro q hq
      rwa [hproc] at hq
    · rw [scanning]
      cases hfr : m.frames c with
      | nil => rfl
      | cons top fs =>
        exact (Frame.plain_of_free (hfree top (by rw [hfr]; exact List.mem_cons_self))).scan
    · intro p g hp hg
      obtain ⟨fs, hfr, -⟩ := hcont.frames
      rw [← frames_exec hp, hfr] at hg
      cases hg
      exact Frame.plain_of_free hf

end Step

theorem boot_watchful : Watchful boot :=
  ⟨fun _ _ _ h => (by cases h), fun _ _ _ h => (by cases h), fun _ h => (by cases h)⟩

theorem reach_watchful {m : Machine} (hr : Reach m) : Inv m ∧ Watchful m :=
  Reachable.invariant (I := fun m => Inv m ∧ Watchful m) ⟨boot_inv, boot_watchful⟩
    (fun _ h _ hs => ⟨step_inv h.1 hs, step_watchful h.1 h.2 hs⟩) hr

/-- **No wakeup is lost.**  In every state that any interleaving reaches, if the condition is true
    and a process sleeps on it, some CPU executes `wakeup` for the condition, with its lock held,
    and has not passed the process; so while the lock is free, nobody sleeps on a true
    condition. -/
theorem no_lost_wakeup {m : Machine} (hr : Reach m) (l : Nat) (hl : m.cond l = true) :
    (∀ p < NPROC, (m.proc p).state = .SLEEPING → (m.proc p).chan = some (.cond l) →
      ∃ c i, m.lock (.cond l) = some c ∧ scanning m c = some (l, i) ∧ i ≤ p) ∧
    (m.lock (.cond l) = none →
      ∀ p < NPROC, ¬ ((m.proc p).state = .SLEEPING ∧ (m.proc p).chan = some (.cond l))) := by
  obtain ⟨h, hw⟩ := reach_watchful hr
  have hscan : ∀ p < NPROC, (m.proc p).state = .SLEEPING → (m.proc p).chan = some (.cond l) →
      ∃ c i, m.lock (.cond l) = some c ∧ scanning m c = some (l, i) ∧ i ≤ p := fun p hp hs hc => by
    obtain ⟨c, i, hi, hle⟩ := hw.noLost l hl p hp (Or.inl ⟨hs, hc⟩)
    obtain ⟨f, hf, hfi⟩ := Option.bind_eq_some_iff.mp hi
    exact ⟨c, i, (h.cpu c).held _ (mem_held_of_head hf (Frame.scan_locks hfi)), hi, hle⟩
  refine ⟨hscan, fun hfree p hp hsleep => ?_⟩
  obtain ⟨c, -, hc', -⟩ := hscan p hp hsleep.1 hsleep.2
  rw [hfree] at hc'
  cases hc'

/-- The first process goes to sleep on condition 0; then an interrupt makes it true. -/
def napOps : List Act :=
  go 0 35 ++ [.call 0 (.await 0)] ++ go 0 39 ++ [.device 0 0] ++ go 0 2

set_option maxRecDepth 8000 in
theorem no_lost_wakeup_nap :
    Reach (after napOps) ∧ (after napOps).cond 0 = true ∧
      ((after napOps).proc 0).state = .SLEEPING ∧ ((after napOps).proc 0).chan = some (.cond 0) ∧
      ∃ c i, (after napOps).lock (.cond 0) = some c ∧ scanning (after napOps) c = some (0, i) ∧
        i ≤ 0 := by
  have hr : Reach (after napOps) := reach_after (by decide)
  have hcond : (after napOps).cond 0 = true := by decide
  have hstate : ((after napOps).proc 0).state = .SLEEPING := by decide
  have hchan : ((after napOps).proc 0).chan = some (.cond 0) := by decide
  exact ⟨hr, hcond, hstate, hchan,
    (no_lost_wakeup hr 0 hcond).1 0 (by decide) hstate hchan⟩

end Xv6.Sched
