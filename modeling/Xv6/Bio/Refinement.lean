import Xv6.Bio.Commit

/-!
# Cache and log refine an array of blocks

The buffer cache, the log and any number of client processes in one system.  A client
gets a buffer, modifies it in place, hands it to `log_write` and releases it; the
process whose `end_op` was the last one then runs the steps of `commit()` while other
clients go on.  The plain array these refine is the initial disk with every
modification applied in order.
-/

namespace Xv6.BlockLayer

open Transition Bio Function

inductive Panic where
  | bio (e : Bio.Panic)
  | log (e : Log.Panic)
deriving DecidableEq, Repr

/-- The array after the modifications of a history, the latest first. -/
def arrayAfter (d : Disk) : List (Nat × Block) → Disk
  | [] => d
  | (b, v) :: h => update (arrayAfter d h) b v

structure World where
  log : Log.Sys
  bio : Bio.State
  /-- The blocks that their holder has modified since it last logged them. -/
  modified : Nat → Bool
  /-- What clients left in which blocks, and the log in its own, the latest first. -/
  history : List (Nat × Block)

/-- The system as it starts over a cache that nobody uses. -/
def World.init (s₀ : Bio.State) : World := ⟨.init, s₀, fun _ => false, []⟩

inductive Act where
  /-- `p` calls `bread(ROOTDEV, b)` and gets its reference. -/
  | bget (p : Pid) (b : Nat)
  /-- The `bread` of `p` returns buffer `i`. -/
  | bread (p : Pid) (b i : Nat)
  /-- `p` overwrites buffer `i`, which it holds. -/
  | modify (p : Pid) (i : Nat) (v : Block)
  | logWrite (p : Pid) (i : Nat)
  | brelse (p : Pid) (i : Nat)
  | beginOp (p : Pid)
  | endOp (p : Pid)
  /-- The committing process takes its next step. -/
  | commit

/-- `b` is no block of the log region of the disk image. -/
def OutsideRegion (start b : Nat) : Prop := b < start ∨ start + LOGBLOCKS ≤ b

instance (start b : Nat) : Decidable (OutsideRegion start b) := by
  unfold OutsideRegion; infer_instance

/-- `p` holds buffer `i`, which is that of a block a client may write. -/
def MayWrite (start : Nat) (s : Bio.State) (p : Pid) (i : Nat) : Prop :=
  i < NBUF ∧ (s.buf i).dev = ROOTDEV ∧ (s.buf i).lock = some p ∧
    OutsideRegion start (s.buf i).blockno

instance (start : Nat) (s : Bio.State) (p : Pid) (i : Nat) : Decidable (MayWrite start s p i) := by
  unfold MayWrite; infer_instance

/-- The cache side of one step of `commit()`, with the log block it leaves new contents in. -/
def commitBlocks (start : Nat) (lh : List Nat) (p : Pid) (s : Bio.State) :
    Log.CommitPc → Outcome Bio.Panic (Bio.State × Option Nat)
  | .writeLog tail =>
    if tail < lh.length then do
      let s ← writeLogBlock p start lh tail s
      return (s, some (start + tail + 1))
    else return (s, none)
  | .writeHead | .eraseHead => do
    let s ← writeHead p start lh s
    return (s, some start)
  | .install tail =>
    if tail < lh.length then do
      let s ← installBlock p start lh tail s
      return (s, none)
    else return (s, none)
  | .check | .clear | .leave => return (s, none)

/-- The array does not change in the steps of `install_trans`: the copy a client finds in a
    home block is still the one that was logged. -/
def recordLog (s : Bio.State) (h : List (Nat × Block)) : Option Nat → List (Nat × Block)
  | some b => (b, s.disk b) :: h
  | none => h

def step (start : Nat) (w : World) : Act → Outcome Panic World
  | .bget p b => do
    let (_, s) ← (bgetRef p ROOTDEV b w.bio).mapFail .bio
    return { w with bio := s }
  | .bread p b i =>
    if ⟨p, i, ROOTDEV, b⟩ ∈ w.bio.waiting then do
      let s ← (acquiresleep p ROOTDEV b i w.bio).mapFail .bio
      return { w with bio := fill i s }
    else .blocked
  | .modify p i v =>
    if MayWrite start w.bio p i then
      let b := (w.bio.buf i).blockno
      .done { w with
        bio := setData i v w.bio
        modified := update w.modified b true
        history := (b, v) :: w.history }
    else .blocked
  | .logWrite p i =>
    if MayWrite start w.bio p i then do
      let b := (w.bio.buf i).blockno
      let log ← (Log.step w.log (.logWrite p b)).mapFail .log
      let isNew := match Log.logWrite w.log.log b with
        | .ok (_, new) => new
        | .error _ => false
      return { w with
        log := log
        bio := if isNew then bpin i w.bio else w.bio
        modified := update w.modified b false }
    else .blocked
  | .brelse p i =>
    -- a client releases no buffer that it modified and did not log
    if i < NBUF ∧ (w.bio.buf i).dev = ROOTDEV ∧ w.modified (w.bio.buf i).blockno = false then do
      let s ← (Bio.brelse p i w.bio).mapFail .bio
      return { w with bio := s }
    else .blocked
  | .beginOp p => do
    let log ← (Log.step w.log (.beginOp p)).mapFail .log
    return { w with log := log }
  | .endOp p => do
    let log ← (Log.step w.log (.endOp p)).mapFail .log
    return { w with log := log }
  | .commit =>
    match w.log.committer with
    | none => .blocked
    | some (p, pc) => do
      let (s, wrote) ← (commitBlocks start w.log.log.lh p w.bio pc).mapFail .bio
      return { w with
        log := Log.commitStep w.log p pc
        bio := s
        history := recordLog s w.history wrote }

/-- The states of runs over a cache `s₀`. -/
abbrev ReachableWorld (start : Nat) (s₀ : Bio.State) : World → Prop :=
  Reachable (World.init s₀) (step start) fun _ _ => True

/-! ### The invariant

While the commit copies, the array has the same contents in a log block and in its home
block, unless a client has modified the home block since; such a client holds the buffer,
so `install_trans` waits for it. -/

/-- The running commit has got a buffer for a log block. -/
def started : Log.CommitPc → Bool
  | .writeLog tail => decide (0 < tail)
  | .writeHead | .install _ => true
  | _ => false

/-- Log block `i` is a copy that has not been installed. -/
def copied (i : Nat) : Log.CommitPc → Prop
  | .writeLog tail => i < tail
  | .writeHead => True
  | .install tail => tail ≤ i
  | _ => False

/-- The blocks that are pinned: those of `lh` that the commit has not installed. -/
def pins (s : Log.Sys) : List Nat :=
  match s.committer with
  | some (_, .install tail) => s.log.lh.drop tail
  | some (_, .clear) => []
  | _ => s.log.lh

structure Inv (start : Nat) (d : Disk) (w : World) : Prop where
  log : Log.Inv w.log
  coherent : Coherent w.bio (pins w.log) (fun b => w.modified b = true) (arrayAfter d w.history)
  outside : ∀ b, b ∈ w.log.log.lh ∨ w.modified b = true → OutsideRegion start b
  room : ∀ p pc, w.log.committer = some (p, pc) → started pc = true →
    w.log.log.lh.length < LOGBLOCKS
  logged : ∀ p pc, w.log.committer = some (p, pc) → ∀ i < w.log.log.lh.length, copied i pc →
    arrayAfter d w.history (start + i + 1) = arrayAfter d w.history (w.log.log.lh.getD i 0) ∨
      w.modified (w.log.log.lh.getD i 0) = true

section Preservation

variable {start : Nat} {d : Disk} {w w' : World}

theorem pins_of_idle {s : Log.Sys} (h : s.committer = none) : pins s = s.log.lh := by
  simp [pins, h]

theorem started_of_copied {i : Nat} {pc : Log.CommitPc} (h : copied i pc) : started pc = true := by
  cases pc <;> simp_all [copied, started]
  omega

theorem update_true {f : Nat → Bool} {b c : Nat} :
    update f b true c = true ↔ f c = true ∨ c = b := by
  by_cases hcb : c = b <;> simp [hcb]

theorem update_false {f : Nat → Bool} {b c : Nat} :
    update f b false c = true ↔ f c = true ∧ c ≠ b := by
  by_cases hcb : c = b <;> simp [hcb]

theorem Inv.of_bio {s : Bio.State} (h : Inv start d w)
    (hcoh : Coherent s (pins w.log) (fun b => w.modified b = true) (arrayAfter d w.history)) :
    Inv start d { w with bio := s } :=
  ⟨h.log, hcoh, h.outside, h.room, h.logged⟩

theorem Inv.of_log {log : Log.Sys} (h : Inv start d w) (hlog : Log.Inv log)
    (hlh : log.log.lh = w.log.log.lh) (hcom : log.committer = w.log.committer) :
    Inv start d { w with log := log } := by
  have hpins : pins log = pins w.log := by simp only [pins, hcom, hlh]
  refine ⟨hlog, hpins ▸ h.coherent, ?_, ?_, ?_⟩
  · dsimp only
    rw [hlh]
    exact h.outside
  · dsimp only
    rw [hlh, hcom]
    exact h.room
  · dsimp only
    rw [hlh, hcom]
    exact h.logged

theorem MayWrite.holds {p : Pid} {i : Nat} (h : MayWrite start w.bio p i) :
    Holds w.bio p (w.bio.buf i).blockno i :=
  ⟨h.1, ⟨h.2.1, rfl⟩, h.2.2.1⟩

theorem inv_modify {p : Pid} {i : Nat} {v : Block} (h : Inv start d w)
    (hs : step start w (.modify p i v) = .done w') : Inv start d w' := by
  simp only [step] at hs
  split at hs
  case isFalse => exact absurd hs (by simp)
  rename_i hmay
  obtain rfl := Outcome.done.inj hs
  have hout := hmay.2.2.2
  refine ⟨h.log, ?_, fun b hb => ?_, h.room, fun p pc hcom j hj hcop => ?_⟩
  · exact (setData_coherent h.coherent hmay.holds v).logged (fun c => update_true.mp)
      (fun c hm => Or.inl (update_true.mpr hm))
  · rcases hb with hmem | hm
    · exact h.outside b (Or.inl hmem)
    · rcases update_true.mp hm with hm' | rfl
      · exact h.outside b (Or.inr hm')
      · exact hout
  · -- the block is not a log block, so only the home side can change
    have hroom := h.room p pc hcom (started_of_copied hcop)
    have hne : start + j + 1 ≠ (w.bio.buf i).blockno := by
      dsimp only at hj
      unfold OutsideRegion at hout
      omega
    dsimp only [arrayAfter]
    by_cases hcb : w.log.log.lh.getD j 0 = (w.bio.buf i).blockno
    · exact Or.inr (update_true.mpr (Or.inr hcb))
    · rw [update_of_ne hne, update_of_ne hcb, update_of_ne hcb]
      exact h.logged p pc hcom j hj hcop

theorem inv_logWrite {p : Pid} {i : Nat} (h : Inv start d w)
    (hs : step start w (.logWrite p i) = .done w') : Inv start d w' := by
  simp only [step] at hs
  split at hs
  case isFalse => exact absurd hs (by simp)
  rename_i hmay
  obtain ⟨log, hlog, hret⟩ := Outcome.bind_eq_done.mp hs
  rw [Outcome.mapFail_eq_done] at hlog
  obtain rfl := Outcome.done.inj hret
  have hinv := Log.inv_step h.log hlog
  obtain ⟨hp, l, new, hw, rfl⟩ := Log.step_logWrite hlog
  have hidle := h.log.not_committing hp
  obtain ⟨_, _, hcase⟩ := Log.logWrite_eq_ok.mp hw
  have hcoh := h.coherent
  rw [pins_of_idle hidle] at hcoh
  -- after the pin, the block is no longer one that only its holder keeps
  have hforget : ∀ {s : Bio.State} {P : List Nat}, (w.bio.buf i).blockno ∈ P →
      Coherent s P (fun b => w.modified b = true) (arrayAfter d w.history) →
      Coherent s P (fun b => update w.modified (w.bio.buf i).blockno false b = true)
        (arrayAfter d w.history) := by
    intro s P hmem hc
    refine hc.logged (fun c hm => (update_false.mp hm).1) (fun c hm => ?_)
    by_cases hcb : c = (w.bio.buf i).blockno
    · exact Or.inr (hcb ▸ hmem)
    · exact Or.inl (update_false.mpr ⟨hm, hcb⟩)
  refine ⟨hinv, ?_, fun b hb => ?_, fun q pc hcom => absurd (hidle.symm.trans hcom) (by simp),
    fun q pc hcom => absurd (hidle.symm.trans hcom) (by simp)⟩
  · simp only [hw, pins, hidle]
    rcases hcase with ⟨hmem, rfl, rfl⟩ | ⟨hmem, rfl, rfl⟩
    · exact hforget hmem hcoh
    · exact hforget (by simp) (bpin_coherent hcoh hmay.holds hmem)
  · by_cases hcb : b = (w.bio.buf i).blockno
    · exact hcb ▸ hmay.2.2.2
    · refine h.outside b (hb.imp (fun hmem => ?_) (fun hm => ?_))
      · rcases hcase with ⟨_, rfl, _⟩ | ⟨_, rfl, _⟩
        · exact hmem
        · simpa [hcb] using hmem
      · exact (update_false.mp hm).1

theorem inv_endOp {p : Pid} (h : Inv start d w) (hs : step start w (.endOp p) = .done w') :
    Inv start d w' := by
  obtain ⟨log, hlog, hret⟩ := Outcome.bind_eq_done.mp hs
  rw [Outcome.mapFail_eq_done] at hlog
  obtain rfl := Outcome.done.inj hret
  have hinv := Log.inv_step h.log hlog
  obtain ⟨hp, l, doCommit, hw, rfl⟩ := Log.step_endOp hlog
  have hidle := h.log.not_committing hp
  have hlh : l.lh = w.log.log.lh := by
    obtain ⟨_, hcase⟩ := Log.endOp_eq_ok.mp hw
    rcases hcase with ⟨_, _, rfl⟩ | ⟨_, _, rfl⟩ <;> rfl
  have hcoh := h.coherent
  rw [pins_of_idle hidle, ← hlh] at hcoh
  have hnew : ∀ q pc, (if doCommit = true then some (p, .check) else w.log.committer) =
      some (q, pc) → pc = .check := by
    intro q pc hcom
    cases doCommit with
    | true => simp at hcom; exact hcom.2.symm
    | false => simp [hidle] at hcom
  refine ⟨hinv, ?_, ?_, fun q pc hcom hst => ?_, fun q pc hcom i _ hcop => ?_⟩
  · cases doCommit with
    | true => simpa [pins] using hcoh
    | false => simpa [pins, hidle] using hcoh
  · dsimp only
    rw [hlh]
    exact h.outside
  · rw [hnew q pc hcom] at hst
    exact absurd hst (by simp [started])
  · rw [hnew q pc hcom] at hcop
    exact hcop.elim

/-! ### The steps of a commit -/

theorem step_commit (hs : step start w .commit = .done w') :
    ∃ p pc s wrote, w.log.committer = some (p, pc) ∧
      commitBlocks start w.log.log.lh p w.bio pc = .done (s, wrote) ∧
      w' = { w with
        log := Log.commitStep w.log p pc
        bio := s
        history := recordLog s w.history wrote } := by
  simp only [step] at hs
  cases hcom : w.log.committer with
  | none => rw [hcom] at hs; exact absurd hs (by simp)
  | some c =>
    obtain ⟨p, pc⟩ := c
    rw [hcom] at hs
    obtain ⟨⟨s, wrote⟩, hio, hret⟩ := Outcome.bind_eq_done.mp hs
    rw [Outcome.mapFail_eq_done] at hio
    exact ⟨p, pc, s, wrote, rfl, hio, (Outcome.done.inj hret).symm⟩

theorem OutsideRegion.ne_start {b : Nat} (h : OutsideRegion start b) : b ≠ start := by
  have hpos : 0 < LOGBLOCKS := by decide
  unfold OutsideRegion at h
  omega

theorem OutsideRegion.ne_log {b i : Nat} (h : OutsideRegion start b) (hi : i + 1 < LOGBLOCKS) :
    b ≠ start + i + 1 := by
  unfold OutsideRegion at h
  omega

theorem Inv.home_outside (h : Inv start d w) {i : Nat} (hi : i < w.log.log.lh.length) :
    OutsideRegion start (w.log.log.lh.getD i 0) :=
  h.outside _ (Or.inl (Log.getD_mem_of_lt hi))

/-- A commit that got a buffer for a log block found the log less than full. -/
theorem writeLogBlock_room {s s' : Bio.State} {P lh : List Nat} {p : Pid} {t : Nat}
    (h : CacheInv s P) (hP : P.Nodup) (hlog : start + t + 1 ∉ P)
    (hs : writeLogBlock p start lh t s = .done s') : P.length < NBUF := by
  obtain ⟨⟨i, u⟩, hread, _⟩ := Outcome.bind_eq_done.mp hs
  obtain ⟨hu, hh, _⟩ := h.bread hread
  refine hu.length_lt hP hh.lt fun hpin => hlog ?_
  rw [← hh.caches.2]
  exact hpin.2

section Commit

variable {p : Pid} {s : Bio.State}

theorem Inv.of_commitStep {pc' : Log.CommitPc} {log : Log.Sys} {h' : List (Nat × Block)}
    (h : Inv start d w) (hlog : Log.Inv log) (hcom : log.committer = some (p, pc'))
    (hlh : log.log.lh = w.log.log.lh)
    (hcoh : Coherent s (pins log) (fun b => w.modified b = true) (arrayAfter d h'))
    (hroom : started pc' = true → w.log.log.lh.length < LOGBLOCKS)
    (hlogged : ∀ i < w.log.log.lh.length, copied i pc' →
      arrayAfter d h' (start + i + 1) = arrayAfter d h' (w.log.log.lh.getD i 0) ∨
        w.modified (w.log.log.lh.getD i 0) = true) :
    Inv start d { w with log := log, bio := s, history := h' } := by
  refine ⟨hlog, hcoh, ?_, fun q pc hq hst => ?_, fun q pc hq => ?_⟩
  · dsimp only
    rw [hlh]
    exact h.outside
  · obtain ⟨rfl, rfl⟩ := Prod.mk.inj (Option.some.inj (hcom.symm.trans hq))
    dsimp only
    rw [hlh]
    exact hroom hst
  · obtain ⟨rfl, rfl⟩ := Prod.mk.inj (Option.some.inj (hcom.symm.trans hq))
    dsimp only
    rw [hlh]
    exact hlogged

variable {wrote : Option Nat}

theorem inv_writeLog {tail : Nat} (h : Inv start d w)
    (hcom : w.log.committer = some (p, .writeLog tail))
    (hlog : Log.Inv (Log.commitStep w.log p (.writeLog tail)))
    (hs : commitBlocks start w.log.log.lh p w.bio (.writeLog tail) = .done (s, wrote)) :
    Inv start d { w with
      log := Log.commitStep w.log p (.writeLog tail)
      bio := s
      history := recordLog s w.history wrote } := by
  have hcoh := h.coherent
  simp only [pins, hcom] at hcoh
  simp only [commitBlocks] at hs
  by_cases ht : tail < w.log.log.lh.length
  · rw [if_pos ht] at hs
    simp only [Log.commitStep, if_pos ht] at hlog ⊢
    obtain ⟨s₁, hblock, hret⟩ := Outcome.bind_eq_done.mp hs
    obtain ⟨rfl, rfl⟩ := Prod.mk.inj (Outcome.done.inj hret)
    -- a first log block lies in the region, a later one does as the log is not full
    have hregion : tail + 1 < LOGBLOCKS := by
      rcases Nat.eq_zero_or_pos tail with rfl | hpos
      · decide
      · have hroom := h.room p _ hcom (by simpa [started] using hpos)
        omega
    have hfresh : start + tail + 1 ∉ w.log.log.lh := fun hmem =>
      (h.outside _ (Or.inl hmem)).ne_log hregion rfl
    have hroom := writeLogBlock_room hcoh.cache h.log.nodup hfresh hblock
    obtain ⟨hcoh', hdisk, _⟩ := writeLogBlock_done hcoh hblock
    have hwrote : s₁.disk (start + tail + 1) =
        arrayAfter d w.history (w.log.log.lh.getD tail 0) := by
      rw [hdisk]
      exact update_self ..
    refine h.of_commitStep hlog rfl rfl ?_ (fun _ => hroom) (fun i hi hcop => ?_)
    · simpa only [pins, recordLog, arrayAfter, hwrote] using hcoh'
    · have hne : w.log.log.lh.getD i 0 ≠ start + tail + 1 :=
        (h.home_outside hi).ne_log hregion
      simp only [recordLog, arrayAfter, hwrote, update_of_ne hne]
      rcases Nat.lt_or_ge i tail with hlt | hge
      · rw [update_of_ne (by omega)]
        exact h.logged p _ hcom i hi hlt
      · obtain rfl : i = tail := Nat.le_antisymm (Nat.lt_succ_iff.mp hcop) hge
        rw [update_self]
        exact Or.inl rfl
  · rw [if_neg ht] at hs
    simp only [Log.commitStep, if_neg ht] at hlog ⊢
    obtain ⟨rfl, rfl⟩ := Prod.mk.inj (Outcome.done.inj hs)
    refine h.of_commitStep hlog rfl rfl hcoh (fun _ => ?_) (fun i hi _ => ?_)
    · rcases Nat.eq_zero_or_pos tail with rfl | hpos
      · exact Nat.lt_of_le_of_lt (Nat.not_lt.mp ht) (by decide)
      · exact h.room p _ hcom (by simpa [started] using hpos)
    · exact h.logged p _ hcom i hi (show i < tail by omega)

theorem inv_writeHead (h : Inv start d w) (hcom : w.log.committer = some (p, .writeHead))
    (hlog : Log.Inv (Log.commitStep w.log p .writeHead))
    (hs : commitBlocks start w.log.log.lh p w.bio .writeHead = .done (s, wrote)) :
    Inv start d { w with
      log := Log.commitStep w.log p .writeHead
      bio := s
      history := recordLog s w.history wrote } := by
  have hcoh := h.coherent
  simp only [pins, hcom] at hcoh
  obtain ⟨s₁, hhead, hret⟩ := Outcome.bind_eq_done.mp hs
  obtain ⟨rfl, rfl⟩ := Prod.mk.inj (Outcome.done.inj hret)
  obtain ⟨hcoh', hdisk, _⟩ := writeHead_done hcoh hhead
  have hwrote := congrFun hdisk start
  rw [update_self] at hwrote
  refine h.of_commitStep hlog rfl rfl ?_ (fun _ => h.room p _ hcom rfl) (fun i hi _ => ?_)
  · simpa only [pins, Log.commitStep, List.drop_zero, recordLog, arrayAfter, hwrote] using hcoh'
  · simp only [recordLog, arrayAfter]
    rw [update_of_ne (by omega), update_of_ne (h.home_outside hi).ne_start]
    exact h.logged p _ hcom i hi trivial

theorem inv_install {tail : Nat} (h : Inv start d w)
    (hcom : w.log.committer = some (p, .install tail))
    (hlog : Log.Inv (Log.commitStep w.log p (.install tail)))
    (hs : commitBlocks start w.log.log.lh p w.bio (.install tail) = .done (s, wrote)) :
    Inv start d { w with
      log := Log.commitStep w.log p (.install tail)
      bio := s
      history := recordLog s w.history wrote } := by
  have hcoh := h.coherent
  simp only [pins, hcom] at hcoh
  simp only [commitBlocks] at hs
  by_cases ht : tail < w.log.log.lh.length
  · rw [if_pos ht] at hs
    simp only [Log.commitStep, if_pos ht] at hlog ⊢
    obtain ⟨s₁, hblock, hret⟩ := Outcome.bind_eq_done.mp hs
    obtain ⟨rfl, rfl⟩ := Prod.mk.inj (Outcome.done.inj hret)
    obtain ⟨hcoh', _, _, hfree⟩ := installBlock_done hcoh (getD_mem_drop ht)
      (h.log.nodup.sublist (List.drop_sublist tail _)) hblock
    -- the log block is the current copy: nobody holds the home block modified
    have hcopy := (h.logged p _ hcom tail ht (Nat.le_refl tail)).resolve_right hfree
    rw [hcopy, update_eq_self, erase_drop ht] at hcoh'
    refine h.of_commitStep hlog rfl rfl hcoh' (fun _ => h.room p _ hcom rfl)
      (fun i hi hcop => h.logged p _ hcom i hi ?_)
    exact Nat.le_of_succ_le hcop
  · rw [if_neg ht] at hs
    simp only [Log.commitStep, if_neg ht] at hlog ⊢
    obtain ⟨rfl, rfl⟩ := Prod.mk.inj (Outcome.done.inj hs)
    rw [List.drop_of_length_le (Nat.not_lt.mp ht)] at hcoh
    exact h.of_commitStep hlog rfl rfl hcoh (fun hst => absurd hst (by simp [started]))
      (fun i hi hcop => hcop.elim)

theorem inv_eraseHead (h : Inv start d w) (hcom : w.log.committer = some (p, .eraseHead))
    (hlog : Log.Inv (Log.commitStep w.log p .eraseHead))
    (hs : commitBlocks start w.log.log.lh p w.bio .eraseHead = .done (s, wrote)) :
    Inv start d { w with
      log := Log.commitStep w.log p .eraseHead
      bio := s
      history := recordLog s w.history wrote } := by
  have hcoh := h.coherent
  simp only [pins, hcom] at hcoh
  obtain ⟨s₁, hhead, hret⟩ := Outcome.bind_eq_done.mp hs
  obtain ⟨rfl, rfl⟩ := Prod.mk.inj (Outcome.done.inj hret)
  obtain ⟨hcoh', hdisk, _⟩ := writeHead_done hcoh hhead
  have hwrote := congrFun hdisk start
  rw [update_self] at hwrote
  refine h.of_commitStep hlog rfl rfl ?_ (fun hst => absurd hst (by simp [started]))
    (fun i hi hcop => hcop.elim)
  simpa only [pins, Log.commitStep, recordLog, arrayAfter, hwrote] using hcoh'

theorem inv_commit (h : Inv start d w) (hs : step start w .commit = .done w') :
    Inv start d w' := by
  obtain ⟨p, pc, s, wrote, hcom, hio, rfl⟩ := step_commit hs
  have hlog : Log.Inv (Log.commitStep w.log p pc) :=
    Log.inv_step h.log (show Log.step w.log .commit = _ by simp only [Log.step, hcom])
  have hcoh := h.coherent
  simp only [pins, hcom] at hcoh
  cases pc with
  | check =>
    obtain ⟨rfl, rfl⟩ := Prod.mk.inj (Outcome.done.inj hio)
    refine h.of_commitStep hlog rfl rfl ?_ (fun hst => ?_) (fun i _ hcop => ?_)
    · simp only [pins, Log.commitStep]
      split
      · rename_i heq
        split at heq <;> simp at heq
      · rename_i heq
        split at heq <;> simp at heq
      · exact hcoh
    · split at hst <;> exact absurd hst (by simp [started])
    · split at hcop
      · exact absurd hcop (Nat.not_lt_zero i)
      · exact hcop.elim
  | writeLog tail => exact inv_writeLog h hcom hlog hio
  | writeHead => exact inv_writeHead h hcom hlog hio
  | install tail => exact inv_install h hcom hlog hio
  | clear =>
    obtain ⟨rfl, rfl⟩ := Prod.mk.inj (Outcome.done.inj hio)
    refine ⟨hlog, hcoh, fun b hb => h.outside b (Or.inr (hb.resolve_left ?_)),
      fun q pc hq hst => ?_, fun q pc hq i hi => absurd hi (Nat.not_lt_zero i)⟩
    · simp [Log.commitStep]
    · exact (by decide : 0 < LOGBLOCKS)
  | eraseHead => exact inv_eraseHead h hcom hlog hio
  | leave =>
    obtain ⟨rfl, rfl⟩ := Prod.mk.inj (Outcome.done.inj hio)
    exact ⟨hlog, hcoh, h.outside, fun q pc hq => absurd hq (by simp [Log.commitStep]),
      fun q pc hq => absurd hq (by simp [Log.commitStep])⟩

end Commit

theorem inv_step {a : Act} (h : Inv start d w) (hs : step start w a = .done w') :
    Inv start d w' := by
  cases a with
  | bget p b =>
    obtain ⟨⟨i, s⟩, hget, hret⟩ := Outcome.bind_eq_done.mp hs
    rw [Outcome.mapFail_eq_done] at hget
    obtain rfl := Outcome.done.inj hret
    exact h.of_bio (h.coherent.bgetRef hget)
  | bread p b i =>
    simp only [step] at hs
    split at hs
    case isFalse => exact absurd hs (by simp)
    rename_i hw
    obtain ⟨s, hacq, hret⟩ := Outcome.bind_eq_done.mp hs
    rw [Outcome.mapFail_eq_done] at hacq
    obtain rfl := Outcome.done.inj hret
    exact h.of_bio (h.coherent.acquire hw hacq).1
  | modify p i v => exact inv_modify h hs
  | logWrite p i => exact inv_logWrite h hs
  | brelse p i =>
    simp only [step] at hs
    split at hs
    case isFalse => exact absurd hs (by simp)
    rename_i hclean
    obtain ⟨s, hrel, hret⟩ := Outcome.bind_eq_done.mp hs
    rw [Outcome.mapFail_eq_done] at hrel
    obtain rfl := Outcome.done.inj hret
    have hheld : (w.bio.buf i).lock = some p := by
      unfold Bio.brelse at hrel
      split at hrel
      · assumption
      · exact absurd hrel (by simp)
    have hh : Holds w.bio p (w.bio.buf i).blockno i := ⟨hclean.1, ⟨hclean.2.1, rfl⟩, hheld⟩
    exact h.of_bio (brelse_done h.coherent hh (by simp [hclean.2.2]) hrel).1
  | beginOp p =>
    obtain ⟨log, hlog, hret⟩ := Outcome.bind_eq_done.mp hs
    rw [Outcome.mapFail_eq_done] at hlog
    obtain rfl := Outcome.done.inj hret
    have hinv := Log.inv_step h.log hlog
    obtain ⟨_, _, _, rfl⟩ := Log.step_beginOp hlog
    exact h.of_log hinv rfl rfl
  | endOp p => exact inv_endOp h hs
  | commit => exact inv_commit h hs

end Preservation

/-! ### Refinement -/

theorem inv_init {start : Nat} {s₀ : Bio.State} (h : Coherent s₀ [] unmodified s₀.disk) :
    Inv start s₀.disk (World.init s₀) := by
  refine ⟨Log.inv_init, ?_, fun b hb => ?_, fun p pc hcom => absurd hcom ?_,
    fun p pc hcom => absurd hcom ?_⟩
  · exact h.logged (fun c hm => absurd hm (by simp [World.init])) (fun c hm => hm.elim)
  · rcases hb with hb | hb
    · exact absurd hb List.not_mem_nil
    · exact absurd hb (by simp [World.init])
  · simp [World.init, Log.Sys.init]
  · simp [World.init, Log.Sys.init]

theorem inv_of_reachable {start : Nat} {s₀ : Bio.State} {w : World}
    (h : Coherent s₀ [] unmodified s₀.disk) (hr : ReachableWorld start s₀ w) :
    Inv start s₀.disk w :=
  hr.invariant (inv_init h) fun _ hinv _ hs => inv_step hinv hs

theorem coherent_binit (d : Disk) : Coherent (binit d) [] unmodified d := by
  refine ⟨⟨List.reverse_perm _, fun i _ j _ hdev => absurd rfl hdev, fun b hb => ?_,
    fun i _ => rfl, fun w hw => ?_⟩, fun i _ hdev => ?_, fun i _ hdev => ?_, fun b => Or.inl rfl,
    fun b hm => hm.elim⟩
  · exact absurd hb List.not_mem_nil
  · exact absurd hw List.not_mem_nil
  · exact absurd hdev (by simp [binit, ROOTDEV])
  · exact absurd hdev (by simp [binit, ROOTDEV])

/-- **Cache and log refine an array of blocks.**  Over a cache that agrees with its disk,
    in every run and at every `bread` that returns, the buffer holds what the last holder
    that modified the block left in it, or the initial block if none did.  And at every
    moment those contents are on disk or in a buffer that cannot be recycled. -/
theorem cache_refines_array {start : Nat} {s₀ : Bio.State} {w : World}
    (hclean : Coherent s₀ [] unmodified s₀.disk) (hr : ReachableWorld start s₀ w) :
    (∀ p b i w', step start w (.bread p b i) = .done w' →
      Holds w'.bio p b i ∧ w'.history = w.history ∧
      (w'.bio.buf i).data = arrayAfter s₀.disk w.history b) ∧
    (∀ b, w.bio.disk b = arrayAfter s₀.disk w.history b ∨
      ∃ i < NBUF, (w.bio.buf i).caches ROOTDEV b ∧ (w.bio.buf i).refcnt ≠ 0 ∧
        (w.bio.buf i).data = arrayAfter s₀.disk w.history b) := by
  have h := inv_of_reachable hclean hr
  constructor
  · intro p b i w' hs
    simp only [step] at hs
    split at hs
    case isFalse => exact absurd hs (by simp)
    rename_i hw
    obtain ⟨s, hacq, hret⟩ := Outcome.bind_eq_done.mp hs
    rw [Outcome.mapFail_eq_done] at hacq
    obtain rfl := Outcome.done.inj hret
    obtain ⟨hcoh, hh, _⟩ := h.coherent.acquire hw hacq
    exact ⟨hh, rfl, hcoh.data_of_held hh⟩
  · intro b
    have hkept : ∀ i < NBUF, (w.bio.buf i).caches ROOTDEV b →
        (w.bio.buf i).lock ≠ none ∨ b ∈ pins w.log → (w.bio.buf i).refcnt ≠ 0 ∧
          (w.bio.buf i).data = arrayAfter s₀.disk w.history b := by
      intro i hi hc huse
      have hv := h.coherent.inUse i hi hc.1 (hc.2.symm ▸ huse)
      have hdata := h.coherent.data i hi hc.1 hv
      rw [hc.2] at hdata
      refine ⟨fun hz => ?_, hdata⟩
      obtain ⟨hl, hp⟩ := h.coherent.cache.of_refcnt_zero hi hz
      rcases huse with hlock | hmem
      · exact hlock hl
      · exact hp ⟨hc.1, hc.2.symm ▸ hmem⟩
    rcases h.coherent.clean b with hd | hp | hm
    · exact Or.inl hd
    · obtain ⟨i, hi, hc⟩ := h.coherent.cache.pinned b hp
      exact Or.inr ⟨i, hi, hc, hkept i hi hc (Or.inr hp)⟩
    · obtain ⟨i, hi, hc, hl⟩ := h.coherent.modified b hm
      exact Or.inr ⟨i, hi, hc, hkept i hi hc (Or.inl hl)⟩

/-- One process writes block 40 and ends its operation, the block is committed, and another
    process asks for it. -/
def writeThenRead : List Act :=
  [.beginOp 0, .bget 0 40, .bread 0 40 0, .modify 0 0 (fun _ => 7), .logWrite 0 0, .brelse 0 0,
    .endOp 0, .commit, .commit, .commit, .commit, .commit, .commit, .commit, .commit, .commit,
    .bget 1 40]

def afterWrite : World :=
  finalState (step 2) (fun _ _ => true) (World.init (binit fun _ _ => 0)) writeThenRead

theorem cache_refines_array_afterWrite :
    ∃ w', step 2 afterWrite (.bread 1 40 0) = .done w' ∧ Holds w'.bio 1 40 0 ∧
      (w'.bio.buf 0).data = fun _ => 7 := by
  have hreach : ReachableWorld 2 (binit fun _ _ => 0) afterWrite :=
    (reachable_finalState (by decide)).mono fun _ _ _ => trivial
  have hread : (step 2 afterWrite (.bread 1 40 0)).state?.isSome = true := by decide
  obtain ⟨w', hw'⟩ := Option.isSome_iff_exists.mp hread
  have hs := Outcome.state?_eq_some.mp hw'
  obtain ⟨hh, _, hdata⟩ := (cache_refines_array (coherent_binit _) hreach).1 1 40 0 w' hs
  exact ⟨w', hs, hh, hdata.trans rfl⟩

end Xv6.BlockLayer
