import Xv6.Param
import Xv6.Lib.Transition
import Mathlib.Data.Finset.Card
import Mathlib.Data.List.Nodup

/-!
# Group commit: `begin_op`, `log_write` and `end_op`

The in-memory side of `kernel/log.c`.  Each section that the source runs under
`log.lock` is one function on `struct log`; `sleep(&log, &log.lock)` is the
outcome in which the section does not get through.  Over them stands the system
of any number of processes that enter and leave operations in any order, with the
steps of `commit()` running outside the lock between the two locked sections of
`end_op`.

Operations are numbered as they begin.  The numbers, the record of every
`log_write` and the record of every commit are there for the statements only: no
modelled function reads them.
-/

namespace Xv6.Log

open Transition

inductive Panic where
  /-- `"too big a transaction"` -/
  | tooBigATransaction
  /-- `"log_write outside of trans"` -/
  | logWriteOutsideOfTrans
  /-- `"log.committing"` -/
  | logCommitting
deriving DecidableEq, Repr

/-- `struct log`, less the lock, the device and the start block.  `lh` lists
    `lh.block[0..lh.n)`. -/
structure LogState where
  /-- How many FS system calls are executing. -/
  outstanding : Int
  /-- In `commit()`, please wait. -/
  committing : Bool
  ncommit : Nat
  lh : List Nat
deriving DecidableEq, Repr

/-- The log after `initlog`: recovery has emptied it. -/
def LogState.init : LogState := ⟨0, false, 0, []⟩

/-! ### The locked sections -/

/-- One pass of the loop in `begin_op`; `none` is a pass that sleeps. -/
def beginOp (l : LogState) : Option LogState :=
  if l.committing then none
  else if (l.lh.length : Int) + (l.outstanding + 1) * MAXOPBLOCKS > LOGBLOCKS then
    -- this op might exhaust log space; wait for commit
    none
  else some { l with outstanding := l.outstanding + 1 }

/-- `log_write`, on a buffer for block `b`.  The flag says whether the block is new to
    the log, in which case the caller's buffer is pinned. -/
def logWrite (l : LogState) (b : Nat) : Except Panic (LogState × Bool) :=
  if l.lh.length ≥ LOGBLOCKS then .error .tooBigATransaction
  else if l.outstanding < 1 then .error .logWriteOutsideOfTrans
  else
    -- the first entry that names `b`, or the first free one: log absorption
    let i := l.lh.findIdx (· == b)
    if i = l.lh.length then .ok ({ l with lh := l.lh ++ [b] }, true)
    else .ok ({ l with lh := l.lh.set i b }, false)

/-- The first locked section of `end_op`, with its `do_commit`. -/
def endOp (l : LogState) : Except Panic (LogState × Bool) :=
  let l := { l with outstanding := l.outstanding - 1 }
  if l.committing then .error .logCommitting
  else if l.outstanding = 0 then .ok ({ l with committing := true }, true)
  else .ok (l, false)

/-- The second locked section of `end_op`, after `commit()`. -/
def endCommit (l : LogState) : LogState :=
  { l with committing := false, ncommit := l.ncommit + 1 }

/-! ### The system -/

/-- Where a running `commit()` stands. -/
inductive CommitPc where
  /-- at `if (log.lh.n > 0)` -/
  | check
  /-- in the loop of `write_log` -/
  | writeLog (tail : Nat)
  /-- at the first `write_head` -/
  | writeHead
  /-- in the loop of `install_trans` -/
  | install (tail : Nat)
  /-- at `log.lh.n = 0` -/
  | clear
  /-- at the second `write_head` -/
  | eraseHead
  /-- back in `end_op` -/
  | leave
deriving DecidableEq, Repr

abbrev Pid := Nat
abbrev OpId := Nat

/-- What one commit did: the operations that began and ended since the commit before
    it, the blocks it copied to the log and the home blocks it wrote. -/
structure CommitRecord where
  began : List OpId
  ended : List OpId
  logged : List Nat
  homes : List Nat
deriving DecidableEq, Repr

structure Sys where
  log : LogState
  /-- The processes between `begin_op` and `end_op`. -/
  inOp : Finset Pid
  /-- The operation a process is in, or was in last. -/
  opOf : Pid → OpId
  nextOp : OpId
  /-- The process that runs `commit()`. -/
  committer : Option (Pid × CommitPc)
  /-- Every `log_write` so far. -/
  writes : List (OpId × Nat)
  /-- What the next commit will record. -/
  cur : CommitRecord
  commits : List CommitRecord

def Sys.init : Sys where
  log := .init
  inOp := ∅
  opOf := fun _ => 0
  nextOp := 0
  committer := none
  writes := []
  cur := ⟨[], [], [], []⟩
  commits := []

inductive Act where
  | beginOp (p : Pid)
  | logWrite (p : Pid) (b : Nat)
  | endOp (p : Pid)
  /-- The committing process takes its next step. -/
  | commit
deriving DecidableEq, Repr

/-- One step of `commit()` by process `p`. -/
def commitStep (s : Sys) (p : Pid) : CommitPc → Sys
  | .check =>
    { s with committer := some (p, if 0 < s.log.lh.length then .writeLog 0 else .leave) }
  | .writeLog tail =>
    if tail < s.log.lh.length then
      { s with
        committer := some (p, .writeLog (tail + 1))
        cur := { s.cur with logged := s.cur.logged ++ [s.log.lh.getD tail 0] } }
    else { s with committer := some (p, .writeHead) }
  | .writeHead => { s with committer := some (p, .install 0) }
  | .install tail =>
    if tail < s.log.lh.length then
      { s with
        committer := some (p, .install (tail + 1))
        cur := { s.cur with homes := s.cur.homes ++ [s.log.lh.getD tail 0] } }
    else { s with committer := some (p, .clear) }
  | .clear => { s with committer := some (p, .eraseHead), log := { s.log with lh := [] } }
  | .eraseHead => { s with committer := some (p, .leave) }
  | .leave =>
    { s with
      committer := none
      log := endCommit s.log
      commits := s.cur :: s.commits
      cur := ⟨[], [], [], []⟩ }

/-- A process calls `log_write` and `end_op` only between its `begin_op` and its
    `end_op`, and does nothing else while it commits. -/
def step (s : Sys) : Act → Outcome Panic Sys
  | .beginOp p =>
    if p ∈ s.inOp ∨ s.committer.map Prod.fst = some p then .blocked
    else match beginOp s.log with
      | none => .blocked
      | some l => .done { s with
          log := l
          inOp := insert p s.inOp
          opOf := fun q => if q = p then s.nextOp else s.opOf q
          nextOp := s.nextOp + 1
          cur := { s.cur with began := s.nextOp :: s.cur.began } }
  | .logWrite p b =>
    if p ∈ s.inOp then
      match logWrite s.log b with
      | .error e => .fail e
      | .ok (l, _) => .done { s with log := l, writes := (s.opOf p, b) :: s.writes }
    else .blocked
  | .endOp p =>
    if p ∈ s.inOp then
      match endOp s.log with
      | .error e => .fail e
      | .ok (l, doCommit) => .done { s with
          log := l
          inOp := s.inOp.erase p
          committer := if doCommit then some (p, .check) else s.committer
          cur := { s.cur with ended := s.opOf p :: s.cur.ended } }
    else .blocked
  | .commit =>
    match s.committer with
    | none => .blocked
    | some (p, pc) => .done (commitStep s p pc)

/-! ### What the locked sections do -/

theorem beginOp_eq_some {l l' : LogState} : beginOp l = some l' ↔
    l.committing = false ∧
    (l.lh.length : Int) + (l.outstanding + 1) * MAXOPBLOCKS ≤ LOGBLOCKS ∧
    l' = { l with outstanding := l.outstanding + 1 } := by
  unfold beginOp
  cases hc : l.committing with
  | true => simp
  | false =>
    split
    · rename_i hfalse
      exact absurd hfalse (by simp)
    · split
      · rename_i hfull
        simp only [reduceCtorEq, false_iff, not_and]
        intro _ hle
        omega
      · rename_i hroom
        simp only [Option.some.injEq, true_and]
        exact ⟨fun h => ⟨by omega, h.symm⟩, fun h => h.2.symm⟩

theorem set_findIdx_self {lh : List Nat} {b : Nat} (h : b ∈ lh) :
    lh.set (lh.findIdx (· == b)) b = lh := by
  have hlt : lh.findIdx (· == b) < lh.length := List.findIdx_lt_length_of_exists ⟨b, h, by simp⟩
  have hget : lh[lh.findIdx (· == b)] = b :=
    eq_of_beq (@List.findIdx_getElem _ (· == b) lh hlt)
  calc lh.set (lh.findIdx (· == b)) b
      = lh.set (lh.findIdx (· == b)) lh[lh.findIdx (· == b)] := by rw [hget]
    _ = lh := List.set_getElem_self hlt

theorem findIdx_eq_length {lh : List Nat} {b : Nat} :
    lh.findIdx (· == b) = lh.length ↔ b ∉ lh := by
  rw [List.findIdx_eq_length]
  constructor
  · intro h hb
    exact absurd (h b hb) (by simp)
  · intro h x hx
    have hne : x ≠ b := fun heq => h (heq ▸ hx)
    simpa using hne

/-- **`log_write`.**  It goes through when the log is not full and some operation is
    running; a block that is already logged is absorbed, any other one is appended. -/
theorem logWrite_eq_ok {l l' : LogState} {b : Nat} {new : Bool} :
    logWrite l b = .ok (l', new) ↔
      l.lh.length < LOGBLOCKS ∧ 1 ≤ l.outstanding ∧
      ((b ∈ l.lh ∧ l' = l ∧ new = false) ∨
        (b ∉ l.lh ∧ l' = { l with lh := l.lh ++ [b] } ∧ new = true)) := by
  unfold logWrite
  split
  · rename_i hfull
    simp only [reduceCtorEq, false_iff, not_and]
    intro hlt
    omega
  · rename_i hroom
    split
    · rename_i hout
      simp only [reduceCtorEq, false_iff, not_and]
      intro _ hone
      omega
    · rename_i hout
      have hguard : l.lh.length < LOGBLOCKS ∧ 1 ≤ l.outstanding := ⟨by omega, by omega⟩
      simp only [findIdx_eq_length]
      by_cases hb : b ∈ l.lh
      · rw [if_neg (not_not.mpr hb), set_findIdx_self hb]
        change Except.ok (l, false) = _ ↔ _
        simp [hguard, hb, eq_comm]
      · rw [if_pos hb]
        simp [hguard, hb, eq_comm]

theorem logWrite_eq_error {l : LogState} {b : Nat} {e : Panic} :
    logWrite l b = .error e ↔
      (LOGBLOCKS ≤ l.lh.length ∧ e = .tooBigATransaction) ∨
      (l.lh.length < LOGBLOCKS ∧ l.outstanding < 1 ∧ e = .logWriteOutsideOfTrans) := by
  unfold logWrite
  split
  · rename_i hfull
    have hnot : ¬ l.lh.length < LOGBLOCKS := by omega
    simp [hnot, show LOGBLOCKS ≤ l.lh.length from hfull, eq_comm]
  · rename_i hroom
    have hlt : l.lh.length < LOGBLOCKS := by omega
    split
    · rename_i hout
      simp [hlt, hout, eq_comm, Nat.not_le.mpr hlt]
    · rename_i hout
      simp only []
      split <;> simp [hout, Nat.not_le.mpr hlt]

theorem endOp_eq_ok {l l' : LogState} {doCommit : Bool} :
    endOp l = .ok (l', doCommit) ↔
      l.committing = false ∧
      ((l.outstanding = 1 ∧ doCommit = true ∧
          l' = { l with outstanding := 0, committing := true }) ∨
        (l.outstanding ≠ 1 ∧ doCommit = false ∧
          l' = { l with outstanding := l.outstanding - 1 })) := by
  unfold endOp
  cases hc : l.committing with
  | true => simp
  | false =>
    have hone : l.outstanding - 1 = 0 ↔ l.outstanding = 1 := by omega
    simp only [Bool.false_eq_true, if_false, hone, true_and]
    by_cases h1 : l.outstanding = 1
    · simp [h1, and_comm, eq_comm]
    · simp [h1, and_comm, eq_comm]

theorem endOp_eq_error {l : LogState} {e : Panic} (h : endOp l = .error e) :
    l.committing = true := by
  unfold endOp at h
  by_contra hc
  simp only [Bool.not_eq_true] at hc
  simp only [hc, Bool.false_eq_true, if_false] at h
  split at h <;> exact absurd h (by simp)

/-! ### What a step of the system does -/

theorem step_beginOp {s s' : Sys} {p : Pid} (h : step s (.beginOp p) = .done s') :
    p ∉ s.inOp ∧ s.log.committing = false ∧
    (s.log.lh.length : Int) + (s.log.outstanding + 1) * MAXOPBLOCKS ≤ LOGBLOCKS ∧
    s' = { s with
      log := { s.log with outstanding := s.log.outstanding + 1 }
      inOp := insert p s.inOp
      opOf := fun q => if q = p then s.nextOp else s.opOf q
      nextOp := s.nextOp + 1
      cur := { s.cur with began := s.nextOp :: s.cur.began } } := by
  simp only [step] at h
  split at h
  · exact absurd h (by simp)
  rename_i hp
  cases hb : beginOp s.log with
  | none => rw [hb] at h; exact absurd h (by simp)
  | some l =>
    rw [hb] at h
    obtain ⟨hc, hroom, rfl⟩ := beginOp_eq_some.mp hb
    exact ⟨fun hmem => hp (Or.inl hmem), hc, hroom, (Outcome.done.inj h).symm⟩

theorem step_logWrite {s s' : Sys} {p : Pid} {b : Nat} (h : step s (.logWrite p b) = .done s') :
    p ∈ s.inOp ∧ ∃ l new, logWrite s.log b = .ok (l, new) ∧
      s' = { s with log := l, writes := (s.opOf p, b) :: s.writes } := by
  simp only [step] at h
  split at h
  case isFalse => exact absurd h (by simp)
  rename_i hp
  cases hw : logWrite s.log b with
  | error e => rw [hw] at h; exact absurd h (by simp)
  | ok r =>
    rw [hw] at h
    exact ⟨hp, r.1, r.2, rfl, (Outcome.done.inj h).symm⟩

theorem step_endOp {s s' : Sys} {p : Pid} (h : step s (.endOp p) = .done s') :
    p ∈ s.inOp ∧ ∃ l doCommit, endOp s.log = .ok (l, doCommit) ∧
      s' = { s with
        log := l
        inOp := s.inOp.erase p
        committer := if doCommit = true then some (p, .check) else s.committer
        cur := { s.cur with ended := s.opOf p :: s.cur.ended } } := by
  simp only [step] at h
  split at h
  case isFalse => exact absurd h (by simp)
  rename_i hp
  cases hw : endOp s.log with
  | error e => rw [hw] at h; exact absurd h (by simp)
  | ok r =>
    rw [hw] at h
    exact ⟨hp, r.1, r.2, rfl, (Outcome.done.inj h).symm⟩

theorem step_commit {s s' : Sys} (h : step s .commit = .done s') :
    ∃ p pc, s.committer = some (p, pc) ∧ s' = commitStep s p pc := by
  simp only [step] at h
  cases hpc : s.committer with
  | none => rw [hpc] at h; exact absurd h (by simp)
  | some c =>
    rw [hpc] at h
    exact ⟨c.1, c.2, rfl, (Outcome.done.inj h).symm⟩

theorem step_fail {s : Sys} {a : Act} {e : Panic} (h : step s a = .fail e) :
    (∃ p b, a = .logWrite p b ∧ p ∈ s.inOp ∧ logWrite s.log b = .error e) ∨
    (∃ p, a = .endOp p ∧ p ∈ s.inOp ∧ endOp s.log = .error e) := by
  cases a with
  | beginOp p =>
    simp only [step] at h
    split at h
    · exact absurd h (by simp)
    · split at h <;> exact absurd h (by simp)
  | logWrite p b =>
    simp only [step] at h
    split at h
    case isFalse => exact absurd h (by simp)
    rename_i hp
    cases hw : logWrite s.log b with
    | error e' => rw [hw] at h; exact Or.inl ⟨p, b, rfl, hp, Outcome.fail.inj h ▸ hw⟩
    | ok r => rw [hw] at h; exact absurd h (by simp)
  | endOp p =>
    simp only [step] at h
    split at h
    case isFalse => exact absurd h (by simp)
    rename_i hp
    cases hw : endOp s.log with
    | error e' => rw [hw] at h; exact Or.inr ⟨p, rfl, hp, Outcome.fail.inj h ▸ rfl⟩
    | ok r => rw [hw] at h; exact absurd h (by simp)
  | commit =>
    simp only [step] at h
    split at h <;> exact absurd h (by simp)

/-! ### The invariant of the system -/

/-- Block `b` was `log_write`'d by an operation that began since the last commit. -/
def Sys.Written (s : Sys) (b : Nat) : Prop := ∃ id ∈ s.cur.began, (id, b) ∈ s.writes

/-- The operations of the current group and of every commit so far. -/
def Sys.allBegan (s : Sys) : List OpId :=
  s.cur.began ++ s.commits.flatMap CommitRecord.began

/-- A commit wrote, to the log and home, exactly the blocks that its operations
    `log_write`'d, and these had all ended. -/
structure CommitRecord.Whole (writes : List (OpId × Nat)) (c : CommitRecord) : Prop where
  ended : ∀ id, id ∈ c.began ↔ id ∈ c.ended
  logged : ∀ b, b ∈ c.logged ↔ ∃ id ∈ c.began, (id, b) ∈ writes
  homes : ∀ b, b ∈ c.homes ↔ ∃ id ∈ c.began, (id, b) ∈ writes

/-- How far the running commit has got with the blocks of `lh`. -/
def Sys.Progress (s : Sys) : Prop :=
  match s.committer.map Prod.snd with
  | none | some .check => s.cur.logged = [] ∧ s.cur.homes = []
  | some (.writeLog tail) => s.cur.logged = s.log.lh.take tail ∧ s.cur.homes = []
  | some .writeHead => s.cur.logged = s.log.lh ∧ s.cur.homes = []
  | some (.install tail) => s.cur.logged = s.log.lh ∧ s.cur.homes = s.log.lh.take tail
  | some .clear => s.cur.logged = s.log.lh ∧ s.cur.homes = s.log.lh
  | some .eraseHead | some .leave =>
    (∀ b, b ∈ s.cur.logged ↔ s.Written b) ∧ (∀ b, b ∈ s.cur.homes ↔ s.Written b)

/-- `commit()` has reset `lh.n`. -/
def CommitPc.cleared : CommitPc → Bool
  | .eraseHead | .leave => true
  | _ => false

structure Inv (s : Sys) : Prop where
  committing : s.log.committing = s.committer.isSome
  alone : s.committer.isSome → s.inOp = ∅
  outstanding : s.log.outstanding = s.inOp.card
  idle : s.inOp = ∅ → s.committer = none → s.log.lh = []
  nodup : s.log.lh.Nodup
  length_le : s.log.lh.length ≤ LOGBLOCKS
  active : ∀ p ∈ s.inOp, s.opOf p ∈ s.cur.began
  ended : ∀ id, id ∈ s.cur.began ↔ id ∈ s.cur.ended ∨ ∃ p ∈ s.inOp, s.opOf p = id
  began_nodup : s.allBegan.Nodup
  began_lt : ∀ id ∈ s.allBegan, id < s.nextOp
  writes_began : ∀ w ∈ s.writes, w.1 ∈ s.allBegan
  lh_cleared : ∀ p pc, s.committer = some (p, pc) → pc.cleared = true → s.log.lh = []
  lh_written : (∀ p pc, s.committer = some (p, pc) → pc.cleared = false) →
    ∀ b, b ∈ s.log.lh ↔ s.Written b
  progress : s.Progress
  whole : ∀ c ∈ s.commits, c.Whole s.writes

theorem inv_init : Inv Sys.init := by
  constructor <;> simp [Sys.init, LogState.init, Sys.allBegan, Sys.Progress, Sys.Written]

theorem Inv.committer_none {s : Sys} (h : Inv s) (hc : s.log.committing = false) :
    s.committer = none := by
  have hsome := h.committing
  rw [hc] at hsome
  exact Option.isNone_iff_eq_none.mp (by simpa using hsome.symm)

theorem Inv.not_committing {s : Sys} (h : Inv s) {p : Pid} (hp : p ∈ s.inOp) :
    s.committer = none := by
  cases hcom : s.committer with
  | none => rfl
  | some c =>
    have hempty := h.alone (by rw [hcom]; rfl)
    rw [hempty] at hp
    exact absurd hp (Finset.notMem_empty p)

theorem Inv.nextOp_fresh {s : Sys} (h : Inv s) : s.nextOp ∉ s.allBegan ∧
    ∀ b, (s.nextOp, b) ∉ s.writes := by
  have hnot : s.nextOp ∉ s.allBegan := fun hmem => Nat.lt_irrefl _ (h.began_lt _ hmem)
  exact ⟨hnot, fun b hb => hnot (h.writes_began _ hb)⟩

theorem inv_beginOp {s s' : Sys} {p : Pid} (h : Inv s)
    (hs : step s (.beginOp p) = .done s') : Inv s' := by
  obtain ⟨hpn, hc, _, rfl⟩ := step_beginOp hs
  have hnone := h.committer_none hc
  obtain ⟨hfresh, hnowrite⟩ := h.nextOp_fresh
  have hother : ∀ q ∈ s.inOp, (if q = p then s.nextOp else s.opOf q) = s.opOf q := by
    intro q hq
    have hne : q ≠ p := fun heq => hpn (heq ▸ hq)
    exact if_neg hne
  -- the new operation has written nothing, so `Written` is as before
  have hwritten : ∀ b, (∃ id ∈ s.nextOp :: s.cur.began, (id, b) ∈ s.writes) ↔ s.Written b := by
    intro b
    constructor
    · rintro ⟨id, hid, hw⟩
      rcases List.mem_cons.mp hid with rfl | hid
      · exact absurd hw (hnowrite b)
      · exact ⟨id, hid, hw⟩
    · rintro ⟨id, hid, hw⟩
      exact ⟨id, List.mem_cons_of_mem _ hid, hw⟩
  constructor
  case committing => exact h.committing
  case alone => intro hsome; rw [hnone] at hsome; exact absurd hsome (by simp)
  case outstanding =>
    rw [Finset.card_insert_of_notMem hpn, Nat.cast_succ, ← h.outstanding]
  case idle => intro hempty; exact absurd hempty (Finset.insert_ne_empty p s.inOp)
  case nodup => exact h.nodup
  case length_le => exact h.length_le
  case active =>
    intro q hq
    rcases Finset.mem_insert.mp hq with rfl | hq
    · simp
    · show (if q = p then s.nextOp else s.opOf q) ∈ _
      rw [hother q hq]
      exact List.mem_cons_of_mem _ (h.active q hq)
  case ended =>
    intro id
    rw [List.mem_cons, h.ended id]
    constructor
    · rintro (rfl | hend | ⟨q, hq, rfl⟩)
      · exact Or.inr ⟨p, Finset.mem_insert_self .., if_pos rfl⟩
      · exact Or.inl hend
      · exact Or.inr ⟨q, Finset.mem_insert_of_mem hq, hother q hq⟩
    · rintro (hend | ⟨q, hq, hid⟩)
      · exact Or.inr (Or.inl hend)
      · rcases Finset.mem_insert.mp hq with rfl | hq
        · exact Or.inl (hid.symm.trans (if_pos rfl))
        · exact Or.inr (Or.inr ⟨q, hq, (hother q hq).symm.trans hid⟩)
  case began_nodup => exact List.nodup_cons.mpr ⟨hfresh, h.began_nodup⟩
  case began_lt =>
    intro id hid
    rcases List.mem_cons.mp hid with rfl | hid
    · exact Nat.lt_succ_self _
    · exact Nat.lt_succ_of_lt (h.began_lt id hid)
  case writes_began => exact fun w hw => List.mem_cons_of_mem _ (h.writes_began w hw)
  case lh_cleared => exact h.lh_cleared
  case lh_written => exact fun hclr b => (h.lh_written hclr b).trans (hwritten b).symm
  case progress =>
    have hprog := h.progress
    simp only [Sys.Progress, hnone, Option.map_none] at hprog ⊢
    exact hprog
  case whole => exact h.whole

theorem inv_logWrite {s s' : Sys} {p : Pid} {b : Nat} (h : Inv s)
    (hs : step s (.logWrite p b) = .done s') : Inv s' := by
  obtain ⟨hp, l, new, hw, rfl⟩ := step_logWrite hs
  obtain ⟨hroom, _, hcase⟩ := logWrite_eq_ok.mp hw
  have hnone := h.not_committing hp
  have hid := h.active p hp
  have hidall : s.opOf p ∈ s.allBegan := List.mem_append_left _ hid
  -- either way `b` is now in the log and nothing else changed there
  have hl : l.outstanding = s.log.outstanding ∧ l.committing = s.log.committing ∧
      l.lh.Nodup ∧ l.lh.length ≤ LOGBLOCKS ∧ ∀ x, x ∈ l.lh ↔ x ∈ s.log.lh ∨ x = b := by
    rcases hcase with ⟨hb, rfl, _⟩ | ⟨hb, rfl, _⟩
    · refine ⟨rfl, rfl, h.nodup, h.length_le, fun x => ⟨Or.inl, ?_⟩⟩
      rintro (hx | rfl)
      · exact hx
      · exact hb
    · refine ⟨rfl, rfl, ?_, ?_, fun x => by simp⟩
      · exact List.nodup_append.mpr ⟨h.nodup, by simp, by
          intro x hx y hy heq
          simp only [List.mem_singleton] at hy
          exact hb (hy ▸ heq ▸ hx)⟩
      · simp only [List.length_append, List.length_singleton]
        omega
  obtain ⟨hlout, hlcom, hlnodup, hllen, hlmem⟩ := hl
  have hwritten : ∀ x, (∃ id ∈ s.cur.began, (id, x) ∈ (s.opOf p, b) :: s.writes) ↔
      s.Written x ∨ x = b := by
    intro x
    constructor
    · rintro ⟨id, hidb, hmem⟩
      rcases List.mem_cons.mp hmem with heq | hmem
      · exact Or.inr (congrArg Prod.snd heq)
      · exact Or.inl ⟨id, hidb, hmem⟩
    · rintro (⟨id, hidb, hmem⟩ | rfl)
      · exact ⟨id, hidb, List.mem_cons_of_mem _ hmem⟩
      · exact ⟨s.opOf p, hid, List.mem_cons_self ..⟩
  constructor
  case committing => exact hlcom.trans h.committing
  case alone => exact h.alone
  case outstanding => exact hlout.trans h.outstanding
  case idle => intro hempty; rw [hempty] at hp; exact absurd hp (Finset.notMem_empty p)
  case nodup => exact hlnodup
  case length_le => exact hllen
  case active => exact h.active
  case ended => exact h.ended
  case began_nodup => exact h.began_nodup
  case began_lt => exact h.began_lt
  case writes_began =>
    intro w hw'
    rcases List.mem_cons.mp hw' with rfl | hw'
    · exact hidall
    · exact h.writes_began w hw'
  case lh_cleared =>
    intro q pc hq
    exact absurd (hnone.symm.trans hq) (by simp)
  case lh_written =>
    intro _ x
    have hbefore := h.lh_written (fun q pc hq => absurd (hnone.symm.trans hq) (by simp)) x
    exact ((hlmem x).trans (or_congr_left hbefore)).trans (hwritten x).symm
  case progress =>
    have hprog := h.progress
    simp only [Sys.Progress, hnone, Option.map_none] at hprog ⊢
    exact hprog
  case whole =>
    intro c hc
    -- the writing operation is not one of an earlier commit
    have hnotc : s.opOf p ∉ c.began := by
      intro hmem
      have hdisj := (List.nodup_append.mp h.began_nodup).2.2
      exact hdisj _ hid _ (List.mem_flatMap.mpr ⟨c, hc, hmem⟩) rfl
    have hsame : ∀ x, (∃ id ∈ c.began, (id, x) ∈ (s.opOf p, b) :: s.writes) ↔
        ∃ id ∈ c.began, (id, x) ∈ s.writes := by
      intro x
      constructor
      · rintro ⟨id, hidc, hmem⟩
        rcases List.mem_cons.mp hmem with heq | hmem
        · have hfst : id = s.opOf p := congrArg Prod.fst heq
          exact absurd (hfst ▸ hidc) hnotc
        · exact ⟨id, hidc, hmem⟩
      · rintro ⟨id, hidc, hmem⟩
        exact ⟨id, hidc, List.mem_cons_of_mem _ hmem⟩
    have hold := h.whole c hc
    exact ⟨hold.ended, fun x => (hold.logged x).trans (hsame x).symm,
      fun x => (hold.homes x).trans (hsame x).symm⟩

theorem inv_endOp {s s' : Sys} {p : Pid} (h : Inv s)
    (hs : step s (.endOp p) = .done s') : Inv s' := by
  obtain ⟨hp, l, doCommit, hw, rfl⟩ := step_endOp hs
  obtain ⟨hc, hcase⟩ := endOp_eq_ok.mp hw
  have hnone := h.not_committing hp
  have hcard : (s.inOp.erase p).card = s.inOp.card - 1 := Finset.card_erase_of_mem hp
  have hpos : 0 < s.inOp.card := Finset.card_pos.mpr ⟨p, hp⟩
  have hout := h.outstanding
  -- the last operation of the group starts the commit, and only it does
  have hl : l.lh = s.log.lh ∧ l.outstanding = (s.inOp.erase p).card ∧
      l.committing = doCommit ∧ (doCommit = true ↔ s.inOp.erase p = ∅) := by
    rw [← Finset.card_eq_zero, hcard]
    rcases hcase with ⟨h1, rfl, rfl⟩ | ⟨h1, rfl, rfl⟩
    · refine ⟨rfl, ?_, rfl, by simp; omega⟩
      show (0 : Int) = _
      omega
    · refine ⟨rfl, ?_, hc, by simp; omega⟩
      show s.log.outstanding - 1 = _
      omega
  obtain ⟨hllh, hlout, hlcom, hdo⟩ := hl
  have hcommitter : ∀ q pc, (if doCommit = true then some (p, CommitPc.check) else s.committer) =
      some (q, pc) → pc = .check := by
    intro q pc hq
    split at hq
    · exact ((Prod.mk.inj (Option.some.inj hq)).2).symm
    · exact absurd (hnone.symm.trans hq) (by simp)
  constructor
  case committing => cases doCommit <;> simp [hlcom, hnone]
  case alone =>
    intro hsome
    cases hd : doCommit with
    | true => exact hdo.mp hd
    | false => simp [hd, hnone] at hsome
  case outstanding => exact hlout
  case idle =>
    intro hempty hno
    have hd := hdo.mpr hempty
    simp [hd] at hno
  case nodup => exact hllh ▸ h.nodup
  case length_le => exact hllh ▸ h.length_le
  case active => exact fun q hq => h.active q (Finset.mem_of_mem_erase hq)
  case ended =>
    intro id
    rw [h.ended id]
    constructor
    · rintro (hend | ⟨q, hq, rfl⟩)
      · exact Or.inl (List.mem_cons_of_mem _ hend)
      · by_cases hqp : q = p
        · exact Or.inl (by simp [hqp])
        · exact Or.inr ⟨q, Finset.mem_erase.mpr ⟨hqp, hq⟩, rfl⟩
    · rintro (hend | ⟨q, hq, rfl⟩)
      · rcases List.mem_cons.mp hend with rfl | hend
        · exact Or.inr ⟨p, hp, rfl⟩
        · exact Or.inl hend
      · exact Or.inr ⟨q, Finset.mem_of_mem_erase hq, rfl⟩
  case began_nodup => exact h.began_nodup
  case began_lt => exact h.began_lt
  case writes_began => exact h.writes_began
  case lh_cleared =>
    intro q pc hq hclr
    rw [hcommitter q pc hq] at hclr
    exact absurd hclr (by decide)
  case lh_written =>
    intro _ x
    show x ∈ l.lh ↔ _
    rw [hllh]
    exact h.lh_written (fun q pc hq => absurd (hnone.symm.trans hq) (by simp)) x
  case progress =>
    have hprog := h.progress
    simp only [Sys.Progress, hnone, Option.map_none] at hprog
    cases doCommit <;> simp only [Sys.Progress, hnone, Option.map_none, if_true, if_false,
      Bool.false_eq_true, Option.map_some] <;> exact hprog
  case whole => exact h.whole

/-- A step inside `commit()` that touches only the committer's position and the lists of
    blocks written so far keeps everything but the progress clause. -/
theorem Inv.advance {s : Sys} {p : Pid} {pc pc' : CommitPc} {logged homes : List Nat}
    (h : Inv s) (hpc : s.committer = some (p, pc))
    (hclr : pc'.cleared = true → s.log.lh = [])
    (hwritten : pc'.cleared = false → pc.cleared = false)
    (hprog : Sys.Progress { s with
      committer := some (p, pc')
      cur := { s.cur with logged := logged, homes := homes } }) :
    Inv { s with
      committer := some (p, pc')
      cur := { s.cur with logged := logged, homes := homes } } := by
  constructor
  case committing => rw [h.committing, hpc]; rfl
  case alone => exact fun _ => h.alone (by rw [hpc]; rfl)
  case outstanding => exact h.outstanding
  case idle => intro _ hno; exact absurd hno (by simp)
  case nodup => exact h.nodup
  case length_le => exact h.length_le
  case active => exact h.active
  case ended => exact h.ended
  case began_nodup => exact h.began_nodup
  case began_lt => exact h.began_lt
  case writes_began => exact h.writes_began
  case lh_cleared =>
    intro q pc'' hq hc
    obtain ⟨-, rfl⟩ := Prod.mk.inj (Option.some.inj hq)
    exact hclr hc
  case lh_written =>
    intro hall
    refine h.lh_written fun q pc'' hq => ?_
    obtain ⟨-, rfl⟩ := Prod.mk.inj (Option.some.inj (hpc.symm.trans hq))
    exact hwritten (hall p pc' rfl)
  case progress => exact hprog
  case whole => exact h.whole

theorem take_succ_getD {lh : List Nat} {t : Nat} (ht : t < lh.length) :
    lh.take t ++ [lh.getD t 0] = lh.take (t + 1) := by
  rw [List.take_succ_eq_append_getElem ht]
  simp [List.getD, ht]

/-- `log.lh.n = 0`: what the commit wrote is the group's blocks, as `lh` just said. -/
theorem Inv.clear {s : Sys} {p : Pid} (h : Inv s) (hpc : s.committer = some (p, .clear)) :
    Inv { s with committer := some (p, .eraseHead), log := { s.log with lh := [] } } := by
  have hprog := h.progress
  simp only [Sys.Progress, hpc, Option.map_some] at hprog
  have hlh : ∀ b, b ∈ s.log.lh ↔ s.Written b := by
    refine h.lh_written fun q pc hq => ?_
    obtain ⟨-, rfl⟩ := Prod.mk.inj (Option.some.inj (hpc.symm.trans hq))
    rfl
  constructor
  case committing => exact h.committing.trans (by rw [hpc]; rfl)
  case alone => exact fun _ => h.alone (by rw [hpc]; rfl)
  case outstanding => exact h.outstanding
  case idle => intro _ _; rfl
  case nodup => exact List.nodup_nil
  case length_le => exact Nat.zero_le _
  case active => exact h.active
  case ended => exact h.ended
  case began_nodup => exact h.began_nodup
  case began_lt => exact h.began_lt
  case writes_began => exact h.writes_began
  case lh_cleared => intro _ _ _ _; rfl
  case lh_written => intro hall; exact absurd (hall p .eraseHead rfl) (by decide)
  case progress =>
    exact ⟨fun b => hprog.1 ▸ hlh b, fun b => hprog.2 ▸ hlh b⟩
  case whole => exact h.whole

theorem Inv.leave {s : Sys} {p : Pid} (h : Inv s) (hpc : s.committer = some (p, .leave)) :
    Inv (commitStep s p .leave) := by
  have hprog := h.progress
  simp only [Sys.Progress, hpc, Option.map_some] at hprog
  have hempty : s.inOp = ∅ := h.alone (by rw [hpc]; rfl)
  have hlh : s.log.lh = [] := h.lh_cleared p .leave hpc rfl
  have hwhole : s.cur.Whole s.writes := by
    refine ⟨fun id => ?_, hprog.1, hprog.2⟩
    rw [h.ended id, hempty]
    simp
  have hall : (commitStep s p .leave).allBegan = s.allBegan := by
    simp [commitStep, Sys.allBegan]
  constructor
  case committing => rfl
  case alone => intro hsome; exact absurd hsome (by simp [commitStep])
  case outstanding => exact h.outstanding
  case idle => intro _ _; exact hlh
  case nodup => exact h.nodup
  case length_le => exact h.length_le
  case active => intro q hq; rw [show (commitStep s p .leave).inOp = ∅ from hempty] at hq; simp at hq
  case ended =>
    intro id
    simp [commitStep, hempty]
  case began_nodup => rw [hall]; exact h.began_nodup
  case began_lt => rw [hall]; exact h.began_lt
  case writes_began => rw [hall]; exact h.writes_began
  case lh_cleared => intro q pc hq; exact absurd hq (by simp [commitStep])
  case lh_written =>
    intro _ b
    simp [commitStep, endCommit, hlh, Sys.Written]
  case progress => simp [Sys.Progress, commitStep]
  case whole =>
    intro c hc
    rcases List.mem_cons.mp hc with rfl | hc
    · exact hwhole
    · exact h.whole c hc

theorem inv_commitStep {s : Sys} {p : Pid} {pc : CommitPc} (h : Inv s)
    (hpc : s.committer = some (p, pc)) : Inv (commitStep s p pc) := by
  have hprog := h.progress
  simp only [Sys.Progress, hpc, Option.map_some] at hprog
  cases pc with
  | check =>
    rcases Nat.eq_zero_or_pos s.log.lh.length with hn | hn
    · -- an empty group goes straight back to `end_op`
      have hlh : s.log.lh = [] := List.length_eq_zero_iff.mp hn
      have hnone : ∀ b, ¬ s.Written b := by
        intro b hw
        have hmem := (h.lh_written (fun q pc hq => by
          obtain ⟨-, rfl⟩ := Prod.mk.inj (Option.some.inj (hpc.symm.trans hq))
          rfl) b).mpr hw
        rw [hlh] at hmem
        exact absurd hmem (by simp)
      have hstep : commitStep s p .check = { s with committer := some (p, .leave) } := by
        simp [commitStep, hlh]
      rw [hstep]
      refine h.advance hpc (fun _ => hlh) (fun _ => rfl) ?_
      refine ⟨fun b => ?_, fun b => ?_⟩
      · exact iff_of_false (by simp [hprog.1]) (hnone b)
      · exact iff_of_false (by simp [hprog.2]) (hnone b)
    · have hstep : commitStep s p .check = { s with committer := some (p, .writeLog 0) } := by
        simp [commitStep, hn]
      rw [hstep]
      exact h.advance hpc (by simp [CommitPc.cleared]) (fun _ => rfl) ⟨hprog.1, hprog.2⟩
  | writeLog t =>
    by_cases ht : t < s.log.lh.length
    · simp only [commitStep, if_pos ht]
      refine h.advance hpc (by simp [CommitPc.cleared]) (fun _ => rfl) ⟨?_, hprog.2⟩
      show s.cur.logged ++ _ = _
      rw [hprog.1, take_succ_getD ht]
    · simp only [commitStep, if_neg ht]
      refine h.advance hpc (by simp [CommitPc.cleared]) (fun _ => rfl) ⟨?_, hprog.2⟩
      show s.cur.logged = s.log.lh
      rw [hprog.1, List.take_of_length_le (by omega)]
  | writeHead =>
    exact h.advance hpc (by simp [CommitPc.cleared]) (fun _ => rfl) ⟨hprog.1, hprog.2⟩
  | install t =>
    by_cases ht : t < s.log.lh.length
    · simp only [commitStep, if_pos ht]
      refine h.advance hpc (by simp [CommitPc.cleared]) (fun _ => rfl) ⟨hprog.1, ?_⟩
      show s.cur.homes ++ _ = _
      rw [hprog.2, take_succ_getD ht]
    · simp only [commitStep, if_neg ht]
      refine h.advance hpc (by simp [CommitPc.cleared]) (fun _ => rfl) ⟨hprog.1, ?_⟩
      show s.cur.homes = s.log.lh
      rw [hprog.2, List.take_of_length_le (by omega)]
  | clear => exact h.clear hpc
  | eraseHead =>
    exact h.advance hpc (fun _ => h.lh_cleared p _ hpc rfl) (by simp [CommitPc.cleared])
      ⟨hprog.1, hprog.2⟩
  | leave => exact h.leave hpc

/-- **One step keeps the invariant.** -/
theorem inv_step {s s' : Sys} {a : Act} (h : Inv s) (hs : step s a = .done s') : Inv s' := by
  cases a with
  | beginOp p => exact inv_beginOp h hs
  | logWrite p b => exact inv_logWrite h hs
  | endOp p => exact inv_endOp h hs
  | commit =>
    obtain ⟨p, pc, hpc, rfl⟩ := step_commit hs
    exact inv_commitStep h hpc

/-- The states that any interleaving of the processes reaches. -/
abbrev ReachableSys : Sys → Prop := Reachable Sys.init step (fun _ _ => True)

theorem inv_of_reachable {allowed : Sys → Act → Prop} {s : Sys}
    (h : Reachable Sys.init step allowed s) : Inv s :=
  h.invariant inv_init fun _ hinv _ hs => inv_step hinv hs

/-- `panic("log.committing")` needs an operation that ends during a commit. -/
theorem Inv.not_logCommitting {s : Sys} (h : Inv s) (a : Act) :
    step s a ≠ .fail .logCommitting := by
  intro hfail
  rcases step_fail hfail with ⟨p, b, rfl, _, hw⟩ | ⟨p, rfl, hp, hw⟩
  · rcases logWrite_eq_error.mp hw with ⟨_, he⟩ | ⟨_, _, he⟩ <;> exact absurd he (by simp)
  · have hcom := h.committing
    rw [endOp_eq_error hw, h.not_committing hp] at hcom
    exact absurd hcom (by simp)

/-- **Group commit never splits an operation.**  In every state of every interleaving a
    commit runs alone, `outstanding` counts the running operations, the log is empty when
    nothing runs, its entries are distinct and fit, `panic("log.committing")` is out of
    reach, and each operation belongs to one group, whose commit writes exactly the
    blocks that the operations of the group `log_write`, all of them ended. -/
theorem group_commit_never_splits {s : Sys} (h : ReachableSys s) :
    (s.log.committing = true → s.log.outstanding = 0) ∧
    s.log.outstanding = s.inOp.card ∧
    (s.log.outstanding = 0 → s.log.committing = false → s.log.lh = []) ∧
    s.log.lh.Nodup ∧ s.log.lh.length ≤ LOGBLOCKS ∧
    (∀ a, step s a ≠ .fail .logCommitting) ∧
    (∀ c ∈ s.commits, c.Whole s.writes) ∧
    (s.cur.began ++ s.commits.flatMap CommitRecord.began).Nodup ∧
    (∀ w ∈ s.writes, w.1 ∈ s.cur.began ∨ ∃ c ∈ s.commits, w.1 ∈ c.began) := by
  have hinv : Inv s := inv_of_reachable h
  refine ⟨fun hc => ?_, hinv.outstanding, fun hout hc => ?_, hinv.nodup, hinv.length_le,
    hinv.not_logCommitting, hinv.whole, hinv.began_nodup, fun w hw => ?_⟩
  · have hempty := hinv.alone (hinv.committing ▸ hc)
    rw [hinv.outstanding, hempty]
    rfl
  · have hcard : s.inOp.card = 0 := by
      have hcount := hinv.outstanding
      omega
    exact hinv.idle (Finset.card_eq_zero.mp hcard) (hinv.committer_none hc)
  · rcases List.mem_append.mp (hinv.writes_began w hw) with hcur | hold
    · exact Or.inl hcur
    · exact Or.inr (List.mem_flatMap.mp hold)

/-- Two overlapping operations that share block 5, and their commit. -/
def overlappingOps : List Act :=
  [.beginOp 0, .beginOp 1, .logWrite 0 5, .endOp 0, .logWrite 1 5, .logWrite 1 6, .endOp 1] ++
    List.replicate 11 .commit

/-- The state after a list of steps that can all be taken. -/
abbrev afterActs (acts : List Act) : Sys := finalState step (fun _ _ => true) Sys.init acts

theorem reachable_afterActs {acts : List Act}
    (h : (run step (fun _ _ => true) Sys.init acts).isSome = true) :
    ReachableSys (afterActs acts) :=
  (reachable_finalState h).mono fun _ _ _ => trivial

theorem group_commit_overlappingOps :
    (afterActs overlappingOps).commits = [⟨[1, 0], [1, 0], [5, 6], [5, 6]⟩] ∧
    ∀ c ∈ (afterActs overlappingOps).commits, c.Whole (afterActs overlappingOps).writes :=
  ⟨by decide, (group_commit_never_splits (reachable_afterActs (by decide))).2.2.2.2.2.2.1⟩

end Xv6.Log
