import Xv6.Log.GroupCommit

/-!
# `sys_sync` is a durability barrier

`sys_sync` of `kernel/log.c` over the system of `Xv6.Log.GroupCommit`.  It reads the log under
`log.lock`, and if an operation or a commit is running it sleeps until `ncommit` has moved by
one.  A process that waits remembers, for the statements only, which operations had ended when
it took the lock; so does the record of the calls that have returned.
-/

namespace Xv6.Log

open Transition Function

/-- `n`, the value of `ncommit` that a call of `sys_sync` has to wait for, if any. -/
def syncTarget (l : LogState) : Option Nat :=
  if l.committing = true ∨ l.outstanding > 0 then some (l.ncommit + 1) else none

structure Waiter where
  n : Nat
  /-- The operations that had ended when the process took the lock. -/
  seen : List OpId
deriving DecidableEq, Repr

structure SyncSys where
  sys : Sys
  waiting : Pid → Option Waiter
  /-- What each call that has returned had seen ended. -/
  returned : List (List OpId)

def SyncSys.init : SyncSys := ⟨Sys.init, fun _ => none, []⟩

inductive SyncAct where
  /-- A step of `begin_op`, `log_write`, `end_op` or `commit()`. -/
  | log (a : Act)
  /-- A process calls `sys_sync`. -/
  | sync (p : Pid)
  /-- A process that sleeps in `sys_sync` runs again. -/
  | wake (p : Pid)
deriving DecidableEq, Repr

def Act.pid (s : Sys) : Act → Option Pid
  | .beginOp p | .logWrite p _ | .endOp p => some p
  | .commit => s.committer.map Prod.fst

/-- The operations whose `end_op` has decremented `outstanding`. -/
def Sys.allEnded (s : Sys) : List OpId :=
  s.cur.ended ++ s.commits.flatMap CommitRecord.ended

/-- A process in `sys_sync` does nothing else, and one that is in an operation does not call
    it. -/
def syncStep (s : SyncSys) : SyncAct → Outcome Panic SyncSys
  | .log a =>
    if ((a.pid s.sys).bind s.waiting).isSome then .blocked
    else do
      let t ← step s.sys a
      return { s with sys := t }
  | .sync p =>
    if p ∈ s.sys.inOp ∨ s.sys.committer.map Prod.fst = some p ∨ (s.waiting p).isSome then .blocked
    else match syncTarget s.sys.log with
      | some n => .done { s with
          waiting := update s.waiting p (some ⟨n, s.sys.allEnded⟩) }
      | none => .done { s with returned := s.sys.allEnded :: s.returned }
  | .wake p =>
    match s.waiting p with
    | none => .blocked
    | some w =>
      if s.sys.log.ncommit < w.n then .done s
      else .done { s with
        waiting := update s.waiting p none
        returned := w.seen :: s.returned }

/-! ### What a step of the log does to the operations that have ended -/

section LogStep

variable {s s' : Sys} {a : Act} {id : OpId}

/-- The operation is one of a completed commit. -/
def Sys.Committed (s : Sys) (id : OpId) : Prop := ∃ c ∈ s.commits, id ∈ c.ended

/-- Inside `commit()` no operation ends; its last step turns the group into a commit. -/
theorem commitStep_cases (s : Sys) (p : Pid) (pc : CommitPc) :
    (pc = .leave ∧ commitStep s p pc = { s with
      committer := none
      log := endCommit s.log
      commits := s.cur :: s.commits
      cur := ⟨[], [], [], []⟩ }) ∨
    (∃ pc', (commitStep s p pc).committer = some (p, pc')) ∧
      (commitStep s p pc).commits = s.commits ∧ (commitStep s p pc).cur.ended = s.cur.ended ∧
      (commitStep s p pc).log.ncommit = s.log.ncommit := by
  cases pc with
  | leave => exact Or.inl ⟨rfl, rfl⟩
  | writeLog tail =>
    refine Or.inr ?_
    simp only [commitStep]
    split <;> exact ⟨⟨_, rfl⟩, rfl, rfl, rfl⟩
  | install tail =>
    refine Or.inr ?_
    simp only [commitStep]
    split <;> exact ⟨⟨_, rfl⟩, rfl, rfl, rfl⟩
  | _ => exact Or.inr ⟨⟨_, rfl⟩, rfl, rfl, rfl⟩

/-- **An ended operation** stays in its group until a commit of the group has completed, and
    `ncommit` moves with that commit. -/
theorem step_ended (h : step s a = .done s') (hid : id ∈ s.cur.ended) :
    s'.Committed id ∨ id ∈ s'.cur.ended ∧ s'.log.ncommit = s.log.ncommit := by
  cases a with
  | beginOp p =>
    obtain ⟨-, -, -, rfl⟩ := step_beginOp h
    exact Or.inr ⟨hid, rfl⟩
  | logWrite p b =>
    obtain ⟨-, l, new, hw, rfl⟩ := step_logWrite h
    refine Or.inr ⟨hid, ?_⟩
    obtain ⟨-, -, ⟨-, rfl, -⟩ | ⟨-, rfl, -⟩⟩ := logWrite_eq_ok.mp hw <;> rfl
  | endOp p =>
    obtain ⟨-, l, doCommit, hw, rfl⟩ := step_endOp h
    refine Or.inr ⟨List.mem_cons_of_mem _ hid, ?_⟩
    obtain ⟨-, ⟨-, -, rfl⟩ | ⟨-, -, rfl⟩⟩ := endOp_eq_ok.mp hw <;> rfl
  | commit =>
    obtain ⟨p, pc, -, rfl⟩ := step_commit h
    obtain ⟨-, hstep⟩ | ⟨-, -, hended, hn⟩ := commitStep_cases s p pc
    · rw [hstep]
      exact Or.inl ⟨s.cur, List.mem_cons_self .., hid⟩
    · exact Or.inr ⟨hended ▸ hid, hn⟩

theorem step_committed (h : step s a = .done s') (hid : s.Committed id) : s'.Committed id := by
  obtain ⟨c, hc, hmem⟩ := hid
  suffices hsub : c ∈ s'.commits from ⟨c, hsub, hmem⟩
  cases a with
  | beginOp p =>
    obtain ⟨-, -, -, rfl⟩ := step_beginOp h
    exact hc
  | logWrite p b =>
    obtain ⟨-, l, new, -, rfl⟩ := step_logWrite h
    exact hc
  | endOp p =>
    obtain ⟨-, l, doCommit, -, rfl⟩ := step_endOp h
    exact hc
  | commit =>
    obtain ⟨p, pc, -, rfl⟩ := step_commit h
    obtain ⟨-, hstep⟩ | ⟨-, hcommits, -, -⟩ := commitStep_cases s p pc
    · rw [hstep]
      exact List.mem_cons_of_mem _ hc
    · rw [hcommits]
      exact hc

/-- When nothing runs, no ended operation waits for its commit. -/
def Sys.Settled (s : Sys) : Prop := s.inOp = ∅ → s.committer = none → s.cur.ended = []

theorem step_settled (hinv : Inv s) (hset : s.Settled) (h : step s a = .done s') :
    s'.Settled := by
  intro hin hcom
  cases a with
  | beginOp p =>
    obtain ⟨-, -, -, rfl⟩ := step_beginOp h
    exact absurd hin (Finset.insert_ne_empty p s.inOp)
  | logWrite p b =>
    obtain ⟨-, l, new, -, rfl⟩ := step_logWrite h
    exact hset hin hcom
  | endOp p =>
    -- the operation that leaves no other behind starts the commit
    have hidle := (inv_step hinv h).outstanding
    obtain ⟨-, l, doCommit, hw, rfl⟩ := step_endOp h
    obtain ⟨-, ⟨-, rfl, -⟩ | ⟨hne, -, rfl⟩⟩ := endOp_eq_ok.mp hw
    · cases hcom
    · have hzero : s.log.outstanding - 1 = 0 := by
        rw [show s.inOp.erase p = ∅ from hin] at hidle
        exact hidle
      omega
  | commit =>
    obtain ⟨p, pc, -, rfl⟩ := step_commit h
    obtain ⟨-, hstep⟩ | ⟨⟨pc', hpc⟩, -⟩ := commitStep_cases s p pc
    · rw [hstep]
    · rw [hpc] at hcom
      cases hcom

end LogStep

/-! ### The barrier -/

/-- A call that waits will have moved past the commit of every operation it saw ended; a call
    that has returned has. -/
structure SyncInv (s : SyncSys) : Prop where
  log : Inv s.sys
  settled : s.sys.Settled
  waiting : ∀ p w, s.waiting p = some w → ∀ id ∈ w.seen,
    s.sys.Committed id ∨ id ∈ s.sys.cur.ended ∧ s.sys.log.ncommit < w.n
  returned : ∀ seen ∈ s.returned, ∀ id ∈ seen, s.sys.Committed id

theorem syncInv_init : SyncInv SyncSys.init :=
  ⟨inv_init, fun _ _ => rfl, nofun, nofun⟩

theorem mem_allEnded {s : Sys} {id : OpId} :
    id ∈ s.allEnded ↔ id ∈ s.cur.ended ∨ s.Committed id := by
  simp [Sys.allEnded, Sys.Committed]

/-- `sys_sync` waits exactly if an operation or a commit is running. -/
theorem syncTarget_eq_none {s : Sys} (h : Inv s) :
    syncTarget s.log = none ↔ s.inOp = ∅ ∧ s.committer = none := by
  have hout := h.outstanding
  have hcard : s.inOp = ∅ ↔ s.inOp.card = 0 := Finset.card_eq_zero.symm
  have hcom : s.log.committing = true ↔ s.committer ≠ none := by
    rw [h.committing, Option.isSome_iff_ne_none]
  simp only [syncTarget, hcom, hcard]
  split
  · rename_i hrun
    simp only [reduceCtorEq, false_iff, not_and]
    intro hzero
    exact hrun.resolve_right (by omega)
  · rename_i hidle
    simp only [true_iff]
    exact ⟨by omega, by_contra fun hne => hidle (Or.inl hne)⟩

theorem syncInv_log {s s' : SyncSys} {a : Act} (h : SyncInv s)
    (hs : syncStep s (.log a) = .done s') : SyncInv s' := by
  simp only [syncStep] at hs
  split at hs
  · cases hs
  obtain ⟨t, ht, hdone⟩ := Outcome.bind_eq_done.mp hs
  obtain rfl := Outcome.done.inj hdone
  refine ⟨inv_step h.log ht, step_settled h.log h.settled ht, fun p w hw id hid => ?_,
    fun seen hseen id hid => step_committed ht (h.returned seen hseen id hid)⟩
  obtain hdone | ⟨hend, hlt⟩ := h.waiting p w hw id hid
  · exact Or.inl (step_committed ht hdone)
  · exact (step_ended ht hend).imp_right fun ⟨hend', hn⟩ => ⟨hend', hn ▸ hlt⟩

theorem syncInv_sync {s s' : SyncSys} {p : Pid} (h : SyncInv s)
    (hs : syncStep s (.sync p) = .done s') : SyncInv s' := by
  simp only [syncStep] at hs
  split at hs
  · cases hs
  split at hs
  · rename_i n hn
    obtain rfl := Outcome.done.inj hs
    refine ⟨h.log, h.settled, fun q w hw id hid => ?_, h.returned⟩
    dsimp only at hw
    by_cases hq : q = p
    · subst hq
      rw [update_self] at hw
      obtain rfl := Option.some.inj hw
      have hval : n = s.sys.log.ncommit + 1 := by
        unfold syncTarget at hn
        split at hn
        · exact (Option.some.inj hn).symm
        · cases hn
      exact (mem_allEnded.mp hid).symm.imp_right fun hend => ⟨hend, by simp [hval]⟩
    · rw [update_of_ne hq] at hw
      exact h.waiting q w hw id hid
  · rename_i hn
    obtain rfl := Outcome.done.inj hs
    refine ⟨h.log, h.settled, h.waiting, fun seen hseen id hid => ?_⟩
    obtain rfl | hseen := List.mem_cons.mp hseen
    · obtain ⟨hin, hcom⟩ := (syncTarget_eq_none h.log).mp hn
      refine (mem_allEnded.mp hid).resolve_left ?_
      rw [h.settled hin hcom]
      exact List.not_mem_nil
    · exact h.returned seen hseen id hid

theorem syncInv_wake {s s' : SyncSys} {p : Pid} (h : SyncInv s)
    (hs : syncStep s (.wake p) = .done s') : SyncInv s' := by
  simp only [syncStep] at hs
  split at hs
  · cases hs
  rename_i w hw
  split at hs
  · exact Outcome.done.inj hs ▸ h
  rename_i hge
  obtain rfl := Outcome.done.inj hs
  refine ⟨h.log, h.settled, fun q w' hw' => ?_, fun seen hseen id hid => ?_⟩
  · dsimp only at hw'
    by_cases hq : q = p
    · subst hq
      rw [update_self] at hw'
      cases hw'
    · rw [update_of_ne hq] at hw'
      exact h.waiting q w' hw'
  · obtain rfl | hseen := List.mem_cons.mp hseen
    · exact (h.waiting p w hw id hid).resolve_right fun hlt => hge hlt.2
    · exact h.returned seen hseen id hid

theorem syncInv_step {s s' : SyncSys} {a : SyncAct} (h : SyncInv s)
    (hs : syncStep s a = .done s') : SyncInv s' := by
  cases a with
  | log a => exact syncInv_log h hs
  | sync p => exact syncInv_sync h hs
  | wake p => exact syncInv_wake h hs

/-- The states of any interleaving of operations, commits and calls of `sys_sync`. -/
abbrev ReachableSync : SyncSys → Prop := Reachable SyncSys.init syncStep (fun _ _ => True)

/-- **`sys_sync` is a durability barrier.**  In every state of every interleaving, so in
    particular right after a call of `sys_sync` has returned, each operation that had ended
    when the call took the lock belongs to a completed commit, which has installed all the
    blocks that the operation logged. -/
theorem sync_durable {s : SyncSys} (h : ReachableSync s) {seen : List OpId}
    (hseen : seen ∈ s.returned) {id : OpId} (hid : id ∈ seen) :
    ∃ c ∈ s.sys.commits, id ∈ c.ended ∧ ∀ b, (id, b) ∈ s.sys.writes → b ∈ c.homes := by
  have hinv : SyncInv s := h.invariant syncInv_init fun _ hi _ hs => syncInv_step hi hs
  obtain ⟨c, hc, hend⟩ := hinv.returned seen hseen id hid
  have hwhole := hinv.log.whole c hc
  exact ⟨c, hc, hend, fun b hb => (hwhole.homes b).mpr ⟨id, (hwhole.ended id).mpr hend, hb⟩⟩

/-- Process 2 calls `sys_sync` after one of two operations has ended, and returns after their
    commit. -/
def syncedOps : List SyncAct :=
  [.log (.beginOp 0), .log (.beginOp 1), .log (.logWrite 0 5), .log (.endOp 0), .sync 2,
    .log (.logWrite 1 6), .wake 2, .log (.endOp 1)] ++
    List.replicate 11 (.log .commit) ++ [.wake 2]

theorem sync_durable_syncedOps :
    ∃ s, ReachableSync s ∧ s.returned = [[0]] ∧
      ∃ c ∈ s.sys.commits, 0 ∈ c.ended ∧ ∀ b, (0, b) ∈ s.sys.writes → b ∈ c.homes := by
  have hreach : ReachableSync (finalState syncStep (fun _ _ => true) SyncSys.init syncedOps) :=
    (reachable_finalState (by decide)).mono fun _ _ _ => trivial
  have hret : (finalState syncStep (fun _ _ => true) SyncSys.init syncedOps).returned = [[0]] := by
    decide
  exact ⟨_, hreach, hret, sync_durable hreach (hret ▸ List.mem_singleton_self [0])
    (List.mem_singleton_self 0)⟩

end Xv6.Log
