import Xv6.Log.Reservation
import Xv6.Mkfs.Superblock

/-!
# The log region: what `mkfs` reserves and what the kernel uses

`mkfs` reserves `nlog = LOGBLOCKS` blocks for the header and the logged blocks
together; the kernel never reads `sb.nlog` and admits `LOGBLOCKS` logged blocks
besides the header.  The two agree on every log state but the full one.
-/

namespace Xv6.Log

open Transition

/-- The blocks that `write_head`, `write_log` and `install_trans` use as log blocks when
    `n` blocks are logged. -/
def logBlocks (start n : Nat) : List Nat :=
  start :: (List.range n).map fun tail => start + tail + 1

/-- Every log block lies in the log region of the super block, below the inode, bitmap
    and data blocks. -/
def FitsRegion (sb : Superblock) (n : Nat) : Prop :=
  ∀ b ∈ logBlocks sb.logstart n,
    sb.logstart ≤ b ∧ b < sb.logstart + sb.nlog ∧ ¬ (sb.inodestart ≤ b ∧ b < sb.size)

theorem mem_logBlocks {start n b : Nat} : b ∈ logBlocks start n ↔ start ≤ b ∧ b ≤ start + n := by
  simp only [logBlocks, List.mem_cons, List.mem_map, List.mem_range]
  constructor
  · rintro (rfl | ⟨tail, ht, rfl⟩) <;> omega
  · intro h
    by_cases hb : b = start
    · exact Or.inl hb
    · exact Or.inr ⟨b - start - 1, by omega, by omega⟩

theorem fitsRegion_iff (n : Nat) : FitsRegion Mkfs.sb n ↔ n < LOGBLOCKS := by
  have hlog : Mkfs.sb.nlog = LOGBLOCKS := rfl
  have hnext : Mkfs.sb.inodestart = Mkfs.sb.logstart + LOGBLOCKS := rfl
  have hsmall : 0 < LOGBLOCKS := by decide
  constructor
  · intro hfits
    have hlast := (hfits (Mkfs.sb.logstart + n) (mem_logBlocks.mpr ⟨by omega, by omega⟩)).2.1
    omega
  · intro hn b hb
    have hrange := mem_logBlocks.mp hb
    exact ⟨hrange.1, by omega, by omega⟩

/-- The step does not append the `LOGBLOCKS`th entry. -/
def leavesHeaderSlot (s : Sys) : Act → Bool
  | .logWrite _ b => decide (b ∈ s.log.lh) || decide (s.log.lh.length + 1 < LOGBLOCKS)
  | _ => true

theorem length_lt_step {s s' : Sys} {a : Act} (h : s.log.lh.length < LOGBLOCKS)
    (hok : leavesHeaderSlot s a = true) (hs : step s a = .done s') :
    s'.log.lh.length < LOGBLOCKS := by
  cases a with
  | beginOp p =>
    obtain ⟨_, _, _, rfl⟩ := step_beginOp hs
    exact h
  | logWrite p b =>
    simp only [leavesHeaderSlot, Bool.or_eq_true, decide_eq_true_eq] at hok
    obtain ⟨_, l, new, hw, rfl⟩ := step_logWrite hs
    obtain ⟨_, _, ⟨_, rfl, _⟩ | ⟨hb, rfl, _⟩⟩ := logWrite_eq_ok.mp hw
    · exact h
    · simp only [List.length_append, List.length_singleton]
      exact hok.resolve_left hb
  | endOp p =>
    obtain ⟨_, l, doCommit, hw, rfl⟩ := step_endOp hs
    obtain ⟨_, ⟨_, _, rfl⟩ | ⟨_, _, rfl⟩⟩ := endOp_eq_ok.mp hw <;> exact h
  | commit =>
    obtain ⟨p, pc, _, rfl⟩ := step_commit hs
    cases pc with
    | writeLog tail => simp only [commitStep]; split <;> exact h
    | install tail => simp only [commitStep]; split <;> exact h
    | clear => exact Nat.zero_lt_of_lt h
    | _ => exact h

/-- **`mkfs` and the kernel agree on the log region, short of a full log.**  In every run
    in which no `log_write` takes the last of the `LOGBLOCKS` entries, every log block of
    every state lies in the region of the super block; and a reachable log state fits that
    region exactly when it is not full. -/
theorem log_region_agrees_iff (s : Sys) :
    (Reachable Sys.init step (fun s a => leavesHeaderSlot s a = true) s →
      FitsRegion Mkfs.sb s.log.lh.length) ∧
    (ReachableSys s →
      (FitsRegion Mkfs.sb s.log.lh.length ↔ s.log.lh.length < LOGBLOCKS)) := by
  refine ⟨fun hs => (fitsRegion_iff _).mpr ?_, fun _ => fitsRegion_iff _⟩
  exact hs.invariant (by decide) fun _ hlt hok hstep => length_lt_step hlt hok hstep

/-- The full log uses the first inode block as its last log block. -/
theorem log_region_overlaps_inodes :
    ¬ ∀ s, ReachableSys s → FitsRegion Mkfs.sb s.log.lh.length := by
  intro hclaim
  have hreach : ReachableSys fullLog := reachable_fullLog.mono fun _ _ _ => trivial
  have hfits := (fitsRegion_iff _).mp (hclaim fullLog hreach)
  exact absurd hfits (by decide)

theorem log_region_agrees_overlappingOps :
    FitsRegion Mkfs.sb
      (finalState step leavesHeaderSlot Sys.init (overlappingOps.take 6)).log.lh.length ∧
    (FitsRegion Mkfs.sb fullLog.log.lh.length ↔ fullLog.log.lh.length < LOGBLOCKS) :=
  ⟨(log_region_agrees_iff (finalState step leavesHeaderSlot Sys.init (overlappingOps.take 6))).1
      (reachable_finalState (by decide)),
    (log_region_agrees_iff fullLog).2 (reachable_fullLog.mono fun _ _ _ => trivial)⟩

end Xv6.Log
