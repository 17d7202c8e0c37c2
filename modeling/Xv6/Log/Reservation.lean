import Xv6.Log.GroupCommit
import Mathlib.Algebra.Order.BigOperators.Group.Finset

/-!
# The space reservation of `begin_op`

`begin_op` admits an operation only if every running operation can still log
`MAXOPBLOCKS` blocks.  Counted in distinct blocks that is enough: the unused part
of every running operation's budget and the entries of the log together never
exceed `LOGBLOCKS`.  `log_write` tests the fill level before it looks for an entry
to absorb, though, so a block that is already in a full log cannot be written
again.
-/

namespace Xv6.Log

open Transition

/-- The distinct blocks that operation `id` has logged. -/
def Sys.opBlocks (s : Sys) (id : OpId) : Finset Nat :=
  ((s.writes.filter fun w => w.1 = id).map Prod.snd).toFinset

@[simp] theorem mem_opBlocks {s : Sys} {id : OpId} {b : Nat} :
    b ∈ s.opBlocks id ↔ (id, b) ∈ s.writes := by
  simp [Sys.opBlocks]

/-- Each operation logs at most `MAXOPBLOCKS` distinct blocks. -/
def withinBudget (s : Sys) : Act → Bool
  | .logWrite p b => decide ((insert b (s.opBlocks (s.opOf p))).card ≤ MAXOPBLOCKS)
  | _ => true

/-- The step does not write a logged block again while the log is full. -/
def noFullRewrite (s : Sys) : Act → Bool
  | .logWrite _ b => !(decide (b ∈ s.log.lh) && decide (s.log.lh.length = LOGBLOCKS))
  | _ => true

/-- The part of an operation's budget that it has not used. -/
def Sys.unused (s : Sys) (id : OpId) : Nat := MAXOPBLOCKS - (s.opBlocks id).card

structure Reserved (s : Sys) : Prop where
  opOf_inj : Set.InjOn s.opOf s.inOp
  budget : ∀ p ∈ s.inOp, (s.opBlocks (s.opOf p)).card ≤ MAXOPBLOCKS
  room : s.log.lh.length + ∑ p ∈ s.inOp, s.unused (s.opOf p) ≤ LOGBLOCKS

theorem Inv.opBlocks_subset {s : Sys} (h : Inv s) {p : Pid} (hp : p ∈ s.inOp) {b : Nat}
    (hb : b ∈ s.opBlocks (s.opOf p)) : b ∈ s.log.lh := by
  have hnone := h.not_committing hp
  refine (h.lh_written (fun q pc hq => absurd (hnone.symm.trans hq) (by simp)) b).mpr ?_
  exact ⟨s.opOf p, h.active p hp, mem_opBlocks.mp hb⟩

theorem Reserved.of_inOp_empty {s : Sys} (h : Inv s) (hempty : s.inOp = ∅) : Reserved s := by
  refine ⟨?_, ?_, ?_⟩
  · simp [hempty]
  · simp [hempty]
  · simpa [hempty] using h.length_le

theorem reserved_beginOp {s s' : Sys} {p : Pid} (hinv : Inv s) (h : Reserved s)
    (hs : step s (.beginOp p) = .done s') : Reserved s' := by
  obtain ⟨hpn, _, hroom, rfl⟩ := step_beginOp hs
  obtain ⟨hfresh, hnowrite⟩ := hinv.nextOp_fresh
  have hother : ∀ q ∈ s.inOp, (if q = p then s.nextOp else s.opOf q) = s.opOf q := by
    intro q hq
    have hne : q ≠ p := fun heq => hpn (heq ▸ hq)
    exact if_neg hne
  have hold : ∀ q ∈ s.inOp, s.opOf q ≠ s.nextOp := fun q hq heq =>
    hfresh (heq ▸ List.mem_append_left _ (hinv.active q hq))
  have hnew : s.opBlocks s.nextOp = ∅ := by
    ext b
    simpa using hnowrite b
  refine ⟨?_, ?_, ?_⟩
  · rw [Finset.coe_insert, Set.injOn_insert (by simpa using hpn)]
    refine ⟨fun q hq q' hq' heq => ?_, ?_⟩
    · dsimp only at heq
      rw [hother q hq, hother q' hq'] at heq
      exact h.opOf_inj hq hq' heq
    · rintro ⟨q, hq, heq⟩
      dsimp only at heq
      rw [hother q hq, if_pos rfl] at heq
      exact hold q hq heq
  · intro q hq
    rcases Finset.mem_insert.mp hq with rfl | hq
    · simp only [if_true]
      show (s.opBlocks s.nextOp).card ≤ _
      simp [hnew]
    · simp only [hother q hq]
      exact h.budget q hq
  · -- the running operations hold at most a full budget each
    have hsum : ∑ q ∈ s.inOp, s.unused (if q = p then s.nextOp else s.opOf q) ≤
        s.inOp.card * MAXOPBLOCKS :=
      Finset.sum_le_card_nsmul _ _ _ fun q _ => Nat.sub_le _ _
    have hcount := hinv.outstanding
    simp only [Finset.sum_insert hpn, if_true]
    show s.log.lh.length + (s.unused s.nextOp + ∑ q ∈ s.inOp, s.unused _) ≤ LOGBLOCKS
    have hfull : s.unused s.nextOp = MAXOPBLOCKS := by simp [Sys.unused, hnew]
    rw [hfull]
    rw [hcount] at hroom
    have hroom' : s.log.lh.length + (s.inOp.card + 1) * MAXOPBLOCKS ≤ LOGBLOCKS := by
      exact_mod_cast hroom
    rw [Nat.add_mul] at hroom'
    omega

theorem reserved_endOp {s s' : Sys} {p : Pid} (h : Reserved s)
    (hs : step s (.endOp p) = .done s') : Reserved s' := by
  obtain ⟨_, l, doCommit, hw, rfl⟩ := step_endOp hs
  have hlh : l.lh = s.log.lh := by
    obtain ⟨_, ⟨_, _, rfl⟩ | ⟨_, _, rfl⟩⟩ := endOp_eq_ok.mp hw <;> rfl
  refine ⟨h.opOf_inj.mono (by simp), fun q hq => h.budget q (Finset.mem_of_mem_erase hq), ?_⟩
  have hsum : ∑ q ∈ s.inOp.erase p, s.unused (s.opOf q) ≤ ∑ q ∈ s.inOp, s.unused (s.opOf q) :=
    Finset.sum_le_sum_of_subset (Finset.erase_subset p s.inOp)
  have hroom := h.room
  show l.lh.length + ∑ q ∈ s.inOp.erase p, s.unused (s.opOf q) ≤ LOGBLOCKS
  rw [hlh]
  omega

/-- `log_write` of a block takes it out of the caller's budget if the block is new to the
    log, so the sum of log entries and unused budgets does not grow. -/
theorem reserved_logWrite {s s' : Sys} {p : Pid} {b : Nat} (hinv : Inv s) (h : Reserved s)
    (hbudget : withinBudget s (.logWrite p b) = true)
    (hs : step s (.logWrite p b) = .done s') : Reserved s' := by
  simp only [withinBudget, decide_eq_true_eq] at hbudget
  obtain ⟨hp, l, new, hw, rfl⟩ := step_logWrite hs
  obtain ⟨_, _, hcase⟩ := logWrite_eq_ok.mp hw
  have hmine : ({ s with log := l, writes := (s.opOf p, b) :: s.writes } : Sys).opBlocks
      (s.opOf p) = insert b (s.opBlocks (s.opOf p)) := by
    ext x
    simp [Prod.ext_iff]
  have hothers : ∀ q ∈ s.inOp.erase p,
      ({ s with log := l, writes := (s.opOf p, b) :: s.writes } : Sys).opBlocks (s.opOf q) =
        s.opBlocks (s.opOf q) := by
    intro q hq
    obtain ⟨hqp, hqin⟩ := Finset.mem_erase.mp hq
    have hne : s.opOf q ≠ s.opOf p := fun heq => hqp (h.opOf_inj hqin hp heq)
    ext x
    simp [Prod.ext_iff, hne]
  refine ⟨h.opOf_inj, fun q hq => ?_, ?_⟩
  · by_cases hqp : q = p
    · subst hqp
      show (Sys.opBlocks _ (s.opOf q)).card ≤ _
      rw [hmine]
      exact hbudget
    · show (Sys.opBlocks _ (s.opOf q)).card ≤ _
      rw [hothers q (Finset.mem_erase.mpr ⟨hqp, hq⟩)]
      exact h.budget q hq
  · have hroom := h.room
    rw [← Finset.add_sum_erase _ _ hp] at hroom ⊢
    have hsum : ∑ q ∈ s.inOp.erase p,
        Sys.unused { s with log := l, writes := (s.opOf p, b) :: s.writes } (s.opOf q) =
          ∑ q ∈ s.inOp.erase p, s.unused (s.opOf q) :=
      Finset.sum_congr rfl fun q hq => by rw [Sys.unused, hothers q hq, Sys.unused]
    have hmycard : Sys.unused { s with log := l, writes := (s.opOf p, b) :: s.writes }
        (s.opOf p) = MAXOPBLOCKS - (insert b (s.opBlocks (s.opOf p))).card := by
      rw [Sys.unused, hmine]
    simp only [hsum, hmycard]
    simp only [Sys.unused] at hroom
    rcases hcase with ⟨_, rfl, _⟩ | ⟨hnew, rfl, _⟩
    · have hle : (s.opBlocks (s.opOf p)).card ≤ (insert b (s.opBlocks (s.opOf p))).card :=
        Finset.card_le_card (Finset.subset_insert _ _)
      simp only [Sys.unused] at hroom ⊢
      omega
    · have hnot : b ∉ s.opBlocks (s.opOf p) := fun hb => hnew (hinv.opBlocks_subset hp hb)
      rw [Finset.card_insert_of_notMem hnot] at hbudget ⊢
      simp only [Sys.unused, List.length_append, List.length_singleton] at hroom ⊢
      omega

/-- Runs in which every operation keeps to its budget. -/
abbrev ReachableInBudget : Sys → Prop :=
  Reachable Sys.init step (fun s a => withinBudget s a = true)

theorem reserved_of_reachable {s : Sys} (h : ReachableInBudget s) : Reserved s := by
  refine h.invariant (Reserved.of_inOp_empty inv_init rfl) fun {s s' a} hreach hres hok hs => ?_
  have hinv : Inv s := inv_of_reachable hreach
  cases a with
  | beginOp p => exact reserved_beginOp hinv hres hs
  | logWrite p b => exact reserved_logWrite hinv hres hok hs
  | endOp p => exact reserved_endOp hres hs
  | commit =>
    -- nothing runs during a commit, and `length_le` of the invariant is the rest
    refine Reserved.of_inOp_empty (inv_step hinv hs) ?_
    obtain ⟨p, pc, hpc, rfl⟩ := step_commit hs
    have hempty : s.inOp = ∅ := hinv.alone (by rw [hpc]; rfl)
    have hsame : (commitStep s p pc).inOp = s.inOp := by
      cases pc <;> simp only [commitStep] <;> split <;> rfl
    rw [hsame, hempty]

/-- A block that is new to the log finds room: its writer has an unused part of its budget. -/
theorem Reserved.length_lt {s : Sys} (hinv : Inv s) (h : Reserved s) {p : Pid} {b : Nat}
    (hp : p ∈ s.inOp) (hbudget : withinBudget s (.logWrite p b) = true) (hb : b ∉ s.log.lh) :
    s.log.lh.length < LOGBLOCKS := by
  simp only [withinBudget, decide_eq_true_eq] at hbudget
  have hnot : b ∉ s.opBlocks (s.opOf p) := fun hmem => hb (hinv.opBlocks_subset hp hmem)
  rw [Finset.card_insert_of_notMem hnot] at hbudget
  have hroom := h.room
  rw [← Finset.add_sum_erase _ _ hp] at hroom
  simp only [Sys.unused] at hroom
  omega

/-- **When `log_write` panics.**  In a run within budget the reservation is enough for
    every block that is new to the log; a block that is already logged is refused exactly
    when the log is full. -/
theorem logWrite_tooBig_iff {s : Sys} (h : ReachableInBudget s) {p : Pid} {b : Nat}
    (hp : p ∈ s.inOp) (hbudget : withinBudget s (.logWrite p b) = true) :
    step s (.logWrite p b) = .fail .tooBigATransaction ↔
      b ∈ s.log.lh ∧ s.log.lh.length = LOGBLOCKS := by
  have hinv : Inv s := inv_of_reachable h
  have hres := reserved_of_reachable h
  have hstep : step s (.logWrite p b) = .fail .tooBigATransaction ↔
      logWrite s.log b = .error .tooBigATransaction := by
    simp only [step, if_pos hp]
    cases hw : logWrite s.log b with
    | error e => simp
    | ok r => simp
  rw [hstep, logWrite_eq_error]
  constructor
  · rintro (⟨hfull, _⟩ | ⟨_, _, hne⟩)
    · have hlen := hinv.length_le
      refine ⟨?_, by omega⟩
      by_contra hb
      have hlt := hres.length_lt hinv hp hbudget hb
      omega
    · exact absurd hne (by simp)
  · rintro ⟨_, hfull⟩
    exact Or.inl ⟨by omega, rfl⟩

theorem tooBig_only_logWrite {s : Sys} {a : Act} (h : step s a = .fail .tooBigATransaction) :
    ∃ p b, a = .logWrite p b ∧ p ∈ s.inOp := by
  rcases step_fail h with ⟨p, b, rfl, hp, _⟩ | ⟨p, rfl, _, hw⟩
  · exact ⟨p, b, rfl, hp⟩
  · have hcom := endOp_eq_error hw
    simp [endOp, hcom] at hw

/-- **The reservation of `begin_op` is enough, short of rewriting a full log.**  In every
    interleaving whose operations keep to `MAXOPBLOCKS` distinct blocks and whose steps do
    not write a logged block again while the log is full, no step reaches
    `panic("too big a transaction")`; and in any run within budget such a rewrite does. -/
theorem reservation_suffices_iff (s : Sys) :
    (Reachable Sys.init step
        (fun s a => withinBudget s a = true ∧ noFullRewrite s a = true) s →
      ∀ a, withinBudget s a = true → noFullRewrite s a = true →
        step s a ≠ .fail .tooBigATransaction) ∧
    (ReachableInBudget s → ∀ p ∈ s.inOp, ∀ b, withinBudget s (.logWrite p b) = true →
      (step s (.logWrite p b) ≠ .fail .tooBigATransaction ↔
        noFullRewrite s (.logWrite p b) = true)) := by
  have hiff : ReachableInBudget s → ∀ p ∈ s.inOp, ∀ b,
      withinBudget s (.logWrite p b) = true →
      (step s (.logWrite p b) ≠ .fail .tooBigATransaction ↔
        noFullRewrite s (.logWrite p b) = true) := by
    intro hs p hp b hb
    rw [Ne, logWrite_tooBig_iff hs hp hb, not_and_or]
    simp [noFullRewrite]
  refine ⟨fun hs a hbudget hrewrite hpanic => ?_, hiff⟩
  obtain ⟨p, b, rfl, hp⟩ := tooBig_only_logWrite hpanic
  have hreach : ReachableInBudget s := hs.mono fun _ _ hok => hok.1
  exact (hiff hreach p hp b hbudget).mpr hrewrite hpanic

/-- Three operations that log ten blocks each fill the log. -/
def fillLog : List Act :=
  [.beginOp 0, .beginOp 1, .beginOp 2] ++
    (List.range 3).flatMap fun p => (List.range 10).map fun i => .logWrite p (40 + 10 * p + i)

/-- The state in which the log is full. -/
def fullLog : Sys := finalState step withinBudget Sys.init fillLog

theorem reachable_fullLog : ReachableInBudget fullLog := reachable_finalState (by decide)

/-- The first operation may log its first block once more within its budget, and the
    kernel panics. -/
theorem reservation_fails_on_full_log :
    ¬ ∀ s, ReachableInBudget s → ∀ a, withinBudget s a = true →
      step s a ≠ .fail .tooBigATransaction := by
  intro hclaim
  have hstep : step fullLog (.logWrite 0 40) = .fail .tooBigATransaction := by
    have hlog : logWrite fullLog.log 40 = .error .tooBigATransaction := by decide
    simp only [step, hlog, if_pos (show 0 ∈ fullLog.inOp by decide)]
  exact hclaim fullLog reachable_fullLog (.logWrite 0 40) (by decide) hstep

/-- The first step of a run is safe; on the full log the second operation is refused a
    block that it already logged. -/
theorem reservation_suffices_iff_fullLog :
    step Sys.init (.beginOp 0) ≠ .fail .tooBigATransaction ∧
    (step fullLog (.logWrite 1 50) ≠ .fail .tooBigATransaction ↔
      noFullRewrite fullLog (.logWrite 1 50) = true) :=
  ⟨(reservation_suffices_iff Sys.init).1 .init (.beginOp 0) rfl rfl,
    (reservation_suffices_iff fullLog).2 reachable_fullLog 1 (by decide) 50 (by decide)⟩

end Xv6.Log
