import Xv6.Param
import Xv6.Lib.StoreProg

/-!
# The redo log on disk: commit and recovery

The part of `kernel/log.c` that touches the disk.  A program here is its ordered
list of `bwrite` calls (`StoreProg.Prog`), so that a power failure is a stop
between two of them.  The in-memory header `log.lh` is a list of home block
numbers, `lh.n` being its length; the on-disk header is a block whose bytes are a
`struct logheader`.

A read of a log block goes to the disk, since the log writes its blocks through;
a read of a home block during `commit` is served by the pinned cache copy, the
`cache` argument below.
-/

namespace Xv6.Log

open ByteView StoreProg Function

/-- A program over the disk, made of `bread` and `bwrite`. -/
abbrev DiskProg (α : Type) := Prog Nat Block α

/-! ### The header block -/

/-- `lh->n` of a header block. -/
def headerN (hb : Block) : Nat := getLE hb 0 4

/-- The number of iterations of `for (i = 0; i < log.lh.n; i++)`: `n` is an `int`,
    so a count with the sign bit set runs the loop zero times. -/
def headerCount (hb : Block) : Nat := if headerN hb < 2 ^ 31 then headerN hb else 0

/-- `lh->block[i]` of a header block, read as a block number. -/
def headerBlock (hb : Block) (i : Nat) : Nat := getLE hb (4 + 4 * i) 4

/-- The header block that `write_head` leaves in the buffer: only `n` and the first
    `n` entries are stored, the other bytes stay as they were read. -/
def fillHeader (hb : Block) (lh : List Nat) : Block :=
  putArray (putLE hb 0 4 lh.length) 4 4 (fun i => lh.getD i 0) lh.length

/-! ### `log.c` -/

/-- Read the log header from disk into the in-memory log header. -/
def readHead (start : Nat) : DiskProg (List Nat) := do
  let hb ← read start
  return (List.range (headerCount hb)).map (headerBlock hb)

/-- Write the in-memory log header to disk: the true point at which the current
    transaction commits. -/
def writeHead (start : Nat) (lh : List Nat) : DiskProg Unit := do
  let hb ← read start
  write start (fillHeader hb lh)

/-- The body of the loop in `install_trans`. -/
def installBlock (start : Nat) (lh : List Nat) (tail : Nat) : DiskProg Unit := do
  let lbuf ← read (start + tail + 1)
  write (lh.getD tail 0) lbuf

/-- Copy committed blocks from the log to their home location. -/
def installTrans (start : Nat) (lh : List Nat) : DiskProg Unit :=
  forRange (installBlock start lh) lh.length

/-- The body of the loop in `write_log`. -/
def writeLogBlock (start : Nat) (lh : List Nat) (cache : Nat → Block) (tail : Nat) :
    DiskProg Unit :=
  write (start + tail + 1) (cache (lh.getD tail 0))

/-- Copy modified blocks from the cache to the log. -/
def writeLog (start : Nat) (lh : List Nat) (cache : Nat → Block) : DiskProg Unit :=
  forRange (writeLogBlock start lh cache) lh.length

def commit (start : Nat) (lh : List Nat) (cache : Nat → Block) : DiskProg Unit :=
  if 0 < lh.length then do
    writeLog start lh cache
    writeHead start lh
    installTrans start lh
    writeHead start []
  else pure ()

def recoverFromLog (start : Nat) : DiskProg Unit := do
  let lh ← readHead start
  installTrans start lh
  writeHead start []

/-! ### Header round trip -/

@[simp] theorem headerN_fillHeader (hb : Block) (lh : List Nat) (hlen : lh.length < 2 ^ 31) :
    headerN (fillHeader hb lh) = lh.length := by
  rw [headerN, fillHeader, getLE_putArray_disjoint _ (by omega), getLE_putLE_of_lt]
  omega

theorem headerCount_fillHeader (hb : Block) (lh : List Nat) (hlen : lh.length < 2 ^ 31) :
    headerCount (fillHeader hb lh) = lh.length := by
  rw [headerCount, headerN_fillHeader hb lh hlen, if_pos hlen]

theorem headerBlock_fillHeader (hb : Block) {lh : List Nat} {i : Nat} (hi : i < lh.length)
    (hfit : lh.getD i 0 < 2 ^ 32) : headerBlock (fillHeader hb lh) i = lh.getD i 0 :=
  getLE_putArray _ hi hfit

theorem value_readHead_fillHeader (start : Nat) (hb : Block) (lh : List Nat) (d : Disk)
    (hd : d start = fillHeader hb lh) (hlen : lh.length < 2 ^ 31)
    (hfit : ∀ b ∈ lh, b < 2 ^ 32) : (readHead start).value d = lh := by
  have hvalue : (readHead start).value d =
      (List.range (headerCount (d start))).map (headerBlock (d start)) := rfl
  rw [hvalue, hd, headerCount_fillHeader hb lh hlen]
  refine List.ext_getElem (by simp) fun i hi hi' => ?_
  have hget : lh.getD i 0 = lh[i] := by simp [List.getD, hi']
  simp only [List.getElem_map, List.getElem_range]
  rw [headerBlock_fillHeader _ hi' (by rw [hget]; exact hfit _ (List.getElem_mem hi')), hget]

/-! ### What the disk looks like around a commit

The transaction `lh` with cached contents `cache` is committed over the disk
`d₀`.  `Clean X` is a disk with an empty log whose blocks outside the log area
are those of `X`; `Committed t` is a disk whose log holds the whole transaction
and whose first `t` home blocks are already installed.  Recovery keeps the union
of the `Committed` disks and the clean new ones, and it keeps the clean old ones;
`commit` moves from the second set to the first with its first `write_head`. -/

/-- `b` is none of the `n + 1` blocks that start at `start`. -/
def OutsideLog (start n b : Nat) : Prop := b < start ∨ start + n < b

/-- The home blocks after the transaction. -/
def installed (lh : List Nat) (cache : Nat → Block) (d₀ : Disk) : Disk :=
  fun b => if b ∈ lh then cache b else d₀ b

section Commit

variable (start : Nat) (lh : List Nat) (cache : Nat → Block) (d₀ : Disk)

structure Clean (X d : Disk) : Prop where
  header : headerN (d start) = 0
  home : ∀ b, OutsideLog start lh.length b → d b = X b

structure Committed (t : Nat) (d : Disk) : Prop where
  header : ∃ hb, d start = fillHeader hb lh
  logged : ∀ i < lh.length, d (start + i + 1) = cache (lh.getD i 0)
  other : ∀ b, OutsideLog start lh.length b → b ∉ lh → d b = d₀ b
  copied : ∀ i < t, d (lh.getD i 0) = cache (lh.getD i 0)

variable {start lh cache d₀}

theorem exec_writeHead (lh' : List Nat) (d : Disk) :
    (writeHead start lh').exec d = update d start (fillHeader (d start) lh') := rfl

theorem crash_writeHead {lh' : List Nat} {d d' : Disk} (h : (writeHead start lh').Crash d d') :
    d' = d ∨ d' = (writeHead start lh').exec d := by
  rcases crash_bind h with hread | hwrite
  · exact Or.inl (crash_read hread)
  · exact crash_write hwrite

theorem crash_readHead {d d' : Disk} (h : (readHead start).Crash d d') : d' = d := by
  rcases crash_bind h with hread | hret
  · exact crash_read hread
  · exact crash_pure hret

theorem OutsideLog.ne_start {n b : Nat} (h : OutsideLog start n b) : b ≠ start := by
  unfold OutsideLog at h; omega

theorem Clean.of_clearHead {X d : Disk}
    (hhome : ∀ b, OutsideLog start lh.length b → d b = X b) :
    Clean start lh X ((writeHead start []).exec d) := by
  rw [exec_writeHead]
  refine ⟨?_, fun b hb => ?_⟩
  · rw [update_self]
    exact headerN_fillHeader (d start) [] (by decide)
  · rw [update_of_ne hb.ne_start]
    exact hhome b hb

theorem Clean.readHead {X d : Disk} (h : Clean start lh X d) :
    (readHead start).value d = [] := by
  show (List.range (headerCount (d start))).map _ = []
  rw [headerCount, h.header]
  rfl

theorem Committed.weaken {t t' : Nat} {d : Disk} (h : Committed start lh cache d₀ t d)
    (ht : t' ≤ t) : Committed start lh cache d₀ t' d :=
  ⟨h.header, h.logged, h.other, fun i hi => h.copied i (by omega)⟩

theorem Committed.readHead {t : Nat} {d : Disk} (h : Committed start lh cache d₀ t d)
    (hlen : lh.length < 2 ^ 31) (hfit : ∀ b ∈ lh, b < 2 ^ 32) :
    (readHead start).value d = lh := by
  obtain ⟨hb, hd⟩ := h.header
  exact value_readHead_fillHeader start hb lh d hd hlen hfit

theorem Committed.home {d : Disk} (h : Committed start lh cache d₀ lh.length d) (b : Nat)
    (hb : OutsideLog start lh.length b) : d b = installed lh cache d₀ b := by
  by_cases hmem : b ∈ lh
  · obtain ⟨i, hi, rfl⟩ := List.mem_iff_getElem.mp hmem
    have hget : lh.getD i 0 = lh[i] := by simp [List.getD, hi]
    rw [installed, if_pos hmem, ← hget]
    exact h.copied i hi
  · rw [installed, if_neg hmem]
    exact h.other b hb hmem

theorem getD_mem_of_lt {i : Nat} (hi : i < lh.length) : lh.getD i 0 ∈ lh := by
  simp [List.getD, hi]

/-! ### One installed block, and the loops over them -/

section Install

variable (hout : ∀ b ∈ lh, OutsideLog start lh.length b)

include hout

theorem Committed.install {t : Nat} {d : Disk} (h : Committed start lh cache d₀ t d)
    (ht : t < lh.length) :
    Committed start lh cache d₀ (t + 1)
      (update d (lh.getD t 0) (d (start + t + 1))) := by
  have hhome := hout _ (getD_mem_of_lt ht)
  refine ⟨?_, fun i hi => ?_, fun b hb hmem => ?_, fun i hi => ?_⟩
  · rw [update_of_ne hhome.ne_start.symm]
    exact h.header
  · have hne : start + i + 1 ≠ lh.getD t 0 := by unfold OutsideLog at hhome; omega
    rw [update_of_ne hne]
    exact h.logged i hi
  · have hne : b ≠ lh.getD t 0 := fun heq => hmem (heq ▸ getD_mem_of_lt ht)
    rw [update_of_ne hne]
    exact h.other b hb hmem
  · by_cases heq : lh.getD i 0 = lh.getD t 0
    · rw [heq, update_self]
      exact h.logged t ht
    · have hlt : i < t := by
        rcases Nat.lt_or_ge i t with hlt | hge
        · exact hlt
        · obtain rfl : i = t := by omega
          exact absurd rfl heq
      rw [update_of_ne heq]
      exact h.copied i hlt

theorem Committed.exec_installTrans {d : Disk} (h : Committed start lh cache d₀ 0 d) :
    Committed start lh cache d₀ lh.length ((installTrans start lh).exec d) :=
  exec_forRange (fun _ ht _ hI => hI.install hout ht) h

theorem Committed.crash_installTrans {d d' : Disk} (h : Committed start lh cache d₀ 0 d)
    (hcrash : (installTrans start lh).Crash d d') : Committed start lh cache d₀ 0 d' := by
  have hloop : ∃ t ≤ lh.length, Committed start lh cache d₀ t d' := by
    refine crash_forRange (fun t ht s s' hI hs => ?_)
      (fun t ht s hI => hI.install hout ht) h hcrash
    rcases crash_bind hs with hread | hwrite
    · exact Or.inl (crash_read hread ▸ hI)
    · rcases crash_write hwrite with rfl | rfl
      · exact Or.inl hI
      · exact Or.inr (hI.install hout ht)
  obtain ⟨t, _, hI⟩ := hloop
  exact hI.weaken (Nat.zero_le t)

end Install

theorem crash_installTrans_nil {d d' : Disk} (h : (installTrans start []).Crash d d') :
    d' = d := crash_pure h

/-! ### Recovery, complete or stopped -/

theorem Clean.crash_recover {X d d' : Disk} (h : Clean start lh X d)
    (hcrash : (recoverFromLog start).Crash d d') : Clean start lh X d' := by
  rcases crash_bind hcrash with hread | hrest
  · exact crash_readHead hread ▸ h
  · rw [h.readHead] at hrest
    rcases crash_bind hrest with hinst | hclear
    · exact crash_installTrans_nil hinst ▸ h
    · rcases crash_writeHead hclear with rfl | rfl
      · exact h
      · exact Clean.of_clearHead h.home

theorem Clean.exec_recover {X d : Disk} (h : Clean start lh X d) :
    Clean start lh X ((recoverFromLog start).exec d) :=
  h.crash_recover (crash_exec _ d)

/-- The disk holds the whole transaction, in its log or already at home. -/
def Durable (start : Nat) (lh : List Nat) (cache : Nat → Block) (d₀ d : Disk) : Prop :=
  Committed start lh cache d₀ 0 d ∨ Clean start lh (installed lh cache d₀) d

section Recover

variable (hout : ∀ b ∈ lh, OutsideLog start lh.length b)
  (hlen : lh.length < 2 ^ 31) (hfit : ∀ b ∈ lh, b < 2 ^ 32)

include hout

/-- The tail that `commit` and recovery share, stopped anywhere: install, then clear. -/
theorem Committed.crash_replay {d d' : Disk} (h : Committed start lh cache d₀ 0 d)
    (hcrash : (do installTrans start lh; writeHead start [] : DiskProg Unit).Crash d d') :
    Durable start lh cache d₀ d' := by
  rcases crash_bind hcrash with hinst | hclear
  · exact Or.inl (h.crash_installTrans hout hinst)
  · have hall := h.exec_installTrans hout
    rcases crash_writeHead hclear with rfl | rfl
    · exact Or.inl (hall.weaken (Nat.zero_le _))
    · exact Or.inr (Clean.of_clearHead hall.home)

include hlen hfit

theorem Durable.crash_recover {d d' : Disk} (h : Durable start lh cache d₀ d)
    (hcrash : (recoverFromLog start).Crash d d') : Durable start lh cache d₀ d' := by
  rcases h with h | h
  · rcases crash_bind hcrash with hread | hrest
    · exact Or.inl (crash_readHead hread ▸ h)
    · rw [h.readHead hlen hfit] at hrest
      exact h.crash_replay hout hrest
  · exact Or.inr (h.crash_recover hcrash)

theorem Durable.exec_recover {d : Disk} (h : Durable start lh cache d₀ d) :
    Clean start lh (installed lh cache d₀) ((recoverFromLog start).exec d) := by
  rcases h with h | h
  · rw [recoverFromLog, exec_bind, h.readHead hlen hfit, exec_bind]
    exact Clean.of_clearHead (h.exec_installTrans hout).home
  · exact h.exec_recover

end Recover

/-! ### Commit -/

/-- While `write_log` runs the disk is still clean and old, and its first `t` log
    blocks are copies. -/
structure Logging (start : Nat) (lh : List Nat) (cache : Nat → Block) (d₀ : Disk)
    (t : Nat) (d : Disk) : Prop where
  clean : Clean start lh d₀ d
  logged : ∀ i < t, d (start + i + 1) = cache (lh.getD i 0)

theorem Logging.writeLogBlock {t : Nat} {d : Disk} (h : Logging start lh cache d₀ t d)
    (ht : t < lh.length) :
    Logging start lh cache d₀ (t + 1) ((writeLogBlock start lh cache t).exec d) := by
  have hexec : (Log.writeLogBlock start lh cache t).exec d =
      update d (start + t + 1) (cache (lh.getD t 0)) := rfl
  rw [hexec]
  refine ⟨⟨?_, fun b hb => ?_⟩, fun i hi => ?_⟩
  · rw [update_of_ne (by omega)]
    exact h.clean.header
  · have hne : b ≠ start + t + 1 := by unfold OutsideLog at hb; omega
    rw [update_of_ne hne]
    exact h.clean.home b hb
  · by_cases heq : i = t
    · rw [heq, update_self]
    · rw [update_of_ne (by omega)]
      exact h.logged i (by omega)

theorem Logging.exec_writeLog {d : Disk} (h : Logging start lh cache d₀ 0 d) :
    Logging start lh cache d₀ lh.length ((writeLog start lh cache).exec d) :=
  exec_forRange (fun _ ht _ hI => hI.writeLogBlock ht) h

theorem Logging.crash_writeLog {d d' : Disk} (h : Logging start lh cache d₀ 0 d)
    (hcrash : (writeLog start lh cache).Crash d d') : Clean start lh d₀ d' := by
  have hloop : ∃ t ≤ lh.length, Logging start lh cache d₀ t d' := by
    refine crash_forRange (fun t ht s s' hI hs => ?_) (fun t ht s hI => hI.writeLogBlock ht)
      h hcrash
    rcases crash_write hs with rfl | rfl
    · exact Or.inl hI
    · exact Or.inr (hI.writeLogBlock ht)
  obtain ⟨t, _, hI⟩ := hloop
  exact hI.clean

/-- The commit point: with the log blocks in place, writing the header commits. -/
theorem Logging.writeHead {d : Disk} (h : Logging start lh cache d₀ lh.length d) :
    Committed start lh cache d₀ 0 ((writeHead start lh).exec d) := by
  rw [exec_writeHead]
  refine ⟨⟨d start, update_self ..⟩, fun i hi => ?_, fun b hb _ => ?_, fun i hi => ?_⟩
  · rw [update_of_ne (by omega)]
    exact h.logged i hi
  · rw [update_of_ne hb.ne_start]
    exact h.clean.home b hb
  · omega

theorem length_writes_writeLog (d : Disk) : ((writeLog start lh cache).writes d).length = lh.length :=
  length_writes_forRange lh.length (fun _ _ => rfl) d

theorem Logging.refl (hclean : headerN (d₀ start) = 0) : Logging start lh cache d₀ 0 d₀ :=
  ⟨⟨hclean, fun _ _ => rfl⟩, fun i hi => by omega⟩

theorem stopAfter_commit_of_le (hclean : headerN (d₀ start) = 0) {k : Nat}
    (hk : k ≤ lh.length ∨ lh.length = 0) :
    Clean start lh d₀ ((commit start lh cache).stopAfter k d₀) := by
  have hstart : Logging start lh cache d₀ 0 d₀ := Logging.refl hclean
  by_cases hn : 0 < lh.length
  · rw [commit, if_pos hn,
      stopAfter_bind_of_le _ _ _ (by rw [length_writes_writeLog]; omega)]
    exact hstart.crash_writeLog ⟨k, rfl⟩
  · rw [commit, if_neg hn, crash_pure ⟨k, rfl⟩]
    exact hstart.clean

theorem stopAfter_commit_of_gt (hclean : headerN (d₀ start) = 0)
    (hout : ∀ b ∈ lh, OutsideLog start lh.length b) {k : Nat} (hk : lh.length < k)
    (hn : 0 < lh.length) :
    Durable start lh cache d₀ ((commit start lh cache).stopAfter k d₀) := by
  have hhead : ∀ d : Disk, ((Log.writeHead start lh).writes d).length = 1 := fun _ => rfl
  rw [commit, if_pos hn,
    stopAfter_bind_of_ge _ _ _ (by rw [length_writes_writeLog]; omega),
    stopAfter_bind_of_ge _ _ _ (by rw [hhead, length_writes_writeLog]; omega)]
  exact (Logging.refl hclean).exec_writeLog.writeHead.crash_replay hout ⟨_, rfl⟩

theorem exec_commit (hclean : headerN (d₀ start) = 0)
    (hout : ∀ b ∈ lh, OutsideLog start lh.length b) :
    Clean start lh (installed lh cache d₀) ((commit start lh cache).exec d₀) := by
  rw [commit]
  split
  · rw [exec_bind, exec_bind, exec_bind]
    have hlogged : Logging start lh cache d₀ lh.length _ := (Logging.refl hclean).exec_writeLog
    exact Clean.of_clearHead (hlogged.writeHead.exec_installTrans hout).home
  · rename_i hn
    obtain rfl : lh = [] := List.eq_nil_of_length_eq_zero (by omega)
    exact ⟨hclean, fun _ _ => rfl⟩

/-- Reboot after reboot, each stopped after some number of writes. -/
def reboots (start : Nat) (stops : List Nat) (d : Disk) : Disk :=
  stops.foldl (fun d j => (recoverFromLog start).stopAfter j d) d

theorem Clean.reboots {X d : Disk} (h : Clean start lh X d) (stops : List Nat) :
    Clean start lh X (reboots start stops d) := by
  induction stops generalizing d with
  | nil => exact h
  | cons j stops ih => exact ih (h.crash_recover ⟨j, rfl⟩)

theorem Durable.reboots {d : Disk} (h : Durable start lh cache d₀ d)
    (hout : ∀ b ∈ lh, OutsideLog start lh.length b) (hlen : lh.length < 2 ^ 31)
    (hfit : ∀ b ∈ lh, b < 2 ^ 32) (stops : List Nat) :
    Durable start lh cache d₀ (reboots start stops d) := by
  induction stops generalizing d with
  | nil => exact h
  | cons j stops ih => exact ih (h.crash_recover hout hlen hfit ⟨j, rfl⟩)

end Commit

/-- **Crash atomicity of the redo log.**  Stop `commit` after any number `k` of its
    writes, reboot any number of times with each recovery stopped after any number of
    its own writes, and let one recovery finish: the home blocks are all old or all
    new, they are new if the first `write_head` was among the `k` writes, the log is
    empty, and nothing else outside the log changed. -/
theorem commit_crash_atomic (start : Nat) (lh : List Nat) (cache : Nat → Block) (d₀ : Disk)
    (hclean : headerN (d₀ start) = 0) (hlen : lh.length ≤ LOGBLOCKS)
    (hout : ∀ b ∈ lh, OutsideLog start lh.length b) (hfit : ∀ b ∈ lh, b < 2 ^ 32)
    (k : Nat) (stops : List Nat) :
    let crashed := (commit start lh cache).stopAfter k d₀
    let d := (recoverFromLog start).exec (reboots start stops crashed)
    ((∀ b ∈ lh, d b = d₀ b) ∨ (∀ b ∈ lh, d b = cache b)) ∧
    (((do writeLog start lh cache; writeHead start lh : DiskProg Unit).writes d₀).length ≤ k →
      ∀ b ∈ lh, d b = cache b) ∧
    headerN (d start) = 0 ∧
    (∀ b, OutsideLog start lh.length b → b ∉ lh → d b = d₀ b) := by
  intro crashed d
  have hlen' : lh.length < 2 ^ 31 := by
    have hcap : LOGBLOCKS < 2 ^ 31 := by decide
    omega
  have hwrites : ((do writeLog start lh cache; writeHead start lh : DiskProg Unit).writes
      d₀).length = lh.length + 1 := by
    rw [writes_bind, List.length_append, length_writes_writeLog]
    rfl
  rw [hwrites]
  by_cases hk : k ≤ lh.length ∨ lh.length = 0
  · -- the header write did not happen: every reboot sees an empty log
    have hd : Clean start lh d₀ d :=
      ((stopAfter_commit_of_le hclean hk).reboots stops).exec_recover
    refine ⟨Or.inl fun b hb => hd.home b (hout b hb), fun hle b hb => ?_, hd.header,
      fun b hb _ => hd.home b hb⟩
    have hpos := List.length_pos_of_mem hb
    omega
  · -- the header write happened: every reboot sees the whole transaction
    have hcommitted : Durable start lh cache d₀ crashed :=
      stopAfter_commit_of_gt hclean hout (by omega) (by omega)
    have hd : Clean start lh (installed lh cache d₀) d :=
      (hcommitted.reboots hout hlen' hfit stops).exec_recover hout hlen' hfit
    have hall : ∀ b ∈ lh, d b = cache b := fun b hb => by
      rw [hd.home b (hout b hb), installed, if_pos hb]
    refine ⟨Or.inr hall, fun _ => hall, hd.header, fun b hb hmem => ?_⟩
    rw [hd.home b hb, installed, if_neg hmem]

/-- Two home blocks, stopped after the header write and one installed block, then one
    recovery stopped before it clears the header. -/
theorem commit_crash_atomic_two_blocks :
    let d₀ : Disk := fun _ _ => 0
    let cache : Nat → Block := fun b _ => UInt8.ofNat b
    let crashed := (commit 2 [40, 41] cache).stopAfter 4 d₀
    let d := (recoverFromLog 2).exec (reboots 2 [2] crashed)
    ∀ b ∈ [40, 41], d b = cache b :=
  (commit_crash_atomic 2 [40, 41] (fun b _ => UInt8.ofNat b) (fun _ _ => 0) (by decide)
    (by decide) (by simp [OutsideLog]) (by simp) 4 [2]).2.1 (by decide)

end Xv6.Log
