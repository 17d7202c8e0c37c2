import Xv6.Param
import Xv6.Lib.Transition
import Mathlib.Data.List.Perm.Basic
import Mathlib.Data.List.Perm.Subperm
import Mathlib.Data.List.Nodup
import Mathlib.Data.List.Range

/-!
# The buffer cache

`kernel/bio.c` over a disk.  The linked list through `prev` and `next` is the list
of its buffers from `head.next` (most recently used) to `head.prev`.  A sleep lock
records its holder; `acquiresleep` on a lock that is held blocks.  The disk driver
addresses sectors by block number alone, so the device of a buffer plays no part in
a transfer.
-/

namespace Xv6.Bio

open Transition

def NBUF : Nat := MAXOPBLOCKS * 3

def ROOTDEV : Nat := 1

inductive Panic where
  /-- `"bget: no buffers"` -/
  | noBuffers
  /-- `"bwrite"` -/
  | bwrite
  /-- `"brelse"` -/
  | brelse
deriving DecidableEq, Repr

abbrev Pid := Nat

/-- `struct buf`, less the list links. -/
structure Buf where
  /-- Has data been read from disk? -/
  valid : Bool
  dev : Nat
  blockno : Nat
  /-- The holder of the sleep lock. -/
  lock : Option Pid
  refcnt : Nat
  data : Block

/-- A process inside `bget` that has its reference to a buffer and not yet its lock. -/
structure Waiter where
  pid : Pid
  buf : Nat
  dev : Nat
  blockno : Nat
deriving DecidableEq, Repr

structure State where
  /-- `bcache.buf[NBUF]` -/
  buf : Nat → Buf
  /-- The indices of the buffers, most recently used first. -/
  order : List Nat
  /-- The processes in `acquiresleep` at the end of `bget`. -/
  waiting : List Waiter
  disk : Disk

/-- The buffer is the one for block `b` of device `dev`. -/
def Buf.caches (x : Buf) (dev b : Nat) : Prop := x.dev = dev ∧ x.blockno = b

instance (x : Buf) (dev b : Nat) : Decidable (x.caches dev b) := by
  unfold Buf.caches; infer_instance

def State.setBuf (s : State) (i : Nat) (x : Buf) : State :=
  { s with buf := Function.update s.buf i x }

/-- The cache that `binit` builds: zeroed buffers, the last one linked in first. -/
def binit (disk : Disk) : State where
  buf := fun _ => ⟨false, 0, 0, none, 0, fun _ => 0⟩
  order := (List.range NBUF).reverse
  waiting := []
  disk := disk

@[simp] theorem State.setBuf_self (s : State) (i : Nat) (x : Buf) : (s.setBuf i x).buf i = x := by
  simp [State.setBuf]

theorem State.setBuf_ne (s : State) {i j : Nat} (x : Buf) (h : j ≠ i) :
    (s.setBuf i x).buf j = s.buf j := by
  simp [State.setBuf, h]

/-! ### `bio.c` -/

/-- The part of `bget` under `bcache.lock`.  Look through the buffer cache for a block on
    device `dev`; if it is not found, recycle the least recently used unused buffer.  In
    either case the caller now has a reference to the buffer. -/
def bgetRef (me : Pid) (dev blockno : Nat) (s : State) : Outcome Panic (Nat × State) :=
  match s.order.find? fun i => decide ((s.buf i).caches dev blockno) with
  | some i =>
    .done (i, { s.setBuf i { s.buf i with refcnt := (s.buf i).refcnt + 1 } with
      waiting := ⟨me, i, dev, blockno⟩ :: s.waiting })
  | none =>
    match s.order.reverse.find? fun i => decide ((s.buf i).refcnt = 0) with
    | some i =>
      .done (i, { s.setBuf i { s.buf i with
          dev := dev, blockno := blockno, valid := false, refcnt := 1 } with
        waiting := ⟨me, i, dev, blockno⟩ :: s.waiting })
    | none => .fail .noBuffers

/-- `acquiresleep(&b->lock)`, called with a reference to the buffer. -/
def acquiresleep (me : Pid) (dev blockno i : Nat) (s : State) : Outcome Panic State :=
  if (s.buf i).lock = none then
    .done { s.setBuf i { s.buf i with lock := some me } with
      waiting := s.waiting.erase ⟨me, i, dev, blockno⟩ }
  else .blocked

/-- Return a locked buffer for a block, with or without its contents. -/
def bget (me : Pid) (dev blockno : Nat) (s : State) : Outcome Panic (Nat × State) := do
  let (i, s) ← bgetRef me dev blockno s
  let s ← acquiresleep me dev blockno i s
  return (i, s)

/-- The part of `bread` after `bget`: read the block unless the buffer has it. -/
def fill (i : Nat) (s : State) : State :=
  if (s.buf i).valid then s
  else s.setBuf i { s.buf i with data := s.disk (s.buf i).blockno, valid := true }

/-- Return a locked buffer with the contents of the indicated block. -/
def bread (me : Pid) (dev blockno : Nat) (s : State) : Outcome Panic (Nat × State) := do
  let (i, s) ← bget me dev blockno s
  return (i, fill i s)

/-- Write a buffer's contents to disk.  Must be locked. -/
def bwrite (me : Pid) (i : Nat) (s : State) : Outcome Panic State :=
  if (s.buf i).lock = some me then
    .done { s with disk := Function.update s.disk (s.buf i).blockno (s.buf i).data }
  else .fail .bwrite

/-- Release a locked buffer.  Move it to the head of the most-recently-used list. -/
def brelse (me : Pid) (i : Nat) (s : State) : Outcome Panic State :=
  if (s.buf i).lock = some me then
    let s := s.setBuf i { s.buf i with lock := none, refcnt := (s.buf i).refcnt - 1 }
    if (s.buf i).refcnt = 0 then .done { s with order := i :: s.order.erase i }
    else .done s
  else .fail .brelse

def bpin (i : Nat) (s : State) : State :=
  s.setBuf i { s.buf i with refcnt := (s.buf i).refcnt + 1 }

def bunpin (i : Nat) (s : State) : State :=
  s.setBuf i { s.buf i with refcnt := (s.buf i).refcnt - 1 }

/-- Overwrite the data of a buffer: an in-place modification by its holder. -/
def setData (i : Nat) (v : Block) (s : State) : State :=
  s.setBuf i { s.buf i with data := v }

/-- Process `me` holds buffer `i`, the one of block `b` of the root disk. -/
structure Holds (s : State) (me : Pid) (b i : Nat) : Prop where
  lt : i < NBUF
  caches : (s.buf i).caches ROOTDEV b
  lock : (s.buf i).lock = some me

theorem Holds.ne_none {s : State} {me : Pid} {b i : Nat} (h : Holds s me b i) :
    (s.buf i).lock ≠ none := by
  simp [h.lock]

theorem Holds.congr {s s' : State} {me : Pid} {b i : Nat} (h : Holds s me b i)
    (heq : s'.buf i = s.buf i) : Holds s' me b i :=
  ⟨h.lt, heq ▸ h.caches, heq ▸ h.lock⟩

theorem Holds.setBuf {s : State} {me : Pid} {b i : Nat} {x : Buf} (hi : i < NBUF)
    (hc : x.caches ROOTDEV b) (hl : x.lock = some me) : Holds (s.setBuf i x) me b i :=
  ⟨hi, by rw [State.setBuf_self]; exact hc, by rw [State.setBuf_self]; exact hl⟩

/-! ### The invariant of the cache

`P` lists the pinned blocks of the root disk.  A buffer's count is its holder, its
pin and the processes waiting for its lock, so an unused buffer has none of these. -/

section Invariant

/-- The references of a buffer's holder and of the log. -/
def Buf.refs (x : Buf) (P : List Nat) : Nat :=
  (if x.lock = none then 0 else 1) + (if x.dev = ROOTDEV ∧ x.blockno ∈ P then 1 else 0)

theorem Buf.refs_of_pinned {x : Buf} {P : List Nat} {b : Nat} (hc : x.caches ROOTDEV b)
    (hb : b ∈ P) : x.refs P = (if x.lock = none then 0 else 1) + 1 := by
  rw [Buf.refs, if_pos (show x.dev = ROOTDEV ∧ x.blockno ∈ P from ⟨hc.1, hc.2 ▸ hb⟩)]

theorem Buf.refs_of_not_pinned {x : Buf} {P : List Nat} {b : Nat} (hc : x.caches ROOTDEV b)
    (hb : b ∉ P) : x.refs P = if x.lock = none then 0 else 1 := by
  rw [Buf.refs, if_neg (show ¬ (x.dev = ROOTDEV ∧ x.blockno ∈ P) from fun hp => hb (hc.2 ▸ hp.2)),
    Nat.add_zero]

/-- The number of processes that wait for buffer `i`. -/
def waitersOn (W : List Waiter) (i : Nat) : Nat := W.countP fun w => decide (w.buf = i)

structure CacheInv (s : State) (P : List Nat) : Prop where
  order : s.order.Perm (List.range NBUF)
  keys : ∀ i < NBUF, ∀ j < NBUF, (s.buf i).dev ≠ 0 →
    (s.buf j).caches (s.buf i).dev (s.buf i).blockno → i = j
  pinned : ∀ b ∈ P, ∃ i < NBUF, (s.buf i).caches ROOTDEV b
  refcnt : ∀ i < NBUF, (s.buf i).refcnt = (s.buf i).refs P + waitersOn s.waiting i
  waiting : ∀ w ∈ s.waiting, w.buf < NBUF ∧ (s.buf w.buf).caches w.dev w.blockno

variable {s s' : State} {P : List Nat} {me : Pid} {b i : Nat}

theorem CacheInv.mem_order (h : CacheInv s P) : i ∈ s.order ↔ i < NBUF := by
  rw [h.order.mem_iff, List.mem_range]

theorem CacheInv.unique (h : CacheInv s P) {j : Nat} (hi : i < NBUF) (hj : j < NBUF)
    (hci : (s.buf i).caches ROOTDEV b) (hcj : (s.buf j).caches ROOTDEV b) : i = j := by
  refine h.keys i hi j hj ?_ ?_
  · rw [hci.1]
    decide
  · rw [hci.1, hci.2]
    exact hcj

theorem CacheInv.blockno_ne (h : CacheInv s P) (hi : i < NBUF) (hc : (s.buf i).caches ROOTDEV b)
    {j : Nat} (hj : j < NBUF) (hji : j ≠ i) (hdj : (s.buf j).dev = ROOTDEV) :
    (s.buf j).blockno ≠ b :=
  fun heq => hji (h.unique hj hi ⟨hdj, heq⟩ hc)

theorem CacheInv.of_refcnt_zero (h : CacheInv s P) (hi : i < NBUF) (hz : (s.buf i).refcnt = 0) :
    (s.buf i).lock = none ∧ ¬ ((s.buf i).dev = ROOTDEV ∧ (s.buf i).blockno ∈ P) := by
  have hrefs := h.refcnt i hi
  rw [hz, Buf.refs] at hrefs
  constructor
  · by_contra hlock
    rw [if_neg hlock] at hrefs
    omega
  · intro hpin
    rw [if_pos hpin] at hrefs
    omega

theorem CacheInv.not_waiting (h : CacheInv s P) (hi : i < NBUF) (hz : (s.buf i).refcnt = 0)
    {w : Waiter} (hw : w ∈ s.waiting) : w.buf ≠ i := by
  have hrefs := h.refcnt i hi
  have hcount : waitersOn s.waiting i = 0 := by omega
  simpa using List.countP_eq_zero.mp hcount w hw

/-- **Pigeonhole.**  If some buffer is not pinned, fewer than `NBUF` blocks are. -/
theorem CacheInv.length_lt (h : CacheInv s P) (hP : P.Nodup) (hi : i < NBUF)
    (hfree : ¬ ((s.buf i).dev = ROOTDEV ∧ (s.buf i).blockno ∈ P)) : P.length < NBUF := by
  have hsub : P ⊆ ((List.range NBUF).erase i).map fun j => (s.buf j).blockno := by
    intro x hx
    obtain ⟨j, hj, hcj⟩ := h.pinned x hx
    have hne : j ≠ i := by
      rintro rfl
      exact hfree ⟨hcj.1, hcj.2 ▸ hx⟩
    exact List.mem_map.mpr ⟨j, (List.mem_erase_of_ne hne).mpr (List.mem_range.mpr hj), hcj.2⟩
  have hle := (List.subperm_of_subset hP hsub).length_le
  have hmem : i ∈ List.range NBUF := List.mem_range.mpr hi
  have hpos : 0 < NBUF := by decide
  rw [List.length_map, List.length_erase_of_mem hmem, List.length_range] at hle
  omega

/-- Replacing one buffer keeps the cache in order if the new one is no second copy of a
    block, leaves every pinned block cached and counts its own references, and if the
    processes waiting for it wait for its block. -/
theorem CacheInv.setBuf {P' : List Nat} {W : List Waiter} {x : Buf} (h : CacheInv s P)
    (hi : i < NBUF)
    (hkey : ∀ j < NBUF, j ≠ i → x.dev ≠ 0 → ¬ (s.buf j).caches x.dev x.blockno)
    (hpin : ∀ b ∈ P', x.caches ROOTDEV b ∨ ∃ j < NBUF, j ≠ i ∧ (s.buf j).caches ROOTDEV b)
    (href : x.refcnt = x.refs P' + waitersOn W i)
    (hrest : ∀ j < NBUF, j ≠ i →
      (s.buf j).refs P' + waitersOn W j = (s.buf j).refs P + waitersOn s.waiting j)
    (hwait : ∀ w ∈ W, (w.buf = i ∧ x.caches w.dev w.blockno) ∨ (w.buf ≠ i ∧ w ∈ s.waiting)) :
    CacheInv { s.setBuf i x with waiting := W } P' := by
  refine ⟨h.order, fun j hj k hk hdev hcache => ?_, fun b hb => ?_, fun j hj => ?_,
    fun w hw => ?_⟩
  · dsimp only at hdev hcache
    by_cases hji : j = i <;> by_cases hki : k = i
    · rw [hji, hki]
    · subst hji
      rw [State.setBuf_self] at hdev hcache
      rw [State.setBuf_ne _ _ hki] at hcache
      exact absurd hcache (hkey k hk hki hdev)
    · subst hki
      rw [State.setBuf_self, State.setBuf_ne _ _ hji] at hcache
      rw [State.setBuf_ne _ _ hji] at hdev
      have hcj : (s.buf j).caches x.dev x.blockno := ⟨hcache.1.symm, hcache.2.symm⟩
      exact absurd hcj (hkey j hj hji (hcache.1 ▸ hdev))
    · rw [State.setBuf_ne _ _ hji] at hdev hcache
      rw [State.setBuf_ne _ _ hki] at hcache
      exact h.keys j hj k hk hdev hcache
  · rcases hpin b hb with hx | ⟨j, hj, hji, hcj⟩
    · exact ⟨i, hi, by simpa using hx⟩
    · exact ⟨j, hj, by simpa only [State.setBuf_ne _ _ hji] using hcj⟩
  · dsimp only
    by_cases hji : j = i
    · subst hji
      rw [State.setBuf_self]
      exact href
    · rw [State.setBuf_ne _ _ hji, h.refcnt j hj, hrest j hj hji]
  · dsimp only
    rcases hwait w hw with ⟨rfl, hc⟩ | ⟨hne, hmem⟩
    · exact ⟨hi, by rw [State.setBuf_self]; exact hc⟩
    · rw [State.setBuf_ne _ _ hne]
      exact h.waiting w hmem

theorem CacheInv.setBuf_same {x : Buf} (h : CacheInv s P) (hi : i < NBUF)
    (hdev : x.dev = (s.buf i).dev) (hblockno : x.blockno = (s.buf i).blockno)
    (href : x.refcnt = x.refs P + waitersOn s.waiting i) : CacheInv (s.setBuf i x) P := by
  refine h.setBuf hi (fun j hj hji hx hc => ?_) (fun b hb => ?_) href (fun _ _ _ => rfl)
    (fun w hw => ?_)
  · rw [hdev] at hx
    rw [hdev, hblockno] at hc
    exact hji (h.keys i hi j hj hx hc).symm
  · obtain ⟨j, hj, hcj⟩ := h.pinned b hb
    by_cases hji : j = i
    · subst hji
      exact Or.inl ⟨hdev.trans hcj.1, hblockno.trans hcj.2⟩
    · exact Or.inr ⟨j, hj, hji, hcj⟩
  · by_cases hwi : w.buf = i
    · have hcw := (h.waiting w hw).2
      rw [hwi] at hcw
      exact Or.inl ⟨hwi, hdev.trans hcw.1, hblockno.trans hcw.2⟩
    · exact Or.inr ⟨hwi, hw⟩

theorem CacheInv.reorder {order : List Nat} (h : CacheInv s P)
    (horder : order.Perm (List.range NBUF)) : CacheInv { s with order := order } P :=
  ⟨horder, h.keys, h.pinned, h.refcnt, h.waiting⟩

/-! ### `bget` and `bread` -/

/-- **What the locked part of `bget` does when it returns.**  Either the buffer already
    was the one of the block, or no buffer was and it was an unused one. -/
theorem bgetRef_done (h : CacheInv s P) (hs : bgetRef me ROOTDEV b s = .done (i, s')) :
    i < NBUF ∧ ∃ x : Buf,
      s' = { s.setBuf i x with waiting := ⟨me, i, ROOTDEV, b⟩ :: s.waiting } ∧
      (((s.buf i).caches ROOTDEV b ∧ x = { s.buf i with refcnt := (s.buf i).refcnt + 1 }) ∨
        ((∀ j < NBUF, ¬ (s.buf j).caches ROOTDEV b) ∧ (s.buf i).refcnt = 0 ∧
          x = { s.buf i with dev := ROOTDEV, blockno := b, valid := false, refcnt := 1 })) := by
  unfold bgetRef at hs
  split at hs
  · rename_i k hk
    obtain ⟨rfl, rfl⟩ := Prod.mk.inj (Outcome.done.inj hs)
    have hmem := h.mem_order.mp (List.mem_of_find?_eq_some hk)
    exact ⟨hmem, _, rfl, Or.inl ⟨by simpa using List.find?_some hk, rfl⟩⟩
  · rename_i hnone
    split at hs
    · rename_i k hk
      obtain ⟨rfl, rfl⟩ := Prod.mk.inj (Outcome.done.inj hs)
      have hmem := h.mem_order.mp (List.mem_reverse.mp (List.mem_of_find?_eq_some hk))
      refine ⟨hmem, _, rfl, Or.inr ⟨fun j hj hcj => ?_, by simpa using List.find?_some hk, rfl⟩⟩
      have hnot := List.find?_eq_none.mp hnone j (h.mem_order.mpr hj)
      simp [hcj] at hnot
    · exact absurd hs (by simp)

theorem waitersOn_cons (w : Waiter) (W : List Waiter) :
    waitersOn (w :: W) i = waitersOn W i + if w.buf = i then 1 else 0 := by
  simp [waitersOn, List.countP_cons]

theorem CacheInv.bgetRef (h : CacheInv s P) (hs : bgetRef me ROOTDEV b s = .done (i, s')) :
    CacheInv s' P := by
  obtain ⟨hi, x, rfl, hcase⟩ := bgetRef_done h hs
  have hrest : ∀ j < NBUF, j ≠ i → (s.buf j).refs P +
      waitersOn (⟨me, i, ROOTDEV, b⟩ :: s.waiting) j = (s.buf j).refs P + waitersOn s.waiting j := by
    intro j _ hji
    rw [waitersOn_cons, if_neg (Ne.symm hji), Nat.add_zero]
  rcases hcase with ⟨hc, rfl⟩ | ⟨hnone, hz, rfl⟩
  · refine h.setBuf hi (fun j hj hji _ hcj => ?_) (fun c hc' => ?_) ?_ hrest (fun w hw => ?_)
    · rw [hc.1, hc.2] at hcj
      exact hji (h.unique hj hi hcj hc)
    · obtain ⟨j, hj, hcj⟩ := h.pinned c hc'
      by_cases hji : j = i
      · exact Or.inl (hji ▸ hcj)
      · exact Or.inr ⟨j, hj, hji, hcj⟩
    · rw [waitersOn_cons, if_pos rfl, ← Nat.add_assoc]
      exact congrArg (· + 1) (h.refcnt i hi)
    · rcases List.mem_cons.mp hw with rfl | hw
      · exact Or.inl ⟨rfl, hc⟩
      · by_cases hwi : w.buf = i
        · exact Or.inl ⟨hwi, hwi ▸ (h.waiting w hw).2⟩
        · exact Or.inr ⟨hwi, hw⟩
  · obtain ⟨hlock, hnotpin⟩ := h.of_refcnt_zero hi hz
    have hnotP : b ∉ P := fun hb => by
      obtain ⟨j, hj, hcj⟩ := h.pinned b hb
      exact hnone j hj hcj
    refine h.setBuf hi (fun j hj _ _ hcj => hnone j hj hcj) (fun c hc => ?_) ?_ hrest
      (fun w hw => ?_)
    · obtain ⟨j, hj, hcj⟩ := h.pinned c hc
      refine Or.inr ⟨j, hj, ?_, hcj⟩
      rintro rfl
      exact hnotpin ⟨hcj.1, hcj.2 ▸ hc⟩
    · have hrefs := h.refcnt i hi
      rw [waitersOn_cons, if_pos rfl]
      simp only [Buf.refs, hlock, hnotP, and_false, if_true, if_false]
      omega
    · rcases List.mem_cons.mp hw with rfl | hw
      · exact Or.inl ⟨rfl, rfl, rfl⟩
      · exact Or.inr ⟨h.not_waiting hi hz hw, hw⟩

/-- The buffer once its lock is taken and its contents are there, `d` being the block on
    disk. -/
def Buf.acquired (x : Buf) (me : Pid) (d : Block) : Buf :=
  { x with lock := some me, valid := true, data := if x.valid then x.data else d }

/-- **What the rest of `bread` does when it returns**: a process waiting for the buffer of
    block `b` has its lock, and the buffer has contents. -/
theorem acquire_done (h : CacheInv s P) (hw : ⟨me, i, ROOTDEV, b⟩ ∈ s.waiting) {t : State}
    (hs : acquiresleep me ROOTDEV b i s = .done t) :
    i < NBUF ∧ (s.buf i).caches ROOTDEV b ∧ (s.buf i).lock = none ∧
    fill i t = { s.setBuf i ((s.buf i).acquired me (s.disk b)) with
      waiting := s.waiting.erase ⟨me, i, ROOTDEV, b⟩ } ∧ CacheInv (fill i t) P := by
  obtain ⟨hi, hc⟩ := h.waiting _ hw
  dsimp only at hi hc
  unfold acquiresleep at hs
  split at hs
  · rename_i hlock
    have hfill : fill i t = { s.setBuf i ((s.buf i).acquired me (s.disk b)) with
        waiting := s.waiting.erase ⟨me, i, ROOTDEV, b⟩ } := by
      rw [← Outcome.done.inj hs, fill]
      by_cases hv : (s.buf i).valid = true
      · simp [Buf.acquired, State.setBuf, hv]
      · simp [Buf.acquired, State.setBuf, hv, hc.2]
    refine ⟨hi, hc, hlock, hfill, hfill ▸ h.setBuf hi (fun j hj hji _ hcj => ?_) (fun c hc' => ?_)
      ?_ (fun j _ hji => ?_) (fun w hw' => ?_)⟩
    · rw [Buf.acquired, hc.1, hc.2] at hcj
      exact hji (h.unique hj hi hcj hc)
    · obtain ⟨j, hj, hcj⟩ := h.pinned c hc'
      by_cases hji : j = i
      · exact Or.inl (hji ▸ hcj)
      · exact Or.inr ⟨j, hj, hji, hcj⟩
    · -- the reference of the waiter becomes that of the holder
      have hrefs := h.refcnt i hi
      have hcount : waitersOn (s.waiting.erase ⟨me, i, ROOTDEV, b⟩) i + 1 =
          waitersOn s.waiting i := by
        rw [waitersOn, waitersOn, (List.perm_cons_erase hw).countP_eq, List.countP_cons]
        simp
      rw [Buf.refs, if_pos hlock] at hrefs
      show (s.buf i).refcnt =
        (1 + if (s.buf i).dev = ROOTDEV ∧ (s.buf i).blockno ∈ P then 1 else 0) +
          waitersOn (s.waiting.erase ⟨me, i, ROOTDEV, b⟩) i
      omega
    · rw [waitersOn, waitersOn, (List.perm_cons_erase hw).countP_eq, List.countP_cons]
      simp [Ne.symm hji]
    · have hmem := List.mem_of_mem_erase hw'
      by_cases hwi : w.buf = i
      · exact Or.inl ⟨hwi, by simpa [Buf.caches, Buf.acquired, hwi] using (h.waiting w hmem).2⟩
      · exact Or.inr ⟨hwi, hmem⟩
  · exact absurd hs (by simp)

theorem bread_eq_done {dev : Nat} (hs : bread me dev b s = .done (i, s')) :
    ∃ t u, bgetRef me dev b s = .done (i, t) ∧ acquiresleep me dev b i t = .done u ∧
      s' = fill i u := by
  obtain ⟨⟨k, u⟩, hget, hfill⟩ := Outcome.bind_eq_done.mp hs
  obtain ⟨⟨k', t⟩, href, hrest⟩ := Outcome.bind_eq_done.mp hget
  obtain ⟨u', hacq, hret⟩ := Outcome.bind_eq_done.mp hrest
  obtain ⟨rfl, rfl⟩ := Prod.mk.inj (Outcome.done.inj hret)
  obtain ⟨rfl, rfl⟩ := Prod.mk.inj (Outcome.done.inj hfill)
  exact ⟨t, u', href, hacq, rfl⟩

/-- **`bread`** keeps the cache in order, gives the caller the lock on the one buffer of the
    block, and changes no other buffer. -/
theorem CacheInv.bread (h : CacheInv s P) (hs : bread me ROOTDEV b s = .done (i, s')) :
    CacheInv s' P ∧ Holds s' me b i ∧ (s.buf i).lock = none ∧ s'.disk = s.disk ∧
    s'.waiting = s.waiting ∧ ∀ j, j ≠ i → s'.buf j = s.buf j := by
  obtain ⟨t, u, href, hacq, rfl⟩ := bread_eq_done hs
  have ht := h.bgetRef href
  obtain ⟨hi, x, rfl, hcase⟩ := bgetRef_done h href
  obtain ⟨_, hc, hlock, hfill, hinv⟩ := acquire_done ht List.mem_cons_self hacq
  have hlock' : x.lock = none := by simpa using hlock
  refine ⟨hinv, ⟨hi, ?_, ?_⟩, ?_, ?_, ?_, fun j hji => ?_⟩
  · rw [hfill]
    simpa [Buf.acquired, Buf.caches] using hc
  · rw [hfill]
    simp [Buf.acquired]
  · rcases hcase with ⟨_, rfl⟩ | ⟨_, _, rfl⟩
    · exact hlock'
    · exact hlock'
  · rw [hfill]
    rfl
  · rw [hfill]
    simp
  · rw [hfill]
    simp [State.setBuf, hji]

/-! ### `brelse`, `bpin` and `bunpin` -/

/-- The buffer after its holder released it. -/
def Buf.released (x : Buf) : Buf := { x with lock := none, refcnt := x.refcnt - 1 }

theorem CacheInv.released (h : CacheInv s P) (hi : i < NBUF) (hl : (s.buf i).lock ≠ none) :
    CacheInv (s.setBuf i (s.buf i).released) P := by
  refine h.setBuf_same hi rfl rfl ?_
  have hrefs := h.refcnt i hi
  rw [Buf.refs, if_neg hl] at hrefs
  show (s.buf i).refcnt - 1 =
    (0 + if (s.buf i).dev = ROOTDEV ∧ (s.buf i).blockno ∈ P then 1 else 0) +
      waitersOn s.waiting i
  omega

/-- **`brelse`** by the holder returns and changes only that buffer and the order. -/
theorem brelse_buf (h : CacheInv s P) (hh : Holds s me b i) :
    ∃ s', brelse me i s = .done s' ∧ CacheInv s' P ∧ s'.disk = s.disk ∧
      s'.waiting = s.waiting ∧ s'.buf = (s.setBuf i (s.buf i).released).buf := by
  have hrel := h.released hh.lt hh.ne_none
  rw [brelse, if_pos hh.lock]
  dsimp only
  split
  · refine ⟨_, rfl, hrel.reorder ?_, rfl, rfl, rfl⟩
    exact (List.perm_cons_erase (h.mem_order.mpr hh.lt)).symm.trans h.order
  · exact ⟨_, rfl, hrel, rfl, rfl, rfl⟩

theorem CacheInv.repin {x : Buf} {P' : List Nat} (h : CacheInv s P) (hi : i < NBUF)
    (hc : (s.buf i).caches ROOTDEV b) (hxc : x.caches ROOTDEV b)
    (href : x.refcnt = x.refs P' + waitersOn s.waiting i)
    (hP : ∀ c, c ≠ b → (c ∈ P' ↔ c ∈ P)) : CacheInv (s.setBuf i x) P' := by
  refine h.setBuf hi (fun j hj hji _ hcj => ?_) (fun c hcP => ?_) href (fun j hj hji => ?_)
    (fun w hw => ?_)
  · rw [hxc.1, hxc.2] at hcj
    exact h.blockno_ne hi hc hj hji hcj.1 hcj.2
  · by_cases hcb : c = b
    · exact Or.inl (hcb ▸ hxc)
    · obtain ⟨j, hj, hcj⟩ := h.pinned c ((hP c hcb).mp hcP)
      refine Or.inr ⟨j, hj, ?_, hcj⟩
      rintro rfl
      exact hcb (hcj.2.symm.trans hc.2)
  · have hiff : (s.buf j).dev = ROOTDEV ∧ (s.buf j).blockno ∈ P' ↔
        (s.buf j).dev = ROOTDEV ∧ (s.buf j).blockno ∈ P :=
      and_congr_right fun hdj => hP _ (h.blockno_ne hi hc hj hji hdj)
    simp only [Buf.refs, hiff]
  · by_cases hwi : w.buf = i
    · have hcw := (h.waiting w hw).2
      rw [hwi] at hcw
      exact Or.inl ⟨hwi, hxc.1.trans (hc.1.symm.trans hcw.1), hxc.2.trans (hc.2.symm.trans hcw.2)⟩
    · exact Or.inr ⟨hwi, hw⟩

theorem CacheInv.bpin (h : CacheInv s P) (hi : i < NBUF) (hc : (s.buf i).caches ROOTDEV b)
    (hb : b ∉ P) : CacheInv (bpin i s) (P ++ [b]) := by
  refine h.repin hi hc hc ?_ (fun c hcb => by simp [hcb])
  have hrefs := h.refcnt i hi
  rw [Buf.refs_of_not_pinned hc hb] at hrefs
  show (s.buf i).refcnt + 1 = (s.buf i).refs (P ++ [b]) + waitersOn s.waiting i
  rw [Buf.refs_of_pinned hc (by simp)]
  omega

theorem CacheInv.bunpin (h : CacheInv s P) (hi : i < NBUF) (hc : (s.buf i).caches ROOTDEV b)
    (hb : b ∈ P) (hP : P.Nodup) : CacheInv (bunpin i s) (P.erase b) := by
  refine h.repin hi hc hc ?_ (fun c hcb => List.mem_erase_of_ne hcb)
  have hrefs := h.refcnt i hi
  rw [Buf.refs_of_pinned hc hb] at hrefs
  show (s.buf i).refcnt - 1 = (s.buf i).refs (P.erase b) + waitersOn s.waiting i
  rw [Buf.refs_of_not_pinned hc hP.not_mem_erase]
  omega

/-! ### When `bread` returns -/

theorem bread_hit (h : CacheInv s P) (hi : i < NBUF) (hc : (s.buf i).caches ROOTDEV b)
    (hl : (s.buf i).lock = none) (me : Pid) : ∃ s', bread me ROOTDEV b s = .done (i, s') := by
  have hfind : s.order.find? (fun j => decide ((s.buf j).caches ROOTDEV b)) = some i := by
    cases hf : s.order.find? (fun j => decide ((s.buf j).caches ROOTDEV b)) with
    | none =>
      have hnot := List.find?_eq_none.mp hf i (h.mem_order.mpr hi)
      simp [hc] at hnot
    | some k =>
      have hk := h.mem_order.mp (List.mem_of_find?_eq_some hf)
      have hck : (s.buf k).caches ROOTDEV b := by simpa using List.find?_some hf
      rw [h.unique hi hk hc hck]
  have hl' : ((s.setBuf i { s.buf i with refcnt := (s.buf i).refcnt + 1 }).buf i).lock = none := by
    simpa using hl
  simp only [Bio.bread, bget, Bio.bgetRef, hfind, Outcome.done_bind, acquiresleep, if_pos hl',
    Outcome.pure_eq_done]
  exact ⟨_, rfl⟩

theorem bread_miss (h : CacheInv s P) (hnone : ∀ j < NBUF, ¬ (s.buf j).caches ROOTDEV b)
    (hi : i < NBUF) (hz : (s.buf i).refcnt = 0) (me : Pid) :
    ∃ k s', bread me ROOTDEV b s = .done (k, s') := by
  have hfind : s.order.find? (fun j => decide ((s.buf j).caches ROOTDEV b)) = none := by
    refine List.find?_eq_none.mpr fun j hj => ?_
    simpa using hnone j (h.mem_order.mp hj)
  cases hf : s.order.reverse.find? (fun j => decide ((s.buf j).refcnt = 0)) with
  | none =>
    have hnot := List.find?_eq_none.mp hf i (List.mem_reverse.mpr (h.mem_order.mpr hi))
    simp [hz] at hnot
  | some k =>
    have hk := h.mem_order.mp (List.mem_reverse.mp (List.mem_of_find?_eq_some hf))
    have hzk : (s.buf k).refcnt = 0 := by simpa using List.find?_some hf
    have hl : ((s.setBuf k { s.buf k with
        dev := ROOTDEV, blockno := b, valid := false, refcnt := 1 }).buf k).lock = none := by
      simpa using (h.of_refcnt_zero hk hzk).1
    simp only [Bio.bread, bget, Bio.bgetRef, hfind, hf, Outcome.done_bind, acquiresleep, if_pos hl,
      Outcome.pure_eq_done]
    exact ⟨k, _, rfl⟩

/-- With fewer than `NBUF` pinned blocks and no buffer held or waited for, every block is
    returned. -/
theorem bread_returns (h : CacheInv s P) (hP : P.length < NBUF)
    (hfree : ∀ j < NBUF, (s.buf j).lock = none) (hidle : s.waiting = []) (me : Pid) (b : Nat) :
    ∃ k s', bread me ROOTDEV b s = .done (k, s') := by
  by_cases hcached : ∃ j < NBUF, (s.buf j).caches ROOTDEV b
  · obtain ⟨j, hj, hcj⟩ := hcached
    exact ⟨j, bread_hit h hj hcj (hfree j hj) me⟩
  · have hnone : ∀ j < NBUF, ¬ (s.buf j).caches ROOTDEV b := fun j hj hcj => hcached ⟨j, hj, hcj⟩
    by_cases hunused : ∃ j < NBUF, (s.buf j).refcnt = 0
    · obtain ⟨j, hj, hz⟩ := hunused
      exact bread_miss h hnone hj hz me
    · -- every buffer is pinned, each to a block of its own
      exfalso
      have hpin : ∀ j < NBUF, (s.buf j).dev = ROOTDEV ∧ (s.buf j).blockno ∈ P := by
        intro j hj
        by_contra hnot
        refine hunused ⟨j, hj, ?_⟩
        rw [h.refcnt j hj, Buf.refs, if_pos (hfree j hj), if_neg hnot, hidle]
        rfl
      have hmap : ((List.range NBUF).map fun j => (s.buf j).blockno).Nodup := by
        refine List.Nodup.map_on (fun j hj k hk heq => ?_) List.nodup_range
        have hj' := List.mem_range.mp hj
        have hk' := List.mem_range.mp hk
        exact h.unique hj' hk' ⟨(hpin j hj').1, heq⟩ ⟨(hpin k hk').1, rfl⟩
      have hsub : ((List.range NBUF).map fun j => (s.buf j).blockno) ⊆ P := by
        intro x hx
        obtain ⟨j, hj, rfl⟩ := List.mem_map.mp hx
        exact (hpin j (List.mem_range.mp hj)).2
      have hle := (List.subperm_of_subset hmap hsub).length_le
      rw [List.length_map, List.length_range] at hle
      omega

/-- With `NBUF` blocks pinned there is no buffer for any other block. -/
theorem bread_noBuffers (h : CacheInv s P) (hP : P.Nodup) (hlen : NBUF ≤ P.length)
    (hb : b ∉ P) (me : Pid) : bread me ROOTDEV b s = .fail .noBuffers := by
  have hpin : ∀ j < NBUF, (s.buf j).dev = ROOTDEV ∧ (s.buf j).blockno ∈ P := by
    intro j hj
    by_contra hnot
    have hlt := h.length_lt hP hj hnot
    omega
  have hfind : s.order.find? (fun j => decide ((s.buf j).caches ROOTDEV b)) = none := by
    refine List.find?_eq_none.mpr fun j hj => ?_
    have hmem := (hpin j (h.mem_order.mp hj)).2
    have hnot : ¬ (s.buf j).caches ROOTDEV b := fun hc => hb (hc.2 ▸ hmem)
    simpa using hnot
  have hfull : s.order.reverse.find? (fun j => decide ((s.buf j).refcnt = 0)) = none := by
    refine List.find?_eq_none.mpr fun j hj => ?_
    have hj' := h.mem_order.mp (List.mem_reverse.mp hj)
    have hne : (s.buf j).refcnt ≠ 0 := fun hz => (h.of_refcnt_zero hj' hz).2 (hpin j hj')
    simpa using hne
  simp only [Bio.bread, bget, Bio.bgetRef, hfind, hfull, Outcome.fail_bind]

end Invariant

end Xv6.Bio
