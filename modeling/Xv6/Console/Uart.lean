import Xv6.Lib.Ring
import Xv6.Lib.Transition
import Mathlib.Data.List.GetD
import Mathlib.Data.List.Infix

/-!
# Output through the UART

The output side of `kernel/uart.c`.  Writers put bytes into `tx_buf`, and `uartstart` moves them to
the device while that is idle; `uartputc_sync` writes to the device directly.  Everything happens
under `tx_lock`, which a writer gives up after each byte and while it waits for room.  One step is
one section under the lock.  A writer that waits may run again at any time, and whatever the line
status register says may come from the device.
-/

namespace Xv6.Console.Uart

open Transition

def UART_TX_BUF_SIZE : Nat := 32

/-- THR can accept another character to send. -/
def LSR_TX_IDLE : UInt8 := (1 : UInt8) <<< (5 : UInt8)

/-- `tx_buf`, `tx_r` and `tx_w`, and what has been written to the device: the last two fields are
    there for the statements. -/
structure Tx where
  tx_buf : Nat → UInt8
  tx_r : BitVec 32
  tx_w : BitVec 32
  /-- All that has been written to THR. -/
  thr : List UInt8
  /-- What `uartstart` has written there. -/
  sent : List UInt8

/-- The loop of `uartstart`; `lsr k` is what the `k`-th read of the line status register gives.  A
    round takes `tx_r` one nearer to `tx_w`, so there are at most `tx_w - tx_r` of them. -/
def startLoop : Nat → (Nat → UInt8) → Tx → Tx
  | 0, _, s => s
  | rounds + 1, lsr, s =>
    if s.tx_w ≠ s.tx_r ∧ lsr 0 &&& LSR_TX_IDLE ≠ 0 then
      let c := s.tx_buf (s.tx_r.toNat % UART_TX_BUF_SIZE)
      startLoop rounds (fun k => lsr (k + 1))
        { s with thr := s.thr ++ [c], sent := s.sent ++ [c], tx_r := s.tx_r + 1 }
    else s

def uartstart (lsr : Nat → UInt8) (s : Tx) : Tx := startLoop (s.tx_w - s.tx_r).toNat lsr s

/-- `tx_buf[tx_w % UART_TX_BUF_SIZE] = c; tx_w++;` -/
def Tx.put (c : UInt8) (s : Tx) : Tx :=
  { s with
    tx_buf := Function.update s.tx_buf (s.tx_w.toNat % UART_TX_BUF_SIZE) c
    tx_w := s.tx_w + 1 }

/-- A call `uartwrite(buf, n)`, where `i` is the loop's. -/
structure Writer where
  buf : List UInt8
  i : Nat

/-- The UART and all calls of `uartwrite` so far, in the order in which they were made. -/
structure Sys where
  tx : Tx
  writers : List Writer
  /-- The bytes put into `tx_buf`, each with the number of its call. -/
  accepted : List (Nat × UInt8)

def Sys.init : Sys := ⟨⟨fun _ => 0, 0, 0, [], []⟩, [], []⟩

inductive Act where
  /-- A process calls `uartwrite`. -/
  | call (buf : List UInt8)
  /-- The `k`-th call has the lock, for its next byte. -/
  | write (k : Nat) (lsr : Nat → UInt8)
  /-- `uartintr`, as far as it holds the lock. -/
  | intr (lsr : Nat → UInt8)
  /-- `uartputc_sync(c)`, once the device is idle. -/
  | putcSync (c : UInt8)

def step (s : Sys) : Act → Outcome Empty Sys
  | .call buf => .done { s with writers := s.writers ++ [⟨buf, 0⟩] }
  | .write k lsr =>
    match s.writers[k]? with
    | none => .blocked
    | some w =>
      match w.buf[w.i]? with
      -- it has returned
      | none => .blocked
      | some c =>
        -- it sleeps
        if s.tx.tx_w = s.tx.tx_r + BitVec.ofNat 32 UART_TX_BUF_SIZE then .done s
        else .done
          { tx := uartstart lsr (s.tx.put c)
            writers := s.writers.set k { w with i := w.i + 1 }
            accepted := s.accepted ++ [(k, c)] }
  | .intr lsr => .done { s with tx := uartstart lsr s.tx }
  | .putcSync c => .done { s with tx := { s.tx with thr := s.tx.thr ++ [c] } }

/-! ### The queue -/

/-- The bytes that wait to be sent. -/
def Tx.queued (s : Tx) : List UInt8 := Ring.between UART_TX_BUF_SIZE s.tx_buf s.tx_r s.tx_w

theorem size_dvd : UART_TX_BUF_SIZE ∣ 2 ^ 32 := by decide

theorem Tx.length_queued (s : Tx) : s.queued.length = (s.tx_w - s.tx_r).toNat := Ring.length_between

theorem Tx.full_iff (s : Tx) : s.tx_w = s.tx_r + BitVec.ofNat 32 UART_TX_BUF_SIZE ↔
    s.queued.length = UART_TX_BUF_SIZE := by
  rw [Tx.length_queued]
  unfold UART_TX_BUF_SIZE
  bv_omega

theorem Tx.queued_put {s : Tx} (h : s.queued.length < UART_TX_BUF_SIZE) (c : UInt8) :
    (s.put c).queued = s.queued ++ [c] := by
  have hkeep : Ring.between UART_TX_BUF_SIZE (s.put c).tx_buf s.tx_r s.tx_w = s.queued :=
    Ring.between_update size_dvd h c
  have hroom : (Ring.between UART_TX_BUF_SIZE (s.put c).tx_buf s.tx_r s.tx_w).length + 1 < 2 ^ 32 := by
    rw [hkeep]
    unfold UART_TX_BUF_SIZE at h
    omega
  have hpush : (s.put c).queued = Ring.between UART_TX_BUF_SIZE (s.put c).tx_buf s.tx_r s.tx_w ++
      [(s.put c).tx_buf (s.tx_w.toNat % UART_TX_BUF_SIZE)] :=
    Ring.between_push (by decide) size_dvd hroom
  rw [hpush, hkeep]
  exact congrArg (fun b => s.queued ++ [b]) (Function.update_self ..)

/-- What `uartstart` sends comes from the front of the queue. -/
structure Started (s s' : Tx) : Prop where
  queue : s'.sent ++ s'.queued = s.sent ++ s.queued
  shorter : s'.queued.length ≤ s.queued.length
  thr : s.sent.Sublist s.thr → s'.sent.Sublist s'.thr

theorem startLoop_started (rounds : Nat) (lsr : Nat → UInt8) (s : Tx) :
    Started s (startLoop rounds lsr s) := by
  induction rounds generalizing lsr s with
  | zero => exact ⟨rfl, Nat.le_refl _, id⟩
  | succ rounds ih =>
    unfold startLoop
    split
    · rename_i hgo
      have hpop : s.queued = s.tx_buf (s.tx_r.toNat % UART_TX_BUF_SIZE) ::
          Ring.between UART_TX_BUF_SIZE s.tx_buf (s.tx_r + 1) s.tx_w :=
        Ring.between_pop (by decide) size_dvd (Ne.symm hgo.1)
      obtain ⟨hqueue, hshorter, hthr⟩ := ih (fun k => lsr (k + 1))
        { s with
          thr := s.thr ++ [s.tx_buf (s.tx_r.toNat % UART_TX_BUF_SIZE)]
          sent := s.sent ++ [s.tx_buf (s.tx_r.toNat % UART_TX_BUF_SIZE)]
          tx_r := s.tx_r + 1 }
      refine ⟨?_, ?_, fun h => hthr (h.append (List.Sublist.refl _))⟩
      · rw [hqueue, hpop, List.append_assoc]
        rfl
      · rw [hpop, List.length_cons]
        exact Nat.le_succ_of_le hshorter
    · exact ⟨rfl, Nat.le_refl _, id⟩

/-! ### Runs -/

/-- The bytes of the `k`-th call among some that have been accepted. -/
def bytesOf (k : Nat) (bytes : List (Nat × UInt8)) : List UInt8 :=
  (bytes.filter fun b => b.1 = k).map Prod.snd

theorem bytesOf_append (k : Nat) (bs cs : List (Nat × UInt8)) :
    bytesOf k (bs ++ cs) = bytesOf k bs ++ bytesOf k cs := by
  simp [bytesOf]

/-- What has been accepted of a call, if it has been made. -/
def Sys.taken (s : Sys) (k : Nat) : List UInt8 :=
  (s.writers[k]?.map fun w => w.buf.take w.i).getD []

structure Inv (s : Sys) : Prop where
  room : s.tx.queued.length ≤ UART_TX_BUF_SIZE
  queue : s.tx.sent ++ s.tx.queued = s.accepted.map Prod.snd
  owner : ∀ k, bytesOf k s.accepted = s.taken k
  thr : s.tx.sent.Sublist s.tx.thr

theorem inv_init : Inv Sys.init := by
  refine ⟨Nat.zero_le _, ?_, fun k => ?_, List.Sublist.refl _⟩
  · exact Ring.between_self _ _
  · simp [Sys.init, Sys.taken, bytesOf]

theorem Inv.started {s : Sys} (h : Inv s) {tx : Tx} (hstart : Started s.tx tx) :
    Inv { s with tx := tx } :=
  ⟨Nat.le_trans hstart.shorter h.room, hstart.queue.trans h.queue, h.owner, hstart.thr h.thr⟩

theorem Inv.accept {s : Sys} (h : Inv s) {k : Nat} {w : Writer} {c : UInt8}
    (hw : s.writers[k]? = some w) (hc : w.buf[w.i]? = some c)
    (hroom : s.tx.queued.length ≠ UART_TX_BUF_SIZE) :
    Inv ⟨s.tx.put c, s.writers.set k { w with i := w.i + 1 }, s.accepted ++ [(k, c)]⟩ := by
  have hlt : s.tx.queued.length < UART_TX_BUF_SIZE := Nat.lt_of_le_of_ne h.room hroom
  have hqueued := Tx.queued_put hlt c
  have hklt : k < s.writers.length := (List.getElem?_eq_some_iff.mp hw).1
  refine ⟨?_, ?_, fun j => ?_, h.thr⟩
  · rw [hqueued, List.length_append]
    exact hlt
  · show s.tx.sent ++ (s.tx.put c).queued = _
    rw [hqueued, ← List.append_assoc, h.queue, List.map_append]
    rfl
  · rw [bytesOf_append, h.owner j]
    simp only [Sys.taken]
    by_cases hj : j = k
    · subst hj
      rw [List.getElem?_set_self hklt, hw]
      simp only [Option.map_some, Option.getD_some, List.take_add_one, hc]
      simp [bytesOf]
    · rw [List.getElem?_set_ne (Ne.symm hj)]
      simp [bytesOf, Ne.symm hj]

theorem Inv.step {s s' : Sys} (h : Inv s) {a : Act} (hstep : step s a = .done s') : Inv s' := by
  cases a with
  | call buf =>
    obtain rfl := Outcome.done.inj hstep
    refine ⟨h.room, h.queue, fun k => ?_, h.thr⟩
    rw [h.owner k]
    simp only [Sys.taken]
    obtain hlt | rfl | hgt := Nat.lt_trichotomy k s.writers.length
    · rw [List.getElem?_append_left hlt]
    · simp
    · rw [List.getElem?_eq_none (Nat.le_of_lt hgt), List.getElem?_eq_none]
      rw [List.length_append]
      exact hgt
  | write k lsr =>
    simp only [Uart.step] at hstep
    split at hstep
    · exact nomatch hstep
    rename_i w hw
    split at hstep
    · exact nomatch hstep
    rename_i c hc
    split at hstep
    · exact Outcome.done.inj hstep ▸ h
    rename_i hfull
    obtain rfl := Outcome.done.inj hstep
    exact (h.accept hw hc fun hlen => hfull (s.tx.full_iff.mpr hlen)).started
      (startLoop_started _ lsr _)
  | intr lsr =>
    obtain rfl := Outcome.done.inj hstep
    exact h.started (startLoop_started _ lsr _)
  | putcSync c =>
    obtain rfl := Outcome.done.inj hstep
    exact ⟨h.room, h.queue, h.owner, h.thr.trans (List.sublist_append_left _ _)⟩

/-- **Output keeps its order.**  In any run of writers, interrupts and direct output, with any
    answers of the device: the queue never holds more than its size, what has been accepted is what
    `uartstart` has sent and then, unharmed, what is queued, and both of what has been accepted and
    of what has been sent each call's part is a beginning of its own bytes. -/
theorem output_in_order {s : Sys} (h : Reachable Sys.init step (fun _ _ => True) s) :
    (s.tx.tx_w - s.tx.tx_r).toNat ≤ UART_TX_BUF_SIZE ∧
    s.tx.sent ++ s.tx.queued = s.accepted.map Prod.snd ∧
    s.tx.sent <+: s.accepted.map Prod.snd ∧
    s.tx.sent.Sublist s.tx.thr ∧
    ∀ k w, s.writers[k]? = some w →
      bytesOf k s.accepted = w.buf.take w.i ∧
      bytesOf k (s.accepted.take s.tx.sent.length) <+: w.buf := by
  have hinv := Reachable.invariant (I := Inv) inv_init (fun _ hI _ hstep => hI.step hstep) h
  refine ⟨s.tx.length_queued ▸ hinv.room, hinv.queue, ⟨_, hinv.queue⟩, hinv.thr,
    fun k w hw => ?_⟩
  have howner : bytesOf k s.accepted = w.buf.take w.i := by
    rw [hinv.owner k, Sys.taken, hw]
    rfl
  refine ⟨howner, ?_⟩
  have hsplit := List.take_append_drop s.tx.sent.length s.accepted
  have hprefix : bytesOf k (s.accepted.take s.tx.sent.length) <+: bytesOf k s.accepted := by
    rw [← hsplit, bytesOf_append, hsplit]
    exact List.prefix_append _ _
  rw [howner] at hprefix
  exact hprefix.trans (List.take_prefix _ _)

/-- Two calls, of which the first is overtaken; the device takes one byte of the queue after a
    direct one. -/
def overtaken : List Act :=
  [.call [97, 98], .call [120], .write 0 fun _ => 0, .write 1 fun _ => 0, .putcSync 33,
    .intr fun k => if k = 0 then LSR_TX_IDLE else 0, .write 0 fun _ => 0]

theorem output_in_order_overtaken :
    let s := finalState step (fun _ _ => true) Sys.init overtaken
    s.tx.thr = [33, 97] ∧ s.tx.sent ++ s.tx.queued = [97, 120, 98] ∧
      s.tx.sent <+: s.accepted.map Prod.snd :=
  have hreach : Reachable Sys.init step (fun _ _ => True)
      (finalState step (fun _ _ => true) Sys.init overtaken) :=
    (reachable_finalState (by decide)).mono fun _ _ _ => trivial
  have horder := output_in_order hreach
  ⟨by decide, horder.2.1.trans (by decide), horder.2.2.1⟩

end Xv6.Console.Uart
