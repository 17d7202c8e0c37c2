import Xv6.Pipes.Model
import Mathlib.Data.List.Perm.Basic

/-!
# Pipes are byte streams

The buffer holds what has been accepted and not yet delivered, whatever calls run and wherever
they fail, and the page lives as long as one of the ends is open.
-/

namespace Xv6.Pipes

open Transition Function

def Pipe.buffered (pi : Pipe) : List UInt8 :=
  Ring.between PIPESIZE pi.data pi.nread.toBitVec pi.nwrite.toBitVec

section Buffer

variable {pi : Pipe}

theorem PIPESIZE_dvd : PIPESIZE ∣ 2 ^ 32 := by decide

theorem Pipe.length_buffered : pi.buffered.length = (pi.nwrite - pi.nread).toNat :=
  Ring.length_between

theorem Pipe.full_iff :
    pi.nwrite = pi.nread + UInt32.ofNat PIPESIZE ↔ pi.buffered.length = PIPESIZE := by
  have hsize : (UInt32.ofNat PIPESIZE).toNat = PIPESIZE := rfl
  rw [Pipe.length_buffered]
  constructor
  · intro h
    rw [h, UInt32.add_comm, UInt32.add_sub_cancel, hsize]
  · intro h
    have hsub : pi.nwrite - pi.nread = UInt32.ofNat PIPESIZE := UInt32.toNat_inj.mp (h.trans hsize.symm)
    rw [← hsub, UInt32.add_comm, UInt32.sub_add_cancel]

theorem Pipe.empty_iff : pi.nread = pi.nwrite ↔ pi.buffered = [] := by
  rw [Pipe.buffered, Ring.between_eq_nil_iff, UInt32.toBitVec_inj]

theorem Pipe.buffered_put (h : pi.buffered.length < PIPESIZE) (ch : UInt8) :
    (pi.put ch).buffered = pi.buffered ++ [ch] := by
  have hroom : pi.buffered.length + 1 < 2 ^ 32 := by
    rw [show PIPESIZE = 512 from rfl] at h
    omega
  have hkeep : Ring.between PIPESIZE (pi.put ch).data pi.nread.toBitVec pi.nwrite.toBitVec =
      pi.buffered := Ring.between_update PIPESIZE_dvd h ch
  have hpush : (pi.put ch).buffered = Ring.between PIPESIZE (pi.put ch).data pi.nread.toBitVec
      pi.nwrite.toBitVec ++ [(pi.put ch).data (pi.nwrite.toNat % PIPESIZE)] :=
    Ring.between_push (by decide) PIPESIZE_dvd (Eq.trans_lt (congrArg (·.length + 1) hkeep) hroom)
  rw [hpush, hkeep]
  exact congrArg (fun b => pi.buffered ++ [b]) (update_self ..)

theorem Pipe.buffered_take (h : pi.nread ≠ pi.nwrite) :
    pi.buffered = pi.data (pi.nread.toNat % PIPESIZE) ::
      ({ pi with nread := pi.nread + 1 } : Pipe).buffered :=
  Ring.between_pop (by decide) PIPESIZE_dvd fun heq => h (UInt32.toBitVec_inj.mp heq)

end Buffer

/-! ### What a section does -/

/-- A section of `pipewrite` from byte `i` on has inserted the next bytes, up to one that could
    not be copied, or until it had to stop. -/
structure Wrote (killed : Nat → Bool) (copyin : Nat → Option UInt8) (n : Int) (i : Nat) (pi : Pipe)
    (m : Section) : Prop where
  copied : ∀ k, k < m.bytes.length → copyin (i + k) = m.bytes[k]?
  inserted : m.pipe.buffered = pi.buffered ++ m.bytes
  room : m.pipe.buffered.length ≤ PIPESIZE
  ends : m.pipe.readopen = pi.readopen ∧ m.pipe.writeopen = pi.writeopen
  ending : (m.ending = .ret (i + m.bytes.length : Nat) ∧ n ≤ (i + m.bytes.length : Nat)) ∨
    (m.ending = .ret (-1) ∧ (pi.readopen = false ∨ killed (i + m.bytes.length) = true)) ∨
    (m.ending = .sleep ∧ m.pipe.buffered.length = PIPESIZE) ∨
    (copyin (i + m.bytes.length) = none ∧
      m.ending = .ret (if i + m.bytes.length = 0 then -1 else (i + m.bytes.length : Nat)))

/-- A section of `piperead` has taken bytes from the front of the buffer, up to one that could
    not be copied. -/
structure DidRead (killed : Bool) (copyout : Nat → Bool) (n : Int) (pi : Pipe) (m : Section) :
    Prop where
  copied : ∀ k < m.bytes.length, copyout k = true
  taken : pi.buffered = m.bytes ++ m.pipe.buffered
  ends : m.pipe.readopen = pi.readopen ∧ m.pipe.writeopen = pi.writeopen
  ending : (m.ending = .ret m.bytes.length ∧ (n ≤ m.bytes.length ∨ m.pipe.buffered = []) ∧
      (pi.buffered = [] → pi.writeopen = false)) ∨
    (m.bytes = [] ∧ pi.buffered = [] ∧ pi.writeopen = true ∧
      m.ending = if killed = true then .ret (-1) else .sleep) ∨
    (copyout m.bytes.length = false ∧
      m.ending = .ret (if m.bytes.length = 0 then -1 else m.bytes.length))

section Sections

variable {killed : Nat → Bool} {copyin : Nat → Option UInt8} {copyout : Nat → Bool} {n : Int}

theorem writeFrom_wrote (rem i : Nat) (pi : Pipe) (hrem : rem = (n - i).toNat)
    (hroom : pi.buffered.length ≤ PIPESIZE) :
    Wrote killed copyin n i pi (writeFrom killed copyin rem i pi) := by
  induction rem generalizing i pi with
  | zero =>
    exact ⟨nofun, (List.append_nil _).symm, hroom, ⟨rfl, rfl⟩, Or.inl ⟨rfl, by simp; omega⟩⟩
  | succ rem ih =>
    rw [writeFrom]
    split
    · rename_i hstop
      exact ⟨nofun, (List.append_nil _).symm, hroom, ⟨rfl, rfl⟩, Or.inr (Or.inl ⟨rfl, hstop⟩)⟩
    split
    · rename_i hfull
      exact ⟨nofun, (List.append_nil _).symm, hroom, ⟨rfl, rfl⟩,
        Or.inr (Or.inr (Or.inl ⟨rfl, Pipe.full_iff.mp hfull⟩))⟩
    rename_i hopen hfull
    split
    · rename_i hnone
      exact ⟨nofun, (List.append_nil _).symm, hroom, ⟨rfl, rfl⟩,
        Or.inr (Or.inr (Or.inr ⟨hnone, rfl⟩))⟩
    · rename_i ch hch
      have hlt : pi.buffered.length < PIPESIZE :=
        Nat.lt_of_le_of_ne hroom fun heq => hfull (Pipe.full_iff.mpr heq)
      have hput := Pipe.buffered_put hlt ch
      have hrest := ih (i + 1) (pi.put ch) (by omega) (by rw [hput, List.length_append]; exact hlt)
      generalize writeFrom killed copyin rem (i + 1) (pi.put ch) = m at hrest
      have hidx : i + 1 + m.bytes.length = i + (m.cons ch).bytes.length := by
        show _ = i + (m.bytes.length + 1)
        omega
      refine ⟨fun k hk => ?_, ?_, hrest.room, hrest.ends, ?_⟩
      · cases k with
        | zero => exact hch
        | succ k =>
          rw [← Nat.add_assoc, Nat.add_right_comm]
          exact hrest.copied k (Nat.lt_of_succ_lt_succ hk)
      · show m.pipe.buffered = pi.buffered ++ (ch :: m.bytes)
        rw [hrest.inserted, hput, List.append_assoc, List.singleton_append]
      · rw [← hidx]
        exact hrest.ending

theorem pipewrite_wrote (killed : Nat → Bool) (copyin : Nat → Option UInt8) (n : Int) (i : Nat)
    (pi : Pipe) (hroom : pi.buffered.length ≤ PIPESIZE) :
    Wrote killed copyin n i pi (pipewrite killed copyin n i pi) :=
  writeFrom_wrote _ i pi rfl hroom

/-- The copying loop, once `i` bytes have been taken. -/
structure Copied (copyout : Nat → Bool) (n : Int) (i : Nat) (pi : Pipe) (m : Section) : Prop where
  copied : ∀ k < m.bytes.length, copyout (i + k) = true
  taken : pi.buffered = m.bytes ++ m.pipe.buffered
  ends : m.pipe.readopen = pi.readopen ∧ m.pipe.writeopen = pi.writeopen
  ending : (m.ending = .ret (i + m.bytes.length : Nat) ∧
      (n ≤ (i + m.bytes.length : Nat) ∨ m.pipe.buffered = [])) ∨
    (copyout (i + m.bytes.length) = false ∧
      m.ending = .ret (if i + m.bytes.length = 0 then -1 else (i + m.bytes.length : Nat)))

theorem readFrom_copied (rem i : Nat) (pi : Pipe) (hrem : rem = (n - i).toNat) :
    Copied copyout n i pi (readFrom copyout rem i pi) := by
  induction rem generalizing i pi with
  | zero => exact ⟨nofun, rfl, ⟨rfl, rfl⟩, Or.inl ⟨rfl, Or.inl (by simp; omega)⟩⟩
  | succ rem ih =>
    rw [readFrom]
    split
    · rename_i hempty
      exact ⟨nofun, rfl, ⟨rfl, rfl⟩, Or.inl ⟨rfl, Or.inr (Pipe.empty_iff.mp hempty)⟩⟩
    rename_i hne
    split
    · rename_i hfault
      exact ⟨nofun, rfl, ⟨rfl, rfl⟩, Or.inr ⟨hfault, rfl⟩⟩
    rename_i hok
    have htake := Pipe.buffered_take hne
    have hrest := ih (i + 1) { pi with nread := pi.nread + 1 } (by omega)
    generalize readFrom copyout rem (i + 1) { pi with nread := pi.nread + 1 } = m at hrest
    generalize pi.data (pi.nread.toNat % PIPESIZE) = ch at htake
    have hidx : i + 1 + m.bytes.length = i + (m.cons ch).bytes.length := by
      show _ = i + (m.bytes.length + 1)
      omega
    refine ⟨fun k hk => ?_, ?_, hrest.ends, ?_⟩
    · cases k with
      | zero => simpa using hok
      | succ k =>
        rw [← Nat.add_assoc, Nat.add_right_comm]
        exact hrest.copied k (Nat.lt_of_succ_lt_succ hk)
    · rw [htake, hrest.taken]
      rfl
    · rw [← hidx]
      exact hrest.ending

theorem piperead_didRead (killed : Bool) (copyout : Nat → Bool) (n : Int) (pi : Pipe) :
    DidRead killed copyout n pi (piperead killed copyout n pi) := by
  rw [piperead]
  split
  · rename_i hwait
    have hempty := Pipe.empty_iff.mp hwait.1
    split
    · rename_i hkilled
      exact ⟨nofun, rfl, ⟨rfl, rfl⟩, Or.inr (Or.inl ⟨rfl, hempty, hwait.2, by rw [if_pos hkilled]⟩)⟩
    · rename_i hkilled
      exact ⟨nofun, rfl, ⟨rfl, rfl⟩, Or.inr (Or.inl ⟨rfl, hempty, hwait.2, by rw [if_neg hkilled]⟩)⟩
  · rename_i hgo
    have hcopy : Copied copyout n 0 pi (readFrom copyout n.toNat 0 pi) :=
      readFrom_copied _ 0 pi (by simp)
    generalize readFrom copyout n.toNat 0 pi = m at hcopy
    refine ⟨fun k hk => ?_, hcopy.taken, hcopy.ends, ?_⟩
    · rw [← Nat.zero_add k]
      exact hcopy.copied k hk
    · have hend := hcopy.ending
      rw [Nat.zero_add] at hend
      rcases hend with ⟨hret, hstop⟩ | hfault
      · refine Or.inl ⟨hret, hstop, fun hempty => ?_⟩
        by_contra hopen
        exact hgo ⟨Pipe.empty_iff.mpr hempty, by simpa using hopen⟩
      · exact Or.inr (Or.inr hfault)

/-- **End of file**: a read of some bytes returns none only if the buffer is empty and the write
    end is closed. -/
theorem DidRead.eof {killed : Bool} {pi : Pipe} {m : Section} (h : DidRead killed copyout n pi m)
    (hn : 0 < n) (hzero : m.ending = .ret 0) : pi.buffered = [] ∧ pi.writeopen = false := by
  rcases h.ending with ⟨hret, hstop, hclosed⟩ | ⟨-, -, -, hend⟩ | ⟨-, hend⟩
  · rw [hret] at hzero
    have hlen : m.bytes.length = 0 := by exact_mod_cast Ending.ret.inj hzero
    have hempty : pi.buffered = [] := by
      rw [h.taken, List.eq_nil_of_length_eq_zero hlen, List.nil_append]
      exact hstop.resolve_left (by omega)
    exact ⟨hempty, hclosed hempty⟩
  · rw [hend] at hzero
    split at hzero
    · exact absurd (Ending.ret.inj hzero) (by decide)
    · cases hzero
  · rw [hend] at hzero
    have hval := Ending.ret.inj hzero
    split at hval <;> omega

end Sections

/-! ### The system -/

/-- **The invariant.**  What has been accepted is what has been delivered and what the buffer
    holds; an end is open as long as it is referenced or `pipeclose` is still to be called for it;
    and the page has been freed if both ends are closed. -/
structure Inv (s : System) : Prop where
  stream : s.accepted = s.delivered ++ s.pipe.buffered
  room : s.pipe.buffered.length ≤ PIPESIZE
  isOpen : ∀ w, s.pipe.isOpen w = true ↔ 0 < s.ref w ∨ s.closing w = true
  closing : ∀ w, s.closing w = true → s.ref w = 0
  callers : ∀ w, s.callers w ≤ s.ref w
  frees : s.frees = if s.pipe.readopen = false ∧ s.pipe.writeopen = false then 1 else 0

section Runs

variable {s s' : System} {op : Op}

theorem newPipe_inv (junk : Nat → UInt8) : Inv (newPipe junk) := by
  have hempty : (newPipe junk).pipe.buffered = [] := Pipe.empty_iff.mp rfl
  refine ⟨?_, ?_, fun w => ?_, fun w => nofun, fun w => Nat.zero_le _, rfl⟩
  · rw [hempty]
    rfl
  · rw [hempty]
    exact Nat.zero_le _
  · cases w <;> simp [newPipe, Pipe.isOpen]

theorem callers_le {calls : List Call} {c : Call} {ref : Bool → Nat} (asleep : Prop)
    [Decidable asleep] (h : ∀ w, calls.countP (fun d => d.writable == w) ≤ ref w)
    (hone : calls.countP (fun d => d.writable == c.writable) < ref c.writable) (w : Bool) :
    (if asleep then calls ++ [c] else calls).countP (fun d => d.writable == w) ≤ ref w := by
  split
  · rw [List.countP_append]
    by_cases hw : c.writable = w
    · subst hw
      simp only [List.countP_singleton, beq_self_eq_true, if_true]
      omega
    · have hzero : [c].countP (fun d => d.writable == w) = 0 := by simpa using hw
      rw [hzero, Nat.add_zero]
      exact h w
  · exact h w

theorem callers_eraseIdx {calls : List Call} {c : Call} {k : Nat} {ref : Bool → Nat}
    (hk : calls[k]? = some c) (h : ∀ w, calls.countP (fun d => d.writable == w) ≤ ref w) :
    (∀ w, (calls.eraseIdx k).countP (fun d => d.writable == w) ≤ ref w) ∧
      (calls.eraseIdx k).countP (fun d => d.writable == c.writable) < ref c.writable := by
  have hperm : calls.Perm (c :: calls.eraseIdx k) := by
    obtain ⟨hlt, hget⟩ := List.getElem?_eq_some_iff.mp hk
    rw [← hget]
    exact (List.getElem_cons_eraseIdx_perm hlt).symm
  have hcount : ∀ w, calls.countP (fun d => d.writable == w) =
      (calls.eraseIdx k).countP (fun d => d.writable == w) +
        if (c.writable == w) = true then 1 else 0 := fun w => by
    rw [hperm.countP_eq, List.countP_cons]
  refine ⟨fun w => ?_, ?_⟩
  · have := h w
    rw [hcount] at this
    omega
  · have := h c.writable
    rw [hcount, if_pos (beq_self_eq_true _)] at this
    omega

theorem Inv.wrote {killed : Nat → Bool} {copyin : Nat → Option UInt8} {n : Int} {i : Nat}
    {calls : List Call} (h : Inv s)
    (hcalls : ∀ w, calls.countP (fun d => d.writable == w) ≤ s.ref w)
    (hone : calls.countP (fun d => d.writable == true) < s.ref true) :
    Inv (s.wrote calls n i (pipewrite killed copyin n i s.pipe)) := by
  have hw := pipewrite_wrote killed copyin n i s.pipe h.room
  generalize pipewrite killed copyin n i s.pipe = m at hw
  obtain ⟨hread, hwrite⟩ := hw.ends
  refine ⟨?_, hw.room, fun w => ?_, h.closing, ?_, ?_⟩
  · show s.accepted ++ m.bytes = s.delivered ++ m.pipe.buffered
    rw [hw.inserted, h.stream, List.append_assoc]
  · show m.pipe.isOpen w = true ↔ _
    rw [Pipe.isOpen, hread, hwrite]
    exact h.isOpen w
  · exact callers_le _ (c := .writing n (i + m.bytes.length)) hcalls hone
  · show s.frees = if m.pipe.readopen = false ∧ m.pipe.writeopen = false then 1 else 0
    rw [hread, hwrite, h.frees]

theorem Inv.didRead {killed : Bool} {copyout : Nat → Bool} {n : Int} {calls : List Call}
    (h : Inv s) (hcalls : ∀ w, calls.countP (fun d => d.writable == w) ≤ s.ref w)
    (hone : calls.countP (fun d => d.writable == false) < s.ref false) :
    Inv (s.didRead calls n (piperead killed copyout n s.pipe)) := by
  have hr := piperead_didRead killed copyout n s.pipe
  generalize piperead killed copyout n s.pipe = m at hr
  obtain ⟨hread, hwrite⟩ := hr.ends
  refine ⟨?_, ?_, fun w => ?_, h.closing, ?_, ?_⟩
  · show s.accepted = s.delivered ++ m.bytes ++ m.pipe.buffered
    rw [h.stream, hr.taken, List.append_assoc]
  · show m.pipe.buffered.length ≤ PIPESIZE
    have hroom := h.room
    rw [hr.taken, List.length_append] at hroom
    omega
  · show m.pipe.isOpen w = true ↔ _
    rw [Pipe.isOpen, hread, hwrite]
    exact h.isOpen w
  · exact callers_le _ (c := .reading n) hcalls hone
  · show s.frees = if m.pipe.readopen = false ∧ m.pipe.writeopen = false then 1 else 0
    rw [hread, hwrite, h.frees]

theorem Inv.step (h : Inv s) (hok : Allowed s op) (hstep : Pipes.step s op = .done s') : Inv s' := by
  cases op with
  | write n killed copyin =>
    cases hstep
    exact h.wrote h.callers hok
  | read n killed copyout =>
    cases hstep
    exact h.didRead h.callers hok
  | rewrite k killed copyin =>
    simp only [Pipes.step] at hstep
    split at hstep
    · rename_i n i hk
      cases hstep
      obtain ⟨hcalls, hone⟩ := callers_eraseIdx hk h.callers
      exact h.wrote hcalls hone
    · cases hstep
  | reread k killed copyout =>
    simp only [Pipes.step] at hstep
    split at hstep
    · rename_i n hk
      cases hstep
      obtain ⟨hcalls, hone⟩ := callers_eraseIdx hk h.callers
      exact h.didRead hcalls hone
    · cases hstep
  | filedup w =>
    simp only [Pipes.step] at hstep
    split at hstep
    · cases hstep
    rename_i hpos
    cases hstep
    refine ⟨h.stream, h.room, fun v => ?_, fun v hv => ?_, fun v => ?_, h.frees⟩
    · show s.pipe.isOpen v = true ↔ 0 < update s.ref w (s.ref w + 1) v ∨ _
      rw [h.isOpen v, update_apply]
      split
      · rename_i heq
        subst heq
        exact ⟨fun _ => Or.inl (Nat.succ_pos _), fun _ => Or.inl (by omega)⟩
      · rfl
    · show update s.ref w (s.ref w + 1) v = 0
      have hzero := h.closing v hv
      rw [update_apply]
      split
      · rename_i heq
        subst heq
        omega
      · exact hzero
    · show s.callers v ≤ update s.ref w (s.ref w + 1) v
      have := h.callers v
      rw [update_apply]
      split
      · rename_i heq
        subst heq
        omega
      · exact this
  | fileclose w =>
    simp only [Pipes.step] at hstep
    split at hstep
    · cases hstep
    rename_i hpos
    cases hstep
    have hlt : s.callers w < s.ref w := hok
    have hnot : s.closing w ≠ true := fun hc => by
      have := h.closing w hc
      omega
    refine ⟨h.stream, h.room, fun v => ?_, fun v hv => ?_, fun v => ?_, h.frees⟩
    · show s.pipe.isOpen v = true ↔ 0 < update s.ref w (s.ref w - 1) v ∨
        (if s.ref w - 1 > 0 then s.closing else update s.closing w true) v = true
      rw [h.isOpen v, update_apply]
      by_cases hv : v = w
      · subst hv
        rw [if_pos rfl]
        split
        · exact ⟨fun _ => Or.inl (by omega), fun _ => Or.inl (by omega)⟩
        · rw [update_self]
          exact ⟨fun _ => Or.inr rfl, fun _ => Or.inl (by omega)⟩
      · rw [if_neg hv]
        split
        · rfl
        · rw [update_of_ne hv]
    · show update s.ref w (s.ref w - 1) v = 0
      by_cases hvw : v = w
      · subst hvw
        rw [update_self]
        dsimp only at hv
        split at hv
        · exact absurd hv hnot
        · omega
      · rw [update_of_ne hvw]
        refine h.closing v ?_
        dsimp only at hv
        split at hv
        · exact hv
        · rwa [update_of_ne hvw] at hv
    · show s.callers v ≤ update s.ref w (s.ref w - 1) v
      have := h.callers v
      rw [update_apply]
      split
      · rename_i heq
        subst heq
        omega
      · exact this
  | pipeclose w =>
    simp only [Pipes.step] at hstep
    split at hstep
    · rename_i hclosing
      cases hstep
      have hopen : s.pipe.isOpen w = true := (h.isOpen w).mpr (Or.inr hclosing)
      have hzero := h.closing w hclosing
      have hother : ∀ v, v ≠ w → (Pipes.pipeclose s.pipe w).1.isOpen v = s.pipe.isOpen v := by
        intro v hv
        cases v <;> cases w <;> first | exact absurd rfl hv | rfl
      have hself : (Pipes.pipeclose s.pipe w).1.isOpen w = false := by cases w <;> rfl
      refine ⟨?_, ?_, fun v => ?_, fun v hv => ?_, h.callers, ?_⟩
      · cases w <;> exact h.stream
      · cases w <;> exact h.room
      · show (Pipes.pipeclose s.pipe w).1.isOpen v = true ↔ 0 < s.ref v ∨
          update s.closing w false v = true
        by_cases hv : v = w
        · subst hv
          rw [hself, update_self, hzero]
          simp
        · rw [hother v hv, update_of_ne hv]
          exact h.isOpen v
      · by_cases hvw : v = w
        · subst hvw
          exact hzero
        · have hkeep : update s.closing w false v = s.closing v :=
            update_of_ne hvw ..
          exact h.closing v (hkeep ▸ hv)
      · have hfrees := h.frees
        rw [if_neg fun hclosed => by cases w <;> simp_all [Pipe.isOpen]] at hfrees
        show (if (Pipes.pipeclose s.pipe w).2 = true then s.frees + 1 else s.frees) = _
        rw [hfrees, Pipes.pipeclose]
        simp only [decide_eq_true_eq, Nat.zero_add]
    · cases hstep

theorem Inv.alive (h : Inv s) (hok : Allowed s op) :
    (∀ e, Pipes.step s op ≠ .fail e) ∧ (∀ s', Pipes.step s op = .done s' → s.frees = 0) := by
  have hopen : ∀ w, 0 < s.ref w ∨ s.closing w = true → s.frees = 0 := fun w hw => by
    have hw' := (h.isOpen w).mpr hw
    rw [h.frees, if_neg]
    rintro ⟨hread, hwrite⟩
    cases w <;> simp_all [Pipe.isOpen]
  have hcaller : ∀ k c, s.sleeping[k]? = some c → s.frees = 0 := fun k c hk =>
    hopen c.writable (Or.inl (Nat.zero_lt_of_lt (callers_eraseIdx hk h.callers).2))
  cases op with
  | write n killed copyin => exact ⟨nofun, fun _ _ => hopen true (Or.inl (Nat.zero_lt_of_lt hok))⟩
  | read n killed copyout => exact ⟨nofun, fun _ _ => hopen false (Or.inl (Nat.zero_lt_of_lt hok))⟩
  | rewrite k killed copyin =>
    simp only [Pipes.step]
    split
    · rename_i hk
      exact ⟨nofun, fun _ _ => hcaller k _ hk⟩
    · exact ⟨nofun, nofun⟩
  | reread k killed copyout =>
    simp only [Pipes.step]
    split
    · rename_i hk
      exact ⟨nofun, fun _ _ => hcaller k _ hk⟩
    · exact ⟨nofun, nofun⟩
  | filedup w =>
    have hpos : 0 < s.ref w := Nat.zero_lt_of_lt hok
    simp only [Pipes.step]
    rw [if_neg (by omega)]
    exact ⟨nofun, fun _ _ => hopen w (Or.inl hpos)⟩
  | fileclose w =>
    have hpos : 0 < s.ref w := Nat.zero_lt_of_lt hok
    simp only [Pipes.step]
    rw [if_neg (by omega)]
    exact ⟨nofun, fun _ _ => hopen w (Or.inl hpos)⟩
  | pipeclose w =>
    simp only [Pipes.step]
    split
    · rename_i hclosing
      exact ⟨nofun, fun _ _ => hopen w (Or.inr hclosing)⟩
    · exact ⟨nofun, nofun⟩

variable {f0 f1 page : Bool} {junk : Nat → UInt8} {s₀ : System}

theorem reachable_inv (hnew : pipealloc f0 f1 page junk = some s₀)
    (h : Reachable s₀ Pipes.step Allowed s) : Inv s := by
  refine h.invariant ?_ fun _ hi hok hstep => hi.step hok hstep
  unfold pipealloc at hnew
  split at hnew
  · cases hnew
  split at hnew
  · cases hnew
  · cases hnew
    exact newPipe_inv junk

/-- **Pipes are FIFO byte streams.**  After any sequence of sections of any calls:

* the buffer holds at most `PIPESIZE` bytes;
* the bytes delivered are the first of those accepted;
* the page has been freed once if both ends are closed and not at all otherwise, and nothing
  happens to the pipe after that;
* a section of `pipewrite` inserts the next bytes of its caller up to one that cannot be copied,
  and one of `piperead` removes those that it could copy out;
* `piperead` of some bytes returns 0 only if there are none and the write end is closed. -/
theorem pipes_fifo (hnew : pipealloc f0 f1 page junk = some s₀)
    (h : Reachable s₀ Pipes.step Allowed s) :
    (s.pipe.nwrite - s.pipe.nread).toNat ≤ PIPESIZE ∧ s.delivered <+: s.accepted ∧
    s.frees = (if s.pipe.readopen = false ∧ s.pipe.writeopen = false then 1 else 0) ∧
    (∀ op, Allowed s op →
      (∀ e, Pipes.step s op ≠ .fail e) ∧ ∀ s', Pipes.step s op = .done s' → s.frees = 0) ∧
    (∀ killed copyin n i, Wrote killed copyin n i s.pipe (pipewrite killed copyin n i s.pipe)) ∧
    ∀ killed copyout n, DidRead killed copyout n s.pipe (piperead killed copyout n s.pipe) ∧
      (0 < n → (piperead killed copyout n s.pipe).ending = .ret 0 →
        s.pipe.nread = s.pipe.nwrite ∧ s.pipe.writeopen = false) := by
  have hinv := reachable_inv hnew h
  refine ⟨?_, ?_, hinv.frees, fun op hok => hinv.alive hok,
    fun killed copyin n i => pipewrite_wrote killed copyin n i s.pipe hinv.room, fun killed copyout n => ?_⟩
  · rw [← Pipe.length_buffered]
    exact hinv.room
  · rw [hinv.stream]
    exact List.prefix_append _ _
  · have hread := piperead_didRead killed copyout n s.pipe
    refine ⟨hread, fun hn hzero => ?_⟩
    obtain ⟨hempty, hclosed⟩ := hread.eof hn hzero
    exact ⟨Pipe.empty_iff.mpr hempty, hclosed⟩

/-- Three bytes are written and two of them read; the buffer then has one. -/
theorem pipes_fifo_three : ∃ s, Reachable (newPipe fun _ => 0) Pipes.step Allowed s ∧
    s.accepted = [7, 8, 9] ∧ s.delivered = [7, 8] ∧
      (s.pipe.nwrite - s.pipe.nread).toNat ≤ PIPESIZE := by
  have halloc : pipealloc true true true (fun _ => 0) = some (newPipe fun _ => 0) := rfl
  have hwrite : Allowed (newPipe fun _ => 0)
      (.write 3 (fun _ => false) fun i => some (UInt8.ofNat (7 + i))) := Nat.zero_lt_one
  have hwrote : Reachable (newPipe fun _ => 0) Pipes.step Allowed _ := .step .init hwrite rfl
  have hdone := hwrote.step (a := Op.read 2 false fun _ => true) Nat.zero_lt_one rfl
  exact ⟨_, hdone, by decide, by decide, (pipes_fifo halloc hdone).1⟩

end Runs

end Xv6.Pipes
