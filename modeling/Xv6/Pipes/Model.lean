import Xv6.Lib.Ring
import Xv6.Lib.Transition
import Mathlib.Data.List.Infix

/-!
# Pipes

`kernel/pipe.c`, with the reference counts of `kernel/file.c` that decide when an end is closed.
`pi->lock` is held from one sleep of a call to the next, so a call is a sequence of sections, and
the sections of different calls interleave.  A call that sleeps may run again at any time.
-/

namespace Xv6.Pipes

open Transition Function

def PIPESIZE : Nat := 512

/-- `struct pipe`, less the lock. -/
structure Pipe where
  data : Nat → UInt8
  /-- Number of bytes read. -/
  nread : UInt32
  /-- Number of bytes written. -/
  nwrite : UInt32
  /-- The read end is still open. -/
  readopen : Bool
  /-- The write end is still open. -/
  writeopen : Bool

/-- How a section ends: the call returns, or it sleeps. -/
inductive Ending where
  | ret (r : Int)
  | sleep
deriving DecidableEq

/-- A section of a call: how it ends, the bytes that it has moved between the user's memory and
    the buffer, and the pipe that it leaves. -/
structure Section where
  ending : Ending
  bytes : List UInt8
  pipe : Pipe

def Section.cons (ch : UInt8) (m : Section) : Section := { m with bytes := ch :: m.bytes }

/-! ### `pipewrite` -/

/-- `pi->data[pi->nwrite++ % PIPESIZE] = ch` -/
def Pipe.put (pi : Pipe) (ch : UInt8) : Pipe :=
  { pi with data := update pi.data (pi.nwrite.toNat % PIPESIZE) ch, nwrite := pi.nwrite + 1 }

/-- The loop of `pipewrite` from byte `i` on, the first argument being `n - i`.  `copyin i` is the
    byte at `addr + i`, if it can be read; the process may be killed at any time. -/
def writeFrom (killed : Nat → Bool) (copyin : Nat → Option UInt8) : Nat → Nat → Pipe → Section
  | 0, i, pi => ⟨.ret i, [], pi⟩
  | rem + 1, i, pi =>
    if pi.readopen = false ∨ killed i = true then ⟨.ret (-1), [], pi⟩
    else if pi.nwrite = pi.nread + UInt32.ofNat PIPESIZE then ⟨.sleep, [], pi⟩
    else
      match copyin i with
      | none => ⟨.ret (if i = 0 then -1 else i), [], pi⟩
      | some ch => (writeFrom killed copyin rem (i + 1) (pi.put ch)).cons ch

/-- `pipewrite(pi, addr, n)`, from the `acquire` before byte `i` on. -/
def pipewrite (killed : Nat → Bool) (copyin : Nat → Option UInt8) (n : Int) (i : Nat) (pi : Pipe) :
    Section :=
  writeFrom killed copyin (n - i).toNat i pi

/-! ### `piperead` -/

/-- The copying loop of `piperead` from byte `i` on, the first argument being `n - i`.  `copyout i`
    says whether `addr + i` can be written. -/
def readFrom (copyout : Nat → Bool) : Nat → Nat → Pipe → Section
  | 0, i, pi => ⟨.ret i, [], pi⟩
  | rem + 1, i, pi =>
    if pi.nread = pi.nwrite then ⟨.ret i, [], pi⟩
    else if copyout i = false then ⟨.ret (if i = 0 then -1 else i), [], pi⟩
    else
      (readFrom copyout rem (i + 1) { pi with nread := pi.nread + 1 }).cons
        (pi.data (pi.nread.toNat % PIPESIZE))

/-- `piperead(pi, addr, n)`, from an `acquire` on. -/
def piperead (killed : Bool) (copyout : Nat → Bool) (n : Int) (pi : Pipe) : Section :=
  if pi.nread = pi.nwrite ∧ pi.writeopen = true then
    if killed = true then ⟨.ret (-1), [], pi⟩ else ⟨.sleep, [], pi⟩
  else readFrom copyout n.toNat 0 pi

/-! ### The ends of a pipe -/

def Pipe.isOpen (pi : Pipe) (writable : Bool) : Bool :=
  if writable then pi.writeopen else pi.readopen

/-- `pipeclose(pi, writable)`, and whether it frees the page. -/
def pipeclose (pi : Pipe) (writable : Bool) : Pipe × Bool :=
  let pi' := if writable then { pi with writeopen := false } else { pi with readopen := false }
  (pi', decide (pi'.readopen = false ∧ pi'.writeopen = false))

/-- A call that sleeps. -/
inductive Call where
  /-- `pipewrite` of `n` bytes, of which `i` are written. -/
  | writing (n : Int) (i : Nat)
  /-- `piperead` of `n` bytes. -/
  | reading (n : Int)

def Call.writable : Call → Bool
  | .writing .. => true
  | .reading _ => false

inductive Panic where
  | filedup
  | fileclose
deriving DecidableEq

/-- A pipe with its two files.  `accepted` and `delivered` are the bytes that calls have moved
    into the buffer and out of it, in the order of their sections. -/
structure System where
  pipe : Pipe
  /-- `f->ref` of the file for the write end or the read end. -/
  ref : Bool → Nat
  /-- `fileclose` has dropped the last reference and has yet to call `pipeclose`. -/
  closing : Bool → Bool
  sleeping : List Call
  accepted : List UInt8
  delivered : List UInt8
  /-- How often the page has been given to `kfree`. -/
  frees : Nat

def newPipe (junk : Nat → UInt8) : System where
  pipe := ⟨junk, 0, 0, true, true⟩
  ref := fun _ => 1
  closing := fun _ => false
  sleeping := []
  accepted := []
  delivered := []
  frees := 0

/-- `pipealloc`, given which of its two calls of `filealloc` and its `kalloc` succeed.  When it
    fails there is no page, and the files that it has are closed again, without a pipe. -/
def pipealloc (f0 f1 page : Bool) (junk : Nat → UInt8) : Option System :=
  if f0 = false ∨ f1 = false then none
  else if page = false then none
  else some (newPipe junk)

/-- What happens between two releases of a lock. -/
inductive Op where
  /-- A new call of `pipewrite`. -/
  | write (n : Int) (killed : Nat → Bool) (copyin : Nat → Option UInt8)
  /-- A new call of `piperead`. -/
  | read (n : Int) (killed : Bool) (copyout : Nat → Bool)
  /-- The `k`-th call that sleeps runs again, if it is one of `pipewrite`. -/
  | rewrite (k : Nat) (killed : Nat → Bool) (copyin : Nat → Option UInt8)
  /-- The `k`-th call that sleeps runs again, if it is one of `piperead`. -/
  | reread (k : Nat) (killed : Bool) (copyout : Nat → Bool)
  | filedup (writable : Bool)
  | fileclose (writable : Bool)
  | pipeclose (writable : Bool)

/-- A section of `pipewrite` is over, which `sleeping` other calls are in. -/
def System.wrote (s : System) (sleeping : List Call) (n : Int) (i : Nat) (m : Section) : System :=
  { s with
    pipe := m.pipe
    accepted := s.accepted ++ m.bytes
    sleeping := if m.ending = .sleep then sleeping ++ [.writing n (i + m.bytes.length)] else sleeping }

/-- A section of `piperead` is over. -/
def System.didRead (s : System) (sleeping : List Call) (n : Int) (m : Section) : System :=
  { s with
    pipe := m.pipe
    delivered := s.delivered ++ m.bytes
    sleeping := if m.ending = .sleep then sleeping ++ [.reading n] else sleeping }

def step (s : System) : Op → Outcome Panic System
  | .write n killed copyin => .done (s.wrote s.sleeping n 0 (pipewrite killed copyin n 0 s.pipe))
  | .read n killed copyout => .done (s.didRead s.sleeping n (piperead killed copyout n s.pipe))
  | .rewrite k killed copyin =>
    match s.sleeping[k]? with
    | some (.writing n i) =>
      .done (s.wrote (s.sleeping.eraseIdx k) n i (pipewrite killed copyin n i s.pipe))
    | _ => .blocked
  | .reread k killed copyout =>
    match s.sleeping[k]? with
    | some (.reading n) =>
      .done (s.didRead (s.sleeping.eraseIdx k) n (piperead killed copyout n s.pipe))
    | _ => .blocked
  | .filedup w =>
    if s.ref w < 1 then .fail .filedup
    else .done { s with ref := update s.ref w (s.ref w + 1) }
  | .fileclose w =>
    if s.ref w < 1 then .fail .fileclose
    else
      .done { s with
        ref := update s.ref w (s.ref w - 1)
        closing := if s.ref w - 1 > 0 then s.closing else update s.closing w true }
  | .pipeclose w =>
    if s.closing w = true then
      let (pi, freed) := Pipes.pipeclose s.pipe w
      .done { s with
        pipe := pi
        closing := update s.closing w false
        frees := if freed then s.frees + 1 else s.frees }
    else .blocked

def System.callers (s : System) (writable : Bool) : Nat :=
  s.sleeping.countP fun c => c.writable == writable

/-- **What processes may do.**  One that is in a call keeps its descriptor, so a new call, a
    `filedup` and a `fileclose` are by a process with a reference that no such call needs. -/
def Allowed (s : System) : Op → Prop
  | .write .. => s.callers true < s.ref true
  | .read .. => s.callers false < s.ref false
  | .filedup w | .fileclose w => s.callers w < s.ref w
  | _ => True

end Xv6.Pipes
