import Xv6.Lib.Transition
import Mathlib.Data.List.Infix
import Mathlib.Algebra.Group.Nat.Defs
import Mathlib.Logic.Function.Basic

/-!
# The console

The input side of `kernel/console.c`: `consoleintr`, which the UART calls for each character,
and `consoleread`.  Both run under `cons.lock`, which `consoleread` gives up only where it
sleeps.  Echo to the UART and the wakeup are left out; a reader that sleeps may run again at any
time.

Over them stands the line discipline as it is meant: the committed stream, of which reads take
one character after the other, and the line that is being edited.
-/

namespace Xv6.Console

open Transition

def INPUT_BUF_SIZE : Nat := 128

/-- Control-x. -/
def C (x : UInt8) : UInt8 := x - 64

def ctrlD : UInt8 := C 68

def ctrlH : UInt8 := C 72

def ctrlP : UInt8 := C 80

def ctrlU : UInt8 := C 85

def delete : UInt8 := 127

def newline : UInt8 := 10

def carriageReturn : UInt8 := 13

/-- `cons`, less the lock. -/
structure Cons where
  buf : Nat → UInt8
  /-- Read index. -/
  r : UInt32
  /-- Write index. -/
  w : UInt32
  /-- Edit index. -/
  e : UInt32

/-- `cons.buf[i % INPUT_BUF_SIZE]` -/
def Cons.at (s : Cons) (i : UInt32) : UInt8 := s.buf (i.toNat % INPUT_BUF_SIZE)

/-! ### `consoleintr` -/

/-- The loop of kill line, for at most `fuel` rounds. -/
def killLine : Nat → Cons → Cons
  | 0, s => s
  | fuel + 1, s =>
    if s.e ≠ s.w ∧ s.at (s.e - 1) ≠ newline then killLine fuel { s with e := s.e - 1 } else s

/-- Store a character for consumption by `consoleread`, if there is room. -/
def store (c : UInt8) (s : Cons) : Cons :=
  if c ≠ 0 ∧ (s.e - s.r).toNat < INPUT_BUF_SIZE then
    let c := if c = carriageReturn then newline else c
    let s := { s with
      buf := Function.update s.buf (s.e.toNat % INPUT_BUF_SIZE) c
      e := s.e + 1 }
    if c = newline ∨ c = ctrlD ∨ (s.e - s.r).toNat = INPUT_BUF_SIZE then { s with w := s.e } else s
  else s

/-- The console input interrupt handler.  The loop of kill line moves `e` down to `w` at the
    most, which takes `e - w` rounds. -/
def consoleintr (c : UInt8) (s : Cons) : Cons :=
  if c = ctrlP then s
  else if c = ctrlU then killLine (s.e - s.w).toNat s
  else if c = ctrlH ∨ c = delete then if s.e ≠ s.w then { s with e := s.e - 1 } else s
  else store c s

/-! ### `consoleread` -/

/-- What a reader has done when it gives up the lock. -/
structure Reading where
  cons : Cons
  /-- What is left of `n`. -/
  n : Nat
  /-- The bytes that went to the destination. -/
  bytes : List UInt8
  /-- It sleeps and does not return. -/
  asleep : Bool

/-- The loop of `consoleread`, from the lock to the next sleep or to the end.  The caller is not
    killed and the destination can be written. -/
def readLoop (target : Nat) : Nat → Cons → Reading
  | 0, s => ⟨s, 0, [], false⟩
  | n + 1, s =>
    if s.r = s.w then ⟨s, n + 1, [], true⟩
    else
      let c := s.at s.r
      let s := { s with r := s.r + 1 }
      if c = ctrlD then
        -- save ^D for next time, to make sure the caller gets a 0-byte result
        if n + 1 < target then ⟨{ s with r := s.r - 1 }, n + 1, [], false⟩
        else ⟨s, n + 1, [], false⟩
      else if c = newline then ⟨s, n, [c], false⟩
      else
        let rest := readLoop target n s
        { rest with bytes := c :: rest.bytes }

/-! ### `consoleread` to any destination -/

/-- Where a reader gives up the lock. -/
inductive Stop where
  /-- It returns how many bytes it has copied. -/
  | returned
  /-- So it does, but because `either_copyout` has failed. -/
  | fault
  /-- It returns -1: there is nothing to read, and the process is killed. -/
  | killed
  /-- It sleeps. -/
  | asleep
deriving DecidableEq, Repr

/-- What a reader has done when it gives up the lock. -/
structure Copying where
  cons : Cons
  /-- What is left of `n`. -/
  n : Nat
  /-- The bytes that `either_copyout` has copied. -/
  bytes : List UInt8
  stop : Stop

/-- The loop of `consoleread`, from the lock to where it gives it up.  `killed` is what
    `killed(myproc())` says if there is nothing to read, and `copies i` whether `either_copyout`
    can write the byte at `dst + i`. -/
def copyLoop (killed : Bool) (copies : Nat → Bool) (target : Nat) : Nat → Cons → Copying
  | 0, s => ⟨s, 0, [], .returned⟩
  | n + 1, s =>
    if s.r = s.w then ⟨s, n + 1, [], if killed then .killed else .asleep⟩
    else
      let c := s.at s.r
      let s := { s with r := s.r + 1 }
      if c = ctrlD then
        if n + 1 < target then ⟨{ s with r := s.r - 1 }, n + 1, [], .returned⟩
        else ⟨s, n + 1, [], .returned⟩
      else if !copies (target - (n + 1)) then ⟨s, n + 1, [], .fault⟩
      else if c = newline then ⟨s, n, [c], .returned⟩
      else
        let rest := copyLoop killed copies target n s
        { rest with bytes := c :: rest.bytes }

/-- A call of `consoleread`, as far as it has come. -/
structure Call where
  /-- The console where the call gave up the lock for the last time. -/
  cons : Cons
  /-- By how much the call has advanced `cons.r`. -/
  removed : Nat
  /-- The bytes that `either_copyout` has copied. -/
  bytes : List UInt8
  stop : Stop
  /-- What is returned, if the call returns. -/
  value : Int

/-- A call that gives up the lock once. -/
def Copying.call (out : Copying) (target : Nat) (s : Cons) : Call :=
  ⟨out.cons, (out.cons.r - s.r).toNat, out.bytes, out.stop,
    if out.stop = .killed then -1 else target - out.n⟩

/-- `consoleread(1, dst, target)` with `n` bytes still to go.  It finds the console `s`, and then
    at each waking what the others have made of it meanwhile; the list has these, each with what
    `killed(myproc())` says from then on. -/
def consoleread (copies : Nat → Bool) (target : Nat) :
    List (Bool × Cons) → Nat → Bool → Cons → Call
  | [], n, killed, s => (copyLoop killed copies target n s).call target s
  | wake :: wakes, n, killed, s =>
    let out := copyLoop killed copies target n s
    let call := out.call target s
    if out.stop = .asleep then
      let rest := consoleread copies target wakes out.n wake.1 wake.2
      { rest with removed := call.removed + rest.removed, bytes := call.bytes ++ rest.bytes }
    else call

/-! ### The line discipline as it is meant -/

/-- What has been typed. -/
structure Line where
  /-- The committed stream. -/
  stream : List UInt8
  /-- The uncommitted tail. -/
  tail : List UInt8
  /-- How many characters of the stream have been read. -/
  taken : Nat

/-- The number of characters in the buffer. -/
def Line.unread (l : Line) : Nat := l.stream.length - l.taken + l.tail.length

/-- One typed character.  ^P and NUL are no input. -/
def Line.input (c : UInt8) (l : Line) : Line :=
  if c = ctrlP ∨ c = 0 then l
  else if c = ctrlU then { l with tail := [] }
  else if c = ctrlH ∨ c = delete then { l with tail := l.tail.dropLast }
  else if INPUT_BUF_SIZE ≤ l.unread then l
  else
    let c := if c = carriageReturn then newline else c
    let l := { l with tail := l.tail ++ [c] }
    if c = newline ∨ c = ctrlD ∨ l.unread = INPUT_BUF_SIZE then
      { l with stream := l.stream ++ l.tail, tail := [] }
    else l

/-! ### The system -/

/-- A call of `consoleread` that sleeps. -/
structure Reader where
  target : Nat
  n : Nat
  /-- The bytes that have gone to the destination. -/
  got : List UInt8

/-- The console and its readers, with what has been typed and read so far.  The last four fields
    are there for the statements: nothing that runs reads them. -/
structure Sys where
  cons : Cons
  readers : List Reader
  line : Line
  /-- The bytes that went to readers, in order. -/
  delivered : List UInt8
  /-- The calls that have returned: how much each asked for, and what it got. -/
  returned : List (Nat × List UInt8)
  /-- Two calls have been in progress at once. -/
  overlap : Bool

def Sys.init : Sys := ⟨⟨fun _ => 0, 0, 0, 0⟩, [], ⟨[], [], 0⟩, [], [], false⟩

inductive Act where
  /-- `consoleintr(c)` -/
  | intr (c : UInt8)
  /-- A call of `consoleread` for `n` bytes. -/
  | read (n : Nat)
  /-- The `i`-th reader runs again. -/
  | wake (i : Nat)
deriving DecidableEq, Repr

/-- A reader runs until it sleeps or returns. -/
def Sys.runReader (s : Sys) (before after : List Reader) (rd : Reader) : Sys :=
  let out := readLoop rd.target rd.n s.cons
  let got := rd.got ++ out.bytes
  { s with
    cons := out.cons
    readers := before ++ (if out.asleep then [⟨rd.target, out.n, got⟩] else []) ++ after
    line := { s.line with taken := s.line.taken + (out.cons.r - s.cons.r).toNat }
    delivered := s.delivered ++ out.bytes
    returned := if out.asleep then s.returned else s.returned ++ [(rd.target, got)] }

def step (s : Sys) : Act → Outcome Empty Sys
  | .intr c => .done { s with cons := consoleintr c s.cons, line := s.line.input c }
  | .read n => .done { s.runReader s.readers [] ⟨n, n, []⟩ with
      overlap := s.overlap || !s.readers.isEmpty }
  | .wake i =>
    match s.readers[i]? with
    | none => .blocked
    | some rd => .done (s.runReader (s.readers.take i) (s.readers.drop (i + 1)) rd)

end Xv6.Console
