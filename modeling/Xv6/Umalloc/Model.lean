import Xv6.Lib.Hoare
import Mathlib.Algebra.Group.Int.Defs
import Mathlib.Algebra.Group.Nat.Defs
import Mathlib.Logic.Function.Basic

/-!
# The user heap allocator

`user/umalloc.c`: `malloc`, `free` and `add_heaptop`, over a `sbrk` that may refuse any request.
Addresses count headers of 16 bytes, since all of the allocator's arithmetic is on `Header *` and
the break is aligned.  `fuel` bounds the loops: a call that runs out of it has not returned.
-/

namespace Xv6.Umalloc

open Hoare

/-- `union header`, which is also what one unit of memory is. -/
structure Header where
  ptr : Nat
  size : Nat
deriving DecidableEq

def base : Nat := 0

structure State where
  mem : Nat → Header
  /-- Null until the first call of `malloc`. -/
  freep : Option Nat
  heaptop : Nat
  /-- The break of the process. -/
  brk : Nat
  /-- The lowest that the break has been since the program called the allocator. -/
  lowest : Nat
  /-- How often `sbrk` has been called. -/
  calls : Nat

inductive Stop where
  /-- The call has not returned within its fuel. -/
  | running
  /-- A null pointer is followed. -/
  | nullPointer
deriving DecidableEq

abbrev AllocM := Prog Stop State

/-- `uint` arithmetic. -/
def u32 (n : Nat) : Nat := n % 2 ^ 32

/-- Conversion to `int`. -/
def int32 (n : Int) : Int := n.bmod (2 ^ 32)

def setPtr (p q : Nat) : AllocM Unit :=
  modify fun s => { s with mem := Function.update s.mem p { s.mem p with ptr := q } }

def setSize (p : Nat) (n : Nat) : AllocM Unit :=
  modify fun s => { s with mem := Function.update s.mem p { s.mem p with size := n } }

def setFreep (p : Nat) : AllocM Unit := modify fun s => { s with freep := some p }

/-! ### `free` without its tail -/

/-- The loop of `free` that looks for the free block `p` before `bp`. -/
def freeSearch (bp : Nat) : Nat → Nat → AllocM Nat
  | 0, _ => fail .running
  | fuel + 1, p => do
    let q := ((← get).mem p).ptr
    if p < bp ∧ bp < q then return p
    else if q ≤ p ∧ (p < bp ∨ bp < q) then return p
    else freeSearch bp fuel q

/-- Join `bp` with the free block behind it, or link it to that. -/
def joinNext (bp p : Nat) : AllocM Unit := do
  let m := (← get).mem
  if bp + (m bp).size = (m p).ptr then do
    setSize bp (u32 ((m bp).size + (m (m p).ptr).size))
    setPtr bp (m (m p).ptr).ptr
  else setPtr bp (m p).ptr

/-- Join `bp` with the free block `p` before it, or link that to it.  Returns the new `bp`. -/
def joinPrev (bp p : Nat) : AllocM Nat := do
  let m := (← get).mem
  if p + (m p).size = bp then do
    setSize p (u32 ((m p).size + (m bp).size))
    setPtr p (m bp).ptr
    return p
  else do
    setPtr p bp
    return bp

section Allocator

variable (refuses : Nat → Int → Bool) (limit : Nat)

/-- `sbrk(n)` by a multiple of 16 bytes: the old break, unless the request is refused, as all are
    that would take the break beyond `limit`. -/
def sbrk (n : Int) : AllocM (Option Nat) := do
  let s ← get
  modify fun s => { s with calls := s.calls + 1 }
  if refuses s.calls n = true ∨ (limit : Int) < s.brk + n / 16 then return none
  else do
    modify fun s => { s with
      brk := (s.brk + n / 16).toNat
      lowest := min s.lowest (s.brk + n / 16).toNat }
    return some s.brk

mutual

def free : Nat → Nat → AllocM Unit
  | 0, _ => fail .running
  | fuel + 1, ap => do
    match (← get).freep with
    | none => fail .nullPointer
    | some freep => do
      let p ← freeSearch (ap - 1) fuel freep
      joinNext (ap - 1) p
      let bp ← joinPrev (ap - 1) p
      setFreep p
      let s ← get
      -- `bp` is the last block and larger than 16KB, shrink to 4KB
      if s.heaptop ≤ bp + (s.mem bp).size ∧ 1024 ≤ (s.mem bp).size then do
        let _ ← addHeaptop fuel (int32 (256 - (s.mem bp).size))
        setSize bp 256
      else return ()

def addHeaptop : Nat → Int → AllocM (Option Nat)
  | 0, _ => fail .running
  | fuel + 1, nu =>
    if 0 < nu then do
      match ← sbrk refuses limit (int32 (nu * 16)) with
      | none => return none
      | some hp => do
        setSize hp nu.toNat
        modify fun s => { s with heaptop := hp + nu.toNat }
        free fuel (hp + 1)
        return (← get).freep
    else do
      match ← sbrk refuses limit (int32 (nu * 16)) with
      | none => return none
      | some _ => do
        modify fun s => { s with heaptop := (s.heaptop + nu).toNat }
        return none

end

/-! ### `malloc` -/

/-- Take `nunits` from the block `p`, which `prevp` links to: all of it, or its tail. -/
def take (nunits : Nat) (prevp p : Nat) : AllocM Nat := do
  let m := (← get).mem
  if (m p).size = nunits then do
    setPtr prevp (m p).ptr
    setFreep prevp
    return p + 1
  else do
    setSize p ((m p).size - nunits)
    setSize (p + ((m p).size - nunits)) nunits
    setFreep prevp
    return p + ((m p).size - nunits) + 1

/-- `nunits < 256 ? 256 : nunits` -/
def growth (nunits : Nat) : Nat := if nunits < 256 then 256 else nunits

/-- The loop of `malloc`. -/
def mallocLoop (inner nunits : Nat) : Nat → Nat → Nat → AllocM (Option Nat)
  | 0, _, _ => fail .running
  | fuel + 1, prevp, p => do
    let s ← get
    if nunits ≤ (s.mem p).size then do
      let ap ← take nunits prevp p
      return some ap
    else if s.freep = some p then do
      -- grow, by 4KB at the minimum
      match ← addHeaptop refuses limit inner (growth nunits) with
      | none => return none
      | some p => do
        let s ← get
        mallocLoop inner nunits fuel p (s.mem p).ptr
    else mallocLoop inner nunits fuel p (s.mem p).ptr

/-- The units of a block for `nbytes` bytes, with its header. -/
def unitsFor (nbytes : Nat) : Nat := u32 ((nbytes + 16 - 1) / 16 + 1)

/-- The first call makes `base` a free list of one empty block. -/
def initFreep : AllocM Unit := do
  setPtr base base
  setSize base 0
  setFreep base

/-- `malloc(nbytes)`; the result is null or a pointer to the bytes behind a header. -/
def malloc (fuel nbytes : Nat) : AllocM (Option Nat) := do
  when ((← get).freep = none) initFreep
  match (← get).freep with
  | none => fail .nullPointer
  | some prevp => do
    let s ← get
    mallocLoop refuses limit fuel (unitsFor nbytes) fuel prevp (s.mem prevp).ptr

end Allocator

end Xv6.Umalloc
