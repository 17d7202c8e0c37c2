import Xv6.Vm.Space
import Xv6.Fs.Path

/-!
# Processes

The process functions of `kernel/proc.c`, over physical memory and the file system.  A
process pointer is its index in `proc`, and a null pointer to a page is 0.  Saved contexts
are left out: no function here reads one.

A function runs without interruption.  One that waits for a lock, for space in the log or,
in `kwait`, for a child, does not return.
-/

namespace Xv6.Process

open ByteView Hoare Vm Fs Function

def NPROC : Nat := 64

def INITCODESIZE : Nat := 4128

inductive ProcState where
  | UNUSED
  | USED
  | SLEEPING
  | RUNNABLE
  | RUNNING
  | ZOMBIE
deriving DecidableEq, Repr

/-- `struct proc`. -/
structure Proc where
  state : ProcState
  /-- The process on whose address this one sleeps. -/
  chan : Option Nat
  killed : Bool
  xstate : UInt32
  pid : Nat
  parent : Option Nat
  sz : Nat
  pagetable : Nat
  trapframe : Nat
  cwd : Option Nat
  name : Name

namespace Proc

@[simps state pagetable trapframe sz]
def setState (x : Proc) (state : ProcState) : Proc := { x with state := state }

@[simps state pagetable trapframe sz]
def setChan (x : Proc) (chan : Option Nat) : Proc := { x with chan := chan }

@[simps state pagetable trapframe sz]
def setKilled (x : Proc) : Proc := { x with killed := true }

@[simps state pagetable trapframe sz]
def setXstate (x : Proc) (xstate : UInt32) : Proc := { x with xstate := xstate }

@[simps state pagetable trapframe sz]
def setPid (x : Proc) (pid : Nat) : Proc := { x with pid := pid }

@[simps state pagetable trapframe sz]
def setParent (x : Proc) (parent : Option Nat) : Proc := { x with parent := parent }

@[simps state pagetable trapframe sz]
def setSz (x : Proc) (sz : Nat) : Proc := { x with sz := sz }

@[simps state pagetable trapframe sz]
def setPagetable (x : Proc) (pagetable : Nat) : Proc := { x with pagetable := pagetable }

@[simps state pagetable trapframe sz]
def setTrapframe (x : Proc) (trapframe : Nat) : Proc := { x with trapframe := trapframe }

@[simps state pagetable trapframe sz]
def setCwd (x : Proc) (cwd : Option Nat) : Proc := { x with cwd := cwd }

@[simps state pagetable trapframe sz]
def setName (x : Proc) (name : Name) : Proc := { x with name := name }

/-- What `freeproc` leaves, but for the trapframe. -/
@[simps state pagetable trapframe sz]
def clear (x : Proc) : Proc where
  state := .UNUSED
  chan := none
  killed := false
  xstate := 0
  pid := 0
  parent := none
  sz := 0
  pagetable := 0
  trapframe := x.trapframe
  cwd := none
  name := update x.name 0 0

end Proc

structure Kernel where
  mem : Mem
  fs : Fs.State
  proc : Nat → Proc
  nextpid : Nat
  initproc : Option Nat
  /-- `first` of `forkret`: the file system is not in use yet. -/
  first : Bool

/-- Why a function of the kernel does not return. -/
inductive Stop where
  | vm (e : Vm.Panic)
  | fs (e : Fs.Stop)
  /-- `"userinit"` -/
  | userinit
  /-- `"userinit: user page"` -/
  | userinitUserPage
  /-- `"userinit: mappages"` -/
  | userinitMappages
  /-- `"init exiting"` -/
  | initExiting
  /-- `"loadseg: address should exist"` -/
  | loadsegAddress
  /-- `"forkret: exec init"` -/
  | forkretExecInit
  /-- Not a panic of the source: a null pointer is followed. -/
  | nullPointer
deriving DecidableEq, Repr

abbrev KM (α : Type) := Prog Stop Kernel α

def Kernel.setMem (k : Kernel) (m : Mem) : Kernel := { k with mem := m }

def Kernel.setFs (k : Kernel) (s : Fs.State) : Kernel := { k with fs := s }

def Kernel.setProc (k : Kernel) (p : Nat) (x : Proc) : Kernel :=
  { k with proc := update k.proc p x }

def Kernel.setNextpid (k : Kernel) (pid : Nat) : Kernel := { k with nextpid := pid }

def Kernel.setInitproc (k : Kernel) (p : Nat) : Kernel := { k with initproc := some p }

def vm {α : Type} (c : VmM α) : KM α := zoom Kernel.mem (fun m k => k.setMem m) .vm c

def fs {α : Type} (c : FsM α) : KM α := zoom Kernel.fs (fun s k => k.setFs s) .fs c

def setProc (p : Nat) (f : Proc → Proc) : KM Unit := modify fun k => k.setProc p (f (k.proc p))

/-! ### Trapframes -/

/-- The offsets of the fields of `struct trapframe`. -/
def EPC : Nat := 24

def SP : Nat := 48

def A0 : Nat := 112

def A1 : Nat := 120

def TRAPFRAMESIZE : Nat := 288

/-- `p->trapframe->field = v` -/
def setTrapframe (p field v : Nat) : KM Unit := do
  let trapframe := ((← get).proc p).trapframe
  vm (modify fun m => m.setPage trapframe (putLE (m.page trapframe) field 8 v))

/-- `*(np->trapframe) = *(p->trapframe)` -/
def copyTrapframe (np p : Nat) : KM Unit := do
  let k ← get
  vm (modify fun m => m.setPage (k.proc np).trapframe
    (splice (m.page (k.proc np).trapframe) 0 TRAPFRAMESIZE (m.page (k.proc p).trapframe)))

/-! ### Allocation -/

def allocpid : KM Nat := do
  let pid := (← get).nextpid
  -- `nextpid` is an int
  modify fun k => k.setNextpid (if pid + 1 < 2 ^ 31 then pid + 1 else 1)
  return pid

section Functions

variable (img : Image)

/-- Free a proc structure and the data hanging from it, including user pages. -/
def freeproc (p : Nat) : KM Unit := do
  let x := (← get).proc p
  when (x.trapframe ≠ 0) (vm (kfree img x.trapframe))
  setProc p fun x => x.setTrapframe 0
  when (x.pagetable ≠ 0) (vm (procFreepagetable img x.pagetable x.sz))
  setProc p Proc.clear

/-- The label `found` of `allocproc`. -/
def allocFound (p : Nat) : KM (Option Nat) := do
  let pid ← allocpid
  setProc p fun x => (x.setPid pid).setState .USED
  let trapframe ← vm kalloc
  setProc p fun x => x.setTrapframe (trapframe.getD 0)
  match trapframe with
  | none =>
    freeproc img p
    return none
  | some trapframe =>
    let pagetable ← vm (procPagetable img trapframe)
    setProc p fun x => x.setPagetable (pagetable.getD 0)
    match pagetable with
    | none =>
      freeproc img p
      return none
    | some _ => return some p

/-- Return an unused process. -/
def allocproc : KM (Option Nat) := do
  let k ← get
  match (List.range NPROC).find? fun p => decide ((k.proc p).state = .UNUSED) with
  | none => return none
  | some p => allocFound img p

/-- One more page of the first process. -/
def userinitPage (initcode : Nat → UInt8) (pagetable page : Nat) : KM Unit := do
  match ← vm kalloc with
  | none => fail .userinitUserPage
  | some mem =>
    vm (memset mem 0)
    when (page = 1) (vm (modify fun m => m.setPage mem
      (splice (m.page mem) 0 (INITCODESIZE - PGSIZE) fun k => initcode (PGSIZE + k))))
    let r ← vm (mappages pagetable (page * PGSIZE) PGSIZE mem (PTE_R ||| PTE_W ||| PTE_U))
    if r ≠ 0 then fail .userinitMappages else return ()

/-- Set up the first user process, which runs `initcode`. -/
def userinit (initcode : Nat → UInt8) : KM Unit := do
  match ← allocproc img with
  | none => fail .userinit
  | some p =>
    modify fun k => k.setInitproc p
    let pagetable := ((← get).proc p).pagetable
    vm (uvmfirst pagetable initcode PGSIZE)
    forRange (userinitPage initcode pagetable) 1 3
    setProc p fun x => x.setSz (4 * PGSIZE)
    setTrapframe p EPC 0
    setTrapframe p SP (4 * PGSIZE)
    setProc p fun x => x.setState .RUNNABLE

/-- `(uint64)n` of an int. -/
def intToU64 (n : Int) : Nat := (n % 2 ^ 64).toNat

/-- `-n` of an int. -/
def negInt (n : Int) : Int := if n = -2 ^ 31 then n else -n

/-- Grow or shrink user memory by `n` bytes. -/
def growproc (p : Nat) (n : Int) : KM Int := do
  let x := (← get).proc p
  if n > 0 then
    let newsz := u64 (x.sz + intToU64 n)
    if newsz < x.sz ∨ newsz ≥ TRAPFRAME then return -1
    else
      let sz ← vm (uvmalloc img x.pagetable x.sz newsz PTE_W)
      if sz = 0 then return -1
      else
        setProc p fun x => x.setSz sz
        return 0
  else if n < 0 then
    if intToU64 (negInt n) > x.sz then return -1
    else
      let sz ← vm (uvmdealloc img x.pagetable x.sz (u64 (x.sz + intToU64 n)))
      setProc p fun x => x.setSz sz
      return 0
  else return 0

/-- Create a new process, copying the parent. -/
def kfork (p : Nat) : KM Int := do
  match ← allocproc img with
  | none => return -1
  | some np =>
    let k ← get
    let r ← vm (uvmcopy img (k.proc p).pagetable (k.proc np).pagetable (k.proc p).sz)
    if r < 0 then
      freeproc img np
      return -1
    else
      setProc np fun x => x.setSz (k.proc p).sz
      copyTrapframe np p
      setTrapframe np A0 0
      match (k.proc p).cwd with
      | none => fail .nullPointer
      | some cwd =>
        let cwd ← fs (idup cwd)
        setProc np fun x => x.setCwd (some cwd)
        setProc np fun x => x.setParent (some p)
        setProc np fun x => x.setState .RUNNABLE
        return (k.proc np).pid

/-! ### Waiting and exiting -/

/-- Wake up all processes sleeping on `chan`, called by `me`. -/
def wakeup (me : Nat) (chan : Option Nat) : KM Unit :=
  forRange (fun q => do
    let x := (← get).proc q
    when (q ≠ me ∧ x.state = .SLEEPING ∧ x.chan = chan)
      (setProc q fun x => x.setState .RUNNABLE)) 0 NPROC

/-- Pass `p`'s abandoned children to init. -/
def reparent (p : Nat) : KM Unit :=
  forRange (fun pp => do
    let k ← get
    when ((k.proc pp).parent = some p) do
      setProc pp fun x => x.setParent k.initproc
      wakeup p k.initproc) 0 NPROC

/-- Exit the current process. -/
def kexit (sb : Superblock) (p : Nat) (status : UInt32) : KM Unit := do
  let k ← get
  if k.initproc = some p then fail .initExiting
  else
    fs beginOp
    match (k.proc p).cwd with
    | none => fail .nullPointer
    | some cwd =>
      fs (iput sb cwd)
      fs endOp
      setProc p fun x => x.setCwd none
      reparent p
      let parent := ((← get).proc p).parent
      wakeup p parent
      setProc p fun x => (x.setXstate status).setState .ZOMBIE

/-- `copyout(p->pagetable, p->sz, addr, (char *)&pp->xstate, sizeof(pp->xstate)) < 0`, if
    there is an address. -/
def xstateFails (p addr : Nat) (xstate : UInt32) : KM Bool :=
  if addr ≠ 0 then do
    let pagetable := ((← get).proc p).pagetable
    let r ← vm (copyout pagetable addr (putLE (fun _ => 0) 0 4 xstate.toNat) 4)
    return decide (r < 0)
  else return false

/-- The scan of `kwait` at `pp`. -/
def waitScan (p addr pp : Nat) : KM (Option Int) := do
  let x := (← get).proc pp
  if x.parent ≠ some p then return none
  else if x.state = .ZOMBIE then
    let failed ← xstateFails p addr x.xstate
    if failed then return some (-1)
    else
      setProc pp fun x => x.setParent none
      freeproc img pp
      return some x.pid
  else return none

/-- Wait for a child process to exit and return its pid.  Without a result the process has
    gone to sleep, and makes the next scan when it is woken. -/
def kwait (p addr : Nat) : KM (Option Int) := do
  match ← findFirst (waitScan img p addr) 0 NPROC with
  | some r => return some r
  | none =>
    let k ← get
    let havekids := (List.range NPROC).any fun pp => decide ((k.proc pp).parent = some p)
    if havekids = false ∨ (k.proc p).killed then return some (-1)
    else
      setProc p fun x => (x.setChan (some p)).setState .SLEEPING
      return none

/-! ### Scheduling -/

/-- The scheduler switches to `p`, which was runnable; if `p` was in `sleep` this returns. -/
def schedule (p : Nat) : KM Unit := setProc p fun x => (x.setState .RUNNING).setChan none

/-- Give up the CPU for one scheduling round. -/
def yield (p : Nat) : KM Unit := setProc p fun x => x.setState .RUNNABLE

/-- Kill the process with the given pid. -/
def kkill (pid : Int) : KM Int := do
  let k ← get
  match (List.range NPROC).find? fun q => decide (((k.proc q).pid : Int) = pid) with
  | none => return -1
  | some q =>
    setProc q fun x => x.setKilled.setState
      (if x.state = .SLEEPING then .RUNNABLE else x.state)
    return 0

/-- A store of a user program: the hardware finds a valid leaf that allows it, or traps. -/
def userStore (p va : Nat) (b : UInt8) : KM Unit := do
  let k ← get
  match k.mem.leaf (some (k.proc p).pagetable) (va / PGSIZE) with
  | none => return ()
  | some e =>
    when (va < MAXVA ∧ e &&& PTE_U ≠ 0 ∧ e &&& PTE_W ≠ 0) (vm (modify fun m =>
      m.setPage (PTE2PA e) (update (m.page (PTE2PA e)) (va % PGSIZE) b)))

end Functions

end Xv6.Process
