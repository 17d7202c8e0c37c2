import Xv6.Process.Kernel
import Xv6.Lib.Transition

/-!
# The process table, one critical section at a time

`kfork`, `kexit`, `kwait`, `kkill`, `sleep` and `wakeup` as they interleave: a step is one
critical section of `p->lock` or `wait_lock`, and the scans over the table take a step for
each entry.  `wait_lock` is held from step to step; a section of `p->lock` is a single step,
so that `p->lock` is free between steps.

Memory is left out.  What `kalloc`, `proc_pagetable`, `uvmcopy` and `copyout` return is an
input of the step, and so is every address.
-/

namespace Xv6.Ptable

open Transition Process Function

/-- What the memory functions return that a step calls. -/
structure Memory where
  /-- `kalloc()` for the trapframe; 0 if there is no memory. -/
  trapframe : Nat
  /-- `proc_pagetable(p)`; 0 if there is no memory. -/
  pagetable : Nat
  /-- `uvmcopy` or `copyout` has succeeded. -/
  copied : Bool

/-- Where a process stands in the kernel. -/
inductive Pc where
  /-- In user space, or in functions that do not change the table. -/
  | idle
  /-- `allocproc` looks at entry `j`. -/
  | allocating (j : Nat)
  /-- `kfork` has released the lock of the new process `np`. -/
  | forked (np : Nat)
  /-- `kfork` has set the parent of `np`. -/
  | publishing (np : Nat)
  /-- `kexit` waits for `wait_lock`. -/
  | exiting (status : UInt32)
  /-- `reparent` looks at entry `i`. -/
  | reparenting (status : UInt32) (i : Nat)
  /-- `reparent` has passed the child `i` to init and its `wakeup` looks at entry `j`. -/
  | reparentWaking (status : UInt32) (i j : Nat)
  /-- `wakeup(p->parent)` in `kexit` looks at entry `j`. -/
  | exitWaking (status : UInt32) (j : Nat)
  /-- `kexit` is about to become a zombie. -/
  | dying (status : UInt32)
  /-- `kexit` has called `sched`. -/
  | dead
  /-- `kwait` waits for `wait_lock`. -/
  | waiting (addr : Nat)
  /-- `kwait` looks at entry `i`. -/
  | scanning (addr i : Nat) (havekids : Bool)
  /-- `kwait` is at `if (!havekids || killed(p))`. -/
  | checking (addr : Nat) (havekids : Bool)
  /-- `kwait` is at `sleep(p, &wait_lock)`. -/
  | dozing (addr : Nat)
  /-- `kwait` is in `sleep`. -/
  | woken (addr : Nat)
  /-- In `sleep`, called elsewhere. -/
  | slept
  /-- `wakeup(chan)`, called elsewhere, looks at entry `j`. -/
  | waking (chan : Option Nat) (j : Nat)
  /-- `kkill(pid)` looks at entry `j`. -/
  | killing (pid : Int) (j : Nat)
deriving DecidableEq, Repr

structure Table where
  proc : Nat → Proc
  pc : Nat → Pc
  nextpid : Nat
  initproc : Nat
  /-- Who holds `wait_lock`. -/
  waitLock : Option Nat

namespace Table

def setProc (t : Table) (q : Nat) (x : Proc) : Table :=
  { t with proc := update t.proc q x }

def setPc (t : Table) (p : Nat) (pc : Pc) : Table := { t with pc := update t.pc p pc }

def setLock (t : Table) (l : Option Nat) : Table := { t with waitLock := l }

def setNextpid (t : Table) (n : Nat) : Table := { t with nextpid := n }

end Table

inductive Call where
  | fork
  | exit (status : UInt32)
  | wait (addr : Nat)
  | kill (pid : Int)
  | sleep (chan : Nat)
  | wakeup (chan : Nat)

inductive Act where
  | call (p : Nat) (c : Call)
  /-- `p` takes the next step of the call that it is in. -/
  | advance (p : Nat) (mem : Memory)
  /-- `usertrap` asks whether `p` has been killed. -/
  | trap (p : Nat)
  | schedule (p : Nat)
  | yield (p : Nat)
  /-- `growproc` or `kexec` gives `p` a size and a page table. -/
  | space (p sz pagetable : Nat)
  /-- `forkret` or `sys_chdir` gives `p` a current directory. -/
  | chdir (p cwd : Nat)

/-- What a step does that the outside can see. -/
inductive Note where
  /-- `allocproc` has found entry `np`, and `kfork` will return its pid. -/
  | created (np : Nat)
  /-- `allocproc` or `uvmcopy` has run out of memory. -/
  | discarded
  /-- `kexit(status)` is called. -/
  | exits (status : UInt32)
  /-- `kkill` has found its pid in entry `q`. -/
  | named (q : Nat)
  /-- `kwait(addr)` returns the pid of entry `q`; `stored` is the status that it has copied
      out. -/
  | reaped (q pid addr : Nat) (stored : Option UInt32)
  /-- `kwait` returns -1. -/
  | waitFails
deriving DecidableEq, Repr

inductive Panic where
  /-- `"init exiting"` -/
  | initExiting
  /-- Not a panic of the source: a null pointer is followed. -/
  | nullPointer
deriving DecidableEq, Repr

abbrev Result := Outcome Panic (Table × Option Note)

/-! ### Steps -/

/-- `allocpid()`: the next pid after `pid`. -/
def succPid (pid : Nat) : Nat := if pid + 1 < 2 ^ 31 then pid + 1 else 1

/-- `freeproc`. -/
def freed (x : Proc) : Proc := (x.setTrapframe 0).clear

/-- What the first section of `kfork` makes of a free entry. -/
def copied (x : Proc) (pid : Nat) (mem : Memory) (sz cwd : Nat) : Proc :=
  (((((x.setPid pid).setState .USED).setTrapframe mem.trapframe).setPagetable
    mem.pagetable).setSz sz).setCwd (some cwd)

/-- `allocproc` at the free entry `j`, and `kfork` as long as it holds the lock of the new
    process. -/
def allocSlot (t : Table) (p j : Nat) (mem : Memory) : Result :=
  let pid := t.nextpid
  let t := t.setNextpid (succPid pid)
  if mem.trapframe = 0 ∨ mem.pagetable = 0 ∨ mem.copied = false then
    .done ((t.setProc j (freed (t.proc j))).setPc p .idle, some .discarded)
  else match (t.proc p).cwd with
    | none => .fail .nullPointer
    | some cwd =>
      -- the context of the new process is that of `forkret`
      .done (((t.setProc j (copied (t.proc j) pid mem (t.proc p).sz cwd)).setPc j .idle).setPc p
        (.forked j), some (.created j))

/-- `wakeup(chan)` at entry `j`. -/
def wakeSlot (t : Table) (p : Nat) (chan : Option Nat) (j : Nat) : Table :=
  if j ≠ p ∧ (t.proc j).state = .SLEEPING ∧ (t.proc j).chan = chan then
    t.setProc j ((t.proc j).setState .RUNNABLE)
  else t

/-- `kkill` at the entry that has its pid. -/
def slain (x : Proc) : Proc :=
  x.setKilled.setState (if x.state = .SLEEPING then .RUNNABLE else x.state)

/-- `kexit(status)` up to `acquire(&wait_lock)`. -/
def startExit (t : Table) (p : Nat) (status : UInt32) : Result :=
  if t.initproc = p then .fail .initExiting
  else .done ((t.setProc p ((t.proc p).setCwd none)).setPc p (.exiting status),
    some (.exits status))

def startCall (t : Table) (p : Nat) : Call → Result
  | .fork => .done (t.setPc p (.allocating 0), none)
  | .exit status => startExit t p status
  | .wait addr => .done (t.setPc p (.waiting addr), none)
  | .kill pid => .done (t.setPc p (.killing pid 0), none)
  | .sleep chan =>
    .done ((t.setProc p (((t.proc p).setChan (some chan)).setState .SLEEPING)).setPc p .slept, none)
  | .wakeup chan => .done (t.setPc p (.waking (some chan) 0), none)

/-- `kwait` at the child `i`. -/
def scanChild (t : Table) (p addr i : Nat) (mem : Memory) : Result :=
  if (t.proc i).state = .ZOMBIE then
    if addr ≠ 0 ∧ mem.copied = false then
      .done ((t.setLock none).setPc p .idle, some .waitFails)
    else
      .done (((t.setProc i (freed ((t.proc i).setParent none))).setLock none).setPc p .idle,
        some (.reaped i (t.proc i).pid addr (if addr ≠ 0 then some (t.proc i).xstate else none)))
  else .done (t.setPc p (.scanning addr (i + 1) true), none)

/-- The next step of a call. -/
def advance (t : Table) (p : Nat) (mem : Memory) : Result :=
  match t.pc p with
  | .idle | .dead => .blocked
  | .allocating j =>
    if j < NPROC then
      if (t.proc j).state = .UNUSED then allocSlot t p j mem
      else .done (t.setPc p (.allocating (j + 1)), none)
    else .done (t.setPc p .idle, none)
  | .forked np =>
    if t.waitLock = none then
      .done ((t.setProc np ((t.proc np).setParent (some p))).setPc p (.publishing np), none)
    else .blocked
  | .publishing np =>
    .done ((t.setProc np ((t.proc np).setState .RUNNABLE)).setPc p .idle, none)
  | .exiting status =>
    if t.waitLock = none then
      .done ((t.setLock (some p)).setPc p (.reparenting status 0), none)
    else .blocked
  | .reparenting status i =>
    if i < NPROC then
      if (t.proc i).parent = some p then
        .done ((t.setProc i ((t.proc i).setParent (some t.initproc))).setPc p
          (.reparentWaking status i 0), none)
      else .done (t.setPc p (.reparenting status (i + 1)), none)
    else .done (t.setPc p (.exitWaking status 0), none)
  | .reparentWaking status i j =>
    if j < NPROC then
      .done ((wakeSlot t p (some t.initproc) j).setPc p (.reparentWaking status i (j + 1)), none)
    else .done (t.setPc p (.reparenting status (i + 1)), none)
  | .exitWaking status j =>
    if j < NPROC then
      .done ((wakeSlot t p (t.proc p).parent j).setPc p (.exitWaking status (j + 1)), none)
    else .done (t.setPc p (.dying status), none)
  | .dying status =>
    .done (((t.setProc p (((t.proc p).setXstate status).setState .ZOMBIE)).setLock none).setPc p
      .dead, none)
  | .waiting addr =>
    if t.waitLock = none then
      .done ((t.setLock (some p)).setPc p (.scanning addr 0 false), none)
    else .blocked
  | .scanning addr i havekids =>
    if i < NPROC then
      if (t.proc i).parent = some p then scanChild t p addr i mem
      else .done (t.setPc p (.scanning addr (i + 1) havekids), none)
    else .done (t.setPc p (.checking addr havekids), none)
  | .checking addr havekids =>
    if havekids = false ∨ (t.proc p).killed = true then
      .done ((t.setLock none).setPc p .idle, some .waitFails)
    else .done (t.setPc p (.dozing addr), none)
  | .dozing addr =>
    .done (((t.setProc p (((t.proc p).setChan (some p)).setState .SLEEPING)).setLock none).setPc p
      (.woken addr), none)
  | .woken addr => .done ((t.setProc p ((t.proc p).setChan none)).setPc p (.waiting addr), none)
  | .slept => .done ((t.setProc p ((t.proc p).setChan none)).setPc p .idle, none)
  | .waking chan j =>
    if j < NPROC then .done ((wakeSlot t p chan j).setPc p (.waking chan (j + 1)), none)
    else .done (t.setPc p .idle, none)
  | .killing pid j =>
    if j < NPROC then
      if ((t.proc j).pid : Int) = pid then
        .done ((t.setProc j (slain (t.proc j))).setPc p .idle, some (.named j))
      else .done (t.setPc p (.killing pid (j + 1)), none)
    else .done (t.setPc p .idle, none)

def minusOne : UInt32 := 0xffffffff

def step (t : Table) : Act → Result
  | .call p c => startCall t p c
  | .advance p mem => advance t p mem
  | .trap p => if (t.proc p).killed then startExit t p minusOne else .done (t, none)
  | .schedule p => .done (t.setProc p ((t.proc p).setState .RUNNING), none)
  | .yield p => .done (t.setProc p ((t.proc p).setState .RUNNABLE), none)
  | .space p sz pagetable =>
    .done (t.setProc p (((t.proc p).setPagetable pagetable).setSz sz), none)
  | .chdir p cwd => .done (t.setProc p ((t.proc p).setCwd (some cwd)), none)

def Act.actor : Act → Nat
  | .call p _ | .advance p _ | .trap p | .schedule p | .yield p | .space p _ _ | .chdir p _ => p

/-- `p` runs on some CPU. -/
def running (t : Table) (p : Nat) : Bool := decide (p < NPROC ∧ (t.proc p).state = .RUNNING)

/-- A process acts while it runs.  It makes one call at a time, and is not interrupted while
    it holds `wait_lock`. -/
def allowed (t : Table) : Act → Bool
  | .call p _ | .trap p | .chdir p _ => running t p && decide (t.pc p = .idle)
  | .space p _ pagetable => running t p && decide (t.pc p = .idle ∧ pagetable ≠ 0)
  | .advance p _ => running t p
  | .schedule p => decide (p < NPROC ∧ (t.proc p).state = .RUNNABLE)
  | .yield p => running t p && decide (t.waitLock ≠ some p)

def blank : Proc := ⟨.UNUSED, none, false, 0, 0, none, 0, 0, 0, none, fun _ => 0⟩

/-- The table after `userinit`: the first process is ready to run. -/
def boot (trapframe pagetable : Nat) : Table where
  proc := update (fun _ => blank) 0
    (((((blank.setPid 1).setState .RUNNABLE).setTrapframe trapframe).setPagetable pagetable).setSz
      (4 * Vm.PGSIZE))
  pc := fun _ => .idle
  nextpid := 2
  initproc := 0
  waitLock := none

end Xv6.Ptable
