import Xv6.Ptable.Model

/-!
# CPUs and processes, one lock operation at a time

Any number of CPUs run `scheduler` and the kernel threads of the processes.  A step is one
`acquire`, one `release`, one update that a lock protects, or one register that `swtch` stores
or loads.

A kernel thread is a stack of frames.  The bottom frame is the process outside of the functions
below; a frame on top of another one is a system call or the handler of an interrupt, which may
come wherever the CPU holds no lock.  `sleep` and `wakeup` are part of the frames that call
them.

Next to the functions of `proc.c` a process, or the handler of a device interrupt, runs

    acquire(lk); while (!cond) sleep(chan, lk); ... release(lk)
    acquire(lk); cond = 1; wakeup(chan); release(lk)

for any number of conditions, each with its lock and its channel.  Memory and files are left
out: whether `kalloc`, `uvmcopy` and `copyout` succeed is an input of the step.
-/

namespace Xv6.Sched

open Transition Process Function

def NREGS : Nat := 14

inductive Lock where
  /-- `proc[j].lock` -/
  | proc (j : Nat)
  /-- `wait_lock` -/
  | wait
  /-- The lock of a condition. -/
  | cond (l : Nat)
deriving DecidableEq, Repr

inductive Chan where
  /-- The address of `proc[p]`. -/
  | proc (p : Nat)
  /-- The channel of a condition. -/
  | cond (l : Nat)
deriving DecidableEq, Repr

/-- The fields of `struct proc` that the scheduling functions use. -/
structure Slot where
  state : ProcState
  chan : Option Chan
  killed : Bool
  xstate : UInt32
  pid : Nat
  parent : Option Nat

namespace Slot

@[simps]
def setState (x : Slot) (state : ProcState) : Slot := { x with state := state }

@[simps]
def setChan (x : Slot) (chan : Option Chan) : Slot := { x with chan := chan }

@[simps]
def setParent (x : Slot) (parent : Option Nat) : Slot := { x with parent := parent }

/-- `kexit` under `p->lock`. -/
@[simps]
def dead (x : Slot) (status : UInt32) : Slot := { x with xstate := status, state := .ZOMBIE }

/-- `kkill` at the entry that has its pid. -/
@[simps]
def slain (x : Slot) : Slot :=
  { x with killed := true, state := if x.state = .SLEEPING then .RUNNABLE else x.state }

/-- `freeproc`. -/
@[simps]
def freed : Slot := ⟨.UNUSED, none, false, 0, 0, none⟩

/-- `allocproc`. -/
@[simps]
def taken (x : Slot) (pid : Nat) : Slot := { x with pid := pid, state := .USED }

end Slot

/-! ### Where a thread stands -/

/-- `sleep(chan, lk)`. -/
inductive SleepAt where
  | acquire | unlock | setChan | mark | sched | clear | drop | retake
deriving DecidableEq, Repr

/-- `wakeup(chan)` at an entry. -/
inductive WakeAt where
  | acquire | test | release
deriving DecidableEq, Repr

inductive YieldAt where
  | acquire | mark | sched | release
deriving DecidableEq, Repr

/-- `kkill(pid)` at an entry. -/
inductive KillAt where
  | acquire | test | skip | found
deriving DecidableEq, Repr

/-- `kfork()`: first `allocproc` goes through the entries `j`, then `np` is the new process. -/
inductive ForkAt where
  | acquire (j : Nat) | test (j : Nat) | skip (j : Nat) | abort (j : Nat)
  | unlock (np : Nat) | lockWait (np : Nat) | adopt (np : Nat) | unlockWait (np : Nat)
  | lockNew (np : Nat) | publish (np : Nat) | finish (np : Nat)
deriving DecidableEq, Repr

/-- `kexit(status)`. -/
inductive ExitAt where
  | lock | reparent (i : Nat) | reparentWaking (i j : Nat) (at_ : WakeAt)
  | waking (chan : Option Chan) (j : Nat) (at_ : WakeAt)
  | acquire | mark | unlock | sched | dead
deriving DecidableEq, Repr

/-- `kwait(addr)`. -/
inductive WaitAt where
  | lock | scan (i : Nat) (havekids : Bool) | test (i : Nat) | skip (i : Nat) | drop (i : Nat)
  | killed | killedRead | killedDone (k : Bool) | sleep (at_ : SleepAt) | unlock
deriving DecidableEq, Repr

/-- A process that waits for a condition. -/
inductive WaiterAt where
  | acquire | test | sleep (p : Nat) (at_ : SleepAt) | use | release
deriving DecidableEq, Repr

/-- Who makes a condition true. -/
inductive WakerAt where
  | acquire | set | waking (j : Nat) (at_ : WakeAt) | release
deriving DecidableEq, Repr

/-- A frame of a kernel stack: a function, its variables and where it stands. -/
inductive Frame where
  | user
  | forkret (p : Nat)
  | yield (p : Nat) (at_ : YieldAt)
  | kill (pid : Int) (j : Nat) (at_ : KillAt)
  | fork (p : Nat) (at_ : ForkAt)
  | exit (p : Nat) (status : UInt32) (at_ : ExitAt)
  | wait (p addr : Nat) (at_ : WaitAt)
  | waiter (l : Nat) (at_ : WaiterAt)
  | waker (l : Nat) (at_ : WakerAt)
deriving DecidableEq, Repr

/-! ### The locks that a frame holds -/

def SleepAt.locks (p : Nat) (lk : Lock) : SleepAt → List Lock
  | .acquire => [lk]
  | .unlock => [.proc p, lk]
  | .setChan | .mark | .sched | .clear | .drop => [.proc p]
  | .retake => []

def WakeAt.locks (j : Nat) : WakeAt → List Lock
  | .acquire => []
  | .test | .release => [.proc j]

/-- The locks that the function has taken and has not released. -/
def Frame.locks : Frame → List Lock
  | .user => []
  | .forkret p => [.proc p]
  | .yield _ .acquire => []
  | .yield p .mark | .yield p .sched | .yield p .release => [.proc p]
  | .kill _ _ .acquire => []
  | .kill _ j .test | .kill _ j .skip | .kill _ j .found => [.proc j]
  | .fork _ at_ => match at_ with
    | .acquire _ | .lockWait _ | .lockNew _ => []
    | .test j | .skip j | .abort j | .unlock j | .publish j | .finish j => [.proc j]
    | .adopt _ | .unlockWait _ => [.wait]
  | .exit p _ at_ => match at_ with
    | .lock => []
    | .reparent _ | .acquire => [.wait]
    | .reparentWaking _ j at_ | .waking _ j at_ => at_.locks j ++ [.wait]
    | .mark | .unlock => [.proc p, .wait]
    | .sched | .dead => [.proc p]
  | .wait p _ at_ => match at_ with
    | .lock => []
    | .scan .. | .killed | .unlock => [.wait]
    | .test i | .skip i | .drop i => [.proc i, .wait]
    | .killedRead | .killedDone _ => [.proc p, .wait]
    | .sleep at_ => at_.locks p .wait
  | .waiter l at_ => match at_ with
    | .acquire => []
    | .test | .use | .release => [.cond l]
    | .sleep p at_ => at_.locks p (.cond l)
  | .waker l at_ => match at_ with
    | .acquire => []
    | .set | .release => [.cond l]
    | .waking j at_ => at_.locks j ++ [.cond l]

def locks (fs : List Frame) : List Lock := fs.flatMap Frame.locks

/-! ### The machine -/

inductive Mode where
  /-- `scheduler` is at `acquire(&p->lock)`. -/
  | look (j : Nat)
  | test (j : Nat)
  /-- `p->state = RUNNING` -/
  | mark (j : Nat)
  /-- `c->proc = p` -/
  | assign (j : Nat)
  /-- `swtch` has stored `k` registers in `c->context`. -/
  | saveSched (j k : Nat)
  /-- `swtch` has loaded `k` registers from `p->context`. -/
  | loadProc (j k : Nat)
  /-- `c->proc = 0` -/
  | clear (j : Nat)
  | drop (j : Nat)
  /-- An interrupt has come at `look j`. -/
  | irq (j : Nat) (f : Frame)
  /-- The kernel thread of `p`. -/
  | exec (p : Nat)
  /-- `swtch` has stored `k` registers in `p->context`. -/
  | saveProc (p k : Nat)
  /-- `swtch` has loaded `k` registers from `c->context`. -/
  | loadSched (p k : Nat)
deriving DecidableEq, Repr

structure Cpu where
  /-- `c->proc` -/
  proc : Option Nat
  mode : Mode
  /-- The variable `p` of `scheduler`, as saved in `c->context`. -/
  context : Nat

structure Machine where
  proc : Nat → Slot
  /-- The kernel stacks of the processes. -/
  stack : Nat → List Frame
  /-- How many registers of `p->context` the last `swtch` from `p` has stored. -/
  stored : Nat → Nat
  /-- The CPU that holds a lock. -/
  lock : Lock → Option Nat
  cpu : Nat → Cpu
  cond : Nat → Bool
  nextpid : Nat
  initproc : Nat

namespace Machine

@[simps]
def setSlot (m : Machine) (j : Nat) (y : Slot) : Machine :=
  { m with proc := update m.proc j y }

@[simps]
def setStack (m : Machine) (p : Nat) (fs : List Frame) : Machine :=
  { m with stack := update m.stack p fs }

@[simps]
def setStored (m : Machine) (p k : Nat) : Machine :=
  { m with stored := update m.stored p k }

@[simps]
def setLock (m : Machine) (x : Lock) (holder : Option Nat) : Machine :=
  { m with lock := update m.lock x holder }

@[simps]
def setCpu (m : Machine) (c : Nat) (u : Cpu) : Machine :=
  { m with cpu := update m.cpu c u }

@[simps]
def setCond (m : Machine) (l : Nat) (b : Bool) : Machine :=
  { m with cond := update m.cond l b }

@[simps]
def setNextpid (m : Machine) (n : Nat) : Machine := { m with nextpid := n }

def setMode (m : Machine) (c : Nat) (mode : Mode) : Machine :=
  m.setCpu c { m.cpu c with mode := mode }

def frames (m : Machine) (c : Nat) : List Frame :=
  match (m.cpu c).mode with
  | .exec p => m.stack p
  | .irq _ f => [f]
  | _ => []

/-- The frames that CPU `c` executes are replaced; when the handler of an interrupt has returned
    to `scheduler`, it goes on there. -/
def setFrames (m : Machine) (c : Nat) (fs : List Frame) : Machine :=
  match (m.cpu c).mode, fs with
  | .exec p, fs => m.setStack p fs
  | .irq j _, [] => m.setMode c (.look j)
  | .irq j _, f :: _ => m.setMode c (.irq j f)
  | _, _ => m

def held (m : Machine) (c : Nat) : List Lock :=
  match (m.cpu c).mode with
  | .look _ => []
  | .test j | .mark j | .assign j | .saveSched j _ | .loadProc j _ | .clear j | .drop j => [.proc j]
  | .irq _ f => f.locks
  | .exec p => locks (m.stack p)
  | .saveProc p _ | .loadSched p _ => [.proc p]

/-- `c->noff`: `push_off` and `pop_off` count the locks that the CPU holds. -/
def noff (m : Machine) (c : Nat) : Nat := (m.held c).length

end Machine

inductive Panic where
  /-- `"acquire"` -/
  | acquire
  /-- `"release"` -/
  | release
  /-- `"sched: p->lock"` -/
  | schedLock
  /-- `"sched: locks"` -/
  | schedLocks
  /-- `"sched: running"` -/
  | schedRunning
  /-- `"init exiting"` -/
  | initExiting
  /-- `"zombie exit"` -/
  | zombieExit
  /-- Not a panic of the source: a null pointer is followed. -/
  | nullPointer
deriving DecidableEq, Repr

/-! ### Kernel threads -/

/-- The next instruction of a frame, and the frame after it; none if the function returns. -/
inductive Instr where
  | goto (next : Option Frame)
  | acquire (x : Lock) (next : Option Frame)
  | release (x : Lock) (next : Option Frame)
  /-- An update of entry `j`. -/
  | write (j : Nat) (y : Slot) (next : Option Frame)
  /-- `allocproc` has found entry `j` and there is memory. -/
  | alloc (j : Nat) (next : Option Frame)
  /-- `allocproc` has found entry `j` and there is no memory. -/
  | reject (j : Nat) (next : Option Frame)
  | setCond (l : Nat) (b : Bool) (next : Option Frame)
  /-- `sched()` -/
  | sched (p : Nat) (next : Option Frame)
  /-- A process outside of the functions: it may make a call. -/
  | rest
  | panic (e : Panic)

/-- `sleep(chan, lk)`. -/
def sleepInstr (x : Slot) (p : Nat) (chan : Chan) (lk : Lock) (k : SleepAt → Frame)
    (after : Frame) : SleepAt → Instr
  | .acquire => .acquire (.proc p) (k .unlock)
  | .unlock => .release lk (k .setChan)
  | .setChan => .write p (x.setChan chan) (k .mark)
  | .mark => .write p (x.setState .SLEEPING) (k .sched)
  | .sched => .sched p (k .clear)
  | .clear => .write p (x.setChan none) (k .drop)
  | .drop => .release (.proc p) (k .retake)
  | .retake => .acquire lk after

/-- `wakeup(chan)` at entry `j`. -/
def wakeInstr (m : Machine) (c : Nat) (chan : Option Chan) (j : Nat) (k : Nat → WakeAt → Frame)
    (after : Frame) : WakeAt → Instr
  | .acquire =>
    if j < NPROC then
      if (m.cpu c).proc = some j then .goto (k (j + 1) .acquire)
      else .acquire (.proc j) (k j .test)
    else .goto after
  | .test =>
    if (m.proc j).state = .SLEEPING ∧ (m.proc j).chan = chan then
      .write j ((m.proc j).setState .RUNNABLE) (k j .release)
    else .goto (k j .release)
  | .release => .release (.proc j) (k (j + 1) .acquire)

def yieldInstr (m : Machine) (p : Nat) : YieldAt → Instr
  | .acquire => .acquire (.proc p) (Frame.yield p .mark)
  | .mark => .write p ((m.proc p).setState .RUNNABLE) (Frame.yield p .sched)
  | .sched => .sched p (Frame.yield p .release)
  | .release => .release (.proc p) none

def killInstr (m : Machine) (pid : Int) (j : Nat) : KillAt → Instr
  | .acquire => if j < NPROC then .acquire (.proc j) (Frame.kill pid j .test) else .goto none
  | .test =>
    if ((m.proc j).pid : Int) = pid then .write j (m.proc j).slain (Frame.kill pid j .found)
    else .goto (Frame.kill pid j .skip)
  | .skip => .release (.proc j) (Frame.kill pid (j + 1) .acquire)
  | .found => .release (.proc j) none

/-- `ok` says whether there is memory. -/
def forkInstr (m : Machine) (p : Nat) (ok : Bool) : ForkAt → Instr
  | .acquire j => if j < NPROC then .acquire (.proc j) (Frame.fork p (.test j)) else .goto none
  | .test j =>
    if (m.proc j).state = .UNUSED then
      if ok then .alloc j (Frame.fork p (.unlock j)) else .reject j (Frame.fork p (.abort j))
    else .goto (Frame.fork p (.skip j))
  | .skip j => .release (.proc j) (Frame.fork p (.acquire (j + 1)))
  | .abort j => .release (.proc j) none
  | .unlock np => .release (.proc np) (Frame.fork p (.lockWait np))
  | .lockWait np => .acquire .wait (Frame.fork p (.adopt np))
  | .adopt np => .write np ((m.proc np).setParent p) (Frame.fork p (.unlockWait np))
  | .unlockWait np => .release .wait (Frame.fork p (.lockNew np))
  | .lockNew np => .acquire (.proc np) (Frame.fork p (.publish np))
  | .publish np => .write np ((m.proc np).setState .RUNNABLE) (Frame.fork p (.finish np))
  | .finish np => .release (.proc np) none

def exitInstr (m : Machine) (c p : Nat) (status : UInt32) : ExitAt → Instr
  | .lock => .acquire .wait (Frame.exit p status (.reparent 0))
  | .reparent i =>
    if i < NPROC then
      if (m.proc i).parent = some p then
        .write i ((m.proc i).setParent m.initproc) (Frame.exit p status (.reparentWaking i 0 .acquire))
      else .goto (Frame.exit p status (.reparent (i + 1)))
    else .goto (Frame.exit p status (.waking ((m.proc p).parent.map .proc) 0 .acquire))
  | .reparentWaking i j at_ =>
    wakeInstr m c (some (.proc m.initproc)) j
      (fun j at_ => .exit p status (.reparentWaking i j at_)) (.exit p status (.reparent (i + 1))) at_
  | .waking chan j at_ =>
    wakeInstr m c chan j (fun j at_ => .exit p status (.waking chan j at_)) (.exit p status .acquire)
      at_
  | .acquire => .acquire (.proc p) (Frame.exit p status .mark)
  | .mark => .write p ((m.proc p).dead status) (Frame.exit p status .unlock)
  | .unlock => .release .wait (Frame.exit p status .sched)
  | .sched => .sched p (Frame.exit p status .dead)
  | .dead => .panic .zombieExit

/-- `ok` says whether `copyout` succeeds. -/
def waitInstr (m : Machine) (p addr : Nat) (ok : Bool) : WaitAt → Instr
  | .lock => .acquire .wait (Frame.wait p addr (.scan 0 false))
  | .scan i havekids =>
    if i < NPROC then
      if (m.proc i).parent = some p then .acquire (.proc i) (Frame.wait p addr (.test i))
      else .goto (Frame.wait p addr (.scan (i + 1) havekids))
    else .goto (Frame.wait p addr (if havekids then .killed else .unlock))
  | .test i =>
    if (m.proc i).state = .ZOMBIE then
      if addr ≠ 0 ∧ ok = false then .goto (Frame.wait p addr (.drop i))
      else .write i .freed (Frame.wait p addr (.drop i))
    else .goto (Frame.wait p addr (.skip i))
  | .skip i => .release (.proc i) (Frame.wait p addr (.scan (i + 1) true))
  | .drop i => .release (.proc i) (Frame.wait p addr .unlock)
  | .killed => .acquire (.proc p) (Frame.wait p addr .killedRead)
  | .killedRead => .goto (Frame.wait p addr (.killedDone (m.proc p).killed))
  | .killedDone k =>
    .release (.proc p) (Frame.wait p addr (if k then .unlock else .sleep .acquire))
  | .sleep at_ =>
    sleepInstr (m.proc p) p (.proc p) .wait (fun at_ => .wait p addr (.sleep at_))
      (.wait p addr (.scan 0 false)) at_
  | .unlock => .release .wait none

/-- `acquire(lk); while (!cond) sleep(chan, lk); ... release(lk)`; `ok` says whether the process
    makes the condition false again. -/
def waiterInstr (m : Machine) (c l : Nat) (ok : Bool) : WaiterAt → Instr
  | .acquire => .acquire (.cond l) (Frame.waiter l .test)
  | .test =>
    if m.cond l then .goto (Frame.waiter l .use)
    else match (m.cpu c).proc with
      | none => .panic .nullPointer
      | some p => .goto (Frame.waiter l (.sleep p .acquire))
  | .sleep p at_ =>
    sleepInstr (m.proc p) p (.cond l) (.cond l) (fun at_ => .waiter l (.sleep p at_))
      (.waiter l .test) at_
  | .use =>
    if ok then .setCond l false (Frame.waiter l .release) else .goto (Frame.waiter l .release)
  | .release => .release (.cond l) none

/-- `acquire(lk); cond = 1; wakeup(chan); release(lk)`. -/
def wakerInstr (m : Machine) (c l : Nat) : WakerAt → Instr
  | .acquire => .acquire (.cond l) (Frame.waker l .set)
  | .set => .setCond l true (Frame.waker l (.waking 0 .acquire))
  | .waking j at_ =>
    wakeInstr m c (some (.cond l)) j (fun j at_ => .waker l (.waking j at_)) (.waker l .release) at_
  | .release => .release (.cond l) none

def instr (m : Machine) (c : Nat) (ok : Bool) : Frame → Instr
  | .user => .rest
  | .forkret p => .release (.proc p) Frame.user
  | .yield p at_ => yieldInstr m p at_
  | .kill pid j at_ => killInstr m pid j at_
  | .fork p at_ => forkInstr m p ok at_
  | .exit p status at_ => exitInstr m c p status at_
  | .wait p addr at_ => waitInstr m p addr ok at_
  | .waiter l at_ => waiterInstr m c l ok at_
  | .waker l at_ => wakerInstr m c l at_

def acquire (m : Machine) (c : Nat) (x : Lock) : Outcome Panic Machine :=
  match m.lock x with
  | none => .done (m.setLock x (some c))
  | some c' => if c' = c then .fail .acquire else .blocked

def release (m : Machine) (c : Nat) (x : Lock) : Outcome Panic Machine :=
  if m.lock x = some c then .done (m.setLock x none) else .fail .release

/-- `sched()` up to the first instruction of `swtch`. -/
def enterSwtch (m : Machine) (c p : Nat) (fs : List Frame) : Outcome Panic Machine :=
  if m.lock (.proc p) ≠ some c then .fail .schedLock
  else if m.noff c ≠ 1 then .fail .schedLocks
  else if (m.proc p).state = .RUNNING then .fail .schedRunning
  else .done (((m.setFrames c fs).setStored p 0).setMode c (.saveProc p 0))

/-- CPU `c` performs an instruction of its top frame; `fs` are the frames below. -/
def perform (m : Machine) (c : Nat) (fs : List Frame) : Instr → Outcome Panic Machine
  | .goto next => .done (m.setFrames c (next.toList ++ fs))
  | .acquire x next => do
    let m ← acquire m c x
    .done (m.setFrames c (next.toList ++ fs))
  | .release x next => do
    let m ← release m c x
    .done (m.setFrames c (next.toList ++ fs))
  | .write j y next => .done ((m.setSlot j y).setFrames c (next.toList ++ fs))
  | .alloc j next =>
    -- `p->context.ra = (uint64)forkret`
    .done (((((m.setSlot j ((m.proc j).taken m.nextpid)).setNextpid (Ptable.succPid m.nextpid)).setStack j
      [.forkret j]).setStored j NREGS).setFrames c (next.toList ++ fs))
  | .reject j next =>
    .done (((m.setSlot j .freed).setNextpid (Ptable.succPid m.nextpid)).setFrames c (next.toList ++ fs))
  | .setCond l b next => .done ((m.setCond l b).setFrames c (next.toList ++ fs))
  | .sched p next => enterSwtch m c p (next.toList ++ fs)
  | .rest => .blocked
  | .panic e => .fail e

/-! ### Steps -/

def run (m : Machine) (c : Nat) (ok : Bool) : Outcome Panic Machine :=
  match (m.cpu c).mode with
  | .look j => do
    let m ← acquire m c (.proc j)
    .done (m.setMode c (.test j))
  | .test j => .done (m.setMode c (if (m.proc j).state = .RUNNABLE then .mark j else .drop j))
  | .mark j => .done ((m.setSlot j ((m.proc j).setState .RUNNING)).setMode c (.assign j))
  | .assign j => .done (m.setCpu c ⟨some j, .saveSched j 0, (m.cpu c).context⟩)
  | .saveSched j k =>
    if k < NREGS then .done (m.setMode c (.saveSched j (k + 1)))
    else .done (m.setCpu c ⟨(m.cpu c).proc, .loadProc j 0, j⟩)
  | .loadProc j k =>
    .done (m.setMode c (if k < NREGS then .loadProc j (k + 1) else .exec j))
  | .clear j => .done (m.setCpu c ⟨none, .drop j, (m.cpu c).context⟩)
  | .drop j => do
    let m ← release m c (.proc j)
    .done (m.setMode c (.look ((j + 1) % NPROC)))
  | .saveProc p k =>
    if k < NREGS then .done ((m.setStored p (k + 1)).setMode c (.saveProc p (k + 1)))
    else .done (m.setMode c (.loadSched p 0))
  | .loadSched p k =>
    .done (m.setMode c (if k < NREGS then .loadSched p (k + 1) else .clear (m.cpu c).context))
  | .exec _ | .irq .. =>
    match m.frames c with
    | [] => .blocked
    | top :: fs => perform m c fs (instr m c ok top)

inductive Call where
  | fork
  | exit (status : UInt32)
  | wait (addr : Nat)
  | kill (pid : Int)
  /-- Wait for condition `l`. -/
  | await (l : Nat)
  /-- Make condition `l` true. -/
  | signal (l : Nat)
deriving DecidableEq, Repr

/-- The first frame of a call that process `p` makes. -/
def Call.frame (p : Nat) : Call → Frame
  | .fork => .fork p (.acquire 0)
  | .exit status => .exit p status .lock
  | .wait addr => .wait p addr .lock
  | .kill pid => .kill pid 0 .acquire
  | .await l => .waiter l .acquire
  | .signal l => .waker l .acquire

inductive Act where
  /-- CPU `c` takes its next step; `ok` says what is left open. -/
  | run (c : Nat) (ok : Bool)
  /-- The process on CPU `c` makes a call. -/
  | call (c : Nat) (call : Call)
  /-- A timer interrupt on CPU `c`. -/
  | timer (c : Nat)
  /-- The interrupt of a device on CPU `c`, whose handler makes condition `l` true. -/
  | device (c l : Nat)
deriving DecidableEq, Repr

/-- A call; `kexit` begins with its test for the first process. -/
def startCall (m : Machine) (c : Nat) (call : Call) : Outcome Panic Machine :=
  match (m.cpu c).mode, m.frames c, (m.cpu c).proc with
  | .exec _, .user :: fs, some p =>
    match call with
    | .exit _ => if p = m.initproc then .fail .initExiting
      else .done (m.setFrames c (call.frame p :: .user :: fs))
    | _ => .done (m.setFrames c (call.frame p :: .user :: fs))
  | _, _, _ => .blocked

/-- `usertrap` or `kerneltrap` calls `yield` if there is a process. -/
def timer (m : Machine) (c : Nat) : Outcome Panic Machine :=
  match (m.cpu c).mode, (m.cpu c).proc with
  | .exec _, some p =>
    if m.noff c = 0 then .done (m.setFrames c (.yield p .acquire :: m.frames c)) else .blocked
  | _, _ => .blocked

/-- `devintr`, in a process or in `scheduler`. -/
def device (m : Machine) (c l : Nat) : Outcome Panic Machine :=
  match (m.cpu c).mode with
  | .exec _ =>
    if m.noff c = 0 then .done (m.setFrames c (.waker l .acquire :: m.frames c)) else .blocked
  | .look j => .done (m.setMode c (.irq j (.waker l .acquire)))
  | _ => .blocked

def step (m : Machine) : Act → Outcome Panic Machine
  | .run c ok => run m c ok
  | .call c call => startCall m c call
  | .timer c => timer m c
  | .device c l => device m c l

/-- After `userinit`: the first process is runnable, and every CPU enters `scheduler`. -/
def boot : Machine where
  proc := update (fun _ => .freed) 0 ((Slot.freed.taken 1).setState .RUNNABLE)
  stack := fun p => [.forkret p]
  stored := update (fun _ => 0) 0 NREGS
  lock := fun _ => none
  cpu := fun _ => ⟨none, .look 0, 0⟩
  cond := fun _ => false
  nextpid := 2
  initproc := 0

/-- The machines that runs reach. -/
def Reach : Machine → Prop := Reachable boot step fun _ _ => True

end Xv6.Sched
