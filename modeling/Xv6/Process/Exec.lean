import Xv6.Process.Kernel

/-!
# The exec system call

`kernel/exec.c`, and the callers of `namei` in `proc.c` and `sysproc.c`.  The header and the
program headers are read from the file as bytes; none of their fields is trusted.
-/

namespace Xv6.Process

open ByteView Hoare Vm Fs

def MAXARG : Nat := 32

def USERSTACK : Nat := 1

/-! ### Headers -/

def ELF_MAGIC : Nat := 0x464C457F

def ELF_PROG_LOAD : Nat := 1

def ELFHDRSIZE : Nat := 64

def PROGHDRSIZE : Nat := 56

/-- A field of `n` bytes in the bytes of a header. -/
def field (hdr : List UInt8) (o n : Nat) : Nat := getLE (fun k => hdr.getD k 0) o n

/-- The fields of `struct elfhdr` that `kexec` reads. -/
structure Elfhdr where
  magic : Nat
  entry : Nat
  phoff : Nat
  phnum : Nat

def getElfhdr (hdr : List UInt8) : Elfhdr where
  magic := field hdr 0 4
  entry := field hdr 24 8
  phoff := field hdr 32 8
  phnum := field hdr 56 2

/-- The fields of `struct proghdr` that `kexec` reads. -/
structure Proghdr where
  type : Nat
  flags : Nat
  off : Nat
  vaddr : Nat
  filesz : Nat
  memsz : Nat

def getProghdr (hdr : List UInt8) : Proghdr where
  type := field hdr 0 4
  flags := field hdr 4 4
  off := field hdr 8 8
  vaddr := field hdr 16 8
  filesz := field hdr 32 8
  memsz := field hdr 40 8

/-- Map ELF permissions to PTE permission bits. -/
def flags2perm (flags : Nat) : Nat :=
  (if flags &&& 1 ≠ 0 then PTE_X else 0) ||| (if flags &&& 2 ≠ 0 then PTE_W else 0)

/-! ### `kexec` -/

section Functions

variable (img : Image) (sb : Superblock)

structure LoadVars where
  i : UInt32
  failed : Bool

def loadBody (pagetable va ip : Nat) (offset sz : UInt32) (v : LoadVars) : KM (LoadVars × Bool) :=
  if v.i < sz then do
    let pa ← vm (walkaddr pagetable (u64 (va + v.i.toNat)))
    if pa = 0 then fail .loadsegAddress
    else
      let n := if sz - v.i < UInt32.ofNat PGSIZE then sz - v.i else UInt32.ofNat PGSIZE
      let (r, data) ← fs (readi sb ip (fun _ => false) (offset + v.i) n)
      vm (modify fun m => m.setPage pa (splice (m.page pa) 0 data.length fun k => data.getD k 0))
      if r ≠ n.toNat then return ({ v with failed := true }, false)
      else return ({ v with i := v.i + UInt32.ofNat PGSIZE }, true)
  else return (v, false)

/-- Load an ELF program segment into `pagetable` at virtual address `va`.  Returns 0 on
    success, -1 on failure. -/
def loadseg (pagetable va ip : Nat) (offset sz : UInt32) : KM Int := do
  let v ← loop (loadBody sb pagetable va ip offset sz) (sz.toNat / PGSIZE + 2) ⟨0, false⟩
  return if v.failed then -1 else 0

structure PhVars where
  i : Nat
  off : UInt32
  sz : Nat
  failed : Bool

def phBody (pagetable ip phnum : Nat) (v : PhVars) : KM (PhVars × Bool) :=
  if v.i < phnum then do
    let bad : PhVars := { v with failed := true }
    let next : PhVars := { v with i := v.i + 1, off := v.off + UInt32.ofNat PROGHDRSIZE }
    let (n, hdr) ← fs (readi sb ip (fun _ => false) v.off (UInt32.ofNat PROGHDRSIZE))
    if n ≠ PROGHDRSIZE then return (bad, false)
    else
      let ph := getProghdr hdr
      if ph.type ≠ ELF_PROG_LOAD then return (next, true)
      else if ph.memsz < ph.filesz then return (bad, false)
      else if u64 (ph.vaddr + ph.memsz) < ph.vaddr then return (bad, false)
      else if ph.vaddr % PGSIZE ≠ 0 then return (bad, false)
      else
        let sz1 ← vm (uvmalloc img pagetable v.sz (u64 (ph.vaddr + ph.memsz)) (flags2perm ph.flags))
        if sz1 = 0 then return (bad, false)
        else
          let r ← loadseg sb pagetable ph.vaddr ip (UInt32.ofNat ph.off) (UInt32.ofNat ph.filesz)
          if r < 0 then return ({ bad with sz := sz1 }, false)
          else return ({ next with sz := sz1 }, true)
  else return (v, false)

/-- The label `bad`. -/
def execBad (pagetable sz : Nat) (ip : Option Nat) : KM Int := do
  when (pagetable ≠ 0) (vm (procFreepagetable img pagetable sz))
  match ip with
  | none => return -1
  | some ip =>
    fs (iunlockput sb ip)
    fs endOp
    return -1

/-- `a - b` of two uint64. -/
def u64sub (a b : Nat) : Nat := u64 (a + 2 ^ 64 - b)

/-- `sp -= n; sp -= sp % 16`: riscv sp must be 16-byte aligned. -/
def pushDown (sp n : Nat) : Nat := u64sub sp n - u64sub sp n % 16

/-- Copy one argument string into the new stack; the result is the stack pointer, or none at a
    failure. -/
def pushArg (pagetable stackbase sp : Nat) (arg : List UInt8) : KM (Option Nat) := do
  let sp := pushDown sp (arg.length + 1)
  if sp < stackbase then return none
  else
    let r ← vm (copyout pagetable sp (fun k => arg.getD k 0) (arg.length + 1))
    return if r < 0 then none else some sp

/-- `for (argc = 0; argv[argc]; argc++)`: the stack pointer at the end, with the addresses of
    the strings. -/
def pushEach (push : Nat → List UInt8 → KM (Option Nat)) : List (List UInt8) → Nat → List Nat →
    KM (Option (Nat × List Nat))
  | [], sp, ustack => return some (sp, ustack)
  | arg :: argv, sp, ustack => do
    match ← push sp arg with
    | none => return none
    | some sp => pushEach push argv sp (ustack ++ [sp])

/-- Copy argument strings into the new stack, remember their addresses in `ustack`. -/
def pushArgs (pagetable stackbase sp : Nat) (argv : List (List UInt8)) :
    KM (Option (Nat × List Nat)) :=
  pushEach (pushArg pagetable stackbase) argv sp []

def u64Bytes (xs : List Nat) : Bytes := fun k => putLE (fun _ => 0) 0 8 (xs.getD (k / 8) 0) (k % 8)

/-- Push a copy of `ustack[]`, the array of `argv[]` pointers. -/
def pushUstack (pagetable stackbase sp : Nat) (ustack : List Nat) : KM (Option Nat) := do
  let sp := pushDown sp (ustack.length * 8)
  if sp < stackbase then return none
  else
    let r ← vm (copyout pagetable sp (u64Bytes ustack) (ustack.length * 8))
    return if r < 0 then none else some sp

/-- The argument strings and their addresses, with the 0 after the last. -/
def pushStack (pagetable stackbase sp : Nat) (argv : List (List UInt8)) : KM (Option Nat) := do
  match ← pushArgs pagetable stackbase sp argv with
  | none => return none
  | some (sp, ustack) => pushUstack pagetable stackbase sp (ustack ++ [0])

/-- `safestrcpy(p->name, last, sizeof(p->name))`, for the last element of a path. -/
def progName (path : List UInt8) : Name :=
  fun k => if k < 15 then ((path.reverse.takeWhile (· != slash)).reverse).getD k 0 else 0

/-- Commit to the user image. -/
def execCommit (p : Nat) (path : List UInt8) (elf : Elfhdr) (pagetable sz sp : Nat) : KM Unit := do
  setTrapframe p A1 sp
  setProc p fun x => x.setName (progName path)
  let old := (← get).proc p
  setProc p fun x => (x.setPagetable pagetable).setSz sz
  setTrapframe p EPC elf.entry
  setTrapframe p SP sp
  vm (procFreepagetable img old.pagetable old.sz)

/-- The part of `kexec` that follows the loading of the program. -/
def execStack (p : Nat) (path : List UInt8) (argv : List (List UInt8)) (elf : Elfhdr)
    (pagetable sz : Nat) : KM Int := do
  -- allocate some pages at the next page boundary; make the first inaccessible as a stack guard
  let sz := PGROUNDUP sz
  let sz1 ← vm (uvmalloc img pagetable sz (u64 (sz + (USERSTACK + 1) * PGSIZE)) PTE_W)
  if sz1 = 0 then execBad img sb pagetable sz none
  else
    vm (uvmclear pagetable (u64sub sz1 ((USERSTACK + 1) * PGSIZE)))
    match ← pushStack pagetable (u64sub sz1 (USERSTACK * PGSIZE)) sz1 argv with
    | none => execBad img sb pagetable sz1 none
    | some sp =>
      execCommit img p path elf pagetable sz1 sp
      -- this ends up in a0, the first argument to main(argc, argv)
      return argv.length

/-- The implementation of the exec() system call, for process `p`. -/
def kexec (p : Nat) (path : List UInt8) (argv : List (List UInt8)) : KM Int := do
  fs beginOp
  let x := (← get).proc p
  match ← fs (namei sb x.cwd path) with
  | none =>
    fs endOp
    return -1
  | some ip =>
    fs (ilock sb ip)
    -- read the ELF header
    let (n, hdr) ← fs (readi sb ip (fun _ => false) 0 (UInt32.ofNat ELFHDRSIZE))
    if n ≠ ELFHDRSIZE then execBad img sb 0 0 (some ip)
    else
      let elf := getElfhdr hdr
      if elf.magic ≠ ELF_MAGIC then execBad img sb 0 0 (some ip)
      else
        match ← vm (procPagetable img x.trapframe) with
        | none => execBad img sb 0 0 (some ip)
        | some pagetable =>
          let v ← loop (phBody img sb pagetable ip elf.phnum) (elf.phnum + 1)
            ⟨0, UInt32.ofNat elf.phoff, 0, false⟩
          if v.failed then execBad img sb pagetable v.sz (some ip)
          else
            fs (iunlockput sb ip)
            fs endOp
            execStack img sb p path argv elf pagetable v.sz

/-! ### Callers -/

def initPath : List UInt8 := [105, 110, 105, 116]

/-- A new process returns to user space; the first one sets the file system in use and execs
    `init`. -/
def forkret (p : Nat) : KM Unit := do
  when ((← get).first) do
    let x := (← get).proc p
    let cwd ← fs (namei sb x.cwd [slash])
    setProc p fun x => x.setCwd cwd
    let r ← kexec img sb p initPath [initPath]
    if r < 0 then fail .forkretExecInit else modify fun k => { k with first := false }

/-- `sys_chdir`, with the path fetched from the user. -/
def chdir (p : Nat) (path : List UInt8) : KM Int := do
  let x := (← get).proc p
  match ← fs (namei sb x.cwd path) with
  | none => return -1
  | some ip =>
    fs beginOp
    match x.cwd with
    | none => fail .nullPointer
    | some cwd =>
      fs (iput sb cwd)
      setProc p fun x => x.setCwd (some ip)
      fs endOp
      return 0

end Functions

/-- The first two newlines in a block that follow each other. -/
def emptyLine (c : Block) : Option Nat :=
  (List.range (BSIZE - 1)).find? fun i => decide (c i = 10 ∧ c (i + 1) = 10)

/-- What `blocktest` makes of a block: it ends in a NUL, and is clear from the first empty line
    on. -/
def blankTail (blk : Block) : Block :=
  let c := Function.update blk (BSIZE - 1) 0
  match emptyLine c with
  | some i => fun k => if i ≤ k ∧ k < BSIZE then 0 else c k
  | none => c

/-- `blocktest`, which `sys_write` calls for descriptor 3; `bwrite` bypasses the log.  What it
    prints is left out. -/
def blocktest : FsM Unit := do
  let _ ← bread 1
  let b ← bread 47
  modify fun s => { s with disk := Function.update s.disk 47 (blankTail b) }

end Xv6.Process
