import Xv6.Vm.Pte
import Xv6.Lib.Hoare

/-!
# Physical pages and page tables

`kernel/kalloc.c`, `kernel/vm.c` and the page table functions of `kernel/proc.c`.  A
physical page is named by its address, and a pointer to a page table entry is the page of
the table with the index of the entry.

`kalloc` may find no page at any call, whatever the free list holds: `outOfMemory` lists
these calls.
-/

namespace Xv6.Vm

open ByteView Hoare

/-- What `kernel.ld` fixes. -/
structure Image where
  /-- `end`: first address after kernel. -/
  kend : Nat
  /-- `trampoline`: a page of the kernel text. -/
  trampoline : Nat
  trampoline_aligned : trampoline % PGSIZE = 0
  kernbase_le : KERNBASE ≤ trampoline
  trampoline_lt : trampoline + PGSIZE ≤ kend
  kend_le : kend ≤ PHYSTOP

theorem KERNBASE_aligned : KERNBASE % PGSIZE = 0 := by decide

inductive Panic where
  /-- `"kfree"` -/
  | kfree
  /-- `"walk"` -/
  | walk
  /-- `"mappages: va not aligned"` -/
  | mappagesVaNotAligned
  /-- `"mappages: size not aligned"` -/
  | mappagesSizeNotAligned
  /-- `"mappages: size"` -/
  | mappagesSize
  /-- `"mappages: remap"` -/
  | mappagesRemap
  /-- `"uvmfirst"` -/
  | uvmfirst
  /-- `"uvmfirst: kalloc"` -/
  | uvmfirstKalloc
  /-- `"uvmfirst: mappages"` -/
  | uvmfirstMappages
  /-- `"uvmunmap: not aligned"` -/
  | uvmunmapNotAligned
  /-- `"freewalk: leaf"` -/
  | freewalkLeaf
  /-- `"uvmclear"` -/
  | uvmclear
  /-- Not a panic of the source: a null pointer is followed. -/
  | nullPointer
  /-- Not a panic of the source: `freewalk` goes deeper than a page table has levels. -/
  | tooDeep
deriving DecidableEq, Repr

structure Mem where
  /-- The contents of the page at a physical address. -/
  page : Nat → Bytes
  /-- `kmem.freelist`, from its head on. -/
  freelist : List Nat
  /-- The calls of `kalloc` that find no page. -/
  outOfMemory : Nat → Bool
  /-- The number of calls of `kalloc` so far. -/
  kallocs : Nat

abbrev VmM (α : Type) := Prog Panic Mem α

def Mem.setPage (m : Mem) (pa : Nat) (v : Bytes) : Mem :=
  { m with page := Function.update m.page pa v }

def Mem.pte (m : Mem) (pagetable i : Nat) : Nat := getLE (m.page pagetable) (8 * i) 8

def Mem.setPte (m : Mem) (pagetable i v : Nat) : Mem :=
  m.setPage pagetable (putLE (m.page pagetable) (8 * i) 8 v)

/-- `memmove(dst + o, src, n)` within a page. -/
def splice (dst : Bytes) (o n : Nat) (src : Nat → UInt8) : Bytes :=
  fun i => if o ≤ i ∧ i < o + n then src (i - o) else dst i

def memset (pa : Nat) (c : UInt8) : VmM Unit := modify fun m => m.setPage pa fun _ => c

def loadPte (pagetable i : Nat) : VmM Nat := do
  return (← get).pte pagetable i

def storePte (pagetable i v : Nat) : VmM Unit := modify fun m => m.setPte pagetable i v

/-! ### `kalloc.c` -/

/-- Allocate one page of physical memory. -/
def kalloc : VmM (Option Nat) := do
  let m ← get
  modify fun m => { m with kallocs := m.kallocs + 1 }
  if m.outOfMemory m.kallocs then return none
  else match m.freelist with
    | [] => return none
    | r :: next =>
      modify fun m => { m with freelist := next }
      -- fill with junk
      memset r 5
      return some r

section Functions

variable (img : Image)

/-- Free the page of physical memory at `pa`. -/
def kfree (pa : Nat) : VmM Unit :=
  if pa % PGSIZE ≠ 0 ∨ pa < img.kend ∨ pa ≥ PHYSTOP then fail .kfree
  else do
    -- fill with junk to catch dangling refs
    memset pa 1
    modify fun m => { m.setPage pa (putLE (m.page pa) 0 8 (m.freelist.headD 0)) with
      freelist := pa :: m.freelist }

/-! ### `vm.c` -/

/-- The loop of `walk`, at a table of a level. -/
def walkFrom (va : Nat) (alloc : Bool) : Nat → Nat → VmM (Option (Nat × Nat))
  | 0, pagetable => return some (pagetable, PX 0 va)
  | level + 1, pagetable => do
    let pte ← loadPte pagetable (PX (level + 1) va)
    if pte &&& PTE_V ≠ 0 then walkFrom va alloc level (PTE2PA pte)
    else if alloc = false then return none
    else match ← kalloc with
      | none => return none
      | some page =>
        memset page 0
        storePte pagetable (PX (level + 1) va) (PA2PTE page ||| PTE_V)
        walkFrom va alloc level page

/-- Return the PTE for `va`.  Allocate intermediate page-table pages if requested. -/
def walk (pagetable va : Nat) (alloc : Bool) : VmM (Option (Nat × Nat)) :=
  if va ≥ MAXVA then fail .walk else walkFrom va alloc 2 pagetable

/-- Look up a user virtual address and return its physical-page base. -/
def walkaddr (pagetable va : Nat) : VmM Nat :=
  if va ≥ MAXVA then return 0
  else do
    match ← walk pagetable va false with
    | none => return 0
    | some (pt, i) =>
      let pte ← loadPte pt i
      if pte &&& PTE_V = 0 ∨ pte &&& PTE_U = 0 then return 0 else return PTE2PA pte

structure MapVars where
  a : Nat
  pa : Nat
  failed : Bool

def mapBody (pagetable last perm : Nat) (v : MapVars) : VmM (MapVars × Bool) := do
  match ← walk pagetable v.a true with
  | none => return ({ v with failed := true }, false)
  | some (pt, i) =>
    let pte ← loadPte pt i
    if pte &&& PTE_V ≠ 0 then fail .mappagesRemap
    else
      storePte pt i (PA2PTE v.pa ||| perm ||| PTE_V)
      if v.a = last then return (v, false)
      else return ({ v with a := u64 (v.a + PGSIZE), pa := u64 (v.pa + PGSIZE) }, true)

/-- Install leaf PTEs for a page-aligned virtual-address range. -/
def mappages (pagetable va size pa perm : Nat) : VmM Int :=
  if va % PGSIZE ≠ 0 then fail .mappagesVaNotAligned
  else if size % PGSIZE ≠ 0 then fail .mappagesSizeNotAligned
  else if size = 0 then fail .mappagesSize
  else do
    let v ← loop (mapBody pagetable (u64 (va + size - PGSIZE)) perm) (size / PGSIZE) ⟨va, pa, false⟩
    return if v.failed then -1 else 0

/-- Create an empty user page table. -/
def uvmcreate : VmM (Option Nat) := do
  match ← kalloc with
  | none => return none
  | some pagetable =>
    memset pagetable 0
    return some pagetable

/-- Allocate and map the first user code page at virtual address zero. -/
def uvmfirst (pagetable : Nat) (src : Nat → UInt8) (sz : Nat) : VmM Unit :=
  if sz > PGSIZE then fail .uvmfirst
  else do
    match ← kalloc with
    | none => fail .uvmfirstKalloc
    | some mem =>
      memset mem 0
      modify fun m => m.setPage mem (splice (m.page mem) 0 sz src)
      let r ← mappages pagetable 0 PGSIZE mem (PTE_R ||| PTE_W ||| PTE_X ||| PTE_U)
      if r ≠ 0 then fail .uvmfirstMappages else return ()

/-- One page of `uvmunmap`. -/
def unmapPage (pagetable a : Nat) (doFree : Bool) : VmM Unit := do
  match ← walk pagetable a false with
  | none => return ()
  | some (pt, i) =>
    let pte ← loadPte pt i
    if pte &&& PTE_V = 0 then return ()
    else
      if doFree then kfree img (PTE2PA pte)
      storePte pt i 0

def unmapBody (pagetable last : Nat) (doFree : Bool) (a : Nat) : VmM (Nat × Bool) :=
  if a < last then do
    unmapPage img pagetable a doFree
    return (u64 (a + PGSIZE), true)
  else return (a, false)

/-- Remove user mappings beginning at page-aligned `va`. -/
def uvmunmap (pagetable va npages : Nat) (doFree : Bool) : VmM Unit :=
  if va % PGSIZE ≠ 0 then fail .uvmunmapNotAligned
  else do
    let _ ← loop (unmapBody img pagetable (u64 (va + u64 (npages * PGSIZE))) doFree) (npages + 1) va

structure AllocVars where
  a : Nat
  failed : Bool

def allocBody (pagetable newsz xperm : Nat) (v : AllocVars) : VmM (AllocVars × Bool) :=
  if v.a < newsz then do
    match ← kalloc with
    | none => return ({ v with failed := true }, false)
    | some mem =>
      memset mem 0
      let r ← mappages pagetable v.a PGSIZE mem (PTE_R ||| PTE_U ||| xperm)
      if r ≠ 0 then
        kfree img mem
        return ({ v with failed := true }, false)
      else return ({ v with a := u64 (v.a + PGSIZE) }, true)
  else return (v, false)

/-- Eagerly allocate user pages in `[oldsz, newsz)`.  Returns 0 if there is no memory. -/
def uvmalloc (pagetable oldsz newsz xperm : Nat) : VmM Nat :=
  if newsz < oldsz then return oldsz
  else do
    let v ← loop (allocBody img pagetable newsz xperm) (newsz / PGSIZE + 2) ⟨PGROUNDUP oldsz, false⟩
    if v.failed then
      uvmunmap img pagetable (PGROUNDUP oldsz) (u64 (v.a + 2 ^ 64 - PGROUNDUP oldsz) / PGSIZE) true
      return 0
    else return newsz

/-- Deallocate pages no longer covered by a shrunken user heap. -/
def uvmdealloc (pagetable oldsz newsz : Nat) : VmM Nat :=
  if newsz ≥ oldsz then return oldsz
  else do
    if PGROUNDUP newsz < PGROUNDUP oldsz then
      uvmunmap img pagetable (PGROUNDUP newsz) ((PGROUNDUP oldsz - PGROUNDUP newsz) / PGSIZE) true
    return newsz

/-- The variables of the loop in `copyout`: `src` has advanced by `done`. -/
structure CopyVars where
  dstva : Nat
  done : Nat
  len : Nat
  failed : Bool

def copyoutBody (pagetable : Nat) (src : Nat → UInt8) (v : CopyVars) : VmM (CopyVars × Bool) :=
  if v.len > 0 then do
    let va0 := PGROUNDDOWN v.dstva
    let pa0 ← walkaddr pagetable va0
    if pa0 = 0 then return ({ v with failed := true }, false)
    else
      match ← walk pagetable va0 false with
      | none => fail .nullPointer
      | some (pt, i) =>
        let pte ← loadPte pt i
        if pte &&& PTE_W = 0 then return ({ v with failed := true }, false)
        else
          let n := min (PGSIZE - (v.dstva - va0)) v.len
          modify fun m => m.setPage pa0
            (splice (m.page pa0) (v.dstva - va0) n fun k => src (v.done + k))
          return (⟨u64 (va0 + PGSIZE), v.done + n, v.len - n, false⟩, true)
  else return (v, false)

/-- Copy kernel data into user virtual memory. -/
def copyout (pagetable dstva : Nat) (src : Nat → UInt8) (len : Nat) : VmM Int := do
  let v ← loop (copyoutBody pagetable src) (len + 1) ⟨dstva, 0, len, false⟩
  return if v.failed then -1 else 0

/-- Recursively release page-table pages after all leaf mappings are gone.  The first
    argument bounds the depth. -/
def freewalk : Nat → Nat → VmM Unit
  | 0, _ => fail .tooDeep
  | depth + 1, pagetable => do
    forRange (fun i => do
      let pte ← loadPte pagetable i
      if pte &&& PTE_V ≠ 0 ∧ pte &&& (PTE_R ||| PTE_W ||| PTE_X) = 0 then
        freewalk depth (PTE2PA pte)
        storePte pagetable i 0
      else if pte &&& PTE_V ≠ 0 then fail .freewalkLeaf
      else return ()) 0 512
    kfree img pagetable

def uvmfree (pagetable sz : Nat) : VmM Unit := do
  if sz > 0 then uvmunmap img pagetable 0 (PGROUNDUP sz / PGSIZE) true
  freewalk img 3 pagetable

def uvmclear (pagetable va : Nat) : VmM Unit := do
  match ← walk pagetable va false with
  | none => fail .uvmclear
  | some (pt, i) =>
    let pte ← loadPte pt i
    -- `*pte &= ~PTE_U`
    storePte pt i (pte &&& (2 ^ 64 - 1 - PTE_U))

def copyBody (old new sz : Nat) (v : AllocVars) : VmM (AllocVars × Bool) :=
  if v.a < sz then do
    let next : AllocVars := { v with a := u64 (v.a + PGSIZE) }
    match ← walk old v.a false with
    | none => return (next, true)
    | some (pt, i) =>
      let pte ← loadPte pt i
      if pte &&& PTE_V = 0 then return (next, true)
      else
        match ← kalloc with
        | none => return ({ v with failed := true }, false)
        | some mem =>
          modify fun m => m.setPage mem (m.page (PTE2PA pte))
          let r ← mappages new v.a PGSIZE mem (PTE_FLAGS pte)
          if r ≠ 0 then
            kfree img mem
            return ({ v with failed := true }, false)
          else return (next, true)
  else return (v, false)

/-- Copy a parent's ordinary user mappings into a child's page table. -/
def uvmcopy (old new sz : Nat) : VmM Int := do
  let v ← loop (copyBody img old new sz) (sz / PGSIZE + 2) ⟨0, false⟩
  if v.failed then
    uvmunmap img new 0 (v.a / PGSIZE) true
    return -1
  else return 0

/-! ### `proc.c` -/

/-- Create a user page table for a process with a given trapframe, with no user memory, but
    with trampoline and trapframe pages. -/
def procPagetable (trapframe : Nat) : VmM (Option Nat) := do
  match ← uvmcreate with
  | none => return none
  | some pagetable =>
    let r ← mappages pagetable TRAMPOLINE PGSIZE img.trampoline (PTE_R ||| PTE_X)
    if r ≠ 0 then
      uvmfree img pagetable 0
      return none
    else
      let r ← mappages pagetable TRAPFRAME PGSIZE trapframe (PTE_R ||| PTE_W)
      if r ≠ 0 then
        uvmunmap img pagetable TRAMPOLINE 1 false
        uvmfree img pagetable 0
        return none
      else return some pagetable

/-- Free a process's page table, and free the physical memory it refers to. -/
def procFreepagetable (pagetable sz : Nat) : VmM Unit := do
  uvmunmap img pagetable TRAMPOLINE 1 false
  uvmunmap img pagetable TRAPFRAME 1 false
  uvmfree img pagetable sz

end Functions

end Xv6.Vm
