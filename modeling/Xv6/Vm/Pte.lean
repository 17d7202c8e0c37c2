import Xv6.Param
import Mathlib.Data.Nat.Bitwise

/-!
# Addresses and page table entries

The macros of `kernel/riscv.h` and `kernel/memlayout.h`.  Addresses are numbers below
2^64; where the C code can overflow, the result is taken modulo 2^64.  A virtual page
number selects one entry at each of the three levels of a page table.
-/

namespace Xv6.Vm

/-- The value of a `uint64` computation. -/
def u64 (n : Nat) : Nat := n % 2 ^ 64

theorem u64_of_lt {n : Nat} (h : n < 2 ^ 64) : u64 n = n := Nat.mod_eq_of_lt h

def PGSIZE : Nat := 4096

def MAXVA : Nat := 2 ^ 38

def TRAMPOLINE : Nat := MAXVA - PGSIZE

def TRAPFRAME : Nat := TRAMPOLINE - PGSIZE

def KERNBASE : Nat := 0x80000000

def PHYSTOP : Nat := KERNBASE + 128 * 1024 * 1024

/-- `(sz + PGSIZE - 1) & ~(PGSIZE - 1)` -/
def PGROUNDUP (sz : Nat) : Nat := u64 (sz + PGSIZE - 1) / PGSIZE * PGSIZE

/-- `a & ~(PGSIZE - 1)` -/
def PGROUNDDOWN (a : Nat) : Nat := a / PGSIZE * PGSIZE

def PTE_V : Nat := 1
def PTE_R : Nat := 2
def PTE_W : Nat := 4
def PTE_X : Nat := 8
def PTE_U : Nat := 16

def PA2PTE (pa : Nat) : Nat := (pa >>> 12) <<< 10

def PTE2PA (pte : Nat) : Nat := u64 ((pte >>> 10) <<< 12)

def PTE_FLAGS (pte : Nat) : Nat := pte &&& 0x3FF

/-- The index of `va` in the tables of a level. -/
def PX (level va : Nat) : Nat := (va >>> (12 + 9 * level)) &&& 0x1FF

/-! ### Entries -/

section Entries

variable {pa perm f : Nat}

theorem shiftLeft_and_of_lt (x : Nat) (hf : f < 2 ^ 10) : (x <<< 10) &&& f = 0 := by
  refine Nat.eq_of_testBit_eq fun j => ?_
  rw [Nat.testBit_and, Nat.testBit_shiftLeft, Nat.zero_testBit]
  by_cases hj : j ≥ 10
  · have hbit : f.testBit j = false := Nat.testBit_lt_two_pow (Nat.lt_of_lt_of_le hf
      (Nat.pow_le_pow_right (by decide) hj))
    rw [hbit, Bool.and_false]
  · simp [hj]

theorem entry_and (hf : f < 2 ^ 10) :
    (PA2PTE pa ||| perm ||| PTE_V) &&& f = (perm ||| PTE_V) &&& f := by
  rw [Nat.or_assoc, Nat.and_or_distrib_right, PA2PTE, shiftLeft_and_of_lt _ hf, Nat.zero_or]

theorem entry_valid : (PA2PTE pa ||| perm ||| PTE_V) &&& PTE_V ≠ 0 := by
  rw [entry_and (by decide), Nat.and_or_distrib_right]
  intro h
  have h1 := congrArg (fun n => n.testBit 0) h
  simp [PTE_V] at h1

theorem entry_flags (hperm : perm < 2 ^ 10) :
    PTE_FLAGS (PA2PTE pa ||| perm ||| PTE_V) = perm ||| PTE_V := by
  have hlt : perm ||| PTE_V < 2 ^ 10 := Nat.or_lt_two_pow hperm (by decide)
  rw [PTE_FLAGS, entry_and (by decide)]
  exact (Nat.and_two_pow_sub_one_eq_mod _ 10).trans (Nat.mod_eq_of_lt hlt)

theorem PTE2PA_entry (haligned : pa % PGSIZE = 0) (hpa : pa < 2 ^ 56) (hperm : perm < 2 ^ 10) :
    PTE2PA (PA2PTE pa ||| perm ||| PTE_V) = pa := by
  have hlt : perm ||| PTE_V < 2 ^ 10 := Nat.or_lt_two_pow hperm (by decide)
  have hflags : (perm ||| PTE_V) >>> 10 = 0 := by
    rw [Nat.shiftRight_eq_div_pow]
    exact Nat.div_eq_of_lt hlt
  have hpage : pa / 4096 * 4096 = pa := Nat.div_mul_cancel (Nat.dvd_of_mod_eq_zero haligned)
  rw [PTE2PA, Nat.or_assoc, Nat.shiftRight_or_distrib, hflags, Nat.or_zero, PA2PTE,
    Nat.shiftLeft_shiftRight, Nat.shiftLeft_eq, Nat.shiftRight_eq_div_pow]
  show u64 (pa / 4096 * 4096) = pa
  rw [hpage]
  exact u64_of_lt (by omega)

theorem entry_lt (hpa : pa < 2 ^ 56) (hperm : perm < 2 ^ 10) :
    PA2PTE pa ||| perm ||| PTE_V < 2 ^ 64 := by
  refine Nat.or_lt_two_pow (Nat.or_lt_two_pow ?_ (by omega)) (by decide)
  rw [PA2PTE, Nat.shiftLeft_eq, Nat.shiftRight_eq_div_pow]
  omega

end Entries

/-! ### Indices -/

/-- The index of virtual page `v` in the tables of a level. -/
def ix (level v : Nat) : Fin 512 := ⟨v / 512 ^ level % 512, Nat.mod_lt _ (by decide)⟩

theorem PX_eq_ix (level va : Nat) : PX level va = ix level (va / PGSIZE) := by
  show (va >>> (12 + 9 * level)) &&& 0x1FF = va / 4096 / 512 ^ level % 512
  rw [Nat.shiftRight_eq_div_pow, Nat.pow_add, Nat.pow_mul, ← Nat.div_div_eq_div_mul]
  exact Nat.and_two_pow_sub_one_eq_mod _ 9

theorem ix_inj {v w : Nat} (hv : v < 2 ^ 27) (hw : w < 2 ^ 27) (h0 : ix 0 v = ix 0 w)
    (h1 : ix 1 v = ix 1 w) (h2 : ix 2 v = ix 2 w) : v = w := by
  simp only [ix, Fin.mk.injEq] at h0 h1 h2
  omega

end Xv6.Vm
