import Xv6.Lib.Move

/-!
# `memmove`, twice

`kernel/string.c` copies downwards if the destination begins within the source, and upwards
otherwise.  `user/ulib.c` copies upwards if the source lies above the destination, and downwards
otherwise.  Both tests keep the loops from writing a byte before it is read.
-/

namespace Xv6.Library

/-- Pointers have 64 bits and wrap around. -/
abbrev Addr := BitVec 64

abbrev Mem := Addr → UInt8

/-- `memmove` of `kernel/string.c`, with a `uint` for `n`. -/
def Kernel.memmove (dst src : Addr) (n : BitVec 32) (mem : Mem) : Addr × Mem :=
  if n = 0 then (dst, mem)
  else
    let len := n.setWidth 64
    if src < dst ∧ dst < src + len then (dst, Move.down n.toNat (dst + len) (src + len) mem)
    else (dst, Move.up n.toNat dst src mem)

/-- `memmove` of `user/ulib.c`, with an `int` for `n`: `while(n-- > 0)` makes no round for a
    negative one. -/
def User.memmove (vdst vsrc : Addr) (n : BitVec 32) (mem : Mem) : Addr × Mem :=
  if vdst < vsrc then (vdst, Move.up n.toInt.toNat vdst vsrc mem)
  else
    let len := n.signExtend 64
    (vdst, Move.down n.toInt.toNat (vdst + len) (vsrc + len) mem)

section

variable {dst src : Addr} {n : Nat}

theorem Kernel.memmove_eq (hn : n < 2 ^ 31) (hdst : dst.toNat + n ≤ 2 ^ 64)
    (hsrc : src.toNat + n ≤ 2 ^ 64) (mem : Mem) :
    Kernel.memmove dst src (BitVec.ofNat 32 n) mem = (dst, Move.moved n dst src mem) := by
  have hlen : (BitVec.ofNat 32 n).toNat = n := by
    rw [BitVec.toNat_ofNat]
    omega
  have hwide : (BitVec.ofNat 32 n).setWidth 64 = BitVec.ofNat 64 n := by bv_omega
  unfold Kernel.memmove
  rw [hwide, hlen]
  dsimp only
  split
  · rename_i hzero
    have hn0 : n = 0 := by bv_omega
    rw [hn0]
    rfl
  split
  · rw [Move.down_eq_moved (by omega) (by bv_omega)]
  · rw [Move.up_eq_moved (by omega) (by bv_omega)]

theorem User.memmove_eq (hn : n < 2 ^ 31) (hdst : dst.toNat + n ≤ 2 ^ 64)
    (hsrc : src.toNat + n ≤ 2 ^ 64) (mem : Mem) :
    User.memmove dst src (BitVec.ofNat 32 n) mem = (dst, Move.moved n dst src mem) := by
  have hlen : (BitVec.ofNat 32 n).toInt.toNat = n := by
    rw [BitVec.toInt_eq_toNat_of_lt] <;> rw [BitVec.toNat_ofNat] <;> omega
  have hwide : (BitVec.ofNat 32 n).signExtend 64 = BitVec.ofNat 64 n := by
    have hmsb : (BitVec.ofNat 32 n).msb = false := by
      rw [BitVec.msb_eq_false_iff_two_mul_lt, BitVec.toNat_ofNat]
      omega
    rw [BitVec.signExtend_eq_setWidth_of_msb_false hmsb]
    bv_omega
  unfold User.memmove
  rw [hwide, hlen]
  dsimp only
  split
  · rw [Move.up_eq_moved (by omega) (by bv_omega)]
  · rw [Move.down_eq_moved (by omega) (by bv_omega)]

theorem moved_at (hn : n ≤ 2 ^ 64) (mem : Mem) {i : Nat} (hi : i < n) :
    Move.moved n dst src mem (dst + BitVec.ofNat 64 i) = mem (src + BitVec.ofNat 64 i) := by
  have hoff : dst + BitVec.ofNat 64 i - dst = BitVec.ofNat 64 i := by bv_omega
  have hlt : (BitVec.ofNat 64 i).toNat < n := by
    rw [BitVec.toNat_ofNat, Nat.mod_eq_of_lt (by omega)]
    exact hi
  rw [Move.moved, hoff, if_pos hlt]

theorem moved_outside (hdst : dst.toNat + n ≤ 2 ^ 64) (mem : Mem) {a : Addr}
    (ha : a.toNat < dst.toNat ∨ dst.toNat + n ≤ a.toNat) : Move.moved n dst src mem a = mem a :=
  if_neg (by bv_omega)

/-- **`memmove` moves**, in the kernel and in the user library, however source and destination
    overlap: afterwards the destination holds what the source held before, and nothing else has
    changed. -/
theorem memmove_any_overlap (mem : Mem) (dst src : Addr) (n : Nat) (hn : n < 2 ^ 31)
    (hdst : dst.toNat + n ≤ 2 ^ 64) (hsrc : src.toNat + n ≤ 2 ^ 64) :
    let kernel := (Kernel.memmove dst src (BitVec.ofNat 32 n) mem).2
    let user := (User.memmove dst src (BitVec.ofNat 32 n) mem).2
    (∀ i < n, kernel (dst + BitVec.ofNat 64 i) = mem (src + BitVec.ofNat 64 i)) ∧
    (∀ a : Addr, a.toNat < dst.toNat ∨ dst.toNat + n ≤ a.toNat → kernel a = mem a) ∧
    (∀ i < n, user (dst + BitVec.ofNat 64 i) = mem (src + BitVec.ofNat 64 i)) ∧
    (∀ a : Addr, a.toNat < dst.toNat ∨ dst.toNat + n ≤ a.toNat → user a = mem a) ∧
    Kernel.memmove dst src (BitVec.ofNat 32 n) mem =
      User.memmove dst src (BitVec.ofNat 32 n) mem := by
  rw [Kernel.memmove_eq hn hdst hsrc, User.memmove_eq hn hdst hsrc]
  have hinside : ∀ i < n, Move.moved n dst src mem (dst + BitVec.ofNat 64 i) =
      mem (src + BitVec.ofNat 64 i) := fun i hi => moved_at (by omega) mem hi
  have houtside : ∀ a : Addr, a.toNat < dst.toNat ∨ dst.toNat + n ≤ a.toNat →
      Move.moved n dst src mem a = mem a := fun a ha => moved_outside hdst mem ha
  exact ⟨hinside, houtside, hinside, houtside, rfl⟩

/-- Three bytes are moved up by one, over themselves. -/
theorem memmove_any_overlap_three :
    (Kernel.memmove 11 10 3 (fun a => UInt8.ofNat a.toNat)).2 13 = 12 ∧
      (User.memmove 11 10 3 (fun a => UInt8.ofNat a.toNat)).2 13 = 12 :=
  have hmove := memmove_any_overlap (fun a => UInt8.ofNat a.toNat) 11 10 3 (by decide) (by decide)
    (by decide)
  ⟨hmove.1 2 (by decide), hmove.2.2.1 2 (by decide)⟩

end

end Xv6.Library
