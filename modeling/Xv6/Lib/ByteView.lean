import Mathlib.Logic.Function.Basic
import Mathlib.Tactic.Ring

/-!
# Little-endian views of byte regions

A region of memory (a disk block, a physical page, a C structure) is a function
from offsets to bytes.  `getLE` and `putLE` are the load and the store of an
unsigned integer of any width at any offset.  The lemmas are the usual laws of a
store: a load returns what was stored at the same place, and a store leaves
every disjoint field alone.
-/

namespace ByteView

open Function

abbrev Bytes := Nat → UInt8

/-- Load the `n`-byte little-endian unsigned integer at offset `o`. -/
def getLE (f : Bytes) (o : Nat) : Nat → Nat
  | 0 => 0
  | n + 1 => (f o).toNat + 256 * getLE f (o + 1) n

/-- Store `v` as an `n`-byte little-endian unsigned integer at offset `o`;
    the bits of `v` above the width are dropped, as a C store does. -/
def putLE (f : Bytes) (o : Nat) : Nat → Nat → Bytes
  | 0, _ => f
  | n + 1, v => update (putLE f (o + 1) n (v / 256)) o (UInt8.ofNat v)

theorem putLE_outside (f : Bytes) (o n v i : Nat) (h : i < o ∨ o + n ≤ i) :
    putLE f o n v i = f i := by
  induction n generalizing o v with
  | zero => rfl
  | succ n ih =>
    have hne : i ≠ o := by omega
    rw [putLE, update_of_ne hne]
    exact ih (o + 1) (v / 256) (by omega)

theorem getLE_congr {f g : Bytes} {o n : Nat}
    (h : ∀ i, o ≤ i → i < o + n → f i = g i) : getLE f o n = getLE g o n := by
  induction n generalizing o with
  | zero => rfl
  | succ n ih =>
    simp only [getLE]
    rw [h o (by omega) (by omega), ih (fun i hlo hhi => h i (by omega) (by omega))]

theorem getLE_lt (f : Bytes) (o n : Nat) : getLE f o n < 256 ^ n := by
  induction n generalizing o with
  | zero => simp [getLE]
  | succ n ih =>
    have hbyte : (f o).toNat < 256 := (f o).toNat_lt
    have hrest := ih (o + 1)
    simp only [getLE, pow_succ]
    omega

theorem getLE_putLE (f : Bytes) (o n v : Nat) :
    getLE (putLE f o n v) o n = v % 256 ^ n := by
  induction n generalizing o v with
  | zero => simp [getLE, Nat.mod_one]
  | succ n ih =>
    have hhead : (putLE f o (n + 1) v) o = UInt8.ofNat v := by simp [putLE]
    have htail : getLE (putLE f o (n + 1) v) (o + 1) n = v / 256 % 256 ^ n := by
      rw [← ih (o + 1) (v / 256)]
      refine getLE_congr fun i hlo _ => ?_
      have hne : i ≠ o := by omega
      rw [putLE, update_of_ne hne]
    have hbyte : (UInt8.ofNat v).toNat = v % 256 := UInt8.toNat_ofNat'
    rw [getLE, hhead, htail, hbyte, pow_succ', Nat.mod_mul]

theorem getLE_putLE_of_lt (f : Bytes) {o n v : Nat} (hv : v < 256 ^ n) :
    getLE (putLE f o n v) o n = v := by
  rw [getLE_putLE, Nat.mod_eq_of_lt hv]

theorem getLE_putLE_disjoint (f : Bytes) {o n v o' n' : Nat}
    (h : o' + n' ≤ o ∨ o + n ≤ o') :
    getLE (putLE f o n v) o' n' = getLE f o' n' :=
  getLE_congr fun i hlo hhi => putLE_outside f o n v i (by omega)

/-! ### Arrays of integers -/

/-- Store the first `n` entries of an array of `w`-byte integers at offset `o`. -/
def putArray (f : Bytes) (o w : Nat) (v : Nat → Nat) : Nat → Bytes
  | 0 => f
  | n + 1 => putLE (putArray f o w v n) (o + w * n) w (v n)

theorem putArray_outside (f : Bytes) (o w : Nat) (v : Nat → Nat) (n i : Nat)
    (h : i < o ∨ o + w * n ≤ i) : putArray f o w v n i = f i := by
  induction n with
  | zero => rfl
  | succ n ih =>
    rw [Nat.mul_succ] at h
    rw [putArray, putLE_outside _ _ _ _ _ (by omega)]
    exact ih (by omega)

/-- An entry of a stored array is loaded back: the later entries lie behind it. -/
theorem getLE_putArray (f : Bytes) {o w : Nat} {v : Nat → Nat} {n i : Nat} (hi : i < n)
    (hv : v i < 256 ^ w) : getLE (putArray f o w v n) (o + w * i) w = v i := by
  induction n with
  | zero => omega
  | succ n ih =>
    rw [putArray]
    rcases Nat.lt_or_ge i n with hlt | hge
    · have hle : w * i + w ≤ w * n := by
        calc w * i + w = w * (i + 1) := (Nat.mul_succ w i).symm
          _ ≤ w * n := Nat.mul_le_mul_left w hlt
      rw [getLE_putLE_disjoint _ (by omega)]
      exact ih hlt
    · obtain rfl : i = n := by omega
      exact getLE_putLE_of_lt _ hv

theorem getLE_putArray_disjoint (f : Bytes) {o w : Nat} {v : Nat → Nat} {n o' n' : Nat}
    (h : o' + n' ≤ o ∨ o + w * n ≤ o') :
    getLE (putArray f o w v n) o' n' = getLE f o' n' :=
  getLE_congr fun i hlo hhi => putArray_outside f o w v n i (by omega)

end ByteView
