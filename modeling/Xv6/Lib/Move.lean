import Mathlib.Logic.Function.Basic
import Mathlib.Tactic.Abel
import Mathlib.Tactic.LinearCombination
import Mathlib.Data.BitVec

/-!
# Moving cells through a memory

A memory has a cell at every address of `w` bits, and addresses wrap around.  `up` and `down` copy
cell after cell, from the first one on or from the last one back.  `moved` is what a move means:
the destination holds what the source held, and nothing else changes.  A loop that copies upwards
does this unless the destination begins within the source, behind its first cell; one that copies
downwards does it unless the source so begins within the destination.
-/

namespace Move

open Function

variable {w : Nat} {α : Type}

/-- Copy `n` cells, the first one first. -/
def up : Nat → BitVec w → BitVec w → (BitVec w → α) → BitVec w → α
  | 0, _, _, mem => mem
  | n + 1, dst, src, mem => up n (dst + 1) (src + 1) (update mem dst (mem src))

/-- Copy the `n` cells before `dst` and `src`, the last one first. -/
def down : Nat → BitVec w → BitVec w → (BitVec w → α) → BitVec w → α
  | 0, _, _, mem => mem
  | n + 1, dst, src, mem =>
    down n (dst - 1) (src - 1) (update mem (dst - 1) (mem (src - 1)))

/-- The memory in which the `n` cells at `dst` hold what those at `src` held. -/
def moved (n : Nat) (dst src : BitVec w) (mem : BitVec w → α) : BitVec w → α := fun a =>
  if (a - dst).toNat < n then mem (src + (a - dst)) else mem a

theorem toNat_sub_one_lt {n : Nat} (hn : n + 1 ≤ 2 ^ w) (x : BitVec w) :
    (x - 1).toNat < n ↔ x ≠ 0 ∧ x.toNat < n + 1 := by
  by_cases hx : x = 0
  · have hlast : ((0 : BitVec w) - 1).toNat = 2 ^ w - 1 := by
      have hall : (0 : BitVec w) - 1 = BitVec.allOnes w :=
        (zero_sub _).trans BitVec.neg_one_eq_allOnes
      rw [hall, BitVec.toNat_allOnes]
    rw [hx, hlast]
    simp only [ne_eq, not_true_eq_false, false_and, iff_false]
    omega
  · have hpos : x.toNat ≠ 0 := fun h => hx (BitVec.eq_of_toNat_eq (by simpa using h))
    have hw : 0 < w := Nat.pos_of_ne_zero fun h => by
      subst h
      exact hpos (by simpa using x.isLt)
    have hone : (1 : BitVec w).toNat = 1 := BitVec.toNat_one hw
    have hpred : (x - 1).toNat = x.toNat - 1 := by
      rw [BitVec.toNat_sub_of_le (by rw [BitVec.le_def, hone]; omega), hone]
    rw [hpred]
    simp only [ne_eq, hx, not_false_eq_true, true_and]
    omega

/-- **Copying upwards** moves, if no cell is written before it is read. -/
theorem up_eq_moved {n : Nat} (hn : n ≤ 2 ^ w) {dst src : BitVec w}
    (happart : dst = src ∨ n ≤ (dst - src).toNat) (mem : BitVec w → α) :
    up n dst src mem = moved n dst src mem := by
  induction n generalizing dst src mem with
  | zero => rfl
  | succ n ih =>
    have hshift : dst + 1 - (src + 1) = dst - src := by abel
    have happart' : dst + 1 = src + 1 ∨ n ≤ (dst + 1 - (src + 1)).toNat := by
      rw [hshift]
      exact happart.imp (congrArg (· + 1)) Nat.le_of_succ_le
    rw [up, ih (Nat.le_of_succ_le hn) happart']
    funext a
    have hoff : a - (dst + 1) = a - dst - 1 := by abel
    have hfrom : src + 1 + (a - dst - 1) = src + (a - dst) := by abel
    simp only [moved, hoff, hfrom, toNat_sub_one_lt hn]
    by_cases hfirst : a - dst = 0
    · have ha : a = dst := sub_eq_zero.mp hfirst
      simp [ha]
    have hne : a ≠ dst := fun h => hfirst (sub_eq_zero.mpr h)
    simp only [ne_eq, hfirst, not_false_eq_true, true_and]
    split
    · -- the cell that is read has not been written
      rename_i hlt
      refine update_of_ne (fun heq => ?_) ..
      have hdist : dst - src = a - dst := sub_eq_of_eq_add' heq.symm
      obtain heq' | hle := happart
      · exact hfirst (by rw [← hdist, heq', sub_self])
      · rw [hdist] at hle
        omega
    · exact update_of_ne hne ..

/-- **Copying downwards** moves, if no cell is written before it is read. -/
theorem down_eq_moved {n : Nat} (hn : n ≤ 2 ^ w) {dst src : BitVec w}
    (happart : dst = src ∨ n ≤ (src - dst).toNat) (mem : BitVec w → α) :
    down n (dst + BitVec.ofNat w n) (src + BitVec.ofNat w n) mem = moved n dst src mem := by
  induction n generalizing mem with
  | zero => rfl
  | succ n ih =>
    have hpred : ∀ p : BitVec w, p + BitVec.ofNat w (n + 1) - 1 = p + BitVec.ofNat w n := by
      intro p
      have hsucc : BitVec.ofNat w (n + 1) = BitVec.ofNat w n + 1 := by
        rw [BitVec.ofNat_add]
        rfl
      rw [hsucc]
      abel
    have hn' : (BitVec.ofNat w n).toNat = n := by
      rw [BitVec.toNat_ofNat, Nat.mod_eq_of_lt hn]
    rw [down, hpred, hpred, ih (Nat.le_of_succ_le hn) (happart.imp id Nat.le_of_succ_le)]
    funext a
    simp only [moved]
    have hlast : (a - dst).toNat = n ↔ a = dst + BitVec.ofNat w n := by
      rw [← hn', BitVec.toNat_inj, hn', sub_eq_iff_eq_add']
    obtain hlt | heq | hgt := Nat.lt_trichotomy (a - dst).toNat n
    · rw [if_pos hlt, if_pos (Nat.lt_succ_of_lt hlt)]
      refine update_of_ne (fun heq => ?_) ..
      have hdist : src - dst = BitVec.ofNat w n - (a - dst) := by linear_combination heq
      have hdist' : (src - dst).toNat = n - (a - dst).toNat := by
        rw [hdist, BitVec.toNat_sub_of_le (by rw [BitVec.le_def, hn']; omega), hn']
      obtain rfl | hle := happart
      · rw [BitVec.sub_self, BitVec.toNat_zero] at hdist'
        omega
      · omega
    · rw [if_neg (by omega), if_pos (by omega), hlast.mp heq, update_self,
        add_sub_cancel_left]
    · rw [if_neg (by omega), if_neg (by omega)]
      exact update_of_ne (fun h => absurd (hlast.mpr h) (by omega)) ..

end Move
