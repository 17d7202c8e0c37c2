import Mathlib.Logic.Function.Basic
import Mathlib.Data.Nat.ModEq
import Mathlib.Tactic.SplitIfs

/-!
# Rings with free-running indices

A ring of `n` slots between a writer and a reader, each with an index of `b` bits that it only ever
increments and that wraps around.  Slot `i % n` belongs to index `i`; if `n` divides `2 ^ b` this
survives the wrap.  `between` is the queue that the ring stands for.
-/

namespace Ring

open Function

variable {α : Type} {n : Nat}

/-- The `count` elements from index `head` on. -/
def items (n : Nat) (ring : Nat → α) (head count : Nat) : List α :=
  (List.range count).map fun k => ring ((head + k) % n)

theorem items_succ_back (ring : Nat → α) (head count : Nat) :
    items n ring head (count + 1) = items n ring head count ++ [ring ((head + count) % n)] := by
  simp [items, List.range_succ]

theorem items_succ_front (ring : Nat → α) (head count : Nat) :
    items n ring head (count + 1) = ring (head % n) :: items n ring (head + 1) count := by
  simp only [items, List.range_succ_eq_map, List.map_cons, List.map_map, Nat.add_zero]
  congr 1
  refine List.map_congr_left fun k _ => ?_
  simp only [Function.comp]
  congr 2
  omega

theorem items_congr {head head' : Nat} (h : head % n = head' % n) (ring : Nat → α) (count : Nat) :
    items n ring head count = items n ring head' count := by
  refine List.map_congr_left fun k _ => ?_
  rw [Nat.add_mod, h, ← Nat.add_mod]

theorem items_update {count : Nat} (hroom : count < n) (ring : Nat → α) (head : Nat) (x : α) :
    items n (update ring ((head + count) % n) x) head count = items n ring head count := by
  refine List.map_congr_left fun k hk => update_of_ne (fun heq => ?_) ..
  have hk' := List.mem_range.mp hk
  have hmod : k % n = count % n := Nat.ModEq.add_left_cancel' head heq
  rw [Nat.mod_eq_of_lt (by omega), Nat.mod_eq_of_lt hroom] at hmod
  omega

/-- What has been written and not read, the indices of reader and writer being `r` and `w`. -/
def between {b : Nat} (n : Nat) (ring : Nat → α) (r w : BitVec b) : List α :=
  items n ring r.toNat (w - r).toNat

section Between

variable {b : Nat} {ring : Nat → α} {r w : BitVec b}

@[simp] theorem length_between : (between n ring r w).length = (w - r).toNat := by
  simp [between, items]

theorem toNat_add_one (hb : 0 < b) (w : BitVec b) :
    (w + 1).toNat = if w.toNat + 1 = 2 ^ b then 0 else w.toNat + 1 := by
  have hone : (1 : BitVec b).toNat = 1 := BitVec.toNat_one hb
  have hlt := w.isLt
  rw [BitVec.toNat_add, hone]
  split
  · rename_i heq
    rw [heq, Nat.mod_self]
  · exact Nat.mod_eq_of_lt (by omega)

theorem toNat_sub (r w : BitVec b) :
    (w - r).toNat = if r.toNat ≤ w.toNat then w.toNat - r.toNat else 2 ^ b + w.toNat - r.toNat := by
  have hr := r.isLt
  have hw := w.isLt
  rw [BitVec.toNat_sub]
  split
  · rw [show 2 ^ b - r.toNat + w.toNat = w.toNat - r.toNat + 2 ^ b by omega, Nat.add_mod_right]
    exact Nat.mod_eq_of_lt (by omega)
  · rw [show 2 ^ b - r.toNat + w.toNat = 2 ^ b + w.toNat - r.toNat by omega]
    exact Nat.mod_eq_of_lt (by omega)

theorem index_mod (hn : n ∣ 2 ^ b) (r w : BitVec b) :
    (r.toNat + (w - r).toNat) % n = w.toNat % n := by
  have hr := r.isLt
  rw [toNat_sub]
  split
  · rw [show r.toNat + (w.toNat - r.toNat) = w.toNat by omega]
  · rw [show r.toNat + (2 ^ b + w.toNat - r.toNat) = w.toNat + 2 ^ b by omega, Nat.add_mod,
      Nat.mod_eq_zero_of_dvd hn, Nat.add_zero, Nat.mod_mod]

theorem between_update (hn : n ∣ 2 ^ b) (hroom : (between n ring r w).length < n) (x : α) :
    between n (update ring (w.toNat % n) x) r w = between n ring r w := by
  rw [length_between] at hroom
  rw [between, ← index_mod hn r w]
  exact items_update hroom ring _ x

theorem between_push (hb : 0 < b) (hn : n ∣ 2 ^ b)
    (hroom : (between n ring r w).length + 1 < 2 ^ b) :
    between n ring r (w + 1) = between n ring r w ++ [ring (w.toNat % n)] := by
  rw [length_between] at hroom
  have hr := r.isLt
  have hw := w.isLt
  have hnext : (w + 1 - r).toNat = (w - r).toNat + 1 := by
    rw [toNat_sub] at hroom
    rw [toNat_sub, toNat_sub, toNat_add_one hb]
    split_ifs at hroom ⊢ <;> omega
  rw [between, hnext, items_succ_back, index_mod hn]
  rfl

theorem between_pop (hb : 0 < b) (hn : n ∣ 2 ^ b) (hne : r ≠ w) :
    between n ring r w = ring (r.toNat % n) :: between n ring (r + 1) w := by
  have hr := r.isLt
  have hw := w.isLt
  have hne' : r.toNat ≠ w.toNat := fun h => hne (BitVec.eq_of_toNat_eq h)
  have hcount : (w - r).toNat = (w - (r + 1)).toNat + 1 := by
    rw [toNat_sub, toNat_sub, toNat_add_one hb]
    split_ifs <;> omega
  rw [between, hcount, items_succ_front, between]
  congr 1
  refine items_congr ?_ ring _
  rw [toNat_add_one hb]
  split
  · rename_i heq
    rw [heq, Nat.mod_eq_zero_of_dvd hn, Nat.zero_mod]
  · rfl

theorem between_self (ring : Nat → α) (r : BitVec b) : between n ring r r = [] := by
  rw [between, BitVec.sub_self]
  rfl

theorem between_eq_nil_iff : between n ring r w = [] ↔ r = w := by
  constructor
  · intro h
    have hlen : (w - r).toNat = 0 := by
      have hlength := congrArg List.length h
      rwa [length_between] at hlength
    have hr := r.isLt
    rw [toNat_sub] at hlen
    refine BitVec.eq_of_toNat_eq ?_
    split_ifs at hlen <;> omega
  · rintro rfl
    exact between_self ring r

end Between

end Ring
