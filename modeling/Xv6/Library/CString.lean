import Xv6.Library.Memmove

/-!
# C strings in memory

What the bytes from an address on are, and how it changes with stores and moves.  `strchr` of
`user/ulib.c`, and the string that a C function sees that is given a pointer.
-/

namespace Xv6.Library

/-- Memory holds the bytes from the address on. -/
def Holds (mem : Mem) : Addr → List UInt8 → Prop
  | _, [] => True
  | a, x :: xs => mem a = x ∧ Holds mem (a + 1) xs

/-- The `n` bytes from the address on. -/
def bytesAt (mem : Mem) : Nat → Addr → List UInt8
  | 0, _ => []
  | n + 1, a => mem a :: bytesAt mem n (a + 1)

/-- Store bytes from the address on. -/
def storeBytes : List UInt8 → Addr → Mem → Mem
  | [], _, mem => mem
  | x :: xs, a, mem => storeBytes xs (a + 1) (Function.update mem a x)

/-- `strchr(s, c)`.  It reads at most `fuel` bytes, and there is no result if it goes on. -/
def strchr (mem : Mem) (c : UInt8) : Nat → Addr → Option (Option Addr)
  | 0, _ => none
  | fuel + 1, s =>
    if mem s = 0 then some none
    else if mem s = c then some (some s)
    else strchr mem c fuel (s + 1)

/-- The bytes from a pointer to the NUL, if that is among the first `fuel`. -/
def stringAt (mem : Mem) : Nat → Addr → Option (List UInt8)
  | 0, _ => none
  | fuel + 1, s => if mem s = 0 then some [] else (stringAt mem fuel (s + 1)).map (mem s :: ·)

/-- The address `i` bytes on. -/
abbrev Addr.plus (a : Addr) (i : Nat) : Addr := a + BitVec.ofNat 64 i

theorem Addr.plus_succ (a : Addr) (i : Nat) : a.plus (i + 1) = (a + 1).plus i := by
  unfold Addr.plus
  bv_omega

theorem Addr.plus_plus (a : Addr) (i j : Nat) : (a.plus i).plus j = a.plus (i + j) := by
  unfold Addr.plus
  bv_omega

theorem Addr.plus_succ_right (a : Addr) (i : Nat) : a.plus (i + 1) = a.plus i + 1 := by
  unfold Addr.plus
  bv_omega

theorem Addr.toNat_plus_sub (a : Addr) {i : Nat} (hi : i < 2 ^ 64) : (a.plus i - a).toNat = i := by
  have hsub : a.plus i - a = BitVec.ofNat 64 i := by
    unfold Addr.plus
    bv_omega
  rw [hsub, BitVec.toNat_ofNat, Nat.mod_eq_of_lt hi]

section Holds

variable {mem : Mem} {a : Addr} {xs ys : List UInt8}

theorem holds_append : Holds mem a (xs ++ ys) ↔ Holds mem a xs ∧ Holds mem (a.plus xs.length) ys := by
  induction xs generalizing a with
  | nil => simp [Holds, Addr.plus]
  | cons x xs ih => rw [List.cons_append, Holds, Holds, ih, List.length_cons, Addr.plus_succ, and_assoc]

theorem Holds.bytesAt (h : Holds mem a xs) : bytesAt mem xs.length a = xs := by
  induction xs generalizing a with
  | nil => rfl
  | cons x xs ih => rw [List.length_cons, Library.bytesAt, h.1, ih h.2]

theorem holds_iff_forall : Holds mem a xs ↔ ∀ i (hi : i < xs.length), mem (a.plus i) = xs[i] := by
  induction xs generalizing a with
  | nil => simp [Holds]
  | cons x xs ih =>
    rw [Holds, ih]
    constructor
    · rintro ⟨hx, hxs⟩ (_ | i) hi
      · simpa [Addr.plus] using hx
      · rw [Addr.plus_succ]
        exact hxs i (Nat.lt_of_succ_lt_succ hi)
    · refine fun h => ⟨by simpa [Addr.plus] using h 0 (Nat.succ_pos _), fun i hi => ?_⟩
      rw [← Addr.plus_succ]
      exact h (i + 1) (Nat.succ_lt_succ hi)

theorem Holds.update (h : Holds mem a xs) {b : Addr} (hb : ∀ i < xs.length, a.plus i ≠ b)
    (c : UInt8) : Holds (Function.update mem b c) a xs := by
  rw [holds_iff_forall] at h ⊢
  intro i hi
  rw [Function.update_of_ne (hb i hi), h i hi]

theorem Addr.plus_ne (a : Addr) {i j : Nat} (hne : i ≠ j) (hi : i < 2 ^ 64) (hj : j < 2 ^ 64) :
    a.plus i ≠ a.plus j := by
  unfold Addr.plus
  bv_omega

theorem Holds.set {c : UInt8} (h : Holds mem a (xs ++ c :: ys))
    (hlen : (xs ++ c :: ys).length ≤ 2 ^ 64) (d : UInt8) :
    Holds (Function.update mem (a.plus xs.length) d) a (xs ++ d :: ys) := by
  rw [List.length_append, List.length_cons] at hlen
  obtain ⟨hxs, -, hys⟩ := holds_append.mp h
  rw [← Addr.plus_succ_right] at hys
  refine holds_append.mpr ⟨hxs.update (fun i hi => a.plus_ne (by omega) (by omega) (by omega)) d,
    Function.update_self .., ?_⟩
  rw [← Addr.plus_succ_right]
  refine hys.update (fun i hi => ?_) d
  rw [Addr.plus_plus]
  exact a.plus_ne (by omega) (by omega) (by omega)

theorem Holds.moved (h : Holds mem a xs) (dst : Addr) (hlen : xs.length ≤ 2 ^ 64) :
    Holds (Move.moved xs.length dst a mem) dst xs := by
  rw [holds_iff_forall] at h ⊢
  intro i hi
  rw [Addr.plus, moved_at hlen mem hi]
  exact h i hi

end Holds

theorem Holds.storeBytes {mem : Mem} {a b : Addr} {xs ys : List UInt8} (h : Holds mem a xs)
    (hb : ∀ i < xs.length, ∀ j < ys.length, a.plus i ≠ b.plus j) :
    Holds (storeBytes ys b mem) a xs := by
  induction ys generalizing b mem with
  | nil => exact h
  | cons y ys ih =>
    refine ih (h.update (fun i hi => ?_) y) fun i hi j hj => ?_
    · simpa [Addr.plus] using hb i hi 0 (Nat.succ_pos _)
    · rw [← Addr.plus_succ]
      exact hb i hi (j + 1) (Nat.succ_lt_succ hj)

theorem holds_storeBytes {xs : List UInt8} (a : Addr) (hlen : xs.length ≤ 2 ^ 64) (mem : Mem) :
    Holds (storeBytes xs a mem) a xs := by
  induction xs generalizing a mem with
  | nil => trivial
  | cons x xs ih =>
    rw [List.length_cons] at hlen
    have hfirst : Holds (Function.update mem a x) a [x] := ⟨Function.update_self .., trivial⟩
    have hkept : Holds (storeBytes xs (a + 1) (Function.update mem a x)) a [x] := by
      refine hfirst.storeBytes fun i hi j hj => ?_
      rw [List.length_singleton] at hi
      unfold Addr.plus
      bv_omega
    exact ⟨hkept.1, ih (a + 1) (Nat.le_of_succ_le hlen) _⟩

/-! ### Strings -/

/-- **`strchr`** stops at the first byte it looks for. -/
theorem strchr_found {mem : Mem} {c : UInt8} {s : Addr} {xs : List UInt8} {fuel : Nat}
    (h : Holds mem s (xs ++ [c])) (hxs : ∀ x ∈ xs, x ≠ 0 ∧ x ≠ c) (hc : c ≠ 0)
    (hfuel : xs.length < fuel) : strchr mem c fuel s = some (some (s.plus xs.length)) := by
  induction xs generalizing s fuel with
  | nil =>
    obtain ⟨fuel, rfl⟩ : ∃ k, fuel = k + 1 := ⟨fuel - 1, by simp at hfuel; omega⟩
    have hs : mem s = c := h.1
    rw [strchr, if_neg (hs ▸ hc), if_pos hs]
    simp [Addr.plus]
  | cons x xs ih =>
    obtain ⟨fuel, rfl⟩ : ∃ k, fuel = k + 1 := ⟨fuel - 1, by omega⟩
    obtain ⟨hx0, hxc⟩ := hxs x List.mem_cons_self
    rw [strchr, if_neg (h.1 ▸ hx0), if_neg (h.1 ▸ hxc), ih h.2
      (fun y hy => hxs y (List.mem_cons_of_mem x hy)) (Nat.lt_of_succ_lt_succ hfuel),
      List.length_cons, Addr.plus_succ]

theorem strchr_absent {mem : Mem} {c : UInt8} {s : Addr} {xs : List UInt8} {fuel : Nat}
    (h : Holds mem s (xs ++ [0])) (hxs : ∀ x ∈ xs, x ≠ 0 ∧ x ≠ c) (hfuel : xs.length < fuel) :
    strchr mem c fuel s = some none := by
  induction xs generalizing s fuel with
  | nil =>
    obtain ⟨fuel, rfl⟩ : ∃ k, fuel = k + 1 := ⟨fuel - 1, by simp at hfuel; omega⟩
    rw [strchr, if_pos h.1]
  | cons x xs ih =>
    obtain ⟨fuel, rfl⟩ : ∃ k, fuel = k + 1 := ⟨fuel - 1, by omega⟩
    obtain ⟨hx0, hxc⟩ := hxs x List.mem_cons_self
    rw [strchr, if_neg (h.1 ▸ hx0), if_neg (h.1 ▸ hxc)]
    exact ih h.2 (fun y hy => hxs y (List.mem_cons_of_mem x hy)) (Nat.lt_of_succ_lt_succ hfuel)

theorem stringAt_eq {mem : Mem} {s : Addr} {xs : List UInt8} {fuel : Nat}
    (h : Holds mem s (xs ++ [0])) (hxs : 0 ∉ xs) (hfuel : xs.length < fuel) :
    stringAt mem fuel s = some xs := by
  induction xs generalizing s fuel with
  | nil =>
    obtain ⟨fuel, rfl⟩ : ∃ k, fuel = k + 1 := ⟨fuel - 1, by simp at hfuel; omega⟩
    rw [stringAt, if_pos h.1]
  | cons x xs ih =>
    obtain ⟨fuel, rfl⟩ : ∃ k, fuel = k + 1 := ⟨fuel - 1, by omega⟩
    have hx : x ≠ 0 := fun heq => hxs (heq ▸ List.mem_cons_self)
    have hrest := ih h.2 (fun hmem => hxs (List.mem_cons_of_mem x hmem))
      (Nat.lt_of_succ_lt_succ hfuel)
    rw [stringAt, if_neg (h.1 ▸ hx), hrest, h.1]
    rfl

end Xv6.Library
