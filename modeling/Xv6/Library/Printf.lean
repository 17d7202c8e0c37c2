import Xv6.Lib.Numeral
import Mathlib.Data.List.GetD
import Mathlib.Tactic.IntervalCases

/-!
# The numbers of the kernel's `printf`

`printint` and `printptr` of `kernel/printf.c`.  Both write to the console character by character;
here they return what they write.
-/

namespace Xv6.Library

open Numeral

def digits : List Char := "0123456789abcdef".toList

def digitAt (d : Nat) : Char := digits.getD d '0'

/-- The loop `do { buf[i++] = digits[x % base]; } while ((x /= base) != 0)`, as the characters that
    it appends to `buf`; for at most as many rounds as `x` has bits. -/
def storeDigits (base : Nat) : Nat → Nat → List Char
  | 0, _ => []
  | rounds + 1, x =>
    digitAt (x % base) :: if x / base ≠ 0 then storeDigits base rounds (x / base) else []

/-- What `printint` has put into `buf[0]`, `buf[1]` and so on.  The negation of `xx` is that of the
    machine, which takes the most negative value to itself. -/
def printintBuf (xx : BitVec 64) (base : Nat) (sign : Bool) : List Char :=
  let sign := sign && xx.slt 0
  let x := if sign then -xx else xx
  storeDigits base 64 x.toNat ++ if sign then ['-'] else []

/-- `printint` writes its buffer from the end. -/
def printint (xx : BitVec 64) (base : Nat) (sign : Bool) : List Char :=
  (printintBuf xx base sign).reverse

/-- The loop of `printptr`, for the rounds that are left. -/
def ptrDigits : Nat → BitVec 64 → List Char
  | 0, _ => []
  | rounds + 1, x => digitAt (x >>> 60).toNat :: ptrDigits rounds (x <<< 4)

def printptr (x : BitVec 64) : List Char := '0' :: 'x' :: ptrDigits 16 x

/-! ### The digits of `printint` -/

/-- The digits of a number, the least significant one first, and one digit for zero. -/
def digitsOf (base x : Nat) : List Nat := if x = 0 then [0] else Nat.digits base x

theorem storeDigits_eq {base : Nat} (hbase : 1 < base) {rounds x : Nat} (hx : x < base ^ rounds)
    (hrounds : 0 < rounds) : storeDigits base rounds x = (digitsOf base x).map digitAt := by
  induction rounds generalizing x with
  | zero => exact absurd hrounds (Nat.lt_irrefl 0)
  | succ rounds ih =>
    unfold storeDigits digitsOf
    have hlt : x / base < base ^ rounds := by
      rw [Nat.div_lt_iff_lt_mul (by omega), ← Nat.pow_succ]
      exact hx
    by_cases hzero : x = 0
    · simp [hzero]
    rw [if_neg hzero, Nat.digits_def' hbase (Nat.pos_of_ne_zero hzero), List.map_cons]
    congr 1
    split
    · rename_i hdiv
      have hpos : 0 < rounds := Nat.pos_of_ne_zero fun h => by
        subst h
        exact hdiv (Nat.lt_one_iff.mp hlt)
      rw [ih hlt hpos, digitsOf, if_neg hdiv]
    · rename_i hdiv
      rw [not_not.mp hdiv, Nat.digits_zero, List.map_nil]

theorem digitsOf_lt {base : Nat} (hbase : 1 < base) {x d : Nat} (hd : d ∈ digitsOf base x) :
    d < base := by
  unfold digitsOf at hd
  split at hd
  · rw [List.mem_singleton.mp hd]
    omega
  · exact Nat.digits_lt_base hbase hd

theorem ofDigits_digitsOf (base x : Nat) : Nat.ofDigits base (digitsOf base x) = x := by
  unfold digitsOf
  split
  · rename_i hzero
    rw [hzero]
    rfl
  · exact Nat.ofDigits_digits base x

theorem length_digitsOf_le {base : Nat} (hbase : 1 < base) {x k : Nat} (hk : 0 < k)
    (hx : x < base ^ k) : (digitsOf base x).length ≤ k := by
  unfold digitsOf
  split
  · exact hk
  · exact (Nat.digits_length_le_iff hbase x).mpr hx

theorem digitsOf_reverse (base x : Nat) :
    ∃ d ds, (digitsOf base x).reverse = d :: ds ∧ (d = 0 → ds = [] ∧ x = 0) := by
  unfold digitsOf
  split
  · rename_i hzero
    exact ⟨0, [], rfl, fun _ => ⟨rfl, hzero⟩⟩
  · rename_i hx
    have hne : Nat.digits base x ≠ [] := Nat.digits_ne_nil_iff_ne_zero.mpr hx
    refine ⟨(Nat.digits base x).getLast hne, (Nat.digits base x).dropLast.reverse, ?_, fun hd =>
      absurd hd (Nat.getLast_digit_ne_zero base hx)⟩
    rw [← List.reverse_concat, List.dropLast_append_getLast]

/-! ### Reading numbers back -/

theorem digits_nodup : digits.Nodup := by decide

theorem length_digits : digits.length = 16 := by decide

theorem digitAt_eq {base : Nat} (hbase : base ≤ digits.length) (d : Nat) (hd : d < base) :
    digitAt d = digits.get ⟨d, Nat.lt_of_lt_of_le hd hbase⟩ :=
  List.getD_eq_getElem _ _ (Nat.lt_of_lt_of_le hd hbase)

theorem digitAt_mem {base : Nat} (hbase : base ≤ digits.length) {d : Nat} (hd : d < base) :
    digitAt d ∈ digits.take base := by
  rw [digitAt_eq hbase d hd]
  exact List.mem_take_iff_getElem.mpr ⟨d, by omega, rfl⟩

theorem digitAt_ne_minus {d : Nat} (hd : d < 16) : digitAt d ≠ '-' := by
  interval_cases d <;> decide

theorem eq_zero_of_digitAt {d : Nat} (hd : d < 16) (hzero : digitAt d = '0') : d = 0 := by
  interval_cases d <;> revert hzero <;> decide

section

variable {base : Nat} (hbase : 1 < base) (hle : base ≤ digits.length) (x : Nat)
include hbase hle

theorem read_digitsOf : Numeral.read digits base ((digitsOf base x).reverse.map digitAt) = some x := by
  obtain ⟨d, ds, hrev, -⟩ := digitsOf_reverse base x
  have hds : ∀ d ∈ (digitsOf base x).reverse, d < base := fun d hd =>
    digitsOf_lt hbase (List.mem_reverse.mp hd)
  have hne : (digitsOf base x).reverse.map digitAt ≠ [] := by simp [hrev]
  rw [Numeral.read, if_neg hne, readFrom_map digits_nodup hle (digitAt_eq hle) hds, List.reverse_reverse,
    ofDigits_digitsOf, Nat.zero_mul, Nat.zero_add]

theorem readSigned_digitsOf (neg : Bool) :
    readSigned digits '-' base ((if neg then ['-'] else []) ++
      (digitsOf base x).reverse.map digitAt) = some (if neg then -(x : Int) else x) := by
  have hread := read_digitsOf hbase hle x
  cases neg with
  | true =>
    simp only [if_true, List.cons_append, List.nil_append, readSigned]
    rw [hread]
    rfl
  | false =>
    obtain ⟨d, ds, hrev, -⟩ := digitsOf_reverse base x
    have hd : d < base := digitsOf_lt hbase (List.mem_reverse.mp (hrev ▸ List.mem_cons_self))
    have hlen := length_digits
    rw [hrev, List.map_cons] at hread ⊢
    simp [readSigned, digitAt_ne_minus (d := d) (by omega), hread]

theorem canonical_digitsOf (neg : Bool) (hneg : neg = true → x ≠ 0) :
    Canonical digits '-' base ((if neg then ['-'] else []) ++
      (digitsOf base x).reverse.map digitAt) := by
  obtain ⟨d, ds, hrev, hlead⟩ := digitsOf_reverse base x
  have hlt : ∀ e ∈ d :: ds, e < base := fun e he =>
    digitsOf_lt hbase (List.mem_reverse.mp (hrev ▸ he))
  refine ⟨neg, digitAt d, ds.map digitAt, by rw [hrev, List.map_cons], fun c hc => ?_,
    fun hzero => ?_⟩
  · rw [← List.map_cons] at hc
    obtain ⟨e, he, rfl⟩ := List.mem_map.mp hc
    exact digitAt_mem hle (hlt e he)
  · have hd := hlt d List.mem_cons_self
    have hlen := length_digits
    have hd0 : d = 0 := eq_zero_of_digitAt (by omega) (Option.some.inj hzero).symm
    obtain ⟨hnil, hx0⟩ := hlead hd0
    refine ⟨by rw [hnil, List.map_nil], ?_⟩
    cases neg with
    | true => exact absurd hx0 (hneg rfl)
    | false => rfl

end

theorem printint_eq {base : Nat} (hbase : 1 < base) (xx : BitVec 64) (sign : Bool) :
    let neg := sign && xx.slt 0
    printint xx base sign = (if neg then ['-'] else []) ++
      (digitsOf base (if neg then -xx else xx).toNat).reverse.map digitAt := by
  have hround : ∀ y : BitVec 64, y.toNat < base ^ 64 := fun y =>
    Nat.lt_of_lt_of_le y.isLt (Nat.pow_le_pow_left hbase 64)
  dsimp only [printint, printintBuf]
  rw [storeDigits_eq hbase (hround _) (by decide), List.reverse_append, List.map_reverse]
  split <;> rfl

theorem signed_value (xx : BitVec 64) (sign : Bool) :
    let neg := sign && xx.slt 0
    (if neg then -((-xx).toNat : Int) else xx.toNat) =
      if sign then xx.toInt else xx.toNat := by
  have hlt := xx.isLt
  have hvalue := BitVec.toInt_eq_toNat_cond xx
  have hneg : xx.slt 0 = decide (xx.toInt < 0) := rfl
  cases sign with
  | false => rfl
  | true =>
    simp only [Bool.true_and, hneg, decide_eq_true_eq, if_true, BitVec.toNat_neg]
    split at hvalue <;> split <;> omega

theorem toNat_neg_of_slt {xx : BitVec 64} (h : xx.slt 0 = true) :
    (-xx).toNat ≠ 0 ∧ (-xx).toNat ≤ 2 ^ 63 := by
  have hvalue := BitVec.toInt_eq_toNat_cond xx
  have hneg : xx.toInt < 0 := of_decide_eq_true h
  have hlt := xx.isLt
  rw [BitVec.toNat_neg]
  split at hvalue <;> omega

theorem ptrDigits_eq (rounds : Nat) (hrounds : rounds ≤ 16) (x : BitVec 64) :
    ∃ ds : List Nat, ptrDigits rounds x = ds.map digitAt ∧ ds.length = rounds ∧
      (∀ d ∈ ds, d < 16) ∧ Nat.ofDigits 16 ds.reverse = x.toNat / 2 ^ (64 - 4 * rounds) := by
  induction rounds generalizing x with
  | zero =>
    refine ⟨[], rfl, rfl, nofun, ?_⟩
    rw [Nat.div_eq_of_lt x.isLt]
    rfl
  | succ rounds ih =>
    obtain ⟨ds, heq, hlen, hlt, hval⟩ := ih (by omega) (x <<< 4)
    have htop : (x >>> 60).toNat = x.toNat / 2 ^ 60 := by
      rw [BitVec.toNat_ushiftRight, Nat.shiftRight_eq_div_pow]
    have hrest : (x <<< 4).toNat = 2 ^ 4 * (x.toNat % 2 ^ 60) := by
      rw [BitVec.toNat_shiftLeft, Nat.shiftLeft_eq]
      omega
    refine ⟨x.toNat / 2 ^ 60 :: ds, by rw [ptrDigits, heq, htop, List.map_cons],
      by rw [List.length_cons, hlen], ?_, ?_⟩
    · have hx := x.isLt
      intro d hd
      obtain rfl | hd := List.mem_cons.mp hd
      · omega
      · exact hlt d hd
    · -- `x` is the digit at the top, then what the shift keeps
      have hsplit : 64 - 4 * rounds = 4 + (64 - 4 * (rounds + 1)) := by omega
      have hpow : 2 ^ 60 = 16 ^ rounds * 2 ^ (64 - 4 * (rounds + 1)) := by
        rw [show (16 : Nat) = 2 ^ 4 from rfl, ← Nat.pow_mul, ← Nat.pow_add]
        congr 1
        omega
      rw [List.reverse_cons, Nat.ofDigits_append, hval, List.length_reverse, hlen,
        Nat.ofDigits_singleton, hrest, hsplit, Nat.pow_add, Nat.mul_div_mul_left _ _ (by decide)]
      generalize hy : 2 ^ (64 - 4 * (rounds + 1)) = y at hpow
      have hypos : 0 < y := hy ▸ Nat.two_pow_pos _
      calc x.toNat % 2 ^ 60 / y + 16 ^ rounds * (x.toNat / 2 ^ 60)
          = (x.toNat % 2 ^ 60 + 16 ^ rounds * (x.toNat / 2 ^ 60) * y) / y := by
            rw [Nat.add_mul_div_right _ _ hypos]
        _ = x.toNat / y := by
            congr 1
            have hmod := Nat.mod_add_div x.toNat (2 ^ 60)
            rw [Nat.mul_right_comm, ← hpow]
            exact hmod

/-- **Numbers are printed as they are read.**  Whatever the value, `printint` stays within its
    buffer of 20 characters and writes a canonical numeral, which reads back as the signed value or
    as the unsigned one; `printptr` writes `0x` and 16 digits, which read back as its argument. -/
theorem numbers_read_back (xx : BitVec 64) (base : Nat) (hbase : base = 10 ∨ base = 16)
    (sign : Bool) :
    (printintBuf xx base sign).length ≤ 20 ∧
    Canonical digits '-' base (printint xx base sign) ∧
    readSigned digits '-' base (printint xx base sign) =
      some (if sign then xx.toInt else xx.toNat) ∧
    ∃ hex, printptr xx = '0' :: 'x' :: hex ∧ hex.length = 16 ∧
      Numeral.read digits 16 hex = some xx.toNat := by
  have hone : 1 < base := by omega
  have hlen := length_digits
  have hle : base ≤ digits.length := by omega
  have hprint := printint_eq hone xx sign
  have hvalue := signed_value xx sign
  dsimp only at hprint hvalue
  have hneg : (sign && xx.slt 0) = true → (-xx).toNat ≠ 0 ∧ (-xx).toNat ≤ 2 ^ 63 := fun h =>
    toNat_neg_of_slt (Bool.and_eq_true_iff.mp h).2
  refine ⟨?_, ?_, ?_, ?_⟩
  · have hsame : (printintBuf xx base sign).length = (printint xx base sign).length :=
      List.length_reverse.symm
    rw [hsame, hprint, List.length_append, List.length_map, List.length_reverse]
    have hx := xx.isLt
    split
    · rename_i h
      have hdigits := length_digitsOf_le hone (k := 19) (by decide) (x := (-xx).toNat)
        (Nat.lt_of_le_of_lt (hneg h).2 (by obtain rfl | rfl := hbase <;> decide))
      exact Nat.add_le_add_left hdigits 1
    · have hdigits := length_digitsOf_le hone (k := 20) (by decide) (x := xx.toNat)
        (Nat.lt_trans hx (by obtain rfl | rfl := hbase <;> decide))
      rwa [List.length_nil, Nat.zero_add]
  · rw [hprint]
    refine canonical_digitsOf hone hle _ _ fun h => ?_
    rw [if_pos h]
    exact (hneg h).1
  · rw [hprint, readSigned_digitsOf hone hle, ← hvalue]
    split <;> rfl
  · obtain ⟨ds, heq, hds, hlt, hval⟩ := ptrDigits_eq 16 (Nat.le_refl 16) xx
    refine ⟨ptrDigits 16 xx, rfl, by rw [heq, List.length_map, hds], ?_⟩
    have hne : ds.map digitAt ≠ [] := fun h => by
      rw [List.map_eq_nil_iff] at h
      simp [h] at hds
    rw [heq, Numeral.read, if_neg hne, readFrom_map digits_nodup (by decide)
      (digitAt_eq (by decide)) hlt, hval, Nat.zero_mul, Nat.zero_add]
    simp

/-- The most negative value has 19 digits and a sign. -/
theorem numbers_read_back_min :
    readSigned digits '-' 10 (printint (BitVec.ofNat 64 (2 ^ 63)) 10 true) = some (-2 ^ 63) ∧
      (printintBuf (BitVec.ofNat 64 (2 ^ 63)) 10 true).length ≤ 20 :=
  have hback := numbers_read_back (BitVec.ofNat 64 (2 ^ 63)) 10 (Or.inl rfl) true
  ⟨hback.2.2.1.trans (by decide), hback.1⟩

example : String.ofList (printint (BitVec.ofNat 64 (2 ^ 63)) 10 true) = "-9223372036854775808" := by
  decide

end Xv6.Library
