import Mathlib.Data.Nat.Digits.Lemmas

/-!
# Numerals

Numerals over an alphabet whose `d`-th symbol is the digit `d`.  `readFrom` reads one digit after
the other, the most significant one first.  A numeral is canonical if it has no superfluous
leading zero, and no minus sign before zero.
-/

namespace Numeral

variable {α : Type} [DecidableEq α] {alphabet : List α} {base : Nat}

/-- The digit that a symbol stands for. -/
def digit? (alphabet : List α) (base : Nat) (c : α) : Option Nat :=
  if c ∈ alphabet.take base then some (alphabet.idxOf c) else none

/-- Read digits, having read `acc`. -/
def readFrom (alphabet : List α) (base : Nat) : Nat → List α → Option Nat
  | acc, [] => some acc
  | acc, c :: cs => (digit? alphabet base c).bind fun d =>
      readFrom alphabet base (acc * base + d) cs

/-- Read at least one digit. -/
def read (alphabet : List α) (base : Nat) (cs : List α) : Option Nat :=
  if cs = [] then none else readFrom alphabet base 0 cs

/-- Read a minus sign, if there is one, and at least one digit. -/
def readSigned (alphabet : List α) (minus : α) (base : Nat) : List α → Option Int
  | [] => none
  | c :: cs =>
    if c = minus then (read alphabet base cs).map fun n => -(n : Int)
    else (read alphabet base (c :: cs)).map fun n => (n : Int)

/-- An optional minus sign and digits, of which the first is zero only if there is no other one
    and no minus sign. -/
def Canonical (alphabet : List α) (minus : α) (base : Nat) (cs : List α) : Prop :=
  ∃ (neg : Bool) (d : α) (ds : List α), cs = (if neg then [minus] else []) ++ d :: ds ∧
    (∀ c ∈ d :: ds, c ∈ alphabet.take base) ∧
    (alphabet.head? = some d → ds = [] ∧ neg = false)

section

variable (hnodup : alphabet.Nodup) (hbase : base ≤ alphabet.length)
include hnodup hbase

theorem digit?_getElem {d : Nat} (hd : d < base) :
    digit? alphabet base (alphabet.get ⟨d, Nat.lt_of_lt_of_le hd hbase⟩) = some d := by
  have hmem : alphabet.get ⟨d, Nat.lt_of_lt_of_le hd hbase⟩ ∈ alphabet.take base :=
    List.mem_take_iff_getElem.mpr ⟨d, by omega, rfl⟩
  rw [digit?, if_pos hmem]
  exact congrArg some (List.get_idxOf hnodup _)

/-- **Reading back** the symbols of digits: what has been read moves up, and the digits follow. -/
theorem readFrom_map {symbol : Nat → α}
    (hsymbol : ∀ d (h : d < base), symbol d = alphabet.get ⟨d, Nat.lt_of_lt_of_le h hbase⟩)
    {ds : List Nat} (hds : ∀ d ∈ ds, d < base) (acc : Nat) :
    readFrom alphabet base acc (ds.map symbol) =
      some (acc * base ^ ds.length + Nat.ofDigits base ds.reverse) := by
  induction ds generalizing acc with
  | nil => simp [readFrom]
  | cons d ds ih =>
    have hd := hds d List.mem_cons_self
    rw [List.map_cons, readFrom, hsymbol d hd, digit?_getElem hnodup hbase hd, Option.bind_some,
      ih (fun e he => hds e (List.mem_cons_of_mem d he)), List.reverse_cons, Nat.ofDigits_append,
      List.length_reverse, Nat.ofDigits_singleton, List.length_cons]
    congr 1
    ring

end

end Numeral
