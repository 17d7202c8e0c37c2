import Xv6.Console.Model

/-!
# `consoleread` to a bad destination

`piperead` looks at a byte, copies it, and only then advances `nread`.  `consoleread` advances
`cons.r` first, and does not take that back when `either_copyout` fails, as it does for ^D: the
byte is removed, not delivered and not counted.
-/

namespace Xv6.Console

theorem copyLoop_eq_readLoop (target n : Nat) (s : Cons) :
    copyLoop false (fun _ => true) target n s =
      ⟨(readLoop target n s).cons, (readLoop target n s).n, (readLoop target n s).bytes,
        if (readLoop target n s).asleep then .asleep else .returned⟩ := by
  induction n generalizing s with
  | zero => rfl
  | succ n ih =>
    unfold copyLoop readLoop
    dsimp only
    split
    · rfl
    split
    · split <;> rfl
    rw [if_neg (by decide)]
    split
    · rfl
    · rw [ih]

/-- What one stretch of the loop does to `cons.r`, where it goes on or ends with a fault. -/
structure Advances (n : Nat) (s : Cons) (out : Copying) : Prop where
  left : out.n + out.bytes.length = n
  asleep : out.stop = .asleep → out.cons.r = s.r + UInt32.ofNat out.bytes.length
  /-- The byte that could not be copied is removed too. -/
  fault : out.stop = .fault → out.cons.r = s.r + UInt32.ofNat (out.bytes.length + 1) ∧ 0 < out.n

theorem copyLoop_advances (killed : Bool) (copies : Nat → Bool) (target n : Nat) (s : Cons) :
    Advances n s (copyLoop killed copies target n s) := by
  induction n generalizing s with
  | zero => exact ⟨rfl, nofun, nofun⟩
  | succ n ih =>
    unfold copyLoop
    dsimp only
    split
    · refine ⟨rfl, fun _ => (UInt32.add_zero _).symm, fun hstop => ?_⟩
      cases killed <;> exact nomatch hstop
    split
    · split <;> exact ⟨rfl, nofun, nofun⟩
    split
    · exact ⟨rfl, nofun, fun _ => ⟨rfl, Nat.succ_pos n⟩⟩
    split
    · exact ⟨rfl, nofun, nofun⟩
    -- a byte that is copied: what the rest does starts one further
    have hrest := ih { s with r := s.r + 1 }
    have hshift : ∀ k : Nat, s.r + 1 + UInt32.ofNat k = s.r + UInt32.ofNat (k + 1) := fun k => by
      rw [UInt32.add_assoc, UInt32.add_comm 1, UInt32.ofNat_add]
      rfl
    refine ⟨?_, fun hstop => ?_, fun hstop => ?_⟩
    · have hleft := hrest.left
      simp only [List.length_cons]
      omega
    · exact (hrest.asleep hstop).trans (hshift _)
    · exact ⟨(hrest.fault hstop).1.trans (hshift _), (hrest.fault hstop).2⟩

theorem toNat_advance (r : UInt32) {k : Nat} (hk : k < 2 ^ 32) :
    (r + UInt32.ofNat k - r).toNat = k := by
  rw [UInt32.add_comm, UInt32.add_sub_cancel, UInt32.toNat_ofNat', Nat.mod_eq_of_lt hk]

/-- The input that a call removes is what it delivers, and what it says it has delivered. -/
def Call.KeepsInput (call : Call) : Prop :=
  call.removed = call.bytes.length ∧ call.value = call.bytes.length

instance (call : Call) : Decidable call.KeepsInput := inferInstanceAs (Decidable (_ ∧ _))

/-- **A call that ends with a fault**, over all its stretches. -/
theorem consoleread_fault (copies : Nat → Bool) {target n : Nat} (htarget : target < 2 ^ 31)
    (hn : n ≤ target) (wakes : List (Bool × Cons)) (killed : Bool) (s : Cons)
    (hfault : (consoleread copies target wakes n killed s).stop = .fault) :
    let call := consoleread copies target wakes n killed s
    call.removed = call.bytes.length + 1 ∧ call.value = (target - n : Nat) + call.bytes.length := by
  have hstretch : ∀ n ≤ target, ∀ killed s,
      (copyLoop killed copies target n s).stop = .fault →
      let call := (copyLoop killed copies target n s).call target s
      call.removed = call.bytes.length + 1 ∧
        call.value = (target - n : Nat) + call.bytes.length := by
    intro n hn killed s hstop
    obtain ⟨hleft, -, hadv⟩ := copyLoop_advances killed copies target n s
    obtain ⟨hr, hpos⟩ := hadv hstop
    refine ⟨?_, ?_⟩
    · show ((copyLoop killed copies target n s).cons.r - s.r).toNat = _
      rw [hr, toNat_advance _ (by omega)]
      rfl
    · simp only [Copying.call, hstop, reduceCtorEq, if_false]
      omega
  induction wakes generalizing n killed s with
  | nil => exact hstretch n hn killed s hfault
  | cons wake wakes ih =>
    unfold consoleread at hfault ⊢
    dsimp only at hfault ⊢
    obtain ⟨hleft, hsleep, -⟩ := copyLoop_advances killed copies target n s
    split at hfault
    · rename_i hasleep
      rw [if_pos hasleep]
      obtain ⟨hremoved, hvalue⟩ := ih (by omega) wake.1 wake.2 hfault
      refine ⟨?_, ?_⟩
      · have hadv : ((copyLoop killed copies target n s).cons.r - s.r).toNat =
            (copyLoop killed copies target n s).bytes.length := by
          rw [hsleep hasleep, toNat_advance _ (by omega)]
        simp only [List.length_append, Copying.call, hadv, hremoved]
        omega
      · simp only [List.length_append, hvalue, Copying.call]
        omega
    · rename_i hawake
      rw [if_neg hawake]
      exact hstretch n hn killed s hfault

/-- **A fault loses input.**  Whatever the console, however often the call sleeps, and wherever
    `either_copyout` fails: the call removes exactly one byte more than it delivers and counts,
    so that no later read receives that byte. -/
theorem fault_loses_input (copies : Nat → Bool) (n : Nat) (hn : n < 2 ^ 31)
    (wakes : List (Bool × Cons)) (killed : Bool) (s : Cons)
    (hfault : (consoleread copies n wakes n killed s).stop = .fault) :
    (consoleread copies n wakes n killed s).removed =
        (consoleread copies n wakes n killed s).bytes.length + 1 ∧
      (consoleread copies n wakes n killed s).value =
        (consoleread copies n wakes n killed s).bytes.length ∧
      ¬ (consoleread copies n wakes n killed s).KeepsInput := by
  obtain ⟨hremoved, hvalue⟩ := consoleread_fault copies hn (Nat.le_refl n) wakes killed s hfault
  refine ⟨hremoved, ?_, fun hkeeps => ?_⟩
  · rw [hvalue, Nat.sub_self]
    simp
  · exact absurd hkeeps.1 (by omega)

/-- A console on which a line with the letter `a` has been typed. -/
def typedA : Cons :=
  consoleintr newline (consoleintr 97 ⟨fun _ => 0, 0, 0, 0⟩)

theorem fault_loses_input_typedA :
    (consoleread (fun _ => false) 1 [] 1 false typedA).removed = 1 ∧
      ¬ (consoleread (fun _ => false) 1 [] 1 false typedA).KeepsInput :=
  have hlost := fault_loses_input (fun _ => false) 1 (by decide) [] false typedA (by decide)
  ⟨by decide, hlost.2.2⟩

/-- A read to a bad address returns 0, and the read that follows it, to a good one, gets only the
    end of the line. -/
theorem fault_takes_letter :
    let call := consoleread (fun _ => false) 1 [] 1 false typedA
    call.stop = .fault ∧ call.value = 0 ∧ ¬ call.KeepsInput ∧
      (consoleread (fun _ => true) 10 [] 10 false call.cons).bytes = [newline] ∧
      (consoleread (fun _ => true) 10 [] 10 false typedA).bytes = [97, newline] := by
  decide

end Xv6.Console
