import Mathlib.Logic.Function.Basic

/-!
# Programs over a store that may stop between two writes

A program reads a store, returns a value and leaves an ordered list of atomic
writes.  Stopping it after any number of these writes gives its crash states.
The rules below compute the crash states of a sequence and of a counted loop, so
that a proof about every stopping point needs one step lemma for the loop body.
-/

namespace StoreProg

open Function

variable {K V : Type} [DecidableEq K] {α β : Type}

/-- Perform writes in order. -/
def apply : List (K × V) → (K → V) → K → V
  | [], s => s
  | (k, v) :: ws, s => apply ws (update s k v)

@[simp] theorem apply_nil (s : K → V) : apply [] s = s := rfl

@[simp] theorem apply_cons (k : K) (v : V) (ws : List (K × V)) (s : K → V) :
    apply ((k, v) :: ws) s = apply ws (update s k v) := rfl

theorem apply_append (ws vs : List (K × V)) (s : K → V) :
    apply (ws ++ vs) s = apply vs (apply ws s) := by
  induction ws generalizing s with
  | nil => rfl
  | cons w ws ih => exact ih (update s w.1 w.2)

/-- A program: what it returns and the writes it makes, from the store it starts in. -/
def Prog (K V α : Type) : Type := (K → V) → α × List (K × V)

/-- What `p` returns when it starts in `s`. -/
def Prog.value (p : Prog K V α) (s : K → V) : α := (p s).1

/-- The writes of `p` when it starts in `s`, oldest first. -/
def Prog.writes (p : Prog K V α) (s : K → V) : List (K × V) := (p s).2

/-- The store after all writes of `p`. -/
def Prog.exec (p : Prog K V α) (s : K → V) : K → V := apply (p.writes s) s

/-- The store when `p` stops after its first `n` writes. -/
def Prog.stopAfter (p : Prog K V α) (n : Nat) (s : K → V) : K → V :=
  apply ((p.writes s).take n) s

/-- `s'` is a store that `p` can leave behind when it stops at any point. -/
def Prog.Crash (p : Prog K V α) (s s' : K → V) : Prop := ∃ n, s' = p.stopAfter n s

instance : Monad (Prog K V) where
  pure a := fun _ => (a, [])
  bind p f := fun s => ((f (p.value s)).value (p.exec s),
    p.writes s ++ (f (p.value s)).writes (p.exec s))

def read (k : K) : Prog K V V := fun s => (s k, [])

def write (k : K) (v : V) : Prog K V Unit := fun _ => ((), [(k, v)])

/-- The counted loop `for (i = 0; i < n; i++) body(i)`. -/
def forRange (body : Nat → Prog K V Unit) : Nat → Prog K V Unit
  | 0 => pure ()
  | n + 1 => do forRange body n; body n

section Laws

variable (p : Prog K V α) (f : α → Prog K V β) (s : K → V)

@[simp] theorem writes_pure (a : α) : (pure a : Prog K V α).writes s = [] := rfl
@[simp] theorem exec_pure (a : α) : (pure a : Prog K V α).exec s = s := rfl
omit [DecidableEq K] in
@[simp] theorem writes_read (k : K) : (read k : Prog K V V).writes s = [] := rfl
omit [DecidableEq K] in
@[simp] theorem value_read (k : K) : (read k : Prog K V V).value s = s k := rfl
@[simp] theorem exec_read (k : K) : (read k : Prog K V V).exec s = s := rfl
omit [DecidableEq K] in
@[simp] theorem writes_write (k : K) (v : V) :
    (write k v : Prog K V Unit).writes s = [(k, v)] := rfl
@[simp] theorem exec_write (k : K) (v : V) :
    (write k v : Prog K V Unit).exec s = update s k v := rfl

@[simp] theorem writes_bind :
    (p >>= f).writes s = p.writes s ++ (f (p.value s)).writes (p.exec s) := rfl

@[simp] theorem exec_bind : (p >>= f).exec s = (f (p.value s)).exec (p.exec s) := by
  show apply ((p >>= f).writes s) s = _
  rw [writes_bind, apply_append]
  rfl

theorem exec_eq_stopAfter {n : Nat} (h : (p.writes s).length ≤ n) :
    p.stopAfter n s = p.exec s := by
  rw [Prog.stopAfter, List.take_of_length_le h, Prog.exec]

theorem crash_exec : p.Crash s (p.exec s) :=
  ⟨(p.writes s).length, (exec_eq_stopAfter p s (Nat.le_refl _)).symm⟩

end Laws

theorem stopAfter_bind_of_le (p : Prog K V α) (f : α → Prog K V β) (s : K → V) {n : Nat}
    (h : n ≤ (p.writes s).length) : (p >>= f).stopAfter n s = p.stopAfter n s := by
  rw [Prog.stopAfter, writes_bind, List.take_append_of_le_length h, Prog.stopAfter]

/-- Stopping a sequence in its second part is stopping the second part, started
    where the first one ended. -/
theorem stopAfter_bind_of_ge (p : Prog K V α) (f : α → Prog K V β) (s : K → V) {n : Nat}
    (h : (p.writes s).length ≤ n) :
    (p >>= f).stopAfter n s =
      (f (p.value s)).stopAfter (n - (p.writes s).length) (p.exec s) := by
  rw [Prog.stopAfter, writes_bind, List.take_append, List.take_of_length_le h, apply_append]
  rfl

theorem crash_bind {p : Prog K V α} {f : α → Prog K V β} {s s' : K → V}
    (h : (p >>= f).Crash s s') : p.Crash s s' ∨ (f (p.value s)).Crash (p.exec s) s' := by
  obtain ⟨n, rfl⟩ := h
  rcases Nat.le_total n (p.writes s).length with hle | hge
  · exact Or.inl ⟨n, stopAfter_bind_of_le p f s hle⟩
  · exact Or.inr ⟨_, stopAfter_bind_of_ge p f s hge⟩

theorem crash_read {k : K} {s s' : K → V} (h : (read k : Prog K V V).Crash s s') : s' = s := by
  obtain ⟨n, rfl⟩ := h
  simp [Prog.stopAfter]

theorem crash_pure {a : α} {s s' : K → V} (h : (pure a : Prog K V α).Crash s s') : s' = s := by
  obtain ⟨n, rfl⟩ := h
  simp [Prog.stopAfter]

theorem crash_write {k : K} {v : V} {s s' : K → V}
    (h : (write k v : Prog K V Unit).Crash s s') : s' = s ∨ s' = update s k v := by
  obtain ⟨n, rfl⟩ := h
  cases n with
  | zero => exact Or.inl rfl
  | succ n => exact Or.inr (by simp [Prog.stopAfter])

/-! ### The rule for counted loops -/

/-- **Loop rule, complete run.**  An invariant indexed by the number of finished
    iterations holds at the end of the loop. -/
theorem exec_forRange {body : Nat → Prog K V Unit} {I : Nat → (K → V) → Prop} {n : Nat}
    (hstep : ∀ t < n, ∀ s, I t s → I (t + 1) ((body t).exec s))
    {s : K → V} (hs : I 0 s) : I n ((forRange body n).exec s) := by
  induction n with
  | zero => exact hs
  | succ n ih =>
    rw [forRange, exec_bind]
    exact hstep n (Nat.lt_succ_self n) _ (ih fun t ht => hstep t (Nat.lt_succ_of_lt ht))

/-- **Loop rule, stopped run.**  If a body stopped anywhere leaves the invariant of
    the iteration it is in or of the next one, then a loop stopped anywhere leaves
    the invariant of some iteration. -/
theorem crash_forRange {body : Nat → Prog K V Unit} {I : Nat → (K → V) → Prop} {n : Nat}
    (hcrash : ∀ t < n, ∀ s s', I t s → (body t).Crash s s' → I t s' ∨ I (t + 1) s')
    (hstep : ∀ t < n, ∀ s, I t s → I (t + 1) ((body t).exec s))
    {s s' : K → V} (hs : I 0 s) (h : (forRange body n).Crash s s') : ∃ t ≤ n, I t s' := by
  induction n generalizing s' with
  | zero => exact ⟨0, Nat.le_refl 0, crash_pure h ▸ hs⟩
  | succ n ih =>
    rcases crash_bind h with hpre | hlast
    · obtain ⟨t, ht, hI⟩ := ih (fun t ht => hcrash t (Nat.lt_succ_of_lt ht))
        (fun t ht => hstep t (Nat.lt_succ_of_lt ht)) hpre
      exact ⟨t, Nat.le_succ_of_le ht, hI⟩
    · -- the loop stopped inside its last iteration
      have hbefore : I n ((forRange body n).exec s) :=
        exec_forRange (fun t ht => hstep t (Nat.lt_succ_of_lt ht)) hs
      rcases hcrash n (Nat.lt_succ_self n) _ _ hbefore hlast with hI | hI
      · exact ⟨n, Nat.le_succ n, hI⟩
      · exact ⟨n + 1, Nat.le_refl _, hI⟩

theorem length_writes_forRange {body : Nat → Prog K V Unit} (n : Nat)
    (hbody : ∀ t s, ((body t).writes s).length = 1) (s : K → V) :
    ((forRange body n).writes s).length = n := by
  induction n with
  | zero => rfl
  | succ n ih => rw [forRange, writes_bind, List.length_append, ih, hbody]

end StoreProg
