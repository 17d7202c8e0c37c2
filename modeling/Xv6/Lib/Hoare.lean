import Mathlib.Logic.Basic

/-!
# Programs over a state that may fail, and their weakest preconditions

A program reads and writes a state, returns a value or fails for good with an error.
`wp c E Q s` says that `c` run from `s` either returns and establishes `Q`, or fails with
an error in `E`; with `E` false it is total correctness.  The rules below follow the
program text; loops have an invariant, and an unbounded loop a measure as well, so that
its fuel is shown to suffice.
-/

namespace Hoare

/-- A program over states `σ` that may fail with an error in `ε`. -/
def Prog (ε σ α : Type) : Type := σ → Except ε (α × σ)

variable {ε σ τ α β γ : Type}

instance : Monad (Prog ε σ) where
  pure a := fun s => .ok (a, s)
  bind c f := fun s => match c s with
    | .ok (a, s') => f a s'
    | .error e => .error e

def get : Prog ε σ σ := fun s => .ok (s, s)

def modify (f : σ → σ) : Prog ε σ Unit := fun s => .ok ((), f s)

def fail (e : ε) : Prog ε σ α := fun _ => .error e

/-- `if (c) a;` -/
def when (c : Prop) [Decidable c] (a : Prog ε σ Unit) : Prog ε σ Unit := if c then a else pure ()

/-- A program on one component of a larger state, its errors being some of the larger one's. -/
def zoom {ε' : Type} (proj : τ → σ) (put : σ → τ → τ) (err : ε → ε') (c : Prog ε σ α) :
    Prog ε' τ α := fun t =>
  match c (proj t) with
  | .ok (a, s) => .ok (a, put s t)
  | .error e => .error (err e)

/-- `for (i = start; i < start + n; i++)` over a body that does not leave the loop. -/
def forRange (body : Nat → Prog ε σ Unit) : Nat → Nat → Prog ε σ Unit
  | _, 0 => pure ()
  | i, n + 1 => do
    body i
    forRange body (i + 1) n

/-- `for (i = start; i < start + n; i++)` over a body that may leave it with a result. -/
def findFirst (body : Nat → Prog ε σ (Option β)) : Nat → Nat → Prog ε σ (Option β)
  | _, 0 => pure none
  | i, n + 1 => do
    match ← body i with
    | some b => pure (some b)
    | none => findFirst body (i + 1) n

/-- A loop over variables of type `β`, whose body says whether to go on. -/
def loop (body : β → Prog ε σ (β × Bool)) : Nat → β → Prog ε σ β
  | 0, b => pure b
  | fuel + 1, b => do
    let (b', again) ← body b
    if again then loop body fuel b' else pure b'

/-- If `c` runs from `s`, it returns and establishes `Q`, or fails with an error in `E`. -/
def wp (c : Prog ε σ α) (E : ε → Prop) (Q : α → σ → Prop) (s : σ) : Prop :=
  match c s with
  | .ok (a, s') => Q a s'
  | .error e => E e

section Rules

variable {E : ε → Prop} {Q : α → σ → Prop} {s : σ}

@[simp] theorem wp_pure (a : α) : wp (pure a : Prog ε σ α) E Q s ↔ Q a s := Iff.rfl

@[simp] theorem wp_bind (c : Prog ε σ β) (f : β → Prog ε σ α) :
    wp (c >>= f) E Q s ↔ wp c E (fun b s' => wp (f b) E Q s') s := by
  simp only [wp, bind]
  cases c s <;> rfl

@[simp] theorem wp_get {Q : σ → σ → Prop} : wp (get : Prog ε σ σ) E Q s ↔ Q s s := Iff.rfl

@[simp] theorem wp_modify {Q : Unit → σ → Prop} (f : σ → σ) :
    wp (modify f : Prog ε σ Unit) E Q s ↔ Q () (f s) := Iff.rfl

@[simp] theorem wp_fail (e : ε) : wp (fail e : Prog ε σ α) E Q s ↔ E e := Iff.rfl

/-- Consequence: a specification is used where something weaker is asked for. -/
theorem wp_mono {c : Prog ε σ α} {Q' : α → σ → Prop} (h : wp c E Q s)
    (hQ : ∀ a s', Q a s' → Q' a s') : wp c E Q' s := by
  unfold wp at h ⊢
  cases hc : c s with
  | ok r => rw [hc] at h; exact hQ r.1 r.2 h
  | error e => rw [hc] at h; exact h

theorem wp_mono_error {c : Prog ε σ α} {E' : ε → Prop} (h : wp c E Q s) (hE : ∀ e, E e → E' e) :
    wp c E' Q s := by
  unfold wp at h ⊢
  cases hc : c s with
  | ok r => rw [hc] at h; exact h
  | error e => rw [hc] at h; exact hE e h

theorem wp_and {c : Prog ε σ α} {Q' : α → σ → Prop} (h : wp c E Q s) (h' : wp c E Q' s) :
    wp c E (fun a s' => Q a s' ∧ Q' a s') s := by
  unfold wp at h h' ⊢
  cases hc : c s with
  | ok r => rw [hc] at h h'; exact ⟨h, h'⟩
  | error e => rw [hc] at h; exact h

theorem wp_ite {c : Prop} [Decidable c] {a b : Prog ε σ α} :
    wp (if c then a else b) E Q s ↔ (c → wp a E Q s) ∧ (¬ c → wp b E Q s) := by
  split <;> simp_all

@[simp] theorem wp_when {c : Prop} [Decidable c] {a : Prog ε σ Unit} {Q : Unit → σ → Prop} :
    wp (when c a) E Q s ↔ (c → wp a E Q s) ∧ (¬ c → Q () s) := by
  unfold when
  split <;> simp_all

theorem wp_zoom {ε' : Type} {proj : τ → σ} {put : σ → τ → τ} {err : ε → ε'} {c : Prog ε σ α}
    {E' : ε' → Prop} {Q : α → τ → Prop} {t : τ} :
    wp (zoom proj put err c) E' Q t ↔
      wp c (fun e => E' (err e)) (fun a s' => Q a (put s' t)) (proj t) := by
  simp only [wp, zoom]
  cases c (proj t) <;> rfl

theorem wp_any {c : Prog ε σ α} (hE : ∀ e, E e) : wp c E (fun _ _ => True) s := by
  unfold wp
  split
  · trivial
  · exact hE _

theorem wp_ok {c : Prog ε σ α} (h : wp c E Q s) {a : α} {s' : σ} (hc : c s = .ok (a, s')) :
    Q a s' := by
  unfold wp at h
  rwa [hc] at h

theorem wp_of_run {c : Prog ε σ α} {a : α} {s' : σ} (hc : c s = .ok (a, s')) (h : Q a s') :
    wp c E Q s := by
  unfold wp
  rwa [hc]

theorem wp_run {c : Prog ε σ α} (h : wp c E Q s) :
    wp c E (fun a s' => c s = .ok (a, s') ∧ Q a s') s := by
  unfold wp at h ⊢
  split at h
  · exact ⟨by assumption, h⟩
  · exact h

theorem bind_ok {c : Prog ε σ β} {f : β → Prog ε σ α} {b : β} {s' : σ} (hc : c s = .ok (b, s')) :
    (c >>= f) s = f b s' := by
  show (match c s with | .ok (b, s') => f b s' | .error e => .error e) = _
  rw [hc]

theorem wp_error {c : Prog ε σ α} (h : wp c E Q s) {e : ε} (hc : c s = .error e) : E e := by
  unfold wp at h
  rwa [hc] at h

/-- The error with which a program stops. -/
def stop? (c : Prog ε σ α) (s : σ) : Option ε :=
  match c s with
  | .ok _ => none
  | .error e => some e

theorem stop?_eq_some {c : Prog ε σ α} {e : ε} : stop? c s = some e ↔ c s = .error e := by
  unfold stop?
  cases c s <;> simp

theorem wp_total {c : Prog ε σ α} (h : wp c (fun _ => False) Q s) :
    ∃ a s', c s = .ok (a, s') ∧ Q a s' := by
  unfold wp at h
  cases hc : c s with
  | ok r => rw [hc] at h; exact ⟨r.1, r.2, rfl, h⟩
  | error e => rw [hc] at h; exact h.elim

theorem wp_fails {c : Prog ε σ α} (h : wp c E (fun _ _ => False) s) : ∃ e, c s = .error e ∧ E e := by
  unfold wp at h
  cases hc : c s with
  | ok r => rw [hc] at h; exact h.elim
  | error e => rw [hc] at h; exact ⟨e, rfl, h⟩

/-- **Loop rule**, for a loop that runs to its bound. -/
theorem wp_forRange {body : Nat → Prog ε σ Unit} {I : Nat → σ → Prop} {Q : Unit → σ → Prop}
    (n : Nat) {i : Nat} (hs : I i s)
    (hbody : ∀ j s, i ≤ j → j < i + n → I j s → wp (body j) E (fun _ s' => I (j + 1) s') s)
    (hend : ∀ s, I (i + n) s → Q () s) : wp (forRange body i n) E Q s := by
  induction n generalizing i s with
  | zero => exact hend s hs
  | succ n ih =>
    rw [forRange, wp_bind]
    refine wp_mono (hbody i s (by omega) (by omega) hs) fun _ s' hs' => ?_
    refine ih hs' (fun j t hj hlt => hbody j t (by omega) (by omega)) fun t ht => hend t ?_
    have hsum : i + 1 + n = i + (n + 1) := by omega
    rwa [hsum] at ht

/-- **Loop rule**, for a loop that may end early with a result. -/
theorem wp_findFirst {body : Nat → Prog ε σ (Option β)} {I : Nat → σ → Prop}
    {Q : Option β → σ → Prop} (n : Nat) {i : Nat} (hs : I i s)
    (hbody : ∀ j s, i ≤ j → j < i + n → I j s →
      wp (body j) E (fun r s' => match r with
        | some b => Q (some b) s'
        | none => I (j + 1) s') s)
    (hend : ∀ s, I (i + n) s → Q none s) : wp (findFirst body i n) E Q s := by
  induction n generalizing i s with
  | zero => exact hend s hs
  | succ n ih =>
    rw [findFirst, wp_bind]
    refine wp_mono (hbody i s (by omega) (by omega) hs) fun r s' hr => ?_
    cases r with
    | some b => exact hr
    | none =>
      refine ih hr (fun j t hj hlt => hbody j t (by omega) (by omega)) fun t ht => hend t ?_
      have hsum : i + 1 + n = i + (n + 1) := by omega
      rwa [hsum] at ht

/-- **Loop rule**, for a loop with a condition of its own: the measure falls with every
    iteration that goes on, so the fuel lasts. -/
theorem wp_loop {body : β → Prog ε σ (β × Bool)} {I : β → σ → Prop} {Q : β → σ → Prop}
    (μ : β → Nat) {fuel : Nat} {b : β} (hs : I b s) (hfuel : μ b < fuel)
    (hbody : ∀ b s, I b s → wp (body b) E (fun r s' =>
      (r.2 = true → I r.1 s' ∧ μ r.1 < μ b) ∧ (r.2 = false → Q r.1 s')) s) :
    wp (loop body fuel b) E Q s := by
  induction fuel generalizing b s with
  | zero => omega
  | succ fuel ih =>
    rw [loop, wp_bind]
    refine wp_mono (hbody b s hs) fun r s' hr => ?_
    obtain ⟨b', again⟩ := r
    cases again with
    | true =>
      obtain ⟨hI, hlt⟩ := hr.1 rfl
      exact ih hI (by dsimp only at hlt; omega)
    | false => exact hr.2 rfl

/-! ### Loops that end -/

/-- The loop ends by a condition of its own, or stops with an error, within `fuel` rounds. -/
def Ends (body : β → Prog ε σ (β × Bool)) : Nat → β → σ → Prop
  | 0, _, _ => False
  | fuel + 1, b, s =>
    match body b s with
    | .error _ => True
    | .ok (r, s') => r.2 = true → Ends body fuel r.1 s'

/-- The measure falls with every round that goes on. -/
def Decreases (body : β → Prog ε σ (β × Bool)) (μ : β → Nat) : Prop :=
  ∀ b s, wp (body b) (fun _ => True) (fun r _ => r.2 = true → μ r.1 < μ b) s

theorem Decreases.ends {body : β → Prog ε σ (β × Bool)} {μ : β → Nat} (h : Decreases body μ)
    {fuel : Nat} {b : β} (hfuel : μ b < fuel) : Ends body fuel b s := by
  induction fuel generalizing b s with
  | zero => omega
  | succ fuel ih =>
    have hround := h b s
    unfold wp at hround
    unfold Ends
    split
    · trivial
    · rename_i r s' hok
      rw [hok] at hround
      intro hagain
      have hlt : μ r.1 < μ b := hround hagain
      exact ih (by omega)

/-- **Loop rule** for a loop whose measure is known to fall. -/
theorem Decreases.wp_loop {body : β → Prog ε σ (β × Bool)} {μ : β → Nat} (h : Decreases body μ)
    {I : β → σ → Prop} {Q : β → σ → Prop} {fuel : Nat} {b : β} (hs : I b s) (hfuel : μ b < fuel)
    (hbody : ∀ b s, I b s → wp (body b) E (fun r s' =>
      (r.2 = true → I r.1 s') ∧ (r.2 = false → Q r.1 s')) s) :
    wp (loop body fuel b) E Q s := by
  refine Hoare.wp_loop μ hs hfuel fun b s hI => ?_
  have hround := hbody b s hI
  have hlt := h b s
  unfold wp at hround hlt ⊢
  cases hok : body b s with
  | error e =>
    rw [hok] at hround
    exact hround
  | ok r =>
    rw [hok] at hround hlt
    exact ⟨fun hagain => ⟨hround.1 hagain, hlt hagain⟩, hround.2⟩

end Rules

end Hoare
