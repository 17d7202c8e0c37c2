import Mathlib.Logic.Basic

/-!
# Transition systems whose steps may block or fail

A step either happens, has to wait, or fails for good with an error.  `Reachable`
collects the states that runs of such steps reach, under a side condition on each
step taken, and `Reachable.invariant` is the one induction behind every safety
proof over runs.
-/

namespace Transition

inductive Outcome (ε σ : Type) where
  | done (s : σ)
  | blocked
  | fail (e : ε)
deriving DecidableEq, Repr

variable {ε σ A : Type}

/-- The state a step leads to, if it happens. -/
def Outcome.state? : Outcome ε σ → Option σ
  | .done s => some s
  | _ => none

@[simp] theorem Outcome.state?_eq_some {o : Outcome ε σ} {s : σ} :
    o.state? = some s ↔ o = .done s := by
  cases o <;> simp [Outcome.state?]

/-- A sequence of steps waits or fails where its first step to do so does. -/
instance : Monad (Outcome ε) where
  pure := .done
  bind o f := match o with
    | .done s => f s
    | .blocked => .blocked
    | .fail e => .fail e

@[simp] theorem Outcome.pure_eq_done (s : σ) : (pure s : Outcome ε σ) = .done s := rfl

@[simp] theorem Outcome.done_bind {τ : Type} (s : σ) (f : σ → Outcome ε τ) :
    (Outcome.done s >>= f) = f s := rfl

@[simp] theorem Outcome.fail_bind {τ : Type} (e : ε) (f : σ → Outcome ε τ) :
    (Outcome.fail e >>= f) = .fail e := rfl

theorem Outcome.bind_eq_done {τ : Type} {o : Outcome ε σ} {f : σ → Outcome ε τ} {t : τ} :
    (o >>= f) = .done t ↔ ∃ s, o = .done s ∧ f s = .done t := by
  cases o with
  | done s => simp
  | blocked =>
    constructor
    · intro h
      cases h
    · rintro ⟨s, h, _⟩
      cases h
  | fail e => simp

theorem Outcome.fail_of_bind {τ : Type} {o : Outcome ε σ} {f : σ → τ} {e : ε}
    (h : (o >>= fun s => .done (f s)) = .fail e) : o = .fail e := by
  cases o with
  | done s => cases h
  | blocked => cases h
  | fail e' => exact congrArg Outcome.fail (Outcome.fail.inj h)

theorem Outcome.blocked_of_bind {τ : Type} {o : Outcome ε σ} {f : σ → τ}
    (h : (o >>= fun s => .done (f s)) = .blocked) : o = .blocked := by
  cases o with
  | done s => cases h
  | blocked => rfl
  | fail e => cases h

/-- A step of a component, whose failures are failures of the whole. -/
def Outcome.mapFail {ε' : Type} (f : ε → ε') : Outcome ε σ → Outcome ε' σ
  | .done s => .done s
  | .blocked => .blocked
  | .fail e => .fail (f e)

@[simp] theorem Outcome.mapFail_eq_done {ε' : Type} {f : ε → ε'} {o : Outcome ε σ} {s : σ} :
    o.mapFail f = .done s ↔ o = .done s := by
  cases o <;> simp [Outcome.mapFail]

/-- `for (i = 0; i < n; i++)`. -/
def Outcome.forRange (body : Nat → σ → Outcome ε σ) : Nat → σ → Outcome ε σ
  | 0, s => .done s
  | n + 1, s => Outcome.forRange body n s >>= body n

section ForRange

variable {body : Nat → σ → Outcome ε σ} {I : Nat → σ → Prop} {n : Nat} {s : σ}

/-- **Loop rule.**  What every iteration that happens keeps holds when the loop is over. -/
theorem Outcome.forRange_done (hbody : ∀ t < n, ∀ s s', I t s → body t s = .done s' → I (t + 1) s')
    (hs : I 0 s) {s' : σ} (h : Outcome.forRange body n s = .done s') : I n s' := by
  induction n generalizing s' with
  | zero => exact Outcome.done.inj h ▸ hs
  | succ n ih =>
    obtain ⟨u, hu, hlast⟩ := Outcome.bind_eq_done.mp h
    have hI := ih (fun t ht => hbody t (by omega)) hu
    exact hbody n (by omega) u s' hI hlast

theorem Outcome.forRange_returns
    (hbody : ∀ t < n, ∀ s, I t s → ∃ s', body t s = .done s' ∧ I (t + 1) s') (hs : I 0 s) :
    ∃ s', Outcome.forRange body n s = .done s' ∧ I n s' := by
  induction n with
  | zero => exact ⟨s, rfl, hs⟩
  | succ n ih =>
    obtain ⟨u, hu, hI⟩ := ih fun t ht => hbody t (by omega)
    obtain ⟨s', hlast, hI'⟩ := hbody n (by omega) u hI
    exact ⟨s', by rw [Outcome.forRange, hu, Outcome.done_bind, hlast], hI'⟩

theorem Outcome.forRange_fail {e : ε} (hn : 0 < n) (h : body 0 s = .fail e) :
    Outcome.forRange body n s = .fail e := by
  obtain ⟨m, rfl⟩ : ∃ m, n = m + 1 := ⟨n - 1, by omega⟩
  clear hn
  induction m with
  | zero => exact h
  | succ m ih => rw [Outcome.forRange, ih, Outcome.fail_bind]

end ForRange

section Runs

variable (init : σ) (step : σ → A → Outcome ε σ) (allowed : σ → A → Prop)

/-- The states that runs of allowed steps reach from `init`. -/
inductive Reachable : σ → Prop where
  | init : Reachable init
  | step {s s' : σ} {a : A} (before : Reachable s) (ok : allowed s a)
      (taken : step s a = .done s') : Reachable s'

variable {init step allowed}

/-- **Invariant rule.**  What holds initially and is kept by every allowed step from a
    reachable state holds in every reachable state. -/
theorem Reachable.invariant {I : σ → Prop} (hinit : I init)
    (hstep : ∀ {s s' a}, Reachable init step allowed s → I s → allowed s a →
      step s a = .done s' → I s')
    {s : σ} (h : Reachable init step allowed s) : I s := by
  induction h with
  | init => exact hinit
  | step before ok taken ih => exact hstep before ih ok taken

theorem Reachable.mono {allowed' : σ → A → Prop} (hle : ∀ s a, allowed s a → allowed' s a)
    {s : σ} (h : Reachable init step allowed s) : Reachable init step allowed' s := by
  induction h with
  | init => exact .init
  | step _ ok taken ih => exact .step ih (hle _ _ ok) taken

end Runs

/-- Take the steps of a list in order, checking the side condition of each. -/
def run (step : σ → A → Outcome ε σ) (allowed : σ → A → Bool) : σ → List A → Option σ
  | s, [] => some s
  | s, a :: as =>
    if allowed s a then (step s a).state?.bind fun s' => run step allowed s' as else none

theorem reachable_of_run {init : σ} {step : σ → A → Outcome ε σ} {allowed : σ → A → Bool}
    {s s' : σ} (hs : Reachable init step (fun s a => allowed s a = true) s) {as : List A}
    (h : run step allowed s as = some s') :
    Reachable init step (fun s a => allowed s a = true) s' := by
  induction as generalizing s with
  | nil => exact Option.some.inj h ▸ hs
  | cons a as ih =>
    rw [run] at h
    split at h
    · rename_i hok
      obtain ⟨t, ht, hrest⟩ := Option.bind_eq_some_iff.mp h
      exact ih (.step hs hok (Outcome.state?_eq_some.mp ht)) hrest
    · exact absurd h (by simp)

/-- The state at the end of a list of steps from `init`, if they can all be taken. -/
def finalState (step : σ → A → Outcome ε σ) (allowed : σ → A → Bool) (init : σ)
    (as : List A) : σ :=
  (run step allowed init as).getD init

theorem reachable_finalState_from {init : σ} {step : σ → A → Outcome ε σ}
    {allowed : σ → A → Bool} {s : σ} (hs : Reachable init step (fun s a => allowed s a = true) s)
    {as : List A} (h : (run step allowed s as).isSome = true) :
    Reachable init step (fun s a => allowed s a = true) (finalState step allowed s as) := by
  obtain ⟨s', hs'⟩ := Option.isSome_iff_exists.mp h
  have hfinal : finalState step allowed s as = s' := by rw [finalState, hs']; rfl
  rw [hfinal]
  exact reachable_of_run hs hs'

theorem reachable_finalState {init : σ} {step : σ → A → Outcome ε σ} {allowed : σ → A → Bool}
    {as : List A} (h : (run step allowed init as).isSome = true) :
    Reachable init step (fun s a => allowed s a = true) (finalState step allowed init as) :=
  reachable_finalState_from .init h

end Transition
