import Xv6.Lib.Hoare
import Mathlib.Order.Defs.Unbundled

/-!
# What a program leaves alone

`Within E R c` says that `c` stops with an error in `E`, or returns and leaves a state that is
related by `R` to the state it found.  For a preorder `R` the rules follow the program text: what
every part of a program leaves alone, the whole program leaves alone.
-/

namespace Hoare

variable {ε σ α β : Type}

/-- From any state `c` goes to one that is related to it, or stops with an error in `E`. -/
def Within (E : ε → Prop) (R : σ → σ → Prop) (c : Prog ε σ α) : Prop :=
  ∀ s, wp c E (fun _ s' => R s s') s

section Rules

variable {E : ε → Prop} {R : σ → σ → Prop}

theorem Within.fail {e : ε} (h : E e) : Within E R (fail e : Prog ε σ α) := fun _ => h

theorem Within.modify {f : σ → σ} (h : ∀ s, R s (f s)) : Within E R (modify f : Prog ε σ Unit) := h

theorem Within.ite {p : Prop} [Decidable p] {a b : Prog ε σ α} (ha : Within E R a)
    (hb : Within E R b) : Within E R (if p then a else b) := by
  split
  · exact ha
  · exact hb

variable [IsPreorder σ R]

theorem Within.pure (a : α) : Within E R (pure a : Prog ε σ α) := fun s => refl_of R s

theorem Within.get : Within E R (get : Prog ε σ σ) := fun s => refl_of R s

theorem Within.bind {c : Prog ε σ β} {f : β → Prog ε σ α} (hc : Within E R c)
    (hf : ∀ b, Within E R (f b)) : Within E R (c >>= f) := by
  intro s
  rw [wp_bind]
  exact wp_mono (hc s) fun b t ht => wp_mono (hf b t) fun _ _ hu => trans_of R ht hu

theorem Within.when {p : Prop} [Decidable p] {a : Prog ε σ Unit} (ha : Within E R a) :
    Within E R (when p a) :=
  Within.ite ha (Within.pure ())

theorem Within.forRange {body : Nat → Prog ε σ Unit} (h : ∀ i, Within E R (body i)) (i n : Nat) :
    Within E R (forRange body i n) := fun s =>
  wp_forRange (I := fun _ t => R s t) n (refl_of R s)
    (fun j t _ _ ht => wp_mono (h j t) fun _ _ hu => trans_of R ht hu) fun _ ht => ht

theorem Within.findFirst {body : Nat → Prog ε σ (Option β)} (h : ∀ i, Within E R (body i))
    (i n : Nat) : Within E R (findFirst body i n) := fun s =>
  wp_findFirst (I := fun _ t => R s t) n (refl_of R s)
    (fun j t _ _ ht => wp_mono (h j t) fun r _ hu => by
      have htu := trans_of R ht hu
      cases r <;> exact htu) fun _ ht => ht

theorem Within.loop {body : β → Prog ε σ (β × Bool)} (h : ∀ b, Within E R (body b)) (fuel : Nat)
    (b : β) : Within E R (loop body fuel b) := by
  induction fuel generalizing b with
  | zero => exact Within.pure b
  | succ fuel ih => exact Within.bind (h b) fun r => Within.ite (ih r.1) (Within.pure r.1)

end Rules

theorem wp_loop_keep {E : ε → Prop} {body : β → Prog ε σ (β × Bool)} {I : σ → Prop}
    (hbody : ∀ b s, I s → wp (body b) E (fun _ => I) s) (fuel : Nat) (b : β) {s : σ} (h : I s) :
    wp (loop body fuel b) E (fun _ => I) s := by
  induction fuel generalizing b s with
  | zero => exact h
  | succ fuel ih =>
    rw [loop, wp_bind]
    refine wp_mono (hbody b s h) fun r t ht => ?_
    obtain ⟨b', again⟩ := r
    cases again with
    | true => exact ih b' ht
    | false => exact ht

end Hoare
