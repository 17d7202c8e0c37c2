import Mathlib.Data.Option.Basic

/-!
# Trees of pointers in memory

A node is an address, and `child a i` is the address that entry `i` of the node at `a`
holds, if any.  A path is a list of indices with the last one first, so that the entries of
the node at `p` lead to the paths `i :: p`.  The lemmas say how the nodes move when the
memory changes: not at all where no node of the tree is written, and by one new node where
an empty entry is filled with a node that has no children.
-/

namespace PtrTree

variable {A I : Type} {child child' : A → I → Option A} {r : Option A}

/-- The node at the end of a path from the root `r`. -/
def node (child : A → I → Option A) (r : Option A) : List I → Option A
  | [] => r
  | i :: p => (node child r p).bind fun a => child a i

theorem node_cons {i : I} {p : List I} {a : A} (h : node child r p = some a) :
    node child r (i :: p) = child a i := by
  rw [node, h, Option.bind_some]

theorem node_cons_eq_some {i : I} {p : List I} {b : A} :
    node child r (i :: p) = some b ↔ ∃ a, node child r p = some a ∧ child a i = some b :=
  Option.bind_eq_some_iff

theorem node_root_none (p : List I) : node child none p = none := by
  induction p with
  | nil => rfl
  | cons i p ih => rw [node, ih, Option.bind_none]

theorem node_none_of_suffix {p q : List I} (hp : node child r p = none) (hq : p <:+ q) :
    node child r q = none := by
  obtain ⟨t, rfl⟩ := hq
  induction t with
  | nil => exact hp
  | cons i t ih => rw [List.cons_append, node, ih, Option.bind_none]

theorem node_congr {n : Nat}
    (h : ∀ q a i, q.length < n → node child r q = some a → child' a i = child a i)
    {p : List I} (hp : p.length ≤ n) : node child' r p = node child r p := by
  induction p with
  | nil => rfl
  | cons i q ih =>
    have hq : q.length < n := hp
    simp only [node, ih (Nat.le_of_lt hq)]
    cases hnode : node child r q with
    | none => rfl
    | some a => exact h q a i hq hnode

/-- **Grafting.**  A node `c` without children goes into the empty entry `i₀` of the node at
    `p₀`, which is at no other place of the tree. -/
theorem node_graft [DecidableEq I] {n : Nat} {p₀ : List I} {a₀ c : A} {i₀ : I}
    (hp₀ : node child r p₀ = some a₀)
    (hunique : ∀ q, q.length < n → node child r q = some a₀ → q = p₀)
    (hsame : ∀ q a i, q.length < n → node child r q = some a → ¬ (a = a₀ ∧ i = i₀) →
      child' a i = child a i)
    (hnone : child a₀ i₀ = none) (hnew : child' a₀ i₀ = some c) (hempty : ∀ i, child' c i = none)
    {p : List I} (hp : p.length ≤ n) :
    node child' r p = if p = i₀ :: p₀ then some c else node child r p := by
  induction p with
  | nil => rfl
  | cons i q ih =>
    have hq : q.length < n := hp
    simp only [node, ih (Nat.le_of_lt hq)]
    by_cases hhere : q = i₀ :: p₀
    · -- below the new node there is nothing, as there was nothing before
      subst hhere
      have hne : ¬ i :: i₀ :: p₀ = i₀ :: p₀ := fun heq => by simpa using congrArg List.length heq
      simp only [if_true, Option.bind_some, hempty, if_neg hne, node, hp₀, hnone, Option.bind_none]
    · rw [if_neg hhere]
      cases hnode : node child r q with
      | none =>
        have hne : ¬ i :: q = i₀ :: p₀ := by
          intro heq
          obtain ⟨-, rfl⟩ := List.cons.inj heq
          rw [hnode] at hp₀
          cases hp₀
        rw [if_neg hne]
        rfl
      | some a =>
        by_cases hentry : a = a₀ ∧ i = i₀
        · obtain ⟨rfl, rfl⟩ := hentry
          rw [hunique q hq hnode, if_pos rfl, Option.bind_some, hnew]
        · have hne : ¬ i :: q = i₀ :: p₀ := by
            intro heq
            obtain ⟨rfl, rfl⟩ := List.cons.inj heq
            rw [hnode] at hp₀
            exact hentry ⟨Option.some.inj hp₀, rfl⟩
          rw [if_neg hne, Option.bind_some, Option.bind_some, hsame q a i hq hnode hentry]

end PtrTree
