import Mathlib.Data.List.Nodup

/-!
# Tilings of an interval

A list of intervals of positive length, each with a tag, that follow one another without a gap.
-/

namespace Tiling

structure Tile (κ : Type) where
  start : Nat
  size : Nat
  tag : κ
deriving DecidableEq

variable {κ : Type}

/-- The first number behind a tile. -/
def Tile.stop (t : Tile κ) : Nat := t.start + t.size

/-- The tiles cover the numbers from `a` up to `e`. -/
def Tiles : Nat → List (Tile κ) → Nat → Prop
  | a, [], e => a = e
  | a, t :: ts, e => t.start = a ∧ 0 < t.size ∧ Tiles t.stop ts e

variable {a e : Nat} {t : Tile κ} {ts us : List (Tile κ)}

theorem tiles_append : Tiles a (ts ++ us) e ↔ ∃ m, Tiles a ts m ∧ Tiles m us e := by
  induction ts generalizing a with
  | nil => exact ⟨fun h => ⟨a, rfl, h⟩, fun ⟨m, hm, h⟩ => by rwa [show a = m from hm]⟩
  | cons t ts ih =>
    simp only [List.cons_append, Tiles, ih]
    exact ⟨fun ⟨h₁, h₂, m, h₃, h₄⟩ => ⟨m, ⟨h₁, h₂, h₃⟩, h₄⟩,
      fun ⟨m, ⟨h₁, h₂, h₃⟩, h₄⟩ => ⟨h₁, h₂, m, h₃, h₄⟩⟩

theorem tiles_split : Tiles a (ts ++ t :: us) e ↔
    Tiles a ts t.start ∧ 0 < t.size ∧ Tiles t.stop us e := by
  rw [tiles_append]
  constructor
  · rintro ⟨m, hleft, rfl, hpos, hright⟩
    exact ⟨hleft, hpos, hright⟩
  · rintro ⟨hleft, hpos, hright⟩
    exact ⟨t.start, hleft, rfl, hpos, hright⟩

theorem Tiles.le (h : Tiles a ts e) : a ≤ e := by
  induction ts generalizing a with
  | nil => exact Nat.le_of_eq h
  | cons t ts ih =>
    have := ih h.2.2
    have := h.1
    unfold Tile.stop at *
    omega

theorem Tiles.bounds (h : Tiles a ts e) (ht : t ∈ ts) :
    a ≤ t.start ∧ 0 < t.size ∧ t.stop ≤ e := by
  obtain ⟨us, vs, rfl⟩ := List.append_of_mem ht
  obtain ⟨hleft, hpos, hright⟩ := tiles_split.mp h
  exact ⟨hleft.le, hpos, hright.le⟩

theorem Tiles.sorted (h : Tiles a ts e) : (ts.map Tile.start).Pairwise (· < ·) := by
  induction ts generalizing a with
  | nil => exact List.Pairwise.nil
  | cons t ts ih =>
    refine List.Pairwise.cons (fun x hx => ?_) (ih h.2.2)
    obtain ⟨u, hu, rfl⟩ := List.mem_map.mp hx
    have hle := (h.2.2.bounds hu).1
    have hpos := h.2.1
    unfold Tile.stop at hle
    omega

theorem Tiles.apart (h : Tiles a ts e) {u : Tile κ} (ht : t ∈ ts) (hu : u ∈ ts) (hne : t ≠ u) :
    t.stop ≤ u.start ∨ u.stop ≤ t.start := by
  obtain ⟨vs, ws, rfl⟩ := List.append_of_mem ht
  obtain ⟨hleft, -, hright⟩ := tiles_split.mp h
  rcases List.mem_append.mp hu with hu | hu
  · exact Or.inr (hleft.bounds hu).2.2
  · rcases List.mem_cons.mp hu with rfl | hu
    · exact absurd rfl hne
    · exact Or.inl (hright.bounds hu).1

theorem Tiles.eq_of_start (h : Tiles a ts e) {u : Tile κ} (ht : t ∈ ts) (hu : u ∈ ts)
    (heq : t.start = u.start) : t = u := by
  by_contra hne
  have hpos := (h.bounds ht).2.1
  have hpos' := (h.bounds hu).2.1
  have := h.apart ht hu hne
  unfold Tile.stop at this
  omega

end Tiling
