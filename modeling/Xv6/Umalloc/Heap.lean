import Xv6.Lib.Linked
import Xv6.Lib.Tiling
import Xv6.Umalloc.Model
import Mathlib.Data.List.Chain

/-!
# What the heap is

The memory between the initial break and the current one is a sequence of blocks, and the free
ones among them, with `base`, form the ring that `freep` points into.
-/

namespace Xv6.Umalloc

open Hoare Linked Tiling Function

/-- Who a block belongs to: the free list, a caller of `malloc`, or nobody any more. -/
inductive Kind where
  | free
  | live
  | lost
deriving DecidableEq

abbrev Block := Tile Kind

def frees (bs : List Block) : List Nat := (bs.filter fun b => b.tag = .free).map Tile.start

section Frees

variable {b : Block} {bs cs : List Block} {a : Nat} {lo hi : Nat}

@[simp] theorem frees_nil : frees [] = [] := rfl

theorem frees_append (bs cs : List Block) : frees (bs ++ cs) = frees bs ++ frees cs := by
  unfold frees
  rw [List.filter_append, List.map_append]

theorem frees_cons_free (h : b.tag = .free) : frees (b :: bs) = b.start :: frees bs := by
  unfold frees
  rw [List.filter_cons, if_pos (decide_eq_true h), List.map_cons]

theorem frees_cons_used (h : b.tag ≠ .free) : frees (b :: bs) = frees bs := by
  unfold frees
  rw [List.filter_cons, if_neg (by simpa using h)]

theorem mem_frees : a ∈ frees bs ↔ ∃ b ∈ bs, b.tag = .free ∧ b.start = a := by
  simp only [frees, List.mem_map, List.mem_filter, decide_eq_true_eq, and_assoc]

theorem frees_sorted (h : Tiles lo bs hi) : (frees bs).Pairwise (· < ·) :=
  h.sorted.sublist (List.filter_sublist.map _)

theorem frees_bounds (h : Tiles lo bs hi) (ha : a ∈ frees bs) : lo ≤ a ∧ a < hi := by
  obtain ⟨b, hb, -, rfl⟩ := mem_frees.mp ha
  have := h.bounds hb
  unfold Tile.stop at this
  omega

end Frees

/-- Two free blocks in a row. -/
def Separate (b c : Block) : Prop := ¬ (b.tag = .free ∧ c.tag = .free)

/-- `p->s.ptr` -/
def State.next (s : State) (p : Nat) : Nat := (s.mem p).ptr

def State.setHeader (s : State) (p : Nat) (x : Header) : State :=
  { s with mem := update s.mem p x }

@[simp] theorem State.setHeader_self (s : State) (p : Nat) (x : Header) :
    (s.setHeader p x).mem p = x := update_self ..

theorem State.setHeader_ne (s : State) (x : Header) {p q : Nat} (h : q ≠ p) :
    (s.setHeader p x).mem q = s.mem q := update_of_ne h ..

/-- The most units that a heap can have for the sizes in bytes to be `int`s. -/
def MAXUNITS : Nat := 2 ^ 27

/-- **The state has the blocks `bs`** on its heap, which starts at `lo` and may grow up to
    `limit`. -/
structure Rep (lo limit : Nat) (s : State) (bs : List Block) : Prop where
  pos : base < lo
  tiles : Tiles lo bs s.brk
  small : s.brk ≤ limit
  limit_le : limit ≤ lo + MAXUNITS
  sizes : ∀ b ∈ bs, b.tag ≠ .lost → (s.mem b.start).size = b.size
  base_size : (s.mem base).size = 0
  ring : Path s.next base (frees bs) base
  freep : ∃ f ∈ base :: frees bs, s.freep = some f
  heaptop : bs ≠ [] → s.heaptop = s.brk
  separate : bs.IsChain Separate

section Rep

variable {lo limit : Nat} {s s' : State} {bs : List Block} {b : Block}

theorem Rep.sorted (h : Rep lo limit s bs) : (base :: frees bs).Pairwise (· < ·) :=
  List.Pairwise.cons (fun _ ha => Nat.lt_of_lt_of_le h.pos (frees_bounds h.tiles ha).1)
    (frees_sorted h.tiles)

theorem Rep.nodup (h : Rep lo limit s bs) : (base :: frees bs).Nodup :=
  h.sorted.imp fun hlt => Nat.ne_of_lt hlt

theorem Rep.base_lt (h : Rep lo limit s bs) (hb : b ∈ bs) : base < b.start :=
  Nat.lt_of_lt_of_le h.pos (h.tiles.bounds hb).1

theorem Rep.size_le (h : Rep lo limit s bs) (hb : b ∈ bs) : b.size ≤ MAXUNITS := by
  have hbounds := h.tiles.bounds hb
  have hsmall := h.small
  have hlimit := h.limit_le
  unfold Tile.stop at hbounds
  omega

end Rep

/-! ### The place of a block in the ring -/

section Search

variable {s : State} {bp p : Nat} {xs ys : List Nat} {E : Stop → Prop}

/-- From a node before `bp` the search goes up to the last one. -/
theorem wp_search_up {fuel : Nat} (h : Path s.next p (xs ++ ys) base) (hp : p < bp)
    (hsorted : (p :: xs).Pairwise (· < ·)) (hxs : ∀ x ∈ xs, x < bp) (hys : ∀ y ∈ ys, bp < y)
    (hfuel : xs.length < fuel ∨ E .running) :
    wp (freeSearch bp fuel p) E (fun r s' => s' = s ∧ r = xs.getLastD p) s := by
  induction xs generalizing p fuel with
  | nil =>
    cases fuel with
    | zero => exact hfuel.resolve_left (Nat.not_lt_zero _)
    | succ fuel =>
      simp only [freeSearch, wp_bind, wp_get]
      cases ys with
      | nil =>
        have hnext : (s.mem p).ptr = base := h
        rw [hnext, if_neg (fun hc => Nat.not_lt_zero bp hc.2), if_pos ⟨Nat.zero_le p, Or.inl hp⟩]
        exact ⟨rfl, rfl⟩
      | cons y ys =>
        have hnext : (s.mem p).ptr = y := h.1
        rw [hnext, if_pos ⟨hp, hys y List.mem_cons_self⟩]
        exact ⟨rfl, rfl⟩
  | cons x xs ih =>
    cases fuel with
    | zero => exact hfuel.resolve_left (Nat.not_lt_zero _)
    | succ fuel =>
      have hnext : (s.mem p).ptr = x := h.1
      have hx := hxs x List.mem_cons_self
      have hpx : p < x := (List.pairwise_cons.mp hsorted).1 x List.mem_cons_self
      simp only [freeSearch, wp_bind, wp_get]
      rw [hnext, if_neg (fun hc => by omega), if_neg (fun hc => by omega), List.getLastD_cons]
      exact ih h.2 hx hsorted.of_cons (fun z hz => hxs z (List.mem_cons_of_mem x hz))
        (hfuel.imp_left Nat.lt_of_succ_lt_succ)

/-- From a node behind `bp` the search goes round the end to `base`. -/
theorem wp_search_down {fuel : Nat} {Q : Nat → State → Prop} (h : Path s.next p ys base)
    (hp : bp < p) (hsorted : (p :: ys).Pairwise (· < ·)) (hfuel : ys.length < fuel ∨ E .running)
    (hbase : wp (freeSearch bp (fuel - (ys.length + 1)) base) E Q s) :
    wp (freeSearch bp fuel p) E Q s := by
  induction ys generalizing p fuel with
  | nil =>
    cases fuel with
    | zero => exact hfuel.resolve_left (Nat.not_lt_zero _)
    | succ fuel =>
      have hnext : (s.mem p).ptr = base := h
      simp only [freeSearch, wp_bind, wp_get]
      rw [hnext, if_neg (fun hc => by omega), if_neg (fun hc => ?_)]
      · exact hbase
      · rcases hc.2 with hlt | hlt
        · omega
        · exact Nat.not_lt_zero bp hlt
  | cons y ys ih =>
    cases fuel with
    | zero => exact hfuel.resolve_left (Nat.not_lt_zero _)
    | succ fuel =>
      have hnext : (s.mem p).ptr = y := h.1
      have hpy : p < y := (List.pairwise_cons.mp hsorted).1 y List.mem_cons_self
      simp only [freeSearch, wp_bind, wp_get]
      rw [hnext, if_neg (fun hc => by omega), if_neg (fun hc => by omega)]
      refine ih h.2 (by omega) hsorted.of_cons (hfuel.imp_left Nat.lt_of_succ_lt_succ) ?_
      rwa [List.length_cons, Nat.add_sub_add_right] at hbase

/-- **The search of `free`** finds the last free block before `bp`. -/
theorem wp_freeSearch {fuel : Nat} {f : Nat} (h : Path s.next base (xs ++ ys) base)
    (hsorted : (base :: (xs ++ ys)).Pairwise (· < ·)) (hbase : base < bp) (hxs : ∀ x ∈ xs, x < bp)
    (hys : ∀ y ∈ ys, bp < y) (hf : f ∈ base :: (xs ++ ys))
    (hfuel : 2 * (xs.length + ys.length) + 2 ≤ fuel ∨ E .running) :
    wp (freeSearch bp fuel f) E (fun r s' => s' = s ∧ r = xs.getLastD base) s := by
  have hsorted' : (base :: xs).Pairwise (· < ·) := by
    rw [← List.cons_append] at hsorted
    exact (List.pairwise_append.mp hsorted).1
  have hup : ∀ {fuel}, xs.length < fuel ∨ E .running →
      wp (freeSearch bp fuel base) E (fun r s' => s' = s ∧ r = xs.getLastD base) s := fun hlt =>
    wp_search_up h hbase hsorted' hxs hys hlt
  rcases List.mem_cons.mp hf with rfl | hf
  · exact hup (hfuel.imp_left fun h => by omega)
  rcases List.mem_append.mp hf with hf | hf
  · obtain ⟨us, vs, rfl⟩ := List.append_of_mem hf
    have hpath : Path s.next f (vs ++ ys) base := by
      rw [List.append_assoc, List.cons_append] at h
      exact (path_append_cons.mp h).2
    have hlast : (us ++ f :: vs).getLastD base = vs.getLastD f := by
      rw [List.getLastD_eq_getLast?, List.getLast?_append_of_ne_nil _ (List.cons_ne_nil f vs),
        ← List.getLastD_eq_getLast?, List.getLastD_cons]
    rw [hlast]
    refine wp_search_up hpath (hxs f hf) ?_ (fun x hx => hxs x ?_) hys (hfuel.imp_left fun hle => ?_)
    · exact (List.pairwise_append.mp hsorted'.of_cons).2.1
    · exact List.mem_append_right us (List.mem_cons_of_mem f hx)
    · rw [List.length_append, List.length_cons] at hle
      omega
  · obtain ⟨us, vs, rfl⟩ := List.append_of_mem hf
    have hpath : Path s.next f vs base := by
      rw [← List.append_assoc] at h
      exact (path_append_cons.mp h).2
    rw [List.length_append, List.length_cons] at hfuel
    refine wp_search_down hpath (hys f hf) ?_ (hfuel.imp_left fun h => by omega)
      (hup (hfuel.imp_left fun h => by omega))
    rw [← List.append_assoc, ← List.cons_append] at hsorted
    exact (List.pairwise_append.mp hsorted).2.1

end Search

end Xv6.Umalloc
