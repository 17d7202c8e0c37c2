import Mathlib.Data.List.Nodup
import Mathlib.Data.List.GetD
import Mathlib.Logic.Function.Iterate

/-!
# Linked lists in a store

`Path next a xs e` says that following `next` from `a` visits `xs` and then arrives at `e`; a ring
is a path from a node to itself.  The lemmas say what becomes of a path when links change.
-/

namespace Linked

open Function

variable {α : Type} {next next' : α → α} {a b e y : α} {xs ys zs : List α}

/-- Following `next` from `a` visits `xs` in this order, and then arrives at `e`. -/
def Path (next : α → α) : α → List α → α → Prop
  | a, [], e => next a = e
  | a, x :: xs, e => next a = x ∧ Path next x xs e

theorem path_append_cons :
    Path next a (xs ++ y :: ys) e ↔ Path next a xs y ∧ Path next y ys e := by
  induction xs generalizing a with
  | nil => exact Iff.rfl
  | cons x xs ih => simp only [List.cons_append, Path, ih, and_assoc]

theorem Path.congr (h : Path next a xs e) (heq : ∀ x ∈ a :: xs, next' x = next x) :
    Path next' a xs e := by
  induction xs generalizing a with
  | nil => exact (heq a List.mem_cons_self).trans h
  | cons x xs ih =>
    exact ⟨(heq a List.mem_cons_self).trans h.1, ih h.2 fun z hz => heq z (List.mem_cons_of_mem a hz)⟩

theorem Path.next_last (h : Path next a xs e) : next (xs.getLastD a) = e := by
  induction xs generalizing a with
  | nil => exact h
  | cons x xs ih =>
    rw [List.getLastD_cons]
    exact ih h.2

theorem Path.next_mem (h : Path next a xs e) (hb : b ∈ a :: xs) : next b ∈ xs ++ [e] := by
  induction xs generalizing a with
  | nil =>
    rw [List.mem_singleton.mp hb, show next a = e from h]
    exact List.mem_singleton_self e
  | cons x xs ih =>
    rcases List.mem_cons.mp hb with rfl | hb
    · rw [h.1]
      exact List.mem_cons_self
    · exact List.mem_cons_of_mem x (ih h.2 hb)

theorem getLastD_mem (a : α) (xs : List α) : xs.getLastD a ∈ a :: xs := by
  rw [List.getLastD_eq_getLast?]
  cases hl : xs.getLast? with
  | none => exact List.mem_cons_self
  | some z => exact List.mem_cons_of_mem a (List.mem_of_getLast? hl)

theorem Path.retarget (h : Path next a xs e) (hnodup : (a :: xs).Nodup)
    (hkeep : ∀ x ∈ a :: xs, x ≠ xs.getLastD a → next' x = next x)
    (hlast : next' (xs.getLastD a) = b) : Path next' a xs b := by
  induction xs generalizing a with
  | nil => exact hlast
  | cons x xs ih =>
    rw [List.getLastD_cons] at hkeep hlast
    refine ⟨?_, ih h.2 hnodup.of_cons (fun z hz => hkeep z (List.mem_cons_of_mem a hz)) hlast⟩
    rw [hkeep a List.mem_cons_self, h.1]
    exact fun heq => (List.nodup_cons.mp hnodup).1 (heq ▸ getLastD_mem x xs)

theorem Path.split (h : Path next a (xs ++ ys) e) :
    Path next a xs (ys.headD e) ∧ ∀ z zs, ys = z :: zs → Path next z zs e := by
  cases ys with
  | nil =>
    rw [List.append_nil] at h
    exact ⟨h, nofun⟩
  | cons y ys =>
    obtain ⟨hleft, hright⟩ := path_append_cons.mp h
    refine ⟨hleft, fun z zs hcons => ?_⟩
    obtain ⟨rfl, rfl⟩ := List.cons.inj hcons
    exact hright

theorem Path.join (h : Path next a xs (ys.headD e)) (hrest : ∀ z zs, ys = z :: zs → Path next z zs e) :
    Path next a (xs ++ ys) e := by
  cases ys with
  | nil =>
    rw [List.append_nil]
    exact h
  | cons y ys => exact path_append_cons.mpr ⟨h, hrest y ys rfl⟩

/-- **The nodes between two others are left out.** -/
theorem Path.skip (h : Path next a (xs ++ zs) e) (hsuffix : ys <:+ zs)
    (hnodup : (a :: (xs ++ ys)).Nodup)
    (hkeep : ∀ x ∈ a :: (xs ++ ys), x ≠ xs.getLastD a → next' x = next x)
    (hlast : next' (xs.getLastD a) = ys.headD e) : Path next' a (xs ++ ys) e := by
  obtain ⟨hleft, hright⟩ := h.split
  have hsub : ∀ x, x ∈ a :: xs → x ∈ a :: (xs ++ ys) := fun x hx => by
    rw [← List.cons_append]
    exact List.mem_append_left ys hx
  refine Path.join (hleft.retarget (hnodup.sublist ?_) (fun x hx => hkeep x (hsub x hx)) hlast)
    fun y ys' hys => ?_
  · rw [← List.cons_append]
    exact List.sublist_append_left _ _
  · subst hys
    have hrest : Path next y ys' e := by
      obtain ⟨pre, rfl⟩ := hsuffix
      cases pre with
      | nil => exact hright y ys' rfl
      | cons z pre => exact (path_append_cons.mp (hright z (pre ++ y :: ys') rfl)).2
    refine hrest.congr fun x hx => hkeep x ?_ fun heq => ?_
    · exact List.mem_cons_of_mem a (List.mem_append_right xs hx)
    · rw [← List.cons_append, List.nodup_append] at hnodup
      exact hnodup.2.2 _ (getLastD_mem a xs) _ hx heq.symm

/-- **A node is linked in between two others**, which may have had more between them. -/
theorem Path.insert (h : Path next a (xs ++ zs) e) (hsuffix : ys <:+ zs)
    (hnodup : (a :: (xs ++ ys)).Nodup)
    (hkeep : ∀ x ∈ a :: (xs ++ ys), x ≠ xs.getLastD a → next' x = next x)
    (hlast : next' (xs.getLastD a) = b) (hnew : next' b = ys.headD e) :
    Path next' a (xs ++ b :: ys) e := by
  classical
  -- with the old link of the last node replaced, `ys` follows `xs`
  have hskip : Path (update next' (xs.getLastD a) (ys.headD e)) a (xs ++ ys) e :=
    h.skip hsuffix hnodup (fun x hx hne => by rw [update_of_ne hne, hkeep x hx hne])
      (update_self ..)
  obtain ⟨hleft, hright⟩ := hskip.split
  have hnodup' : (a :: xs).Nodup := by
    rw [← List.cons_append] at hnodup
    exact (List.nodup_append.mp hnodup).1
  refine path_append_cons.mpr ⟨hleft.retarget hnodup' (fun x _ hne => ?_) hlast, ?_⟩
  · rw [update_of_ne hne]
  · rw [← List.nil_append ys]
    refine Path.join hnew fun y ys' hys => (hright y ys' hys).congr fun x hx => ?_
    rw [update_of_ne]
    rintro rfl
    rw [← List.cons_append, List.nodup_append] at hnodup
    exact hnodup.2.2 _ (getLastD_mem a xs) _ (hys ▸ hx) rfl

theorem Path.pred_eq (h : Path next a (xs ++ y :: ys) e) (hnodup : (xs ++ y :: ys).Nodup)
    (hy : y ≠ e) (hb : b ∈ a :: (xs ++ y :: ys)) (hnext : next b = y) : b = xs.getLastD a := by
  obtain ⟨hleft, hright⟩ := path_append_cons.mp h
  rw [← List.cons_append, List.mem_append] at hb
  rcases hb with hb | hb
  · have hnot : y ∉ xs := fun hmem =>
      (List.nodup_append.mp hnodup).2.2 y hmem y List.mem_cons_self rfl
    clear h hright hnodup
    induction xs generalizing a with
    | nil => exact List.mem_singleton.mp hb
    | cons x xs ih =>
      rw [List.getLastD_cons]
      rcases List.mem_cons.mp hb with rfl | hb
      · exact absurd (hleft.1.symm.trans hnext) fun heq => hnot (heq ▸ List.mem_cons_self)
      · exact ih hleft.2 hb fun hmem => hnot (List.mem_cons_of_mem x hmem)
  · have hmem := hright.next_mem hb
    rw [hnext, List.mem_append, List.mem_singleton] at hmem
    have hnot := (List.nodup_cons.mp (List.nodup_append.mp hnodup).2.1).1
    exact absurd hmem fun hor => hor.elim hnot hy

theorem Path.rotate (h : Path next a xs a) (hb : b ∈ a :: xs) :
    ∃ zs, Path next b zs b ∧ (b :: zs).Perm (a :: xs) := by
  rcases List.mem_cons.mp hb with rfl | hmem
  · exact ⟨xs, h, List.Perm.refl _⟩
  · obtain ⟨ys, zs, rfl⟩ := List.append_of_mem hmem
    obtain ⟨hleft, hright⟩ := path_append_cons.mp h
    refine ⟨zs ++ a :: ys, path_append_cons.mpr ⟨hright, hleft⟩, ?_⟩
    rw [← List.cons_append, ← List.cons_append]
    exact List.perm_append_comm

theorem Path.exists_iterate (h : Path next a xs e) (hb : b ∈ a :: xs) : ∃ k, next^[k] a = b := by
  induction xs generalizing a with
  | nil => exact ⟨0, (List.mem_singleton.mp hb).symm⟩
  | cons x xs ih =>
    rcases List.mem_cons.mp hb with rfl | hb
    · exact ⟨0, rfl⟩
    · obtain ⟨k, hk⟩ := ih h.2 hb
      exact ⟨k + 1, by rw [Function.iterate_succ_apply, h.1, hk]⟩

theorem Path.iterate_mem (h : Path next a xs a) (k : Nat) : next^[k] a ∈ a :: xs := by
  induction k with
  | zero => exact List.mem_cons_self
  | succ k ih =>
    rw [Function.iterate_succ_apply']
    have hmem := h.next_mem ih
    rw [List.mem_append, List.mem_singleton] at hmem
    exact List.mem_cons.mpr hmem.symm

/-! ### Doubly linked rings -/

/-- `next` runs around the ring in one direction and `prev` in the other. -/
structure Doubly (next prev : α → α) (a : α) (xs : List α) : Prop where
  next : Path next a xs a
  prev : Path prev a xs.reverse a

theorem Path.next_first (h : Path next a xs e) : next a = xs.headD e := by
  cases xs with
  | nil => exact h
  | cons x xs => exact h.1

/-- Where the paths of `next` and `prev` are the same, backwards, `prev` undoes `next`. -/
theorem Path.prev_next {prev : α → α} (h : Path next a xs e) (hprev : Path prev e xs.reverse a)
    (hb : b ∈ a :: xs) : prev (next b) = b := by
  induction xs generalizing a with
  | nil =>
    rw [List.mem_singleton.mp hb, show next a = e from h]
    exact hprev
  | cons x xs ih =>
    rw [List.reverse_cons] at hprev
    obtain ⟨hrest, hlast⟩ := path_append_cons.mp hprev
    rcases List.mem_cons.mp hb with rfl | hb
    · rw [h.1]
      exact hlast
    · exact ih h.2 hrest hb

section Doubly

variable {prev : α → α} {x : α}

theorem Doubly.prev_next (h : Doubly next prev a xs) (hb : b ∈ a :: xs) : prev (next b) = b :=
  h.next.prev_next h.prev hb

theorem Doubly.next_prev (h : Doubly next prev a xs) (hb : b ∈ a :: xs) : next (prev b) = b := by
  refine h.prev.prev_next ?_ ?_
  · rw [List.reverse_reverse]
    exact h.next
  · simpa using hb

theorem headD_reverse (xs : List α) : xs.reverse.headD a = xs.getLastD a := by
  rw [List.headD_eq_head?_getD, List.head?_reverse, List.getLastD_eq_getLast?]

theorem getLastD_reverse (xs : List α) : xs.reverse.getLastD a = xs.headD a := by
  rw [← headD_reverse, List.reverse_reverse]

theorem Doubly.neighbours (h : Doubly next prev a (ys ++ x :: zs)) :
    next x = zs.headD a ∧ prev x = ys.getLastD a := by
  refine ⟨(path_append_cons.mp h.next).2.next_first, ?_⟩
  have hprev := h.prev
  rw [List.reverse_append, List.reverse_cons, List.append_assoc, List.singleton_append] at hprev
  rw [(path_append_cons.mp hprev).2.next_first, headD_reverse]

variable [DecidableEq α]

/-- **A node is unlinked**: its neighbours are linked to each other. -/
theorem Doubly.unlink (h : Doubly next prev a (ys ++ x :: zs))
    (hnodup : (a :: (ys ++ x :: zs)).Nodup) :
    Doubly (update next (prev x) (next x)) (update prev (next x) (prev x)) a
      (ys ++ zs) := by
  obtain ⟨hnext, hprev⟩ := h.neighbours
  have hsub : (a :: (ys ++ zs)).Nodup := hnodup.sublist
    ((List.Sublist.append_left (List.sublist_cons_self x zs) ys).cons_cons a)
  have hback : Path prev a (zs.reverse ++ x :: ys.reverse) a := by
    have hprevs := h.prev
    rwa [List.reverse_append, List.reverse_cons, List.append_assoc, List.singleton_append] at hprevs
  refine ⟨h.next.skip (List.suffix_cons x zs) hsub (fun y _ hne => ?_) ?_, ?_⟩
  · rw [update_of_ne (hprev ▸ hne)]
  · rw [← hprev, update_self, hnext]
  · rw [List.reverse_append]
    refine hback.skip (List.suffix_cons x _) ?_ (fun y _ hne => ?_) ?_
    · rw [← List.reverse_append]
      exact (List.reverse_perm _).symm.cons a |>.nodup hsub
    · rw [getLastD_reverse, ← hnext] at hne
      rw [update_of_ne hne]
    · rw [getLastD_reverse, ← hnext, update_self, hprev, headD_reverse]

/-- **A node is linked in** at the front. -/
theorem Doubly.pushFront (h : Doubly next prev a xs) (hnodup : (a :: xs).Nodup) (hx : x ∉ a :: xs) :
    Doubly (update (update next x (next a)) a x)
      (update (update prev x a) (next a) x) a (x :: xs) := by
  have hfirst : next a = xs.headD a := h.next.next_first
  have hne : x ≠ next a := by
    rintro rfl
    refine hx (hfirst ▸ ?_)
    cases xs with
    | nil => exact List.mem_cons_self
    | cons y xs => exact List.mem_cons_of_mem a List.mem_cons_self
  have hxa : x ≠ a := fun heq => hx (heq ▸ List.mem_cons_self)
  refine ⟨?_, ?_⟩
  · rw [← List.nil_append (x :: xs)]
    have hnext : Path next a ([] ++ xs) a := h.next
    refine hnext.insert (List.suffix_refl xs) hnodup (fun y hy hya => ?_)
      (update_self ..) ?_
    · replace hya : y ≠ a := hya
      have hyx : y ≠ x := fun heq => hx (heq ▸ hy)
      rw [update_of_ne hya, update_of_ne hyx]
    · rw [update_of_ne hxa, update_self, hfirst]
  · rw [List.reverse_cons]
    have hprev : Path prev a (xs.reverse ++ []) a := by
      rw [List.append_nil]
      exact h.prev
    refine hprev.insert (List.suffix_refl []) ?_ (fun y hy hya => ?_) ?_ ?_
    · rw [List.append_nil]
      exact (List.reverse_perm _).symm.cons a |>.nodup hnodup
    · rw [getLastD_reverse, ← hfirst] at hya
      have hyx : y ≠ x := by
        rintro rfl
        exact hx (by simpa using hy)
      rw [update_of_ne hya, update_of_ne hyx]
    · rw [getLastD_reverse, ← hfirst, update_self]
    · rw [update_of_ne hne, update_self]
      rfl

end Doubly

end Linked
