import Mathlib.Data.List.Nodup
import Mathlib.Logic.Function.Basic

/-!
# Exact ownership of resources

Resources (disk blocks, physical pages) are owned by slots (an address in an inode, an
entry of a page table), or lie loose in the hands of a running operation, or are free.
`Exact` says that every resource is in exactly one of these places.  An allocator moves a
resource from free to loose, a store into a slot from loose to owned, and so on back; each
move is one lemma.
-/

namespace Ledger

variable {S R : Type}

/-- Every resource in `U` is owned by one slot, loose, or free, and only one of these. -/
structure Exact (own : S → Option R) (loose : List R) (free : R → Prop) (U : R → Prop) : Prop where
  once : ∀ s t r, own s = some r → own t = some r → s = t
  owned : ∀ s r, own s = some r → U r
  nodup : loose.Nodup
  mem : ∀ r ∈ loose, U r
  apart : ∀ r ∈ loose, ∀ s, own s ≠ some r
  free_iff : ∀ r, U r → (free r ↔ (∀ s, own s ≠ some r) ∧ r ∉ loose)

variable {own own' : S → Option R} {loose : List R} {free free' : R → Prop} {U : R → Prop} {r : R}

theorem Exact.not_free_of_owned (h : Exact own loose free U) {s : S} (hs : own s = some r) :
    ¬ free r :=
  fun hfree => ((h.free_iff r (h.owned s r hs)).mp hfree).1 s hs

theorem Exact.not_free_of_loose (h : Exact own loose free U) (hr : r ∈ loose) : ¬ free r :=
  fun hfree => ((h.free_iff r (h.mem r hr)).mp hfree).2 hr

theorem Exact.congr (h : Exact own loose free U) (hown : ∀ s, own' s = own s)
    (hfree : ∀ r, U r → (free' r ↔ free r)) : Exact own' loose free' U := by
  obtain rfl : own' = own := funext hown
  exact ⟨h.once, h.owned, h.nodup, h.mem, h.apart,
    fun r hr => (hfree r hr).trans (h.free_iff r hr)⟩

/-- **Allocation**: a free resource becomes loose. -/
theorem Exact.alloc (h : Exact own loose free U) (hU : U r) (hr : free r)
    (hfree : ∀ x, U x → (free' x ↔ free x ∧ x ≠ r)) : Exact own (r :: loose) free' U := by
  obtain ⟨hnot, hloose⟩ := (h.free_iff r hU).mp hr
  refine ⟨h.once, h.owned, List.nodup_cons.mpr ⟨hloose, h.nodup⟩, ?_, ?_, fun x hx => ?_⟩
  · intro x hx
    rcases List.mem_cons.mp hx with rfl | hx
    · exact hU
    · exact h.mem x hx
  · intro x hx
    rcases List.mem_cons.mp hx with rfl | hx
    · exact hnot
    · exact h.apart x hx
  · rw [hfree x hx, h.free_iff x hx, List.mem_cons, not_or, and_assoc, and_comm (b := ¬ x = r)]

/-- **Release**: a loose resource becomes free. -/
theorem Exact.release (h : Exact own (r :: loose) free U)
    (hfree : ∀ x, U x → (free' x ↔ free x ∨ x = r)) : Exact own loose free' U := by
  obtain ⟨hr, hnodup⟩ := List.nodup_cons.mp h.nodup
  refine ⟨h.once, h.owned, hnodup, fun x hx => h.mem x (List.mem_cons_of_mem r hx),
    fun x hx => h.apart x (List.mem_cons_of_mem r hx), fun x hx => ?_⟩
  rw [hfree x hx, h.free_iff x hx, List.mem_cons, not_or]
  constructor
  · rintro (⟨hnot, _, hx'⟩ | rfl)
    · exact ⟨hnot, hx'⟩
    · exact ⟨h.apart x List.mem_cons_self, hr⟩
  · rintro ⟨hnot, hx'⟩
    by_cases hxr : x = r
    · exact Or.inr hxr
    · exact Or.inl ⟨hnot, hxr, hx'⟩

/-- **Assignment**: a loose resource goes into an empty slot. -/
theorem Exact.assign (h : Exact own (r :: loose) free U) {s : S} (hs : own s = none)
    (hs' : own' s = some r) (hrest : ∀ t, t ≠ s → own' t = own t) : Exact own' loose free U := by
  obtain ⟨hr, hnodup⟩ := List.nodup_cons.mp h.nodup
  have hiff : ∀ t x, own' t = some x ↔ (t = s ∧ x = r) ∨ own t = some x := by
    intro t x
    by_cases hts : t = s
    · subst hts
      simp [hs, hs', eq_comm]
    · simp [hrest t hts, hts]
  have hapart := h.apart r List.mem_cons_self
  refine ⟨fun t u x ht hu => ?_, fun t x ht => ?_, hnodup,
    fun x hx => h.mem x (List.mem_cons_of_mem r hx), fun x hx t ht => ?_, fun x hx => ?_⟩
  · rcases (hiff t x).mp ht with ⟨rfl, rfl⟩ | ht' <;> rcases (hiff u x).mp hu with ⟨rfl, hx⟩ | hu'
    · rfl
    · exact absurd hu' (hapart u)
    · exact absurd (hx ▸ ht') (hapart t)
    · exact h.once t u x ht' hu'
  · rcases (hiff t x).mp ht with ⟨_, rfl⟩ | ht'
    · exact h.mem x List.mem_cons_self
    · exact h.owned t x ht'
  · rcases (hiff t x).mp ht with ⟨_, rfl⟩ | ht'
    · exact hr hx
    · exact h.apart x (List.mem_cons_of_mem r hx) t ht'
  · rw [h.free_iff x hx, List.mem_cons, not_or]
    constructor
    · rintro ⟨hnot, hxr, hx'⟩
      refine ⟨fun t ht => ?_, hx'⟩
      rcases (hiff t x).mp ht with ⟨_, hx⟩ | ht'
      · exact hxr hx
      · exact hnot t ht'
    · rintro ⟨hnot, hx'⟩
      exact ⟨fun t ht => hnot t ((hiff t x).mpr (Or.inr ht)),
        fun hxr => hnot s (hxr ▸ hs'), hx'⟩

/-- **Removal**: the resource of a slot becomes loose. -/
theorem Exact.take (h : Exact own loose free U) {s : S} (hs : own s = some r)
    (hs' : own' s = none) (hrest : ∀ t, t ≠ s → own' t = own t) :
    Exact own' (r :: loose) free U := by
  have hiff : ∀ t x, own' t = some x ↔ t ≠ s ∧ own t = some x := by
    intro t x
    by_cases hts : t = s
    · subst hts
      simp [hs']
    · simp [hrest t hts, hts]
  refine ⟨fun t u x ht hu => ?_, fun t x ht => ?_, ?_, ?_, ?_, fun x hx => ?_⟩
  · exact h.once t u x ((hiff t x).mp ht).2 ((hiff u x).mp hu).2
  · exact h.owned t x ((hiff t x).mp ht).2
  · exact List.nodup_cons.mpr ⟨fun hr => h.apart r hr s hs, h.nodup⟩
  · intro x hx
    rcases List.mem_cons.mp hx with rfl | hx
    · exact h.owned s x hs
    · exact h.mem x hx
  · intro x hx t ht
    obtain ⟨hts, ht'⟩ := (hiff t x).mp ht
    rcases List.mem_cons.mp hx with rfl | hx
    · exact hts (h.once t s x ht' hs)
    · exact h.apart x hx t ht'
  · rw [h.free_iff x hx, List.mem_cons, not_or]
    constructor
    · rintro ⟨hnot, hx'⟩
      exact ⟨fun t ht => hnot t ((hiff t x).mp ht).2, fun hxr => hnot s (hxr ▸ hs), hx'⟩
    · rintro ⟨hnot, hxr, hx'⟩
      refine ⟨fun t ht => ?_, hx'⟩
      by_cases hts : t = s
      · subst hts
        exact hxr (Option.some.inj (ht.symm.trans hs))
      · exact hnot t ((hiff t x).mpr ⟨hts, ht⟩)

/-- **Relabelling**: the slots are permuted. -/
theorem Exact.relabel (h : Exact own loose free U) {f : S → S} (hf : ∀ s, f (f s) = s) :
    Exact (fun s => own (f s)) loose free U := by
  refine ⟨fun s t r hs ht => ?_, fun s => h.owned (f s), h.nodup, h.mem,
    fun r hr s => h.apart r hr (f s), fun r hr => ?_⟩
  · rw [← hf s, ← hf t, h.once _ _ r hs ht]
  · rw [h.free_iff r hr]
    refine and_congr_left fun _ => ⟨fun hnot s => hnot (f s), fun hnot s => ?_⟩
    have := hnot (f s)
    rwa [hf] at this

/-! ### Giving up many slots -/

open Classical in
/-- The slots that are not gone. -/
noncomputable def without (own : S → Option R) (gone : S → Prop) (s : S) : Option R :=
  if gone s then none else own s

theorem without_of_gone {gone : S → Prop} {s : S} (h : gone s) : without own gone s = none :=
  if_pos h

theorem without_of_not_gone {gone : S → Prop} {s : S} (h : ¬ gone s) :
    without own gone s = own s :=
  if_neg h

theorem without_congr {gone gone' : S → Prop} (h : ∀ s, own s ≠ none → (gone s ↔ gone' s)) :
    without own gone = without own gone' := by
  funext s
  unfold without
  by_cases hs : own s = none
  · simp [hs]
  · by_cases hg : gone s
    · rw [if_pos hg, if_pos ((h s hs).mp hg)]
    · rw [if_neg hg, if_neg (mt (h s hs).mpr hg)]

/-- **Removal**, of one more slot. -/
theorem Exact.take_without {gone : S → Prop} (h : Exact (without own gone) loose free U) {s : S}
    (hs : own s = some r) (hgone : ¬ gone s) :
    Exact (without own fun t => gone t ∨ t = s) (r :: loose) free U := by
  refine h.take (s := s) ((without_of_not_gone hgone).trans hs) (without_of_gone (Or.inr rfl))
    fun t ht => ?_
  by_cases hg : gone t
  · simp only [without, hg, true_or, if_true]
  · simp only [without, hg, ht, or_self, if_false]

end Ledger
