import Xv6.Bio.Cache

/-!
# Coherence of the cache with an array of blocks

`A` is the array of blocks that clients see, `P` the pinned blocks and `M` the
blocks that their holder has modified without logging the modification.  A block is
up to date on disk unless it is in `P` or `M`, and those blocks stay in the cache, so
every `bread` returns the block of `A`.
-/

namespace Xv6.Bio

open Transition Function

structure Coherent (s : State) (P : List Nat) (M : Nat → Prop) (A : Disk) : Prop where
  cache : CacheInv s P
  data : ∀ i < NBUF, (s.buf i).dev = ROOTDEV → (s.buf i).valid = true →
    (s.buf i).data = A (s.buf i).blockno
  inUse : ∀ i < NBUF, (s.buf i).dev = ROOTDEV → (s.buf i).lock ≠ none ∨ (s.buf i).blockno ∈ P →
    (s.buf i).valid = true
  clean : ∀ b, s.disk b = A b ∨ b ∈ P ∨ M b
  modified : ∀ b, M b → ∃ i < NBUF, (s.buf i).caches ROOTDEV b ∧ (s.buf i).lock ≠ none

section Coherence

variable {s s' : State} {P : List Nat} {M : Nat → Prop} {A : Disk} {me : Pid} {b i : Nat}

theorem Coherent.disk_of_invalid (h : Coherent s P M A) (hi : i < NBUF)
    (hc : (s.buf i).caches ROOTDEV b) (hv : (s.buf i).valid = false) : s.disk b = A b := by
  have hnot : ¬ ((s.buf i).lock ≠ none ∨ (s.buf i).blockno ∈ P) := fun huse => by
    simpa [hv] using h.inUse i hi hc.1 huse
  rcases h.clean b with hd | hp | hm
  · exact hd
  · exact absurd (Or.inr (hc.2 ▸ hp)) hnot
  · obtain ⟨j, hj, hcj, hlj⟩ := h.modified b hm
    rw [← h.cache.unique hi hj hc hcj] at hlj
    exact absurd (Or.inl hlj) hnot

theorem Coherent.setBuf {x : Buf} {P' : List Nat} {W : List Waiter} {M' : Nat → Prop} {A' : Disk}
    (h : Coherent s P M A) (hinv : CacheInv { s.setBuf i x with waiting := W } P') (hi : i < NBUF)
    (hdata : x.dev = ROOTDEV → x.valid = true → x.data = A' x.blockno)
    (huse : x.dev = ROOTDEV → x.lock ≠ none ∨ x.blockno ∈ P' → x.valid = true)
    (hA : ∀ j < NBUF, j ≠ i → (s.buf j).dev = ROOTDEV →
      A' (s.buf j).blockno = A (s.buf j).blockno ∧ ((s.buf j).blockno ∈ P' → (s.buf j).blockno ∈ P))
    (hclean : ∀ c, s.disk c = A' c ∨ c ∈ P' ∨ M' c)
    (hM : ∀ c, M' c → (x.caches ROOTDEV c ∧ x.lock ≠ none) ∨
      (M c ∧ ¬ (s.buf i).caches ROOTDEV c)) :
    Coherent { s.setBuf i x with waiting := W } P' M' A' := by
  refine ⟨hinv, fun j hj => ?_, fun j hj => ?_, hclean, fun c hm => ?_⟩
  · dsimp only
    by_cases hji : j = i
    · subst hji
      rw [State.setBuf_self]
      exact hdata
    · rw [State.setBuf_ne _ _ hji]
      intro hdj hvj
      rw [(hA j hj hji hdj).1]
      exact h.data j hj hdj hvj
  · dsimp only
    by_cases hji : j = i
    · subst hji
      rw [State.setBuf_self]
      exact huse
    · rw [State.setBuf_ne _ _ hji]
      intro hdj huj
      exact h.inUse j hj hdj (huj.imp_right (hA j hj hji hdj).2)
  · rcases hM c hm with hx | ⟨hm', hne⟩
    · exact ⟨i, hi, by simpa using hx⟩
    · obtain ⟨j, hj, hcj, hlj⟩ := h.modified c hm'
      have hji : j ≠ i := by
        rintro rfl
        exact hne hcj
      exact ⟨j, hj, by simpa only [State.setBuf_ne _ _ hji] using ⟨hcj, hlj⟩⟩

theorem Coherent.bgetRef (h : Coherent s P M A) (hs : bgetRef me ROOTDEV b s = .done (i, s')) :
    Coherent s' P M A := by
  have hinv := h.cache.bgetRef hs
  obtain ⟨hi, x, rfl, hcase⟩ := bgetRef_done h.cache hs
  rcases hcase with ⟨hc, rfl⟩ | ⟨hnone, hz, rfl⟩
  · refine h.setBuf hinv hi (h.data i hi) (h.inUse i hi) (fun j _ _ _ => ⟨rfl, id⟩) h.clean
      (fun c hm => ?_)
    by_cases hci : (s.buf i).caches ROOTDEV c
    · obtain ⟨j, hj, hcj, hlj⟩ := h.modified c hm
      rw [← h.cache.unique hi hj hci hcj] at hlj
      exact Or.inl ⟨hci, hlj⟩
    · exact Or.inr ⟨hm, hci⟩
  · obtain ⟨hlock, hnotpin⟩ := h.cache.of_refcnt_zero hi hz
    refine h.setBuf hinv hi (fun _ hv => absurd hv (by simp)) (fun _ huse => ?_)
      (fun j _ _ _ => ⟨rfl, id⟩) h.clean (fun c hm => Or.inr ⟨hm, fun hci => ?_⟩)
    · rcases huse with hl | hp
      · exact absurd hlock hl
      · obtain ⟨j, hj, hcj⟩ := h.cache.pinned b hp
        exact absurd hcj (hnone j hj)
    · obtain ⟨j, hj, hcj, hlj⟩ := h.modified c hm
      rw [← h.cache.unique hi hj hci hcj] at hlj
      exact hlj hlock

/-- A process that waited for the buffer of block `b` gets the block.  A block that its
    holder modified is not available. -/
theorem Coherent.acquire (h : Coherent s P M A) (hw : ⟨me, i, ROOTDEV, b⟩ ∈ s.waiting) {t : State}
    (hs : acquiresleep me ROOTDEV b i s = .done t) :
    Coherent (fill i t) P M A ∧ Holds (fill i t) me b i ∧ ¬ M b := by
  obtain ⟨hi, hc, hlock, hfill, hinv⟩ := acquire_done h.cache hw hs
  have hdata : ((s.buf i).acquired me (s.disk b)).data = A b := by
    cases hv : (s.buf i).valid with
    | true =>
      have hd := h.data i hi hc.1 hv
      rw [hc.2] at hd
      simpa [Buf.acquired, hv] using hd
    | false => simpa [Buf.acquired, hv] using h.disk_of_invalid hi hc hv
  have hnotM : ∀ c, M c → ¬ (s.buf i).caches ROOTDEV c := by
    intro c hm hci
    obtain ⟨j, hj, hcj, hlj⟩ := h.modified c hm
    rw [← h.cache.unique hi hj hci hcj] at hlj
    exact hlj hlock
  refine ⟨?_, ⟨hi, ?_, ?_⟩, fun hm => hnotM b hm hc⟩
  · rw [hfill] at hinv ⊢
    refine h.setBuf hinv hi (fun _ _ => ?_) (fun _ _ => rfl) (fun j _ _ _ => ⟨rfl, id⟩) h.clean
      (fun c hm => Or.inr ⟨hm, hnotM c hm⟩)
    rw [hdata]
    exact congrArg A hc.2.symm
  · rw [hfill]
    simpa [Buf.acquired, Buf.caches] using hc
  · rw [hfill]
    simp [Buf.acquired]

/-- **`bread` returns the block.**  It keeps the cache coherent with the same array, gives
    the caller the lock on the buffer of the block, and changes no other buffer nor the
    disk. -/
theorem bread_done (h : Coherent s P M A) (hs : bread me ROOTDEV b s = .done (i, s')) :
    Coherent s' P M A ∧ Holds s' me b i ∧ ¬ M b ∧ (s.buf i).lock = none ∧
    s'.disk = s.disk ∧ s'.waiting = s.waiting ∧ ∀ j, j ≠ i → s'.buf j = s.buf j := by
  obtain ⟨_, _, hlock, hdisk, hwaiting, hother⟩ := h.cache.bread hs
  obtain ⟨t, u, href, hacq, rfl⟩ := bread_eq_done hs
  have ht := h.bgetRef href
  obtain ⟨_, x, rfl, _⟩ := bgetRef_done h.cache href
  obtain ⟨hcoh, hholds, hnotM⟩ := ht.acquire List.mem_cons_self hacq
  exact ⟨hcoh, hholds, hnotM, hlock, hdisk, hwaiting, hother⟩

theorem Coherent.valid_of_held (h : Coherent s P M A) (hh : Holds s me b i) :
    (s.buf i).valid = true :=
  h.inUse i hh.lt hh.caches.1 (Or.inl hh.ne_none)

theorem Coherent.data_of_held (h : Coherent s P M A) (hh : Holds s me b i) :
    (s.buf i).data = A b := by
  rw [h.data i hh.lt hh.caches.1 (h.valid_of_held hh), hh.caches.2]

/-- **An in-place modification** by the holder changes the array at that block, and the
    block stays out of step with the disk until it is logged or written. -/
theorem setData_coherent (h : Coherent s P M A) (hh : Holds s me b i) (v : Block) :
    Coherent (setData i v s) P (fun c => M c ∨ c = b) (update A b v) := by
  have hinv : CacheInv (setData i v s) P :=
    h.cache.setBuf_same hh.lt rfl rfl (h.cache.refcnt i hh.lt)
  refine h.setBuf hinv hh.lt (fun _ _ => ?_) (h.inUse i hh.lt)
    (fun j hj hji hdj => ⟨?_, id⟩) (fun c => ?_) (fun c hm => ?_)
  · show v = update A b v (s.buf i).blockno
    rw [hh.caches.2, update_self]
  · exact update_of_ne (h.cache.blockno_ne hh.lt hh.caches hj hji hdj) v A
  · by_cases hcb : c = b
    · exact Or.inr (Or.inr (Or.inr hcb))
    · rw [update_of_ne hcb]
      rcases h.clean c with hd | hp | hm
      · exact Or.inl hd
      · exact Or.inr (Or.inl hp)
      · exact Or.inr (Or.inr (Or.inl hm))
  · by_cases hcb : c = b
    · exact Or.inl ⟨hcb ▸ hh.caches, hh.ne_none⟩
    · exact Or.inr ⟨hm.resolve_right hcb, fun hci => hcb (hci.2.symm.trans hh.caches.2)⟩

theorem Coherent.of_disk {disk : Disk} {M' : Nat → Prop} (h : Coherent s P M A)
    (hclean : ∀ c, disk c = A c ∨ c ∈ P ∨ M' c) (hM : ∀ c, M' c → M c) :
    Coherent { s with disk := disk } P M' A :=
  ⟨⟨h.cache.order, h.cache.keys, h.cache.pinned, h.cache.refcnt, h.cache.waiting⟩, h.data, h.inUse,
    hclean, fun c hm => h.modified c (hM c hm)⟩

/-- **`bwrite`** by the holder brings the disk up to date. -/
theorem bwrite_done (h : Coherent s P M A) (hh : Holds s me b i) (hs : bwrite me i s = .done s') :
    s' = { s with disk := update s.disk b (A b) } ∧
    Coherent s' P (fun c => M c ∧ c ≠ b) A := by
  rw [bwrite, if_pos hh.lock, hh.caches.2, h.data_of_held hh, Outcome.done.injEq] at hs
  subst hs
  refine ⟨rfl, h.of_disk (fun c => ?_) (fun c hm => hm.1)⟩
  by_cases hcb : c = b
  · subst hcb
    exact Or.inl (update_self ..)
  · rw [update_of_ne hcb]
    rcases h.clean c with hd | hp | hm
    · exact Or.inl hd
    · exact Or.inr (Or.inl hp)
    · exact Or.inr (Or.inr ⟨hm, hcb⟩)

/-- **`brelse`** by the holder of a block that is not modified without being logged. -/
theorem brelse_done (h : Coherent s P M A) (hh : Holds s me b i) (hM : ¬ M b)
    (hs : brelse me i s = .done s') :
    Coherent s' P M A ∧ s'.disk = s.disk ∧ s'.waiting = s.waiting ∧
    s'.buf = (s.setBuf i (s.buf i).released).buf := by
  have hrel : Coherent (s.setBuf i (s.buf i).released) P M A := by
    refine h.setBuf (h.cache.released hh.lt hh.ne_none) hh.lt (h.data i hh.lt)
      (fun _ _ => h.valid_of_held hh) (fun j _ _ _ => ⟨rfl, id⟩) h.clean
      (fun c hm => Or.inr ⟨hm, fun hci => hM ?_⟩)
    rw [← hh.caches.2, hci.2]
    exact hm
  obtain ⟨t, ht, hcache, hdisk, hwaiting, hbuf⟩ := brelse_buf h.cache hh
  obtain rfl : t = s' := Outcome.done.inj (ht.symm.trans hs)
  refine ⟨⟨hcache, ?_, ?_, ?_, ?_⟩, hdisk, hwaiting, hbuf⟩
  · rw [hbuf]; exact hrel.data
  · rw [hbuf]; exact hrel.inUse
  · rw [hdisk]; exact hrel.clean
  · rw [hbuf]; exact hrel.modified

theorem Coherent.logged {M' : Nat → Prop} (h : Coherent s P M A) (hM : ∀ c, M' c → M c)
    (hlog : ∀ c, M c → M' c ∨ c ∈ P) : Coherent s P M' A := by
  refine ⟨h.cache, h.data, h.inUse, fun c => ?_, fun c hm => h.modified c (hM c hm)⟩
  rcases h.clean c with hd | hp | hm
  · exact Or.inl hd
  · exact Or.inr (Or.inl hp)
  · rcases hlog c hm with hm' | hp
    · exact Or.inr (Or.inr hm')
    · exact Or.inr (Or.inl hp)

theorem Coherent.repin {P' : List Nat} {n : Nat} (h : Coherent s P M A)
    (hinv : CacheInv (s.setBuf i { s.buf i with refcnt := n }) P') (hh : Holds s me b i)
    (hP : ∀ c, c ≠ b → (c ∈ P' ↔ c ∈ P)) (hb : b ∈ P → s.disk b = A b ∨ b ∈ P') :
    Coherent (s.setBuf i { s.buf i with refcnt := n }) P' M A := by
  refine h.setBuf hinv hh.lt (h.data i hh.lt) (fun _ _ => h.valid_of_held hh)
    (fun j hj hji hdj => ⟨rfl, (hP _ (h.cache.blockno_ne hh.lt hh.caches hj hji hdj)).mp⟩)
    (fun c => ?_) (fun c hm => ?_)
  · rcases h.clean c with hd | hp | hm
    · exact Or.inl hd
    · by_cases hcb : c = b
      · subst hcb
        rcases hb hp with hd | hp'
        · exact Or.inl hd
        · exact Or.inr (Or.inl hp')
      · exact Or.inr (Or.inl ((hP c hcb).mpr hp))
    · exact Or.inr (Or.inr hm)
  · by_cases hci : (s.buf i).caches ROOTDEV c
    · exact Or.inl ⟨hci, hh.ne_none⟩
    · exact Or.inr ⟨hm, hci⟩

/-- **`bpin`** of a held block that is new to the log. -/
theorem bpin_coherent (h : Coherent s P M A) (hh : Holds s me b i) (hb : b ∉ P) :
    Coherent (bpin i s) (P ++ [b]) M A :=
  h.repin (h.cache.bpin hh.lt hh.caches hb) hh (fun c hcb => by simp [hcb])
    (fun hp => absurd hp hb)

/-- **`bunpin`** of a held block whose contents are on disk. -/
theorem bunpin_coherent (h : Coherent s P M A) (hh : Holds s me b i) (hb : b ∈ P) (hP : P.Nodup)
    (hdisk : s.disk b = A b) : Coherent (bunpin i s) (P.erase b) M A :=
  h.repin (h.cache.bunpin hh.lt hh.caches hb hP) hh (fun _ hcb => List.mem_erase_of_ne hcb)
    (fun _ => Or.inl hdisk)

end Coherence

end Xv6.Bio
