import Xv6.Umalloc.Runs

/-!
# When `malloc` returns

The heap grows by a block that goes through `free`, which cuts a large block at the top of the heap
to 256 units again.  A request that no block can serve then comes round to a heap that has not
grown.
-/

namespace Xv6.Umalloc

open Hoare Linked Tiling Transition

/-- A free block has `n` units. -/
def Fits (n : Nat) (bs : List Block) : Prop := ∃ b ∈ bs, b.tag = .free ∧ n ≤ b.size

/-- The size of the free block at the top of the heap, or 0. -/
def topFree (bs : List Block) : Nat :=
  match bs.getLast? with
  | some b => if b.tag = .free then b.size else 0
  | none => 0

section Growth

variable {refuses : Nat → Int → Bool} {lo limit brk g n : Nat} {bs cs : List Block}

theorem topFree_concat (b : Block) :
    topFree (bs ++ [b]) = if b.tag = .free then b.size else 0 := by
  rw [topFree, List.getLast?_concat]

theorem topFree_of_ne (h : ∀ x ∈ bs.getLast?, x.tag ≠ .free) : topFree bs = 0 := by
  unfold topFree
  split
  · rename_i b hb
    exact if_neg (h b hb)
  · rfl

theorem Joined.grown {pre' post' : List Block} {b' : Block}
    (hj : Joined bs ⟨brk, g, .live⟩ [] pre' b' post') (htiles : Tiles lo bs brk)
    (hlast : ∀ x ∈ pre'.getLast?, x.tag ≠ .free) :
    post' = [] ∧ b'.size = topFree bs + g ∧ b'.start + topFree bs = brk ∧
      pre'.length ≤ bs.length ∧ ∀ c ∈ pre', c ∈ bs := by
  obtain ⟨hpost, hstop⟩ : post' = [] ∧ b'.start + b'.size = brk + g := by
    rcases hj.right with ⟨rfl, hstop⟩ | ⟨y, hy, -⟩
    · exact ⟨rfl, hstop⟩
    · exact nomatch hy
  rcases hj.left with ⟨rfl, hstart⟩ | ⟨x, rfl, hx, hstart⟩
  · have hstart' : b'.start = brk := hstart
    have htop := topFree_of_ne hlast
    exact ⟨hpost, by omega, by omega, Nat.le_refl _, fun c hc => hc⟩
  · have htop : topFree (pre' ++ [x]) = x.size := (topFree_concat x).trans (if_pos hx)
    have hx' : x.start + x.size = brk := (tiles_split.mp htiles).2.2
    rw [List.length_append]
    exact ⟨hpost, by omega, by omega, Nat.le_add_right _ _, fun c hc => List.mem_append_left _ hc⟩

/-- The heap has grown, and been cut to 256 units of its top. -/
structure Cut (refuses : Nat → Int → Bool) (bs cs : List Block) (brk brk' : Nat) : Prop where
  fits : Fits 256 cs
  top : topFree cs ≤ 256
  least : ∀ n, 256 < n → ¬ Fits n bs → ¬ Fits n cs
  room : brk + 256 ≤ brk' + topFree bs
  granted : Shrinks refuses → topFree cs = 256 ∧ brk' + topFree bs = brk + 256

/-- **What a growth of the heap leaves.** -/
theorem Freed.growth {t : State} (h : Freed refuses bs ⟨brk, g, .live⟩ [] cs)
    (htiles : Tiles lo bs brk) (hcs : Rep lo limit t cs) :
    cs.length ≤ bs.length + 2 ∧ ((topFree bs + g < 1024 ∧ Fits g cs) ∨
      (1024 ≤ topFree bs + g ∧ Cut refuses bs cs brk t.brk)) := by
  obtain ⟨pre', b', post', hj, hbs⟩ := h
  have hsep := hcs.separate
  rcases hbs with ⟨rfl, hsmall⟩ | ⟨-, hlarge, rest, rfl, hlost, hlen, hshrinks⟩
  · have hlast : ∀ x ∈ pre'.getLast?, x.tag ≠ .free := fun x hx hfree =>
      (List.isChain_append.mp hsep).2.2 x hx b' rfl ⟨hfree, hj.tag⟩
    obtain ⟨rfl, hsize, -, hle, -⟩ := hj.grown htiles hlast
    have hsmall' := hsmall rfl
    refine ⟨?_, Or.inl ⟨by omega, b', List.mem_append_right _ List.mem_cons_self, hj.tag, by omega⟩⟩
    rw [List.length_append, List.length_singleton]
    omega
  · have hlast : ∀ x ∈ pre'.getLast?, x.tag ≠ .free := fun x hx hfree =>
      (List.isChain_append.mp hsep).2.2 x hx ⟨b'.start, 256, .free⟩ rfl ⟨hfree, rfl⟩
    obtain ⟨-, hsize, hstart, hle, hsub⟩ := hj.grown htiles hlast
    have hstop := (tiles_split.mp hcs.tiles).2.2.le
    refine ⟨?_, Or.inr ⟨by omega, ⟨_, List.mem_append_right _ List.mem_cons_self, rfl, Nat.le_refl _⟩,
      ?_, fun n hn hno => ?_, ?_, fun hgranted => ?_⟩⟩
    · rw [List.length_append, List.length_cons]
      omega
    · match rest, hlost with
      | [], _ => rw [topFree_concat, if_pos rfl]
      | [c], hlost =>
        rw [← List.singleton_append, ← List.append_assoc, topFree_concat,
          if_neg (by rw [hlost c List.mem_cons_self]; decide)]
        exact Nat.zero_le _
      | _ :: _ :: _, _ => exact absurd hlen (by simp)
    · rintro ⟨c, hc, hfree, hsize⟩
      rcases List.mem_append.mp hc with hc | hc
      · exact hno ⟨c, hsub c hc, hfree, hsize⟩
      · rcases List.mem_cons.mp hc with rfl | hc
        · exact absurd hsize (Nat.not_le.mpr hn)
        · rw [hlost c hc] at hfree
          cases hfree
    · unfold Tile.stop at hstop
      dsimp only at hstop
      omega
    · obtain rfl := hshrinks hgranted
      have hbrk : b'.start + 256 = t.brk := (tiles_split.mp hcs.tiles).2.2
      exact ⟨by rw [topFree_concat, if_pos rfl], by omega⟩

end Growth

/-! ### Requests that end -/

section Returns

variable {refuses : Nat → Int → Bool} {lo limit inner n : Nat} {s : State} {bs : List Block}

theorem growth_le (n : Nat) : n ≤ growth n := by
  unfold growth
  split <;> omega

theorem wp_mallocLoop_fits {fuel f : Nat} (h : Rep lo limit s bs) (hn : 0 < n) (hsmall : n < 2 ^ 27)
    (hfreep : s.freep = some f) (hfits : Fits n bs) (hfuel : bs.length < fuel)
    (hinner : 2 * bs.length + 5 ≤ inner) :
    wp (mallocLoop refuses limit inner n fuel f (s.next f)) (fun _ => False)
      (Served refuses lo limit n bs s) s := by
  refine wp_mallocLoop_grow h hn hsmall hfreep (Or.inl hfuel) (Or.inl hinner) fun hnone => ?_
  obtain ⟨b, hb, hfree, hle⟩ := hfits
  exact absurd (hnone b hb hfree) (Nat.not_lt.mpr hle)

/-- One growth of the heap is enough, or refused. -/
def Soon (n limit brk : Nat) (bs : List Block) : Prop :=
  Fits n bs ∨ n ≤ 256 ∨ topFree bs + growth n < 1024 ∨ limit < brk + growth n

theorem wp_mallocLoop_soon {fuel f : Nat} (h : Rep lo limit s bs) (hn : 0 < n)
    (hsmall : n < 2 ^ 27) (hfreep : s.freep = some f) (hsoon : Soon n limit s.brk bs)
    (hfuel : 2 * bs.length + 4 ≤ fuel) (hinner : 2 * bs.length + 9 ≤ inner) :
    wp (mallocLoop refuses limit inner n fuel f (s.next f)) (fun _ => False)
      (Served refuses lo limit n bs s) s := by
  refine wp_mallocLoop_grow h hn hsmall hfreep (Or.inl (by omega)) (Or.inl (by omega))
    fun hnone hfit cs t g fuel' hlt hle hfreed ht hg => ?_
  obtain ⟨hlen, hgrown⟩ := hfreed.growth h.tiles ht
  have hfits : Fits n cs := by
    rcases hgrown with ⟨-, b, hb, hfree, hsize⟩ | ⟨hlarge, hcut⟩
    · exact ⟨b, hb, hfree, Nat.le_trans (growth_le n) hsize⟩
    · rcases hsoon with ⟨b, hb, hfree, hsize⟩ | hsoon | hsoon | hsoon
      · exact absurd (hnone b hb hfree) (Nat.not_lt.mpr hsize)
      · obtain ⟨b, hb, hfree, hsize⟩ := hcut.fits
        exact ⟨b, hb, hfree, Nat.le_trans hsoon hsize⟩
      · omega
      · omega
  exact wp_mallocLoop_fits ht hn hsmall hg hfits (by omega) (by omega)

/-- When a request of `n` units is served or refused, whatever `sbrk` does. -/
def Ends (n limit brk : Nat) (bs : List Block) : Prop :=
  Fits n bs ∨ n < 768 ∨ topFree bs + n < 1024 ∨ limit < brk + n ∨ limit + topFree bs < brk + 256 + n

/-- **Such requests return.** -/
theorem wp_mallocLoop_ends {fuel f : Nat} (h : Rep lo limit s bs) (hn : 0 < n)
    (hsmall : n < 2 ^ 27) (hfreep : s.freep = some f) (hends : Ends n limit s.brk bs)
    (hfuel : 3 * bs.length + 12 ≤ fuel) (hinner : 2 * bs.length + 13 ≤ inner) :
    wp (mallocLoop refuses limit inner n fuel f (s.next f)) (fun _ => False)
      (Served refuses lo limit n bs s) s := by
  refine wp_mallocLoop_grow h hn hsmall hfreep (Or.inl (by omega)) (Or.inl (by omega))
    fun hnone hfit cs t g fuel' hlt hle hfreed ht hg => ?_
  obtain ⟨hlen, hgrown⟩ := hfreed.growth h.tiles ht
  refine wp_mallocLoop_soon ht hn hsmall hg ?_ (by omega) (by omega)
  rcases hgrown with ⟨-, b, hb, hfree, hsize⟩ | ⟨hlarge, hcut⟩
  · exact Or.inl ⟨b, hb, hfree, Nat.le_trans (growth_le n) hsize⟩
  · -- a second growth starts from 256 units at most
    refine Or.inr ?_
    by_cases hle256 : n ≤ 256
    · exact Or.inl hle256
    have hgrowth : growth n = n := if_neg (by omega)
    have htop := hcut.top
    have hbrk := hcut.room
    rw [hgrowth] at hfit hlarge ⊢
    rcases hends with ⟨b, hb, hfree, hsize⟩ | hends
    · exact absurd (hnone b hb hfree) (Nat.not_lt.mpr hsize)
    · omega

/-! ### Requests that do not -/

/-- **Other requests never return** when `sbrk` grants what they ask for. -/
theorem mallocLoop_diverges {fuel f : Nat} (h : Rep lo limit s bs) (hn : 0 < n)
    (hsmall : n < 2 ^ 27) (hfreep : s.freep = some f) (hends : ¬ Ends n limit s.brk bs) :
    mallocLoop (fun _ _ => false) limit inner n fuel f (s.next f) s = .error .running := by
  have hwp : wp (mallocLoop (fun _ _ => false) limit inner n fuel f (s.next f)) (· = .running)
      (fun _ _ => False) s := by
    induction fuel using Nat.strong_induction_on generalizing s bs f with
    | _ fuel ih =>
      have hno : ¬ Fits n bs := fun hfits => hends (Or.inl hfits)
      simp only [Ends, not_or, Nat.not_lt] at hends
      obtain ⟨-, hlarge, htop, hroom, hroom'⟩ := hends
      have hgrowth : growth n = n := if_neg (by omega)
      refine wp_round_freep h hn hfreep (Or.inr rfl)
        (fun pre b post c cs s' hbs hb htaken hc _ _ => hno ⟨b, ?_, hb, ?_⟩)
        fun _ fuel' hlt _ => ?_
      · rw [hbs]
        exact List.mem_append_right _ List.mem_cons_self
      · obtain ⟨-, -, hstart, hstop⟩ := htaken
        unfold Tile.stop at hstop
        omega
      · rw [hgrowth]
        refine wp_mono (wp_addHeaptop_up h hn hsmall (Or.inr rfl)) fun r t ht => ?_
        rcases ht with ⟨rfl, -, -, hno | hno⟩ | ⟨-, cs, g, rfl, hg, hfreed, ht, -⟩
        · exact nomatch hno
        · omega
        · obtain ⟨-, hgrown⟩ := hfreed.growth h.tiles ht
          rcases hgrown with ⟨hlt, -⟩ | ⟨-, hcut⟩
          · omega
          · obtain ⟨htop', hbrk⟩ := hcut.granted fun _ _ _ => rfl
            refine ih fuel' hlt ht hg fun hends' => ?_
            rcases hends' with hfits | hends'
            · exact hcut.least n (by omega) hno hfits
            · omega
  obtain ⟨e, herror, rfl⟩ := wp_fails hwp
  exact herror

/-! ### What the loop finds after a growth -/

/-- The free list has a block of `n` units. -/
def State.HasFree (s : State) (n : Nat) : Prop := ∃ k, n ≤ (s.mem (s.next^[k] base)).size

theorem Rep.hasFree_iff (h : Rep lo limit s bs) (hn : 0 < n) : s.HasFree n ↔ Fits n bs := by
  constructor
  · rintro ⟨k, hk⟩
    obtain ⟨pre, b, post, rfl, hfree, -, hsize⟩ :=
      h.block_of_size (h.ring.iterate_mem k) (Nat.lt_of_lt_of_le hn hk)
    exact ⟨b, List.mem_append_right _ List.mem_cons_self, hfree, hsize ▸ hk⟩
  · rintro ⟨b, hb, hfree, hle⟩
    have hmem : b.start ∈ base :: frees bs :=
      List.mem_cons_of_mem _ (mem_frees.mpr ⟨b, hb, hfree, rfl⟩)
    obtain ⟨k, hk⟩ := h.ring.exists_iterate hmem
    refine ⟨k, ?_⟩
    rw [hk, h.sizes b hb (by rw [hfree]; decide)]
    exact hle

/-- Every growth that is granted leaves a block for the request that made it. -/
def GrowthServes (n limit : Nat) (s : State) : Prop :=
  ∀ refuses fuel f t, addHeaptop refuses limit fuel (growth n) s = .ok (some f, t) → t.HasFree n

theorem growthServes_iff (h : Rep lo limit s bs) (hn : 0 < n) (hsmall : n < 2 ^ 27)
    (hno : ¬ Fits n bs) : GrowthServes n limit s ↔
      n ≤ 256 ∨ topFree bs + growth n < 1024 ∨ limit < s.brk + growth n := by
  have hgrowth : growth n < 2 ^ 27 := by
    unfold growth
    split <;> omega
  constructor
  · intro hserves
    by_contra hcontra
    simp only [not_or, Nat.not_lt, Nat.not_le] at hcontra
    obtain ⟨hlarge, htop, hroom⟩ := hcontra
    obtain ⟨r, t, hrun, ht⟩ : ∃ r t,
        addHeaptop (fun _ _ => false) limit (2 * bs.length + 5) (growth n) s = .ok (r, t) ∧ _ :=
      wp_total (wp_addHeaptop_up h (growth_pos n) hgrowth (Or.inl (Nat.le_refl _)))
    rcases ht with ⟨rfl, -, -, hno | hno⟩ | ⟨-, cs, g, rfl, hg, hfreed, ht, -⟩
    · exact nomatch hno
    · omega
    · obtain ⟨-, ⟨hlt, -⟩ | ⟨-, hcut⟩⟩ := hfreed.growth h.tiles ht
      · omega
      · exact hcut.least n hlarge hno ((ht.hasFree_iff hn).mp (hserves _ _ _ _ hrun))
  · intro hcond refuses fuel f t hrun
    have hpost := wp_ok (wp_addHeaptop_up (E := fun _ => True) h (growth_pos n) hgrowth
      (Or.inr trivial)) hrun
    rcases hpost with ⟨hnone, -⟩ | ⟨hroom, cs, g, -, -, hfreed, ht, -⟩
    · exact nomatch hnone
    · refine (ht.hasFree_iff hn).mpr ?_
      obtain ⟨-, ⟨-, b, hb, hfree, hsize⟩ | ⟨hlarge, hcut⟩⟩ := hfreed.growth h.tiles ht
      · exact ⟨b, hb, hfree, Nat.le_trans (growth_le n) hsize⟩
      · obtain ⟨b, hb, hfree, hsize⟩ := hcut.fits
        exact ⟨b, hb, hfree, by omega⟩

end Returns

/-- The call returns null or a block for the bytes asked for, whatever `sbrk` grants below
    `limit`. -/
def Returns (nbytes limit : Nat) (s : State) : Prop :=
  ∀ refuses, ∃ enough, ∀ fuel ≥ enough, ∃ r t, malloc refuses limit fuel nbytes s = .ok (r, t) ∧
    ∀ p, r = some p → nbytes ≤ 16 * ((t.mem (p - 1)).size - 1)

theorem returns_iff {lo limit nbytes : Nat} {s : State} {bs : List Block}
    (h : Rep lo limit s.opened bs) (hbytes : nbytes < 2 ^ 31 - 32) :
    Returns nbytes limit s ↔ Ends (unitsFor nbytes) limit s.brk bs := by
  obtain ⟨hpos, hsmall, hroom⟩ := unitsFor_spec hbytes
  obtain ⟨f, -, hf⟩ := h.freep
  rw [← (opened_break s).1]
  constructor
  · intro hreturns
    by_contra hends
    obtain ⟨enough, henough⟩ := hreturns fun _ _ => false
    obtain ⟨r, t, hrun, -⟩ := henough enough (Nat.le_refl _)
    rw [malloc_eq hf, mallocLoop_diverges h hpos hsmall hf hends] at hrun
    exact nomatch hrun
  · intro hends refuses
    refine ⟨3 * bs.length + 13, fun fuel hfuel => ?_⟩
    obtain ⟨r, t, hrun, ⟨cs, new, hcs, hsame, rfl, hspec, -⟩, -⟩ := wp_total
      (wp_mallocLoop_ends h hpos hsmall hf hends (show 3 * bs.length + 12 ≤ fuel by omega)
        (show 2 * bs.length + 13 ≤ fuel by omega))
    refine ⟨_, t, (malloc_eq hf).trans hrun, fun p hp => ?_⟩
    obtain ⟨c, rfl, rfl⟩ := Option.map_eq_some_iff.mp hp
    obtain ⟨hlive, hsize, -⟩ := hspec c rfl
    have hc : c ∈ cs := (hsame c hlive).mpr (Or.inr rfl)
    rw [Nat.add_sub_cancel, hcs.sizes c hc (by rw [hlive]; decide), hsize]
    exact hroom

/-- **When `malloc` returns.**  In every state that a program reaches, a request returns for every
    `sbrk` if and only if a free block is large enough for it, or it is of less than 768 units, or of
    so few that the block at the top stays below 1024 units, or the growth is beyond the limit.  A
    growth leaves a block for the request under narrower conditions still. -/
theorem malloc_returns_iff {refuses : Nat → Int → Bool} {lo limit nbytes : Nat}
    {mem : Nat → Header} {s : Client} (hlo : base < lo) (hle : lo ≤ limit)
    (hlimit : limit ≤ lo + MAXUNITS)
    (hs : Reachable (Client.init lo mem) (step refuses limit) Allowed s)
    (hbytes : nbytes < 2 ^ 31 - 32) :
    ∃ bs, Rep lo limit s.heap.opened bs ∧
      (Returns nbytes limit s.heap ↔ Ends (unitsFor nbytes) limit s.heap.brk bs) ∧
      (¬ Fits (unitsFor nbytes) bs → (GrowthServes (unitsFor nbytes) limit s.heap.opened ↔
        unitsFor nbytes ≤ 256 ∨ topFree bs + growth (unitsFor nbytes) < 1024 ∨
          limit < s.heap.brk + growth (unitsFor nbytes))) := by
  obtain ⟨bs, h⟩ := inv_of_reachable hlo hle hlimit hs
  obtain ⟨hpos, hsmall, -⟩ := unitsFor_spec hbytes
  refine ⟨bs, h.rep, returns_iff h.rep hbytes, fun hno => ?_⟩
  rw [growthServes_iff h.rep hpos hsmall hno, (opened_break s.heap).1]

theorem malloc_returns_iff_twoBlocks :
    Returns 100 4096 (clientAfter (fun _ _ => false) twoBlocks).heap := by
  obtain ⟨bs, -, hiff, -⟩ := malloc_returns_iff (by decide) (by decide)
    (by unfold MAXUNITS; decide) reachable_twoBlocks (show 100 < 2 ^ 31 - 32 by decide)
  exact hiff.mpr (Or.inr (Or.inl (by decide)))

/-- The first call of a program, for 16 KiB, never returns. -/
theorem malloc_16384_hangs : ¬ ∃ fuel,
    malloc (fun _ _ => false) (1 + MAXUNITS) fuel 16384 (Client.init 1 fun _ => ⟨0, 0⟩).heap ≠
      .error .running := by
  rintro ⟨fuel, hreturns⟩
  refine hreturns ?_
  have hinit : Inv (fun _ _ => false) 1 (1 + MAXUNITS) (Client.init 1 fun _ => ⟨0, 0⟩) [] :=
    inv_init (by decide) (by unfold MAXUNITS; decide) (Nat.le_refl _) _
  obtain ⟨f, -, hf⟩ := hinit.rep.freep
  rw [malloc_eq hf]
  refine mallocLoop_diverges hinit.rep (by decide) (by decide) hf ?_
  rintro (⟨b, hb, -⟩ | hlt | hlt | hlt | hlt)
  · exact nomatch hb
  · exact absurd hlt (by decide)
  · exact absurd hlt (by decide)
  · exact absurd hlt (by unfold MAXUNITS; decide)
  · exact absurd hlt (by unfold MAXUNITS; decide)

end Xv6.Umalloc
