import Xv6.Umalloc.Free

/-!
# Taking a block

`malloc` goes round the free list, takes the first block that is large enough, and has the heap
grow when it has come round without one.
-/

namespace Xv6.Umalloc

open Hoare Linked Tiling Function

section Take

variable {lo limit : Nat} {s s' : State} {pre post : List Block} {b : Block} {E : Stop → Prop}
  {n prevp : Nat}

theorem Rep.pred_eq (h : Rep lo limit s (pre ++ b :: post)) (hb : b.tag = .free)
    (hmem : prevp ∈ base :: frees (pre ++ b :: post)) (hnext : s.next prevp = b.start) :
    prevp = (frees pre).getLastD base := by
  have hring := h.ring
  have hnodup := h.nodup
  rw [frees_append, frees_cons_free hb] at hring hnodup hmem
  refine hring.pred_eq hnodup.of_cons ?_ hmem hnext
  exact Nat.ne_of_gt (h.base_lt (List.mem_append_right pre List.mem_cons_self))

theorem Rep.takeAll (h : Rep lo limit s (pre ++ b :: post)) (hb : b.tag = .free)
    (hs' : s' = s.setHeader ((frees pre).getLastD base)
      { s.mem ((frees pre).getLastD base) with ptr := s.next b.start }) :
    Rep lo limit { s' with freep := some ((frees pre).getLastD base) }
      (pre ++ ⟨b.start, b.size, .live⟩ :: post) := by
  have hmem : ∀ {c}, c ∈ pre ++ (⟨b.start, b.size, .live⟩ : Block) :: post →
      c = ⟨b.start, b.size, .live⟩ ∨ c ∈ pre ++ b :: post := fun hc => by
    simp only [List.mem_append, List.mem_cons] at hc ⊢
    tauto
  have hring := h.ring
  have hnodup := h.nodup
  have hfrees : frees (pre ++ (⟨b.start, b.size, .live⟩ : Block) :: post) =
      frees pre ++ frees post := by
    rw [frees_append, frees_cons_used (show Kind.live ≠ Kind.free by decide)]
  rw [frees_append, frees_cons_free hb] at hring hnodup
  generalize hp : (frees pre).getLastD base = p at *
  have hsize : ∀ a, (s'.mem a).size = (s.mem a).size := fun a => by
    by_cases ha : a = p
    · rw [ha, hs', State.setHeader_self]
    · rw [hs', State.setHeader_ne _ _ ha]
  have hbrk : s'.brk = s.brk ∧ s'.heaptop = s.heaptop := by rw [hs']; exact ⟨rfl, rfl⟩
  refine ⟨h.pos, ?_, ?_, h.limit_le, fun c hc hlost => ?_, ?_, ?_, ⟨p, ?_, rfl⟩, fun _ => ?_, ?_⟩
  · show Tiles lo _ s'.brk
    rw [hbrk.1]
    obtain ⟨hleft, hpos, hright⟩ := tiles_split.mp h.tiles
    exact tiles_split.mpr ⟨hleft, hpos, hright⟩
  · show s'.brk ≤ limit
    rw [hbrk.1]
    exact h.small
  · show (s'.mem c.start).size = c.size
    rw [hsize]
    rcases hmem hc with rfl | hc
    · exact h.sizes b (List.mem_append_right pre List.mem_cons_self) (by rw [hb]; decide)
    · exact h.sizes c hc hlost
  · exact (hsize base).trans h.base_size
  · rw [hfrees]
    refine hring.skip (List.suffix_cons _ _) ?_ (fun x hx hxp => ?_) ?_
    · exact hnodup.sublist (List.Sublist.cons_cons _ ((List.sublist_cons_self _ _).append_left _))
    · rw [hp] at hxp
      show (s'.mem x).ptr = (s.mem x).ptr
      rw [hs', State.setHeader_ne _ _ hxp]
    · rw [hp]
      show (s'.mem p).ptr = _
      rw [hs', State.setHeader_self]
      have hrest := (path_append_cons.mp hring).2
      rw [← List.nil_append (frees post)] at hrest
      exact hrest.split.1
  · rw [hfrees, ← hp, ← List.cons_append]
    exact List.mem_append_left _ (getLastD_mem base (frees pre))
  · show s'.heaptop = s'.brk
    rw [hbrk.1, hbrk.2]
    exact h.heaptop (by simp)
  · have hchain := List.isChain_append.mp h.separate
    refine List.isChain_append.mpr ⟨hchain.1, List.isChain_cons.mpr ⟨fun c _ hboth => ?_,
      (List.isChain_cons.mp hchain.2.1).2⟩, fun x _ c hc hboth => ?_⟩
    · cases hboth.1
    · rw [List.head?_cons, Option.mem_some_iff] at hc
      rw [← hc] at hboth
      cases hboth.2

theorem Rep.takeTail (h : Rep lo limit s (pre ++ b :: post)) (hb : b.tag = .free) (hn : 0 < n)
    (hlt : n < b.size) (hp : prevp ∈ base :: frees (pre ++ b :: post))
    (hs' : s' = (s.setHeader b.start { s.mem b.start with size := b.size - n }).setHeader
      (b.start + (b.size - n)) { s.mem (b.start + (b.size - n)) with size := n }) :
    Rep lo limit { s' with freep := some prevp }
      (pre ++ ⟨b.start, b.size - n, .free⟩ :: ⟨b.start + (b.size - n), n, .live⟩ :: post) := by
  obtain ⟨hleft, hpos, hright⟩ := tiles_split.mp h.tiles
  have hne : b.start + (b.size - n) ≠ b.start := by omega
  have hself : s'.mem (b.start + (b.size - n)) =
      { s.mem (b.start + (b.size - n)) with size := n } := by
    rw [hs', State.setHeader_self]
  have hstart : s'.mem b.start = { s.mem b.start with size := b.size - n } := by
    rw [hs', State.setHeader_ne _ _ hne.symm, State.setHeader_self]
  have hother : ∀ a, a ≠ b.start → a ≠ b.start + (b.size - n) → s'.mem a = s.mem a := fun a h₁ h₂ => by
    rw [hs', State.setHeader_ne _ _ h₂, State.setHeader_ne _ _ h₁]
  have hptr : ∀ a, (s'.mem a).ptr = (s.mem a).ptr := fun a => by
    by_cases h₂ : a = b.start + (b.size - n)
    · rw [h₂, hself]
    · by_cases h₁ : a = b.start
      · rw [h₁, hstart]
      · rw [hother a h₁ h₂]
  -- blocks and `base` are outside
  have hkeep : ∀ c ∈ pre ++ post, s'.mem c.start = s.mem c.start := fun c hc => by
    refine hother _ (h.start_ne hc) ?_
    rcases List.mem_append.mp hc with hc | hc
    · have := hleft.bounds hc
      unfold Tile.stop at this
      omega
    · have := (hright.bounds hc).1
      unfold Tile.stop at this
      omega
  have hfrees : frees (pre ++ (⟨b.start, b.size - n, .free⟩ : Block) ::
      ⟨b.start + (b.size - n), n, .live⟩ :: post) = frees (pre ++ b :: post) := by
    rw [frees_append, frees_append, frees_cons_free rfl, frees_cons_free hb,
      frees_cons_used (show Kind.live ≠ Kind.free by decide)]
  have hbrk : s'.brk = s.brk ∧ s'.heaptop = s.heaptop := by rw [hs']; exact ⟨rfl, rfl⟩
  have hbase := h.base_lt (List.mem_append_right pre List.mem_cons_self)
  refine ⟨h.pos, ?_, ?_, h.limit_le, fun c hc hlost => ?_, ?_, ?_, ⟨prevp, ?_, rfl⟩, fun _ => ?_, ?_⟩
  · refine tiles_split.mpr ⟨hleft, Nat.sub_pos_of_lt hlt, rfl, hn, ?_⟩
    show Tiles (b.start + (b.size - n) + n) post s'.brk
    rw [hbrk.1, show b.start + (b.size - n) + n = b.stop by unfold Tile.stop; omega]
    exact hright
  · show s'.brk ≤ limit
    rw [hbrk.1]
    exact h.small
  · show (s'.mem c.start).size = c.size
    have hold : c ∈ pre ++ post → (s'.mem c.start).size = c.size := fun hc' => by
      rw [hkeep c hc']
      refine h.sizes c ?_ hlost
      simp only [List.mem_append, List.mem_cons] at hc' ⊢
      tauto
    simp only [List.mem_append, List.mem_cons] at hc
    rcases hc with hc | rfl | rfl | hc
    · exact hold (List.mem_append_left _ hc)
    · exact congrArg Header.size hstart
    · exact congrArg Header.size hself
    · exact hold (List.mem_append_right _ hc)
  · show (s'.mem base).size = 0
    rw [hother base (by omega) (by omega), h.base_size]
  · rw [hfrees]
    exact h.ring.congr fun a _ => hptr a
  · rw [hfrees]
    exact hp
  · show s'.heaptop = s'.brk
    rw [hbrk.1, hbrk.2]
    exact h.heaptop (by simp)
  · have hchain := List.isChain_append.mp h.separate
    refine List.isChain_append.mpr ⟨hchain.1, List.isChain_cons_cons.mpr ⟨fun hboth => ?_,
      List.isChain_cons.mpr ⟨fun c _ hboth => ?_, (List.isChain_cons.mp hchain.2.1).2⟩⟩,
      fun x hx c hc hboth => ?_⟩
    · cases hboth.2
    · cases hboth.1
    · exact hchain.2.2 x hx b rfl ⟨hboth.1, hb⟩

/-- What `malloc` leaves of the blocks when it takes `c`. -/
def Taken (pre : List Block) (b : Block) (post : List Block) (c : Block) (bs : List Block) : Prop :=
  c.tag = .live ∧ (bs = pre ++ c :: post ∨ ∃ r, r.tag = .free ∧ bs = pre ++ r :: c :: post) ∧
    b.start ≤ c.start ∧ c.stop = b.stop

/-- **Taking units** from a free block. -/
theorem wp_take (h : Rep lo limit s (pre ++ b :: post)) (hb : b.tag = .free) (hn : 0 < n)
    (hle : n ≤ b.size) (hp : prevp ∈ base :: frees (pre ++ b :: post))
    (hnext : s.next prevp = b.start) :
    wp (take n prevp b.start) E (fun r s' => ∃ c bs, Taken pre b post c bs ∧ c.size = n ∧
      r = c.start + 1 ∧ Rep lo limit s' bs ∧ Kept (pre ++ post) s s') s := by
  have hsize := h.sizes b (List.mem_append_right pre List.mem_cons_self) (by rw [hb]; decide)
  have hpred := h.pred_eq hb hp hnext
  have hin : ∀ {c}, c ∈ pre ++ post → c ∈ pre ++ b :: post := fun hc => by
    simp only [List.mem_append, List.mem_cons] at hc ⊢
    tauto
  simp only [take, wp_bind, wp_get]
  rw [hsize, wp_ite]
  refine ⟨fun heq => ?_, fun hne => ?_⟩
  · subst heq hpred
    simp only [setPtr, setFreep, wp_bind, wp_modify, wp_pure]
    refine ⟨⟨b.start, b.size, .live⟩, _, ⟨rfl, Or.inl rfl, Nat.le_refl _, rfl⟩, rfl, rfl,
      h.takeAll hb rfl, fun c hc hused a hle hlt => ?_, fun _ _ _ hle => hle⟩
    exact update_of_ne (h.pred_outside (hin hc) hused hle hlt) ..
  · simp only [setSize, setFreep, wp_bind, wp_modify, wp_pure]
    have hlt : n < b.size := by omega
    rw [update_of_ne (show b.start + (b.size - n) ≠ b.start by omega)]
    refine ⟨⟨b.start + (b.size - n), n, .live⟩, _, ⟨rfl, Or.inr ⟨⟨b.start, b.size - n, .free⟩, rfl,
      rfl⟩, Nat.le_add_right _ _, ?_⟩, rfl, rfl, h.takeTail hb hn hlt hp rfl,
      fun c hc hused a hle hlt' => ?_, fun _ _ _ hle => hle⟩
    · show b.start + (b.size - n) + n = b.start + b.size
      omega
    · have hcb := h.tiles.apart (hin hc) (List.mem_append_right pre List.mem_cons_self)
        fun heq => hused (heq ▸ hb)
      have hb₀ := h.start_outside hc hle hlt'
      have hb₁ : a ≠ b.start + (b.size - n) := by
        unfold Tile.stop at hcb hlt'
        omega
      show update _ _ _ a = _
      rw [update_of_ne hb₁, update_of_ne hb₀]

end Take

/-! ### The loop -/

section Walk

variable {refuses : Nat → Int → Bool} {lo limit inner n : Nat} {s : State} {bs : List Block}
  {E : Stop → Prop} {Q : Option Nat → State → Prop}

theorem Rep.block_of_size (h : Rep lo limit s bs) {p : Nat} (hp : p ∈ base :: frees bs)
    (hpos : 0 < (s.mem p).size) :
    ∃ pre b post, bs = pre ++ b :: post ∧ b.tag = .free ∧ b.start = p ∧ b.size = (s.mem p).size := by
  rcases List.mem_cons.mp hp with rfl | hp
  · rw [h.base_size] at hpos
    exact absurd hpos (Nat.lt_irrefl 0)
  · obtain ⟨b, hb, hfree, rfl⟩ := mem_frees.mp hp
    obtain ⟨pre, post, rfl⟩ := List.append_of_mem hb
    exact ⟨pre, b, post, rfl, hfree, rfl, (h.sizes b hb (by rw [hfree]; decide)).symm⟩

/-- **One round of the free list**, the nodes `rest` and `freep` being left: a block is taken, or
    none is large enough. -/
theorem wp_round {fuel prevp f : Nat} {rest : List Nat} (h : Rep lo limit s bs) (hn : 0 < n)
    (hfreep : s.freep = some f) (hpath : Path s.next prevp rest f)
    (hprev : prevp ∈ base :: frees bs) (hrest : ∀ x ∈ rest ++ [f], x ∈ base :: frees bs)
    (hf : f ∉ rest) (hfuel : rest.length < fuel ∨ E .running)
    (hseen : ∀ x ∈ base :: frees bs, x ∈ rest ++ [f] ∨ (s.mem x).size < n)
    (htake : ∀ pre b post c cs s', bs = pre ++ b :: post → b.tag = .free → Taken pre b post c cs →
      c.size = n → Rep lo limit s' cs → Kept (pre ++ post) s s' → Q (some (c.start + 1)) s')
    (hgrow : (∀ b ∈ bs, b.tag = .free → b.size < n) → ∀ fuel', fuel' < fuel →
      fuel ≤ fuel' + rest.length + 1 →
      wp (addHeaptop refuses limit inner (growth n)) E (fun r t => match r with
        | none => Q none t
        | some p => wp (mallocLoop refuses limit inner n fuel' p (t.next p)) E Q t) s) :
    wp (mallocLoop refuses limit inner n fuel prevp (s.next prevp)) E Q s := by
  induction rest generalizing prevp fuel with
  | nil =>
    cases fuel with
    | zero => exact hfuel.resolve_left (Nat.not_lt_zero _)
    | succ fuel =>
      have hp : s.next prevp = f := hpath
      rw [hp]
      simp only [mallocLoop, wp_bind, wp_get]
      rw [wp_ite]
      refine ⟨fun hfits => ?_, fun hsmall => ?_⟩
      · obtain ⟨pre, b, post, rfl, hb, rfl, hsize⟩ :=
          h.block_of_size (hrest f List.mem_cons_self) (Nat.lt_of_lt_of_le hn hfits)
        rw [wp_bind]
        refine wp_mono (wp_take h hb hn (hsize ▸ hfits) hprev hp) ?_
        rintro a t ⟨c, cs, htaken, hc, ha, ht, hkept⟩
        subst ha
        exact htake pre b post c cs t rfl hb htaken hc ht hkept
      · rw [if_pos hfreep, wp_bind]
        refine wp_mono (hgrow (fun b hb hfree => ?_) fuel (Nat.lt_succ_self _) (by simp))
          fun r t hr => ?_
        · have hmem : b.start ∈ base :: frees bs :=
            List.mem_cons_of_mem _ (mem_frees.mpr ⟨b, hb, hfree, rfl⟩)
          have hsize := h.sizes b hb (by rw [hfree]; decide)
          rcases hseen b.start hmem with hx | hx
          · rw [List.mem_singleton.mp hx] at hsize
            omega
          · omega
        · cases r with
          | none => exact hr
          | some p => exact hr
  | cons x rest ih =>
    cases fuel with
    | zero => exact hfuel.resolve_left (Nat.not_lt_zero _)
    | succ fuel =>
      have hp : s.next prevp = x := hpath.1
      have hx : x ∈ base :: frees bs := hrest x List.mem_cons_self
      rw [hp]
      simp only [mallocLoop, wp_bind, wp_get]
      rw [wp_ite]
      refine ⟨fun hfits => ?_, fun hsmall => ?_⟩
      · obtain ⟨pre, b, post, rfl, hb, rfl, hsize⟩ :=
          h.block_of_size hx (Nat.lt_of_lt_of_le hn hfits)
        rw [wp_bind]
        refine wp_mono (wp_take h hb hn (hsize ▸ hfits) hprev hp) ?_
        rintro a t ⟨c, cs, htaken, hc, ha, ht, hkept⟩
        subst ha
        exact htake pre b post c cs t rfl hb htaken hc ht hkept
      · have hne : ¬ s.freep = some x := fun heq => by
          rw [hfreep] at heq
          exact hf (Option.some.inj heq ▸ List.mem_cons_self)
        rw [if_neg hne]
        refine ih hpath.2 hx (fun y hy => hrest y (List.mem_cons_of_mem x hy))
          (fun hmem => hf (List.mem_cons_of_mem x hmem)) (hfuel.imp_left Nat.lt_of_succ_lt_succ)
          (fun y hy => ?_) fun hnone fuel' hlt hle => hgrow hnone fuel' (Nat.lt_succ_of_lt hlt) ?_
        · rcases hseen y hy with hmem | hlt
          · rcases List.mem_cons.mp hmem with rfl | hmem
            · exact Or.inr (Nat.not_le.mp hsmall)
            · exact Or.inl hmem
          · exact Or.inr hlt
        · rw [List.length_cons]
          omega

theorem wp_round_freep {fuel f : Nat} (h : Rep lo limit s bs) (hn : 0 < n)
    (hfreep : s.freep = some f) (hfuel : bs.length < fuel ∨ E .running)
    (htake : ∀ pre b post c cs s', bs = pre ++ b :: post → b.tag = .free → Taken pre b post c cs →
      c.size = n → Rep lo limit s' cs → Kept (pre ++ post) s s' → Q (some (c.start + 1)) s')
    (hgrow : (∀ b ∈ bs, b.tag = .free → b.size < n) → ∀ fuel', fuel' < fuel →
      fuel ≤ fuel' + bs.length + 1 →
      wp (addHeaptop refuses limit inner (growth n)) E (fun r t => match r with
        | none => Q none t
        | some p => wp (mallocLoop refuses limit inner n fuel' p (t.next p)) E Q t) s) :
    wp (mallocLoop refuses limit inner n fuel f (s.next f)) E Q s := by
  obtain ⟨g, hg, hfg⟩ := h.freep
  obtain rfl : g = f := Option.some.inj (hfg.symm.trans hfreep)
  obtain ⟨rest, hpath, hperm⟩ := h.ring.rotate hg
  have hnodup : (g :: rest).Nodup := hperm.nodup_iff.mpr h.nodup
  have hlen := hperm.length_eq
  have hle := length_frees_le bs
  rw [List.length_cons, List.length_cons] at hlen
  have hmem' : ∀ x, x ∈ rest ++ [g] ↔ x ∈ base :: frees bs := fun x => by
    rw [← hperm.mem_iff, List.mem_append, List.mem_singleton, List.mem_cons, or_comm]
  refine wp_round h hn hfreep hpath hg (fun x hx => (hmem' x).mp hx) (List.nodup_cons.mp hnodup).1
    (hfuel.imp_left fun hlt => by omega) (fun x hx => Or.inl ((hmem' x).mpr hx)) htake
    fun hnone fuel' hlt hle' => hgrow hnone fuel' hlt (by omega)

/-! ### What a call does -/

/-- The blocks `cs` have the live blocks of `bs`, and `new` if there is one. -/
def SameLive (bs cs : List Block) (new : Option Block) : Prop :=
  ∀ c : Block, c.tag = .live → (c ∈ cs ↔ c ∈ bs ∨ new = some c)

theorem Freed.sameLive {pre post cs : List Block} {b : Block} (h : Freed refuses pre b post cs) :
    SameLive (pre ++ post) cs none := by
  intro c hc
  obtain ⟨pre', b', post', hj, hcs⟩ := h
  have hused : c.tag ≠ .free := by rw [hc]; decide
  rw [hj.mem hused]
  have hne : ∀ {d : Block}, d.tag = .free → c ≠ d := fun hd heq => hused (heq ▸ hd)
  rcases hcs with ⟨rfl, -⟩ | ⟨rfl, -, rest, rfl, hrest, -⟩
  · simp only [List.mem_append, List.mem_cons, hne hj.tag, false_or, reduceCtorEq, or_false]
  · have hlost : c ∉ rest := fun hmem => by
      rw [hrest c hmem] at hc
      cases hc
    simp only [List.mem_append, List.mem_cons, hlost, or_false, List.not_mem_nil, reduceCtorEq]
    exact ⟨fun h => h.resolve_right (hne rfl), Or.inl⟩

theorem Freed.used {pre post cs : List Block} {b c : Block} (h : Freed refuses pre b post cs)
    (hc : c ∈ pre ++ post) (hused : c.tag ≠ .free) : c ∈ cs := by
  obtain ⟨pre', b', post', hj, hcs⟩ := h
  have hmem := (hj.mem hused).mp hc
  rcases hcs with ⟨rfl, -⟩ | ⟨rfl, -, rest, rfl, -⟩
  · simp only [List.mem_append, List.mem_cons] at hmem ⊢
    tauto
  · rw [List.append_nil] at hmem
    exact List.mem_append_left _ hmem

/-- **What `malloc` of `n` units does**: it returns null, or a new block. -/
structure Served (refuses : Nat → Int → Bool) (lo limit n : Nat) (bs : List Block) (s : State)
    (r : Option Nat) (s' : State) : Prop where
  blocks : ∃ cs new, Rep lo limit s' cs ∧ SameLive bs cs new ∧ r = new.map (fun c => c.start + 1) ∧
    (∀ c, new = some c → c.tag = .live ∧ c.size = n ∧ c ∉ bs) ∧
    (Shrinks refuses → NoneLost bs → NoneLost cs)
  kept : Kept bs s s'

theorem Taken.served {pre post cs : List Block} {b c : Block} {s' : State}
    (h : Rep lo limit s (pre ++ b :: post)) (hb : b.tag = .free) (ht : Taken pre b post c cs)
    (hc : c.size = n) (hcs : Rep lo limit s' cs) (hkept : Kept (pre ++ post) s s') :
    Served refuses lo limit n (pre ++ b :: post) s (some (c.start + 1)) s' := by
  obtain ⟨hlive, hlist, hstart, hstop⟩ := ht
  have hnot : c ∉ pre ++ b :: post := fun hmem => by
    have hne : c ≠ b := fun heq => by
      rw [heq, hb] at hlive
      cases hlive
    have hpos := (h.tiles.bounds hmem).2.1
    have := h.tiles.apart hmem (List.mem_append_right pre List.mem_cons_self) hne
    unfold Tile.stop at this hstop
    omega
  refine ⟨⟨cs, some c, hcs, fun d hd => ?_, rfl, fun d hd => ?_, fun _ hnone d hd => ?_⟩,
    hkept.sub fun d hd hused => ?_⟩
  · have hne : ∀ {r : Block}, r.tag = .free → d ≠ r := fun hr heq => by
      rw [heq, hr] at hd
      cases hd
    rcases hlist with rfl | ⟨r, hr, rfl⟩
    · simp only [List.mem_append, List.mem_cons, hne hb, false_or, Option.some.injEq, eq_comm]
      tauto
    · simp only [List.mem_append, List.mem_cons, hne hb, hne hr, false_or, Option.some.injEq, eq_comm]
      tauto
  · rw [← Option.some.inj hd]
    exact ⟨hlive, hc, hnot⟩
  · have hold : d ∈ pre ∨ d ∈ post → d.tag ≠ .lost := fun hmem => hnone d (by
      simp only [List.mem_append, List.mem_cons]
      tauto)
    rcases hlist with rfl | ⟨r, hr, rfl⟩
    · simp only [List.mem_append, List.mem_cons] at hd
      rcases hd with hd | rfl | hd
      · exact hold (Or.inl hd)
      · rw [hlive]
        decide
      · exact hold (Or.inr hd)
    · simp only [List.mem_append, List.mem_cons] at hd
      rcases hd with hd | rfl | rfl | hd
      · exact hold (Or.inl hd)
      · rw [hr]
        decide
      · rw [hlive]
        decide
      · exact hold (Or.inr hd)
  · have hne : d ≠ b := fun heq => hused (heq ▸ hb)
    simp only [List.mem_append, List.mem_cons] at hd ⊢
    tauto

theorem Served.after_growth {cs : List Block} {b : Block} {t s' : State} {r : Option Nat}
    (hfreed : Freed refuses bs b [] cs) (hkept : Kept bs s t) (h : Served refuses lo limit n cs t r s') :
    Served refuses lo limit n bs s r s' := by
  obtain ⟨⟨ds, new, hds, hsame, hr, hspec, hlost'⟩, hkept'⟩ := h
  have hlive : ∀ c : Block, c.tag = .live → (c ∈ cs ↔ c ∈ bs) := fun c hc => by
    have := hfreed.sameLive c hc
    rw [List.append_nil] at this
    simpa using this
  refine ⟨⟨ds, new, hds, fun c hc => ?_, hr, fun c hc => ?_, fun hshrink hnone =>
    hlost' hshrink (hfreed.noneLost hshrink (by rwa [List.append_nil]))⟩, hkept.trans hkept' fun c hc hused => ?_⟩
  · rw [hsame c hc, hlive c hc]
  · obtain ⟨htag, hsize, hnot⟩ := hspec c hc
    exact ⟨htag, hsize, (hlive c htag).not.mp hnot⟩
  · exact hfreed.used (by rwa [List.append_nil]) hused

theorem growth_pos (n : Nat) : 0 < growth n := by
  unfold growth
  split <;> omega

/-- **One round and one growth of the heap**, after which the call goes on. -/
theorem wp_mallocLoop_grow {fuel f : Nat} (h : Rep lo limit s bs) (hn : 0 < n) (hsmall : n < 2 ^ 27)
    (hfreep : s.freep = some f) (hfuel : bs.length < fuel ∨ E .running)
    (hinner : 2 * bs.length + 5 ≤ inner ∨ E .running)
    (hnext : (∀ b ∈ bs, b.tag = .free → b.size < n) → s.brk + growth n ≤ limit →
      ∀ cs t g fuel', fuel' < fuel → fuel ≤ fuel' + bs.length + 1 →
      Freed refuses bs ⟨s.brk, growth n, .live⟩ [] cs → Rep lo limit t cs → t.freep = some g →
      wp (mallocLoop refuses limit inner n fuel' g (t.next g)) E (Served refuses lo limit n cs t) t) :
    wp (mallocLoop refuses limit inner n fuel f (s.next f)) E (Served refuses lo limit n bs s) s := by
  have hgrowth : growth n < 2 ^ 27 := by
    unfold growth
    split <;> omega
  refine wp_round_freep h hn hfreep hfuel (fun pre b post c cs s' hbs hb htaken hc hcs hkept => ?_)
    fun hnone fuel' hlt hle => ?_
  · subst hbs
    exact htaken.served h hb hc hcs hkept
  · refine wp_mono (wp_addHeaptop_up h (growth_pos n) hgrowth hinner) fun r t ht => ?_
    rcases ht with ⟨rfl, ht, hkept, -⟩ | ⟨hfit, cs, g, rfl, hg, hfreed, ht, hkept⟩
    · exact ⟨⟨bs, none, ht, fun c _ => by simp, rfl, nofun, fun _ hlost => hlost⟩, hkept⟩
    · exact wp_mono (hnext hnone hfit cs t g fuel' hlt hle hfreed ht hg) fun r u hu =>
        hu.after_growth hfreed hkept

theorem wp_mallocLoop {fuel f : Nat} (hE : E .running) (h : Rep lo limit s bs) (hn : 0 < n)
    (hsmall : n < 2 ^ 27) (hfreep : s.freep = some f) :
    wp (mallocLoop refuses limit inner n fuel f (s.next f)) E (Served refuses lo limit n bs s) s := by
  induction fuel using Nat.strong_induction_on generalizing s bs f with
  | _ fuel ih =>
    exact wp_mallocLoop_grow h hn hsmall hfreep (Or.inr hE) (Or.inr hE)
      fun _ _ cs t g fuel' hlt _ _ ht hg => ih fuel' hlt ht hg

end Walk

/-! ### `malloc` -/

/-- The state in which `malloc` starts to search. -/
def State.opened (s : State) : State :=
  match s.freep with
  | none => { s.setHeader base ⟨base, 0⟩ with freep := some base }
  | some _ => s

section Call

variable {refuses : Nat → Int → Bool} {lo limit : Nat} {s : State} {bs : List Block}
  {E : Stop → Prop} {Q : Option Nat → State → Prop}

theorem unitsFor_spec {nbytes : Nat} (h : nbytes < 2 ^ 31 - 32) :
    0 < unitsFor nbytes ∧ unitsFor nbytes < 2 ^ 27 ∧ nbytes ≤ 16 * (unitsFor nbytes - 1) := by
  have hunits : unitsFor nbytes = (nbytes + 16 - 1) / 16 + 1 := Nat.mod_eq_of_lt (by omega)
  omega

theorem malloc_eq {fuel nbytes f : Nat} (hf : s.opened.freep = some f) :
    malloc refuses limit fuel nbytes s =
      mallocLoop refuses limit fuel (unitsFor nbytes) fuel f (s.opened.next f) s.opened := by
  have hinit : when (s.freep = none) initFreep s = .ok ((), s.opened) := by
    unfold State.opened when
    cases hfreep : s.freep with
    | none =>
      rw [if_pos rfl]
      have hmem : update (update s.mem base { s.mem base with ptr := base }) base
          { update s.mem base { s.mem base with ptr := base } base with size := 0 } =
          update s.mem base ⟨base, 0⟩ := by
        rw [update_idem, update_self]
      show Except.ok ((), { s with
        mem := update (update s.mem base { s.mem base with ptr := base }) base
          { update s.mem base { s.mem base with ptr := base } base with size := 0 }
        freep := some base }) = _
      rw [hmem]
      rfl
    | some g =>
      rw [if_neg (by simp)]
      rfl
  unfold malloc
  rw [bind_ok (show get s = .ok (s, s) from rfl), bind_ok hinit,
    bind_ok (show get s.opened = .ok (s.opened, s.opened) from rfl), hf]
  rfl

end Call

end Xv6.Umalloc
