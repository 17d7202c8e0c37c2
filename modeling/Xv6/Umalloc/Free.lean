import Xv6.Umalloc.Heap

/-!
# Giving a block back

`free` joins a block with its free neighbours, and gives most of a large block at the top of the
heap back to the kernel.
-/

namespace Xv6.Umalloc

open Hoare Linked Tiling Function

section Link

variable {lo limit : Nat} {s s' : State} {pre post post' : List Block} {b : Block} {E : Stop → Prop}

/-! ### Neighbours -/

theorem Rep.ring_at (h : Rep lo limit s (pre ++ b :: post)) (hb : b.tag ≠ .free) :
    Path s.next base (frees pre ++ frees post) base := by
  have hring := h.ring
  rwa [frees_append, frees_cons_used hb] at hring

theorem Rep.sorted_at (h : Rep lo limit s (pre ++ b :: post)) (hb : b.tag ≠ .free) :
    (base :: (frees pre ++ frees post)).Pairwise (· < ·) := by
  have hsorted := h.sorted
  rwa [frees_append, frees_cons_used hb] at hsorted

theorem Rep.next_pred (h : Rep lo limit s (pre ++ b :: post)) (hb : b.tag ≠ .free) :
    s.next ((frees pre).getLastD base) = (frees post).headD base :=
  (h.ring_at hb).split.1.next_last

theorem Rep.frees_pre_lt (h : Rep lo limit s (pre ++ b :: post)) {a : Nat} (ha : a ∈ frees pre) :
    a < b.start :=
  (frees_bounds (tiles_split.mp h.tiles).1 ha).2

theorem Rep.lt_frees_post (h : Rep lo limit s (pre ++ b :: post)) {a : Nat} (ha : a ∈ frees post) :
    b.start < a := by
  obtain ⟨-, hpos, hright⟩ := tiles_split.mp h.tiles
  have := (frees_bounds hright ha).1
  unfold Tile.stop at this
  omega

theorem Rep.pred_ne (h : Rep lo limit s (pre ++ b :: post)) : (frees pre).getLastD base ≠ b.start := by
  intro heq
  have hmem := getLastD_mem base (frees pre)
  rw [heq] at hmem
  rcases List.mem_cons.mp hmem with hbase | hmem
  · have := h.base_lt (List.mem_append_right pre List.mem_cons_self)
    omega
  · exact absurd (h.frees_pre_lt hmem) (Nat.lt_irrefl _)

theorem Rep.next_joins (h : Rep lo limit s (pre ++ b :: post)) :
    b.stop = (frees post).headD base ↔ ∃ y post', post = y :: post' ∧ y.tag = .free := by
  obtain ⟨-, hpos, hright⟩ := tiles_split.mp h.tiles
  have hbase := h.base_lt (List.mem_append_right pre List.mem_cons_self)
  constructor
  · intro hstop
    cases hfrees : frees post with
    | nil =>
      rw [hfrees] at hstop
      unfold Tile.stop at hstop
      simp only [List.headD_nil] at hstop
      omega
    | cons a as =>
      rw [hfrees] at hstop
      obtain ⟨y, hy, hfree, hstart⟩ := mem_frees.mp (hfrees ▸ List.mem_cons_self : a ∈ frees post)
      cases post with
      | nil => exact absurd hy List.not_mem_nil
      | cons z post' =>
        have heq : y = z := hright.eq_of_start hy List.mem_cons_self
          (by rw [hstart, hright.1]; exact hstop.symm)
        exact ⟨z, post', rfl, heq ▸ hfree⟩
  · rintro ⟨y, post', rfl, hfree⟩
    rw [frees_cons_free hfree]
    exact hright.1.symm

theorem Rep.prev_joins (h : Rep lo limit s (pre ++ b :: post)) :
    (frees pre).getLastD base + (s.mem ((frees pre).getLastD base)).size = b.start ↔
      ∃ pre' x, pre = pre' ++ [x] ∧ x.tag = .free := by
  obtain ⟨hleft, -, -⟩ := tiles_split.mp h.tiles
  have hbase := h.base_lt (List.mem_append_right pre List.mem_cons_self)
  constructor
  · intro hend
    rcases List.mem_cons.mp (getLastD_mem base (frees pre)) with hp | hp
    · rw [hp, h.base_size] at hend
      omega
    · obtain ⟨y, hy, hfree, hstart⟩ := mem_frees.mp hp
      have hsize := h.sizes y (List.mem_append_left _ hy) (by rw [hfree]; decide)
      rw [← hstart, hsize] at hend
      rcases List.eq_nil_or_concat pre with rfl | ⟨pre', x, heq⟩
      · exact absurd hy List.not_mem_nil
      · rw [List.concat_eq_append] at heq
        subst heq
        obtain ⟨hfirst, hpos, hstop⟩ := tiles_split.mp hleft
        rcases List.mem_append.mp hy with hy | hy
        · have hbefore := (hfirst.bounds hy).2.2
          have hx : x.stop = b.start := hstop
          unfold Tile.stop at hbefore hx
          omega
        · exact ⟨pre', x, rfl, List.mem_singleton.mp hy ▸ hfree⟩
  · rintro ⟨pre', x, rfl, hfree⟩
    obtain ⟨-, -, hstop⟩ := tiles_split.mp hleft
    have hx : x.stop = b.start := hstop
    rw [frees_append, frees_cons_free hfree, frees_nil, List.getLastD_concat,
      h.sizes x (List.mem_append_left _ (List.mem_append_right _ (List.mem_singleton_self x)))
        (by rw [hfree]; decide)]
    exact hx

/-! ### The two joins -/

/-- The blocks behind `b` that are left when it has been joined with a free one, and its size. -/
def JoinedNext (b : Block) (post post' : List Block) (size : Nat) : Prop :=
  (post' = post ∧ size = b.size ∧ ∀ c ∈ post.head?, c.tag ≠ .free) ∨
    ∃ y, post = y :: post' ∧ y.tag = .free ∧ size = b.size + y.size

theorem wp_joinNext (h : Rep lo limit s (pre ++ b :: post)) (hb : b.tag = .live) :
    wp (joinNext b.start ((frees pre).getLastD base)) E (fun _ s' => ∃ post' size,
      JoinedNext b post post' size ∧
      s' = s.setHeader b.start ⟨(frees post').headD base, size⟩) s := by
  have hb' : b.tag ≠ .free := by rw [hb]; decide
  have hsize : (s.mem b.start).size = b.size :=
    h.sizes b (List.mem_append_right pre List.mem_cons_self) (by rw [hb]; decide)
  have hpred := h.next_pred hb'
  unfold State.next at hpred
  simp only [joinNext, wp_bind, wp_get]
  rw [wp_ite, hsize, hpred]
  refine ⟨fun hjoin => ?_, fun hjoin => ?_⟩
  · obtain ⟨y, post', rfl, hfree⟩ := h.next_joins.mp hjoin
    have hy : y ∈ pre ++ b :: y :: post' := by simp
    have hpath : Path s.next y.start (frees post') base := by
      have hring := h.ring_at hb'
      rw [frees_cons_free hfree] at hring
      exact (path_append_cons.mp hring).2
    have hnext : (s.mem y.start).ptr = (frees post').headD base := by
      rw [← List.nil_append (frees post')] at hpath
      exact hpath.split.1
    have hwrap : u32 (b.size + y.size) = b.size + y.size := by
      have h₁ := h.size_le (List.mem_append_right pre List.mem_cons_self)
      have h₂ := h.size_le hy
      rw [show MAXUNITS = 2 ^ 27 from rfl] at h₁ h₂
      exact Nat.mod_eq_of_lt (by omega)
    rw [frees_cons_free hfree, List.headD_cons, hnext, h.sizes y hy (by rw [hfree]; decide), hwrap]
    simp only [setSize, setPtr, wp_bind, wp_modify, update_self, update_idem]
    exact ⟨post', b.size + y.size, Or.inr ⟨y, rfl, hfree, rfl⟩, rfl⟩
  · simp only [setPtr, wp_modify]
    refine ⟨post, b.size, Or.inl ⟨rfl, rfl, fun c hc hfree => hjoin (h.next_joins.mpr ?_)⟩, ?_⟩
    · cases post with
      | nil => exact absurd hc (by simp)
      | cons y post' =>
        rw [List.head?_cons, Option.mem_some_iff] at hc
        exact ⟨y, post', rfl, hc ▸ hfree⟩
    · rw [← hsize]
      rfl

theorem wp_joinPrev {nxt size : Nat} (h : Rep lo limit s (pre ++ b :: post)) (hsize : size ≤ 2 * MAXUNITS) :
    wp (joinPrev b.start ((frees pre).getLastD base)) E (fun r s' =>
      (r = b.start ∧ (∀ x ∈ pre.getLast?, x.tag ≠ .free) ∧
        s' = (s.setHeader b.start ⟨nxt, size⟩).setHeader ((frees pre).getLastD base)
          ⟨b.start, (s.mem ((frees pre).getLastD base)).size⟩) ∨
      ∃ pre' x, pre = pre' ++ [x] ∧ x.tag = .free ∧ r = x.start ∧
        s' = (s.setHeader b.start ⟨nxt, size⟩).setHeader x.start ⟨nxt, x.size + size⟩)
      (s.setHeader b.start ⟨nxt, size⟩) := by
  have hkeep : (s.setHeader b.start ⟨nxt, size⟩).mem ((frees pre).getLastD base) =
      s.mem ((frees pre).getLastD base) := s.setHeader_ne _ h.pred_ne
  simp only [joinPrev, wp_bind, wp_get]
  rw [wp_ite, hkeep]
  refine ⟨fun hjoin => ?_, fun hjoin => ?_⟩
  · obtain ⟨pre', x, rfl, hfree⟩ := h.prev_joins.mp hjoin
    have hx : x ∈ pre' ++ [x] ++ b :: post := by simp
    have hlast : (frees (pre' ++ [x])).getLastD base = x.start := by
      rw [frees_append, frees_cons_free hfree, frees_nil, List.getLastD_concat]
    have hwrap : u32 (x.size + size) = x.size + size := by
      have := h.size_le hx
      rw [show MAXUNITS = 2 ^ 27 from rfl] at this hsize
      exact Nat.mod_eq_of_lt (by omega)
    rw [hlast, State.setHeader_self, h.sizes x hx (by rw [hfree]; decide), hwrap]
    simp only [setSize, setPtr, wp_bind, wp_modify, wp_pure, update_self,
      update_idem]
    exact Or.inr ⟨pre', x, rfl, hfree, rfl, rfl⟩
  · simp only [setPtr, wp_bind, wp_modify, wp_pure, hkeep]
    refine Or.inl ⟨trivial, fun x hx hfree => hjoin (h.prev_joins.mpr ?_), rfl⟩
    obtain ⟨pre', rfl⟩ := List.getLast?_eq_some_iff.mp hx
    exact ⟨pre', x, rfl, hfree⟩

/-! ### The heap after both joins -/

/-- Block `b`, now free, has become part of `b'`. -/
structure Joined (pre : List Block) (b : Block) (post pre' : List Block) (b' : Block)
    (post' : List Block) : Prop where
  left : (pre' = pre ∧ b'.start = b.start) ∨
    ∃ x, pre = pre' ++ [x] ∧ x.tag = .free ∧ b'.start = x.start
  right : (post' = post ∧ b'.stop = b.stop) ∨
    ∃ y, post = y :: post' ∧ y.tag = .free ∧ b'.stop = y.stop
  tag : b'.tag = .free

/-- Blocks that are not free keep their contents, and the break stays above them. -/
structure Kept (bs : List Block) (s s' : State) : Prop where
  mem : ∀ c ∈ bs, c.tag ≠ .free → ∀ a, c.start ≤ a → a < c.stop → s'.mem a = s.mem a
  mapped : ∀ c ∈ bs, c.tag ≠ .free → c.stop ≤ s.lowest → c.stop ≤ s'.lowest

theorem JoinedNext.spec {size : Nat} (hj : JoinedNext b post post' size)
    (h : Rep lo limit s (pre ++ b :: post)) : b.size ≤ size ∧ size ≤ 2 * MAXUNITS ∧
      Tiles (b.start + size) post' s.brk ∧ frees post' <:+ frees post ∧
      post'.IsChain Separate ∧ (∀ c ∈ post'.head?, c.tag ≠ .free) ∧ (∀ c ∈ post', c ∈ post) := by
  obtain ⟨-, -, hright⟩ := tiles_split.mp h.tiles
  have hchain := (List.isChain_split.mp h.separate).2
  have hb := h.size_le (List.mem_append_right pre List.mem_cons_self)
  rcases hj with ⟨rfl, rfl, hhead⟩ | ⟨y, rfl, hfree, rfl⟩
  · exact ⟨Nat.le_refl _, by omega, hright, List.suffix_rfl, hchain.tail, hhead, fun c hc => hc⟩
  · have hy := h.size_le (b := y) (by simp)
    have hrest := (List.isChain_cons.mp hchain).2
    refine ⟨Nat.le_add_right _ _, by omega, ?_, ?_, hrest.tail, fun c hc hc' => ?_,
      fun c hc => List.mem_cons_of_mem y hc⟩
    · have hstart := hright.1
      have htiles := hright.2.2
      unfold Tile.stop at hstart htiles
      rwa [hstart, Nat.add_assoc] at htiles
    · rw [frees_cons_free hfree]
      exact List.suffix_cons _ _
    · exact (List.isChain_cons.mp hrest).1 c hc ⟨hfree, hc'⟩

theorem JoinedNext.right {size : Nat} (hj : JoinedNext b post post' size)
    (h : Rep lo limit s (pre ++ b :: post)) : (post' = post ∧ b.start + size = b.stop) ∨
      ∃ y, post = y :: post' ∧ y.tag = .free ∧ b.start + size = y.stop := by
  rcases hj with ⟨rfl, rfl, -⟩ | ⟨y, rfl, hfree, rfl⟩
  · exact Or.inl ⟨rfl, rfl⟩
  · refine Or.inr ⟨y, rfl, hfree, ?_⟩
    have hstart := (tiles_split.mp h.tiles).2.2.1
    unfold Tile.stop at hstart ⊢
    omega

theorem Rep.pred_outside (h : Rep lo limit s (pre ++ b :: post)) {c : Block} (hc : c ∈ pre ++ b :: post)
    (hused : c.tag ≠ .free) {a : Nat} (hle : c.start ≤ a) (hlt : a < c.stop) :
    a ≠ (frees pre).getLastD base := by
  rintro rfl
  rcases List.mem_cons.mp (getLastD_mem base (frees pre)) with hp | hp
  · have := h.base_lt hc
    omega
  · obtain ⟨x, hx, hfree, hstart⟩ := mem_frees.mp hp
    have hx' : x ∈ pre ++ b :: post := List.mem_append_left _ hx
    have hne : x ≠ c := fun heq => hused (heq ▸ hfree)
    have hpos := (h.tiles.bounds hx').2.1
    have := h.tiles.apart hx' hc hne
    unfold Tile.stop at *
    omega

theorem Rep.start_outside (h : Rep lo limit s (pre ++ b :: post)) {c : Block} (hc : c ∈ pre ++ post)
    {a : Nat} (hle : c.start ≤ a) (hlt : a < c.stop) : a ≠ b.start := by
  obtain ⟨hleft, hpos, hright⟩ := tiles_split.mp h.tiles
  rcases List.mem_append.mp hc with hc | hc
  · have := (hleft.bounds hc).2.2
    omega
  · have := (hright.bounds hc).1
    unfold Tile.stop at this
    omega

theorem Rep.start_ne (h : Rep lo limit s (pre ++ b :: post)) {c : Block} (hc : c ∈ pre ++ post) :
    c.start ≠ b.start := by
  refine h.start_outside hc (Nat.le_refl _) ?_
  have hmem : c ∈ pre ++ b :: post :=
    (List.mem_append.mp hc).elim (List.mem_append_left _) fun hc =>
      List.mem_append_right _ (List.mem_cons_of_mem b hc)
  have := (h.tiles.bounds hmem).2.1
  unfold Tile.stop
  omega

section Relinked

variable {size : Nat}

theorem Rep.linked (h : Rep lo limit s (pre ++ b :: post)) (hb : b.tag = .live)
    (hj : JoinedNext b post post' size) (hprev : ∀ x ∈ pre.getLast?, x.tag ≠ .free)
    (hs' : s' = (s.setHeader b.start ⟨(frees post').headD base, size⟩).setHeader
      ((frees pre).getLastD base) ⟨b.start, (s.mem ((frees pre).getLastD base)).size⟩) :
    Rep lo limit { s' with freep := some ((frees pre).getLastD base) }
      (pre ++ ⟨b.start, size, .free⟩ :: post') := by
  have hb' : b.tag ≠ .free := by rw [hb]; decide
  obtain ⟨hge, -, htiles, hsuffix, hchain, hhead, hsub⟩ := hj.spec h
  obtain ⟨hleft, hpos, -⟩ := tiles_split.mp h.tiles
  have hpne := h.pred_ne
  have hring := h.ring_at hb'
  have hsorted := h.sorted_at hb'
  generalize hp : (frees pre).getLastD base = p at *
  have hself : s'.mem p = ⟨b.start, (s.mem p).size⟩ := by rw [hs', State.setHeader_self]
  have hbp : s'.mem b.start = ⟨(frees post').headD base, size⟩ := by
    rw [hs', State.setHeader_ne _ _ hpne.symm, State.setHeader_self]
  have hother : ∀ a, a ≠ p → a ≠ b.start → s'.mem a = s.mem a := fun a hap hab => by
    rw [hs', State.setHeader_ne _ _ hap, State.setHeader_ne _ _ hab]
  have hsize : ∀ a, a ≠ b.start → (s'.mem a).size = (s.mem a).size := fun a hab => by
    by_cases hap : a = p
    · rw [hap, hself]
    · rw [hother a hap hab]
  have hfrees : frees (pre ++ (⟨b.start, size, .free⟩ : Block) :: post') =
      frees pre ++ b.start :: frees post' := by
    rw [frees_append, frees_cons_free rfl]
  have hbrk : s'.brk = s.brk := by rw [hs']; rfl
  refine ⟨h.pos, ?_, ?_, h.limit_le, fun c hc hlost => ?_, ?_, ?_, ⟨p, ?_, rfl⟩, fun _ => ?_, ?_⟩
  · refine tiles_split.mpr ⟨hleft, Nat.lt_of_lt_of_le hpos hge, ?_⟩
    show Tiles (b.start + size) post' s'.brk
    rwa [hbrk]
  · show s'.brk ≤ _
    rw [hbrk]
    exact h.small
  · show (s'.mem c.start).size = c.size
    have hkeep : c ∈ pre ++ post → (s'.mem c.start).size = c.size := fun hc' => by
      rw [hsize _ (h.start_ne hc')]
      refine h.sizes c ?_ hlost
      exact (List.mem_append.mp hc').elim (List.mem_append_left _) fun hc =>
        List.mem_append_right _ (List.mem_cons_of_mem b hc)
    rcases List.mem_append.mp hc with hc | hc
    · exact hkeep (List.mem_append_left _ hc)
    · rcases List.mem_cons.mp hc with rfl | hc
      · show (s'.mem b.start).size = size
        rw [hbp]
      · exact hkeep (List.mem_append_right _ (hsub c hc))
  · show (s'.mem base).size = 0
    have hne : base ≠ b.start := by
      have := h.base_lt (List.mem_append_right pre List.mem_cons_self)
      omega
    rw [hsize _ hne, h.base_size]
  · rw [hfrees]
    refine hring.insert hsuffix ?_ (fun x hx hxp => ?_) ?_ ?_
    · refine (hsorted.imp fun hlt => Nat.ne_of_lt hlt).sublist ?_
      exact List.Sublist.cons_cons _ (hsuffix.sublist.append_left _)
    · rw [hp] at hxp
      have hxb : x ≠ b.start := by
        rcases List.mem_cons.mp hx with rfl | hx
        · have := h.base_lt (List.mem_append_right pre List.mem_cons_self)
          omega
        · rcases List.mem_append.mp hx with hx | hx
          · exact Nat.ne_of_lt (h.frees_pre_lt hx)
          · exact Nat.ne_of_gt (h.lt_frees_post (hsuffix.mem hx))
      exact congrArg Header.ptr (hother x hxp hxb)
    · rw [hp]
      exact congrArg Header.ptr hself
    · exact congrArg Header.ptr hbp
  · rw [hfrees, ← hp, ← List.cons_append]
    exact List.mem_append_left _ (getLastD_mem base (frees pre))
  · show s'.heaptop = s'.brk
    rw [hbrk, hs']
    exact h.heaptop (by simp)
  · refine List.isChain_append.mpr ⟨(List.isChain_append.mp h.separate).1,
      List.isChain_cons.mpr ⟨fun c hc hboth => hhead c hc hboth.2, hchain⟩, fun x hx c hc hboth => ?_⟩
    exact hprev x hx hboth.1

theorem Rep.absorbed {x : Block} (h : Rep lo limit s (pre ++ [x] ++ b :: post)) (hb : b.tag = .live)
    (hx : x.tag = .free) (hj : JoinedNext b post post' size)
    (hs' : s' = (s.setHeader b.start ⟨(frees post').headD base, size⟩).setHeader x.start
      ⟨(frees post').headD base, x.size + size⟩) :
    Rep lo limit { s' with freep := some x.start } (pre ++ ⟨x.start, x.size + size, .free⟩ :: post') := by
  have hb' : b.tag ≠ .free := by rw [hb]; decide
  obtain ⟨hge, -, htiles, hsuffix, hchain, hhead, hsub⟩ := hj.spec h
  obtain ⟨hleft, hpos, -⟩ := tiles_split.mp h.tiles
  obtain ⟨hleft', hxpos, hxstop⟩ := tiles_split.mp hleft
  have hxb : x.start + x.size = b.start := hxstop
  have hself : s'.mem x.start = ⟨(frees post').headD base, x.size + size⟩ := by
    rw [hs', State.setHeader_self]
  have hother : ∀ a, a ≠ x.start → a ≠ b.start → s'.mem a = s.mem a := fun a hax hab => by
    rw [hs', State.setHeader_ne _ _ hax, State.setHeader_ne _ _ hab]
  have hfrees : frees (pre ++ (⟨x.start, x.size + size, .free⟩ : Block) :: post') =
      (frees pre ++ [x.start]) ++ frees post' := by
    rw [frees_append, frees_cons_free rfl, List.append_assoc, List.singleton_append]
  have hfrees' : frees (pre ++ [x]) = frees pre ++ [x.start] := by
    rw [frees_append, frees_cons_free hx, frees_nil]
  have hbrk : s'.brk = s.brk := by rw [hs']; rfl
  have hbase : base ≠ x.start ∧ base ≠ b.start := by
    have := h.base_lt (b := x) (by simp)
    omega
  have hmem : ∀ {c}, c ∈ pre ∨ c ∈ post → c ∈ pre ++ [x] ++ b :: post := fun hc => by
    simp only [List.mem_append, List.mem_cons]
    tauto
  -- a block other than the two is elsewhere
  have hkeep : ∀ c, c ∈ pre ∨ c ∈ post → c.tag ≠ .lost → (s'.mem c.start).size = c.size :=
    fun c hc hlost => by
      have hcb : c.start ≠ b.start := h.start_ne (by
        simp only [List.mem_append]
        tauto)
      have hcx : c.start ≠ x.start := by
        rcases hc with hc | hc
        · have := (hleft'.bounds hc).2
          unfold Tile.stop at this
          omega
        · have := ((tiles_split.mp h.tiles).2.2.bounds hc).1
          unfold Tile.stop at this
          omega
      rw [hother _ hcx hcb]
      exact h.sizes c (hmem hc) hlost
  refine ⟨h.pos, ?_, ?_, h.limit_le, fun c hc hlost => ?_, ?_, ?_, ⟨x.start, ?_, rfl⟩, fun _ => ?_, ?_⟩
  · refine tiles_split.mpr ⟨hleft', Nat.lt_of_lt_of_le hxpos (Nat.le_add_right _ _), ?_⟩
    show Tiles (x.start + (x.size + size)) post' s'.brk
    rwa [hbrk, ← Nat.add_assoc, hxb]
  · show s'.brk ≤ _
    rw [hbrk]
    exact h.small
  · show (s'.mem c.start).size = c.size
    rcases List.mem_append.mp hc with hc | hc
    · exact hkeep c (Or.inl hc) hlost
    · rcases List.mem_cons.mp hc with rfl | hc
      · show (s'.mem x.start).size = x.size + size
        rw [hself]
      · exact hkeep c (Or.inr (hsub c hc)) hlost
  · show (s'.mem base).size = 0
    rw [hother base hbase.1 hbase.2, h.base_size]
  · have hring := h.ring_at hb'
    have hsorted := h.sorted_at hb'
    rw [hfrees'] at hring hsorted
    rw [hfrees]
    refine hring.skip hsuffix ?_ (fun a ha hax => ?_) ?_
    · refine (hsorted.imp fun hlt => Nat.ne_of_lt hlt).sublist ?_
      exact List.Sublist.cons_cons _ (hsuffix.sublist.append_left _)
    · rw [List.getLastD_concat] at hax
      have hab : a ≠ b.start := by
        rcases List.mem_cons.mp ha with rfl | ha
        · exact hbase.2
        · rcases List.mem_append.mp ha with ha | ha
          · exact Nat.ne_of_lt (h.frees_pre_lt (hfrees' ▸ ha))
          · exact Nat.ne_of_gt (h.lt_frees_post (hsuffix.mem ha))
      exact congrArg Header.ptr (hother a hax hab)
    · rw [List.getLastD_concat]
      exact congrArg Header.ptr hself
  · rw [hfrees]
    simp
  · show s'.heaptop = s'.brk
    rw [hbrk, hs']
    exact h.heaptop (by simp)
  · have hpre := (List.isChain_append.mp (List.isChain_append.mp h.separate).1)
    refine List.isChain_append.mpr ⟨hpre.1,
      List.isChain_cons.mpr ⟨fun c hc hboth => hhead c hc hboth.2, hchain⟩, fun y hy c hc hboth => ?_⟩
    exact hpre.2.2 y hy x rfl ⟨hboth.1, hx⟩

end Relinked

/-- **Both joins.** -/
theorem wp_link (h : Rep lo limit s (pre ++ b :: post)) (hb : b.tag = .live) {Q : Nat → State → Prop}
    (hQ : ∀ pre' b' post' s', Joined pre b post pre' b' post' → Rep lo limit s' (pre' ++ b' :: post') →
      Kept (pre ++ post) s s' → s'.brk = s.brk → s'.calls = s.calls → Q b'.start s') :
    wp (joinNext b.start ((frees pre).getLastD base)) E (fun _ t =>
      wp (joinPrev b.start ((frees pre).getLastD base)) E (fun bp u =>
        wp (setFreep ((frees pre).getLastD base)) E (fun _ => Q bp) u) t) s := by
  refine wp_mono (wp_joinNext h hb) fun _ t ⟨post', size, hj, ht⟩ => ?_
  subst ht
  have hspec := hj.spec h
  refine wp_mono (wp_joinPrev h hspec.2.1) fun r u hu => ?_
  simp only [setFreep, wp_modify]
  have hkept : ∀ {p : Nat} {x : Header} {f : Option Nat}, p = (frees pre).getLastD base →
      Kept (pre ++ post) s { (s.setHeader b.start ⟨(frees post').headD base, size⟩).setHeader p x with
        freep := f } := by
    refine fun hp => ⟨fun c hc hused a hle hlt => ?_, fun _ _ _ hle => hle⟩
    have hmem : c ∈ pre ++ b :: post := (List.mem_append.mp hc).elim (List.mem_append_left _)
      fun hc => List.mem_append_right _ (List.mem_cons_of_mem b hc)
    show ((s.setHeader _ _).setHeader _ _).mem a = s.mem a
    rw [State.setHeader_ne _ _ (hp ▸ h.pred_outside hmem hused hle hlt),
      State.setHeader_ne _ _ (h.start_outside hc hle hlt)]
  rcases hu with ⟨rfl, hprev, rfl⟩ | ⟨pre', x, rfl, hx, rfl, rfl⟩
  · exact hQ pre ⟨b.start, size, .free⟩ post' _ ⟨Or.inl ⟨rfl, rfl⟩, hj.right h, rfl⟩
      (h.linked hb hj hprev rfl) (hkept rfl) rfl rfl
  · have hlast : (frees (pre' ++ [x])).getLastD base = x.start := by
      rw [frees_append, frees_cons_free hx, frees_nil, List.getLastD_concat]
    have hxb : x.start + x.size = b.start := (tiles_split.mp (tiles_split.mp h.tiles).1).2.2
    have hstop : x.start + (x.size + size) = b.start + size := by omega
    refine hQ pre' ⟨x.start, x.size + size, .free⟩ post' _ ⟨Or.inr ⟨x, rfl, hx, rfl⟩, ?_, rfl⟩ ?_
      (hkept hlast.symm) rfl rfl
    · show (_ ∧ x.start + (x.size + size) = _) ∨ ∃ y, _ ∧ _ ∧ x.start + (x.size + size) = _
      rw [hstop]
      exact hj.right h
    · rw [hlast]
      exact h.absorbed hb hx hj rfl

end Link

/-! ### `sbrk` -/

section Shrink

variable {refuses : Nat → Int → Bool} {lo limit : Nat} {s s' : State} {pre post : List Block}
  {b : Block} {E : Stop → Prop}

theorem int32_eq {n : Int} (hlo : -2 ^ 31 ≤ n) (hhi : n < 2 ^ 31) : int32 n = n :=
  Int.bmod_eq_of_le (by omega) (by omega)

theorem wp_sbrk (n : Int) : wp (sbrk refuses limit n) E (fun r s' =>
    (r = none ∧ (refuses s.calls n = true ∨ (limit : Int) < s.brk + n / 16) ∧
      s' = { s with calls := s.calls + 1 }) ∨
    (r = some s.brk ∧ s.brk + n / 16 ≤ limit ∧
      s' = { s with
        calls := s.calls + 1
        brk := (s.brk + n / 16).toNat
        lowest := min s.lowest (s.brk + n / 16).toNat })) s := by
  simp only [sbrk, wp_bind, wp_get, wp_modify]
  rw [wp_ite]
  refine ⟨fun hno => Or.inl ⟨rfl, hno, rfl⟩, fun hyes => ?_⟩
  simp only [wp_bind, wp_modify, wp_pure]
  exact Or.inr ⟨trivial, Int.not_lt.mp (not_or.mp hyes).2, trivial⟩

/-- **`add_heaptop`** of fewer units than none. -/
theorem wp_addHeaptop_down {fuel : Nat} {nu : Int} (hnu : nu ≤ 0) (hsmall : -2 ^ 27 ≤ nu)
    (hfuel : 0 < fuel ∨ E .running) :
    wp (addHeaptop refuses limit fuel nu) E (fun _ s' =>
      ((refuses s.calls (nu * 16) = true ∨ (limit : Int) < s.brk + nu) ∧
        s' = { s with calls := s.calls + 1 }) ∨
      s' = { s with
        calls := s.calls + 1
        brk := (s.brk + nu).toNat
        lowest := min s.lowest (s.brk + nu).toNat
        heaptop := (s.heaptop + nu).toNat }) s := by
  cases fuel with
  | zero => exact hfuel.resolve_left (Nat.lt_irrefl 0)
  | succ fuel =>
    have hbytes : int32 (nu * 16) = nu * 16 := int32_eq (by omega) (by omega)
    have hdiv : nu * 16 / 16 = nu := Int.mul_ediv_cancel _ (by decide)
    rw [addHeaptop, if_neg (by omega), wp_bind, hbytes]
    refine wp_mono (wp_sbrk _) fun r t ht => ?_
    simp only [hdiv] at ht
    rcases ht with ⟨rfl, hno, rfl⟩ | ⟨rfl, -, rfl⟩
    · exact Or.inl ⟨hno, rfl⟩
    · exact Or.inr rfl

/-- The block at the top is cut to 256 units, and nobody has what is behind it any more. -/
theorem Rep.cut {rest : List Block} (h : Rep lo limit s (pre ++ [b])) (hb : b.tag = .free)
    (hrest : ∀ c ∈ rest, c.tag = .lost)
    (hmem : s'.mem = update s.mem b.start { s.mem b.start with size := 256 })
    (hfreep : s'.freep = s.freep) (htiles : Tiles (b.start + 256) rest s'.brk)
    (hsmall : s'.brk ≤ limit) (htop : s'.heaptop = s'.brk) :
    Rep lo limit s' (pre ++ ⟨b.start, 256, .free⟩ :: rest) := by
  obtain ⟨hleft, -, -⟩ := tiles_split.mp h.tiles
  have hself : s'.mem b.start = { s.mem b.start with size := 256 } := by
    rw [hmem, update_self]
  have hother : ∀ a, a ≠ b.start → s'.mem a = s.mem a := fun a ha => by
    rw [hmem, update_of_ne ha]
  have hlost : frees rest = [] := by
    unfold frees
    rw [List.filter_eq_nil_iff.mpr fun c hc => by rw [hrest c hc]; decide, List.map_nil]
  have hfrees : frees (pre ++ (⟨b.start, 256, .free⟩ : Block) :: rest) = frees (pre ++ [b]) := by
    rw [frees_append, frees_append, frees_cons_free rfl, frees_cons_free hb, hlost, frees_nil]
  refine ⟨h.pos, tiles_split.mpr ⟨hleft, Nat.succ_pos 255, htiles⟩, hsmall, h.limit_le, fun c hc hne => ?_,
    ?_, ?_, ?_, fun _ => htop, ?_⟩
  · rcases List.mem_append.mp hc with hc | hc
    · rw [hother _ (h.start_ne (List.mem_append_left _ hc))]
      exact h.sizes c (List.mem_append_left _ hc) hne
    · rcases List.mem_cons.mp hc with rfl | hc
      · show (s'.mem b.start).size = 256
        rw [hself]
      · exact absurd (hrest c hc) hne
  · have hbase := h.base_lt (List.mem_append_right pre List.mem_cons_self)
    rw [hother _ (Nat.ne_of_lt hbase), h.base_size]
  · rw [hfrees]
    refine h.ring.congr fun a _ => ?_
    show (s'.mem a).ptr = (s.mem a).ptr
    by_cases ha : a = b.start
    · rw [ha, hself]
    · rw [hother a ha]
  · rw [hfrees, hfreep]
    exact h.freep
  · have hpre := List.isChain_append.mp h.separate
    refine List.isChain_append.mpr ⟨hpre.1, List.isChain_cons.mpr ⟨fun c hc hboth => ?_, ?_⟩,
      fun x hx c hc hboth => ?_⟩
    · rw [hrest c (List.mem_of_mem_head? hc)] at hboth
      cases hboth.2
    · refine List.Pairwise.isChain (List.pairwise_iff_forall_sublist.mpr fun {c e} hsub hboth => ?_)
      rw [hrest c (hsub.subset List.mem_cons_self)] at hboth
      cases hboth.1
    · exact hpre.2.2 x hx b rfl ⟨hboth.1, hb⟩

/-- Requests to shrink the heap are granted. -/
def Shrinks (refuses : Nat → Int → Bool) : Prop := ∀ k n, n < 0 → refuses k n = false

/-- What `free` leaves of the blocks: `b` has become part of `b'`, and if that was large and at
    the top of the heap, 256 units of it are left, and the rest is given back or lost. -/
def Freed (refuses : Nat → Int → Bool) (pre : List Block) (b : Block) (post bs : List Block) :
    Prop :=
  ∃ pre' b' post', Joined pre b post pre' b' post' ∧
    ((bs = pre' ++ b' :: post' ∧ (post' = [] → b'.size < 1024)) ∨
      (post' = [] ∧ 1024 ≤ b'.size ∧ ∃ rest, bs = pre' ++ ⟨b'.start, 256, .free⟩ :: rest ∧
        (∀ c ∈ rest, c.tag = .lost) ∧ rest.length ≤ 1 ∧ (Shrinks refuses → rest = [])))

/-- No part of the heap is lost. -/
def NoneLost (bs : List Block) : Prop := ∀ c ∈ bs, c.tag ≠ .lost

theorem Kept.sub {bs cs : List Block} (h : Kept cs s s')
    (hsub : ∀ c ∈ bs, c.tag ≠ .free → c ∈ cs) : Kept bs s s' :=
  ⟨fun c hc hused => h.mem c (hsub c hc hused) hused,
    fun c hc hused => h.mapped c (hsub c hc hused) hused⟩

theorem Kept.trans {bs cs : List Block} {s₁ s₂ s₃ : State} (h : Kept bs s₁ s₂) (h' : Kept cs s₂ s₃)
    (hsub : ∀ c ∈ bs, c.tag ≠ .free → c ∈ cs) : Kept bs s₁ s₃ :=
  ⟨fun c hc hused a hle hlt =>
    (h'.mem c (hsub c hc hused) hused a hle hlt).trans (h.mem c hc hused a hle hlt),
  fun c hc hused hle => h'.mapped c (hsub c hc hused) hused (h.mapped c hc hused hle)⟩

theorem Joined.mem {pre' post' : List Block} {b' c : Block}
    (hj : Joined pre b post pre' b' post') (hused : c.tag ≠ .free) :
    c ∈ pre ++ post ↔ c ∈ pre' ++ post' := by
  have hleft : c ∈ pre ↔ c ∈ pre' := by
    rcases hj.left with ⟨rfl, -⟩ | ⟨x, rfl, hx, -⟩
    · rfl
    · rw [List.mem_append, List.mem_singleton]
      exact ⟨fun h => h.elim id fun heq => absurd (heq ▸ hx) hused, Or.inl⟩
  have hright : c ∈ post ↔ c ∈ post' := by
    rcases hj.right with ⟨rfl, -⟩ | ⟨y, rfl, hy, -⟩
    · rfl
    · rw [List.mem_cons]
      exact ⟨fun h => h.elim (fun heq => absurd (heq ▸ hy) hused) id, Or.inr⟩
  rw [List.mem_append, List.mem_append, hleft, hright]

theorem wp_shrink {fuel : Nat} {pre' post' : List Block} {b' : Block}
    (h : Rep lo limit s (pre' ++ b' :: post')) (hb' : b'.tag = .free)
    (hj : Joined pre b post pre' b' post') (hfuel : 0 < fuel ∨ E .running) :
    wp (if s.heaptop ≤ b'.start + (s.mem b'.start).size ∧ 1024 ≤ (s.mem b'.start).size then do
        let _ ← addHeaptop refuses limit fuel (int32 (256 - (s.mem b'.start).size))
        setSize b'.start 256
      else return ()) E (fun _ s' => ∃ bs, Freed refuses pre b post bs ∧ Rep lo limit s' bs ∧
        Kept (pre' ++ post') s s') s := by
  have hmem : b' ∈ pre' ++ b' :: post' := List.mem_append_right pre' List.mem_cons_self
  have hsize := h.sizes b' hmem (by rw [hb']; decide)
  have htop := h.heaptop (by simp)
  obtain ⟨hleft, hpos, hright⟩ := tiles_split.mp h.tiles
  have hle := h.size_le hmem
  rw [show MAXUNITS = 2 ^ 27 from rfl] at hle
  rw [hsize, wp_ite]
  refine ⟨fun hlarge => ?_, fun hsmall => ?_⟩
  · -- the block is at the top
    have hpost : post' = [] := by
      cases post' with
      | nil => rfl
      | cons c cs =>
        have h₁ := hright.1
        have h₂ := hright.2.1
        have h₃ := hright.2.2.le
        unfold Tile.stop at h₁ h₃
        omega
    subst hpost
    have hstop : b'.start + b'.size = s.brk := hright
    have hnu : int32 (256 - (b'.size : Int)) = 256 - (b'.size : Int) := int32_eq (by omega) (by omega)
    have hkept : ∀ {t : State},
        t.mem = update s.mem b'.start { s.mem b'.start with size := 256 } →
        t.lowest = s.lowest ∨ t.lowest = min s.lowest (b'.start + 256) →
        Kept (pre' ++ []) s t := by
      intro t ht hlowest
      refine ⟨fun c hc _ a hle hlt => ?_, fun c hc _ hle => ?_⟩
      · rw [ht, update_of_ne (h.start_outside hc hle hlt)]
      · rw [List.append_nil] at hc
        have hstop := (hleft.bounds hc).2.2
        omega
    rw [hnu, wp_bind]
    refine wp_mono (wp_addHeaptop_down (by omega) (by omega) hfuel) fun r t ht => ?_
    rcases ht with ⟨hno, rfl⟩ | rfl
    · simp only [setSize, wp_modify]
      have hrest : Tiles (b'.start + 256)
          [(⟨b'.start + 256, b'.size - 256, .lost⟩ : Block)] s.brk := by
        refine ⟨rfl, Nat.sub_pos_of_lt (by omega), ?_⟩
        show b'.start + 256 + (b'.size - 256) = s.brk
        omega
      refine ⟨_, ⟨pre', b', [], hj, Or.inr ⟨rfl, hlarge.2, [⟨b'.start + 256, b'.size - 256, .lost⟩],
        rfl, fun c hc => ?_, Nat.le_refl 1, fun hshrink => ?_⟩⟩,
        h.cut hb' (fun c hc => ?_) rfl rfl hrest h.small htop, hkept rfl (Or.inl rfl)⟩
      · rw [List.mem_singleton.mp hc]
      · rcases hno with hno | hno
        · rw [hshrink _ _ (by omega)] at hno
          cases hno
        · have := h.small
          omega
      · rw [List.mem_singleton.mp hc]
    · simp only [setSize, wp_modify]
      have hbrk : ((s.brk : Int) + (256 - b'.size)).toNat = b'.start + 256 := by omega
      refine ⟨_, ⟨pre', b', [], hj, Or.inr ⟨rfl, hlarge.2, [], rfl, by simp, Nat.zero_le 1,
        fun _ => rfl⟩⟩, h.cut hb' (by simp) rfl rfl ?_ ?_ ?_, hkept rfl (Or.inr (by rw [hbrk]))⟩
      · exact hbrk.symm
      · show ((s.brk : Int) + (256 - b'.size)).toNat ≤ limit
        have := h.small
        omega
      · show ((s.heaptop : Int) + (256 - b'.size)).toNat = ((s.brk : Int) + (256 - b'.size)).toNat
        rw [htop]
  · refine ⟨_, ⟨pre', b', post', hj, Or.inl ⟨rfl, fun hnil => ?_⟩⟩, h,
      ⟨fun c hc _ a hle hlt => rfl, fun _ _ _ hle => hle⟩⟩
    subst hnil
    have hstop : b'.start + b'.size = s.brk := hright
    omega

theorem Freed.noneLost {bs : List Block} (h : Freed refuses pre b post bs)
    (hshrinks : Shrinks refuses) (hnone : NoneLost (pre ++ post)) : NoneLost bs := by
  obtain ⟨pre', b', post', hj, hbs⟩ := h
  have hold : ∀ c, c ∈ pre' ∨ c ∈ post' → c.tag ≠ .lost := fun c hc hlost =>
    hnone c ((hj.mem (by rw [hlost]; decide)).mpr (List.mem_append.mpr hc)) hlost
  intro c hc
  rcases hbs with ⟨rfl, -⟩ | ⟨-, -, rest, rfl, -, -, hrest⟩
  · rcases List.mem_append.mp hc with hc | hc
    · exact hold c (Or.inl hc)
    · rcases List.mem_cons.mp hc with rfl | hc
      · rw [hj.tag]
        decide
      · exact hold c (Or.inr hc)
  · rw [hrest hshrinks] at hc
    rcases List.mem_append.mp hc with hc | hc
    · exact hold c (Or.inl hc)
    · rw [List.mem_singleton.mp hc]
      exact Kind.noConfusion

theorem length_frees_le (bs : List Block) : (frees bs).length ≤ bs.length := by
  unfold frees
  rw [List.length_map]
  exact List.length_filter_le ..

/-- **`free`** of a block in use. -/
theorem wp_free {fuel : Nat} (h : Rep lo limit s (pre ++ b :: post)) (hb : b.tag = .live)
    (hfuel : 2 * (pre.length + post.length) + 4 ≤ fuel ∨ E .running) :
    wp (free refuses limit fuel (b.start + 1)) E (fun _ s' => ∃ bs, Freed refuses pre b post bs ∧
      Rep lo limit s' bs ∧ Kept (pre ++ post) s s') s := by
  have hb' : b.tag ≠ .free := by rw [hb]; decide
  have hbase := h.base_lt (List.mem_append_right pre List.mem_cons_self)
  cases fuel with
  | zero => exact hfuel.resolve_left (by omega)
  | succ fuel =>
    obtain ⟨f, hf, hfreep⟩ := h.freep
    rw [frees_append, frees_cons_used hb'] at hf
    simp only [free, wp_bind, wp_get]
    rw [hfreep]
    simp only [wp_bind, Nat.add_sub_cancel]
    have hpre := length_frees_le pre
    have hpost := length_frees_le post
    refine wp_mono (wp_freeSearch (h.ring_at hb') (h.sorted_at hb') hbase
      (fun a ha => h.frees_pre_lt ha) (fun a ha => h.lt_frees_post ha) hf
      (hfuel.imp_left fun hle => by omega)) ?_
    rintro p t ⟨ht, hp⟩
    subst ht hp
    refine wp_link h hb fun pre' b' post' t hj ht hkept _ _ => ?_
    have hmem : ∀ c ∈ pre ++ post, c.tag ≠ .free → c ∈ pre' ++ post' := fun c hc hused =>
      (hj.mem hused).mp hc
    rw [wp_get]
    refine wp_mono (wp_shrink ht hj.tag hj (hfuel.imp_left fun hle => by omega)) ?_
    rintro _ u ⟨bs, hfreed, hu, hkept'⟩
    exact ⟨bs, hfreed, hu, hkept.trans hkept' hmem⟩

theorem Rep.grown {bs : List Block} {nu : Nat} (h : Rep lo limit s bs) (hnu : 0 < nu)
    (hfit : s.brk + nu ≤ limit)
    (hmem : s'.mem = update s.mem s.brk { s.mem s.brk with size := nu })
    (hfreep : s'.freep = s.freep) (hbrk : s'.brk = s.brk + nu) (htop : s'.heaptop = s.brk + nu) :
    Rep lo limit s' (bs ++ [⟨s.brk, nu, .live⟩]) := by
  have hother : ∀ a, a ≠ s.brk → s'.mem a = s.mem a := fun a ha => by
    rw [hmem, update_of_ne ha]
  have hle := h.tiles.le
  have hpos := h.pos
  have hfrees : frees (bs ++ [(⟨s.brk, nu, .live⟩ : Block)]) = frees bs := by
    rw [frees_append, frees_cons_used (show Kind.live ≠ Kind.free by decide), frees_nil, List.append_nil]
  refine ⟨h.pos, tiles_split.mpr ⟨h.tiles, hnu, hbrk.symm⟩, by omega, h.limit_le, fun c hc hlost => ?_,
    ?_, ?_, ?_, fun _ => by omega, ?_⟩
  · rcases List.mem_append.mp hc with hc | hc
    · have hbounds := h.tiles.bounds hc
      unfold Tile.stop at hbounds
      rw [hother _ (by omega)]
      exact h.sizes c hc hlost
    · rw [List.mem_singleton.mp hc]
      show (s'.mem s.brk).size = nu
      rw [hmem, update_self]
  · rw [hother _ (by omega), h.base_size]
  · rw [hfrees]
    refine h.ring.congr fun a ha => ?_
    show (s'.mem a).ptr = (s.mem a).ptr
    have hne : a ≠ s.brk := by
      rcases List.mem_cons.mp ha with rfl | ha
      · omega
      · exact Nat.ne_of_lt (frees_bounds h.tiles ha).2
    rw [hother a hne]
  · rw [hfrees, hfreep]
    exact h.freep
  · refine List.isChain_append.mpr ⟨h.separate, List.isChain_singleton _, fun x _ c hc hboth => ?_⟩
    rw [List.head?_cons, Option.mem_some_iff] at hc
    rw [← hc] at hboth
    cases hboth.2

/-- **`add_heaptop`** of some units: the heap has grown by a free block, unless `sbrk` refuses. -/
theorem wp_addHeaptop_up {fuel nu : Nat} {bs : List Block} (h : Rep lo limit s bs) (hnu : 0 < nu)
    (hsmall : nu < 2 ^ 27) (hfuel : 2 * bs.length + 5 ≤ fuel ∨ E .running) :
    wp (addHeaptop refuses limit fuel nu) E (fun r s' =>
      (r = none ∧ Rep lo limit s' bs ∧ Kept bs s s' ∧
        (refuses s.calls (nu * 16) = true ∨ limit < s.brk + nu)) ∨
      s.brk + nu ≤ limit ∧ ∃ cs f, r = some f ∧ s'.freep = some f ∧
        Freed refuses bs ⟨s.brk, nu, .live⟩ [] cs ∧ Rep lo limit s' cs ∧ Kept bs s s') s := by
  cases fuel with
  | zero => exact hfuel.resolve_left (by omega)
  | succ fuel =>
    have hbytes : int32 ((nu : Int) * 16) = nu * 16 := int32_eq (by omega) (by omega)
    have hdiv : (nu : Int) * 16 / 16 = nu := Int.mul_ediv_cancel _ (by decide)
    rw [addHeaptop, if_pos (by omega), wp_bind, hbytes]
    refine wp_mono (wp_sbrk _) fun r t ht => ?_
    simp only [hdiv] at ht
    rcases ht with ⟨rfl, hno, rfl⟩ | ⟨rfl, hfit, rfl⟩
    · refine Or.inl ⟨rfl, ?_, ⟨fun _ _ _ _ _ _ => rfl, fun _ _ _ hle => hle⟩,
        hno.imp_right fun hlt => by omega⟩
      exact ⟨h.pos, h.tiles, h.small, h.limit_le, h.sizes, h.base_size, h.ring, h.freep, h.heaptop,
        h.separate⟩
    · simp only [setSize, wp_bind, wp_modify, Int.toNat_natCast]
      have hbrk : ((s.brk : Int) + nu).toNat = s.brk + nu := by omega
      have hgrown : Rep lo limit { s with
          mem := update s.mem s.brk { s.mem s.brk with size := nu }
          calls := s.calls + 1
          brk := ((s.brk : Int) + nu).toNat
          lowest := min s.lowest ((s.brk : Int) + nu).toNat
          heaptop := s.brk + nu } (bs ++ [⟨s.brk, nu, .live⟩]) :=
        h.grown hnu (by omega) rfl rfl hbrk rfl
      refine wp_mono (wp_free hgrown rfl (hfuel.imp_left fun hle => ?_)) ?_
      · rw [List.length_nil]
        omega
      · rintro _ u ⟨cs, hfreed, hu, hkept⟩
        obtain ⟨f, -, hf⟩ := hu.freep
        rw [List.append_nil] at hkept
        simp only [wp_get, wp_pure]
        refine Or.inr ⟨by omega, cs, f, hf, hf, hfreed, hu, fun c hc hused a hle hlt => ?_,
          fun c hc hused hle => hkept.mapped c hc hused ?_⟩
        · rw [hkept.mem c hc hused a hle hlt]
          have hbounds := h.tiles.bounds hc
          exact update_of_ne (by omega) ..
        · have hbounds := h.tiles.bounds hc
          show c.stop ≤ min s.lowest ((s.brk : Int) + nu).toNat
          omega

end Shrink

end Xv6.Umalloc
