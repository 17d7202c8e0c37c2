import Xv6.Lib.Transition
import Xv6.Umalloc.Malloc

/-!
# Programs that use the heap

A program calls `malloc` and `free` and stores into the blocks it has.  Whatever it does, its heap
is tiled by its blocks and those of the free list, and no call touches a block that it has.
-/

namespace Xv6.Umalloc

open Hoare Linked Tiling Transition

structure Client where
  heap : State
  /-- The pointers that `malloc` has returned and that are not freed yet, each with the number of
      bytes asked for. -/
  live : List (Nat × Nat)

/-- The program starts with its break at `lo`. -/
def Client.init (lo : Nat) (mem : Nat → Header) : Client := ⟨⟨mem, none, 0, lo, lo, 0⟩, []⟩

inductive Act where
  | malloc (fuel nbytes : Nat)
  | free (fuel ap : Nat)
  /-- The program writes a unit of memory. -/
  | store (a : Nat) (x : Header)

def State.enter (s : State) : State := { s with lowest := s.brk }

section Step

variable (refuses : Nat → Int → Bool) (limit : Nat)

/-- A call that does not return within its fuel is none. -/
def step (s : Client) : Act → Outcome Stop Client
  | .malloc fuel nbytes =>
    match malloc refuses limit fuel nbytes s.heap.enter with
    | .ok (some p, heap) => .done ⟨heap, (p, nbytes) :: s.live⟩
    | .ok (none, heap) => .done ⟨heap, s.live⟩
    | .error .running => .blocked
    | .error e => .fail e
  | .free fuel ap =>
    match free refuses limit fuel ap s.heap.enter with
    | .ok (_, heap) => .done ⟨heap, s.live.filter fun x => x.1 ≠ ap⟩
    | .error .running => .blocked
    | .error e => .fail e
  | .store a x => .done { s with heap := s.heap.setHeader a x }

end Step

/-- The sizes of requests are `int`s with their header, only live pointers are freed, and the
    program writes nothing but the bytes of its blocks. -/
def Allowed (s : Client) : Act → Prop
  | .malloc _ nbytes => nbytes < 2 ^ 31 - 32
  | .free _ ap => ap ∈ s.live.map Prod.fst
  | .store a _ => ∃ x ∈ s.live, x.1 ≤ a ∧ a + 1 < x.1 + unitsFor x.2

instance (s : Client) (a : Act) : Decidable (Allowed s a) := by
  cases a <;> unfold Allowed <;> infer_instance

/-- The live blocks are those of the live pointers. -/
structure Matches (live : List (Nat × Nat)) (bs : List Block) : Prop where
  nodup : (live.map Prod.fst).Nodup
  block : ∀ p nbytes, (p, nbytes) ∈ live → nbytes < 2 ^ 31 - 32 ∧
    ∃ b ∈ bs, b.tag = .live ∧ b.start + 1 = p ∧ b.size = unitsFor nbytes
  pointer : ∀ b ∈ bs, b.tag = .live → ∃ nbytes, (b.start + 1, nbytes) ∈ live

structure Inv (refuses : Nat → Int → Bool) (lo limit : Nat) (s : Client) (bs : List Block) :
    Prop where
  rep : Rep lo limit s.heap.opened bs
  lost : Shrinks refuses → NoneLost bs
  live : Matches s.live bs
  fresh : s.heap.freep = none → s.live = []

section Invariant

variable {refuses : Nat → Int → Bool} {lo limit : Nat} {s s' : Client} {bs cs : List Block}

theorem opened_of_freep {h : State} {f : Nat} (hf : h.freep = some f) : h.opened = h := by
  unfold State.opened
  rw [hf]

theorem opened_of_none {h : State} (hf : h.freep = none) :
    h.opened = { h.setHeader base ⟨base, 0⟩ with freep := some base } := by
  unfold State.opened
  rw [hf]

theorem Rep.opened {h : State} (hrep : Rep lo limit h bs) : Rep lo limit h.opened bs := by
  obtain ⟨f, -, hf⟩ := hrep.freep
  rw [opened_of_freep hf]
  exact hrep

theorem inv_init (hlo : 0 < lo) (hle : lo ≤ limit) (hlimit : limit ≤ lo + MAXUNITS)
    (mem : Nat → Header) : Inv refuses lo limit (Client.init lo mem) [] := by
  have hbase : (Client.init lo mem).heap.opened.mem base = ⟨base, 0⟩ := by
    rw [opened_of_none rfl]
    exact State.setHeader_self (Client.init lo mem).heap base ⟨base, 0⟩
  refine ⟨⟨hlo, rfl, hle, hlimit, nofun, by rw [hbase], ?_, ⟨base, List.mem_cons_self, rfl⟩,
    fun hne => absurd rfl hne, List.isChain_nil⟩, fun _ => nofun, ⟨List.nodup_nil, nofun, nofun⟩,
    fun _ => rfl⟩
  show ((Client.init lo mem).heap.opened.mem base).ptr = base
  rw [hbase]

theorem Rep.enter {h : State} (hrep : Rep lo limit h.opened bs) :
    Rep lo limit h.enter.opened bs := by
  have hsame : h.enter.opened = { h.opened with lowest := h.brk } := by
    cases hf : h.freep with
    | none =>
      rw [opened_of_none hf, opened_of_none (show h.enter.freep = none from hf)]
      rfl
    | some f =>
      rw [opened_of_freep hf, opened_of_freep (show h.enter.freep = some f from hf)]
      rfl
  rw [hsame]
  exact ⟨hrep.pos, hrep.tiles, hrep.small, hrep.limit_le, hrep.sizes, hrep.base_size, hrep.ring,
    hrep.freep, hrep.heaptop, hrep.separate⟩

theorem Matches.served {live : List (Nat × Nat)} {nbytes : Nat} {c : Block} {hi : Nat}
    (hm : Matches live bs) (hbytes : nbytes < 2 ^ 31 - 32) (hsame : SameLive bs cs (some c))
    (htiles : Tiles lo cs hi) (hc : c.tag = .live) (hsize : c.size = unitsFor nbytes)
    (hnew : c ∉ bs) : Matches ((c.start + 1, nbytes) :: live) cs := by
  have hmem : c ∈ cs := (hsame c hc).mpr (Or.inr rfl)
  refine ⟨?_, fun p nb hp => ?_, fun b hb hlive => ?_⟩
  · rw [List.map_cons]
    refine List.nodup_cons.mpr ⟨fun hin => ?_, hm.nodup⟩
    obtain ⟨⟨p, nb⟩, hp, heq⟩ := List.mem_map.mp hin
    obtain ⟨-, b, hb, hlive, hstart, -⟩ := hm.block p nb hp
    have hp' : p = c.start + 1 := heq
    have hbc : b = c := htiles.eq_of_start ((hsame b hlive).mpr (Or.inl hb)) hmem (by omega)
    exact hnew (hbc ▸ hb)
  · rcases List.mem_cons.mp hp with heq | hp
    · obtain ⟨rfl, rfl⟩ := Prod.mk.inj heq
      exact ⟨hbytes, c, hmem, hc, rfl, hsize⟩
    · obtain ⟨hnb, b, hb, hlive, hspec⟩ := hm.block p nb hp
      exact ⟨hnb, b, (hsame b hlive).mpr (Or.inl hb), hlive, hspec⟩
  · rcases (hsame b hlive).mp hb with hb | heq
    · obtain ⟨nb, hnb⟩ := hm.pointer b hb hlive
      exact ⟨nb, List.mem_cons_of_mem _ hnb⟩
    · obtain rfl := Option.some.inj heq
      exact ⟨nbytes, List.mem_cons_self⟩

theorem Matches.same {live : List (Nat × Nat)} (hm : Matches live bs)
    (hsame : SameLive bs cs none) : Matches live cs := by
  have hiff : ∀ c : Block, c.tag = .live → (c ∈ cs ↔ c ∈ bs) := fun c hc => by
    rw [hsame c hc]
    simp
  refine ⟨hm.nodup, fun p nb hp => ?_, fun b hb hlive => hm.pointer b ((hiff b hlive).mp hb) hlive⟩
  obtain ⟨hnb, b, hb, hlive, hspec⟩ := hm.block p nb hp
  exact ⟨hnb, b, (hiff b hlive).mpr hb, hlive, hspec⟩

theorem Matches.free {live : List (Nat × Nat)} {pre post : List Block} {b : Block} {h : State}
    (hm : Matches live (pre ++ b :: post)) (hrep : Rep lo limit h (pre ++ b :: post)) :
    Matches (live.filter fun x => x.1 ≠ b.start + 1) (pre ++ post) := by
  have hsub : ∀ {c}, c ∈ pre ++ post → c ∈ pre ++ b :: post := fun hc => by
    simp only [List.mem_append, List.mem_cons] at hc ⊢
    tauto
  refine ⟨hm.nodup.sublist (List.filter_sublist.map _), fun p nb hp => ?_, fun c hc hlive => ?_⟩
  · obtain ⟨hp, hne⟩ := List.mem_filter.mp hp
    obtain ⟨hnb, c, hc, hlive, hstart, hsize⟩ := hm.block p nb hp
    refine ⟨hnb, c, ?_, hlive, hstart, hsize⟩
    have hcb : c ≠ b := fun heq => of_decide_eq_true hne (by rw [← hstart, heq])
    simp only [List.mem_append, List.mem_cons] at hc ⊢
    tauto
  · obtain ⟨nb, hnb⟩ := hm.pointer c (hsub hc) hlive
    refine ⟨nb, List.mem_filter.mpr ⟨hnb, decide_eq_true fun heq => hrep.start_ne hc ?_⟩⟩
    exact Nat.succ.inj heq

theorem Rep.store {h : State} {b : Block} {a : Nat} (hrep : Rep lo limit h bs) (hb : b ∈ bs)
    (hlt : b.start < a) (hstop : a < b.stop) (x : Header) :
    Rep lo limit (h.setHeader a x) bs := by
  -- no block starts there
  have hne : ∀ c ∈ bs, c.start ≠ a := fun c hc heq => by
    have hcb : c ≠ b := fun hcb => by
      rw [hcb] at heq
      omega
    have hpos := (hrep.tiles.bounds hc).2.1
    have := hrep.tiles.apart hc hb hcb
    unfold Tile.stop at this hstop
    omega
  have hbase : base ≠ a := by
    have := hrep.base_lt hb
    omega
  refine ⟨hrep.pos, hrep.tiles, hrep.small, hrep.limit_le, fun c hc hused => ?_, ?_, ?_, hrep.freep,
    hrep.heaptop, hrep.separate⟩
  · rw [State.setHeader_ne _ _ (hne c hc)]
    exact hrep.sizes c hc hused
  · rw [State.setHeader_ne _ _ hbase]
    exact hrep.base_size
  · refine hrep.ring.congr fun y hy => ?_
    have hya : y ≠ a := by
      rcases List.mem_cons.mp hy with rfl | hy
      · exact hbase
      · obtain ⟨c, hc, -, rfl⟩ := mem_frees.mp hy
        exact hne c hc
    show ((h.setHeader a x).mem y).ptr = (h.mem y).ptr
    rw [State.setHeader_ne _ _ hya]

theorem Inv.malloc (h : Inv refuses lo limit s bs) {fuel nbytes : Nat}
    (hbytes : nbytes < 2 ^ 31 - 32) {r : Option Nat} {heap : State}
    (hcall : malloc refuses limit fuel nbytes s.heap.enter = .ok (r, heap)) :
    ∃ cs, Inv refuses lo limit
      ⟨heap, r.toList.map (fun p => (p, nbytes)) ++ s.live⟩ cs ∧
      Kept bs s.heap.enter.opened heap := by
  obtain ⟨hpos, hsmall, -⟩ := unitsFor_spec hbytes
  have hrep := h.rep.enter
  obtain ⟨f, -, hf⟩ := hrep.freep
  rw [malloc_eq hf] at hcall
  have hserved : Served refuses lo limit (unitsFor nbytes) bs s.heap.enter.opened r heap :=
    wp_ok (wp_mallocLoop (E := fun _ => True) trivial hrep hpos hsmall hf) hcall
  obtain ⟨⟨cs, new, hcs, hsame, hr, hspec, hlost⟩, hkept⟩ := hserved
  refine ⟨cs, ⟨hcs.opened, fun hshrinks => hlost hshrinks (h.lost hshrinks), ?_, ?_⟩, hkept⟩
  · cases new with
    | none =>
      subst hr
      exact h.live.same hsame
    | some c =>
      subst hr
      obtain ⟨hlive, hsize, hnew⟩ := hspec c rfl
      exact h.live.served hbytes hsame hcs.tiles hlive hsize hnew
  · intro hnone
    obtain ⟨g, -, hg⟩ := hcs.freep
    exact nomatch hg.symm.trans hnone

theorem Inv.free (h : Inv refuses lo limit s bs) {fuel ap : Nat}
    (hap : ap ∈ s.live.map Prod.fst) {heap : State}
    (hcall : free refuses limit fuel ap s.heap.enter = .ok ((), heap)) :
    ∃ pre b post cs, bs = pre ++ b :: post ∧ b.start + 1 = ap ∧
      Inv refuses lo limit ⟨heap, s.live.filter fun x => x.1 ≠ ap⟩ cs ∧
      Kept (pre ++ post) s.heap.enter heap := by
  obtain ⟨⟨_, nbytes⟩, hmem, rfl⟩ := List.mem_map.mp hap
  obtain ⟨-, b, hb, hlive, rfl, -⟩ := h.live.block _ nbytes hmem
  obtain ⟨pre, post, rfl⟩ := List.append_of_mem hb
  obtain ⟨f, hf⟩ : ∃ f, s.heap.freep = some f := by
    cases hf : s.heap.freep with
    | none =>
      rw [h.fresh hf] at hmem
      exact nomatch hmem
    | some f => exact ⟨f, rfl⟩
  have hrep := h.rep.enter
  rw [opened_of_freep (show s.heap.enter.freep = some f from hf)] at hrep
  obtain ⟨cs, hfreed, hcs, hkept⟩ :=
    wp_ok (wp_free (E := fun _ => True) hrep hlive (Or.inr trivial)) hcall
  refine ⟨pre, b, post, cs, rfl, rfl, ⟨hcs.opened, fun hshrinks => hfreed.noneLost hshrinks ?_,
    (h.live.free hrep).same hfreed.sameLive, fun hnone => ?_⟩, hkept⟩
  · intro c hc
    refine h.lost hshrinks c ?_
    simp only [List.mem_append, List.mem_cons] at hc ⊢
    tauto
  · obtain ⟨g, -, hg⟩ := hcs.freep
    exact nomatch hg.symm.trans hnone

theorem Inv.store (h : Inv refuses lo limit s bs) {a p nbytes : Nat} (hp : (p, nbytes) ∈ s.live)
    (hle : p ≤ a) (hlt : a + 1 < p + unitsFor nbytes) (x : Header) :
    Inv refuses lo limit { s with heap := s.heap.setHeader a x } bs := by
  obtain ⟨-, b, hb, hlive, rfl, hsize⟩ := h.live.block p nbytes hp
  obtain ⟨f, hf⟩ : ∃ f, s.heap.freep = some f := by
    cases hf : s.heap.freep with
    | none =>
      rw [h.fresh hf] at hp
      exact nomatch hp
    | some f => exact ⟨f, rfl⟩
  have hrep := h.rep
  rw [opened_of_freep hf] at hrep
  have hstore : Rep lo limit (s.heap.setHeader a x) bs :=
    hrep.store hb hle (by unfold Tile.stop; omega) x
  exact ⟨hstore.opened, h.lost, h.live, h.fresh⟩

theorem Inv.step (h : Inv refuses lo limit s bs) {a : Act} (hallowed : Allowed s a)
    (hstep : step refuses limit s a = .done s') : ∃ cs, Inv refuses lo limit s' cs := by
  cases a with
  | malloc fuel nbytes =>
    simp only [Umalloc.step] at hstep
    split at hstep
    · obtain rfl := Outcome.done.inj hstep
      obtain ⟨cs, hcs, -⟩ := h.malloc hallowed ‹_›
      exact ⟨cs, hcs⟩
    · obtain rfl := Outcome.done.inj hstep
      obtain ⟨cs, hcs, -⟩ := h.malloc hallowed ‹_›
      exact ⟨cs, hcs⟩
    · exact nomatch hstep
    · exact nomatch hstep
  | free fuel ap =>
    simp only [Umalloc.step] at hstep
    split at hstep
    · obtain rfl := Outcome.done.inj hstep
      obtain ⟨-, -, -, cs, -, -, hcs, -⟩ := h.free hallowed ‹_›
      exact ⟨cs, hcs⟩
    · exact nomatch hstep
    · exact nomatch hstep
  | store a x =>
    obtain ⟨⟨p, nbytes⟩, hp, hle, hlt⟩ := hallowed
    rw [← Outcome.done.inj hstep]
    exact ⟨bs, h.store hp hle hlt x⟩

theorem inv_of_reachable (hlo : 0 < lo) (hle : lo ≤ limit) (hlimit : limit ≤ lo + MAXUNITS)
    {mem : Nat → Header} (hs : Reachable (Client.init lo mem) (step refuses limit) Allowed s) :
    ∃ bs, Inv refuses lo limit s bs :=
  hs.invariant (I := fun s => ∃ bs, Inv refuses lo limit s bs) ⟨[], inv_init hlo hle hlimit mem⟩
    fun _ ⟨_, h⟩ hallowed hstep => h.step hallowed hstep

theorem opened_break (h : State) : h.opened.brk = h.brk ∧ h.opened.lowest = h.lowest := by
  cases hf : h.freep with
  | none =>
    rw [opened_of_none hf]
    exact ⟨rfl, rfl⟩
  | some f =>
    rw [opened_of_freep hf]
    exact ⟨rfl, rfl⟩

theorem mem_enter_opened {h : State} {a : Nat} (ha : a ≠ base) :
    h.enter.opened.mem a = h.mem a := by
  cases hf : h.freep with
  | none =>
    rw [opened_of_none (show h.enter.freep = none from hf)]
    exact State.setHeader_ne h.enter ⟨base, 0⟩ ha
  | some f =>
    rw [opened_of_freep (show h.enter.freep = some f from hf)]
    rfl

/-- The blocks that a call leaves to the program keep their contents, and the break stays above
    them all the time. -/
theorem Inv.kept (h : Inv refuses lo limit s bs) {a : Act} (hallowed : Allowed s a)
    (hcall : ∀ x y, a ≠ .store x y) (hstep : Umalloc.step refuses limit s a = .done s')
    {p nbytes : Nat} (hp : (p, nbytes) ∈ s.live) (hp' : (p, nbytes) ∈ s'.live) :
    p - 1 + unitsFor nbytes ≤ s'.heap.lowest ∧
      ∀ u, p - 1 ≤ u → u < p - 1 + unitsFor nbytes → s'.heap.mem u = s.heap.mem u := by
  obtain ⟨-, c, hc, hlive, rfl, hsize⟩ := h.live.block p nbytes hp
  rw [Nat.add_sub_cancel, ← hsize]
  have hbase := h.rep.base_lt hc
  have hused : c.tag ≠ .free := by
    rw [hlive]
    decide
  have hbrk : c.stop ≤ s.heap.brk := by
    rw [← (opened_break s.heap).1]
    exact (h.rep.tiles.bounds hc).2.2
  cases a with
  | malloc fuel nb =>
    have hmalloc : ∀ {r heap}, Umalloc.malloc refuses limit fuel nb s.heap.enter = .ok (r, heap) →
        c.start + c.size ≤ heap.lowest ∧
          ∀ u, c.start ≤ u → u < c.start + c.size → heap.mem u = s.heap.mem u := by
      intro r heap hok
      obtain ⟨-, -, hkept⟩ := h.malloc hallowed hok
      refine ⟨hkept.mapped c hc hused ?_, fun u hle hlt => ?_⟩
      · rw [(opened_break s.heap.enter).2]
        exact hbrk
      · rw [hkept.mem c hc hused u hle hlt, mem_enter_opened (by omega)]
    simp only [Umalloc.step] at hstep
    split at hstep
    · rw [← Outcome.done.inj hstep]
      exact hmalloc ‹_›
    · rw [← Outcome.done.inj hstep]
      exact hmalloc ‹_›
    · exact nomatch hstep
    · exact nomatch hstep
  | free fuel ap =>
    simp only [Umalloc.step] at hstep
    split at hstep
    · obtain ⟨pre, b, post, -, rfl, rfl, -, hkept⟩ := h.free hallowed ‹_›
      rw [← Outcome.done.inj hstep] at hp' ⊢
      have hne : c ≠ b := fun heq =>
        of_decide_eq_true (List.mem_filter.mp hp').2 (congrArg (fun x : Block => x.start + 1) heq)
      have hmem : c ∈ pre ++ post := by
        simp only [List.mem_append, List.mem_cons] at hc ⊢
        tauto
      exact ⟨hkept.mapped c hmem hused hbrk, fun u hle hlt => hkept.mem c hmem hused u hle hlt⟩
    · exact nomatch hstep
    · exact nomatch hstep
  | store x y => exact absurd rfl (hcall x y)

end Invariant

/-- **The heap is safe.**  Behind the first call of `malloc` the heap is tiled by the free blocks
    and the blocks of the program, no two free blocks are next to each other, and the free list is a
    ring through `base` in the order of the addresses.  Blocks are large enough, and a call keeps
    every block that it does not free: what it holds, and its memory in the process. -/
theorem heap_safe {refuses : Nat → Int → Bool} {lo limit : Nat} {mem : Nat → Header} {s : Client}
    (hlo : base < lo) (hle : lo ≤ limit) (hlimit : limit ≤ lo + MAXUNITS)
    (hshrinks : Shrinks refuses)
    (hs : Reachable (Client.init lo mem) (step refuses limit) Allowed s) :
    (s.heap.freep ≠ none → ∃ bs, Rep lo limit s.heap bs ∧ (∀ b ∈ bs, b.tag ≠ .lost) ∧
      (base :: frees bs).Pairwise (· < ·) ∧ Matches s.live bs) ∧
    (∀ p nbytes, (p, nbytes) ∈ s.live → nbytes ≤ 16 * (unitsFor nbytes - 1)) ∧
    ∀ a s', Allowed s a → (∀ x y, a ≠ .store x y) → step refuses limit s a = .done s' →
      ∀ p nbytes, (p, nbytes) ∈ s.live → (p, nbytes) ∈ s'.live →
        p - 1 + unitsFor nbytes ≤ s'.heap.lowest ∧
        ∀ u, p - 1 ≤ u → u < p - 1 + unitsFor nbytes → s'.heap.mem u = s.heap.mem u := by
  obtain ⟨bs, h⟩ := inv_of_reachable hlo hle hlimit hs
  refine ⟨fun hsome => ?_, fun p nbytes hp => ?_,
    fun a s' hallowed hcall hstep p nbytes hp hp' => h.kept hallowed hcall hstep hp hp'⟩
  · obtain ⟨f, hf⟩ := Option.ne_none_iff_exists'.mp hsome
    have hrep := h.rep
    rw [opened_of_freep hf] at hrep
    exact ⟨bs, hrep, h.lost hshrinks, hrep.sorted, h.live⟩
  · exact (unitsFor_spec (h.live.block p nbytes hp).1).2.2

/-- The state after the steps of a list, on a heap that starts at 1. -/
def clientAfter (refuses : Nat → Int → Bool) (acts : List Act) : Client :=
  finalState (step refuses 4096) (fun s a => decide (Allowed s a)) (Client.init 1 fun _ => ⟨0, 0⟩)
    acts

/-- Two blocks, and the first one freed. -/
def twoBlocks : List Act := [.malloc 20 100, .malloc 20 200, .free 20 250]

theorem reachable_twoBlocks : Reachable (Client.init 1 fun _ => ⟨0, 0⟩)
    (step (fun _ _ => false) 4096) Allowed (clientAfter (fun _ _ => false) twoBlocks) :=
  (reachable_finalState (by decide)).mono fun _ _ => of_decide_eq_true

theorem heap_safe_twoBlocks :
    (236, 200) ∈ (clientAfter (fun _ _ => false) twoBlocks).live ∧
      ∃ bs, Rep 1 4096 (clientAfter (fun _ _ => false) twoBlocks).heap bs ∧
        (∀ b ∈ bs, b.tag ≠ .lost) ∧ (base :: frees bs).Pairwise (· < ·) ∧
        Matches (clientAfter (fun _ _ => false) twoBlocks).live bs := by
  refine ⟨by decide,
    (heap_safe ?_ ?_ ?_ (fun _ _ _ => rfl) reachable_twoBlocks).1 (by decide)⟩
  · decide
  · decide
  · unfold MAXUNITS
    decide

/-! ### A request to shrink the heap that is refused -/

/-- A large block and a small one, both freed. -/
def largeBlocks : List Act :=
  [.malloc 20 16000, .malloc 20 1000, .free 20 2, .free 20 1195]

/-- An `sbrk` that refuses to shrink the heap. -/
def refusesShrink (_ : Nat) (n : Int) : Bool := decide (n < 0)

/-- The heap is one free block of 256 units by its header, but has 1257 units. -/
theorem shrink_refused_loses_memory :
    Reachable (Client.init 1 fun _ => ⟨0, 0⟩) (step refusesShrink 4096) Allowed
      (clientAfter refusesShrink largeBlocks) ∧
    (clientAfter refusesShrink largeBlocks).heap.freep ≠ none ∧
    ¬ ∃ bs, Rep 1 4096 (clientAfter refusesShrink largeBlocks).heap bs ∧
      (∀ b ∈ bs, b.tag ≠ .lost) ∧ Matches (clientAfter refusesShrink largeBlocks).live bs := by
  refine ⟨(reachable_finalState (by decide +kernel)).mono fun _ _ => of_decide_eq_true,
    by decide +kernel, ?_⟩
  rintro ⟨bs, hrep, hlost, hlive⟩
  have hnone : (clientAfter refusesShrink largeBlocks).live = [] := by decide +kernel
  have hbrk : (clientAfter refusesShrink largeBlocks).heap.brk = 1258 := by decide +kernel
  have hsize : ((clientAfter refusesShrink largeBlocks).heap.mem 1).size = 256 := by
    decide +kernel
  rw [hnone] at hlive
  have hfree : ∀ b ∈ bs, b.tag = .free := by
    intro b hb
    cases htag : b.tag with
    | free => rfl
    | live =>
      obtain ⟨nbytes, hmem⟩ := hlive.pointer b hb htag
      exact nomatch hmem
    | lost => exact absurd htag (hlost b hb)
  have htiles := hrep.tiles
  rw [hbrk] at htiles
  match bs, htiles, hrep.separate, hfree with
  | [], htiles, _, _ => exact absurd htiles (by unfold Tiles; decide)
  | [b], ⟨hstart, _, hstop⟩, _, hfree =>
    have hheader := hrep.sizes b List.mem_cons_self (hlost b List.mem_cons_self)
    have hstop' : b.start + b.size = 1258 := hstop
    rw [hstart, hsize] at hheader
    omega
  | b :: c :: bs, _, hsep, hfree =>
    exact (List.isChain_cons_cons.mp hsep).1
      ⟨hfree b List.mem_cons_self, hfree c (List.mem_cons_of_mem b List.mem_cons_self)⟩

end Xv6.Umalloc
