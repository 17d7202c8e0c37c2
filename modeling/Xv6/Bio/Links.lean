import Xv6.Bio.Cache
import Xv6.Lib.Linked

/-!
# The list of buffers

`bget`, `brelse`, `bpin` and `bunpin` of `kernel/bio.c` with the links of the buffers as they are in
memory.  A step is what happens under `bcache.lock`, or under the lock of the sleep lock; between
the steps of one call there may be those of any others.  A count is a natural number here, the
references to a buffer being far fewer than 2^32.
-/

namespace Xv6.Bio.Links

open Transition Linked Function

/-- `&bcache.head`, or `&bcache.buf[i]`. -/
inductive Ptr where
  | head
  | buf (i : Nat)
deriving DecidableEq, Repr

/-- How far a process has come with its reference to a buffer. -/
inductive Stage where
  /-- In `acquiresleep`, at the end of `bget`. -/
  | waiting
  /-- It has the buffer. -/
  | holding
  /-- In `brelse`, where the sleep lock is released and the reference is not. -/
  | leaving
deriving DecidableEq, Repr

structure Ref where
  pid : Pid
  buf : Nat
  stage : Stage
deriving DecidableEq, Repr

structure State where
  next : Ptr → Ptr
  prev : Ptr → Ptr
  buf : Nat → Buf
  /-- The processes between the beginning of `bget` and the end of `brelse`. -/
  refs : List Ref
  /-- The calls of `bpin` that no `bunpin` has undone; with the next two, for the statements. -/
  pins : List Nat
  clock : Nat
  /-- When the count of a buffer last dropped to 0 in `brelse`, and 0 if it never has. -/
  released : Nat → Nat

def State.setNext (s : State) (p q : Ptr) : State := { s with next := update s.next p q }

def State.setPrev (s : State) (p q : Ptr) : State := { s with prev := update s.prev p q }

def State.setBuf (s : State) (i : Nat) (x : Buf) : State :=
  { s with buf := update s.buf i x }

/-- Link a buffer in behind the head. -/
def pushFront (b : Ptr) (s : State) : State :=
  let s := s.setNext b (s.next .head)
  let s := s.setPrev b .head
  let s := s.setPrev (s.next .head) b
  s.setNext .head b

/-- `b->next->prev = b->prev; b->prev->next = b->next;` -/
def unlink (b : Ptr) (s : State) : State :=
  let s := s.setPrev (s.next b) (s.prev b)
  s.setNext (s.prev b) (s.next b)

def binit : State :=
  (List.range NBUF).foldl (fun s i => pushFront (.buf i) s)
    { next := fun _ => .head
      prev := fun _ => .head
      buf := fun _ => ⟨false, 0, 0, none, 0, fun _ => 0⟩
      refs := []
      pins := []
      clock := 1
      released := fun _ => 0 }

/-- `for (b = start; b != &bcache.head; b = b->link) if (test(b)) return b;`, for at most `fuel`
    rounds; there is no result if the loop goes on. -/
def walk (link : Ptr → Ptr) (test : Nat → Bool) : Nat → Ptr → Option (Option Nat)
  | 0, _ => none
  | _ + 1, .head => some none
  | fuel + 1, .buf i => if test i then some (some i) else walk link test fuel (link (.buf i))

/-- What `bget` finds. -/
inductive Found where
  | cached (i : Nat)
  | recycled (i : Nat)
  | nothing
deriving DecidableEq, Repr

/-- The two loops of `bget`. -/
def find (dev blockno : Nat) (s : State) : Option Found :=
  match walk s.next (fun i => (s.buf i).caches dev blockno) (NBUF + 1) (s.next .head) with
  | none => none
  | some (some i) => some (.cached i)
  | some none =>
    match walk s.prev (fun i => (s.buf i).refcnt = 0) (NBUF + 1) (s.prev .head) with
    | none => none
    | some (some i) => some (.recycled i)
    | some none => some .nothing

/-- Why a call does not go on. -/
inductive Fault where
  | panic (p : Panic)
  /-- A loop does not end. -/
  | running
deriving DecidableEq, Repr

inductive Act where
  /-- `bget(dev, blockno)`, up to `acquiresleep`. -/
  | bget (pid : Pid) (dev blockno : Nat)
  | acquiresleep (pid : Pid) (i : Nat)
  /-- `brelse(b)`, up to where it takes `bcache.lock`. -/
  | brelse (pid : Pid) (i : Nat)
  /-- The rest of `brelse`. -/
  | leave (pid : Pid) (i : Nat)
  | bpin (i : Nat)
  | bunpin (i : Nat)
deriving DecidableEq, Repr

/-- `b->refcnt--`, and the move to the front if no one is waiting for the buffer. -/
def drop (i : Nat) (s : State) : State :=
  let s := s.setBuf i { s.buf i with refcnt := (s.buf i).refcnt - 1 }
  if (s.buf i).refcnt = 0 then
    { pushFront (.buf i) (unlink (.buf i) s) with
      clock := s.clock + 1
      released := update s.released i s.clock }
  else s

def step (s : State) : Act → Outcome Fault State
  | .bget pid dev blockno =>
    match find dev blockno s with
    | none => .fail .running
    | some (.cached i) => .done { s.setBuf i { s.buf i with refcnt := (s.buf i).refcnt + 1 } with
        refs := ⟨pid, i, .waiting⟩ :: s.refs }
    | some (.recycled i) => .done { s.setBuf i { s.buf i with
          dev := dev, blockno := blockno, valid := false, refcnt := 1 } with
        refs := ⟨pid, i, .waiting⟩ :: s.refs }
    | some .nothing => .fail (.panic .noBuffers)
  | .acquiresleep pid i =>
    if ⟨pid, i, .waiting⟩ ∈ s.refs ∧ (s.buf i).lock = none then
      .done { s.setBuf i { s.buf i with lock := some pid } with
        refs := ⟨pid, i, .holding⟩ :: s.refs.erase ⟨pid, i, .waiting⟩ }
    else .blocked
  | .brelse pid i =>
    if (s.buf i).lock = some pid then
      .done { s.setBuf i { s.buf i with lock := none } with
        refs := ⟨pid, i, .leaving⟩ :: s.refs.erase ⟨pid, i, .holding⟩ }
    else .fail (.panic .brelse)
  | .leave pid i =>
    if ⟨pid, i, .leaving⟩ ∈ s.refs then
      .done { drop i s with refs := s.refs.erase ⟨pid, i, .leaving⟩ }
    else .blocked
  | .bpin i => .done { s.setBuf i { s.buf i with refcnt := (s.buf i).refcnt + 1 } with
      pins := i :: s.pins }
  | .bunpin i => .done { s.setBuf i { s.buf i with refcnt := (s.buf i).refcnt - 1 } with
      pins := s.pins.erase i }

/-- A buffer is pinned only if it is one, and unpinned only while it is pinned and some process
    still has it. -/
def Allowed (s : State) : Act → Prop
  | .bpin i => i < NBUF
  | .bunpin i => i ∈ s.pins ∧ ∃ r ∈ s.refs, r.buf = i
  | _ => True

instance (s : State) (a : Act) : Decidable (Allowed s a) := by
  unfold Allowed
  split <;> infer_instance

/-! ### The list -/

/-- The links of the buffers in an order. -/
def Ordered (s : State) (order : List Nat) : Prop := Doubly s.next s.prev .head (order.map .buf)

theorem nodup_ptrs {order : List Nat} (h : order.Nodup) : (Ptr.head :: order.map .buf).Nodup := by
  refine List.nodup_cons.mpr ⟨by simp, h.map fun i j heq => ?_⟩
  exact Ptr.buf.inj heq

theorem Ordered.pushFront {s : State} {order : List Nat} (h : Ordered s order) (hnodup : order.Nodup)
    {i : Nat} (hi : i ∉ order) : Ordered (pushFront (.buf i) s) (i :: order) := by
  have hhead : (update s.next (.buf i) (s.next .head)) .head = s.next .head :=
    update_of_ne (by simp) ..
  have hpush := Doubly.pushFront h (nodup_ptrs hnodup) (x := .buf i) (by simp [hi])
  unfold Ordered Links.pushFront State.setNext State.setPrev
  dsimp only
  rw [hhead]
  exact hpush

theorem Ordered.unlink {s : State} {before after : List Nat} {i : Nat}
    (h : Ordered s (before ++ i :: after)) (hnodup : (before ++ i :: after).Nodup) :
    Ordered (unlink (.buf i) s) (before ++ after) := by
  have hnodup' := nodup_ptrs hnodup
  rw [Ordered, List.map_append, List.map_cons] at h
  rw [List.map_append, List.map_cons] at hnodup'
  have hne : Ptr.buf i ≠ s.next (.buf i) := by
    rw [h.neighbours.1]
    cases after with
    | nil => exact nofun
    | cons j after =>
      rintro heq
      obtain rfl := Ptr.buf.inj heq
      exact (List.nodup_cons.mp (List.nodup_append.mp hnodup).2.1).1 List.mem_cons_self
  have hunlink := h.unlink hnodup'
  unfold Ordered Links.unlink State.setNext State.setPrev
  dsimp only
  rw [update_of_ne hne, List.map_append]
  exact hunlink

theorem walk_eq {link : Ptr → Ptr} {p : Ptr} {order : List Nat}
    (h : Path link p (order.map .buf) .head) (test : Nat → Bool) {fuel : Nat}
    (hfuel : order.length < fuel) : walk link test fuel (link p) = some (order.find? test) := by
  induction order generalizing p fuel with
  | nil =>
    obtain ⟨fuel, rfl⟩ : ∃ k, fuel = k + 1 := ⟨fuel - 1, by rw [List.length_nil] at hfuel; omega⟩
    rw [show link p = .head from h, walk]
    rfl
  | cons i order ih =>
    obtain ⟨fuel, rfl⟩ : ∃ k, fuel = k + 1 := ⟨fuel - 1, by omega⟩
    rw [h.1, walk, List.find?_cons]
    split
    · rename_i htest
      rw [htest]
    · rename_i htest
      rw [Bool.not_eq_true] at htest
      rw [htest, ih h.2 (Nat.lt_of_succ_lt_succ hfuel)]

theorem find_eq {s : State} {order : List Nat} (h : Ordered s order) (hlen : order.length = NBUF)
    (dev blockno : Nat) :
    find dev blockno s =
      match order.find? fun i => decide ((s.buf i).caches dev blockno) with
      | some i => some (.cached i)
      | none =>
        match order.reverse.find? fun i => decide ((s.buf i).refcnt = 0) with
        | some i => some (.recycled i)
        | none => some .nothing := by
  have hprev : Path s.prev .head (order.reverse.map .buf) .head := by
    rw [List.map_reverse]
    exact h.prev
  rw [find, walk_eq h.next _ (by omega)]
  cases order.find? fun i => decide ((s.buf i).caches dev blockno) with
  | some i => rfl
  | none =>
    dsimp only
    rw [walk_eq hprev _ (by rw [List.length_reverse]; omega)]
    cases order.reverse.find? fun i => decide ((s.buf i).refcnt = 0) <;> rfl

/-! ### The invariant -/

/-- The number of processes with a reference to a buffer. -/
def holders (refs : List Ref) (i : Nat) : Nat := refs.countP fun r => decide (r.buf = i)

/-- `i` was released later than `j`, or `j` never was. -/
def Newer (released : Nat → Nat) (i j : Nat) : Prop := released j = 0 ∨ released j < released i

structure Inv (s : State) (order : List Nat) : Prop where
  perm : order.Perm (List.range NBUF)
  links : Ordered s order
  recent : order.Pairwise (Newer s.released)
  clock : ∀ i, s.released i < s.clock
  keys : ∀ i < NBUF, ∀ j < NBUF, (s.buf i).dev ≠ 0 →
    (s.buf j).caches (s.buf i).dev (s.buf i).blockno → i = j
  refcnt : ∀ i < NBUF, (s.buf i).refcnt = holders s.refs i + s.pins.count i
  refs : ∀ r ∈ s.refs, r.buf < NBUF
  lock : ∀ i pid, (s.buf i).lock = some pid → ⟨pid, i, .holding⟩ ∈ s.refs

theorem ordered_binit : Ordered binit (List.range NBUF).reverse := by
  have hpush : ∀ n s, Ordered s [] →
      Ordered ((List.range n).foldl (fun s i => pushFront (.buf i) s) s) (List.range n).reverse := by
    intro n s hs
    induction n with
    | zero => exact hs
    | succ n ih =>
      rw [List.range_succ, List.foldl_append, List.reverse_append]
      exact Ordered.pushFront ih (List.nodup_reverse.mpr List.nodup_range) (by simp)
  exact hpush NBUF _ ⟨rfl, rfl⟩

theorem binit_rest : binit.buf = (fun _ => ⟨false, 0, 0, none, 0, fun _ => 0⟩) ∧ binit.refs = [] ∧
    binit.pins = [] ∧ binit.clock = 1 ∧ binit.released = fun _ => 0 :=
  ⟨rfl, rfl, rfl, rfl, rfl⟩

theorem inv_binit : Inv binit (List.range NBUF).reverse := by
  obtain ⟨hbuf, hrefs, hpins, hclock, hreleased⟩ := binit_rest
  refine ⟨List.reverse_perm _, ordered_binit, ?_, ?_, ?_, ?_, ?_, ?_⟩
  · rw [hreleased]
    exact List.pairwise_of_forall fun _ _ => Or.inl rfl
  · simp [hreleased, hclock]
  · simp [hbuf]
  · simp [hbuf, hrefs, hpins, holders]
  · simp [hrefs]
  · simp [hbuf]

/-! ### Steps -/

theorem holders_cons (r : Ref) (refs : List Ref) (i : Nat) :
    holders (r :: refs) i = holders refs i + if r.buf = i then 1 else 0 := by
  simp [holders, List.countP_cons]

theorem holders_erase {r : Ref} {refs : List Ref} (hr : r ∈ refs) (i : Nat) :
    holders refs i = holders (refs.erase r) i + if r.buf = i then 1 else 0 := by
  rw [← holders_cons]
  exact (List.perm_cons_erase hr).countP_eq _

section Step

variable {s : State} {order : List Nat} {i : Nat}

theorem Inv.mem_order (h : Inv s order) : i ∈ order ↔ i < NBUF := by
  rw [h.perm.mem_iff, List.mem_range]

theorem Inv.length (h : Inv s order) : order.length = NBUF := by
  rw [h.perm.length_eq, List.length_range]

theorem Inv.change (h : Inv s order) {x : Buf} {refs : List Ref} {pins : List Nat}
    (hkey : ∀ j < NBUF, j ≠ i → x.dev ≠ 0 → ¬ (s.buf j).caches x.dev x.blockno)
    (hcount : i < NBUF → x.refcnt = holders refs i + pins.count i)
    (hother : ∀ j, j ≠ i → holders refs j + pins.count j = holders s.refs j + s.pins.count j)
    (hrefs : ∀ r ∈ refs, r.buf < NBUF)
    (hlock : ∀ pid, x.lock = some pid → ⟨pid, i, .holding⟩ ∈ refs)
    (hlocks : ∀ j pid, j ≠ i → ⟨pid, j, .holding⟩ ∈ s.refs → ⟨pid, j, .holding⟩ ∈ refs) :
    Inv { s.setBuf i x with refs := refs, pins := pins } order := by
  have hself : (s.setBuf i x).buf i = x := update_self ..
  have hne : ∀ j, j ≠ i → (s.setBuf i x).buf j = s.buf j := fun j hj =>
    update_of_ne hj ..
  refine ⟨h.perm, h.links, h.recent, h.clock, fun j hj k hk hdev hcache => ?_, fun j hj => ?_, hrefs,
    fun j pid hl => ?_⟩
  · dsimp only at hdev hcache
    by_cases hji : j = i <;> by_cases hki : k = i
    · rw [hji, hki]
    · subst hji
      rw [hself, hne k hki] at hcache
      exact absurd hcache (hkey k hk hki (hself ▸ hdev))
    · subst hki
      rw [hself, hne j hji] at hcache
      rw [hne j hji] at hdev
      exact absurd ⟨hcache.1.symm, hcache.2.symm⟩ (hkey j hj hji (hcache.1 ▸ hdev))
    · rw [hne j hji, hne k hki] at hcache
      rw [hne j hji] at hdev
      exact h.keys j hj k hk hdev hcache
  · dsimp only
    by_cases hji : j = i
    · subst hji
      rw [hself, hcount hj]
    · rw [hne j hji, h.refcnt j hj, hother j hji]
  · dsimp only at hl
    by_cases hji : j = i
    · subst hji
      exact hlock pid (hself ▸ hl)
    · rw [hne j hji] at hl
      exact hlocks j pid hji (h.lock j pid hl)

theorem Inv.key_same (h : Inv s order) (hi : i < NBUF) {j : Nat} (hj : j < NBUF) (hji : j ≠ i)
    (hdev : (s.buf i).dev ≠ 0) : ¬ (s.buf j).caches (s.buf i).dev (s.buf i).blockno :=
  fun hcache => hji (h.keys i hi j hj hdev hcache).symm

theorem Inv.find_ne_none (h : Inv s order) (dev blockno : Nat) : find dev blockno s ≠ none := by
  rw [find_eq h.links h.length]
  split
  · exact nofun
  · split <;> exact nofun

theorem Inv.find_cached (h : Inv s order) {dev blockno : Nat}
    (hfind : find dev blockno s = some (.cached i)) :
    i < NBUF ∧ (s.buf i).caches dev blockno := by
  rw [find_eq h.links h.length] at hfind
  split at hfind
  · rename_i j hj
    obtain rfl : j = i := Found.cached.inj (Option.some.inj hfind)
    exact ⟨h.mem_order.mp (List.mem_of_find?_eq_some hj), by simpa using List.find?_some hj⟩
  · split at hfind <;> exact nomatch hfind

/-- **The buffer that is recycled** is unused, and no other unused one is older. -/
theorem Inv.find_recycled (h : Inv s order) {dev blockno : Nat}
    (hfind : find dev blockno s = some (.recycled i)) :
    i < NBUF ∧ (s.buf i).refcnt = 0 ∧ (∀ j < NBUF, ¬ (s.buf j).caches dev blockno) ∧
      ∀ j < NBUF, j ≠ i → (s.buf j).refcnt = 0 → Newer s.released j i := by
  rw [find_eq h.links h.length] at hfind
  split at hfind
  · exact nomatch hfind
  rename_i hnone
  split at hfind
  · rename_i j hj
    obtain rfl : j = i := Found.recycled.inj (Option.some.inj hfind)
    obtain ⟨htest, later, earlier, hsplit, hused⟩ := List.find?_eq_some_iff_append.mp hj
    have horder : order = earlier.reverse ++ j :: later.reverse := by
      rw [← List.reverse_reverse order, hsplit]
      simp
    refine ⟨h.mem_order.mp (by rw [horder]; simp), of_decide_eq_true htest, fun k hk hcache => ?_,
      fun k hk hkj hfree => ?_⟩
    · exact List.find?_eq_none.mp hnone k (h.mem_order.mpr hk) (decide_eq_true hcache)
    · have hmem : k ∈ order := h.mem_order.mpr hk
      have hrecent := h.recent
      rw [horder] at hmem hrecent
      obtain hbefore | hafter := List.mem_append.mp hmem
      · exact (List.pairwise_append.mp hrecent).2.2 k hbefore j List.mem_cons_self
      · obtain rfl | hafter := List.mem_cons.mp hafter
        · exact absurd rfl hkj
        · have hbusy := hused k (List.mem_reverse.mp hafter)
          simp [hfree] at hbusy
  · exact nomatch hfind

theorem Inv.bget (h : Inv s order) {pid dev blockno : Nat} {s' : State}
    (hstep : step s (.bget pid dev blockno) = .done s') : Inv s' order := by
  have hothers : ∀ i j, j ≠ i → holders (⟨pid, i, .waiting⟩ :: s.refs) j + s.pins.count j =
      holders s.refs j + s.pins.count j := fun i j hji => by
    rw [holders_cons, if_neg (Ne.symm hji), Nat.add_zero]
  have hrefs : ∀ i < NBUF, ∀ r ∈ (⟨pid, i, .waiting⟩ : Ref) :: s.refs, r.buf < NBUF := fun i hi =>
    List.forall_mem_cons.mpr ⟨hi, h.refs⟩
  simp only [step] at hstep
  split at hstep
  · exact nomatch hstep
  · rename_i i hfind
    obtain ⟨hi, -⟩ := h.find_cached hfind
    obtain rfl := Outcome.done.inj hstep
    refine h.change (fun j hj hji => h.key_same hi hj hji) (fun _ => ?_) (hothers i) (hrefs i hi)
      (fun pid hl => List.mem_cons_of_mem _ (h.lock i pid hl))
      (fun j pid _ hmem => List.mem_cons_of_mem _ hmem)
    show (s.buf i).refcnt + 1 = _ + s.pins.count i
    rw [holders_cons, if_pos rfl, h.refcnt i hi]
    omega
  · rename_i i hfind
    obtain ⟨hi, hzero, hnone, -⟩ := h.find_recycled hfind
    obtain rfl := Outcome.done.inj hstep
    refine h.change (fun j hj hji _ => hnone j hj) (fun _ => ?_) (hothers i) (hrefs i hi)
      (fun pid hl => List.mem_cons_of_mem _ (h.lock i pid hl))
      (fun j pid _ hmem => List.mem_cons_of_mem _ hmem)
    have hcount := h.refcnt i hi
    rw [holders_cons, if_pos rfl]
    show 1 = _ + s.pins.count i
    omega
  · exact nomatch hstep

theorem Inv.stage (h : Inv s order) {r : Ref} (hr : r ∈ s.refs) (r' : Ref) (x : Buf)
    (hbuf : r'.buf = r.buf)
    (hdev : x.dev = (s.buf r.buf).dev) (hblockno : x.blockno = (s.buf r.buf).blockno)
    (hrefcnt : x.refcnt = (s.buf r.buf).refcnt)
    (hlock : ∀ pid, x.lock = some pid → r' = ⟨pid, r.buf, .holding⟩) :
    Inv { s.setBuf r.buf x with refs := r' :: s.refs.erase r } order := by
  have hi := h.refs r hr
  have hsame : ∀ j, holders (r' :: s.refs.erase r) j = holders s.refs j := fun j => by
    rw [holders_cons, holders_erase hr j, hbuf]
  refine h.change (fun j hj hji hx => ?_) (fun _ => ?_) (fun j _ => by rw [hsame]; rfl) ?_
    (fun pid hl => ?_) (fun j pid hj hmem => ?_)
  · rw [hdev] at hx ⊢
    rw [hblockno]
    exact h.key_same hi hj hji hx
  · rw [hrefcnt, hsame, h.refcnt _ hi]
    rfl
  · exact List.forall_mem_cons.mpr ⟨hbuf ▸ hi, fun q hq => h.refs q (List.mem_of_mem_erase hq)⟩
  · rw [hlock pid hl]
    exact List.mem_cons_self
  · refine List.mem_cons_of_mem _ ((List.mem_erase_of_ne fun heq => hj ?_).mpr hmem)
    rw [← heq]

theorem Inv.leave (h : Inv s order) {r : Ref} (hr : r ∈ s.refs) (hstage : r.stage = .leaving) :
    ∃ order', Inv { drop r.buf s with refs := s.refs.erase r } order' := by
  have hi := h.refs r hr
  have hcount := h.refcnt r.buf hi
  rw [holders_erase hr, if_pos rfl] at hcount
  have hless : Inv { s.setBuf r.buf { s.buf r.buf with refcnt := (s.buf r.buf).refcnt - 1 } with
      refs := s.refs.erase r } order := by
    have hkeep : ∀ j pid, ⟨pid, j, .holding⟩ ∈ s.refs → ⟨pid, j, .holding⟩ ∈ s.refs.erase r :=
      fun j pid hmem => (List.mem_erase_of_ne fun heq => by
        rw [← heq] at hstage
        exact nomatch hstage).mpr hmem
    refine h.change (fun j hj hji => h.key_same hi hj hji) (fun _ => ?_) (fun j hji => ?_)
      (fun q hq => h.refs q (List.mem_of_mem_erase hq)) (fun pid hl => hkeep _ pid (h.lock _ pid hl))
      (fun j pid _ => hkeep j pid)
    · show (s.buf r.buf).refcnt - 1 = _ + s.pins.count r.buf
      omega
    · rw [holders_erase hr j, if_neg (Ne.symm hji), Nat.add_zero]
      rfl
  unfold drop
  dsimp only
  split
  · -- the buffer moves to the front, as the newest
    obtain ⟨before, after, rfl⟩ := List.append_of_mem (h.mem_order.mpr hi)
    have hnodup : (before ++ r.buf :: after).Nodup := h.perm.nodup_iff.mpr List.nodup_range
    have hmiddle : (before ++ r.buf :: after).Perm (r.buf :: (before ++ after)) := List.perm_middle
    obtain ⟨hnot, hnodup'⟩ := List.nodup_cons.mp (hmiddle.nodup hnodup)
    refine ⟨r.buf :: (before ++ after), hmiddle.symm.trans h.perm, ?_, ?_, ?_, hless.keys,
      hless.refcnt, hless.refs, hless.lock⟩
    · exact Ordered.pushFront (Ordered.unlink hless.links hnodup) hnodup' hnot
    · have hsame : ∀ j ∈ before ++ after, update s.released r.buf s.clock j = s.released j :=
        fun j hj => update_of_ne (fun heq => hnot (by rwa [heq] at hj)) ..
      refine List.pairwise_cons.mpr ⟨fun j hj => Or.inr ?_, ?_⟩
      · show update s.released r.buf s.clock j < update s.released r.buf s.clock r.buf
        rw [hsame j hj, update_self]
        exact h.clock j
      · have hrecent : (before ++ after).Pairwise (Newer s.released) := h.recent.sublist
          (List.Sublist.append_left (List.sublist_cons_self _ _) before)
        refine hrecent.imp_of_mem fun {j k} hj hk hnewer => ?_
        show Newer (update s.released r.buf s.clock) j k
        rw [Newer, hsame j hj, hsame k hk]
        exact hnewer
    · intro j
      show update s.released r.buf s.clock j < s.clock + 1
      by_cases hj : j = r.buf
      · rw [hj, update_self]
        exact Nat.lt_succ_self _
      · rw [update_of_ne hj]
        exact Nat.lt_succ_of_lt (h.clock j)
  · exact ⟨order, hless⟩

/-- **One step** keeps the list, the keys and the counts in order. -/
theorem Inv.step (h : Inv s order) {a : Act} (hallowed : Allowed s a) {s' : State}
    (hstep : step s a = .done s') : ∃ order', Inv s' order' := by
  cases a with
  | bget pid dev blockno => exact ⟨order, h.bget hstep⟩
  | acquiresleep pid i =>
    simp only [Links.step] at hstep
    split at hstep
    · rename_i hwait
      obtain rfl := Outcome.done.inj hstep
      refine ⟨order, h.stage hwait.1 ⟨pid, i, .holding⟩ { s.buf i with lock := some pid } rfl rfl rfl
        rfl fun p hp => ?_⟩
      rw [← Option.some.inj hp]
    · exact nomatch hstep
  | brelse pid i =>
    simp only [Links.step] at hstep
    split at hstep
    · rename_i hlock
      obtain rfl := Outcome.done.inj hstep
      exact ⟨order, h.stage (h.lock i pid hlock) ⟨pid, i, .leaving⟩ { s.buf i with lock := none } rfl
        rfl rfl rfl nofun⟩
    · exact nomatch hstep
  | leave pid i =>
    simp only [Links.step] at hstep
    split at hstep
    · rename_i hleaving
      obtain rfl := Outcome.done.inj hstep
      exact h.leave hleaving rfl
    · exact nomatch hstep
  | bpin i =>
    obtain rfl := Outcome.done.inj hstep
    refine ⟨order, h.change (fun j hj hji => h.key_same hallowed hj hji) (fun hi => ?_)
      (fun j hji => ?_) h.refs (fun pid => h.lock i pid) (fun j pid _ => id)⟩
    · show (s.buf i).refcnt + 1 = holders s.refs i + (i :: s.pins).count i
      rw [List.count_cons_self, h.refcnt i hi, Nat.add_assoc]
    · rw [List.count_cons_of_ne (Ne.symm hji)]
      rfl
  | bunpin i =>
    obtain ⟨hpinned, r, hr, rfl⟩ := hallowed
    obtain rfl := Outcome.done.inj hstep
    refine ⟨order, h.change (fun j hj hji => h.key_same (h.refs r hr) hj hji) (fun hi => ?_)
      (fun j hji => ?_) h.refs (fun pid => h.lock r.buf pid) (fun j pid _ => id)⟩
    · show (s.buf r.buf).refcnt - 1 = holders s.refs r.buf + (s.pins.erase r.buf).count r.buf
      have hpos : 0 < s.pins.count r.buf := List.count_pos_iff.mpr hpinned
      rw [List.count_erase_self, h.refcnt r.buf hi]
      omega
    · rw [List.count_erase_of_ne hji]
      rfl

end Step

/-- **The list of buffers and replacement.**  In any run of `bget`, `brelse`, `bpin` and `bunpin`
    from `binit`: the links make one ring of all buffers, `prev` undoes `next`, no block has two
    buffers, every count is that of the processes with a reference and of the pins, the loops of
    `bget` end, and the buffer that `bget` recycles is an unused one of which no other unused one
    was released, or was released earlier. -/
theorem list_and_replacement {s : State} (h : Reachable binit step Allowed s) :
    (∃ order : List Nat, order.Perm (List.range NBUF) ∧
      Path s.next .head (order.map .buf) .head ∧ Path s.prev .head (order.map .buf).reverse .head) ∧
    (∀ i < NBUF, s.prev (s.next (.buf i)) = .buf i ∧ s.next (s.prev (.buf i)) = .buf i) ∧
    (s.prev (s.next .head) = .head ∧ s.next (s.prev .head) = .head) ∧
    (∀ i < NBUF, ∀ j < NBUF, (s.buf i).dev ≠ 0 → (s.buf i).dev = (s.buf j).dev →
      (s.buf i).blockno = (s.buf j).blockno → i = j) ∧
    (∀ i < NBUF, (s.buf i).refcnt = holders s.refs i + s.pins.count i) ∧
    ∀ dev blockno, find dev blockno s ≠ none ∧
      ∀ i, find dev blockno s = some (.recycled i) →
        i < NBUF ∧ (s.buf i).refcnt = 0 ∧ ∀ j < NBUF, j ≠ i → (s.buf j).refcnt = 0 →
          s.released i = 0 ∨ s.released i < s.released j := by
  obtain ⟨order, hinv⟩ := Reachable.invariant (I := fun s => ∃ order, Inv s order)
    ⟨_, inv_binit⟩ (fun _ ⟨_, hI⟩ ok hstep => hI.step ok hstep) h
  have hmem : ∀ i < NBUF, Ptr.buf i ∈ Ptr.head :: order.map .buf := fun i hi =>
    List.mem_cons_of_mem _ (List.mem_map.mpr ⟨i, hinv.mem_order.mpr hi, rfl⟩)
  refine ⟨⟨order, hinv.perm, hinv.links.next, hinv.links.prev⟩,
    fun i hi => ⟨hinv.links.prev_next (hmem i hi), hinv.links.next_prev (hmem i hi)⟩,
    ⟨hinv.links.prev_next List.mem_cons_self, hinv.links.next_prev List.mem_cons_self⟩,
    fun i hi j hj hdev heq hblock => hinv.keys i hi j hj hdev ⟨heq.symm, hblock.symm⟩, hinv.refcnt,
    fun dev blockno => ⟨hinv.find_ne_none dev blockno, fun i hfind => ?_⟩⟩
  obtain ⟨hi, hzero, -, holdest⟩ := hinv.find_recycled hfind
  exact ⟨hi, hzero, holdest⟩

/-- One process uses a block and gives it back. -/
def oneUse : List Act := [.bget 1 1 5, .acquiresleep 1 0, .brelse 1 0, .leave 1 0]

set_option maxRecDepth 8000 in
/-- The buffer that has been used is the newest, and the next one in the list is recycled. -/
theorem list_and_replacement_oneUse :
    let s := finalState step (fun s a => decide (Allowed s a)) binit oneUse
    find 1 9 s = some (.recycled 1) ∧ (s.buf 1).refcnt = 0 ∧ s.next .head = .buf 0 :=
  have hreach : Reachable binit step Allowed
      (finalState step (fun s a => decide (Allowed s a)) binit oneUse) :=
    (reachable_finalState (by decide)).mono fun _ _ => of_decide_eq_true
  have hfind : find 1 9 (finalState step (fun s a => decide (Allowed s a)) binit oneUse) =
      some (.recycled 1) := by decide
  ⟨hfind, (((list_and_replacement hreach).2.2.2.2.2 1 9).2 1 hfind).2.1, by decide⟩

end Xv6.Bio.Links
