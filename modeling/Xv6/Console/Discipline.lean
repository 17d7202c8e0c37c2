import Xv6.Console.Model
import Mathlib.Data.List.GetD

/-!
# The console refines its line discipline

The three indices are the lengths of the stream and of its parts modulo 2^32, and the buffer
holds what is unread at its place modulo 128.  Every character typed and every read keeps this,
so what reads return is what the line discipline says.
-/

namespace Xv6.Console

open Transition Function

/-! ### Indices -/

/-- The index of the `i`-th character. -/
abbrev idx (i : Nat) : UInt32 := UInt32.ofNat i

theorem idx_sub {a b : Nat} (h : b ≤ a) : idx a - idx b = idx (a - b) := (UInt32.ofNat_sub h).symm

theorem idx_add_one (i : Nat) : idx i + 1 = idx (i + 1) := (UInt32.ofNat_add i 1).symm

theorem idx_succ_sub_one (i : Nat) : idx (i + 1) - 1 = idx i := idx_sub (Nat.le_add_left 1 i)

theorem toNat_idx_sub {a b : Nat} (h : b ≤ a) (hlt : a - b ≤ INPUT_BUF_SIZE) :
    (idx a - idx b).toNat = a - b := by
  have hsize : INPUT_BUF_SIZE < 2 ^ 32 := by decide
  rw [idx_sub h, UInt32.toNat_ofNat', Nat.mod_eq_of_lt (by omega)]

theorem idx_eq_iff {a b : Nat} (h : b ≤ a) (hlt : a - b ≤ INPUT_BUF_SIZE) :
    idx a = idx b ↔ a = b := by
  refine ⟨fun heq => ?_, fun heq => by rw [heq]⟩
  have hsub := toNat_idx_sub h hlt
  rw [heq, UInt32.sub_self] at hsub
  have hzero : a - b = 0 := hsub.symm
  omega

theorem Cons.at_idx (s : Cons) (i : Nat) : s.at (idx i) = s.buf (i % INPUT_BUF_SIZE) := by
  have hmod : i % 2 ^ 32 % INPUT_BUF_SIZE = i % INPUT_BUF_SIZE := by
    unfold INPUT_BUF_SIZE
    omega
  rw [Cons.at, UInt32.toNat_ofNat', hmod]

/-! ### The refinement relation -/

/-- The indices count characters, and every character that is unread or uncommitted is at its
    place. -/
structure Placed (s : Cons) (l : Line) : Prop where
  taken_le : l.taken ≤ l.stream.length
  unread_le : l.unread ≤ INPUT_BUF_SIZE
  r : s.r = idx l.taken
  w : s.w = idx l.stream.length
  e : s.e = idx (l.stream.length + l.tail.length)
  cell : ∀ i, l.taken ≤ i → i < l.stream.length + l.tail.length →
    s.buf (i % INPUT_BUF_SIZE) = (l.stream ++ l.tail).getD i 0

/-- The console shows the line, which ends at the first newline. -/
structure Shows (s : Cons) (l : Line) : Prop extends Placed s l where
  tail : newline ∉ l.tail

section Shows

variable {s : Cons} {l : Line}

theorem Placed.toNat_w_sub_r (h : Placed s l) :
    (s.w - s.r).toNat = l.stream.length - l.taken := by
  have hle := h.unread_le
  unfold Line.unread at hle
  rw [h.w, h.r, toNat_idx_sub h.taken_le (by omega)]

theorem Placed.toNat_e_sub_r (h : Placed s l) : (s.e - s.r).toNat = l.unread := by
  have hle := h.unread_le
  have htaken := h.taken_le
  unfold Line.unread at hle ⊢
  rw [h.e, h.r, toNat_idx_sub (by omega) (by omega)]
  omega

theorem Placed.toNat_e_sub_w (h : Placed s l) : (s.e - s.w).toNat = l.tail.length := by
  have hle := h.unread_le
  unfold Line.unread at hle
  rw [h.e, h.w, toNat_idx_sub (by omega) (by omega)]
  omega

theorem Placed.e_eq_w (h : Placed s l) : s.e = s.w ↔ l.tail = [] := by
  have hle := h.unread_le
  unfold Line.unread at hle
  rw [h.e, h.w, idx_eq_iff (by omega) (by omega), ← List.length_eq_zero_iff]
  omega

theorem Placed.r_eq_w (h : Placed s l) : s.r = s.w ↔ l.taken = l.stream.length := by
  have hle := h.unread_le
  unfold Line.unread at hle
  rw [h.r, h.w, eq_comm, idx_eq_iff h.taken_le (by omega), eq_comm]

theorem Placed.at_stream (h : Placed s l) {i : Nat} (hi : l.taken ≤ i) (hlt : i < l.stream.length) :
    s.at (idx i) = l.stream.getD i 0 := by
  rw [Cons.at_idx, h.cell i hi (by omega), List.getD_append _ _ _ _ hlt]

/-! ### `consoleintr` -/

theorem Shows.erase (h : Shows s l) (hne : l.tail ≠ []) :
    Shows { s with e := s.e - 1 } { l with tail := l.tail.dropLast } := by
  have hpos : 0 < l.tail.length := List.length_pos_iff.mpr hne
  have hlen : l.tail.dropLast.length = l.tail.length - 1 := List.length_dropLast
  have hle := h.unread_le
  unfold Line.unread at hle
  refine ⟨⟨h.taken_le, ?_, h.r, h.w, ?_, fun i hi hlt => ?_⟩, fun hmem =>
    h.tail (List.mem_of_mem_dropLast hmem)⟩
  · show l.stream.length - l.taken + l.tail.dropLast.length ≤ _
    omega
  · show s.e - 1 = idx (l.stream.length + l.tail.dropLast.length)
    rw [h.e, hlen, show l.stream.length + l.tail.length =
      l.stream.length + (l.tail.length - 1) + 1 by omega, idx_succ_sub_one]
  · replace hlt : i < l.stream.length + l.tail.dropLast.length := hlt
    show s.buf (i % INPUT_BUF_SIZE) = (l.stream ++ l.tail.dropLast).getD i 0
    have happend : l.stream ++ l.tail = l.stream ++ l.tail.dropLast ++ [l.tail.getLast hne] := by
      rw [List.append_assoc, List.dropLast_append_getLast]
    rw [h.cell i hi (by omega), happend, List.getD_append _ _ _ _ (by rwa [List.length_append])]

/-- The character that kill line looks at is in the uncommitted tail, so it is no newline. -/
theorem Shows.at_last (h : Shows s l) (hne : l.tail ≠ []) : s.at (s.e - 1) ≠ newline := by
  have hpos : 0 < l.tail.length := List.length_pos_iff.mpr hne
  have htaken := h.taken_le
  have hidx : s.e - 1 = idx (l.stream.length + (l.tail.length - 1)) := by
    rw [h.e, show l.stream.length + l.tail.length =
      l.stream.length + (l.tail.length - 1) + 1 by omega, idx_succ_sub_one]
  rw [hidx, Cons.at_idx, h.cell _ (by omega) (by omega),
    List.getD_append_right _ _ _ _ (by omega), Nat.add_sub_cancel_left,
    List.getD_eq_getElem _ _ (by omega)]
  exact fun heq => h.tail (heq ▸ List.getElem_mem _)

/-- **Kill line** erases the whole uncommitted tail. -/
theorem Shows.killLine (h : Shows s l) (fuel : Nat) (hfuel : l.tail.length = fuel) :
    Shows (killLine fuel s) { l with tail := [] } := by
  induction fuel generalizing s l with
  | zero =>
    have hnil : l.tail = [] := List.length_eq_zero_iff.mp hfuel
    rw [← hnil]
    exact h
  | succ fuel ih =>
    have hne : l.tail ≠ [] := fun hnil => by simp [hnil] at hfuel
    rw [Console.killLine, if_pos ⟨fun heq => hne (h.e_eq_w.mp heq), h.at_last hne⟩]
    have hlen : l.tail.dropLast.length = fuel := by rw [List.length_dropLast, hfuel, Nat.add_sub_cancel]
    have hrest := ih (h.erase hne) hlen
    exact hrest

theorem Placed.commit (h : Placed s l) :
    Shows { s with w := s.e } { l with stream := l.stream ++ l.tail, tail := [] } := by
  have hle := h.unread_le
  have htaken := h.taken_le
  unfold Line.unread at hle
  refine ⟨⟨?_, ?_, h.r, ?_, ?_, fun i hi hlt => ?_⟩, List.not_mem_nil⟩
  · show l.taken ≤ (l.stream ++ l.tail).length
    rw [List.length_append]
    omega
  · simp only [Line.unread, List.length_append, List.length_nil]
    omega
  · show s.e = idx (l.stream ++ l.tail).length
    rw [h.e, List.length_append]
  · show s.e = idx ((l.stream ++ l.tail).length + 0)
    rw [h.e, List.length_append, Nat.add_zero]
  · simp only [List.length_append, List.length_nil, Nat.add_zero] at hlt
    show s.buf (i % INPUT_BUF_SIZE) = (l.stream ++ l.tail ++ []).getD i 0
    rw [List.append_nil, h.cell i hi hlt]

theorem Placed.push (h : Placed s l) (hroom : l.unread < INPUT_BUF_SIZE) (c : UInt8) :
    Placed { s with
      buf := update s.buf (s.e.toNat % INPUT_BUF_SIZE) c
      e := s.e + 1 } { l with tail := l.tail ++ [c] } := by
  have htaken := h.taken_le
  have hplace : s.e.toNat % INPUT_BUF_SIZE =
      (l.stream.length + l.tail.length) % INPUT_BUF_SIZE := by
    have hmod : (l.stream.length + l.tail.length) % 2 ^ 32 % INPUT_BUF_SIZE =
        (l.stream.length + l.tail.length) % INPUT_BUF_SIZE := by
      unfold INPUT_BUF_SIZE
      omega
    rw [h.e, UInt32.toNat_ofNat', hmod]
  unfold Line.unread at hroom
  refine ⟨h.taken_le, ?_, h.r, h.w, ?_, fun i hi hlt => ?_⟩
  · simp only [Line.unread, List.length_append, List.length_singleton]
    omega
  · show s.e + 1 = idx (l.stream.length + (l.tail ++ [c]).length)
    rw [h.e, idx_add_one, List.length_append, List.length_singleton, Nat.add_assoc]
  · simp only [List.length_append, List.length_singleton] at hlt
    show update s.buf (s.e.toNat % INPUT_BUF_SIZE) c (i % INPUT_BUF_SIZE) =
      (l.stream ++ (l.tail ++ [c])).getD i 0
    rw [hplace, ← List.append_assoc]
    obtain hlt | rfl : i < l.stream.length + l.tail.length ∨
        i = l.stream.length + l.tail.length := by omega
    · have hne : i % INPUT_BUF_SIZE ≠ (l.stream.length + l.tail.length) % INPUT_BUF_SIZE := by
        unfold INPUT_BUF_SIZE at hroom ⊢
        replace hi : l.taken ≤ i := hi
        omega
      rw [update_of_ne hne, h.cell i hi hlt,
        List.getD_append (l.stream ++ l.tail) _ _ _ (by rwa [List.length_append])]
    · rw [update_self, List.getD_append_right _ _ _ _ (by rw [List.length_append]),
        List.length_append, Nat.sub_self]
      rfl

/-- **A character that is stored**, or dropped if there is no room. -/
theorem Shows.store (h : Shows s l) {c : UInt8} (hinput : c ≠ ctrlP ∧ c ≠ ctrlU ∧ c ≠ ctrlH ∧
    c ≠ delete) : Shows (store c s) (l.input c) := by
  obtain ⟨hP, hU, hH, hdel⟩ := hinput
  unfold Console.store Line.input
  by_cases hzero : c = 0
  · rw [if_neg fun hc => hc.1 hzero, if_pos (Or.inr hzero)]
    exact h
  rw [h.toNat_e_sub_r, if_neg (not_or.mpr ⟨hP, hzero⟩), if_neg hU, if_neg (not_or.mpr ⟨hH, hdel⟩)]
  by_cases hroom : l.unread < INPUT_BUF_SIZE
  · rw [if_pos ⟨hzero, hroom⟩, if_neg (Nat.not_le.mpr hroom)]
    generalize (if c = carriageReturn then newline else c) = c'
    have hpush := h.toPlaced.push hroom c'
    dsimp only
    split
    · rename_i hcommit
      rw [hpush.toNat_e_sub_r] at hcommit
      rw [if_pos hcommit]
      exact hpush.commit
    · rename_i hopen
      rw [hpush.toNat_e_sub_r] at hopen
      rw [if_neg hopen]
      refine ⟨hpush, fun hmem => ?_⟩
      obtain hold | hnew := List.mem_append.mp hmem
      · exact h.tail hold
      · exact hopen (Or.inl (List.mem_singleton.mp hnew).symm)
  · rw [if_neg fun hc => hroom hc.2, if_pos (Nat.not_lt.mp hroom)]
    exact h

/-- **`consoleintr`** does to the console what the character does to the line. -/
theorem Shows.consoleintr (h : Shows s l) (c : UInt8) :
    Shows (consoleintr c s) (l.input c) := by
  unfold Console.consoleintr
  split
  · rename_i hP
    rw [Line.input, if_pos (Or.inl hP)]
    exact h
  rename_i hP
  split
  · rename_i hU
    have hin : l.input c = { l with tail := [] } := by
      subst hU
      rfl
    rw [hin, h.toNat_e_sub_w]
    exact h.killLine _ rfl
  rename_i hU
  split
  · rename_i herase
    have hin : l.input c = { l with tail := l.tail.dropLast } := by
      obtain rfl | rfl := herase <;> rfl
    rw [hin]
    split
    · rename_i hne
      exact h.erase fun hnil => hne (h.e_eq_w.mpr hnil)
    · rename_i heq
      have hnil := h.e_eq_w.mp (not_not.mp heq)
      rw [hnil, List.dropLast_nil, ← hnil]
      exact h
  · rename_i hstore
    obtain ⟨hH, hdel⟩ := not_or.mp hstore
    exact h.store ⟨hP, hU, hH, hdel⟩

/-! ### `consoleread` -/

theorem Shows.take (h : Shows s l) (hlt : l.taken < l.stream.length) :
    Shows { s with r := s.r + 1 } { l with taken := l.taken + 1 } := by
  have hle := h.unread_le
  unfold Line.unread at hle
  refine ⟨⟨hlt, ?_, ?_, h.w, h.e, fun i hi => h.cell i (Nat.le_of_succ_le hi)⟩, h.tail⟩
  · simp only [Line.unread]
    omega
  · show s.r + 1 = idx (l.taken + 1)
    rw [h.r, idx_add_one]

/-- What a reader has done to the line when it gives up the lock: it has taken `k` characters,
    and passed on those that are no ^D. -/
structure Reads (target n : Nat) (l : Line) (out : Reading) (k : Nat) : Prop where
  shows : Shows out.cons { l with taken := l.taken + k }
  bytes : out.bytes = ((l.stream.drop l.taken).take k).filter (· ≠ ctrlD)
  left : out.n + out.bytes.length = n
  /-- It sleeps only if it wants more. -/
  asleep : out.asleep = true → 0 < out.n
  /-- It takes a ^D only to return nothing at all. -/
  eof : ((l.stream.drop l.taken).take k).count ctrlD =
    if out.asleep = false ∧ out.bytes = [] ∧ 0 < n ∧ n = target then 1 else 0
  /-- A read that falls short of what was asked for, and of the end of the line, has met ^D and
      left it for the next one. -/
  short : out.asleep = false → 0 < out.n → out.bytes.getLast? ≠ some newline →
    (out.bytes ≠ [] ∨ n < target) →
    l.taken + k < l.stream.length ∧ l.stream.getD (l.taken + k) 0 = ctrlD

/-- **The loop of `consoleread`.** -/
theorem Shows.readLoop (h : Shows s l) {target n : Nat} (hn : n ≤ target) :
    ∃ k, Reads target n l (readLoop target n s) k := by
  induction n generalizing s l with
  | zero =>
    refine ⟨0, h, by simp [Console.readLoop], by simp [Console.readLoop], by simp [Console.readLoop],
      by simp, by simp [Console.readLoop]⟩
  | succ n ih =>
    unfold Console.readLoop
    by_cases hempty : s.r = s.w
    · rw [if_pos hempty]
      exact ⟨0, h, by simp, by simp, by simp, by simp, by simp⟩
    rw [if_neg hempty]
    have hlt : l.taken < l.stream.length :=
      Nat.lt_of_le_of_ne h.taken_le fun heq => hempty (h.r_eq_w.mpr heq)
    have hdrop : l.stream.drop l.taken = s.at s.r :: l.stream.drop (l.taken + 1) := by
      rw [List.drop_eq_getElem_cons hlt, h.r, h.at_stream (Nat.le_refl _) hlt,
        List.getD_eq_getElem _ _ hlt]
    have hget : l.stream.getD l.taken 0 = s.at s.r := by
      rw [h.r, h.at_stream (Nat.le_refl _) hlt]
    generalize s.at s.r = c at hdrop hget
    dsimp only
    split
    · rename_i hc
      split
      · rename_i hback
        -- the reader already has something: it puts ^D back
        have hsame : ({ s with r := s.r + 1 - 1 } : Cons) = s := by
          rw [UInt32.add_sub_cancel]
        refine ⟨0, ?_, by simp, by simp, by simp, ?_, fun _ _ _ _ => ⟨hlt, hget.trans hc⟩⟩
        · show Shows { s with r := s.r + 1 - 1 } l
          rw [hsame]
          exact h
        · rw [if_neg fun hif => absurd hif.2.2.2 (Nat.ne_of_lt hback)]
          simp
      · rename_i hkeep
        have heq : n + 1 = target := by omega
        refine ⟨1, h.take hlt, by simp [hdrop, hc], by simp, by simp, ?_, ?_⟩
        · rw [if_pos ⟨rfl, rfl, Nat.succ_pos n, heq⟩, hdrop, hc]
          simp
        · rintro - - - (hne | hlt')
          · exact absurd rfl hne
          · exact absurd hlt' hkeep
    · rename_i hc
      split
      · rename_i hnl
        refine ⟨1, h.take hlt, by simp [hdrop, hc], rfl, by simp, ?_, ?_⟩
        · rw [if_neg fun hif => absurd hif.2.1 (by simp), hdrop]
          simp [hc]
        · intro _ _ hlast
          exact absurd (by rw [hnl]; rfl) hlast
      · obtain ⟨k, hk⟩ := ih (h.take hlt) (Nat.le_of_succ_le hn)
        have htake : (l.stream.drop l.taken).take (k + 1) =
            c :: (l.stream.drop (l.taken + 1)).take k := by
          rw [hdrop, List.take_succ_cons]
        have hsum : l.taken + (k + 1) = l.taken + 1 + k := by omega
        refine ⟨k + 1, ?_, ?_, ?_, hk.asleep, ?_, ?_⟩
        · rw [hsum]
          exact hk.shows
        · rw [htake, List.filter_cons_of_pos (by simpa using hc)]
          exact congrArg (c :: ·) hk.bytes
        · have hleft := hk.left
          simp only [List.length_cons]
          omega
        · rw [htake, List.count_cons_of_ne hc, hk.eof]
          rw [if_neg fun hif => absurd hif.2.2.2 (by omega), if_neg fun hif =>
            absurd hif.2.1 (by simp)]
        · intro hret hleft hlast _
          rw [hsum]
          refine hk.short hret hleft (fun hnl => hlast ?_) (Or.inr (by omega))
          rw [List.getLast?_cons, hnl]
          rfl

end Shows

/-! ### Runs -/

theorem Line.stream_input (c : UInt8) (l : Line) :
    l.stream <+: (l.input c).stream ∧ (l.input c).taken = l.taken := by
  unfold Line.input
  dsimp only
  split
  · exact ⟨List.prefix_refl _, rfl⟩
  split
  · exact ⟨List.prefix_refl _, rfl⟩
  split
  · exact ⟨List.prefix_refl _, rfl⟩
  split
  · exact ⟨List.prefix_refl _, rfl⟩
  generalize (if c = carriageReturn then newline else c) = c'
  split
  · exact ⟨List.prefix_append _ _, rfl⟩
  · exact ⟨List.prefix_refl _, rfl⟩

/-- A call that asked for something and got nothing. -/
def endOfFile (call : Nat × List UInt8) : Bool := 0 < call.1 && call.2.isEmpty

/-- The part of the stream that has been read. -/
def Line.past (l : Line) : List UInt8 := l.stream.take l.taken

structure Inv (s : Sys) : Prop where
  shows : Shows s.cons s.line
  delivered : s.delivered = s.line.past.filter (· ≠ ctrlD)
  readers : ∀ rd ∈ s.readers, 0 < rd.n ∧ rd.n + rd.got.length = rd.target
  eof : s.returned.countP endOfFile = s.line.past.count ctrlD
  inOrder : s.overlap = false → s.readers.length ≤ 1 ∧
    s.delivered = s.returned.flatMap Prod.snd ++ s.readers.flatMap Reader.got

theorem inv_init : Inv Sys.init :=
  ⟨⟨⟨Nat.le_refl _, Nat.zero_le _, rfl, rfl, rfl, nofun⟩, List.not_mem_nil⟩, rfl, nofun, rfl,
    fun _ => ⟨Nat.zero_le _, rfl⟩⟩

theorem inv_intr {s : Sys} (h : Inv s) (c : UInt8) :
    Inv { s with cons := consoleintr c s.cons, line := s.line.input c } := by
  have hpast : (s.line.input c).past = s.line.past := by
    obtain ⟨⟨more, hmore⟩, htaken⟩ := s.line.stream_input c
    rw [Line.past, Line.past, htaken, ← hmore, List.take_append_of_le_length h.shows.taken_le]
  refine ⟨h.shows.consoleintr c, ?_, h.readers, ?_, h.inOrder⟩
  · rw [h.delivered]
    exact congrArg _ hpast.symm
  · rw [h.eof]
    exact congrArg _ hpast.symm

/-- **A reader that runs**, for a call that has been in progress or has just begun. -/
theorem inv_runReader {s : Sys} (h : Inv s) {before after : List Reader} {rd : Reader}
    (hrd : rd.n + rd.got.length = rd.target)
    (hothers : ∀ x ∈ before ++ after, x ∈ s.readers) {overlap : Bool}
    (halone : overlap = false → before = [] ∧ after = [] ∧
      s.delivered = s.returned.flatMap Prod.snd ++ rd.got) :
    Inv { s.runReader before after rd with overlap := overlap } := by
  have hle : rd.n ≤ rd.target := by omega
  obtain ⟨k, hk⟩ := h.shows.readLoop hle
  unfold Sys.runReader
  generalize readLoop rd.target rd.n s.cons = out at hk
  have htaken := hk.shows.taken_le
  replace htaken : s.line.taken + k ≤ s.line.stream.length := htaken
  have hcount : (out.cons.r - s.cons.r).toNat = k := by
    have hle := h.shows.unread_le
    unfold Line.unread at hle
    rw [hk.shows.r, h.shows.r, toNat_idx_sub (by dsimp only; omega) (by dsimp only; omega)]
    dsimp only
    omega
  dsimp only
  rw [hcount]
  have hpast : Line.past { s.line with taken := s.line.taken + k } =
      s.line.past ++ (s.line.stream.drop s.line.taken).take k := by
    rw [Line.past, Line.past, List.take_add]
  have hdelivered : s.delivered ++ out.bytes =
      (Line.past { s.line with taken := s.line.taken + k }).filter (· ≠ ctrlD) := by
    rw [hpast, List.filter_append, ← h.delivered, ← hk.bytes]
  have hleft := hk.left
  refine ⟨hk.shows, hdelivered, fun x hx => ?_, ?_, fun hno => ?_⟩
  · simp only [List.mem_append] at hx
    obtain (hx | hx) | hx := hx
    · exact h.readers x (hothers x (List.mem_append_left _ hx))
    · split at hx
      · rename_i hasleep
        obtain rfl := List.mem_singleton.mp hx
        refine ⟨hk.asleep hasleep, ?_⟩
        simp only [List.length_append]
        omega
      · cases hx
    · exact h.readers x (hothers x (List.mem_append_right _ hx))
  · show (if out.asleep = true then _ else _ : List _).countP _ = _
    rw [hpast, List.count_append, hk.eof, ← h.eof]
    cases hasleep : out.asleep with
    | true => simp
    | false =>
      -- the call got nothing at all exactly if it had nothing before and got nothing now
      have hiff : endOfFile (rd.target, rd.got ++ out.bytes) = true ↔
          out.bytes = [] ∧ 0 < rd.n ∧ rd.n = rd.target := by
        simp only [endOfFile, Bool.and_eq_true, decide_eq_true_eq, List.isEmpty_iff,
          List.append_eq_nil_iff, ← List.length_eq_zero_iff (l := rd.got)]
        constructor
        · rintro ⟨hpos, hgot, hbytes⟩
          exact ⟨hbytes, by omega, by omega⟩
        · rintro ⟨hbytes, hpos, heq⟩
          exact ⟨by omega, by omega, hbytes⟩
      simp only [Bool.false_eq_true, if_false, List.countP_append, List.countP_singleton, hiff,
        true_and]
  · obtain ⟨hb, ha, hgot⟩ := halone hno
    subst hb ha
    rw [hgot]
    cases out.asleep <;> simp

theorem inv_step {s s' : Sys} {a : Act} (h : Inv s) (hs : step s a = .done s') : Inv s' := by
  cases a with
  | intr c => exact Outcome.done.inj hs ▸ inv_intr h c
  | read n =>
    obtain rfl := Outcome.done.inj hs
    refine inv_runReader h rfl (fun x hx => by simpa using hx) fun hno => ?_
    simp only [Bool.or_eq_false_iff, Bool.not_eq_false', List.isEmpty_iff] at hno
    obtain ⟨-, hdel⟩ := h.inOrder hno.1
    rw [hno.2] at hdel
    exact ⟨hno.2, rfl, hdel⟩
  | wake i =>
    simp only [step] at hs
    split at hs
    · cases hs
    rename_i rd hi
    obtain rfl := Outcome.done.inj hs
    refine inv_runReader h (h.readers rd (List.mem_of_getElem? hi)).2 (fun x hx => ?_)
      fun hno => ?_
    · obtain hx | hx := List.mem_append.mp hx
      · exact List.mem_of_mem_take hx
      · exact List.mem_of_mem_drop hx
    · obtain ⟨hone, hdel⟩ := h.inOrder hno
      have hrd : s.readers = [rd] := by
        match hr : s.readers, hi, hone with
        | [x], hi, _ =>
          match i, hi with
          | 0, hi => rw [Option.some.inj hi]
      have hi0 : i = 0 := by
        rw [hrd] at hi
        match i, hi with
        | 0, _ => rfl
      rw [hrd] at hdel ⊢
      subst hi0
      exact ⟨rfl, rfl, by simpa using hdel⟩

/-- The states that any interleaving of input and readers reaches. -/
abbrev ReachableSys : Sys → Prop := Reachable Sys.init step (fun _ _ => True)

theorem inv_of_reachable {s : Sys} (h : ReachableSys s) : Inv s :=
  h.invariant inv_init fun _ hi _ hs => inv_step hi hs

theorem committed_kept {s : Cons} {l : Line} (h : Shows s l) (c : UInt8) :
    (consoleintr c s).r = s.r ∧ (s.w - s.r).toNat ≤ ((consoleintr c s).w - s.r).toNat ∧
    ∀ k < (s.w - s.r).toNat, (consoleintr c s).at (s.r + idx k) = s.at (s.r + idx k) := by
  have h' := h.consoleintr c
  obtain ⟨⟨more, hmore⟩, htaken⟩ := l.stream_input c
  have hr : (consoleintr c s).r = s.r := by rw [h'.r, htaken, h.r]
  have hlen : l.stream.length ≤ (l.input c).stream.length := by
    rw [← hmore, List.length_append]
    omega
  refine ⟨hr, ?_, fun k hk => ?_⟩
  · rw [← hr, h'.toNat_w_sub_r, hr, h.toNat_w_sub_r, htaken]
    omega
  · rw [h.toNat_w_sub_r] at hk
    have hidx : s.r + idx k = idx (l.taken + k) := by
      rw [h.r]
      exact (UInt32.ofNat_add l.taken k).symm
    rw [hidx, h.at_stream (by omega) (by omega), h'.at_stream (by omega) (by omega), ← hmore,
      List.getD_append _ _ _ _ (by omega)]

/-- A call that has just returned short of what was asked for and of the end of the line. -/
theorem Inv.eof_left {s s' : Sys} (h : Inv s) {a : Act} (hs : step s a = .done s') {target : Nat}
    {got : List UInt8} (hret : s'.returned = s.returned ++ [(target, got)]) (hgot : got ≠ [])
    (hshort : got.length < target) (hline : got.getLast? ≠ some newline) :
    s'.cons.r ≠ s'.cons.w ∧ s'.cons.at s'.cons.r = ctrlD := by
  suffices hrun : ∀ before after rd, rd.n + rd.got.length = rd.target →
      (s.runReader before after rd).returned = s.returned ++ [(target, got)] →
      (s.runReader before after rd).cons.r ≠ (s.runReader before after rd).cons.w ∧
      (s.runReader before after rd).cons.at (s.runReader before after rd).cons.r = ctrlD by
    cases a with
    | intr c =>
      obtain rfl := Outcome.done.inj hs
      simp at hret
    | read n =>
      obtain rfl := Outcome.done.inj hs
      exact hrun s.readers [] ⟨n, n, []⟩ rfl hret
    | wake i =>
      simp only [step] at hs
      split at hs
      · cases hs
      rename_i rd hi
      obtain rfl := Outcome.done.inj hs
      exact hrun _ _ rd (h.readers rd (List.mem_of_getElem? hi)).2 hret
  intro before after rd hrd hret
  have hle : rd.n ≤ rd.target := by omega
  obtain ⟨k, hk⟩ := h.shows.readLoop hle
  unfold Sys.runReader at hret ⊢
  generalize readLoop rd.target rd.n s.cons = out at hk hret ⊢
  dsimp only at hret ⊢
  have hasleep : out.asleep = false := by
    by_contra hc
    simp only [Bool.not_eq_false] at hc
    simp [hc] at hret
  rw [hasleep] at hret
  simp only [Bool.false_eq_true, if_false, List.append_cancel_left_eq, List.cons.injEq,
    Prod.mk.injEq, and_true] at hret
  obtain ⟨htarget, hbytes⟩ := hret
  have hleft := hk.left
  have hlen : rd.got.length + out.bytes.length = got.length := by
    rw [← hbytes, List.length_append]
  have hlast : out.bytes.getLast? ≠ some newline := by
    intro hnl
    refine hline ?_
    rw [← hbytes, List.getLast?_append, hnl]
    rfl
  have hsome : out.bytes ≠ [] ∨ rd.n < rd.target := by
    by_cases hempty : out.bytes = []
    · refine Or.inr ?_
      have hpos := List.length_pos_iff.mpr hgot
      rw [hempty, List.length_nil] at hlen
      omega
    · exact Or.inl hempty
  obtain ⟨hlt, hget⟩ := hk.short hasleep (by omega) hlast hsome
  refine ⟨fun heq => ?_, ?_⟩
  · have hend := hk.shows.r_eq_w.mp heq
    dsimp only at hend
    omega
  · rw [hk.shows.r, hk.shows.at_stream (Nat.le_refl _) hlt]
    exact hget

/-- **The console's line discipline**, for any typed characters and any calls of `consoleread`,
    in any interleaving: the indices keep their order and the buffer does not overflow; input
    leaves committed characters alone; the bytes that reads return are, in order, the start of
    the committed stream without its ^Ds; the ^Ds that have been read are as many as the calls
    that returned with nothing; and a call that is cut short by a ^D leaves it for the next. -/
theorem line_discipline {s : Sys} (h : ReachableSys s) :
    ((s.cons.w - s.cons.r).toNat ≤ (s.cons.e - s.cons.r).toNat ∧
      (s.cons.e - s.cons.r).toNat ≤ INPUT_BUF_SIZE) ∧
    (∀ c, (consoleintr c s.cons).r = s.cons.r ∧
      (s.cons.w - s.cons.r).toNat ≤ ((consoleintr c s.cons).w - s.cons.r).toNat ∧
      ∀ k < (s.cons.w - s.cons.r).toNat,
        (consoleintr c s.cons).at (s.cons.r + idx k) = s.cons.at (s.cons.r + idx k)) ∧
    s.delivered <+: s.line.stream.filter (· ≠ ctrlD) ∧
    (s.overlap = false → s.returned.flatMap Prod.snd <+: s.line.stream.filter (· ≠ ctrlD)) ∧
    s.returned.countP endOfFile = (s.line.stream.take s.line.taken).count ctrlD ∧
    (∀ a s' target got, step s a = .done s' → s'.returned = s.returned ++ [(target, got)] →
      got ≠ [] → got.length < target → got.getLast? ≠ some newline →
      s'.cons.r ≠ s'.cons.w ∧ s'.cons.at s'.cons.r = ctrlD) := by
  have hinv := inv_of_reachable h
  have hprefix : s.delivered <+: s.line.stream.filter (· ≠ ctrlD) := by
    rw [hinv.delivered, Line.past]
    exact (List.take_prefix _ _).filter _
  refine ⟨⟨?_, ?_⟩, committed_kept hinv.shows, hprefix, fun hno => ?_, hinv.eof,
    fun a s' target got hs hret hgot hshort hline => hinv.eof_left hs hret hgot hshort hline⟩
  · rw [hinv.shows.toNat_w_sub_r, hinv.shows.toNat_e_sub_r, Line.unread]
    omega
  · rw [hinv.shows.toNat_e_sub_r]
    exact hinv.shows.unread_le
  · rw [(hinv.inOrder hno).2] at hprefix
    exact (List.prefix_append _ _).trans hprefix

/-- Backspace and kill line, a line, and a ^D behind two characters, which ends two reads. -/
def typedRun : List Act :=
  [.read 4, .intr 97, .intr ctrlU, .intr 98, .intr 99, .intr ctrlH, .intr 13, .wake 0,
    .intr 100, .intr 101, .intr ctrlD, .read 4, .read 4]

theorem line_discipline_typedRun :
    ∃ s, ReachableSys s ∧ s.returned = [(4, [98, 10]), (4, [100, 101]), (4, [])] ∧
      s.delivered <+: s.line.stream.filter (· ≠ ctrlD) := by
  have hreach : ReachableSys (finalState step (fun _ _ => true) Sys.init typedRun) :=
    (reachable_finalState (by decide)).mono fun _ _ _ => trivial
  exact ⟨_, hreach, by decide, (line_discipline hreach).2.2.1⟩

end Xv6.Console
