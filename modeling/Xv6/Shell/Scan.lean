import Xv6.Shell.Parser
import Mathlib.Data.List.TakeWhile

/-!
# How the shell reads a line

The words of a line, and what `peek` and `gettoken` make of the bytes at an index: they skip spaces,
and take a word or a symbol.
-/

namespace Xv6.Shell

/-- The words of a line: its maximal runs of bytes that are not whitespace. -/
def words (text : List UInt8) : List (List UInt8) :=
  (text.splitOnP fun c => c ∈ whitespace).filter (· ≠ [])

theorem strchr_iff {s : List UInt8} {c : UInt8} : strchr s c = true ↔ c ∈ s := by
  induction s with
  | nil => simp [strchr]
  | cons x s ih => rw [strchr, Bool.or_eq_true, decide_eq_true_eq, ih, List.mem_cons, eq_comm]

theorem stops_at {p : UInt8 → Bool} {xs ds : List UInt8} {d : UInt8}
    (h : xs.dropWhile p = d :: ds) : p d = false := by
  have hne : xs.dropWhile p ≠ [] := by
    rw [h]
    exact List.cons_ne_nil d ds
  have hhead := List.head_dropWhile_not p hne
  simpa only [h, List.head_cons] using hhead

/-! ### Words -/

def nonspace (c : UInt8) : Bool := c ∉ whitespace

theorem words_cons_space {c : UInt8} (hc : c ∈ whitespace) (xs : List UInt8) :
    words (c :: xs) = words xs := by
  have hsplit : ([] ++ c :: xs).splitOnP (fun c => decide (c ∈ whitespace)) = [] :: xs.splitOnP _ :=
    List.splitOnP_append_cons_of_forall_mem nofun c (decide_eq_true hc) xs
  rw [List.nil_append] at hsplit
  rw [words, hsplit, List.filter_cons_of_neg (by simp)]
  rfl

theorem words_dropWhile (xs : List UInt8) : words (xs.dropWhile (strchr whitespace)) = words xs := by
  induction xs with
  | nil => rfl
  | cons c xs ih =>
    by_cases hc : c ∈ whitespace
    · rw [List.dropWhile_cons_of_pos (strchr_iff.mpr hc), ih, words_cons_space hc]
    · rw [List.dropWhile_cons_of_neg (fun h => hc (strchr_iff.mp h))]

theorem words_of_nonspace {c : UInt8} {xs : List UInt8} (hc : c ∉ whitespace) :
    words (c :: xs) = (c :: xs).takeWhile nonspace :: words ((c :: xs).dropWhile nonspace) := by
  have hword : ∀ x ∈ (c :: xs).takeWhile nonspace, decide (x ∈ whitespace) = false := by
    intro x hx
    simpa [nonspace] using List.mem_takeWhile_imp hx
  have hne : (c :: xs).takeWhile nonspace ≠ [] := by
    rw [List.takeWhile_cons_of_pos (by simpa [nonspace] using hc)]
    exact List.cons_ne_nil _ _
  conv_lhs => rw [← List.takeWhile_append_dropWhile (p := nonspace) (l := c :: xs)]
  cases hrest : (c :: xs).dropWhile nonspace with
  | nil =>
    rw [List.append_nil, words, List.splitOnP_eq_singleton hword, List.filter_cons_of_pos (by simpa using hne)]
    rfl
  | cons d ds =>
    have hd : d ∈ whitespace := by simpa [nonspace] using stops_at hrest
    rw [words_cons_space hd, words, List.splitOnP_append_cons_of_forall_mem hword d (decide_eq_true hd),
      List.filter_cons_of_pos (by simpa using hne)]
    rfl

theorem words_nil : words [] = [] := by
  simp [words]

/-! ### Scanning -/

/-- The index behind the bytes from `s` on that meet a condition. -/
def past (cond : UInt8 → Bool) (text : List UInt8) (s : Nat) : Nat :=
  s + ((text.drop s).takeWhile cond).length

/-- The index of the next byte that is no space. -/
def next (text : List UInt8) (s : Nat) : Nat := past (strchr whitespace) text s

section Scan

variable {text : List UInt8} {s : Nat} (cond : UInt8 → Bool)

theorem past_le (hs : s ≤ text.length) : past cond text s ≤ text.length := by
  have hle := (List.takeWhile_sublist (p := cond) (l := text.drop s)).length_le
  rw [List.length_drop] at hle
  unfold past
  omega

theorem le_past : s ≤ past cond text s := Nat.le_add_right _ _

theorem drop_past : text.drop (past cond text s) = (text.drop s).dropWhile cond := by
  calc text.drop (past cond text s)
      = (text.drop s).drop ((text.drop s).takeWhile cond).length := by rw [past, ← List.drop_drop]
    _ = ((text.drop s).takeWhile cond ++ (text.drop s).dropWhile cond).drop
          ((text.drop s).takeWhile cond).length := by rw [List.takeWhile_append_dropWhile]
    _ = (text.drop s).dropWhile cond := List.drop_left

theorem past_eq_self (h : ∀ c ∈ (text.drop s).head?, cond c = false) : past cond text s = s := by
  unfold past
  cases hdrop : text.drop s with
  | nil => rfl
  | cons c cs =>
    rw [List.takeWhile_cons_of_neg (by simp [h c (by rw [hdrop]; rfl)])]
    rfl

theorem past_nonspace {c : UInt8} {cs : List UInt8} (hdrop : text.drop s = c :: cs)
    (hc : c ∉ whitespace) : past (strchr whitespace) text s = s := by
  refine past_eq_self _ fun d hd => ?_
  rw [hdrop] at hd
  exact Bool.eq_false_iff.mpr fun h => hc (Option.some.inj hd ▸ strchr_iff.mp h)

theorem next_stops {c : UInt8} {cs : List UInt8} (hdrop : text.drop (next text s) = c :: cs) :
    c ∉ whitespace := by
  rw [next, drop_past] at hdrop
  exact fun hmem => by simpa [strchr_iff.mpr hmem] using stops_at hdrop

theorem next_next : next text (next text s) = next text s := by
  refine past_eq_self _ fun c hc => ?_
  rw [next, drop_past] at hc
  cases hdrop : (text.drop s).dropWhile (strchr whitespace) with
  | nil => simp [hdrop] at hc
  | cons d ds =>
    rw [hdrop] at hc
    exact Option.some.inj hc ▸ stops_at hdrop

/-! ### Loads and loops -/

theorem ok_bind {α β : Type} (a : α) (f : α → Parse β) : ((.ok a : Parse α) >>= f) = f a := rfl

theorem load_eq (hs : s ≤ text.length) : load (text ++ [0]) s = .ok ((text.drop s).headD 0) := by
  unfold load
  obtain hlt | rfl := Nat.lt_or_eq_of_le hs
  · rw [List.getElem?_append_left hlt, List.getElem?_eq_getElem hlt, List.drop_eq_getElem_cons hlt]
    rfl
  · rw [List.getElem?_append_right (Nat.le_refl _), Nat.sub_self, List.drop_length]
    rfl

theorem skipLoop_eq {fuel : Nat} (hs : s ≤ text.length) (hfuel : text.length - s < fuel) :
    skipLoop cond (text ++ [0]) text.length fuel s = .ok (past cond text s) := by
  induction fuel generalizing s with
  | zero => exact absurd hfuel (Nat.not_lt_zero _)
  | succ fuel ih =>
    rw [skipLoop]
    split
    · rename_i hlt
      have hdrop := List.drop_eq_getElem_cons hlt
      rw [load_eq hs, hdrop, ok_bind, List.headD_cons]
      split
      · rename_i hcond
        rw [ih (s := s + 1) hlt (by omega), past, past, hdrop, List.takeWhile_cons_of_pos hcond,
          List.length_cons, Nat.add_assoc, Nat.add_comm 1]
      · rename_i hcond
        rw [past, hdrop, List.takeWhile_cons_of_neg hcond]
        rfl
    · rename_i hge
      obtain rfl : s = text.length := by omega
      rw [past, List.drop_length]
      rfl

theorem skip_eq (hs : s ≤ text.length) :
    skip cond (text ++ [0]) text.length s = .ok (past cond text s) := by
  refine skipLoop_eq cond hs ?_
  rw [List.length_append, List.length_singleton]
  omega

theorem strend_eq (hline : 0 ∉ text) {fuel : Nat} (hs : s ≤ text.length)
    (hfuel : text.length - s < fuel) : strend (text ++ [0]) fuel s = .ok text.length := by
  induction fuel generalizing s with
  | zero => exact absurd hfuel (Nat.not_lt_zero _)
  | succ fuel ih =>
    rw [strend, load_eq hs, ok_bind]
    obtain hlt | rfl := Nat.lt_or_eq_of_le hs
    · have hmem : text[s] ≠ 0 := fun h => hline (h ▸ List.getElem_mem hlt)
      rw [List.drop_eq_getElem_cons hlt, List.headD_cons, if_neg hmem]
      exact ih hlt (by omega)
    · rw [List.drop_length]
      rfl

end Scan

/-! ### Tokens -/

theorem forall_of_all {cs : List UInt8} {p : UInt8 → Prop} [DecidablePred p]
    (h : cs.all (fun c => decide (p c)) = true) : ∀ c ∈ cs, p c := fun c hc =>
  of_decide_eq_true (List.all_eq_true.mp h c hc)

theorem symbols_spec : ∀ c ∈ symbols, c ∉ whitespace ∧ c ≠ 0 ∧ c ≠ 'a'.toUInt8 :=
  forall_of_all (by decide)

theorem tokens_subset : ∀ c ∈ chars "|();&<", c ∈ symbols := forall_of_all (by decide)

theorem not_symbol_of {c : UInt8} (h : ¬ strchr (chars "|();&<") c = true) (hgt : c ≠ '>'.toUInt8) :
    c ∉ symbols := by
  intro hc
  have hcases : ∀ c ∈ symbols, c ∈ chars "|();&<" ∨ c = '>'.toUInt8 :=
    forall_of_all (by decide)
  obtain hmem | heq := hcases c hc
  · exact h (strchr_iff.mpr hmem)
  · exact hgt heq

section Tokens

variable {text : List UInt8} (hline : 0 ∉ text) {s : Nat} (hs : s ≤ text.length)
include hs

theorem next_le : next text s ≤ text.length := past_le _ hs

theorem gettoken_end (hend : text.drop s = []) :
    ∃ t, gettoken (text ++ [0]) text.length s = .ok t ∧ t.ret = 0 ∧ t.s = s := by
  have hstay : past (strchr whitespace) text s = s := past_eq_self _ (by simp [hend])
  have hswitch : tokenEnd (text ++ [0]) text.length s = .ok (0, s) := by
    rw [tokenEnd, load_eq hs, hend]
    rfl
  refine ⟨⟨0, s, s, s⟩, ?_, rfl, rfl⟩
  rw [gettoken, skip_eq _ hs, hstay, ok_bind, hswitch, ok_bind]
  dsimp only
  rw [skip_eq _ hs, hstay]
  rfl

theorem gettoken_symbol {c : UInt8} {cs : List UInt8} (hdrop : text.drop s = c :: cs)
    (hc : c ∈ symbols) :
    ∃ t, gettoken (text ++ [0]) text.length s = .ok t ∧ t.ret ≠ 0 ∧ t.ret ≠ 'a'.toUInt8 := by
  have hlt : s < text.length := by
    have hlen := congrArg List.length hdrop
    rw [List.length_drop, List.length_cons] at hlen
    omega
  obtain ⟨hspace, hzero, ha⟩ := symbols_spec c hc
  have hstay : past (strchr whitespace) text s = s := past_nonspace hdrop hspace
  have hswitch : ∃ ret e, tokenEnd (text ++ [0]) text.length s = .ok (ret, e) ∧
      ret ≠ 0 ∧ ret ≠ 'a'.toUInt8 ∧ e ≤ text.length := by
    rw [tokenEnd, load_eq hs, hdrop, ok_bind, List.headD_cons, if_neg hzero]
    split
    · exact ⟨c, s + 1, rfl, hzero, ha, hlt⟩
    rename_i hother
    split
    · -- `>` may be followed by another one, which is then in the line
      rw [load_eq hlt, ok_bind]
      split
      · rename_i hsecond
        refine ⟨'+'.toUInt8, s + 2, rfl, by decide, by decide, Nat.lt_of_le_of_ne hlt fun heq => ?_⟩
        rw [Nat.succ_eq_add_one, heq, List.drop_length] at hsecond
        exact absurd hsecond (by decide)
      · exact ⟨c, s + 1, rfl, hzero, ha, hlt⟩
    · rename_i hgt
      exact absurd hc (not_symbol_of hother hgt)
  obtain ⟨ret, e, heq, hret, hreta, he⟩ := hswitch
  refine ⟨⟨ret, s, e, past (strchr whitespace) text e⟩, ?_, hret, hreta⟩
  rw [gettoken, skip_eq _ hs, hstay, ok_bind, heq, ok_bind]
  dsimp only
  rw [skip_eq _ he]
  rfl

include hline

theorem peek_eq (toks : String) :
    peek (text ++ [0]) text.length toks s =
      .ok ((text.drop (next text s)).head?.any (strchr (chars toks)), next text s) := by
  rw [peek, skip_eq _ hs, ok_bind, load_eq (past_le _ hs), ok_bind]
  show Except.ok _ = Except.ok ((text.drop (past (strchr whitespace) text s)).head?.any _, _)
  cases hdrop : text.drop (past (strchr whitespace) text s) with
  | nil => rfl
  | cons c cs =>
    have hc : c ≠ 0 := fun h => hline (List.mem_of_mem_drop (h ▸ hdrop ▸ List.mem_cons_self))
    simp [hc, next]

theorem parseredirs_eq :
    parseredirs (text ++ [0]) text.length s =
      if (text.drop (next text s)).head?.any (strchr (chars "<>")) then
        panic "redirect command not supported!" else .ok (next text s) := by
  rw [parseredirs, peek_eq hline hs, ok_bind]
  rfl

/-- Neither a space nor a symbol. -/
def inWord (c : UInt8) : Bool := !strchr whitespace c && !strchr symbols c

theorem gettoken_word {c : UInt8} {cs : List UInt8} (hdrop : text.drop s = c :: cs)
    (hspace : c ∉ whitespace) (hc : c ∉ symbols) :
    gettoken (text ++ [0]) text.length s =
      .ok ⟨'a'.toUInt8, s, past inWord text s, next text (past inWord text s)⟩ := by
  have hstay : past (strchr whitespace) text s = s := past_nonspace hdrop hspace
  have hzero : c ≠ 0 := fun h => hline (List.mem_of_mem_drop (h ▸ hdrop ▸ List.mem_cons_self))
  have hswitch : tokenEnd (text ++ [0]) text.length s = .ok ('a'.toUInt8, past inWord text s) := by
    rw [tokenEnd, load_eq hs, hdrop, ok_bind, List.headD_cons, if_neg hzero, if_neg, if_neg]
    · exact congrArg (· >>= fun s => pure ('a'.toUInt8, s)) (skip_eq inWord hs)
    · rintro rfl
      exact hc (by decide)
    · intro h
      exact hc (tokens_subset _ (strchr_iff.mp h))
  rw [gettoken, skip_eq _ hs, hstay, ok_bind, hswitch, ok_bind]
  dsimp only
  rw [skip_eq _ (past_le inWord hs)]
  rfl

end Tokens

end Xv6.Shell
