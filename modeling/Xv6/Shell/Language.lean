import Xv6.Shell.Scan

/-!
# The language of the shell

What this shell accepts: lines without any of its symbols, of at most `MAXARGS - 1` words.  The
parser returns for exactly these, with the words as arguments, and calls `panic` for all others.
-/

namespace Xv6.Shell

/-- The lines of the language. -/
def Accepted (text : List UInt8) : Prop :=
  (∀ c ∈ text, c ∉ symbols) ∧ (words text).length ≤ MAXARGS - 1

instance (text : List UInt8) : Decidable (Accepted text) :=
  @instDecidableAnd _ _ (List.decidableBAll (fun c => c ∉ symbols) text) _

/-- The C string at an index, if it ends within the buffer. -/
def stringAt (buf : List UInt8) (s : Nat) : Option (List UInt8) :=
  if 0 ∈ buf.drop s then some ((buf.drop s).takeWhile (· ≠ 0)) else none

/-! ### Arguments -/

/-- The words from an index on, each as where it begins and where it ends. -/
inductive Runs (text : List UInt8) : Nat → List (Nat × Nat) → Prop where
  | nil {s : Nat} (h : text.drop (next text s) = []) : Runs text s []
  | cons {s : Nat} {ts : List (Nat × Nat)} (h : text.drop (next text s) ≠ [])
      (rest : Runs text (past nonspace text (next text s)) ts) :
      Runs text s ((next text s, past nonspace text (next text s)) :: ts)

theorem Runs.of_next {text : List UInt8} {s : Nat} {ts : List (Nat × Nat)}
    (h : Runs text (next text s) ts) : Runs text s ts := by
  cases h with
  | nil h => exact .nil (next_next (s := s) ▸ h)
  | cons h rest =>
    rw [next_next] at h rest ⊢
    exact .cons h rest

/-- No byte from the index on is a symbol. -/
def Plain (text : List UInt8) (s : Nat) : Prop := ∀ c ∈ text.drop s, c ∉ symbols

theorem words_drop_next (text : List UInt8) (s : Nat) :
    words (text.drop (next text s)) = words (text.drop s) := by
  rw [next, drop_past, words_dropWhile]

theorem words_drop_past {text : List UInt8} {s : Nat} (h : text.drop (next text s) ≠ []) :
    words (text.drop s) = (text.drop (next text s)).takeWhile nonspace ::
      words (text.drop (past nonspace text (next text s))) := by
  obtain ⟨c, cs, hdrop⟩ := List.exists_cons_of_ne_nil h
  rw [← words_drop_next, drop_past, hdrop, words_of_nonspace (next_stops hdrop)]

theorem Runs.words {text : List UInt8} {s : Nat} {ts : List (Nat × Nat)} (h : Runs text s ts) :
    words (text.drop s) = ts.map fun t => (text.drop t.1).take (t.2 - t.1) := by
  induction h with
  | nil h => rw [← words_drop_next, h, words_nil, List.map_nil]
  | cons h rest ih =>
    rw [words_drop_past h, ih, List.map_cons]
    congr 1
    rw [past, Nat.add_sub_cancel_left]
    exact List.prefix_iff_eq_take.mp (List.takeWhile_prefix nonspace)

/-- The first of the arguments are set. -/
structure Filled (cmd : Execcmd) (ts : List (Nat × Nat)) : Prop where
  argv : cmd.argv = ts.map (fun t => some t.1) ++ List.replicate (MAXARGS - ts.length) none
  eargv : cmd.eargv = ts.map (fun t => some t.2) ++ List.replicate (MAXARGS - ts.length) none

theorem filled_execcmd : Filled execcmd [] := ⟨rfl, rfl⟩

theorem set_replicate {ps : List (Option Nat)} {n k : Nat} (hn : ps.length = n) (hk : 0 < k)
    (v : Option Nat) : (ps ++ List.replicate k none).set n v =
      ps ++ v :: List.replicate (k - 1) none := by
  obtain ⟨k, rfl⟩ : ∃ j, k = j + 1 := ⟨k - 1, by omega⟩
  rw [List.set_append_right _ _ (by omega), hn, Nat.sub_self, List.replicate_succ, List.set_cons_zero]
  rfl

theorem Filled.set {cmd : Execcmd} {ts : List (Nat × Nat)} (h : Filled cmd ts)
    (hlen : ts.length < MAXARGS) (q e : Nat) :
    ∃ cmd', cmd.set ts.length (some q) (some e) = .ok cmd' ∧ Filled cmd' (ts ++ [(q, e)]) := by
  have hleft : MAXARGS - (ts ++ [(q, e)]).length = MAXARGS - ts.length - 1 := by
    rw [List.length_append, List.length_singleton]
    omega
  refine ⟨⟨cmd.argv.set ts.length (some q), cmd.eargv.set ts.length (some e)⟩,
    by rw [Execcmd.set, if_pos hlen]; rfl, ?_, ?_⟩
  · rw [h.argv, set_replicate (by simp) (by omega), hleft]
    simp
  · rw [h.eargv, set_replicate (by simp) (by omega), hleft]
    simp

theorem Filled.set_none {cmd : Execcmd} {ts : List (Nat × Nat)} (h : Filled cmd ts)
    (hlen : ts.length < MAXARGS) : cmd.set ts.length none none = .ok cmd := by
  have hsame : ∀ ps : List (Option Nat), ps.length = ts.length →
      (ps ++ List.replicate (MAXARGS - ts.length) none).set ts.length none =
        ps ++ List.replicate (MAXARGS - ts.length) none := by
    intro ps hps
    rw [set_replicate hps (by omega), ← List.replicate_succ, Nat.sub_add_cancel (by omega)]
  have hargv : cmd.argv.set ts.length none = cmd.argv := by
    rw [h.argv, hsame _ (by simp)]
  have heargv : cmd.eargv.set ts.length none = cmd.eargv := by
    rw [h.eargv, hsame _ (by simp)]
  rw [Execcmd.set, if_pos hlen, hargv, heargv]
  rfl

/-! ### The loop over the arguments -/

section ArgLoop

variable {text : List UInt8} (hline : 0 ∉ text) {s : Nat} (hs : s ≤ text.length) (fuel argc : Nat)
  (cmd : Execcmd)
include hline hs

theorem argLoop_end (hend : text.drop (next text s) = []) :
    argLoop (text ++ [0]) text.length (fuel + 1) argc cmd s = .ok (cmd, argc, next text s) := by
  obtain ⟨t, ht, hret, hts⟩ := gettoken_end (next_le hs) hend
  rw [argLoop, peek_eq hline hs, hend, ok_bind]
  simp only [List.head?_nil, Option.any_none, Bool.false_eq_true, if_false]
  rw [ht, ok_bind, if_pos hret, hts]
  rfl

section

variable {c : UInt8} {cs : List UInt8} (hdrop : text.drop (next text s) = c :: cs)
include hdrop

theorem argLoop_over (hc : c ∈ chars "|)&;") :
    argLoop (text ++ [0]) text.length (fuel + 1) argc cmd s = .ok (cmd, argc, next text s) := by
  rw [argLoop, peek_eq hline hs, hdrop, ok_bind]
  simp only [List.head?_cons, Option.any_some, strchr_iff.mpr hc, if_true]
  rfl

theorem argLoop_symbol (hover : c ∉ chars "|)&;") (hc : c ∈ symbols) :
    argLoop (text ++ [0]) text.length (fuel + 1) argc cmd s = panic "syntax" := by
  obtain ⟨t, ht, hret, hreta⟩ := gettoken_symbol (next_le hs) hdrop hc
  rw [argLoop, peek_eq hline hs, hdrop, ok_bind]
  simp only [List.head?_cons, Option.any_some, strchr_iff, if_neg hover]
  rw [ht, ok_bind, if_neg hret, if_pos hreta]

theorem argLoop_word (hc : c ∉ symbols) :
    argLoop (text ++ [0]) text.length (fuel + 1) argc cmd s = (do
      let cmd ← cmd.set argc (some (next text s)) (some (past inWord text (next text s)))
      if MAXARGS ≤ argc + 1 then panic "too many args"
      else do
        let s ← parseredirs (text ++ [0]) text.length
          (next text (past inWord text (next text s)))
        argLoop (text ++ [0]) text.length fuel (argc + 1) cmd s) := by
  have hover : c ∉ chars "|)&;" := fun h => hc (by
    have hsub : ∀ c ∈ chars "|)&;", c ∈ symbols := forall_of_all (by decide)
    exact hsub c h)
  have hspace : c ∉ whitespace := next_stops hdrop
  rw [argLoop, peek_eq hline hs, hdrop, ok_bind]
  simp only [List.head?_cons, Option.any_some, strchr_iff, if_neg hover]
  rw [gettoken_word hline (next_le hs) hdrop hspace hc, ok_bind,
    if_neg (show ¬ 'a'.toUInt8 = 0 by decide), if_neg (show ¬ 'a'.toUInt8 ≠ 'a'.toUInt8 by decide)]

end

end ArgLoop

theorem Plain.past_inWord {text : List UInt8} {s : Nat} (h : Plain text s) :
    past inWord text s = past nonspace text s := by
  have heq : ∀ xs : List UInt8, (∀ c ∈ xs, c ∉ symbols) → xs.takeWhile inWord = xs.takeWhile nonspace := by
    intro xs hxs
    induction xs with
    | nil => rfl
    | cons c xs ih =>
      obtain ⟨hc, hxs⟩ := List.forall_mem_cons.mp hxs
      have hsame : inWord c = nonspace c := by
        rw [Bool.eq_iff_iff]
        simp [inWord, nonspace, ← Bool.not_eq_true, strchr_iff, hc]
      rw [List.takeWhile_cons, List.takeWhile_cons, hsame, ih hxs]
  rw [past, past, heq _ h]

theorem Plain.mono {text : List UInt8} {s e : Nat} (h : Plain text s) (hle : s ≤ e) :
    Plain text e := fun c hc => h c (List.drop_subset_drop_left _ hle hc)

theorem Plain.not_any {text : List UInt8} {s : Nat} (h : Plain text s) {toks : List UInt8}
    (htoks : ∀ c ∈ toks, c ∈ symbols) : (text.drop s).head?.any (strchr toks) = false := by
  cases hdrop : text.drop s with
  | nil => rfl
  | cons c cs =>
    have hc : c ∉ symbols := h c (hdrop ▸ List.mem_cons_self)
    exact Bool.eq_false_iff.mpr fun hany => hc (htoks c (strchr_iff.mp hany))

theorem plain_of_past {text : List UInt8} {s : Nat} {p : UInt8 → Bool}
    (hp : ∀ c, p c = true → c ∉ symbols) (h : Plain text (past p text s)) : Plain text s := by
  intro c hc
  rw [← List.takeWhile_append_dropWhile (p := p) (l := text.drop s), List.mem_append, ← drop_past] at hc
  exact hc.elim (fun htake => hp c (List.mem_takeWhile_imp htake)) (h c)

theorem plain_of_next {text : List UInt8} {s : Nat} (h : Plain text (next text s)) : Plain text s :=
  plain_of_past (fun c hc hsym => (symbols_spec c hsym).1 (strchr_iff.mp hc)) h

theorem lt_past {text : List UInt8} {s : Nat} {p : UInt8 → Bool} {c : UInt8} {cs : List UInt8}
    (hdrop : text.drop s = c :: cs) (hc : p c = true) : s < past p text s := by
  rw [past, hdrop, List.takeWhile_cons_of_pos hc, List.length_cons]
  omega

/-- **The arguments of a line in the language.** -/
theorem argLoop_accepts {text : List UInt8} (hline : 0 ∉ text) {fuel s : Nat}
    (hs : s ≤ text.length) (hfuel : text.length - s < fuel) (hplain : Plain text s)
    {ts : List (Nat × Nat)} (hcount : ts.length + (words (text.drop s)).length < MAXARGS)
    {cmd : Execcmd} (hfilled : Filled cmd ts) :
    ∃ cmd' ts', argLoop (text ++ [0]) text.length fuel ts.length cmd s =
        .ok (cmd', (ts ++ ts').length, text.length) ∧
      Filled cmd' (ts ++ ts') ∧ Runs text s ts' := by
  induction fuel generalizing s ts cmd with
  | zero => exact absurd hfuel (Nat.not_lt_zero _)
  | succ fuel ih =>
    have hn := next_le hs
    cases hdrop : text.drop (next text s) with
    | nil =>
      have hlast : next text s = text.length := by
        have := List.drop_eq_nil_iff.mp hdrop
        omega
      refine ⟨cmd, [], ?_, ?_, .nil hdrop⟩
      · rw [argLoop_end hline hs fuel _ cmd hdrop, List.append_nil, hlast]
      · rwa [List.append_nil]
    | cons c cs =>
      have hplain' : Plain text (next text s) := hplain.mono (le_past _)
      have hc : c ∉ symbols := hplain' c (hdrop ▸ List.mem_cons_self)
      have hne : text.drop (next text s) ≠ [] := by simp [hdrop]
      have hlt := lt_past (p := nonspace) hdrop (by simpa [nonspace] using next_stops hdrop)
      rw [words_drop_past hne, List.length_cons] at hcount
      rw [argLoop_word hline hs fuel _ cmd hdrop hc, hplain'.past_inWord]
      generalize he : past nonspace text (next text s) = e at hcount hlt ⊢
      have hele : e ≤ text.length := he ▸ past_le _ hn
      have hplaine : Plain text (next text e) := hplain'.mono
        (Nat.le_trans (Nat.le_of_lt hlt) (le_past _))
      obtain ⟨cmd₁, hset, hfilled₁⟩ := hfilled.set (by omega) (next text s) e
      rw [hset, ok_bind, if_neg (by omega), parseredirs_eq hline (next_le hele), next_next,
        hplaine.not_any (forall_of_all (by decide))]
      simp only [Bool.false_eq_true, if_false]
      rw [ok_bind]
      have hns : s ≤ next text s := le_past _
      have hnse : e ≤ next text e := le_past _
      have hcount' : (ts ++ [(next text s, e)]).length + (words (text.drop (next text e))).length <
          MAXARGS := by
        rw [words_drop_next, List.length_append, List.length_singleton]
        omega
      obtain ⟨cmd', ts', hrun, hfilled', hruns⟩ :=
        ih (next_le hele) (by omega) hplaine hcount' hfilled₁
      rw [List.length_append, List.length_singleton] at hrun
      refine ⟨cmd', (next text s, e) :: ts', ?_, ?_, ?_⟩
      · rw [hrun, List.append_assoc]
        rfl
      · rwa [List.append_assoc] at hfilled'
      · subst he
        exact .cons hne hruns.of_next

/-- The parser has called `panic`. -/
def Panics {α : Type} (r : Parse α) : Prop := ∃ msg, r = panic msg

theorem Panics.bind {α β : Type} {r : Parse α} (h : Panics r) (f : α → Parse β) :
    Panics (r >>= f) := by
  obtain ⟨msg, rfl⟩ := h
  exact ⟨msg, rfl⟩

/-- Something is left over at the index that only a pipe, a list, a block or a command in the
    background could explain. -/
def LeftOver (text : List UInt8) (s : Nat) : Prop :=
  ∃ c cs, text.drop s = c :: cs ∧ c ∈ chars "|)&;"

/-- **The arguments of any other line**: the loop panics, or leaves something over. -/
theorem argLoop_rejects {text : List UInt8} (hline : 0 ∉ text) {fuel s argc : Nat}
    (hs : s ≤ text.length) (hfuel : text.length - s < fuel) (hargc : argc < MAXARGS)
    (hbad : ¬ (Plain text s ∧ argc + (words (text.drop s)).length < MAXARGS)) (cmd : Execcmd) :
    Panics (argLoop (text ++ [0]) text.length fuel argc cmd s) ∨
    ∃ cmd' argc' s', argLoop (text ++ [0]) text.length fuel argc cmd s = .ok (cmd', argc', s') ∧
      argc' < MAXARGS ∧ s' ≤ text.length ∧ LeftOver text s' := by
  induction fuel generalizing s argc cmd with
  | zero => exact absurd hfuel (Nat.not_lt_zero _)
  | succ fuel ih =>
    have hn := next_le hs
    cases hdrop : text.drop (next text s) with
    | nil =>
      have hnone : words (text.drop s) = [] := by rw [← words_drop_next, hdrop, words_nil]
      have hplain : Plain text (next text s) := by simp [Plain, hdrop]
      exact absurd ⟨plain_of_next hplain, by rwa [hnone, List.length_nil]⟩ hbad
    | cons c cs =>
      by_cases hover : c ∈ chars "|)&;"
      · exact Or.inr ⟨cmd, argc, next text s, argLoop_over hline hs fuel argc cmd hdrop hover, hargc,
          hn, c, cs, hdrop, hover⟩
      by_cases hc : c ∈ symbols
      · exact Or.inl ⟨_, argLoop_symbol hline hs fuel argc cmd hdrop hover hc⟩
      have hset : cmd.set argc (some (next text s)) (some (past inWord text (next text s))) =
          .ok ⟨cmd.argv.set argc (some (next text s)),
            cmd.eargv.set argc (some (past inWord text (next text s)))⟩ := if_pos hargc
      have hword : inWord c = true := by
        simp [inWord, ← Bool.not_eq_true, strchr_iff, hc, next_stops hdrop]
      have hlt := lt_past (p := inWord) hdrop hword
      have hele : past inWord text (next text s) ≤ text.length := past_le _ hn
      rw [argLoop_word hline hs fuel argc cmd hdrop hc, hset, ok_bind]
      split
      · exact Or.inl ⟨_, rfl⟩
      rw [parseredirs_eq hline (next_le hele), next_next]
      split
      · exact Or.inl ⟨_, rfl⟩
      rw [ok_bind]
      have hns : s ≤ next text s := le_past _
      have hnse : past inWord text (next text s) ≤ next text (past inWord text (next text s)) :=
        le_past _
      refine ih (next_le hele) (by omega) (by omega) (fun hgood => hbad ?_) _
      -- a good rest makes a good line
      obtain ⟨hplain, hcount⟩ := hgood
      have hplain' : Plain text (next text s) := plain_of_past (p := inWord)
        (fun c hc => by simpa [inWord, ← Bool.not_eq_true, strchr_iff] using
          (Bool.and_eq_true_iff.mp hc).2) (plain_of_next hplain)
      refine ⟨plain_of_next hplain', ?_⟩
      rw [words_drop_next, hplain'.past_inWord] at hcount
      rw [words_drop_past (by simp [hdrop]), List.length_cons]
      omega

/-! ### Commands -/

theorem rounds_lt (text : List UInt8) (s : Nat) : text.length - s < (text ++ [0]).length := by
  rw [List.length_append, List.length_singleton]
  omega

section Commands

variable {text : List UInt8} (hline : 0 ∉ text)
include hline

theorem peek_end (toks : String) :
    peek (text ++ [0]) text.length toks text.length = .ok (false, text.length) := by
  have hend : next text text.length = text.length := past_eq_self _ (by simp)
  rw [peek_eq hline (Nat.le_refl _), hend, List.drop_length]
  rfl

/-- **A line in the language** is parsed to its end. -/
theorem parseline_accepts (haccepted : Accepted text) :
    ∃ cmd ts, parseline (text ++ [0]) text.length 0 = .ok (cmd, text.length) ∧
      Filled cmd ts ∧ ts.length < MAXARGS ∧ Runs text 0 ts := by
  obtain ⟨hsymbols, hcount⟩ := haccepted
  have hplain : Plain text 0 := hsymbols
  have hn : next text 0 ≤ text.length := next_le (Nat.zero_le _)
  have hplain' : Plain text (next text 0) := hplain.mono (Nat.zero_le _)
  have hcount' : ([] : List (Nat × Nat)).length + (words (text.drop (next text 0))).length < MAXARGS := by
    rw [words_drop_next, List.drop_zero, List.length_nil]
    unfold MAXARGS at hcount ⊢
    omega
  obtain ⟨cmd, ts, hrun, hfilled, hruns⟩ :=
    argLoop_accepts hline hn (rounds_lt text _) hplain' hcount' filled_execcmd
  rw [List.nil_append, List.length_nil] at hrun
  rw [List.nil_append] at hfilled
  have hlen : ts.length < MAXARGS := by
    have hwords := congrArg List.length hruns.words
    rw [List.length_map] at hwords
    rw [List.length_nil, Nat.zero_add, hwords] at hcount'
    exact hcount'
  refine ⟨cmd, ts, ?_, hfilled, hlen, hruns.of_next⟩
  have hexec : parseexec (text ++ [0]) text.length 0 = .ok (cmd, text.length) := by
    rw [parseexec, peek_eq hline (Nat.zero_le _), ok_bind, hplain'.not_any (forall_of_all (by decide))]
    simp only [Bool.false_eq_true, if_false]
    rw [parseredirs_eq hline hn, next_next, hplain'.not_any (forall_of_all (by decide))]
    simp only [Bool.false_eq_true, if_false]
    rw [ok_bind, hrun, ok_bind, hfilled.set_none hlen]
    rfl
  have hpipe : parsepipe (text ++ [0]) text.length 0 = .ok (cmd, text.length) := by
    rw [parsepipe, hexec, ok_bind]
    dsimp only
    rw [peek_end hline]
    rfl
  rw [parseline, hpipe, ok_bind]
  dsimp only
  rw [peek_end hline, ok_bind]
  simp only [Bool.false_eq_true, if_false]
  rw [peek_end hline]
  rfl

/-- A parser that panics or leaves something over. -/
def Rejects (text : List UInt8) (r : Parse (Execcmd × Nat)) : Prop :=
  Panics r ∨ ∃ cmd s, r = .ok (cmd, s) ∧ s ≤ text.length ∧ LeftOver text s

theorem peek_leftOver {s : Nat} (hs : s ≤ text.length) (h : LeftOver text s) (toks : String) :
    ∃ found, peek (text ++ [0]) text.length toks s = .ok (found, s) := by
  obtain ⟨c, cs, hdrop, hc⟩ := h
  have hsub : ∀ c ∈ chars "|)&;", c ∈ symbols := forall_of_all (by decide)
  have hstay : next text s = s := past_nonspace hdrop (symbols_spec c (hsub c hc)).1
  exact ⟨_, (peek_eq hline hs toks).trans (by rw [hstay])⟩

theorem parseexec_rejects (hbad : ¬ Accepted text) :
    Rejects text (parseexec (text ++ [0]) text.length 0) := by
  have hn : next text 0 ≤ text.length := next_le (Nat.zero_le _)
  rw [parseexec, peek_eq hline (Nat.zero_le _), ok_bind]
  dsimp only
  split
  · exact Or.inl ⟨_, rfl⟩
  rw [parseredirs_eq hline hn, next_next]
  split
  · exact Or.inl ⟨_, rfl⟩
  rw [ok_bind]
  have hbad' : ¬ (Plain text (next text 0) ∧
      0 + (words (text.drop (next text 0))).length < MAXARGS) := by
    rintro ⟨hplain, hcount⟩
    rw [words_drop_next, List.drop_zero, Nat.zero_add] at hcount
    exact hbad ⟨plain_of_next hplain, Nat.le_pred_of_lt hcount⟩
  obtain hpanic | ⟨cmd, argc, s, hrun, hargc, hs, hleft⟩ :=
    argLoop_rejects hline hn (rounds_lt text _) (by decide) hbad' execcmd
  · exact Or.inl (hpanic.bind _)
  · rw [hrun, ok_bind]
    dsimp only
    rw [Execcmd.set, if_pos hargc]
    exact Or.inr ⟨_, s, rfl, hs, hleft⟩

theorem parsepipe_rejects (hbad : ¬ Accepted text) :
    Rejects text (parsepipe (text ++ [0]) text.length 0) := by
  rw [parsepipe]
  obtain hpanic | ⟨cmd, s, hok, hs, hleft⟩ := parseexec_rejects hline hbad
  · exact Or.inl (hpanic.bind _)
  obtain ⟨found, hpeek⟩ := peek_leftOver hline hs hleft "|"
  rw [hok, ok_bind]
  dsimp only
  rw [hpeek, ok_bind]
  cases found with
  | true => exact Or.inl ⟨_, rfl⟩
  | false => exact Or.inr ⟨cmd, s, rfl, hs, hleft⟩

theorem parseline_rejects (hbad : ¬ Accepted text) :
    Rejects text (parseline (text ++ [0]) text.length 0) := by
  rw [parseline]
  obtain hpanic | ⟨cmd, s, hok, hs, hleft⟩ := parsepipe_rejects hline hbad
  · exact Or.inl (hpanic.bind _)
  obtain ⟨back, hback⟩ := peek_leftOver hline hs hleft "&"
  obtain ⟨list, hlist⟩ := peek_leftOver hline hs hleft ";"
  rw [hok, ok_bind]
  dsimp only
  rw [hback, ok_bind]
  cases back with
  | true => exact Or.inl ⟨_, rfl⟩
  | false =>
    simp only [Bool.false_eq_true, if_false]
    rw [hlist, ok_bind]
    cases list with
    | true => exact Or.inl ⟨_, rfl⟩
    | false => exact Or.inr ⟨cmd, s, rfl, hs, hleft⟩

/-- **A line outside of the language** makes `panic`. -/
theorem parsecmd_rejects (hbad : ¬ Accepted text) : Panics (parsecmd (text ++ [0])) := by
  rw [parsecmd, strend_eq hline (Nat.zero_le _) (rounds_lt text 0), ok_bind]
  obtain hpanic | ⟨cmd, s, hok, hs, hleft⟩ := parseline_rejects hline hbad
  · exact hpanic.bind _
  obtain ⟨found, hpeek⟩ := peek_leftOver hline hs hleft ""
  have hne : s ≠ text.length := by
    rintro rfl
    obtain ⟨c, cs, hdrop, -⟩ := hleft
    rw [List.drop_length] at hdrop
    exact nomatch hdrop
  rw [hok, ok_bind]
  dsimp only
  rw [hpeek, ok_bind]
  dsimp only
  rw [if_pos hne]
  exact ⟨_, rfl⟩

end Commands

/-! ### Strings -/

/-- The line after `nulterminate`: each word ends with a NUL. -/
def cut (ts : List (Nat × Nat)) (buf : List UInt8) : List UInt8 :=
  ts.foldl (fun buf t => buf.set t.2 0) buf

theorem getElem?_cut (ts : List (Nat × Nat)) (buf : List UInt8) {k : Nat} (hk : k < buf.length) :
    (cut ts buf)[k]? = if ∃ t ∈ ts, t.2 = k then some 0 else buf[k]? := by
  induction ts generalizing buf with
  | nil => simp [cut]
  | cons t ts ih =>
    have hrest := ih (buf.set t.2 0) (by rwa [List.length_set])
    rw [show cut (t :: ts) buf = cut ts (buf.set t.2 0) from rfl, hrest]
    by_cases hlater : ∃ t ∈ ts, t.2 = k
    · rw [if_pos hlater, if_pos (hlater.imp fun _ h => ⟨List.mem_cons_of_mem t h.1, h.2⟩)]
    rw [if_neg hlater]
    by_cases ht : t.2 = k
    · rw [if_pos ⟨t, List.mem_cons_self, ht⟩, ht, List.getElem?_set_self hk]
    · rw [if_neg, List.getElem?_set_ne ht]
      rintro ⟨u, hu, huk⟩
      obtain rfl | hu := List.mem_cons.mp hu
      · exact ht huk
      · exact hlater ⟨u, hu, huk⟩

theorem nulLoop_eq {cmd : Execcmd} {ts : List (Nat × Nat)} (h : Filled cmd ts)
    (hlen : ts.length < MAXARGS) {fuel i : Nat} (hi : i ≤ ts.length) (hfuel : ts.length - i < fuel)
    {buf : List UInt8} (hin : ∀ t ∈ ts, t.2 < buf.length) :
    nulLoop cmd fuel i buf = .ok (cut (ts.drop i) buf) := by
  induction fuel generalizing i buf with
  | zero => exact absurd hfuel (Nat.not_lt_zero _)
  | succ fuel ih =>
    rw [nulLoop, h.argv, h.eargv]
    obtain hlt | rfl := Nat.lt_or_eq_of_le hi
    · have hget : ∀ f : Nat × Nat → Option Nat, (ts.map f ++
          List.replicate (MAXARGS - ts.length) none)[i]? = some (f ts[i]) := by
        intro f
        rw [List.getElem?_append_left (by rwa [List.length_map]), List.getElem?_map,
          List.getElem?_eq_getElem hlt]
        rfl
      rw [hget, hget]
      dsimp only
      rw [if_pos (hin _ (List.getElem_mem hlt)), ih hlt (by omega)
        (fun t ht => by rw [List.length_set]; exact hin t ht), List.drop_eq_getElem_cons hlt]
      rfl
    · have hget : ∀ ps : List (Option Nat), ps.length = ts.length →
          (ps ++ List.replicate (MAXARGS - ts.length) none)[ts.length]? = some none := by
        intro ps hps
        rw [List.getElem?_append_right (by omega), hps, Nat.sub_self, List.getElem?_replicate,
          if_pos (by omega)]
      rw [hget _ (by rw [List.length_map]), List.drop_length]
      rfl

theorem Runs.bounds {text : List UInt8} {s : Nat} {ts : List (Nat × Nat)} (h : Runs text s ts)
    (hs : s ≤ text.length) {t : Nat × Nat} (ht : t ∈ ts) :
    t.1 ≤ t.2 ∧ t.2 ≤ text.length ∧
      (∀ k c, t.1 ≤ k → k < t.2 → text[k]? = some c → c ∉ whitespace) ∧
      ∀ c, text[t.2]? = some c → c ∈ whitespace := by
  induction h with
  | nil => exact absurd ht List.not_mem_nil
  | @cons s ts h rest ih =>
    have hn := next_le hs
    obtain rfl | ht := List.mem_cons.mp ht
    · refine ⟨le_past _, past_le _ hn, fun k c hlo hhi hk => ?_, fun c hc => ?_⟩
      · -- the byte is one of those that the scan has passed
        replace hlo : next text s ≤ k := hlo
        replace hhi : k < past nonspace text (next text s) := hhi
        obtain ⟨j, rfl⟩ := Nat.exists_eq_add_of_le hlo
        rw [← List.getElem?_drop, ← List.takeWhile_append_dropWhile (p := nonspace)
          (l := text.drop (next text s)), List.getElem?_append_left (by
            unfold past at hhi
            omega)] at hk
        simpa [nonspace] using List.mem_takeWhile_imp (List.mem_of_getElem? hk)
      · have hdrop : (text.drop (past nonspace text (next text s))).head? = some c := by
          rw [List.head?_drop, hc]
        rw [drop_past] at hdrop
        obtain ⟨cs, hcs⟩ := List.head?_eq_some_iff.mp hdrop
        simpa [nonspace] using stops_at hcs
    · exact ih (past_le _ hn) ht

/-- **The words as C strings**: no NUL falls into a word, and one ends it. -/
theorem stringAt_cut {text : List UInt8} (hline : 0 ∉ text) {ts : List (Nat × Nat)}
    (hruns : Runs text 0 ts) {t : Nat × Nat} (ht : t ∈ ts) :
    stringAt (cut ts (text ++ [0])) t.1 = some ((text.drop t.1).take (t.2 - t.1)) := by
  obtain ⟨hle, hend, hword, -⟩ := hruns.bounds (Nat.zero_le _) ht
  have hlen : (text ++ [0]).length = text.length + 1 := List.length_append
  -- the bytes of the word are as they were
  have hbytes : ∀ k, t.1 ≤ k → k < t.2 → (cut ts (text ++ [0]))[k]? = text[k]? := by
    intro k hlo hhi
    rw [getElem?_cut _ _ (by omega), if_neg, List.getElem?_append_left (by omega)]
    rintro ⟨u, hu, rfl⟩
    have hlt : u.2 < text.length := by omega
    exact hword u.2 text[u.2] hlo hhi (List.getElem?_eq_getElem hlt)
      ((hruns.bounds (Nat.zero_le _) hu).2.2.2 _ (List.getElem?_eq_getElem hlt))
  have hnul : (cut ts (text ++ [0]))[t.2]? = some 0 := by
    rw [getElem?_cut _ _ (by omega), if_pos ⟨t, ht, rfl⟩]
  have htake : ((cut ts (text ++ [0])).drop t.1).take (t.2 - t.1) =
      (text.drop t.1).take (t.2 - t.1) := by
    refine List.ext_getElem? fun j => ?_
    rw [List.getElem?_take, List.getElem?_take]
    split
    · rename_i hj
      rw [List.getElem?_drop, List.getElem?_drop, hbytes _ (by omega) (by omega)]
    · rfl
  have hrest : ((cut ts (text ++ [0])).drop t.1).drop (t.2 - t.1) =
      0 :: (cut ts (text ++ [0])).drop (t.2 + 1) := by
    rw [List.drop_drop, Nat.add_sub_cancel' hle]
    obtain ⟨hlt, hget⟩ := List.getElem?_eq_some_iff.mp hnul
    rw [List.drop_eq_getElem_cons hlt, hget]
  have hsplit : (cut ts (text ++ [0])).drop t.1 = (text.drop t.1).take (t.2 - t.1) ++
      0 :: (cut ts (text ++ [0])).drop (t.2 + 1) := by
    rw [← htake, ← hrest, List.take_append_drop]
  have hnonzero : ∀ c ∈ (text.drop t.1).take (t.2 - t.1), decide (c ≠ 0) = true := fun c hc =>
    decide_eq_true fun h => hline (h ▸ List.mem_of_mem_drop (List.mem_of_mem_take hc))
  rw [stringAt, hsplit, if_pos (List.mem_append_right _ List.mem_cons_self),
    List.takeWhile_append_of_pos hnonzero, List.takeWhile_cons_of_neg (by decide), List.append_nil]

/-- **The parser accepts its language.**  For every line without a NUL in it: if it is in the
    language, then `parsecmd` returns, with a pointer to each word in order, where the line now holds
    that word as a string, and a null pointer behind them; and if not, `parsecmd` calls `panic`.
    Nothing is read behind the NUL of the line or written behind the arrays, and all loops end. -/
theorem parsecmd_accepts_language (text : List UInt8) (hline : 0 ∉ text) :
    (Accepted text → ∃ cmd buf, parsecmd (text ++ [0]) = .ok (cmd, buf) ∧
      (∀ i (hi : i < (words text).length), ∃ q, cmd.argv[i]? = some (some q) ∧
        stringAt buf q = some (words text)[i]) ∧
      cmd.argv[(words text).length]? = some none) ∧
    (¬ Accepted text → ∃ msg, parsecmd (text ++ [0]) = .error (.panic msg)) := by
  refine ⟨fun haccepted => ?_, parsecmd_rejects hline⟩
  obtain ⟨cmd, ts, hparse, hfilled, hlen, hruns⟩ := parseline_accepts hline haccepted
  have hwords : words text = ts.map fun t => (text.drop t.1).take (t.2 - t.1) := hruns.words
  have hin : ∀ t ∈ ts, t.2 < (text ++ [0]).length := fun t ht => by
    have hend := (hruns.bounds (Nat.zero_le _) ht).2.1
    rw [List.length_append]
    exact Nat.lt_succ_of_le hend
  have hnul : nulterminate cmd (text ++ [0]) = .ok (cut ts (text ++ [0])) :=
    nulLoop_eq hfilled hlen (Nat.zero_le _) (by omega) hin
  refine ⟨cmd, cut ts (text ++ [0]), ?_, fun i hi => ?_, ?_⟩
  · rw [parsecmd, strend_eq hline (Nat.zero_le _) (rounds_lt text 0), ok_bind, hparse, ok_bind]
    dsimp only
    rw [peek_end hline, ok_bind]
    dsimp only
    rw [if_neg (not_not.mpr rfl), hnul]
    rfl
  · have hits : i < ts.length := by rwa [hwords, List.length_map] at hi
    refine ⟨ts[i].1, ?_, ?_⟩
    · rw [hfilled.argv, List.getElem?_append_left (by rwa [List.length_map]), List.getElem?_map,
        List.getElem?_eq_getElem hits]
      rfl
    · rw [stringAt_cut hline hruns (List.getElem_mem hits)]
      simp only [hwords, List.getElem_map]
  · rw [hfilled.argv, hwords, List.length_map, List.getElem?_append_right (by rw [List.length_map]),
      List.length_map, Nat.sub_self, List.getElem?_replicate, if_pos (by omega)]

theorem parsecmd_accepts_language_ls :
    Accepted (chars " ls -l\n") ∧ words (chars " ls -l\n") = [chars "ls", chars "-l"] ∧
      ∃ cmd buf, parsecmd (chars " ls -l\n" ++ [0]) = .ok (cmd, buf) ∧
        cmd.argv[2]? = some none :=
  have hwords : words (chars " ls -l\n") = [chars "ls", chars "-l"] := by decide
  have haccepted : Accepted (chars " ls -l\n") := by decide
  have ⟨cmd, buf, hparse, _, hnull⟩ :=
    (parsecmd_accepts_language (chars " ls -l\n") (by decide)).1 haccepted
  ⟨haccepted, hwords, cmd, buf, hparse, by rwa [hwords] at hnull⟩

end Xv6.Shell
