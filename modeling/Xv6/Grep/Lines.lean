import Xv6.Grep.Match
import Xv6.Library.CString

/-!
# `grep` and the pieces of its input

`grep` of `user/grep.c` collects its input in `buf`, as `read` gives it piece by piece.  It passes
on the lines that match, and moves what is left of an unfinished line to the front of the buffer.
What it writes depends on the lines alone, if they fit into the buffer.
-/

namespace Xv6.Grep

open Library Function

def BUFSIZE : Nat := 1024

def newline : UInt8 := 10

/-- The loop over the lines in the buffer, from `p` on.  Every round takes at least one byte, so
    `fuel` bounds the rounds too; there is no result if the loop goes on. -/
def lineLoop (pattern : List UInt8) : Nat → Addr → Mem → List UInt8 → Option (Addr × Mem × List UInt8)
  | 0, _, _, _ => none
  | fuel + 1, p, mem, output => do
    match ← strchr mem newline BUFSIZE p with
    | none => return (p, mem, output)
    | some q =>
      let mem := update mem q 0
      if matchRe pattern (← stringAt mem BUFSIZE p) then
        let mem := update mem q newline
        -- `write(1, p, q + 1 - p)`
        lineLoop pattern fuel (q + 1) mem (output ++ bytesAt mem (q + 1 - p).toNat p)
      else lineLoop pattern fuel (q + 1) mem output

/-- The loop of `grep(pattern, fd)` with `m` bytes in the buffer.  `input` is what `read` has not
    delivered yet.  The `k`-th `read` delivers `sizes k + 1` bytes, or as many as are asked for, or
    as many as there are.  Each takes at least one byte, so `fuel` bounds the rounds; there is no
    result if the loop goes on. -/
def grepLoop (pattern : List UInt8) (buf : Addr) (sizes : Nat → Nat) :
    Nat → Nat → Mem → Nat → List UInt8 → List UInt8 → Option (List UInt8)
  | 0, _, _, _, _, _ => none
  | fuel + 1, k, mem, m, input, output =>
    let piece := input.take (min (sizes k + 1) (BUFSIZE - m - 1))
    if 0 < piece.length then do
      let mem := storeBytes piece (buf.plus m) mem
      let m := m + piece.length
      let mem := update mem (buf.plus m) 0
      let (p, mem, output) ← lineLoop pattern BUFSIZE buf mem output
      let input := input.drop piece.length
      if 0 < m then
        let m := m - (p - buf).toNat
        let mem := (User.memmove buf p (BitVec.ofNat 32 m) mem).2
        grepLoop pattern buf sizes fuel (k + 1) mem m input output
      else grepLoop pattern buf sizes fuel (k + 1) mem m input output
    else some output

/-- `grep(pattern, fd)`, where `input` is what `fd` has to read. -/
def grep (pattern : List UInt8) (buf : Addr) (sizes : Nat → Nat) (mem : Mem) (input : List UInt8) :
    Option (List UInt8) :=
  grepLoop pattern buf sizes (input.length + 1) 0 mem 0 input []

def unlines (lines : List (List UInt8)) : List UInt8 := lines.flatMap (· ++ [newline])

/-- A line that can be in a text file. -/
def IsLine (l : List UInt8) : Prop := newline ∉ l ∧ 0 ∉ l

theorem unlines_cons (l : List UInt8) (lines : List (List UInt8)) :
    unlines (l :: lines) = l ++ newline :: unlines lines := by
  simp [unlines]

theorem IsLine.ne {l : List UInt8} (h : IsLine l) : ∀ x ∈ l, x ≠ 0 ∧ x ≠ newline := fun _ hx =>
  ⟨fun heq => h.2 (heq ▸ hx), fun heq => h.1 (heq ▸ hx)⟩

/-- **The lines in the buffer**: those that match are written, and `p` ends up behind the last. -/
theorem lineLoop_lines {pattern : List UInt8} {lines : List (List UInt8)} {tail : List UInt8}
    (hlines : ∀ l ∈ lines, IsLine l) (htail : IsLine tail) {fuel : Nat} (hfuel : lines.length < fuel)
    {p : Addr} {mem : Mem} (h : Holds mem p (unlines lines ++ (tail ++ [0])))
    (hlen : (unlines lines ++ tail).length < BUFSIZE) (output : List UInt8) :
    ∃ mem', lineLoop pattern fuel p mem output = some (p.plus (unlines lines).length, mem',
        output ++ unlines (lines.filter (matchRe pattern))) ∧
      Holds mem' (p.plus (unlines lines).length) (tail ++ [0]) := by
  obtain ⟨fuel, rfl⟩ : ∃ k, fuel = k + 1 := ⟨fuel - 1, by omega⟩
  induction lines generalizing fuel p mem output with
  | nil =>
    have hstop : strchr mem newline BUFSIZE p = some none := strchr_absent h htail.ne hlen
    refine ⟨mem, ?_, ?_⟩
    · simp [lineLoop, hstop, unlines, Addr.plus]
    · simpa [unlines, Addr.plus] using h
  | cons l lines ih =>
    obtain ⟨hl, hlines⟩ := List.forall_mem_cons.mp hlines
    rw [unlines_cons, List.append_assoc, List.cons_append] at h hlen
    obtain ⟨fuel, rfl⟩ : ∃ k, fuel = k + 1 := ⟨fuel - 1, by rw [List.length_cons] at hfuel; omega⟩
    have hsize : BUFSIZE = 1024 := rfl
    simp only [List.length_append, List.length_cons] at hlen
    -- the line with a byte `c` at its end, and what follows
    have hsplit : ∀ {mem c}, Holds mem p (l ++ c :: (unlines lines ++ (tail ++ [0]))) →
        Holds mem p (l ++ [c]) ∧
          Holds mem (p.plus l.length + 1) (unlines lines ++ (tail ++ [0])) := by
      intro mem c hmem
      obtain ⟨hl, hc, hrest⟩ := holds_append.mp hmem
      exact ⟨holds_append.mpr ⟨hl, hc, trivial⟩, hrest⟩
    have hfits : ∀ c : UInt8, (l ++ c :: (unlines lines ++ (tail ++ [0]))).length ≤ 2 ^ 64 := by
      intro c
      simp only [List.length_append, List.length_cons, List.length_nil]
      omega
    have hcut := h.set (hfits _) 0
    have hrestored := hcut.set (hfits _) newline
    have hfind : strchr mem newline BUFSIZE p = some (some (p.plus l.length)) :=
      strchr_found (hsplit h).1 hl.ne (by decide) (by omega)
    have hstring : stringAt (update mem (p.plus l.length) 0) BUFSIZE p = some l :=
      stringAt_eq (hsplit hcut).1 hl.2 (by omega)
    have hcount : (p.plus l.length + 1 - p).toNat = (l ++ [newline]).length := by
      rw [List.length_append, List.length_singleton, ← Addr.plus_succ_right,
        Addr.toNat_plus_sub p (by omega)]
    have hend : (p.plus l.length + 1).plus (unlines lines).length =
        p.plus (unlines (l :: lines)).length := by
      rw [← Addr.plus_succ_right, Addr.plus_plus, unlines_cons, List.length_append,
        List.length_cons, Nat.add_assoc, Nat.add_comm 1]
    have hlen' : (unlines lines ++ tail).length < BUFSIZE := by
      rw [List.length_append]
      omega
    rw [← hend, lineLoop]
    simp only [hfind, hstring, Option.pure_def, Option.bind_eq_bind, Option.bind_some]
    by_cases hmatch : matchRe pattern l = true
    · rw [if_pos hmatch, hcount, (hsplit hrestored).1.bytesAt, List.filter_cons_of_pos hmatch]
      obtain ⟨mem', hrun, htail⟩ := ih hlines (hsplit hrestored).2 hlen' (output ++ (l ++ [newline]))
        fuel (Nat.lt_of_succ_lt_succ hfuel)
      exact ⟨mem', by rw [hrun, unlines_cons]; simp, htail⟩
    · rw [if_neg hmatch, List.filter_cons_of_neg hmatch]
      exact ih hlines (hsplit hcut).2 hlen' output fuel (Nat.lt_of_succ_lt_succ hfuel)

theorem unlines_append (ls ms : List (List UInt8)) :
    unlines (ls ++ ms) = unlines ls ++ unlines ms := List.flatMap_append

theorem length_le_unlines (lines : List (List UInt8)) : lines.length ≤ (unlines lines).length := by
  induction lines with
  | nil => rfl
  | cons l lines ih =>
    rw [unlines_cons, List.length_append, List.length_cons, List.length_cons]
    omega

theorem zero_not_mem_unlines {lines : List (List UInt8)} (hlines : ∀ l ∈ lines, IsLine l) :
    0 ∉ unlines lines := by
  intro hmem
  obtain ⟨l, hl, hzero⟩ := List.mem_flatMap.mp hmem
  obtain hzero | hzero := List.mem_append.mp hzero
  · exact (hlines l hl).2 hzero
  · exact absurd (List.mem_singleton.mp hzero) (by decide)

/-- A beginning of the lines consists of whole lines and a beginning of the next one. -/
theorem split_lines {lines : List (List UInt8)} (hlines : ∀ l ∈ lines, IsLine l)
    {text input : List UInt8} (h : text ++ input = unlines lines) :
    ∃ done rest tail, lines = done ++ rest ∧ text = unlines done ++ tail ∧
      tail ++ input = unlines rest ∧ newline ∉ tail := by
  induction lines generalizing text with
  | nil =>
    obtain ⟨rfl, rfl⟩ := List.append_eq_nil_iff.mp h
    exact ⟨[], [], [], rfl, rfl, rfl, List.not_mem_nil⟩
  | cons l lines ih =>
    obtain ⟨hl, hlines⟩ := List.forall_mem_cons.mp hlines
    obtain ⟨a, ha, -⟩ | ⟨c, hc, hrest⟩ := List.append_eq_append_iff.mp (h.trans (unlines_cons l lines))
    · exact ⟨[], l :: lines, text, rfl, rfl, h, fun hmem =>
        hl.1 (ha ▸ List.mem_append_left a hmem)⟩
    · cases c with
      | nil =>
        rw [List.append_nil] at hc
        exact ⟨[], l :: lines, text, rfl, rfl, h, hc ▸ hl.1⟩
      | cons d c =>
        obtain ⟨rfl, hnext⟩ := List.cons.inj hrest
        obtain ⟨done, rest, tail, rfl, rfl, hjoin, htail⟩ := ih hlines hnext.symm
        exact ⟨l :: done, rest, tail, rfl, by rw [hc, unlines_cons]; simp, hjoin, htail⟩

theorem length_part_le {part input : List UInt8} (hpart : newline ∉ part) (hinput : input ≠ [])
    {lines : List (List UInt8)} (h : part ++ input = unlines lines) :
    ∃ l ∈ lines, part.length ≤ l.length := by
  cases lines with
  | nil => exact absurd (List.append_eq_nil_iff.mp h).2 hinput
  | cons l lines =>
    refine ⟨l, List.mem_cons_self, ?_⟩
    obtain ⟨a, rfl, -⟩ | ⟨c, rfl, hrest⟩ :=
      List.append_eq_append_iff.mp (h.trans (unlines_cons l lines))
    · rw [List.length_append]
      omega
    · cases c with
      | nil => rw [List.append_nil]
      | cons d c =>
        obtain ⟨rfl, -⟩ := List.cons.inj hrest
        exact absurd (List.mem_append_right l List.mem_cons_self) hpart

theorem holds_read {mem : Mem} {buf : Addr} {part : List UInt8} (h : Holds mem buf part)
    {piece : List UInt8} (hlen : (part ++ piece).length < BUFSIZE) :
    Holds (update (storeBytes piece (buf.plus part.length) mem)
      (buf.plus (part.length + piece.length)) 0) buf (part ++ piece ++ [0]) := by
  have hsize : BUFSIZE = 1024 := rfl
  rw [List.length_append] at hlen
  have hpart : Holds (storeBytes piece (buf.plus part.length) mem) buf part := by
    refine h.storeBytes fun i hi j hj => ?_
    rw [Addr.plus_plus]
    exact buf.plus_ne (by omega) (by omega) (by omega)
  have htext : Holds (storeBytes piece (buf.plus part.length) mem) buf (part ++ piece) :=
    holds_append.mpr ⟨hpart, holds_storeBytes _ (by omega) mem⟩
  refine holds_append.mpr ⟨htext.update (fun i hi => ?_) 0, ?_, trivial⟩
  · rw [List.length_append] at hi
    exact buf.plus_ne (by omega) (by omega) (by omega)
  · rw [List.length_append]
    exact update_self ..

/-- **The loop of `grep`**, with a part of the next line in the buffer. -/
theorem grepLoop_lines {pattern : List UInt8} {buf : Addr} (hbuf : buf.toNat + BUFSIZE ≤ 2 ^ 64)
    (sizes : Nat → Nat) {lines : List (List UInt8)} (hlines : ∀ l ∈ lines, IsLine l)
    (hlen : ∀ l ∈ lines, l.length + 1 < BUFSIZE) {part input : List UInt8} (hpart : newline ∉ part)
    (hjoin : part ++ input = unlines lines) {fuel : Nat} (hfuel : input.length < fuel) (k : Nat)
    {mem : Mem} (hmem : Holds mem buf part) (output : List UInt8) :
    grepLoop pattern buf sizes fuel k mem part.length input output =
      some (output ++ unlines (lines.filter (matchRe pattern))) := by
  induction fuel generalizing lines part input k mem output with
  | zero => exact absurd hfuel (Nat.not_lt_zero _)
  | succ fuel ih =>
    have hsize : BUFSIZE = 1024 := rfl
    rw [grepLoop]
    dsimp only
    by_cases hinput : input = []
    · -- at the end of the input nothing is left, as a line would have a newline
      obtain rfl : lines = [] := by
        cases lines with
        | nil => rfl
        | cons l lines =>
          rw [hinput, List.append_nil, unlines_cons] at hjoin
          exact absurd (hjoin ▸ List.mem_append_right l List.mem_cons_self) hpart
      simp [hinput, unlines]
    · obtain ⟨l, hl, hle⟩ := length_part_le hpart hinput hjoin
      have hfit := hlen l hl
      have hpos : 0 < input.length := List.length_pos_iff.mpr hinput
      generalize hpiece : input.take (min (sizes k + 1) (BUFSIZE - part.length - 1)) = piece
      have hlenpiece : 0 < piece.length ∧ piece.length ≤ BUFSIZE - part.length - 1 := by
        rw [← hpiece, List.length_take]
        omega
      have htake : piece ++ input.drop piece.length = input :=
        List.prefix_iff_eq_append.mp (hpiece ▸ List.take_prefix _ _)
      have hjoin' : part ++ piece ++ input.drop piece.length = unlines lines := by
        rw [List.append_assoc, htake, hjoin]
      obtain ⟨done, rest, tail, rfl, htext, hrest, htail⟩ := split_lines hlines hjoin'
      have hshort : (part ++ piece).length < BUFSIZE := by
        rw [List.length_append]
        omega
      have hread := holds_read hmem hshort
      obtain ⟨hdone, hrestlines⟩ := List.forall_mem_append.mp hlines
      have hzero : 0 ∉ tail := by
        intro hmem0
        refine zero_not_mem_unlines hlines (hjoin' ▸ List.mem_append_left _ ?_)
        rw [htext]
        exact List.mem_append_right _ hmem0
      rw [htext, List.append_assoc] at hread
      rw [htext] at hshort
      have hrounds : done.length < BUFSIZE := by
        have := length_le_unlines done
        rw [List.length_append] at hshort
        omega
      obtain ⟨mem', hrun, hmem'⟩ := lineLoop_lines hdone ⟨htail, hzero⟩ hrounds hread hshort output
      have hlentext := congrArg List.length htext
      simp only [List.length_append] at hlentext hshort
      have hoff : (buf.plus (unlines done).length - buf).toNat = (unlines done).length :=
        buf.toNat_plus_sub (by omega)
      have hleft : part.length + piece.length - (unlines done).length = tail.length := by omega
      have hsrc : (buf.plus (unlines done).length).toNat + tail.length ≤ 2 ^ 64 := by
        unfold Addr.plus
        bv_omega
      have hdst : buf.toNat + tail.length ≤ 2 ^ 64 := by omega
      have hmove := User.memmove_eq (by omega) hdst hsrc mem'
      rw [if_pos hlenpiece.1, hrun]
      simp only [Option.bind_eq_bind, Option.bind_some]
      rw [if_pos (by omega), hoff, hleft, hmove]
      have hnext := ih hrestlines (fun l hl => hlen l (List.mem_append_right done hl)) htail hrest
        (by rw [List.length_drop]; omega) (k + 1)
        ((holds_append.mp hmem').1.moved buf (by omega))
        (output ++ unlines (done.filter (matchRe pattern)))
      rw [hnext, List.append_assoc, ← unlines_append, List.filter_append]

/-- **`grep` does not see the pieces of its input.**  If every line has its newline and fits into
    the buffer with it, then `grep` writes the lines that match, in their order, however `read`
    divides the input. -/
theorem grep_writes_matching (pattern : List UInt8) (buf : Addr)
    (hbuf : buf.toNat + BUFSIZE ≤ 2 ^ 64) (sizes : Nat → Nat) (mem : Mem)
    (lines : List (List UInt8)) (hlines : ∀ l ∈ lines, newline ∉ l ∧ 0 ∉ l)
    (hlen : ∀ l ∈ lines, l.length + 1 ≤ 1023) :
    grep pattern buf sizes mem (unlines lines) =
      some (unlines (lines.filter (matchRe pattern))) :=
  grepLoop_lines hbuf sizes hlines (fun l hl => Nat.lt_succ_of_le (hlen l hl)) List.not_mem_nil rfl
    (Nat.lt_succ_self _) 0 trivial []

/-- Two lines, of which the second has the letter, read byte by byte. -/
theorem grep_writes_matching_letter :
    grep [98] 4096 (fun _ => 0) (fun _ => 0) (unlines [[97], [97, 98]]) =
      some [97, 98, newline] :=
  (grep_writes_matching [98] 4096 (by decide) (fun _ => 0) (fun _ => 0) [[97], [97, 98]] (by decide)
    (by decide)).trans (by decide)

end Xv6.Grep
