import Mathlib.Computability.Language

/-!
# The matcher of `grep`

`match`, `matchhere` and `matchstar` of `user/grep.c`, on C strings without their terminating NUL,
and the regular expressions that they decide.
-/

namespace Xv6.Grep

open Computability

def star : UInt8 := 42

def dot : UInt8 := 46

def dollar : UInt8 := 36

def caret : UInt8 := 94

/-- The byte `c` of a pattern accepts the byte `t` of a text: `c == '.' || t == c`. -/
def accepts (c t : UInt8) : Bool := c = dot || t = c

/-! ### The program -/

/-- `matchstar(c, re, text)`, where `here` is `matchhere(re, ·)`. -/
def matchstar (c : UInt8) (here : List UInt8 → Bool) : List UInt8 → Bool
  | [] => here []
  | t :: text => here (t :: text) || (accepts c t && matchstar c here text)

/-- The end of `matchhere`: one byte of the text, then `here`. -/
def matchone (c : UInt8) (here : List UInt8 → Bool) : List UInt8 → Bool
  | [] => false
  | t :: text => accepts c t && here text

/-- Search for `re` at the beginning of `text`. -/
def matchhere : List UInt8 → List UInt8 → Bool
  | [], _ => true
  | [c], text => if c = dollar then text.isEmpty else matchone c (matchhere []) text
  | c :: d :: re, text =>
    if d = star then matchstar c (matchhere re) text else matchone c (matchhere (d :: re)) text

/-- The loop of `match`, which looks at the empty string too. -/
def matchloop (here : List UInt8 → Bool) : List UInt8 → Bool
  | [] => here []
  | t :: text => here (t :: text) || matchloop here text

/-- `match(re, text)` -/
def matchRe : List UInt8 → List UInt8 → Bool
  | [], text => matchloop (matchhere []) text
  | c :: re, text => if c = caret then matchhere re text else matchloop (matchhere (c :: re)) text

/-! ### Regular expressions -/

/-- A byte of the pattern, or one that is repeated. -/
inductive Item where
  | one (c : UInt8)
  | star (c : UInt8)
deriving DecidableEq, Repr

/-- What a byte of a pattern matches. -/
def byteLang (c : UInt8) : Language UInt8 := { x | ∃ t, accepts c t = true ∧ x = [t] }

def Item.lang : Item → Language UInt8
  | .one c => byteLang c
  | .star c => (byteLang c)∗

/-- The language of a sequence of items. -/
def lang (items : List Item) : Language UInt8 := (items.map Item.lang).prod

/-- Read items: each is a byte, and the `'*'` behind it if there is one.  A `'$'` that is the last
    byte is no item. -/
def readItems : List UInt8 → List Item × Bool
  | [] => ([], false)
  | [c] => if c = dollar then ([], true) else ([.one c], false)
  | c :: d :: re =>
    if d = star then (.star c :: (readItems re).1, (readItems re).2)
    else (.one c :: (readItems (d :: re)).1, (readItems (d :: re)).2)

/-- A pattern: whether it begins with `'^'`, its items, whether it ends with `'$'`. -/
structure Pattern where
  begins : Bool
  items : List Item
  ends : Bool
deriving DecidableEq, Repr

def readPattern : List UInt8 → Pattern
  | [] => ⟨false, [], false⟩
  | c :: re =>
    if c = caret then ⟨true, (readItems re).1, (readItems re).2⟩
    else ⟨false, (readItems (c :: re)).1, (readItems (c :: re)).2⟩

/-- Some substring of the text is in the language of the items, where `'^'` and `'$'` allow it. -/
def Pattern.Matches (p : Pattern) (text : List UInt8) : Prop :=
  ∃ before found after, text = before ++ found ++ after ∧ found ∈ lang p.items ∧
    (p.begins = true → before = []) ∧ (p.ends = true → after = [])

/-! ### The matcher decides the language -/

theorem lang_nil {x : List UInt8} : x ∈ lang [] ↔ x = [] := Language.mem_one x

theorem lang_cons {i : Item} {items : List Item} {x : List UInt8} :
    x ∈ lang (i :: items) ↔ ∃ a ∈ i.lang, ∃ b ∈ lang items, a ++ b = x := by
  rw [lang, List.map_cons, List.prod_cons, Language.mem_mul]
  rfl

theorem mem_kstar_byteLang {c : UInt8} {x : List UInt8} :
    x ∈ (byteLang c)∗ ↔ ∀ t ∈ x, accepts c t = true := by
  rw [Language.mem_kstar]
  constructor
  · rintro ⟨pieces, rfl, hpieces⟩ t ht
    obtain ⟨y, hy, hty⟩ := List.mem_flatten.mp ht
    obtain ⟨u, hu, rfl⟩ := hpieces y hy
    rw [List.mem_singleton.mp hty]
    exact hu
  · intro h
    refine ⟨x.map fun t => [t], (List.flatMap_singleton' x).symm, fun y hy => ?_⟩
    obtain ⟨t, ht, rfl⟩ := List.mem_map.mp hy
    exact ⟨t, h t ht, rfl⟩

theorem matchstar_iff {c : UInt8} {here : List UInt8 → Bool} {text : List UInt8} :
    matchstar c here text = true ↔
      ∃ a b, text = a ++ b ∧ (∀ t ∈ a, accepts c t = true) ∧ here b = true := by
  induction text with
  | nil => simp [matchstar]
  | cons t text ih =>
    rw [matchstar, Bool.or_eq_true, Bool.and_eq_true, ih]
    constructor
    · rintro (hhere | ⟨ht, a, b, rfl, ha, hb⟩)
      · exact ⟨[], t :: text, rfl, nofun, hhere⟩
      · exact ⟨t :: a, b, rfl, List.forall_mem_cons.mpr ⟨ht, ha⟩, hb⟩
    · rintro ⟨a, b, heq, ha, hb⟩
      cases a with
      | nil => exact Or.inl (heq ▸ hb)
      | cons u a =>
        obtain ⟨rfl, rfl⟩ := List.cons.inj heq
        obtain ⟨hu, ha⟩ := List.forall_mem_cons.mp ha
        exact Or.inr ⟨hu, a, b, rfl, ha, hb⟩

theorem matchone_iff {c : UInt8} {here : List UInt8 → Bool} {text : List UInt8} :
    matchone c here text = true ↔ ∃ a ∈ byteLang c, ∃ b, text = a ++ b ∧ here b = true := by
  cases text with
  | nil =>
    simp only [matchone, Bool.false_eq_true, false_iff]
    rintro ⟨a, ⟨t, -, rfl⟩, b, heq, -⟩
    exact nomatch heq
  | cons t text =>
    rw [matchone, Bool.and_eq_true]
    constructor
    · rintro ⟨ht, hhere⟩
      exact ⟨[t], ⟨t, ht, rfl⟩, text, rfl, hhere⟩
    · rintro ⟨a, ⟨u, hu, rfl⟩, b, heq, hb⟩
      obtain ⟨rfl, rfl⟩ := List.cons.inj heq
      exact ⟨hu, hb⟩

theorem matchloop_iff {here : List UInt8 → Bool} {text : List UInt8} :
    matchloop here text = true ↔ ∃ a b, text = a ++ b ∧ here b = true := by
  induction text with
  | nil => simp [matchloop]
  | cons t text ih =>
    rw [matchloop, Bool.or_eq_true, ih]
    constructor
    · rintro (hhere | ⟨a, b, rfl, hb⟩)
      · exact ⟨[], t :: text, rfl, hhere⟩
      · exact ⟨t :: a, b, rfl, hb⟩
    · rintro ⟨a, b, heq, hb⟩
      cases a with
      | nil => exact Or.inl (heq ▸ hb)
      | cons u a =>
        obtain ⟨rfl, rfl⟩ := List.cons.inj heq
        exact Or.inr ⟨a, b, rfl, hb⟩

/-- A text of which the items match a beginning, or the whole if a `'$'` follows them. -/
def MatchesHere (items : List Item × Bool) (text : List UInt8) : Prop :=
  ∃ found after, text = found ++ after ∧ found ∈ lang items.1 ∧ (items.2 = true → after = [])

theorem matchesHere_cons {i : Item} {items : List Item} {ends : Bool} {text : List UInt8} :
    MatchesHere (i :: items, ends) text ↔
      ∃ a ∈ i.lang, ∃ rest, text = a ++ rest ∧ MatchesHere (items, ends) rest := by
  constructor
  · rintro ⟨found, after, rfl, hfound, hend⟩
    obtain ⟨a, ha, b, hb, rfl⟩ := lang_cons.mp hfound
    exact ⟨a, ha, b ++ after, List.append_assoc .., b, after, rfl, hb, hend⟩
  · rintro ⟨a, ha, rest, rfl, found, after, rfl, hfound, hend⟩
    exact ⟨a ++ found, after, (List.append_assoc ..).symm, lang_cons.mpr ⟨a, ha, found, hfound, rfl⟩,
      hend⟩

theorem matchesHere_nil {text : List UInt8} : MatchesHere ([], false) text :=
  ⟨[], text, rfl, lang_nil.mpr rfl, nofun⟩

/-- **`matchhere`**, by the recursion that reads the pattern. -/
theorem matchhere_iff : ∀ re text : List UInt8,
    matchhere re text = true ↔ MatchesHere (readItems re) text
  | [], text => by simp [matchhere, readItems, matchesHere_nil]
  | [c], text => by
    rw [matchhere, readItems]
    split
    · -- a `'$'` matches the empty string at the end of the text
      rw [List.isEmpty_iff]
      constructor
      · rintro rfl
        exact ⟨[], [], rfl, lang_nil.mpr rfl, fun _ => rfl⟩
      · rintro ⟨found, after, rfl, hfound, hend⟩
        rw [lang_nil.mp hfound, hend rfl]
        rfl
    · rw [matchone_iff, matchesHere_cons]
      simp [Item.lang, matchhere, matchesHere_nil]
  | c :: d :: re, text => by
    have hrest := matchhere_iff re
    have hnext := matchhere_iff (d :: re)
    rw [matchhere, readItems]
    split
    · rw [matchstar_iff, matchesHere_cons]
      constructor
      · rintro ⟨a, b, rfl, ha, hb⟩
        exact ⟨a, mem_kstar_byteLang.mpr ha, b, rfl, (hrest b).mp hb⟩
      · rintro ⟨a, ha, b, rfl, hb⟩
        exact ⟨a, b, rfl, mem_kstar_byteLang.mp ha, (hrest b).mpr hb⟩
    · rw [matchone_iff, matchesHere_cons]
      simp only [hnext]
      rfl

/-- **`match` decides the regular expression**: it returns 1 exactly if the language of the
    pattern's items has a substring of the text, at its beginning for a pattern with `'^'` and at
    its end for one with `'$'`. -/
theorem match_decides (re text : List UInt8) :
    matchRe re text = true ↔ (readPattern re).Matches text := by
  have hsearch : ∀ re, matchloop (matchhere re) text = true ↔
      (⟨false, (readItems re).1, (readItems re).2⟩ : Pattern).Matches text := by
    intro re
    rw [matchloop_iff]
    constructor
    · rintro ⟨before, b, rfl, hb⟩
      obtain ⟨found, after, rfl, hfound, hend⟩ := (matchhere_iff re b).mp hb
      exact ⟨before, found, after, (List.append_assoc ..).symm, hfound, nofun, hend⟩
    · rintro ⟨before, found, after, rfl, hfound, -, hend⟩
      exact ⟨before, found ++ after, List.append_assoc ..,
        (matchhere_iff re _).mpr ⟨found, after, rfl, hfound, hend⟩⟩
  cases re with
  | nil => exact hsearch []
  | cons c re =>
    rw [matchRe, readPattern]
    split
    · rw [matchhere_iff]
      constructor
      · rintro ⟨found, after, rfl, hfound, hend⟩
        exact ⟨[], found, after, rfl, hfound, fun _ => rfl, hend⟩
      · rintro ⟨before, found, after, rfl, hfound, hbegin, hend⟩
        rw [hbegin rfl]
        exact ⟨found, after, rfl, hfound, hend⟩
    · exact hsearch (c :: re)

-- "^a*.$": the `'*'` repeats the `a`, and `'^'` and `'$'` are no items
example : readPattern [caret, 97, star, dot, dollar] = ⟨true, [.star 97, .one dot], true⟩ := rfl

-- a `'*'` behind nothing, or behind another one that repeats, is a byte
example : readPattern [caret, star, 97, star, star] = ⟨true, [.one star, .star 97, .one star], false⟩ :=
  rfl

end Xv6.Grep
