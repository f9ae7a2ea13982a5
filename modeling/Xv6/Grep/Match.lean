import Mathlib.Computability.Language

/-!
# The matcher of `grep`

`match`, `matchhere` and `matchstar` of `grep.c` on strings as lists of characters, where
the end of the list is the terminating NUL. A pattern is read as a list of items, each a
character that is starred or not, between optional anchors; the items denote a language.
`matchText_iff` says that the matcher decides whether the language has a word of the text.
-/

namespace Xv6.Grep

/-- `matchstar`, where `matchhere` is the one for the pattern behind the star. -/
def matchstar (matchhere : List Char → Bool) (c : Char) : List Char → Bool
  | [] => matchhere []
  | t :: text =>
    matchhere (t :: text) || ((t == c || c == '.') && matchstar matchhere c text)

def matchhere : List Char → List Char → Bool
  | [], _ => true
  | c :: '*' :: re, text => matchstar (matchhere re) c text
  | ['$'], text => text.isEmpty
  | _ :: _, [] => false
  | c :: re, t :: text => (c == '.' || c == t) && matchhere re text

/-- The loop of `match`. -/
def search (re : List Char) : List Char → Bool
  | [] => matchhere re []
  | t :: text => matchhere re (t :: text) || search re text

/-- The function `match`. -/
def matchText : List Char → List Char → Bool
  | '^' :: re, text => matchhere re text
  | re, text => search re text

/-! ## The language of a pattern -/

/-- A character of the text fits one of the pattern. -/
def Fits (c t : Char) : Prop := c = '.' ∨ c = t

inductive Item
  | one (c : Char)
  | star (c : Char)

def Item.language : Item → Language Char
  | one c => {s | ∃ t, s = [t] ∧ Fits c t}
  | star c => {s | ∀ t ∈ s, Fits c t}

/-- Whether there is an anchor at the start, and what follows it. -/
def start : List Char → Bool × List Char
  | '^' :: re => (true, re)
  | re => (false, re)

/-- The items of what follows, and whether there is an anchor at the end. -/
def items : List Char → List Item × Bool
  | [] => ([], false)
  | c :: '*' :: re => (.star c :: (items re).1, (items re).2)
  | ['$'] => ([], true)
  | c :: re => (.one c :: (items re).1, (items re).2)

/-- The text is one of the pattern's words and a rest, which is empty if there is an anchor. -/
def Begins (re text : List Char) : Prop :=
  ∃ word rest, text = word ++ rest ∧ word ∈ ((items re).1.map Item.language).prod ∧
    ((items re).2 = true → rest = [])

/-! ## The matcher decides it -/

variable {c : Char} {re text : List Char}

theorem fits_iff {t : Char} : (c == '.' || c == t) = true ↔ Fits c t := by
  simp [Fits]

theorem matchstar_iff (here : List Char → Bool) :
    matchstar here c text = true ↔
      ∃ word rest, text = word ++ rest ∧ (∀ t ∈ word, Fits c t) ∧ here rest = true := by
  induction text with
  | nil =>
    rw [matchstar]
    constructor
    · exact fun found => ⟨[], [], rfl, by simp, found⟩
    · rintro ⟨word, rest, split, -, found⟩
      rwa [(List.append_eq_nil_iff.mp split.symm).2] at found
  | cons t text ih =>
    rw [matchstar, Bool.or_eq_true, Bool.and_eq_true, ih, Bool.or_comm (t == c),
      Bool.beq_comm (a := t),
      fits_iff]
    constructor
    · rintro (found | ⟨fits, word, rest, rfl, all, found⟩)
      · exact ⟨[], _, rfl, by simp, found⟩
      · exact ⟨t :: word, rest, rfl, List.forall_mem_cons.mpr ⟨fits, all⟩, found⟩
    · rintro ⟨word, rest, split, all, found⟩
      cases word with
      | nil => exact .inl (split ▸ found)
      | cons u word =>
        obtain ⟨rfl, rfl⟩ := List.cons.inj split
        obtain ⟨fits, all⟩ := List.forall_mem_cons.mp all
        exact .inr ⟨fits, word, rest, rfl, all, found⟩

theorem matchhere_iff : matchhere re text = true ↔ Begins re text := by
  induction re using items.induct generalizing text with
  | case1 =>
    rw [matchhere]
    exact ⟨fun _ => ⟨[], text, rfl, rfl, nofun⟩, fun _ => rfl⟩
  | case2 c re ih =>
    rw [matchhere, matchstar_iff]
    simp only [ih, Begins, items, List.map_cons, List.prod_cons, Language.mem_mul]
    constructor
    · rintro ⟨first, _, rfl, fits, word, rest, rfl, mem, ends⟩
      exact ⟨first ++ word, rest, by simp, ⟨first, fits, word, mem, rfl⟩, ends⟩
    · rintro ⟨_, rest, rfl, ⟨first, fits, word, mem, rfl⟩, ends⟩
      exact ⟨first, word ++ rest, by simp, fits, word, rest, rfl, mem, ends⟩
  | case3 =>
    rw [matchhere]
    simp [Begins, items]
  | case4 c re plain last ih =>
    have next : Begins (c :: re) text ↔
        ∃ t rest, text = t :: rest ∧ Fits c t ∧ Begins re rest := by
      simp only [Begins, items.eq_4 c re plain last, List.map_cons, List.prod_cons,
        Language.mem_mul]
      constructor
      · rintro ⟨_, rest, rfl, ⟨_, ⟨t, rfl, fits⟩, word, mem, rfl⟩, ends⟩
        exact ⟨t, word ++ rest, rfl, fits, word, rest, rfl, mem, ends⟩
      · rintro ⟨t, _, rfl, fits, word, rest, rfl, mem, ends⟩
        exact ⟨t :: word, rest, rfl, ⟨[t], ⟨t, rfl, fits⟩, word, mem, rfl⟩, ends⟩
    rw [next]
    cases text with
    | nil =>
      rw [matchhere.eq_4 c re plain last]
      simp
    | cons t text =>
      rw [matchhere.eq_5 c re t text plain last, Bool.and_eq_true, fits_iff, ih]
      constructor
      · exact fun found => ⟨t, text, rfl, found⟩
      · rintro ⟨_, _, same, found⟩
        obtain ⟨rfl, rfl⟩ := List.cons.inj same
        exact found

theorem search_iff :
    search re text = true ↔ ∃ skipped rest, text = skipped ++ rest ∧ Begins re rest := by
  induction text with
  | nil =>
    rw [search, matchhere_iff]
    constructor
    · exact fun found => ⟨[], [], rfl, found⟩
    · rintro ⟨skipped, rest, split, found⟩
      rwa [(List.append_eq_nil_iff.mp split.symm).2] at found
  | cons t text ih =>
    rw [search, Bool.or_eq_true, matchhere_iff, ih]
    constructor
    · rintro (found | ⟨skipped, rest, rfl, found⟩)
      · exact ⟨[], _, rfl, found⟩
      · exact ⟨t :: skipped, rest, rfl, found⟩
    · rintro ⟨skipped, rest, split, found⟩
      cases skipped with
      | nil => exact .inl (split ▸ found)
      | cons u skipped =>
        obtain ⟨-, rfl⟩ := List.cons.inj split
        exact .inr ⟨skipped, rest, rfl, found⟩

/-- **The matcher decides its language**: a part of the text is a word of the pattern, with
the text up to it empty if there is an anchor at the start. -/
theorem matchText_iff (re text : List Char) :
    matchText re text = true ↔ ∃ skipped rest, text = skipped ++ rest ∧
      Begins (start re).2 rest ∧ ((start re).1 = true → skipped = []) := by
  unfold matchText start
  split
  · rw [matchhere_iff]
    constructor
    · exact fun found => ⟨[], text, rfl, found, fun _ => rfl⟩
    · rintro ⟨skipped, rest, rfl, found, anchor⟩
      rwa [anchor rfl]
  · simp only [search_iff, Bool.false_eq_true, false_implies, and_true]

end Xv6.Grep
