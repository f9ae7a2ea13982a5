import Xv6.Sh.Parser

/-!
# The words after `nulterminate`

`nulterminate` clears the byte after each word of the tree. That byte is white space, a symbol or
the NUL of the line, so it belongs to no word.
-/

namespace Xv6.Sh

open Cmd

variable {s input mem : List UInt8} {w : Slice} {c : Cmd}

/-- The words of a tree, in the order in which `nulterminate` finds them. -/
def Cmd.slices : Cmd → List Slice
  | .exec argv => argv
  | .redir cmd args => cmd.slices ++ [args.file]
  | .pipe left right => left.slices ++ right.slices
  | .list left right => left.slices ++ right.slices
  | .back cmd => cmd.slices

/-- The string that starts at a pointer. -/
def stringAt (len : Nat) (mem p : List UInt8) : List UInt8 :=
  (mem.drop (len - p.length)).takeWhile (· ≠ 0)

/-- A rest of the line that does not begin inside a word. -/
structure Rest (input s : List UInt8) : Prop where
  inside : s <:+ input
  cut : ∀ before, before ++ s = input → ∀ b ∈ before.getLast?, ∀ c ∈ s.head?,
    plain b = false ∨ plain c = false

namespace Rest

theorem refl (input : List UInt8) : Rest input input := by
  refine ⟨List.suffix_refl _, fun before same b last => ?_⟩
  obtain rfl : before = [] := by simpa using same
  cases last

theorem of_stops (inside : s <:+ input) (stops : ∀ c ∈ s.head?, plain c = false) : Rest input s :=
  ⟨inside, fun _ _ _ _ c head => .inr (stops c head)⟩

theorem tail {b : UInt8} (rest : Rest input (b :: s)) (stop : plain b = false) : Rest input s := by
  refine ⟨(List.suffix_cons b s).trans rest.inside, fun before same c last _ _ => .inl ?_⟩
  obtain ⟨first, whole⟩ := rest.inside
  have split : before = first ++ [b] := (List.append_left_inj s).mp (by simp [same, whole])
  rw [split, List.getLast?_concat] at last
  exact Option.some.inj last ▸ stop

theorem skip (rest : Rest input s) : Rest input (skip s) := by
  induction s with
  | nil => exact rest
  | cons b s ih =>
    by_cases white : whitespace.contains b
    · rw [Sh.skip, List.dropWhile_cons_of_pos white]
      exact ih (rest.tail (by simp only [plain, white]; rfl))
    · rwa [Sh.skip, List.dropWhile_cons_of_neg white]

end Rest

/-- The slice is a word of the line. It is not empty, and cannot be longer on either side. -/
structure Slice.IsWord (input : List UInt8) (w : Slice) : Prop where
  inside : w.q <:+ input
  splits : ∃ text, text ≠ [] ∧ w.q = text ++ w.eq ∧ ∀ c ∈ text, plain c = true
  starts : ∀ before, before ++ w.q = input → ∀ b ∈ before.getLast?, plain b = false
  stops : ∀ c ∈ w.eq.head?, plain c = false

/-- The word that `gettoken` finds ends before a byte that is not plain. -/
theorem isWord_dropWhile {b : UInt8} (rest : Rest input (b :: s)) (first : plain b = true) :
    Slice.IsWord input ⟨b :: s, (b :: s).dropWhile plain⟩ := by
  refine ⟨rest.inside, ⟨(b :: s).takeWhile plain, ?_, ?_, ?_⟩, ?_, ?_⟩
  · simp [first]
  · exact List.takeWhile_append_dropWhile.symm
  · exact List.all_eq_true.mp List.all_takeWhile
  · intro before same c last
    exact (rest.cut before same c last b rfl).resolve_right (by simp [first])
  · intro c head
    have stops := List.head?_dropWhile_not plain (b :: s)
    rw [head] at stops
    simpa using stops

theorem symbol_eq_none {b : UInt8} : symbol b = none ↔ symbols.contains b = false := by
  unfold symbol
  repeat' split
  all_goals simp_all [symbols]

/-! ## Every word of the tree is a word of the line -/

/-- The function stays in the line, and the words that it returns are words of the line. -/
def Keeps {α : Type} (input : List UInt8) (words : α → List Slice)
    (r : Except Stop (α × List UInt8)) : Prop :=
  ∀ a s, r = .ok (a, s) → Rest input s ∧ ∀ w ∈ words a, w.IsWord input

section

variable {α β : Type} {words : α → List Slice}

theorem Keeps.bind {x : Parser α} {f : α → Parser β} {words' : β → List Slice}
    (first : Keeps input words (x s))
    (next : ∀ a s, Rest input s → (∀ w ∈ words a, w.IsWord input) → Keeps input words' (f a s)) :
    Keeps input words' ((x >>= f) s) := by
  show Keeps input words' (Except.bind (x s) _)
  cases run : x s with
  | error why => exact nofun
  | ok r =>
    obtain ⟨inside, known⟩ := first r.1 r.2 run
    exact next r.1 r.2 inside known

theorem Keeps.pure {a : α} (inside : Rest input s) (known : ∀ w ∈ words a, w.IsWord input) :
    Keeps input words ((Pure.pure a : Parser α) s) := by
  intro a' s' same
  cases same
  exact ⟨inside, known⟩

theorem Keeps.stop {why : Stop} : Keeps input words ((throw why : Parser α) s) := nofun

end

theorem keeps_peek {toks : List UInt8} (inside : Rest input s) :
    Keeps input (fun _ => []) (peek toks s) := by
  intro b s' same
  cases same
  exact ⟨inside.skip, nofun⟩

/-- The word that a token is. -/
def Token.words : Option Token → List Slice
  | some (.word w) => [w]
  | _ => []

theorem words_symbol (b : UInt8) : Token.words (symbol b) = [] := by
  unfold symbol
  repeat' split
  all_goals rfl

section

variable (inside : Rest input s)
include inside

theorem keeps_scan : Rest input (scan s).2 ∧ ∀ w ∈ Token.words (scan s).1, w.IsWord input := by
  have skipped := inside.skip
  unfold scan
  cases here : skip s with
  | nil => exact ⟨.of_stops List.nil_suffix nofun, nofun⟩
  | cons b r =>
    rw [here] at skipped
    dsimp only
    cases known : symbol b with
    | some tok =>
      have none := words_symbol b
      have listed : symbols.contains b = true := by
        by_contra other
        rw [symbol_eq_none.mpr (by simpa using other)] at known
        cases known
      have after : Rest input r := skipped.tail (by rw [plain, listed]; exact Bool.and_false _)
      rw [known] at none
      dsimp only
      split
      next double =>
        obtain ⟨r', rfl⟩ := List.head?_eq_some_iff.mp double.2
        exact ⟨after.tail (by decide), nofun⟩
      · exact ⟨after, by simp [none]⟩
    | none =>
      have white : whitespace.contains b = false := by
        have stops := List.head?_dropWhile_not whitespace.contains s
        rwa [← Sh.skip, here] at stops
      have word := isWord_dropWhile skipped
        (by simp only [plain, symbol_eq_none.mp known, white]; rfl)
      refine ⟨.of_stops ((List.dropWhile_suffix _).trans skipped.inside) word.stops, ?_⟩
      intro w member
      rw [List.mem_singleton.mp member]
      exact word

theorem keeps_gettoken : Keeps input Token.words (gettoken s) := by
  intro t s' same
  cases same
  obtain ⟨after, known⟩ := keeps_scan inside
  exact ⟨after.skip, known⟩

theorem keeps_parseredirs {n : Nat} : Keeps input (·.map Redir.file) (parseredirs n s) := by
  induction n generalizing s with
  | zero => exact .stop
  | succ n ih =>
    refine .bind (keeps_peek inside) fun more s inside _ => ?_
    split
    · refine .bind (keeps_gettoken inside) fun tok s inside _ => ?_
      refine .bind (keeps_gettoken inside) fun file s inside word => ?_
      split
      next file =>
        refine .bind (ih inside) fun redirs s inside known => .pure inside fun w member => ?_
        rw [List.map_append, List.mem_append] at member
        rcases member with own | member
        · have same : w = file := by
            unfold redircmd at own
            split at own <;> simp_all
          exact word w (same ▸ List.mem_singleton_self _)
        · exact known w member
      next => exact .stop
    · exact .pure inside nofun

end

theorem Cmd.slices_wrap (c : Cmd) (rs : List Redir) :
    (c.wrap rs).slices = c.slices ++ rs.map Redir.file := by
  induction rs generalizing c with
  | nil => exact (List.append_nil _).symm
  | cons r rs ih =>
    rw [Cmd.wrap, List.foldl_cons, ← Cmd.wrap, ih]
    simp [Cmd.slices]

theorem isWord_append {ws ws' : List Slice} (first : ∀ w ∈ ws, w.IsWord input)
    (second : ∀ w ∈ ws', w.IsWord input) : ∀ w ∈ ws ++ ws', w.IsWord input := by
  intro w member
  exact (List.mem_append.mp member).elim (first w) (second w)

theorem keeps_parseargs {n argc : Nat} (inside : Rest input s) :
    Keeps input (fun r => r.1 ++ r.2.map Redir.file) (parseargs n argc s) := by
  induction n generalizing s argc with
  | zero => exact .stop
  | succ n ih =>
    refine .bind (keeps_peek inside) fun stop s inside _ => ?_
    split
    · exact .pure inside nofun
    · refine .bind (keeps_gettoken inside) fun tok s inside word => ?_
      split
      next => exact .pure inside nofun
      next w =>
        split
        · exact .stop
        · refine .bind (keeps_parseredirs inside) fun redirs s inside known => ?_
          refine .bind (ih inside) fun rest s inside known' => .pure inside fun w member => ?_
          simp only [List.cons_append, List.map_append, List.mem_cons, List.mem_append] at member
          rcases member with rfl | member | member | member
          · exact word w (List.mem_singleton_self _)
          · exact known' w (List.mem_append_left _ member)
          · exact known w member
          · exact known' w (List.mem_append_right _ member)
      next => exact .stop

section

variable {parseline : Parser Cmd}
  (inner : ∀ s, Rest input s → Keeps input Cmd.slices (parseline s))
include inner

theorem keeps_parseexec {n : Nat} (inside : Rest input s) :
    Keeps input slices (parseexec parseline n s) := by
  refine .bind (keeps_peek inside) fun block s inside _ => ?_
  split
  · refine .bind (keeps_peek inside) fun opens s inside _ => ?_
    split
    · refine .bind (keeps_gettoken inside) fun _ s inside _ => ?_
      refine .bind (inner s inside) fun cmd s inside known => ?_
      refine .bind (keeps_peek inside) fun closes s inside _ => ?_
      split
      · refine .bind (keeps_gettoken inside) fun _ s inside _ => ?_
        refine .bind (keeps_parseredirs inside) fun redirs s inside known' => ?_
        exact .pure inside (slices_wrap .. ▸ isWord_append known known')
      · exact .stop
    · exact .stop
  · refine .bind (keeps_parseredirs inside) fun redirs s inside known => ?_
    refine .bind (keeps_parseargs inside) fun rest s inside known' => .pure inside ?_
    rw [slices_wrap, List.map_append]
    intro w member
    simp only [slices, List.mem_append] at member known'
    exact member.elim (fun own => known' w (.inl own))
      fun member => member.elim (known w) fun last => known' w (.inr last)

theorem keeps_parsepipe {n : Nat} (inside : Rest input s) :
    Keeps input slices (parsepipe parseline n s) := by
  induction n generalizing s with
  | zero => exact .stop
  | succ n ih =>
    refine .bind (keeps_parseexec inner inside) fun cmd s inside known => ?_
    refine .bind (keeps_peek inside) fun more s inside _ => ?_
    split
    · refine .bind (keeps_gettoken inside) fun _ s inside _ => ?_
      exact .bind (ih inside) fun right s inside known' => .pure inside (isWord_append known known')
    · exact .pure inside known

end

theorem keeps_parseback {n : Nat} (inside : Rest input s) (known : ∀ w ∈ c.slices, w.IsWord input) :
    Keeps input slices (parseback n c s) := by
  induction n generalizing s c with
  | zero => exact .stop
  | succ n ih =>
    refine .bind (keeps_peek inside) fun more s inside _ => ?_
    split
    · exact .bind (keeps_gettoken inside) fun _ s inside _ => ih (c := .back c) inside known
    · exact .pure inside known

theorem keeps_parseline {n : Nat} (inside : Rest input s) : Keeps input slices (parseline n s) := by
  induction n generalizing s with
  | zero => exact .stop
  | succ n ih =>
    refine .bind (keeps_parsepipe (fun s => ih) inside) fun cmd s inside known => ?_
    refine .bind (keeps_parseback inside known) fun cmd s inside known => ?_
    refine .bind (keeps_peek inside) fun more s inside _ => ?_
    split
    · refine .bind (keeps_gettoken inside) fun _ s inside _ => ?_
      exact .bind (ih inside) fun right s inside known' => .pure inside (isWord_append known known')
    · exact .pure inside known

/-! ## `nulterminate` -/

theorem nulterminate_eq (len : Nat) (c : Cmd) (mem : List UInt8) :
    nulterminate len c mem = c.slices.foldl (fun mem w => clear len mem w.eq) mem := by
  induction c generalizing mem with
  | exec argv => rfl
  | redir c args ih => simp [nulterminate, slices, ih]
  | pipe left right ih ih' => simp [nulterminate, slices, ih, ih']
  | list left right ih ih' => simp [nulterminate, slices, ih, ih']
  | back c ih => exact ih mem

theorem getElem?_foldl_clear (len : Nat) (ws : List Slice) (mem : List UInt8) (i : Nat) :
    (ws.foldl (fun mem w => clear len mem w.eq) mem)[i]? =
      if ∃ w ∈ ws, len - w.eq.length = i then mem[i]?.map fun _ => 0 else mem[i]? := by
  induction ws generalizing mem with
  | nil => simp
  | cons w ws ih =>
    rw [List.foldl_cons, ih, clear, List.getElem?_set']
    by_cases here : len - w.eq.length = i
    · have own : ∃ w' ∈ w :: ws, len - w'.eq.length = i := ⟨w, List.mem_cons_self, here⟩
      rw [if_pos own, if_pos here]
      split
      · cases mem[i]? <;> rfl
      · rfl
    · simp [here]

theorem takeWhile_drop {text : List UInt8} {p : Nat} (free : 0 ∉ text)
    (same : ∀ k < text.length, mem[p + k]? = text[k]?) (stop : mem[p + text.length]? = some 0) :
    (mem.drop p).takeWhile (· ≠ 0) = text := by
  have split : mem.drop p = text ++ mem.drop (p + text.length) := by
    refine List.ext_getElem? fun k => ?_
    by_cases inside : k < text.length
    · rw [List.getElem?_append_left inside, List.getElem?_drop, same k inside]
    · rw [List.getElem?_append_right (by omega), List.getElem?_drop, List.getElem?_drop]
      congr 1
      omega
  obtain ⟨bound, zero⟩ := List.getElem?_eq_some_iff.mp stop
  rw [split, List.drop_eq_getElem_cons bound, zero, List.takeWhile_append_of_pos,
    List.takeWhile_cons_of_neg (by decide), List.append_nil]
  intro b inside
  exact decide_eq_true fun null => free (null ▸ inside)

theorem Slice.IsWord.plain_end (word : w.IsWord input) {b : UInt8}
    (here : input[input.length - w.eq.length]? = some b) : plain b = false := by
  obtain ⟨text, -, split, -⟩ := word.splits
  obtain ⟨before, whole⟩ := word.inside
  refine word.stops b ?_
  have place : input.length - w.eq.length = (before ++ text).length := by
    simp [← whole, split, ← Nat.add_assoc]
  rw [place, ← whole, split, ← List.append_assoc, List.getElem?_append_right (Nat.le_refl _),
    Nat.sub_self, ← List.head?_eq_getElem?] at here
  exact here

theorem parsecmd_ok (accepted : parsecmd input = .ok (c, mem)) :
    (∀ w ∈ c.slices, w.IsWord input) ∧ mem = nulterminate input.length c (input ++ [0]) := by
  unfold parsecmd at accepted
  cases run : parseline (input.length + 1) input with
  | error why =>
    rw [run] at accepted
    cases accepted
  | ok r =>
    obtain ⟨c', s⟩ := r
    rw [run] at accepted
    change (if skip s ≠ [] then _ else _) = _ at accepted
    split at accepted
    · cases accepted
    · cases accepted
      exact ⟨(keeps_parseline (.refl _) _ _ run).2, rfl⟩

/-- **Each word of the tree is read back** as it stood in the line. -/
theorem words_survive {input mem : List UInt8} (nul : 0 ∉ input) {c : Cmd}
    (accepted : parsecmd input = .ok (c, mem)) :
    ∀ w ∈ c.slices, w.IsWord input ∧ stringAt input.length mem w.q = w.text := by
  obtain ⟨words, rfl⟩ := parsecmd_ok accepted
  intro w member
  refine ⟨words w member, ?_⟩
  obtain ⟨text, -, split, plains⟩ := (words w member).splits
  obtain ⟨before, whole⟩ := (words w member).inside
  have text_eq : w.text = text := by simp [Slice.text, split]
  have start : input.length - w.q.length = before.length := by simp [← whole]
  rw [text_eq, stringAt, start]
  refine takeWhile_drop ?_ ?_ ?_
  · intro inside
    apply nul
    rw [← whole, split]
    simp [inside]
  · intro k inside
    have byte : input[before.length + k]? = text[k]? := by
      rw [← whole, split, List.getElem?_append_right (Nat.le_add_right ..), Nat.add_sub_cancel_left,
        List.getElem?_append_left inside]
    have bound : before.length + k < input.length := by
      rw [← whole, split, List.length_append, List.length_append]
      omega
    rw [nulterminate_eq, getElem?_foldl_clear, if_neg, List.getElem?_append_left bound, byte]
    rintro ⟨w', member', same⟩
    rw [← same] at byte
    rw [List.getElem?_eq_getElem inside] at byte
    have := (words w' member').plain_end byte
    rw [plains _ (List.getElem_mem inside)] at this
    cases this
  · have place : input.length - w.eq.length = before.length + text.length := by
      simp [← whole, split, ← Nat.add_assoc]
    have bound : before.length + text.length < (input ++ [0]).length := by
      rw [List.length_append, List.length_singleton, ← place]
      omega
    rw [nulterminate_eq, getElem?_foldl_clear, if_pos ⟨w, member, place⟩,
      List.getElem?_eq_getElem bound]
    rfl

/-- In `a>b` the symbol is cleared. -/
theorem words_survive_redirect : ∃ c, parsecmd [97, 62, 98] = .ok (c, [97, 0, 98, 0]) ∧
      c.slices = [⟨[97, 62, 98], [62, 98]⟩, ⟨[98], []⟩] ∧
      ∀ w ∈ c.slices, w.IsWord [97, 62, 98] ∧ stringAt 3 [97, 0, 98, 0] w.q = w.text :=
  ⟨_, rfl, rfl, words_survive (by decide) rfl⟩

end Xv6.Sh
