import Xv6.Grep.Match

/-!
# The lines that `grep` writes

The loop of `grep.c` with its buffer of 1024 bytes, for every way in which `read` splits
the file. A line that does not fit with its newline into 1023 bytes fills the buffer;
`read` is then called with size 0 and the loop ends.
-/

namespace Xv6.Grep

/-- The inner loop, from `p`, when it has looked at some characters of the line: what it
writes, and what is left behind the last newline. -/
def scan (pattern : List Char) : List Char → List Char → List Char × List Char
  | line, [] => ([], line)
  | line, c :: text =>
    if c = '\n' then
      let (out, tail) := scan pattern [] text
      ((if matchText pattern line then line ++ ['\n'] else []) ++ out, tail)
    else
      scan pattern (line ++ [c]) text

/-- The outer loop: `buf` is what the buffer holds, and `rest` what was not read. `read` returns
as many bytes as it likes, but one if it can. -/
def grep (pattern : List Char) (likes : Nat → Nat) (buf rest : List Char) : List Char :=
  let n := min (min (likes rest.length + 1) (1024 - buf.length - 1)) rest.length
  if n = 0 then
    []
  else
    let (out, tail) := scan pattern [] (buf ++ rest.take n)
    out ++ grep pattern likes tail (rest.drop n)
termination_by rest.length
decreasing_by
  rw [List.length_drop]
  omega

/-- A line without its newline. -/
abbrev Line := { line : List Char // '\n' ∉ line }

def file (lines : List Line) : List Char := lines.flatMap (·.val ++ ['\n'])

/-- The lines on which the pattern matches. -/
def report (pattern : List Char) (lines : List Line) : List Char :=
  file (lines.filter (matchText pattern ·.val))

/-- The line fits into the buffer. -/
def Line.short (line : Line) : Bool := line.val.length < 1023

variable {pattern : List Char} {lines : List Line}

theorem scan_spec (line : Line) (text : List Char) : ∃ (done : List Line) (tail : Line),
    line.val ++ text = file done ++ tail.val ∧
      scan pattern line.val text = (report pattern done, tail.val) := by
  induction text generalizing line with
  | nil => exact ⟨[], line, by simp [file], by simp [scan, report, file]⟩
  | cons c text ih =>
    rw [scan]
    split
    · next newline =>
        obtain ⟨done, tail, split, scanned⟩ := ih ⟨[], by simp⟩
        refine ⟨line :: done, tail, ?_, ?_⟩
        · rw [newline, show text = file done ++ tail.val from split]
          simp [file]
        · rw [show scan pattern [] text = _ from scanned]
          by_cases found : matchText pattern line.val = true <;> simp [report, file, found]
    · next other =>
        obtain ⟨done, tail, split, scanned⟩ := ih ⟨line.val ++ [c], by simp [line.2, Ne.symm other]⟩
        exact ⟨done, tail, by simpa using split, scanned⟩

@[simp] theorem file_cons (line : Line) :
    file (line :: lines) = line.val ++ '\n' :: file lines := by
  simp [file]

/-- Characters before the first newline belong to the first line. -/
theorem line_begins {buf line : Line} {rest later : List Char}
    (same : line.val ++ '\n' :: later = buf.val ++ rest) :
    ∃ more, line.val = buf.val ++ more ∧ rest = more ++ '\n' :: later := by
  rcases List.append_eq_append_iff.mp same with ⟨beyond, inside, split⟩ | found
  · cases beyond with
    | nil => exact ⟨[], by simpa using inside.symm, split.symm⟩
    | cons c beyond =>
      obtain ⟨rfl, -⟩ := List.cons.inj split
      exact absurd (inside ▸ by simp) buf.2
  · exact found

/-- Lines at the start of a file are lines of the file. -/
theorem file_split {done : List Line} {rest : List Char} (same : file done ++ rest = file lines) :
    ∃ later, lines = done ++ later ∧ rest = file later := by
  induction done generalizing lines with
  | nil => exact ⟨lines, rfl, same⟩
  | cons line done ih =>
    cases lines with
    | nil => simp [file] at same
    | cons first lines =>
      rw [file_cons, file_cons, List.append_assoc, List.cons_append] at same
      obtain ⟨more, begins, split⟩ := line_begins same.symm
      cases more with
      | nil =>
        obtain ⟨later, rfl, rest⟩ := ih (List.cons.inj split).2
        obtain rfl : first = line := Subtype.ext (by simpa using begins)
        exact ⟨later, rfl, rest⟩
      | cons c more =>
        obtain ⟨rfl, -⟩ := List.cons.inj split
        exact absurd (begins ▸ by simp) first.2

theorem length_lt_file {line : Line} (mem : line ∈ lines) :
    line.val.length < (file lines).length := by
  have bytes : line.val ++ ['\n'] ∈ lines.map (·.val ++ ['\n']) := List.mem_map_of_mem mem
  have := (List.sublist_flatten_of_mem bytes).length_le
  rw [List.length_append, List.length_singleton] at this
  exact this

/-- The buffer ends within the first line that was not reported. -/
theorem grep_eq_of_split (likes : Nat → Nat) (buf : Line) {rest : List Char}
    (small : buf.val.length ≤ 1023) (same : buf.val ++ rest = file lines) :
    grep pattern likes buf.val rest = report pattern (lines.takeWhile Line.short) := by
  induction size : rest.length using Nat.strong_induction_on generalizing buf rest lines with
  | _ size ih =>
    rw [grep]
    split
    · next stops =>
        cases lines with
        | nil => rfl
        | cons line lines =>
          obtain ⟨more, begins, split⟩ := line_begins ((file_cons line).symm.trans same.symm)
          have full : ¬ Line.short line = true := by
            rw [split, List.length_append, List.length_cons] at stops
            rw [Line.short, begins, List.length_append, decide_eq_true_eq]
            omega
          rw [List.takeWhile_cons_of_neg full]
          rfl
    · next reads =>
        generalize count : min (min (likes rest.length + 1)
          (1024 - buf.val.length - 1)) rest.length = n
          at reads
        obtain ⟨done, tail, split, scanned⟩ := scan_spec ⟨[], by simp⟩ (buf.val ++ rest.take n)
        have whole : file done ++ (tail.val ++ rest.drop n) = file lines := by
          rw [← List.append_assoc, ← split, ← same, List.nil_append, List.append_assoc,
            List.take_append_drop]
        obtain ⟨later, rfl, left⟩ := file_split whole
        have length := congrArg List.length split
        simp only [List.nil_append, List.length_append, List.length_take] at length
        have short : ∀ line ∈ done, Line.short line = true := by
          intro line mem
          have := length_lt_file mem
          rw [Line.short, decide_eq_true_eq]
          omega
        rw [show scan pattern [] _ = _ from scanned, List.takeWhile_append_of_pos short]
        simp only [report, List.filter_append, file, List.flatMap_append]
        rw [List.append_cancel_left_eq]
        exact ih _ (by rw [List.length_drop]; omega) tail (by omega) left rfl

/-- **`grep` reports the matching lines before the first that does not fit**, whatever the
sizes that `read` returns. -/
theorem grep_eq (likes : Nat → Nat) (lines : List Line) :
    grep pattern likes [] (file lines) = report pattern (lines.takeWhile Line.short) :=
  grep_eq_of_split likes ⟨[], by simp⟩ (by simp) rfl

/-- **`grep` reports every matching line if and only if no line matches from the first one
on that does not fit.** -/
theorem grep_reports_iff (pattern : List Char) (likes : Nat → Nat) (lines : List Line) :
    grep pattern likes [] (file lines) = report pattern lines ↔
      ∀ line ∈ lines.dropWhile Line.short, matchText pattern line.val = false := by
  have parts : report pattern lines = report pattern (lines.takeWhile Line.short) ++
      report pattern (lines.dropWhile Line.short) := by
    rw [report, report, report, file, file, file, ← List.flatMap_append, ← List.filter_append,
      List.takeWhile_append_dropWhile]
  rw [grep_eq, parts, List.self_eq_append_right, report, file, List.flatMap_eq_nil_iff]
  simp

/-- A matching line of 1023 characters is lost. -/
theorem grep_loses_line : ∃ line : Line, line.val.length = 1023 ∧
    matchText ['a'] line.val = true ∧ grep ['a'] (fun _ => 100) [] (file [line]) = [] := by
  have matched : ∀ text, matchText ['a'] ('a' :: text) = true := by
    intro text
    simp [matchText, search, matchhere]
  obtain ⟨line, is⟩ : ∃ line : Line, line.val = List.replicate 1023 'a' :=
    ⟨⟨List.replicate 1023 'a', fun mem => absurd (List.eq_of_mem_replicate mem) (by decide)⟩, rfl⟩
  have length : line.val.length = 1023 := by rw [is, List.length_replicate]
  refine ⟨line, length, is ▸ matched _, ?_⟩
  rw [grep_eq, List.takeWhile_cons_of_neg (by simp [Line.short, length])]
  rfl

end Xv6.Grep
