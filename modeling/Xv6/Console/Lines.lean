import Xv6.Console.Basic

/-!
# The line discipline of the console

The buffer is a ring in the sense of `Xv6.Lib.Ring`: its characters are those that wait
in the terminal, and `cons.w` is where the line begins that can still be edited.
-/

namespace Xv6.Console

open List (append_assoc append_nil length_append not_mem_nil)

open Terminal

open Result

open State

variable {m : Nat} {s t : State m} {cons : Cons} {terminal : Terminal} {c : UInt8} {p : Fin m}

theorem INPUT_BUF_SIZE_dvd : INPUT_BUF_SIZE ∣ 2 ^ 32 := by decide

theorem INPUT_BUF_SIZE_lt : INPUT_BUF_SIZE < 2 ^ 32 := by decide

/-- The buffer holds what waits in the terminal, and `cons.w` parts the two. -/
structure Refines (cons : Cons) (terminal : Terminal) : Prop where
  taken_le : terminal.taken ≤ terminal.stream.length
  holds : cons.ring.Holds terminal.pending
  mark : cons.w = cons.r + BitVec.ofNat 32 (terminal.stream.drop terminal.taken).length
  editing : newline ∉ terminal.line -- a newline ends the line

namespace Refines

section

variable (refines : Refines cons terminal)
include refines

theorem pending_le : terminal.pending.length ≤ INPUT_BUF_SIZE := refines.holds.length_le

theorem toNat_used : (cons.e - cons.r).toNat = terminal.pending.length :=
  refines.holds.toNat_sub INPUT_BUF_SIZE_lt

theorem toNat_committed :
    (cons.w - cons.r).toNat = (terminal.stream.drop terminal.taken).length := by
  have bound := refines.pending_le
  have small := INPUT_BUF_SIZE_lt
  rw [refines.mark, BitVec.add_comm, BitVec.add_sub_cancel, BitVec.toNat_ofNat]
  refine Nat.mod_eq_of_lt ?_
  rw [pending, length_append] at bound
  omega

theorem end_eq : cons.e = cons.w + BitVec.ofNat 32 terminal.line.length := by
  have count := refines.holds.count
  rw [pending, length_append, BitVec.ofNat_add, ← BitVec.add_assoc] at count
  rw [refines.mark]
  exact count

theorem line_nil_iff : cons.e = cons.w ↔ terminal.line = [] := by
  have bound := refines.pending_le
  have small := INPUT_BUF_SIZE_lt
  rw [pending, length_append] at bound
  rw [refines.end_eq]
  constructor
  · intro same
    have zero : BitVec.ofNat 32 terminal.line.length = 0#32 := by simpa using same
    have value := congrArg BitVec.toNat zero
    rw [BitVec.toNat_ofNat, Nat.mod_eq_of_lt (by omega)] at value
    exact List.eq_nil_of_length_eq_zero value
  · intro empty
    simp [empty]

theorem toNat_line : (cons.e - cons.w).toNat = terminal.line.length := by
  have bound := refines.pending_le
  have small := INPUT_BUF_SIZE_lt
  rw [pending, length_append] at bound
  rw [refines.end_eq, BitVec.add_comm, BitVec.add_sub_cancel, BitVec.toNat_ofNat,
    Nat.mod_eq_of_lt (by omega)]

theorem room_iff :
    cons.e - cons.r < BitVec.ofNat 32 INPUT_BUF_SIZE ↔
      terminal.pending.length < INPUT_BUF_SIZE := by
  rw [BitVec.lt_def, refines.toNat_used]
  rfl

theorem empty_iff : cons.r = cons.w ↔ terminal.taken = terminal.stream.length := by
  have count := refines.toNat_committed
  have bound := refines.taken_le
  rw [List.length_drop] at count
  constructor
  · intro same
    rw [same, BitVec.sub_self, BitVec.toNat_zero] at count
    omega
  · intro all
    have mark := refines.mark
    rw [List.length_drop, all, Nat.sub_self] at mark
    simpa using mark.symm

theorem erase {line : List UInt8} (shape : terminal.line = line ++ [c]) :
    cons.ring.last = c ∧ Refines cons.erase { terminal with line := line } := by
  have holds := refines.holds
  rw [pending, shape, ← append_assoc] at holds
  obtain ⟨last, less⟩ := holds.unpush
  refine ⟨last, refines.taken_le, less, refines.mark, fun inside => ?_⟩
  exact refines.editing (by rw [shape]; exact List.mem_append_left _ inside)

theorem killLine {k : Nat} (length : terminal.line.length = k) :
    Refines (Cons.killLine k cons) { terminal with line := [] } := by
  induction k generalizing cons terminal with
  | zero =>
    obtain ⟨stream, line, taken⟩ := terminal
    obtain rfl : line = [] := List.eq_nil_of_length_eq_zero length
    exact refines
  | succ k ih =>
    have nonempty : terminal.line ≠ [] := by
      intro empty
      rw [empty] at length
      cases length
    have shape := (List.dropLast_append_getLast nonempty).symm
    obtain ⟨last, erased⟩ := refines.erase shape
    have more : cons.e ≠ cons.w ∧ cons.ring.last ≠ newline := by
      refine ⟨mt refines.line_nil_iff.mp nonempty, ?_⟩
      rw [last]
      intro same
      exact refines.editing (same ▸ List.getLast_mem nonempty)
    rw [Cons.killLine, if_pos more]
    have rest := ih erased (by simp [length])
    exact rest

theorem store (room : terminal.pending.length < INPUT_BUF_SIZE)
    (c : UInt8) : Refines (cons.store c) (terminal.accept c) := by
  have holds := refines.holds.push INPUT_BUF_SIZE_dvd room c
  have used : ((cons.ring.push c).nwrite - (cons.ring.push c).nread).toNat =
      terminal.pending.length + 1 := by
    rw [holds.toNat_sub INPUT_BUF_SIZE_lt]
    simp
  have full : (cons.ring.push c).nwrite - (cons.ring.push c).nread =
      BitVec.ofNat 32 INPUT_BUF_SIZE ↔ terminal.pending.length + 1 = INPUT_BUF_SIZE := by
    rw [← used, ← BitVec.toNat_inj]
    rfl
  rw [Terminal.pending, append_assoc] at holds
  unfold Cons.store accept
  simp only [Cons.e, Cons.r, full]
  split
  · -- the line is committed, with its last character
    have pending : terminal.stream.drop terminal.taken ++ (terminal.line ++ [c]) =
        (terminal.stream ++ (terminal.line ++ [c])).drop terminal.taken := by
      rw [List.drop_append_of_le_length refines.taken_le]
    refine ⟨?_, ?_, ?_, not_mem_nil⟩
    · rw [length_append]
      exact refines.taken_le.trans (Nat.le_add_right ..)
    · rw [Terminal.pending, append_nil, ← pending]
      exact holds
    · rw [← pending]
      exact holds.count
  next open_ =>
    refine ⟨refines.taken_le, holds, refines.mark, ?_⟩
    rw [List.mem_append, List.mem_singleton]
    rintro (inside | rfl)
    · exact refines.editing inside
    · exact open_ (.inl rfl)

/-- **A typed character does to the buffer what it does to the terminal.** -/
theorem consoleintr (c : UInt8) : Refines (cons.consoleintr c) (terminal.type c) := by
  unfold Cons.consoleintr type
  split
  · exact refines
  · split
    · exact refines.killLine refines.toNat_line.symm
    · split
      · split
        next more =>
          have nonempty := mt refines.line_nil_iff.mpr more
          exact (refines.erase (List.dropLast_append_getLast nonempty).symm).2
        next none =>
          have empty := refines.line_nil_iff.mp (not_not.mp none)
          obtain ⟨stream, line, taken⟩ := terminal
          obtain rfl : line = [] := empty
          exact refines
      · simp only [refines.room_iff]
        split
        next fits => exact refines.store fits.2 _
        · exact refines

theorem take (more : cons.r ≠ cons.w) : terminal.stream[terminal.taken]? = some cons.ring.front ∧
      Refines { cons with ring := cons.ring.pop }
        { terminal with taken := terminal.taken + 1 } := by
  have bound : terminal.taken < terminal.stream.length :=
    lt_of_le_of_ne refines.taken_le (mt refines.empty_iff.mpr more)
  have holds := refines.holds
  rw [pending, List.drop_eq_getElem_cons bound, List.cons_append] at holds
  obtain ⟨front, rest⟩ := holds.pop
  refine ⟨by rw [front, List.getElem?_eq_getElem bound], bound, rest, ?_, refines.editing⟩
  rw [refines.mark, List.drop_eq_getElem_cons bound, List.length_cons]
  exact (Ring.succ_add_ofNat _ _).symm

end

end Refines

theorem Terminal.take_type (terminal : Terminal) (bound : terminal.taken ≤ terminal.stream.length)
    (c : UInt8) : (terminal.type c).stream.take (terminal.type c).taken =
      terminal.stream.take terminal.taken := by
  unfold Terminal.type Terminal.accept
  repeat' split
  all_goals first
    | rfl
    | exact List.take_append_of_le_length bound

/-! ## Readers -/

/-- The characters of the stream that a call of `consoleread` stands for: its bytes, or the
^D that made it return none. -/
def Result.chars (result : Result) : List UInt8 :=
  if result.bytes = [] ∧ result.killed = false then [ctrlD] else result.bytes

/-- A call that has returned no bytes at an end-of-file. -/
def Result.isEof (result : Result) : Bool := result.bytes.isEmpty && !result.killed

/-- What a call of `consoleread` has so far. -/
structure Reader.Fits (reader : Reader) : Prop where
  count : reader.got.length + reader.n = reader.target
  positive : 0 < reader.target
  plain : newline ∉ reader.got

/-- What a call of `consoleread` returns: at most one line, and not more than it asked for. -/
structure Result.Fits (result : Result) : Prop where
  length_le : result.bytes.length ≤ result.target
  oneLine : newline ∉ result.bytes.dropLast

/-- The bytes of the calls that are not over. -/
def State.current (s : State m) (p : Fin m) : List UInt8 := (s.reader p).elim [] Reader.got

/-- How the reads follow from the stream. -/
structure Delivers (s : State m) : Prop where
  refines : Refines s.cons s.terminal
  readers : ∀ p reader, s.reader p = some reader → reader.Fits
  results : ∀ result ∈ s.finished, result.Fits
  -- the bytes that were copied are those of the stream, but for ^D
  delivered : s.delivered = (s.terminal.stream.take s.terminal.taken).filter (· ≠ ctrlD)
  -- each ^D is one read without bytes
  eofs : s.finished.countP Result.isEof = (s.terminal.stream.take s.terminal.taken).count ctrlD
  -- one reader gets all of the stream, in order
  sequential : ∀ p, (∀ q, q = p) → s.finished.flatMap Result.chars ++ s.current p =
    s.terminal.stream.take s.terminal.taken

theorem Delivers.keep (delivers : Delivers s) (refines : Refines t.cons t.terminal)
    (taken : t.terminal.stream.take t.terminal.taken = s.terminal.stream.take s.terminal.taken)
    (delivered : t.delivered = s.delivered) (finished : t.finished = s.finished)
    (readers : ∀ p reader, t.reader p = some reader → reader.Fits)
    (current : ∀ p, t.current p = s.current p) : Delivers t where
  refines := refines
  readers := readers
  results := finished ▸ delivers.results
  delivered := by rw [delivered, taken, delivers.delivered]
  eofs := by rw [finished, taken, delivers.eofs]
  sequential := by
    intro p alone
    rw [finished, taken, current, delivers.sequential p alone]

theorem current_setReader (s : State m) (p q : Fin m) (reader : Reader) :
    (s.setReader p reader).current q = if q = p then reader.got else s.current q := by
  unfold current setReader
  simp only [Function.update_apply]
  split <;> rfl

theorem readers_update (delivers : Delivers s) {new : Option Reader}
    (fits : ∀ reader, new = some reader → reader.Fits) (q : Fin m) (reader : Reader)
    (there : Function.update s.reader p new q = some reader) : reader.Fits := by
  rw [Function.update_apply] at there
  split at there
  · exact fits reader there
  · exact delivers.readers q reader there

variable {reader : Reader}

theorem Delivers.finish (delivers : Delivers s) {result : Result}
    (extra : List UInt8) (here : s.reader p = some reader) (refines : Refines t.cons t.terminal)
    (readers : t.reader = s.reader) (finished : t.finished = s.finished)
    (fits : result.Fits) (chars : result.chars = reader.got ++ extra)
    (taken : t.terminal.stream.take t.terminal.taken =
      s.terminal.stream.take s.terminal.taken ++ extra)
    (delivered : t.delivered = s.delivered ++ extra.filter (· ≠ ctrlD))
    (eof : extra.count ctrlD = if result.isEof then 1 else 0) : Delivers (t.finish p result) where
  refines := refines
  readers := by
    intro q other there
    rw [State.finish, readers] at there
    refine readers_update delivers ?_ q other there
    nofun
  results := by
    intro r mem
    simp only [State.finish, finished, List.mem_append, List.mem_singleton] at mem
    rcases mem with earlier | rfl
    · exact delivers.results r earlier
    · exact fits
  delivered := by
    change t.delivered = (t.terminal.stream.take t.terminal.taken).filter (· ≠ ctrlD)
    rw [delivered, delivers.delivered, taken, List.filter_append]
  eofs := by
    change (t.finished ++ [result]).countP isEof =
      (t.terminal.stream.take t.terminal.taken).count ctrlD
    rw [finished, taken, List.countP_append, List.count_append, delivers.eofs, eof,
      List.countP_singleton]
  sequential := by
    intro q alone
    obtain rfl := alone p
    have before := delivers.sequential p alone
    change (t.finished ++ [result]).flatMap Result.chars ++ (t.finish p result).current p =
      t.terminal.stream.take t.terminal.taken
    have isOver : (t.finish p result).current p = [] := by simp [current, State.finish]
    have got : s.current p = reader.got := by simp [current, here]
    rw [isOver, finished, taken, ← before, got, List.flatMap_append, List.flatMap_singleton, chars,
      append_nil, append_assoc]

theorem Delivers.copy (delivers : Delivers s) {new : Reader}
    (here : s.reader p = some reader) (refines : Refines t.cons t.terminal)
    (readers : t.reader = s.reader) (finished : t.finished = s.finished)
    (fits : new.Fits) (got : new.got = reader.got ++ [c]) (other : c ≠ ctrlD)
    (taken : t.terminal.stream.take t.terminal.taken =
      s.terminal.stream.take s.terminal.taken ++ [c])
    (delivered : t.delivered = s.delivered ++ [c]) : Delivers (t.setReader p new) where
  refines := refines
  readers := by
    intro q r there
    rw [setReader, readers] at there
    refine readers_update delivers ?_ q r there
    rintro r ⟨⟩
    exact fits
  results := finished ▸ delivers.results
  delivered := by
    change t.delivered = (t.terminal.stream.take t.terminal.taken).filter (· ≠ ctrlD)
    rw [delivered, delivers.delivered, taken, List.filter_append]
    simp [other]
  eofs := by
    change t.finished.countP isEof = (t.terminal.stream.take t.terminal.taken).count ctrlD
    rw [finished, taken, List.count_append, delivers.eofs]
    simp [other]
  sequential := by
    intro q alone
    obtain rfl := alone p
    have before := delivers.sequential p alone
    change t.finished.flatMap chars ++ (t.setReader p new).current p =
      t.terminal.stream.take t.terminal.taken
    have old : s.current p = reader.got := by simp [current, here]
    rw [current_setReader, if_pos rfl, finished, taken, ← before, old, got, append_assoc]

theorem take_untake (s : State m) : s.take.untake = s := by
  have back : s.cons.ring.nread + 1 - 1 = s.cons.ring.nread := BitVec.add_sub_cancel ..
  simp only [take, untake, Ring.pop, back, Nat.add_sub_cancel]

theorem Result.chars_of_bytes (result : Result) (some : result.bytes ≠ []) :
    result.chars = result.bytes ∧ result.isEof = false := by
  constructor
  · rw [Result.chars, if_neg fun none => some none.1]
  · rw [Result.isEof, List.isEmpty_eq_false_iff.mpr some, Bool.false_and]

theorem Delivers.iterate (delivers : Delivers s)
    (here : s.reader p = some reader) : Delivers (iterate s p reader) := by
  obtain ⟨count, positive, plain⟩ := delivers.readers p reader here
  have refines := delivers.refines
  have whole : Result.Fits ⟨reader.target, reader.got, false⟩ :=
    ⟨by simp only; omega, fun inside => plain (List.dropLast_subset _ inside)⟩
  have same : s.terminal.stream.take s.terminal.taken =
    s.terminal.stream.take s.terminal.taken ++ [] := (append_nil _).symm
  have returns {t : State m} (eq : t = s) (some : reader.got ≠ []) :
      Delivers (t.finish p ⟨reader.target, reader.got, false⟩) := by
    subst eq
    obtain ⟨chars, eof⟩ := chars_of_bytes ⟨reader.target, reader.got, false⟩ some
    exact delivers.finish _ here refines rfl rfl whole (by simp [chars]) same (by simp)
      (by simp [eof])
  unfold Console.iterate
  split
  next zero =>
    refine returns rfl fun empty => ?_
    rw [empty, List.length_nil] at count
    omega
  next more =>
    split
    · split
      · -- the process was killed
        refine delivers.finish [] here refines rfl rfl ⟨whole.1, whole.2⟩ ?_ same
          (by simp) (by simp [isEof])
        simp [Result.chars]
      · -- the process sleeps
        refine delivers.keep refines rfl rfl rfl ?_ fun q => ?_
        · refine readers_update (s := s) delivers ?_
          rintro r ⟨⟩
          exact ⟨count, positive, plain⟩
        · rw [current_setReader]
          split
          next mine => rw [mine, current, here]; rfl
          · rfl
    next ready =>
      obtain ⟨front, taken⟩ := refines.take ready
      have grown : s.terminal.stream.take (s.terminal.taken + 1) =
          s.terminal.stream.take s.terminal.taken ++ [s.cons.ring.front] := by
        rw [List.take_add_one, front]
        rfl
      simp only
      split
      next eof =>
        split
        next less =>
          refine returns (take_untake s) fun empty => ?_
          rw [empty, List.length_nil] at count
          omega
        next all =>
          have empty : reader.got = [] := List.eq_nil_of_length_eq_zero (by omega)
          rw [eof] at grown
          refine delivers.finish _ here taken rfl rfl whole ?_ grown ?_ ?_
          · simp [Result.chars, empty]
          · simp [take]
          · simp [isEof, empty]
      next other =>
        split
        next ends =>
          have fits : Result.Fits
              ⟨reader.target, reader.got ++ [s.cons.ring.front], false⟩ := by
            refine ⟨?_, ?_⟩
            · simp only [length_append, List.length_singleton]
              omega
            · simpa using plain
          obtain ⟨chars, notEof⟩ := chars_of_bytes
            ⟨reader.target, reader.got ++ [s.cons.ring.front], false⟩ (by simp)
          refine delivers.finish _ here taken rfl rfl fits chars grown ?_ ?_
          · simp [other]
          · simp [notEof, other]
        next inside =>
          refine delivers.copy here taken rfl rfl ⟨?_, positive, ?_⟩ rfl other grown rfl
          · simp only [length_append, List.length_singleton]
            omega
          · simpa [plain] using Ne.symm inside

theorem Delivers.step {event : Event m} (delivers : Delivers s) (stepped : Step s event t) :
    Delivers t := by
  unfold Step next at stepped
  cases event with
  | consoleintr c =>
    simp only at stepped
    split at stepped
    next =>
      cases stepped
      have refines := delivers.refines
      refine delivers.keep (refines.consoleintr c) ?_ rfl rfl delivers.readers fun _ => rfl
      exact s.terminal.take_type refines.taken_le c
    next => cases stepped
  | read p n =>
    simp only at stepped
    split at stepped
    next start =>
      cases stepped
      refine delivers.keep delivers.refines rfl rfl rfl ?_ fun q => ?_
      · refine readers_update (s := s) delivers ?_
        rintro r ⟨⟩
        exact ⟨by simp, start.2, not_mem_nil⟩
      · rw [current_setReader]
        split
        next mine => rw [mine, current, start.1]; rfl
        · rfl
    next => cases stepped
  | step p =>
    simp only at stepped
    split at stepped
    next => cases stepped
    next reader here =>
      split at stepped
      next => cases stepped; exact delivers.iterate here
      next =>
        split at stepped
        next =>
          cases stepped
          have fits := delivers.readers p reader here
          refine delivers.keep delivers.refines rfl rfl rfl ?_ fun q => ?_
          · refine readers_update (s := s) delivers ?_
            rintro r ⟨⟩
            exact ⟨fits.count, fits.positive, fits.plain⟩
          · rw [current_setReader]
            split
            next mine => rw [mine, current, here]; rfl
            · rfl
        next => cases stepped
  | kill p =>
    cases stepped
    exact delivers.keep delivers.refines rfl rfl rfl delivers.readers fun _ => rfl

theorem Delivers.initial : Delivers (Console.initial m) where
  refines := ⟨Nat.le_refl 0, Ring.holds_nil _ _, rfl, not_mem_nil⟩
  readers := nofun
  results := nofun
  delivered := rfl
  eofs := rfl
  sequential := fun _ _ => rfl

/-! ## The discipline -/

theorem Cons.killLine_keeps (k : Nat) (cons : Cons) : (killLine k cons).r = cons.r ∧
    (killLine k cons).w = cons.w ∧ (killLine k cons).ring.data = cons.ring.data := by
  induction k generalizing cons with
  | zero => exact ⟨rfl, rfl, rfl⟩
  | succ k ih =>
    rw [killLine]
    split
    · exact ih cons.erase
    · exact ⟨rfl, rfl, rfl⟩

theorem Cons.erasing_keeps (cons : Cons) (erases : c = ctrlU ∨ c = ctrlH ∨ c = delete) :
    (cons.consoleintr c).r = cons.r ∧ (cons.consoleintr c).w = cons.w ∧
      (cons.consoleintr c).ring.data = cons.ring.data := by
  have other : c ≠ ctrlP := by
    rcases erases with rfl | rfl | rfl <;> decide
  rw [consoleintr, if_neg other]
  split
  · exact killLine_keeps _ cons
  next notKill =>
    rw [if_pos (erases.resolve_left notKill)]
    split <;> exact ⟨rfl, rfl, rfl⟩

/-- What holds of the console in every state. -/
structure LineDiscipline (s : State m) : Prop extends Delivers s where
  ordered : s.cons.w - s.cons.r ≤ s.cons.e - s.cons.r
  bounded : s.cons.e - s.cons.r ≤ BitVec.ofNat 32 INPUT_BUF_SIZE
  erasing : ∀ c, c = ctrlU ∨ c = ctrlH ∨ c = delete → (s.cons.consoleintr c).r = s.cons.r ∧
    (s.cons.consoleintr c).w = s.cons.w ∧ (s.cons.consoleintr c).ring.data = s.cons.ring.data

/-- **The console keeps its line discipline**, for any characters that are typed and any
reads. -/
theorem console_line_discipline {events : List (Event m)} (run : Run Step (initial m) events s) :
    LineDiscipline s := by
  have delivers : Delivers s :=
    run.invariant Delivers (fun delivers step => delivers.step step) .initial
  have refines := delivers.refines
  refine ⟨delivers, ?_, ?_, fun c => s.cons.erasing_keeps⟩
  · rw [BitVec.le_def, refines.toNat_committed, refines.toNat_used, Terminal.pending,
      List.length_append]
    exact Nat.le_add_right ..
  · rw [BitVec.le_def, refines.toNat_used]
    exact refines.pending_le

/-- A line with an erased character and an end-of-file are typed, and read. -/
def lineAndEof : List (Event 1) :=
  [.consoleintr 97, .consoleintr 98, .consoleintr delete, .consoleintr 99,
    .consoleintr carriageReturn, .consoleintr ctrlD, .read 0 10, .step 0, .step 0, .step 0,
    .step 0, .read 0 10, .step 0, .step 0]

theorem console_line_discipline_lineAndEof :
    ∃ s, Run Step (initial 1) lineAndEof s ∧ LineDiscipline s ∧
      s.finished.map Result.bytes = [[97, 99, newline], []] := by
  have executed : lineAndEof.foldlM next (initial 1) = some _ := rfl
  have run := Run.of_execute executed
  exact ⟨_, run, console_line_discipline run, rfl⟩

end Xv6.Console
