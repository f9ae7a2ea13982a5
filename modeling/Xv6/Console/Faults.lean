import Xv6.Console.Lines
import Xv6.Pipe.Fifo

/-!
# Reads that fail in the middle

`piperead` and `consoleread` take a byte from their buffer before `copyout` can fail for it.
A read whose destination cannot be written has then removed one byte more than it returns,
and nobody will read that byte.
-/

namespace Xv6

open Function

namespace Pipe

variable {Pid : Type} [DecidableEq Pid] {s : State Pid} {p : Pid} {dst : Nat → Bool} {n : Int}
  {i : Nat}

/-- A read from position `i` on removes as many bytes as it returns exactly if each of those that
are wanted can be written. -/
def Reads (s : State Pid) (p : Pid) (dst : Nat → Bool) (n : Int) (i : Nat) (buffered : List UInt8) :
    Prop :=
  ∃ (k : Nat) (t : State Pid) (r : Nat) (removed rest : List UInt8),
    Run Step s (List.replicate k (.step p)) t ∧ t.thread p = .readExit n (i + r : Nat) ∧
    buffered = removed ++ rest ∧ t.pipe.ring.Holds rest ∧
    (removed.length = r ↔ ∀ j < buffered.length, ((i + j : Nat) : Int) < n → dst (i + j) = true)

end Pipe

namespace Console

open State Terminal

variable {m : Nat} {dst : Fin m → Nat → Bool} {s t : State m} {p : Fin m} {reader : Reader}

/-- One iteration of the loop of `consoleread` where some bytes of the destination cannot be
written: after `cons.r++` the copy fails, and the loop ends. -/
def iterateTo (dst : Nat → Bool) (s : State m) (p : Fin m) (reader : Reader) : State m :=
  if reader.n ≠ 0 ∧ s.cons.r ≠ s.cons.w ∧ s.cons.ring.front ≠ ctrlD ∧
      dst reader.got.length = false then
    s.take.finish p ⟨reader.target, reader.got, false⟩
  else iterate s p reader

/-- The steps of `Xv6.Console.Basic`, with a destination for each process. -/
def nextTo (dst : Fin m → Nat → Bool) (s : State m) : Event m → Option (State m)
  | .step p =>
    match s.reader p with
    | some reader =>
      if reader.inside then some (iterateTo (dst p) s p reader) else next s (.step p)
    | none => none
  | event => next s event

def StepTo (dst : Fin m → Nat → Bool) (s : State m) (event : Event m) (t : State m) : Prop :=
  nextTo dst s event = some t

/-- Where all addresses are valid the system is that of `Xv6.Console.Basic`. -/
theorem nextTo_valid (s : State m) (event : Event m) :
    nextTo (fun _ _ => true) s event = next s event := by
  cases event with
  | step p =>
    cases here : s.reader p with
    | none => simp [nextTo, next, here]
    | some reader =>
      cases inside : reader.inside <;> simp [nextTo, next, here, inside, iterateTo]
  | consoleintr | read | kill => rfl

theorem Refines.iterateTo (refines : Refines s.cons s.terminal) (dst : Nat → Bool) (p : Fin m)
    (reader : Reader) :
      Refines (iterateTo dst s p reader).cons (iterateTo dst s p reader).terminal := by
  unfold Console.iterateTo
  split
  next fails => exact (refines.take fails.2.1).2
  next =>
    unfold Console.iterate
    split
    · exact refines
    · split
      · split <;> exact refines
      next more =>
        have taken := (refines.take more).2
        simp only
        split
        · split
          · rw [take_untake]
            exact refines
          · exact taken
        · split <;> exact taken

/-- The characters that a read takes from those that wait and copies: up to a newline, and
before a ^D. -/
def wanted : Nat → List UInt8 → List UInt8
  | 0, _ | _, [] => []
  | n + 1, c :: waiting =>
    if c = ctrlD then [] else if c = newline then [c] else c :: wanted n waiting

/-- The characters that were committed and not taken. -/
def Terminal.waiting (terminal : Terminal) : List UInt8 := terminal.stream.drop terminal.taken

/-- The process that has the lock goes on until the call returns or nothing waits any more. It
copies what it removes, a ^D apart, exactly if each character that is wanted can be written. -/
def Reads (dst : Fin m → Nat → Bool) (s : State m) (p : Fin m) (reader : Reader) : Prop :=
  ∃ (k : Nat) (t : State m) (removed bytes : List UInt8),
    Run (StepTo dst) s (List.replicate k (.step p)) t ∧
    s.terminal.waiting = removed ++ t.terminal.waiting ∧
    ((∃ killed, t.finished = s.finished ++ [⟨reader.target, reader.got ++ bytes, killed⟩]) ∨
      t.terminal.waiting = [] ∧
        ∃ n, t.reader p = some ⟨reader.target, n, reader.got ++ bytes, false⟩) ∧
    (removed.filter (· ≠ ctrlD) = bytes ↔
      ∀ j < (wanted reader.n s.terminal.waiting).length, dst p (reader.got.length + j) = true)

theorem Refines.front {terminal : Terminal} {cons : Cons} {c : UInt8} {rest : List UInt8}
    (refines : Refines cons terminal) (left : terminal.waiting = c :: rest) :
    cons.r ≠ cons.w ∧ cons.ring.front = c ∧ terminal.stream.drop (terminal.taken + 1) = rest := by
  have more : cons.r ≠ cons.w := by
    intro same
    rw [waiting, refines.empty_iff.mp same, List.drop_length] at left
    cases left
  have first : terminal.stream[terminal.taken]? = some c := by
    rw [← List.head?_drop, ← waiting, left]
    rfl
  refine ⟨more, Option.some.inj ((refines.take more).1.symm.trans first), ?_⟩
  rw [← List.drop_drop, ← waiting, left]
  rfl

end Console

/-- Two bytes are in the pipe, and a process is about to copy them. -/
def Pipe.two : Pipe.State (Fin 1) :=
  let s := ((Pipe.initial (Fin 1) fun _ => 0).store 65).store 66
  s.goto 0 (.readCopy (· == 0) 2 0)

end Xv6
