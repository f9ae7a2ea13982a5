import Xv6.Lib.Ring
import Xv6.Lib.Runs

/-!
# The console

`consoleintr` and `consoleread` of `console.c`, with any number of processes that read.
A step is a call of `consoleintr`, which holds `cons.lock` from beginning to end, or one
iteration of the loop of `consoleread` by the process that holds the lock. `sleep`
releases the lock, and the process can take it again at any time after that; it then
looks at `cons.r` and `cons.w` again. The addresses of the reads are valid, so `copyout`
does not fail. The echo is left out.

What was typed is kept as a list of characters in `Terminal`: the characters that were
committed, and the line that can still be edited. No step reads it.
-/

namespace Xv6.Console

def INPUT_BUF_SIZE : Nat := 128

instance : NeZero INPUT_BUF_SIZE := ⟨by decide⟩

/-- `C('D')` -/
def ctrlD : UInt8 := 4

/-- `C('H')` -/
def ctrlH : UInt8 := 8

def newline : UInt8 := 10

def carriageReturn : UInt8 := 13

/-- `C('P')` -/
def ctrlP : UInt8 := 16

/-- `C('U')` -/
def ctrlU : UInt8 := 21

def delete : UInt8 := 127

/-- `cons`: the buffer with `cons.r` and `cons.e`, and `cons.w`. -/
structure Cons where
  ring : Ring 32 INPUT_BUF_SIZE UInt8
  w : BitVec 32

namespace Cons

def r (cons : Cons) : BitVec 32 := cons.ring.nread

def e (cons : Cons) : BitVec 32 := cons.ring.nwrite

/-- `cons.e--` -/
def erase (cons : Cons) : Cons := { cons with ring := cons.ring.unpush }

/-- The loop of `C('U')`. It ends after `cons.e - cons.w` rounds at most. -/
def killLine : Nat → Cons → Cons
  | 0, cons => cons
  | k + 1, cons => if cons.e ≠ cons.w ∧
      cons.ring.last ≠ newline then killLine k cons.erase else cons

def store (cons : Cons) (c : UInt8) : Cons :=
  let stored := { cons with ring := cons.ring.push c }
  if c = newline ∨ c = ctrlD ∨ stored.e - stored.r = BitVec.ofNat 32 INPUT_BUF_SIZE then
    { stored with w := stored.e }
  else stored

def consoleintr (cons : Cons) (c : UInt8) : Cons :=
  if c = ctrlP then cons
  else if c = ctrlU then killLine (cons.e - cons.w).toNat cons
  else if c = ctrlH ∨ c = delete then if cons.e ≠ cons.w then cons.erase else cons
  else if c ≠ 0 ∧ cons.e - cons.r < BitVec.ofNat 32 INPUT_BUF_SIZE then
    cons.store (if c = carriageReturn then newline else c)
  else cons

end Cons

/-- What was typed, as a terminal in line mode would have it. -/
structure Terminal where
  stream : List UInt8
  line : List UInt8 -- the characters of the line that can still be edited
  taken : Nat -- how many characters of the stream were taken by reads

namespace Terminal

/-- The characters that wait to be read, or to be committed. -/
def pending (t : Terminal) : List UInt8 := t.stream.drop t.taken ++ t.line

/-- A character that is accepted ends the line if it is a newline or ^D, or if the
terminal is full. -/
def accept (t : Terminal) (c : UInt8) : Terminal :=
  if c = newline ∨ c = ctrlD ∨ t.pending.length + 1 = INPUT_BUF_SIZE then
    { t with stream := t.stream ++ (t.line ++ [c]), line := [] }
  else { t with line := t.line ++ [c] }

def type (t : Terminal) (c : UInt8) : Terminal :=
  if c = ctrlP then t
  else if c = ctrlU then { t with line := [] }
  else if c = ctrlH ∨ c = delete then { t with line := t.line.dropLast }
  else if c ≠ 0 ∧ t.pending.length < INPUT_BUF_SIZE then
    t.accept (if c = carriageReturn then newline else c)
  else t

end Terminal

/-- A call of `consoleread`. -/
structure Reader where
  target : Nat
  n : Nat
  got : List UInt8
  inside : Bool

/-- A call of `consoleread` that has returned: -1 if the process was killed, otherwise
the number of the bytes. -/
structure Result where
  target : Nat
  bytes : List UInt8
  killed : Bool

structure State (m : Nat) where
  cons : Cons
  lock : Option (Fin m)
  killed : Fin m → Bool
  reader : Fin m → Option Reader
  terminal : Terminal
  delivered : List UInt8
  finished : List Result

inductive Event (m : Nat) where
  | consoleintr (c : UInt8)
  | read (p : Fin m) (n : Nat)
  | step (p : Fin m)
  | kill (p : Fin m)

variable {m : Nat}

namespace State

def setReader (s : State m) (p : Fin m) (reader : Reader) : State m :=
  { s with reader := Function.update s.reader p (some reader) }

/-- `release(&cons.lock)`, and the call returns. -/
def finish (s : State m) (p : Fin m) (result : Result) : State m :=
  { s with
    lock := none
    reader := Function.update s.reader p none
    finished := s.finished ++ [result] }

/-- `cons.r++` -/
def take (s : State m) : State m :=
  { s with
    cons := { s.cons with ring := s.cons.ring.pop }
    terminal := { s.terminal with taken := s.terminal.taken + 1 } }

/-- `cons.r--` -/
def untake (s : State m) : State m :=
  { s with
    cons := { s.cons with ring := { s.cons.ring with nread := s.cons.ring.nread - 1 } }
    terminal := { s.terminal with taken := s.terminal.taken - 1 } }

end State

/-- One iteration of the loop of `consoleread`. -/
def iterate (s : State m) (p : Fin m) (reader : Reader) : State m :=
  if reader.n = 0 then s.finish p ⟨reader.target, reader.got, false⟩
  else if s.cons.r = s.cons.w then
    if s.killed p then s.finish p ⟨reader.target, reader.got, true⟩
    else { s with lock := none }.setReader p { reader with inside := false }
  else
    let c := s.cons.ring.front
    if c = ctrlD then
      (if reader.n < reader.target then s.take.untake else s.take).finish p
        ⟨reader.target, reader.got, false⟩
    else
      let copied := { s.take with delivered := s.delivered ++ [c] }
      if c = newline then copied.finish p ⟨reader.target, reader.got ++ [c], false⟩
      else copied.setReader p { reader with n := reader.n - 1, got := reader.got ++ [c] }

def next (s : State m) : Event m → Option (State m)
  | .consoleintr c =>
    if s.lock = none then
      some { s with cons := s.cons.consoleintr c, terminal := s.terminal.type c }
    else none
  | .read p n =>
    if s.reader p = none ∧ 0 < n then
      some (s.setReader p { target := n, n := n, got := [], inside := false })
    else none
  | .step p =>
    match s.reader p with
    | none => none
    | some reader =>
      if reader.inside then some (iterate s p reader)
      else if s.lock = none then
        some ({ s with lock := some p }.setReader p { reader with inside := true })
      else none
  | .kill p => some { s with killed := Function.update s.killed p true }

def Step (s : State m) (event : Event m) (t : State m) : Prop := next s event = some t

/-- The console after `consoleinit`. -/
def initial (m : Nat) : State m where
  cons := { ring := { data := fun _ => 0, nread := 0, nwrite := 0 }, w := 0 }
  lock := none
  killed := fun _ => false
  reader := fun _ => none
  terminal := { stream := [], line := [], taken := 0 }
  delivered := []
  finished := []

end Xv6.Console
