import Xv6.Lib.Ring
import Xv6.Lib.Runs
import Xv6.Param

/-!
# Pipes

`pipewrite`, `piperead` and `pipeclose` on one pipe, by any number of
processes, with `kill`, `sleep` and `wakeup`.

A step of a process is what it does between two points where another process
can be seen to act. While a process holds `pi->lock` nobody else touches the
pipe, and what is left for the others is `kill`, which takes only the lock of
the process it kills; so `killed` and `wakeup`, which take the locks of
processes, and the copy of each single byte are steps of their own. `sleep` is
one step: `p->lock` is held from before `pi->lock` is released until the state
is `SLEEPING`, and `wakeup` and `kill` take it before they look.

User memory is given with the call: `src i` is what `copyin` finds at
`addr + i` and `dst i` whether `copyout` can write there.

The bytes `pipewrite` has accepted and `piperead` has delivered, and the number
of bytes a writer had stored at its last `wakeup(&pi->nread)`, are kept as
history; no step reads them.
-/

namespace Xv6.Pipe

open Function

def PIPESIZE : Nat := 512

instance : NeZero PIPESIZE := ⟨by decide⟩

/-- The two addresses that processes sleep on. -/
inductive Chan where
  | nread
  | nwrite
  deriving DecidableEq, Repr

/-- `struct pipe`, without its lock. -/
structure Buffer where
  ring : Ring 32 PIPESIZE UInt8
  readopen : Bool
  writeopen : Bool

inductive Call where
  | pipewrite (src : Nat → Option UInt8) (n : Int)
  | piperead (dst : Nat → Bool) (n : Int)
  | pipeclose (writable : Bool)

/-- Where a process is in its call. -/
inductive Thread where
  | idle
  -- `pipewrite` at `acquire(&pi->lock)`, first or after `sleep`
  | writeEnter (src : Nat → Option UInt8) (n : Int) (i signalled : Nat)
  | writeLoop (src : Nat → Option UInt8) (n : Int) (i signalled : Nat)
  | writeFull (src : Nat → Option UInt8) (n : Int) (i signalled : Nat)
  | writeSleep (src : Nat → Option UInt8) (n : Int) (i signalled : Nat)
  | writeWakeup (i : Nat)
  -- `piperead` at `acquire(&pi->lock)`, first or after `sleep`
  | readEnter (dst : Nat → Bool) (n : Int)
  | readLoop (dst : Nat → Bool) (n : Int)
  | readSleep (dst : Nat → Bool) (n : Int)
  | readCopy (dst : Nat → Bool) (n : Int) (i : Nat)
  | readWakeup (n : Int) (i : Nat)
  | closeEnter (writable : Bool)
  | closeWakeup (writable : Bool)
  | closeExit
  | writeExit (result : Int)
  | readExit (n : Int) (result : Int)

/-- The program counter of a call. -/
def Call.enter : Call → Thread
  | .pipewrite src n => .writeEnter src n 0 0
  | .piperead dst n => .readEnter dst n
  | .pipeclose writable => .closeEnter writable

structure State (Pid : Type) where
  pipe : Buffer
  lock : Option Pid
  freed : Bool -- both ends were closed and the page of the pipe was freed
  thread : Pid → Thread
  asleep : Pid → Option Chan
  killed : Pid → Bool
  accepted : List UInt8
  delivered : List UInt8

variable {Pid : Type}

/-- The pipe as `pipealloc` makes it. The contents of its page are what
`kalloc` leaves. -/
def initial (Pid : Type) (junk : Fin PIPESIZE → UInt8) : State Pid where
  pipe := { ring := { data := junk, nread := 0, nwrite := 0 }, readopen := true, writeopen := true }
  lock := none
  freed := false
  thread := fun _ => .idle
  asleep := fun _ => none
  killed := fun _ => false
  accepted := []
  delivered := []

inductive Event (Pid : Type) where
  | call (p : Pid) (call : Call)
  | step (p : Pid)
  | kill (p : Pid)

section Steps

variable [DecidableEq Pid]

namespace State

def goto (s : State Pid) (p : Pid) (t : Thread) : State Pid :=
  { s with thread := update s.thread p t }

/-- `wakeup(chan)`: a process never finds itself asleep. -/
def wakeup (s : State Pid) (chan : Chan) : State Pid :=
  { s with asleep := fun q => if s.asleep q = some chan then none else s.asleep q }

def kill (s : State Pid) (p : Pid) : State Pid :=
  { s with
    killed := update s.killed p true
    asleep := update s.asleep p none }

/-- `acquire(&pi->lock)` by a process that runs. -/
def acquire (s : State Pid) (p : Pid) : Option (State Pid) :=
  if s.lock = none ∧ s.freed = false ∧ s.asleep p = none then some { s with lock := some p }
  else none

def release (s : State Pid) : State Pid := { s with lock := none }

/-- `sleep(chan, &pi->lock)` up to `sched`. -/
def sleep (s : State Pid) (p : Pid) (chan : Chan) : State Pid :=
  { s with lock := none, asleep := update s.asleep p (some chan) }

/-- `pi->data[pi->nwrite++ % PIPESIZE] = ch` -/
def store (s : State Pid) (ch : UInt8) : State Pid :=
  { s with
    pipe := { s.pipe with ring := s.pipe.ring.push ch }
    accepted := s.accepted ++ [ch] }

/-- `ch = pi->data[pi->nread++ % PIPESIZE]` -/
def take (s : State Pid) : State Pid :=
  { s with pipe := { s.pipe with ring := s.pipe.ring.pop } }

/-- `copyout` of one byte, by which it is delivered. -/
def deliver (s : State Pid) (ch : UInt8) : State Pid :=
  { s with delivered := s.delivered ++ [ch] }

/-- `pi->writeopen = 0` or `pi->readopen = 0` -/
def shut (s : State Pid) (writable : Bool) : State Pid :=
  { s with
    pipe :=
      if writable then { s.pipe with writeopen := false } else { s.pipe with readopen := false } }

end State

/-- One pass of the loop of `pipewrite`. -/
def writePass (s : State Pid) (p : Pid) (src : Nat → Option UInt8) (n : Int)
    (i signalled : Nat) : State Pid :=
  if (i : Int) < n then
    if s.pipe.readopen = false ∨ s.killed p = true then s.goto p (.writeExit (-1))
    else if s.pipe.ring.Full then s.goto p (.writeFull src n i signalled)
    else
      match src i with
      | none => s.goto p (.writeWakeup i)
      | some ch => (s.store ch).goto p (.writeLoop src n (i + 1) signalled)
  else s.goto p (.writeWakeup i)

/-- One test of the loop of `piperead` that waits for bytes. -/
def readTest (s : State Pid) (p : Pid) (dst : Nat → Bool) (n : Int) : State Pid :=
  if s.pipe.ring.Empty ∧ s.pipe.writeopen = true then
    if s.killed p = true then s.goto p (.readExit n (-1)) else s.goto p (.readSleep dst n)
  else s.goto p (.readCopy dst n 0)

/-- One pass of the loop of `piperead` that copies. -/
def readPass (s : State Pid) (p : Pid) (dst : Nat → Bool) (n : Int) (i : Nat) : State Pid :=
  if (i : Int) < n then
    if s.pipe.ring.Empty then s.goto p (.readWakeup n i)
    else if dst i then
      (s.take.deliver s.pipe.ring.front).goto p (.readCopy dst n (i + 1))
    else s.take.goto p (.readWakeup n i)
  else s.goto p (.readWakeup n i)

def advance (s : State Pid) (p : Pid) : Option (State Pid) :=
  match s.thread p with
  | .idle => none
  | .writeEnter src n i signalled =>
    (s.acquire p).map fun s => s.goto p (.writeLoop src n i signalled)
  | .writeLoop src n i signalled => some (writePass s p src n i signalled)
  | .writeFull src n i _ => some ((s.wakeup .nread).goto p (.writeSleep src n i i))
  | .writeSleep src n i signalled =>
    some ((s.sleep p .nwrite).goto p (.writeEnter src n i signalled))
  | .writeWakeup i => some ((s.wakeup .nread).goto p (.writeExit i))
  | .readEnter dst n => (s.acquire p).map fun s => s.goto p (.readLoop dst n)
  | .readLoop dst n => some (readTest s p dst n)
  | .readSleep dst n => some ((s.sleep p .nread).goto p (.readEnter dst n))
  | .readCopy dst n i => some (readPass s p dst n i)
  | .readWakeup n i => some ((s.wakeup .nwrite).goto p (.readExit n i))
  | .closeEnter writable =>
    (s.acquire p).map fun s => (s.shut writable).goto p (.closeWakeup writable)
  | .closeWakeup writable =>
    some ((s.wakeup (if writable then .nread else .nwrite)).goto p .closeExit)
  | .closeExit =>
    let freed := s.pipe.readopen = false ∧ s.pipe.writeopen = false
    some ({ s.release with freed := decide freed }.goto p .idle)
  | .writeExit _ => some (s.release.goto p .idle)
  | .readExit _ _ => some (s.release.goto p .idle)

def next (s : State Pid) : Event Pid → Option (State Pid)
  | .call p call =>
    match s.thread p with
    | .idle => some (s.goto p call.enter)
    | _ => none
  | .step p => advance s p
  | .kill p => some (s.kill p)

def Step (s : State Pid) (event : Event Pid) (t : State Pid) : Prop := next s event = some t

theorem step_cases {s t : State Pid} {event : Event Pid} (stepped : Step s event t) :
    (∃ p call, event = .call p call ∧ s.thread p = .idle ∧ t = s.goto p call.enter) ∨
      (∃ p, event = .step p ∧ advance s p = some t) ∨ (∃ p, event = .kill p ∧ t = s.kill p) := by
  unfold Step at stepped
  cases event with
  | call p call =>
    rw [next] at stepped
    split at stepped
    next idle => exact .inl ⟨p, call, rfl, idle, (Option.some.inj stepped).symm⟩
    · cases stepped
  | step p => exact .inr (.inl ⟨p, rfl, stepped⟩)
  | kill p => exact .inr (.inr ⟨p, rfl, (Option.some.inj stepped).symm⟩)

end Steps

def Thread.holds : Thread → Bool
  | .idle | .writeEnter .. | .readEnter .. | .closeEnter _ => false
  | _ => true

theorem Call.holds_enter (call : Call) : call.enter.holds = false := by
  cases call <;> rfl

section Guarded

/-- What is known of a thread without the lock does not depend on the pipe. -/
def Stable (facts : Buffer → Thread → Prop) : Prop :=
  ∀ (t : Thread) (pipe other : Buffer), t.holds = false → facts pipe t → facts other t

/-- The lock has the one thread that holds it, and every thread's facts are
true of the pipe. -/
structure Guarded (facts : Buffer → Thread → Prop) (s : State Pid) : Prop where
  locked : ∀ p, s.lock = some p ↔ (s.thread p).holds = true
  facts : ∀ p, facts s.pipe (s.thread p)

variable {facts : Buffer → Thread → Prop} {s t : State Pid} {p : Pid}

theorem acquire_eq (acquired : s.acquire p = some t) :
    s.lock = none ∧ t = { s with lock := some p } := by
  unfold State.acquire at acquired
  split at acquired
  next guard => exact ⟨guard.1, (Option.some.inj acquired).symm⟩
  · cases acquired

namespace Guarded

theorem initially (fact : ∀ pipe, facts pipe .idle) (junk : Fin PIPESIZE → UInt8) :
    Guarded facts (initial Pid junk) where
  locked := by simp [initial, Thread.holds]
  facts := fun _ => fact _

theorem held (guarded : Guarded facts s) (holds : (s.thread p).holds = true) :
    s.lock = some p := (guarded.locked p).mpr holds

variable [DecidableEq Pid]

section

variable (guarded : Guarded facts s)
include guarded

/-- A thread that has the lock, or finds it free, may change the pipe: no other
thread's facts depend on it. -/
theorem move (stable : Stable facts) (mine : s.lock = none ∨ s.lock = some p) {target : Thread}
    (thread : t.thread = update s.thread p target)
    (lock : t.lock = if target.holds then some p else none)
    (fact : facts t.pipe target) : Guarded facts t := by
  have others : ∀ q, q ≠ p → (s.thread q).holds = false := by
    intro q other
    rw [Bool.eq_false_iff, Ne, ← guarded.locked q]
    rcases mine with free | held
    · simp [free]
    · simpa [held] using other.symm
  constructor
  · intro q
    rw [thread, lock]
    by_cases same : q = p
    · subst same
      rw [update_self]
      cases target.holds <;> simp
    · rw [update_of_ne same, others q same]
      cases target.holds <;> simp [Ne.symm same]
  · intro q
    rw [thread]
    by_cases same : q = p
    · subst same
      rwa [update_self]
    · rw [update_of_ne same]
      exact stable _ _ _ (others q same) (guarded.facts q)

theorem call {call : Call} (idle : s.thread p = .idle)
    (fact : facts s.pipe call.enter) : Guarded facts (s.goto p call.enter) := by
  constructor
  · intro q
    by_cases same : q = p
    · subst same
      have free : s.lock ≠ some q := by
        rw [Ne, guarded.locked q, idle]
        exact Bool.false_ne_true
      simpa [State.goto, call.holds_enter] using free
    · simpa [State.goto, update_of_ne same] using guarded.locked q
  · intro q
    by_cases same : q = p
    · subst same
      simpa [State.goto] using fact
    · simpa [State.goto, update_of_ne same] using guarded.facts q

theorem kill (p : Pid) : Guarded facts (s.kill p) :=
  ⟨guarded.locked, guarded.facts⟩

end

end Guarded

end Guarded

end Xv6.Pipe
