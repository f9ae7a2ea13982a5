import Xv6.Console.Basic
import Xv6.Pipe.Basic
import Xv6.Proc.Table

/-!
# The loops that test `killed()` and then sleep

`piperead`, `pipewrite`, `wait`, `sys_sleep` and `consoleread` each hold a lock, test
their condition, call `killed()` and then `sleep` on that lock. They are run here by any
number of processes, together with `kill`. A step goes from one acquisition or release
of a lock to the next one: `killed()` takes and releases `p->lock`, and `sleep` takes it
again later. `wakeup`, `wait` and `kill` take the locks of the processes of the table one
after the other.

Everything else that runs in the kernel is an event of its own. It can change what a lock
protects when that lock is free, wake any sleeper, preempt a process that holds no lock,
and change the slot of a process that is in none of these calls. Whether the user address
of a copy is valid is part of the event.
-/

namespace Xv6.Kill

open Function

open Proc (ProcState)

/-- The lock that a loop passes to `sleep`. -/
inductive Lk where
  | pipe (pi : Nat)
  | wait
  | ticks
  | cons
  deriving DecidableEq

inductive Chan (n : Nat) where
  | nread (pi : Nat)
  | nwrite (pi : Nat)
  | proc (p : Fin n)
  | ticks
  | cons
  | other (address : Nat)
  deriving DecidableEq

/-- The call of a process with its local variables. -/
inductive Call where
  | piperead (pi : Nat) (n : Int)
  | pipewrite (pi : Nat) (n i : Int)
  | wait (addr : Bool)
  | sleep (n : UInt32) (ticks0 : Option UInt32) -- `ticks0` is read when `tickslock` is first taken
  | consoleread (n target : Int)

/-- Where the thread of a process is. -/
inductive Place (n : Nat) where
  | user
  | enter (call : Call)
  | test (call : Call)
  | copy (pi : Nat) (n i : Int)
  | scan (addr : Bool) (todo : List (Fin n)) (havekids : Bool)
  | child (addr : Bool) (pp : Fin n) (todo : List (Fin n))
  | check (call : Call)
  | checked (call : Call)
  -- the loop of `wakeup`; the call sleeps after it, or is done
  | wakeup (lk : Lk) (chan : Chan n) (todo : List (Fin n)) (sleeps : Option Call)
  -- the loop of `wakeup`, with the lock of the process that it visits
  | rouse (lk : Lk) (chan : Chan n) (q : Fin n) (todo : List (Fin n)) (sleeps : Option Call)
  | park (call : Call)
  | parked (call : Call)
  | sched (call : Call) -- `SLEEPING`, with `p->lock`, on the way through `sched`
  | asleep (call : Call)
  | woken (call : Call)
  | leave (lk : Lk)
  | kill (pid : Int32) (todo : List (Fin n))
  -- in `kill`, with the lock of the process that it visits
  | killing (pid : Int32) (q : Fin n) (todo : List (Fin n))

structure Slot (n : Nat) where
  state : ProcState
  chan : Option (Chan n)
  killed : Bool
  pid : Int32

structure PipeData where
  nread : UInt32
  nwrite : UInt32
  readopen : Bool
  writeopen : Bool

structure ConsData where
  r : UInt32
  w : UInt32
  buf : Fin Console.INPUT_BUF_SIZE → UInt8

structure State (n : Nat) where
  proc : Fin n → Slot n
  parent : Fin n → Option (Fin n)
  pipe : Nat → PipeData
  cons : ConsData
  ticks : UInt32
  place : Fin n → Place n

variable {n : Nat}

def Call.lk : Call → Lk
  | .piperead pi _ => .pipe pi
  | .pipewrite pi _ _ => .pipe pi
  | .wait _ => .wait
  | .sleep _ _ => .ticks
  | .consoleread _ _ => .cons

/-- The channel that the call sleeps on. -/
def Call.chan (p : Fin n) : Call → Chan n
  | .piperead pi _ => .nread pi
  | .pipewrite pi _ _ => .nwrite pi
  | .wait _ => .proc p
  | .sleep _ _ => .ticks
  | .consoleread _ _ => .cons

namespace Place

/-- The lock of a loop that a thread holds here. -/
def lk : Place n → Option Lk
  | .test call => some call.lk
  | .copy pi _ _ => some (.pipe pi)
  | .scan _ _ _ => some .wait
  | .child _ _ _ => some .wait
  | .check call => some call.lk
  | .checked call => some call.lk
  | .wakeup lk _ _ _ => some lk
  | .rouse lk _ _ _ _ => some lk
  | .park call => some call.lk
  | .parked call => some call.lk
  | .leave lk => some lk
  | _ => none

/-- The process whose lock the thread of `p` holds here. -/
def plock (p : Fin n) : Place n → Option (Fin n)
  | .child _ pp _ => some pp
  | .checked _ => some p
  | .rouse _ _ q _ _ => some q
  | .parked _ => some p
  | .sched _ => some p
  | .woken _ => some p
  | .killing _ q _ => some q
  | _ => none

end Place

namespace State

def lkFree (s : State n) (lk : Lk) : Bool := decide (∀ q, (s.place q).lk ≠ some lk)

def plockFree (s : State n) (p : Fin n) : Bool := decide (∀ q, (s.place q).plock q ≠ some p)

def goto (s : State n) (p : Fin n) (new : Place n) : State n :=
  { s with place := update s.place p new }

def setSlot (s : State n) (q : Fin n) (f : Slot n → Slot n) : State n :=
  { s with proc := update s.proc q (f (s.proc q)) }

def setPipe (s : State n) (pi : Nat) (f : PipeData → PipeData) : State n :=
  { s with pipe := update s.pipe pi (f (s.pipe pi)) }

/-- `acquire(&q->lock)` by the thread of `p`. -/
def acquire (s : State n) (p q : Fin n) (new : Place n) : Option (State n) :=
  if s.plockFree q then some (s.goto p new) else none

end State

namespace Slot

/-- What `wakeup(chan)` does to a process. -/
def rouse (chan : Chan n) (slot : Slot n) : Slot n :=
  if slot.state = .sleeping ∧ slot.chan = some chan then { slot with state := .runnable } else slot

/-- What `kill` does to the process that it has found. -/
def kill (slot : Slot n) : Slot n :=
  if slot.state = .sleeping then { slot with killed := true, state := .runnable }
  else { slot with killed := true }

def freeproc (_ : Slot n) : Slot n :=
  { state := .unused, chan := none, killed := false, pid := 0 }

end Slot

/-- `acquire(lk)`, and the statements up to the loop. -/
def Call.entered (ticks : UInt32) : Call → Call
  | .sleep n none => .sleep n (some ticks)
  | call => call

/-- `wakeup(chan)` from the first slot on. -/
def wakeupFrom (call : Call) (chan : Chan n) (sleeps : Option Call) : Place n :=
  .wakeup call.lk chan (List.finRange n) sleeps

/-- An iteration of the outer loop of `consoleread` that finds a character. -/
def consume (s : State n) (p : Fin n) (m target : Int) (valid : Bool) : State n :=
  let c := s.cons.buf ⟨s.cons.r.toNat % Console.INPUT_BUF_SIZE, Nat.mod_lt _ (by decide)⟩
  let taken := { s with cons := { s.cons with r := s.cons.r + 1 } }
  if c = Console.ctrlD then (if m < target then s else taken).goto p (.leave .cons)
  else if valid = false ∨ c = Console.newline then taken.goto p (.leave .cons)
  else taken.goto p (.test (.consoleread (m - 1) target))

/-- The head of the loop, up to the call of `killed()` or the end of the loop. -/
def testStep (s : State n) (p : Fin n) (valid : Bool) : Call → State n
  | .piperead pi m =>
    if (s.pipe pi).nread = (s.pipe pi).nwrite ∧ (s.pipe pi).writeopen = true then
      s.goto p (.check (.piperead pi m))
    else s.goto p (.copy pi m 0)
  | .pipewrite pi m i =>
    if i < m then
      if (s.pipe pi).readopen = false then s.goto p (.leave (.pipe pi))
      else s.goto p (.check (.pipewrite pi m i))
    else s.goto p (wakeupFrom (.pipewrite pi m i) (.nread pi) none)
  | .wait addr => s.goto p (.scan addr (List.finRange n) false)
  | .sleep m ticks0 =>
    if s.ticks - ticks0.getD 0 < m then s.goto p (.check (.sleep m ticks0))
    else s.goto p (.leave .ticks)
  | .consoleread m target =>
    if 0 < m then
      if s.cons.r = s.cons.w then s.goto p (.check (.consoleread m target))
      else consume s p m target valid
    else s.goto p (.leave .cons)

/-- What follows when `killed()` has returned 0. Only `pipewrite` does not sleep at
once. -/
def aliveStep (s : State n) (p : Fin n) (valid : Bool) : Call → State n
  | .pipewrite pi m i =>
    if (s.pipe pi).nwrite = (s.pipe pi).nread + UInt32.ofNat Pipe.PIPESIZE then
      s.goto p (wakeupFrom (.pipewrite pi m i) (.nread pi) (some (.pipewrite pi m i)))
    else if valid = true then
      (s.setPipe pi fun pipe => { pipe with nwrite := pipe.nwrite + 1 }).goto p
        (.test (.pipewrite pi m (i + 1)))
    else s.goto p (wakeupFrom (.pipewrite pi m i) (.nread pi) none)
  | call => s.goto p (.park call)

/-- The next step of the thread of `p`. -/
def advance (s : State n) (p : Fin n) (valid : Bool) : Option (State n) :=
  match s.place p with
  | .user => none
  | .enter call =>
    if s.lkFree call.lk then some (s.goto p (.test (call.entered s.ticks))) else none
  | .test call => some (testStep s p valid call)
  | .copy pi m i =>
    if i < m ∧ (s.pipe pi).nread ≠ (s.pipe pi).nwrite then
      let taken := s.setPipe pi fun pipe => { pipe with nread := pipe.nread + 1 }
      if valid then some (taken.goto p (.copy pi m (i + 1)))
      else some (taken.goto p (wakeupFrom (.piperead pi m) (.nwrite pi) none))
    else some (s.goto p (wakeupFrom (.piperead pi m) (.nwrite pi) none))
  | .scan addr [] havekids =>
    if havekids then some (s.goto p (.check (.wait addr))) else some (s.goto p (.leave .wait))
  | .scan addr (pp :: todo) havekids =>
    if s.parent pp = some p then s.acquire p pp (.child addr pp todo)
    else some (s.goto p (.scan addr todo havekids))
  | .child addr pp todo =>
    if (s.proc pp).state = .zombie then
      if addr ∧ valid = false then some (s.goto p (.leave .wait))
      else
        let freed := s.setSlot pp Slot.freeproc
        some ({ freed with parent := update s.parent pp none }.goto p (.leave .wait))
    else some (s.goto p (.scan addr todo true))
  | .check call => s.acquire p p (.checked call)
  | .checked call =>
    if (s.proc p).killed then some (s.goto p (.leave call.lk)) else some (aliveStep s p valid call)
  | .wakeup lk _ [] sleeps =>
    match sleeps with
    | some call => some (s.goto p (.park call))
    | none => some (s.goto p (.leave lk))
  | .wakeup lk chan (q :: todo) sleeps =>
    if q = p then some (s.goto p (.wakeup lk chan todo sleeps))
    else s.acquire p q (.rouse lk chan q todo sleeps)
  | .rouse lk chan q todo sleeps =>
    some ((s.setSlot q (Slot.rouse chan)).goto p (.wakeup lk chan todo sleeps))
  | .park call => s.acquire p p (.parked call)
  | .parked call =>
    -- `release(lk)`, then the state is changed under `p->lock`
    some ((s.setSlot p fun slot =>
      { slot with chan := some (call.chan p), state := .sleeping }).goto p (.sched call))
  | .sched call => some (s.goto p (.asleep call))
  | .asleep call =>
    if (s.proc p).state = .runnable then
      (s.setSlot p fun slot => { slot with state := .running }).acquire p p (.woken call)
    else none
  | .woken call =>
    some ((s.setSlot p fun slot => { slot with chan := none }).goto p (.enter call))
  | .leave _ => some (s.goto p .user)
  | .kill _ [] => some (s.goto p .user)
  | .kill pid (q :: todo) => s.acquire p q (.killing pid q todo)
  | .killing pid q todo =>
    if (s.proc q).pid = pid then some ((s.setSlot q Slot.kill).goto p .user)
    else some (s.goto p (.kill pid todo))

/-- The first place of a call. -/
inductive Start where
  | piperead (pi : Nat) (n : Int)
  | pipewrite (pi : Nat) (n : Int)
  | wait (addr : Bool)
  | sleep (n : UInt32)
  | consoleread (n : Int)
  | kill (pid : Int32)

def Start.place : Start → Place n
  | .piperead pi m => .enter (.piperead pi m)
  | .pipewrite pi m => .enter (.pipewrite pi m 0)
  | .wait addr => .enter (.wait addr)
  | .sleep m => .enter (.sleep m none)
  | .consoleread m => .enter (.consoleread m m)
  | .kill pid => .kill pid (List.finRange n)

inductive Event (n : Nat) where
  | call (p : Fin n) (start : Start)
  | step (p : Fin n) (valid : Bool)
  | other (p : Fin n) (slot : Slot n) -- a process that is in none of the calls runs other code
  -- other code under the lock of a pipe, `cons.lock`, `tickslock` or `wait_lock`
  | pipe (pi : Nat) (data : PipeData)
  | cons (data : ConsData)
  | tick
  | parent (p : Fin n) (new : Option (Fin n))
  | wakeup (q : Fin n) (chan : Chan n)
  | preempt (p : Fin n)
  | schedule (p : Fin n)

def Place.sleeps : Place n → Bool
  | .asleep _ => true
  | _ => false

/-- Only a `RUNNING` process runs; a process in `sched` is on its way to the scheduler. -/
def State.runs (s : State n) (p : Fin n) : Bool :=
  match s.place p with
  | .sched _ => true
  | .asleep _ => true
  | _ => (s.proc p).state == .running

def next (s : State n) : Event n → Option (State n)
  | .call p start =>
    match s.place p with
    | .user => if s.runs p then some (s.goto p start.place) else none
    | _ => none
  | .step p valid => if s.runs p then advance s p valid else none
  | .other p slot =>
    match s.place p with
    | .user => if s.plockFree p then some (s.setSlot p fun _ => slot) else none
    | _ => none
  | .pipe pi data => if s.lkFree (.pipe pi) then some (s.setPipe pi fun _ => data) else none
  | .cons data => if s.lkFree .cons then some { s with cons := data } else none
  | .tick => if s.lkFree .ticks then some { s with ticks := s.ticks + 1 } else none
  | .parent p new =>
    if s.lkFree .wait then some { s with parent := update s.parent p new } else none
  | .wakeup q chan => if s.plockFree q then some (s.setSlot q (Slot.rouse chan)) else none
  | .preempt p =>
    if (s.place p).lk = none ∧ (s.place p).plock p = none ∧ s.plockFree p ∧
        (s.proc p).state = .running then
      some (s.setSlot p fun slot => { slot with state := .runnable })
    else none
  | .schedule p =>
    if (s.place p).sleeps = false ∧ s.plockFree p ∧ (s.proc p).state = .runnable then
      some (s.setSlot p fun slot => { slot with state := .running })
    else none

def Step (s : State n) (event : Event n) (t : State n) : Prop := next s event = some t

/-- Any table of processes and any contents of the pipes and the console; nobody is in one
of the calls. -/
def Initial (s : State n) : Prop := ∀ p, s.place p = .user

end Xv6.Kill
