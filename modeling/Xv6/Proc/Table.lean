import Xv6.Lib.Places
import Xv6.Lib.Runs

/-!
# The process table

`fork`, `exit`, `wait`, `kill`, `sleep` and `wakeup` of `proc.c` between the
acquisitions and releases of `wait_lock` and of the locks of the processes.

A section under the lock of one process in which no other lock is taken or released
is one step. Two processes hold their own lock across such points: `sleep` takes
`p->lock` before it releases `wait_lock`, and so does `exit`. `allocpid` has a lock of
its own, and is part of the section of `allocproc`.

A process is given by its slot of the table, and by the number of its birth, which no
step reads: slots and pids are used again. The exits so far and the children that
`wait` has returned are history as well.
-/

namespace Xv6.Proc

inductive ProcState where
  | unused
  | used
  | sleeping
  | runnable
  | running
  | zombie
  deriving DecidableEq, Repr

/-- A channel: `wait` sleeps on the process itself, and others on other addresses. -/
inductive Chan (n : Nat) where
  | proc (p : Fin n)
  | other (address : Nat)
  deriving DecidableEq

/-- The address that `wait` gets for the status. -/
inductive Addr where
  | null
  | valid
  | invalid
  deriving DecidableEq, Repr

/-- `struct proc`. Of the page table and the trapframe only whether there is one. -/
structure Slot (n : Nat) where
  state : ProcState
  chan : Option (Chan n)
  killed : Bool
  xstate : Int32
  pid : Int32
  parent : Option (Fin n)
  pagetable : Bool
  trapframe : Bool
  born : Nat -- the number of the process in the slot, or of the last one
  creator : Nat

def Slot.freeproc {n : Nat} (slot : Slot n) : Slot n :=
  { slot with
    state := .unused, chan := none, killed := false, xstate := 0, pid := 0, parent := none
    pagetable := false, trapframe := false }

/-- Where a process is in its calls. -/
inductive Place (n : Nat) where
  | out
  | user
  | ret (result : Int32)
  | forkScan (rest : List (Fin n))
  | forkParent (np : Fin n)
  | forkRun (np : Fin n)
  | exitEnter (status : Int32)
  -- in `reparent`, with the slots still to look at
  | exitReparent (status : Int32) (rest : List (Fin n))
  -- in `wakeup(initproc)`, with the slots still to visit
  | exitWakeInit (status : Int32) (rest todo : List (Fin n))
  | exitWakeParent (status : Int32) (todo : List (Fin n))
  | exitLock (status : Int32)
  | exitRelease
  | exitSched
  | waitEnter (addr : Addr)
  | waitScan (addr : Addr) (rest : List (Fin n)) (havekids : Bool)
  | waitLook (addr : Addr) (pp : Fin n) (rest : List (Fin n))
  | waitTest (addr : Addr) (havekids : Bool)
  | sleepAcquire (addr : Addr)
  | sleepRelease (addr : Addr)
  | sleepMark (addr : Addr)
  -- in `sched`, or about to start in `forkret`; the call of `wait`, if it is in one
  | sched (wait : Option Addr)
  | waitExit (result : Int32)
  | killScan (pid : Int32) (rest : List (Fin n))
  deriving DecidableEq

/-- A child that `wait` has returned. -/
structure Reap where
  child : Nat
  reaper : Nat
  pid : Int32
  status : Option Int32
  deriving DecidableEq

structure State (n : Nat) where
  slot : Fin n → Slot n
  place : Fin n → Place n
  waitLock : Option (Fin n)
  nextpid : Int32
  births : Nat -- how many times `allocpid` was called, which numbers the processes
  pids : Nat → Int32
  exited : Nat → Option Int32 -- the statuses of the processes that have exited
  reaped : List Reap

/-- A call, or something else that a running process does. -/
inductive Call where
  | fork
  | exit (status : Int32)
  | wait (addr : Addr)
  | kill (pid : Int32)
  | yield
  | sleep (address : Nat) -- `sleep` on a channel that is not for `wait`

inductive Event (n : Nat) where
  | call (p : Fin n) (call : Call)
  -- the next step of the process; `memory` says whether there is enough of it
  | step (p : Fin n) (memory : Bool)
  | wakeup (p : Fin n) (address : Nat) -- a `wakeup` of another channel visits the process

variable {n : Nat} {old new : Place n}

/-- The process that takes the step; a `wakeup` of another channel comes from outside. -/
def Event.actor : Event n → Option (Fin n)
  | .call p _ | .step p _ => some p
  | .wakeup .. => none

namespace Place

/-- The process holds its own lock. -/
def locks : Place n → Bool
  | .exitRelease | .exitSched | .sleepRelease _ | .sleepMark _ => true
  | _ => false

/-- The process holds `wait_lock`. -/
def holds : Place n → Bool
  | .exitReparent .. | .exitWakeInit .. | .exitWakeParent .. | .exitLock _ | .exitRelease
  | .waitScan .. | .waitLook .. | .waitTest .. | .sleepAcquire _ | .sleepRelease _
  | .waitExit _ => true
  | _ => false

end Place

namespace State

def goto (s : State n) (p : Fin n) (place : Place n) : State n :=
  { s with place := Function.update s.place p place }

def setSlot (s : State n) (p : Fin n) (f : Slot n → Slot n) : State n :=
  { s with slot := Function.update s.slot p (f (s.slot p)) }

/-- `acquire(&wait_lock)` -/
def enter (s : State n) (p : Fin n) (place : Place n) : Option (State n) :=
  if s.waitLock = none then some ({ s with waitLock := some p }.goto p place) else none

/-- `release(&wait_lock)` -/
def leave (s : State n) (p : Fin n) (place : Place n) : State n :=
  { s with waitLock := none }.goto p place

/-- Whether the lock of a process is free. -/
def free (s : State n) (p : Fin n) : Bool := !(s.place p).locks

def allocpid (s : State n) : State n :=
  { s with
    nextpid := s.nextpid + 1
    births := s.births + 1
    pids := Function.update s.pids s.births s.nextpid }

/-- The section of `allocproc` and `fork` under `np->lock`, with enough memory. -/
def create (s : State n) (p np : Fin n) : State n :=
  (s.allocpid.setSlot np fun slot => { slot with
    state := .used, pid := s.nextpid, pagetable := true, trapframe := true
    born := s.births, creator := (s.slot p).born }).goto p (.forkParent np)

/-- The same without. -/
def fail (s : State n) (p np : Fin n) : State n :=
  (s.allocpid.setSlot np Slot.freeproc).goto p (.ret (-1))

/-- A visit of `wakeup(chan)`. -/
def rouse (s : State n) (p : Fin n) (chan : Chan n) : State n :=
  if (s.slot p).state = .sleeping ∧ (s.slot p).chan = some chan then
    s.setSlot p fun slot => { slot with state := .runnable }
  else s

/-- The section of `kill` under the lock of a process with the pid. -/
def kill (s : State n) (p : Fin n) : State n :=
  s.setSlot p fun slot => { slot with
    killed := true
    state := if slot.state = .sleeping then .runnable else slot.state }

/-- `p->xstate = status; p->state = ZOMBIE;` -/
def zombie (s : State n) (p : Fin n) (status : Int32) : State n :=
  { s.setSlot p fun slot => { slot with xstate := status, state := .zombie } with
    exited := Function.update s.exited (s.slot p).born (some status) }

/-- `freeproc(pp)` in `wait`, with the copy of the status before it. -/
def reap (s : State n) (p pp : Fin n) (addr : Addr) : State n :=
  { s.setSlot pp Slot.freeproc with
    reaped := {
      child := (s.slot pp).born, reaper := (s.slot p).born, pid := (s.slot pp).pid
      status := if addr = .null then none else some (s.slot pp).xstate } :: s.reaped }

end State

/-- The next step of a `wakeup` by `p`, for a call that goes on at `again` or `done`. -/
def wakeupStep (s : State n) (p : Fin n) (chan : Option (Chan n))
    (again : List (Fin n) → Place n) (done : Place n) : List (Fin n) → Option (State n)
  | [] => some (s.goto p done)
  | q :: todo =>
    if q = p then some (s.goto p (again todo))
    else if s.free q then
      match chan with
      | some chan => some ((s.rouse q chan).goto p (again todo))
      | none => some (s.goto p (again todo))
    else none

/-- The next step of a process. -/
def advance (initproc : Fin n) (s : State n) (p : Fin n) (memory : Bool) : Option (State n) :=
  match s.place p with
  | .out | .user => none
  | .ret _ => some (s.goto p .user)
  | .forkScan [] => some (s.goto p (.ret (-1)))
  | .forkScan (q :: rest) =>
    if s.free q then
      if (s.slot q).state = .unused then some (if memory then s.create p q else s.fail p q)
      else some (s.goto p (.forkScan rest))
    else none
  | .forkParent np =>
    if s.waitLock = none then
      some ((s.setSlot np fun slot => { slot with parent := some p }).goto p (.forkRun np))
    else none
  | .forkRun np =>
    if s.free np then
      some (((s.setSlot np fun slot => { slot with state := .runnable }).goto np
        (.sched none)).goto p (.ret (s.slot np).pid))
    else none
  | .exitEnter status => s.enter p (.exitReparent status (List.finRange n))
  | .exitReparent status [] => some (s.goto p (.exitWakeParent status (List.finRange n)))
  | .exitReparent status (q :: rest) =>
    if (s.slot q).parent = some p then
      some ((s.setSlot q fun slot => { slot with parent := some initproc }).goto p
        (.exitWakeInit status rest (List.finRange n)))
    else some (s.goto p (.exitReparent status rest))
  | .exitWakeInit status rest todo =>
    wakeupStep s p (some (.proc initproc)) (.exitWakeInit status rest)
      (.exitReparent status rest) todo
  | .exitWakeParent status todo =>
    wakeupStep s p ((s.slot p).parent.map .proc) (.exitWakeParent status) (.exitLock status) todo
  | .exitLock status => some ((s.zombie p status).goto p .exitRelease)
  | .exitRelease => some (s.leave p .exitSched)
  | .exitSched => some (s.goto p .out)
  | .waitEnter addr => s.enter p (.waitScan addr (List.finRange n) false)
  | .waitScan addr [] havekids => some (s.goto p (.waitTest addr havekids))
  | .waitScan addr (q :: rest) havekids =>
    if (s.slot q).parent = some p then some (s.goto p (.waitLook addr q rest))
    else some (s.goto p (.waitScan addr rest havekids))
  | .waitLook addr pp rest =>
    if s.free pp then
      if (s.slot pp).state = .zombie then
        if addr = .invalid then some (s.goto p (.waitExit (-1)))
        else some ((s.reap p pp addr).goto p (.waitExit (s.slot pp).pid))
      else some (s.goto p (.waitScan addr rest true))
    else none
  | .waitTest addr havekids =>
    if havekids = false ∨ (s.slot p).killed = true then some (s.goto p (.waitExit (-1)))
    else some (s.goto p (.sleepAcquire addr))
  | .sleepAcquire addr => some (s.goto p (.sleepRelease addr))
  | .sleepRelease addr => some (s.leave p (.sleepMark addr))
  | .sleepMark addr =>
    some ((s.setSlot p fun slot => { slot with state := .sleeping, chan := some (.proc p) }).goto p
      (.sched (some addr)))
  | .sched wait =>
    -- the scheduler takes the lock of a process that is `RUNNABLE`, and the process
    -- clears its channel and releases it
    if (s.slot p).state = .runnable then
      some ((s.setSlot p fun slot => { slot with state := .running, chan := none }).goto p
        (match wait with
        | some addr => .waitEnter addr
        | none => .user))
    else none
  | .waitExit result => some (s.leave p (.ret result))
  | .killScan _ [] => some (s.goto p (.ret (-1)))
  | .killScan pid (q :: rest) =>
    if s.free q then
      if (s.slot q).pid = pid then some ((s.kill q).goto p (.ret 0))
      else some (s.goto p (.killScan pid rest))
    else none

/-- The start of a call by a process that runs. `exit` of `initproc` panics. -/
def start (initproc : Fin n) (s : State n) (p : Fin n) : Call → Option (State n)
  | .fork => some (s.goto p (.forkScan (List.finRange n)))
  | .exit status => if p = initproc then none else some (s.goto p (.exitEnter status))
  | .wait addr => some (s.goto p (.waitEnter addr))
  | .kill pid => some (s.goto p (.killScan pid (List.finRange n)))
  | .yield =>
    some ((s.setSlot p fun slot => { slot with state := .runnable }).goto p (.sched none))
  | .sleep address =>
    some ((s.setSlot p fun slot => { slot with
      state := .sleeping, chan := some (.other address) }).goto p (.sched none))

/-- One step of the system. -/
def next (initproc : Fin n) (s : State n) : Event n → Option (State n)
  | .call p call =>
    match s.place p with
    | .user => start initproc s p call
    | _ => none
  | .step p memory => advance initproc s p memory
  | .wakeup p address => if s.free p then some (s.rouse p (.other address)) else none

def Step (initproc : Fin n) (s : State n) (event : Event n) (t : State n) : Prop :=
  next initproc s event = some t

/-- The table after `userinit`: one process, with the pid 1. -/
def initial (initproc : Fin n) : State n where
  slot := fun p =>
    if p = initproc then
      { state := .runnable, chan := none, killed := false, xstate := 0, pid := 1, parent := none
        pagetable := true, trapframe := true, born := 0, creator := 0 }
    else
      { state := .unused, chan := none, killed := false, xstate := 0, pid := 0, parent := none
        pagetable := false, trapframe := false, born := 0, creator := 0 }
  place := fun p => if p = initproc then .sched none else .out
  waitLock := none
  nextpid := 2
  births := 1
  pids := fun _ => 1
  exited := fun _ => none
  reaped := []

/-! ## What one step does -/

/-- The steps that only move the process itself. -/
inductive Moves (initproc : Fin n) (s : State n) (p : Fin n) : Place n → Place n → Prop where
  | fork : Moves initproc s p .user (.forkScan (List.finRange n))
  | exit {status : Int32} : p ≠ initproc → Moves initproc s p .user (.exitEnter status)
  | wait {addr : Addr} : Moves initproc s p .user (.waitEnter addr)
  | kill {pid : Int32} : Moves initproc s p .user (.killScan pid (List.finRange n))
  | ret {result : Int32} : Moves initproc s p (.ret result) .user
  | forkNone : Moves initproc s p (.forkScan []) (.ret (-1))
  | forkSkip {q : Fin n} {rest : List (Fin n)} : (s.slot q).state ≠ .unused →
      Moves initproc s p (.forkScan (q :: rest)) (.forkScan rest)
  | reparentDone {status : Int32} : Moves initproc s p (.exitReparent status [])
      (.exitWakeParent status (List.finRange n))
  | reparentSkip {status : Int32} {q : Fin n} {rest : List (Fin n)} : (s.slot q).parent ≠ some p →
      Moves initproc s p (.exitReparent status (q :: rest)) (.exitReparent status rest)
  | initWoken {status : Int32} {rest : List (Fin n)} :
      Moves initproc s p (.exitWakeInit status rest []) (.exitReparent status rest)
  | initSelf {status : Int32} {rest todo : List (Fin n)} :
      Moves initproc s p (.exitWakeInit status rest (p :: todo)) (.exitWakeInit status rest todo)
  | parentWoken {status : Int32} : Moves initproc s p (.exitWakeParent status []) (.exitLock status)
  | parentSelf {status : Int32} {todo : List (Fin n)} :
      Moves initproc s p (.exitWakeParent status (p :: todo)) (.exitWakeParent status todo)
  | parentNone {status : Int32} {q : Fin n} {todo : List (Fin n)} : (s.slot p).parent = none →
      Moves initproc s p (.exitWakeParent status (q :: todo)) (.exitWakeParent status todo)
  | exitSched : Moves initproc s p .exitSched .out
  | scanDone {addr : Addr} {havekids : Bool} :
      Moves initproc s p (.waitScan addr [] havekids) (.waitTest addr havekids)
  | scanSkip {addr : Addr} {q : Fin n} {rest : List (Fin n)} {havekids : Bool} :
      (s.slot q).parent ≠ some p →
      Moves initproc s p (.waitScan addr (q :: rest) havekids) (.waitScan addr rest havekids)
  | scanLook {addr : Addr} {q : Fin n} {rest : List (Fin n)} {havekids : Bool} :
      (s.slot q).parent = some p →
      Moves initproc s p (.waitScan addr (q :: rest) havekids) (.waitLook addr q rest)
  | lookInvalid {pp : Fin n} {rest : List (Fin n)} : (s.slot pp).state = .zombie →
      Moves initproc s p (.waitLook .invalid pp rest) (.waitExit (-1))
  | lookAlive {addr : Addr} {pp : Fin n} {rest : List (Fin n)} : (s.slot pp).state ≠ .zombie →
      Moves initproc s p (.waitLook addr pp rest) (.waitScan addr rest true)
  | testExit {addr : Addr} {havekids : Bool} : havekids = false ∨ (s.slot p).killed = true →
      Moves initproc s p (.waitTest addr havekids) (.waitExit (-1))
  | testSleep {addr : Addr} : Moves initproc s p (.waitTest addr true) (.sleepAcquire addr)
  | sleepAcquire {addr : Addr} : Moves initproc s p (.sleepAcquire addr) (.sleepRelease addr)
  | killNone {pid : Int32} : Moves initproc s p (.killScan pid []) (.ret (-1))
  | killSkip {pid : Int32} {q : Fin n} {rest : List (Fin n)} : (s.slot q).pid ≠ pid →
      Moves initproc s p (.killScan pid (q :: rest)) (.killScan pid rest)

/-- The steps that take `wait_lock`. -/
inductive Enters : Place n → Place n → Prop where
  | exit {status : Int32} : Enters (.exitEnter status) (.exitReparent status (List.finRange n))
  | wait {addr : Addr} : Enters (.waitEnter addr) (.waitScan addr (List.finRange n) false)

/-- The steps that release it. -/
inductive Leaves : Place n → Place n → Prop where
  | exit : Leaves .exitRelease .exitSched
  | sleep {addr : Addr} : Leaves (.sleepRelease addr) (.sleepMark addr)
  | wait {result : Int32} : Leaves (.waitExit result) (.ret result)

/-- The visits of a `wakeup` in `exit`. -/
inductive Visits (initproc : Fin n) (s : State n) (p : Fin n) :
    Place n → Fin n → Chan n → Place n → Prop where
  | init {status : Int32} {q : Fin n} {rest todo : List (Fin n)} :
      Visits initproc s p (.exitWakeInit status rest (q :: todo)) q (.proc initproc)
        (.exitWakeInit status rest todo)
  | parent {status : Int32} {q r : Fin n} {todo : List (Fin n)} : (s.slot p).parent = some r →
      Visits initproc s p (.exitWakeParent status (q :: todo)) q (.proc r)
        (.exitWakeParent status todo)

/-- What one step does, and which process takes it. -/
inductive Effect (initproc : Fin n) (s : State n) : Option (Fin n) → State n → Prop where
  | move {p : Fin n} {new : Place n} : Moves initproc s p (s.place p) new →
      Effect initproc s (some p) (s.goto p new)
  | enter {p : Fin n} {new : Place n} : Enters (s.place p) new → s.waitLock = none →
      Effect initproc s (some p) ({ s with waitLock := some p }.goto p new)
  | leave {p : Fin n} {new : Place n} : Leaves (s.place p) new →
      Effect initproc s (some p) (s.leave p new)
  | yield {p : Fin n} : s.place p = .user → Effect initproc s (some p)
        ((s.setSlot p fun slot => { slot with state := .runnable }).goto p (.sched none))
  | sleep {p : Fin n} {address : Nat} : s.place p = .user →
      Effect initproc s (some p) ((s.setSlot p fun slot => { slot with
        state := .sleeping, chan := some (.other address) }).goto p (.sched none))
  | wakeup {p : Fin n} {address : Nat} : s.free p = true →
      Effect initproc s none (s.rouse p (.other address))
  | create {p np : Fin n} {rest : List (Fin n)} : s.place p = .forkScan (np :: rest) →
      (s.slot np).state = .unused → Effect initproc s (some p) (s.create p np)
  | fail {p np : Fin n} {rest : List (Fin n)} : s.place p = .forkScan (np :: rest) →
      (s.slot np).state = .unused → Effect initproc s (some p) (s.fail p np)
  | parent {p np : Fin n} : s.place p = .forkParent np → s.waitLock = none →
      Effect initproc s (some p)
        ((s.setSlot np fun slot => { slot with parent := some p }).goto p (.forkRun np))
  | run {p np : Fin n} : s.place p = .forkRun np →
      Effect initproc s (some p)
        (((s.setSlot np fun slot => { slot with state := .runnable }).goto np
        (.sched none)).goto p (.ret (s.slot np).pid))
  | reparent {p q : Fin n} {status : Int32} {rest : List (Fin n)} :
      s.place p = .exitReparent status (q :: rest) → (s.slot q).parent = some p →
      Effect initproc s (some p)
        ((s.setSlot q fun slot => { slot with parent := some initproc }).goto p
        (.exitWakeInit status rest (List.finRange n)))
  | visit {p q : Fin n} {chan : Chan n} {new : Place n} :
      Visits initproc s p (s.place p) q chan new → q ≠ p → s.free q = true →
      Effect initproc s (some p) ((s.rouse q chan).goto p new)
  | zombie {p : Fin n} {status : Int32} : s.place p = .exitLock status →
      Effect initproc s (some p) ((s.zombie p status).goto p .exitRelease)
  | reap {p pp : Fin n} {addr : Addr} {rest : List (Fin n)} :
      s.place p = .waitLook addr pp rest → s.free pp = true → (s.slot pp).state = .zombie →
      addr ≠ .invalid →
      Effect initproc s (some p) ((s.reap p pp addr).goto p (.waitExit (s.slot pp).pid))
  | sleepMark {p : Fin n} {addr : Addr} : s.place p = .sleepMark addr →
      Effect initproc s (some p) ((s.setSlot p fun slot => { slot with
        state := .sleeping, chan := some (.proc p) }).goto p (.sched (some addr)))
  | resume {p : Fin n} {wait : Option Addr} : s.place p = .sched wait →
      (s.slot p).state = .runnable →
      Effect initproc s (some p) ((s.setSlot p fun slot => { slot with
        state := .running, chan := none }).goto p (match wait with
          | some addr => .waitEnter addr
          | none => .user))
  | kill {p q : Fin n} {pid : Int32} {rest : List (Fin n)} :
      s.place p = .killScan pid (q :: rest) → s.free q = true → (s.slot q).pid = pid →
      Effect initproc s (some p) ((s.kill q).goto p (.ret 0))

variable {initproc : Fin n} {s t : State n} {p : Fin n}

theorem Effect.moves (here : s.place p = old)
    (moves : Moves initproc s p old new) : Effect initproc s (some p) (s.goto p new) :=
  .move (by rwa [here])

theorem enter_effect (here : s.place p = old) (enters : Enters old new)
    (stepped : s.enter p new = some t) : Effect initproc s (some p) t := by
  unfold State.enter at stepped
  split at stepped
  next free =>
    cases stepped
    exact .enter (by rwa [here]) free
  next => cases stepped

theorem advance_effect {memory : Bool} (stepped : advance initproc s p memory = some t) :
    Effect initproc s (some p) t := by
  unfold advance at stepped
  split at stepped
  case h_1 | h_2 => cases stepped
  case h_3 here => cases stepped; exact .moves here .ret
  case h_4 here => cases stepped; exact .moves here .forkNone
  case h_5 q rest here =>
    split at stepped
    next free =>
      split at stepped
      next unused =>
        cases memory <;> cases stepped
        · exact .fail here unused
        · exact .create here unused
      next other => cases stepped; exact .moves here (.forkSkip other)
    next => cases stepped
  case h_6 np here =>
    split at stepped
    next free => cases stepped; exact .parent here free
    next => cases stepped
  case h_7 np here =>
    split at stepped
    next free => cases stepped; exact .run here
    next => cases stepped
  case h_8 here => exact enter_effect here .exit stepped
  case h_9 here => cases stepped; exact .moves here .reparentDone
  case h_10 here =>
    split at stepped
    next child => cases stepped; exact .reparent here child
    next other => cases stepped; exact .moves here (.reparentSkip other)
  case h_11 status rest todo here =>
    cases todo with
    | nil => cases stepped; exact .moves here .initWoken
    | cons q todo =>
      simp only [wakeupStep] at stepped
      split at stepped
      next same => cases stepped; subst same; exact .moves here .initSelf
      next other =>
        split at stepped
        next free =>
          cases stepped
          exact .visit (by rw [here]; exact .init) other free
        next => cases stepped
  case h_12 status todo here =>
    cases todo with
    | nil => cases stepped; exact .moves here .parentWoken
    | cons q todo =>
      simp only [wakeupStep] at stepped
      split at stepped
      next same => cases stepped; subst same; exact .moves here .parentSelf
      next other =>
        split at stepped
        next free =>
          cases parent : (s.slot p).parent with
          | none =>
            simp only [parent, Option.map_none] at stepped
            cases stepped
            exact .moves here (.parentNone parent)
          | some r =>
            simp only [parent, Option.map_some] at stepped
            cases stepped
            exact .visit (by rw [here]; exact .parent parent) other free
        next => cases stepped
  case h_13 here => cases stepped; exact .zombie here
  case h_14 here => cases stepped; exact .leave (by rw [here]; exact .exit)
  case h_15 here => cases stepped; exact .moves here .exitSched
  case h_16 here => exact enter_effect here .wait stepped
  case h_17 here => cases stepped; exact .moves here .scanDone
  case h_18 here =>
    split at stepped
    next child => cases stepped; exact .moves here (.scanLook child)
    next other => cases stepped; exact .moves here (.scanSkip other)
  case h_19 addr pp rest here =>
    split at stepped
    next free =>
      split at stepped
      next dead =>
        split at stepped
        next invalid =>
          cases stepped
          subst invalid
          exact .moves here (.lookInvalid dead)
        next valid => cases stepped; exact .reap here free dead valid
      next alive => cases stepped; exact .moves here (.lookAlive alive)
    next => cases stepped
  case h_20 addr havekids here =>
    split at stepped
    next isOver => cases stepped; exact .moves here (.testExit isOver)
    next more =>
      cases stepped
      cases havekids with
      | false => exact absurd (.inl rfl) more
      | true => exact .moves here .testSleep
  case h_21 here => cases stepped; exact .moves here .sleepAcquire
  case h_22 here => cases stepped; exact .leave (by rw [here]; exact .sleep)
  case h_23 here => cases stepped; exact .sleepMark here
  case h_24 wait here =>
    split at stepped
    next ready => cases stepped; exact .resume here ready
    next => cases stepped
  case h_25 here => cases stepped; exact .leave (by rw [here]; exact .wait)
  case h_26 here => cases stepped; exact .moves here .killNone
  case h_27 here =>
    split at stepped
    next free =>
      split at stepped
      next same => cases stepped; exact .kill here free same
      next other => cases stepped; exact .moves here (.killSkip other)
    next => cases stepped

theorem Step.effect {event : Event n} (stepped : Step initproc s event t) :
    Effect initproc s event.actor t := by
  unfold Step next at stepped
  cases event with
  | call p call =>
    simp only at stepped
    split at stepped
    next here =>
      cases call with
      | fork => cases stepped; exact .moves here .fork
      | exit status =>
        simp only [start] at stepped
        split at stepped
        next => cases stepped
        next other => cases stepped; exact .moves here (.exit other)
      | wait addr => cases stepped; exact .moves here .wait
      | kill pid => cases stepped; exact .moves here .kill
      | yield => cases stepped; exact .yield here
      | sleep address => cases stepped; exact .sleep here
    next => cases stepped
  | step p memory => exact advance_effect stepped
  | wakeup p address =>
    simp only at stepped
    split at stepped
    next free => cases stepped; exact .wakeup free
    next => cases stepped

end Xv6.Proc
