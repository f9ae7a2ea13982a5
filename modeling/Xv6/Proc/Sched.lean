import Mathlib.Data.UInt
import Xv6.Proc.Table

/-!
# The scheduler

`scheduler`, `sched`, `yield`, `sleep`, `exit`, `forkret` and `swtch` on any number of
CPUs, one access at a time to what they share. The scheduler takes the lock of a process
and switches to it; the process releases the lock. The process takes the lock again,
changes its state and switches back to the scheduler of the CPU it runs on, which
releases it. `swtch` stores the 14 callee-saved registers in the old context and loads
them from the new one, one instruction after the other.

A CPU that runs a process, or the scheduler with interrupts on, also takes the locks of
other processes: for `wakeup`, `kill`, `allocproc` and `fork`, and `freeproc` in `wait`.
What it does to the process then is one of the changes that these functions make; which
process asks for it does not matter here.
-/

namespace Xv6.Sched

open Function

open Proc (ProcState)

/-- `struct context`: `ra`, `sp` and `s0` to `s11`. -/
abbrev Context := Fin 14 → UInt64

/-- How a process leaves the CPU. -/
inductive Leave where
  | yield
  | sleep
  | exit
  deriving DecidableEq, Repr

/-- The state that it has then. -/
def Leave.state : Leave → ProcState
  | .yield => .runnable
  | .sleep => .sleeping
  | .exit => .zombie

/-- What happens to a process under its lock. -/
inductive Act where
  | wakeup
  | allocproc
  | start
  | freeproc
  deriving DecidableEq, Repr

/-- Where a CPU is. -/
inductive Pc (n : Nat) where
  | idle
  | look (p : Fin n)
  | chosen (p : Fin n)
  -- in `swtch(&c->context, &p->context)`, with the number of instructions done
  | switchIn (p : Fin n) (k : Nat)
  | resumed (p : Fin n) -- the process behind `swtch` in `sched`, or in `forkret`
  | runs (p : Fin n)
  | owns (p : Fin n) (how : Leave) -- `yield`, `sleep` or `exit` behind `acquire(&p->lock)`
  | leaves (p : Fin n)
  -- in `swtch(&p->context, &c->context)`, with the number of instructions done
  | switchOut (p : Fin n) (k : Nat)
  | back (p : Fin n)
  | cleared (p : Fin n)
  -- the process `p`, or an interrupt of the scheduler, has the lock of `q`
  | visit (p : Option (Fin n)) (q : Fin n)
  deriving DecidableEq

structure State (n m : Nat) where
  state : Fin n → ProcState
  lock : Fin n → Option (Fin m)
  context : Fin n → Context
  proc : Fin m → Option (Fin n)
  scheduler : Fin m → Context
  regs : Fin m → Context
  rest : Fin m → List (Fin n)
  pc : Fin m → Pc n
  -- the registers of the process when it last called `swtch`; no step reads them
  saved : Fin n → Context

inductive Event (n m : Nat) where
  | step (c : Fin m) -- the next step of `scheduler`, `sched`, `swtch`, or the release of a lock
  | leave (c : Fin m) (how : Leave)
  | visit (c : Fin m) (q : Fin n)
  | act (c : Fin m) (act : Act)
  | compute (c : Fin m) (regs : Context) -- the code that the CPU executes changes the registers

variable {n m : Nat} {k : Nat} {q : Fin n} {i : Fin 14}

namespace State

def goto (s : State n m) (c : Fin m) (pc : Pc n) : State n m :=
  { s with pc := update s.pc c pc }

def acquire (s : State n m) (c : Fin m) (q : Fin n) (pc : Pc n) : Option (State n m) :=
  if s.lock q = none then
    some ({ s with lock := update s.lock q (some c) }.goto c pc)
  else none

def release (s : State n m) (c : Fin m) (q : Fin n) (pc : Pc n) : State n m :=
  { s with lock := update s.lock q none }.goto c pc

def setState (s : State n m) (p : Fin n) (state : ProcState) : State n m :=
  { s with state := update s.state p state }

def setProc (s : State n m) (c : Fin m) (p : Option (Fin n)) : State n m :=
  { s with proc := update s.proc c p }

/-- A store of `swtch` to `c->context`. -/
def storeScheduler (s : State n m) (c : Fin m) (i : Fin 14) : State n m :=
  { s with
    scheduler := update s.scheduler c (update (s.scheduler c) i (s.regs c i)) }

/-- A store of `swtch` to `p->context`. -/
def storeProc (s : State n m) (c : Fin m) (p : Fin n) (i : Fin 14) : State n m :=
  { s with context := update s.context p (update (s.context p) i (s.regs c i)) }

/-- A load of `swtch`. -/
def load (s : State n m) (c : Fin m) (i : Fin 14) (value : UInt64) : State n m :=
  { s with regs := update s.regs c (update (s.regs c) i value) }

/-- The context that `allocproc` gives to a process, which is then the first one that the
process comes back to. -/
def setContext (s : State n m) (q : Fin n) (context : Context) : State n m :=
  { s with
    context := update s.context q context
    saved := update s.saved q context }

end State

/-- An instruction of `swtch`: a store, a load, or the return. -/
inductive Instr where
  | store (i : Fin 14)
  | load (i : Fin 14)
  | ret

/-- `swtch.S` -/
def swtch (k : Nat) : Instr :=
  if stores : k < 14 then .store ⟨k, stores⟩
  else if loads : k - 14 < 14 then .load ⟨k - 14, loads⟩
  else .ret

/-- The context of a new process: `ra` is `forkret`, `sp` the end of its kernel stack. -/
def fresh (forkret stack : UInt64) : Context :=
  fun i => if i = 0 then forkret else if i = 1 then stack else 0

section Steps

variable (forkret : UInt64) (stack : Fin n → UInt64)

/-- The next step of the code on a CPU. -/
def advance (s : State n m) (c : Fin m) : Option (State n m) :=
  match s.pc c with
  | .idle =>
    match s.rest c with
    | [] => some { s with rest := update s.rest c (List.finRange n) }
    | p :: rest => { s with rest := update s.rest c rest }.acquire c p (.look p)
  | .look p =>
    if s.state p = .runnable then some ((s.setState p .running).goto c (.chosen p))
    else some (s.release c p .idle)
  | .chosen p => some ((s.setProc c (some p)).goto c (.switchIn p 0))
  | .switchIn p k =>
    match swtch k with
    | .store i => some ((s.storeScheduler c i).goto c (.switchIn p (k + 1)))
    | .load i => some ((s.load c i (s.context p i)).goto c (.switchIn p (k + 1)))
    | .ret => some (s.goto c (.resumed p))
  | .resumed p => some (s.release c p (.runs p))
  | .runs _ => none
  | .owns p how => some ((s.setState p how.state).goto c (.leaves p))
  | .leaves p =>
    some ({ s with saved := update s.saved p (s.regs c) }.goto c (.switchOut p 0))
  | .switchOut p k =>
    match swtch k with
    | .store i => some ((s.storeProc c p i).goto c (.switchOut p (k + 1)))
    | .load i => some ((s.load c i (s.scheduler c i)).goto c (.switchOut p (k + 1)))
    | .ret => some (s.goto c (.back p))
  | .back p => some ((s.setProc c none).goto c (.cleared p))
  | .cleared p => some (s.release c p .idle)
  | .visit none q => some (s.release c q .idle)
  | .visit (some p) q => some (s.release c q (.runs p))

/-- A change of a process by a CPU that has its lock. -/
def change (s : State n m) (q : Fin n) : Act → Option (State n m)
  | .wakeup => if s.state q = .sleeping then some (s.setState q .runnable) else none
  | .allocproc =>
    if s.state q = .unused then some ((s.setState q .used).setContext q (fresh forkret (stack q)))
    else none
  | .start => if s.state q = .used then some (s.setState q .runnable) else none
  | .freeproc =>
    if s.state q = .zombie ∨ s.state q = .used then some (s.setState q .unused) else none

/-- One step of the system. -/
def next (s : State n m) : Event n m → Option (State n m)
  | .step c => advance s c
  | .leave c how =>
    match s.pc c with
    | .runs p => s.acquire c p (.owns p how)
    | _ => none
  | .visit c q =>
    match s.pc c with
    | .idle => s.acquire c q (.visit none q)
    | .runs p => s.acquire c q (.visit (some p) q)
    | _ => none
  | .act c act =>
    match s.pc c with
    | .visit _ q => change forkret stack s q act
    | _ => none
  | .compute c regs =>
    match s.pc c with
    | .switchIn .. | .switchOut .. => none
    | _ => some { s with regs := update s.regs c regs }

def Step (s : State n m) (event : Event n m) (t : State n m) : Prop :=
  next forkret stack s event = some t

/-- Before the CPUs enter `scheduler`: `userinit` has made one process. -/
def initial (n m : Nat) (forkret : UInt64) (stack : Fin n → UInt64) (initproc : Fin n) :
    State n m where
  state := fun p => if p = initproc then .runnable else .unused
  lock := fun _ => none
  context := fun p => if p = initproc then fresh forkret (stack p) else 0
  proc := fun _ => none
  scheduler := fun _ => 0
  regs := fun _ => 0
  rest := fun _ => []
  pc := fun _ => .idle
  saved := fun p => if p = initproc then fresh forkret (stack p) else 0

end Steps

/-! ## What one step does -/

variable {forkret : UInt64} {stack : Fin n → UInt64} {s t : State n m} {c : Fin m}

/-- The changes of a process under its lock. -/
inductive Changes (forkret : UInt64) (stack : Fin n → UInt64) (s : State n m) (q : Fin n) :
    State n m → Prop where
  | state {state : ProcState} : s.state q ≠ .running → state ≠ .running →
      Changes forkret stack s q (s.setState q state)
  | create {state : ProcState} : s.state q ≠ .running → state ≠ .running →
      Changes forkret stack s q ((s.setState q state).setContext q (fresh forkret (stack q)))

inductive Effect (forkret : UInt64) (stack : Fin n → UInt64) (s : State n m) :
    State n m → Prop where
  | round {c : Fin m} {rest : List (Fin n)} :
      Effect forkret stack s { s with rest := update s.rest c rest }
  | look {c : Fin m} {p : Fin n} {rest : List (Fin n)} : s.pc c = .idle → s.lock p = none →
      Effect forkret stack s ({ s with
        rest := update s.rest c rest
        lock := update s.lock p (some c) }.goto c (.look p))
  | pass {c : Fin m} {p : Fin n} : s.pc c = .look p → Effect forkret stack s (s.release c p .idle)
  | choose {c : Fin m} {p : Fin n} : s.pc c = .look p → s.state p = .runnable →
      Effect forkret stack s ((s.setState p .running).goto c (.chosen p))
  | assign {c : Fin m} {p : Fin n} : s.pc c = .chosen p →
      Effect forkret stack s ((s.setProc c (some p)).goto c (.switchIn p 0))
  | inStore {c : Fin m} {p : Fin n} {k : Nat} {i : Fin 14} : s.pc c = .switchIn p k → i.val = k →
      Effect forkret stack s ((s.storeScheduler c i).goto c (.switchIn p (k + 1)))
  | inLoad {c : Fin m} {p : Fin n} {k : Nat} {i : Fin 14} : s.pc c = .switchIn p k →
      i.val + 14 = k →
      Effect forkret stack s ((s.load c i (s.context p i)).goto c (.switchIn p (k + 1)))
  | inReturn {c : Fin m} {p : Fin n} {k : Nat} : s.pc c = .switchIn p k → 28 ≤ k →
      Effect forkret stack s (s.goto c (.resumed p))
  | resume {c : Fin m} {p : Fin n} : s.pc c = .resumed p →
      Effect forkret stack s (s.release c p (.runs p))
  | own {c : Fin m} {p : Fin n} {how : Leave} : s.pc c = .runs p → s.lock p = none →
      Effect forkret stack s ({ s with lock := update s.lock p (some c) }.goto c (.owns p how))
  | mark {c : Fin m} {p : Fin n} {how : Leave} : s.pc c = .owns p how →
      Effect forkret stack s ((s.setState p how.state).goto c (.leaves p))
  | leave {c : Fin m} {p : Fin n} : s.pc c = .leaves p → Effect forkret stack s
        ({ s with saved := update s.saved p (s.regs c) }.goto c (.switchOut p 0))
  | outStore {c : Fin m} {p : Fin n} {k : Nat} {i : Fin 14} : s.pc c = .switchOut p k → i.val = k →
      Effect forkret stack s ((s.storeProc c p i).goto c (.switchOut p (k + 1)))
  | outLoad {c : Fin m} {p : Fin n} {k : Nat} {i : Fin 14} : s.pc c = .switchOut p k →
      i.val + 14 = k →
      Effect forkret stack s ((s.load c i (s.scheduler c i)).goto c (.switchOut p (k + 1)))
  | outReturn {c : Fin m} {p : Fin n} {k : Nat} : s.pc c = .switchOut p k → 28 ≤ k →
      Effect forkret stack s (s.goto c (.back p))
  | clear {c : Fin m} {p : Fin n} : s.pc c = .back p →
      Effect forkret stack s ((s.setProc c none).goto c (.cleared p))
  | done {c : Fin m} {p : Fin n} : s.pc c = .cleared p →
      Effect forkret stack s (s.release c p .idle)
  | visitIdle {c : Fin m} {q : Fin n} : s.pc c = .idle → s.lock q = none → Effect forkret stack s
        ({ s with lock := update s.lock q (some c) }.goto c (.visit none q))
  | visitRuns {c : Fin m} {p q : Fin n} : s.pc c = .runs p → s.lock q = none →
      Effect forkret stack s
        ({ s with lock := update s.lock q (some c) }.goto c (.visit (some p) q))
  | change {c : Fin m} {p : Option (Fin n)} {q : Fin n} {t : State n m} : s.pc c = .visit p q →
      Changes forkret stack s q t → Effect forkret stack s t
  | leftIdle {c : Fin m} {q : Fin n} : s.pc c = .visit none q →
      Effect forkret stack s (s.release c q .idle)
  | leftRuns {c : Fin m} {p q : Fin n} : s.pc c = .visit (some p) q →
      Effect forkret stack s (s.release c q (.runs p))
  | compute {c : Fin m} {regs : Context} : (∀ p k, s.pc c ≠ .switchIn p k) →
      (∀ p k, s.pc c ≠ .switchOut p k) →
      Effect forkret stack s { s with regs := update s.regs c regs }

theorem acquire_eq {pc : Pc n} (taken : s.acquire c q pc = some t) :
    s.lock q = none ∧ t = { s with lock := update s.lock q (some c) }.goto c pc := by
  unfold State.acquire at taken
  split at taken
  next free => exact ⟨free, (Option.some.inj taken).symm⟩
  next => cases taken

theorem swtch_store (at_ : swtch k = .store i) : i.val = k := by
  unfold swtch at at_
  split at at_
  · cases at_
    rfl
  · split at at_ <;> cases at_

theorem swtch_load (at_ : swtch k = .load i) : i.val + 14 = k := by
  unfold swtch at at_
  split at at_
  · cases at_
  · split at at_
    · cases at_
      simp only
      omega
    · cases at_

theorem swtch_ret (at_ : swtch k = .ret) : 28 ≤ k := by
  unfold swtch at at_
  split at at_
  · cases at_
  · split at at_
    · cases at_
    · omega

theorem advance_effect (stepped : advance s c = some t) : Effect forkret stack s t := by
  unfold advance at stepped
  split at stepped
  case h_1 here =>
    split at stepped
    next => cases stepped; exact .round
    next p rest _ =>
      obtain ⟨free, rfl⟩ := acquire_eq stepped
      exact .look here free
  case h_2 p here =>
    split at stepped <;> cases stepped
    next ready => exact .choose here ready
    next => exact .pass here
  case h_3 here => cases stepped; exact .assign here
  case h_4 p k here =>
    split at stepped <;> cases stepped
    next at_ => exact .inStore here (swtch_store at_)
    next at_ => exact .inLoad here (swtch_load at_)
    next at_ => exact .inReturn here (swtch_ret at_)
  case h_5 here => cases stepped; exact .resume here
  case h_6 => cases stepped
  case h_7 here => cases stepped; exact .mark here
  case h_8 here => cases stepped; exact .leave here
  case h_9 p k here =>
    split at stepped <;> cases stepped
    next at_ => exact .outStore here (swtch_store at_)
    next at_ => exact .outLoad here (swtch_load at_)
    next at_ => exact .outReturn here (swtch_ret at_)
  case h_10 here => cases stepped; exact .clear here
  case h_11 here => cases stepped; exact .done here
  case h_12 here => cases stepped; exact .leftIdle here
  case h_13 here => cases stepped; exact .leftRuns here

theorem change_changes {act : Act} (changed : change forkret stack s q act = some t) :
    Changes forkret stack s q t := by
  cases act <;> simp only [change] at changed <;> split at changed <;> cases changed
  next asleep => exact .state (by simp [asleep]) nofun
  next unused => exact .create (by simp [unused]) nofun
  next used => exact .state (by simp [used]) nofun
  next isOver =>
    refine .state ?_ nofun
    rcases isOver with dead | used
    · simp [dead]
    · simp [used]

theorem Step.effect {event : Event n m} (stepped : Step forkret stack s event t) :
    Effect forkret stack s t := by
  unfold Step next at stepped
  cases event with
  | step c => exact advance_effect stepped
  | leave c how =>
    simp only at stepped
    split at stepped
    next p here =>
      obtain ⟨free, rfl⟩ := acquire_eq stepped
      exact .own here free
    next => cases stepped
  | visit c q =>
    simp only at stepped
    split at stepped
    next here =>
      obtain ⟨free, rfl⟩ := acquire_eq stepped
      exact .visitIdle here free
    next p here =>
      obtain ⟨free, rfl⟩ := acquire_eq stepped
      exact .visitRuns here free
    next => cases stepped
  | act c act =>
    simp only at stepped
    split at stepped
    next p q here => exact .change here (change_changes stepped)
    next => cases stepped
  | compute c regs =>
    simp only at stepped
    split at stepped
    next => cases stepped
    next => cases stepped
    next notIn notOut => cases stepped; exact .compute notIn notOut

end Xv6.Sched
