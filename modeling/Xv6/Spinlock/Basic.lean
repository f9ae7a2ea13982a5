import Xv6.Lib.Places
import Xv6.Lib.Runs

/-!
# Spinlocks and the interrupt-enable nesting

`acquire`, `release`, `push_off` and `pop_off` of `spinlock.c`, `myproc`, `sched` and the
switch of `scheduler`, on any number of CPUs. What runs on a CPU is the kernel thread of a
process or the CPU's scheduler. An event is a piece of these functions that no interrupt
can divide:

* `push_off` reads whether interrupts are on, and turns them off later. In between an
  interrupt can come, whose handler can give up the CPU, so that the second part runs on
  another CPU.
* `acquire` is `push_off`, and then the atomic swap with `lk->cpu = mycpu()`.
* `release` clears `lk->cpu` and `lk->locked`, and then calls `pop_off`.
* `sched` saves `intena` and switches to the scheduler. The thread goes on when a scheduler
  has switched to it, on any CPU, and restores `intena` there.

`myproc` is `push_off` and `pop_off`. The events of one thread can come in any order; where
the functions check their callers, a failed check is a panic. Interrupts and traps in the
kernel are events, and so are `intr_on` and `intr_off`. The check of `p->state` in `sched`
is left out.

`explicit` and `entry` are not in the source. `explicit` counts the calls of `push_off` on a
CPU that are outstanding and belong to no lock, and `entry` says for a thread in a section
whether interrupts were on when it entered it. No step reads them.
-/

namespace Xv6.Spinlock

open Function (update)

inductive Status where
  | fresh
  | off (intena : Bool) -- in `sched`, with the `intena` that it has saved
  | resuming (intena : Bool) -- switched to, before `mycpu()->intena = intena`
  | on
  deriving DecidableEq

/-- Where a thread goes on when the scheduler switches to it. -/
def Status.switched : Status → Option Status
  | .fresh => some .on
  | .off intena => some (.resuming intena)
  | _ => none

inductive Panic where
  | acquire
  | release
  | popOffInterruptible
  | popOff
  | schedLock
  | schedLocks
  | schedInterruptible
  deriving DecidableEq

variable {C T L : Type}

/-- `struct cpu` of each CPU with the interrupt-enable bit of its `sstatus`, the locks, and
the stacks of the threads and of the schedulers. -/
structure State (C T L : Type) where
  thread : C → Option T -- `c->proc`; none while the scheduler runs
  noff : C → Nat
  intena : C → Bool
  sie : C → Bool
  explicit : C → Nat
  lock : L → Option C -- `lk->cpu` of a lock that is locked
  pushing : C ⊕ T → Option Bool -- in `push_off` after `intr_get()`, with its result
  traps : C ⊕ T → List (Option Bool) -- the same for each trap that has not returned
  status : T → Status
  entry : T → Option Bool
  panic : Option Panic

inductive Event (C T L : Type) where
  | pushRead (c : C)
  | pushOff (c : C)
  | take (c : C) (lk : L)
  | drop (c : C) (lk : L)
  | popOff (c : C)
  | intrSet (c : C) (on : Bool)
  | trap (c : C)
  | sret (c : C)
  | sched (c : C)
  | switch (c : C) (t : T)
  | resume (c : C)
  | recycle (c : C) (t : T) -- `freeproc` and `allocproc`: the slot gets a new thread

namespace State

/-- What runs on a CPU: a thread, or the scheduler. -/
def who (s : State C T L) (c : C) : C ⊕ T :=
  match s.thread c with
  | some t => .inr t
  | none => .inl c

variable [DecidableEq C] [DecidableEq T] [DecidableEq L]

/-- What runs on the CPU is not at the end of `sched`. -/
def runs (s : State C T L) (c : C) : Bool :=
  match s.thread c with
  | some t => decide (s.status t = .on)
  | none => true

/-- Nor is it in the middle of `push_off`. -/
def ready (s : State C T L) (c : C) : Bool :=
  s.runs c && (s.pushing (s.who c)).isNone

def fail (s : State C T L) (panic : Panic) : State C T L := { s with panic := some panic }

/-- The entry of the thread that runs on the CPU. -/
def setEntry (s : State C T L) (c : C) (value : Option Bool) : T → Option Bool :=
  fun t => if s.thread c = some t then value else s.entry t

def pushRead (s : State C T L) (c : C) : State C T L :=
  { s with pushing := update s.pushing (s.who c) (some (s.sie c)) }

/-- The second part of `push_off`. -/
def pushOff (s : State C T L) (c : C) (old : Bool) : State C T L :=
  { s with
    pushing := update s.pushing (s.who c) none
    entry := if s.noff c = 0 then s.setEntry c (some (s.sie c)) else s.entry
    sie := update s.sie c false
    intena := if s.noff c = 0 then update s.intena c old else s.intena
    noff := update s.noff c (s.noff c + 1)
    explicit := update s.explicit c (s.explicit c + 1) }

def popOff (s : State C T L) (c : C) : State C T L :=
  if s.sie c = true then s.fail .popOffInterruptible
  else if s.noff c < 1 then s.fail .popOff
  else
    { s with
      entry := if s.noff c - 1 = 0 then s.setEntry c none else s.entry
      noff := update s.noff c (s.noff c - 1)
      explicit := update s.explicit c (s.explicit c - 1)
      sie := if s.noff c - 1 = 0 ∧ s.intena c = true then update s.sie c true else s.sie }

/-- `acquire` after `push_off`; none while another CPU has the lock. -/
def take (s : State C T L) (c : C) (lk : L) : Option (State C T L) :=
  if s.lock lk = some c then some (s.fail .acquire)
  else if s.lock lk = none then
    some { s with
      lock := update s.lock lk (some c)
      explicit := update s.explicit c (s.explicit c - 1) }
  else none

/-- `release` before `pop_off`. -/
def drop (s : State C T L) (c : C) (lk : L) : State C T L :=
  if s.lock lk ≠ some c then s.fail .release
  else
    { s with
      lock := update s.lock lk none
      explicit := update s.explicit c (s.explicit c + 1) }

def intrSet (s : State C T L) (c : C) (on : Bool) : State C T L :=
  { s with sie := update s.sie c on }

/-- A trap turns interrupts off and runs on the stack of what it interrupts. -/
def trap (s : State C T L) (c : C) : State C T L :=
  { s with
    traps := update s.traps (s.who c) (s.pushing (s.who c) :: s.traps (s.who c))
    pushing := update s.pushing (s.who c) none
    sie := update s.sie c false }

def sret (s : State C T L) (c : C) : Option (State C T L) :=
  match s.traps (s.who c) with
  | [] => none
  | pushing :: traps =>
    some { s with
      traps := update s.traps (s.who c) traps
      pushing := update s.pushing (s.who c) pushing
      sie := update s.sie c true }

/-- `sched` up to `swtch`. -/
def sched (plock : T → L) (s : State C T L) (c : C) (t : T) : State C T L :=
  if s.lock (plock t) ≠ some c then s.fail .schedLock
  else if s.noff c ≠ 1 then s.fail .schedLocks
  else if s.sie c = true then s.fail .schedInterruptible
  else
    { s with
      status := update s.status t (.off (s.intena c))
      thread := update s.thread c none }

/-- `swtch` to a thread whose lock the scheduler has taken. -/
def switch (plock : T → L) (s : State C T L) (c : C) (t : T) : Option (State C T L) :=
  if s.thread c = none ∧ s.lock (plock t) = some c then
    (s.status t).switched.map fun status =>
      { s with
        status := update s.status t status
        thread := update s.thread c (some t) }
  else none

/-- The end of `sched`. -/
def resume (s : State C T L) (c : C) (t : T) : Option (State C T L) :=
  match s.status t with
  | .resuming intena =>
    some { s with
      status := update s.status t .on
      intena := update s.intena c intena }
  | _ => none

def recycle (plock : T → L) (s : State C T L) (c : C) (t : T) : Option (State C T L) :=
  match s.status t with
  | .off _ =>
    if s.lock (plock t) = some c then
      some { s with
        status := update s.status t .fresh
        entry := update s.entry t none }
    else none
  | _ => none

end State

section Machine

variable [DecidableEq C] [DecidableEq T] [DecidableEq L] (plock : T → L)

/-- What a CPU does when it is ready. -/
def act (s : State C T L) : Event C T L → Option (State C T L)
  | .pushRead c => some (s.pushRead c)
  | .take c lk => s.take c lk
  | .drop c lk => some (s.drop c lk)
  | .popOff c => some (s.popOff c)
  | .intrSet c on => some (s.intrSet c on)
  | .sret c => s.sret c
  | .sched c => (s.thread c).map fun t => s.sched plock c t
  | .switch c t => s.switch plock c t
  | .recycle c t => s.recycle plock c t
  | _ => none

def Event.hart : Event C T L → C
  | .pushRead c | .pushOff c | .take c _ | .drop c _ | .popOff c | .intrSet c _ | .trap c
  | .sret c | .sched c | .switch c _ | .resume c | .recycle c _ => c

def next (s : State C T L) (event : Event C T L) : Option (State C T L) :=
  if s.panic.isSome then none
  else
    match event with
    | .pushOff c =>
      if s.runs c then (s.pushing (s.who c)).map fun old => s.pushOff c old else none
    | .trap c => if s.sie c = true then some (s.trap c) else none
    | .resume c => (s.thread c).bind fun t => s.resume c t
    | event => if s.ready event.hart then act plock s event else none

def Step (s : State C T L) (event : Event C T L) (t : State C T L) : Prop :=
  next plock s event = some t

/-- The callers balance their calls: `acquire` and `pop_off` use up a `push_off`, interrupts
are switched outside of the sections only, and a scheduler holds nothing but the lock of the
process that it switches to. -/
def Balanced (s : State C T L) : Event C T L → Prop
  | .take c _ => 0 < s.explicit c
  | .popOff c => 0 < s.explicit c
  | .intrSet c _ => s.noff c = 0
  | .sret c => s.noff c = 0
  | .switch c _ => s.noff c = 1
  | _ => True

/-- Every CPU is in its scheduler, and no lock is held. -/
structure Initial (s : State C T L) : Prop where
  thread : ∀ c, s.thread c = none
  noff : ∀ c, s.noff c = 0
  explicit : ∀ c, s.explicit c = 0
  lock : ∀ lk, s.lock lk = none
  pushing : ∀ w, s.pushing w = none
  traps : ∀ w, s.traps w = []
  status : ∀ t, s.status t = .fresh
  entry : ∀ t, s.entry t = none
  panic : s.panic = none

end Machine

end Xv6.Spinlock
