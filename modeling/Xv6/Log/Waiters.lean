import Xv6.Lib.Places
import Xv6.Lib.Runs
import Xv6.Log.Basic

/-!
# Waiting for the log

`begin_op`, `log_write` and `end_op` between the acquisitions and releases of locks.
`sleep` takes `p->lock`, releases `log.lock`, sets the state and gives `p->lock` to
the scheduler, each as a step of its own; `wakeup` visits one process after the other
and takes its lock; `kill` wakes a process at any time.
-/

namespace Xv6.Waiters

open Function Log

variable {n : Nat}

/-- Where a process is. -/
inductive Place (n : Nat) where
  | idle
  | beginEnter -- `begin_op` at `acquire(&log.lock)`, first or after `sleep`
  | sleepAcquire
  | sleepRelease
  | sleepMark
  | sched
  | sleepWake -- `sleep` behind `sched`, at `release(&p->lock)`
  | beginExit
  | inOp
  | writeEnter (blockno : Nat)
  | writeExit
  | endEnter
  -- `end_op` in the first `wakeup`, with the processes still to visit
  | endWakeup (rest : List (Fin n))
  | endExit (doCommit : Bool)
  | commit
  | finishEnter
  | finishWakeup (rest : List (Fin n))
  | finishExit
  deriving DecidableEq

structure State (n : Nat) where
  log : Log
  lock : Option (Fin n)
  place : Fin n → Place n
  plock : Fin n → Bool
  sleeping : Fin n → Bool
  panicked : Option LogPanic

inductive Call where
  | beginOp
  | logWrite (blockno : Nat)
  | endOp

inductive Event (n : Nat) where
  | call (p : Fin n) (call : Call)
  | step (p : Fin n)
  | kill (p : Fin n)

namespace State

def goto (s : State n) (p : Fin n) (place : Place n) : State n :=
  { s with place := Function.update s.place p place }

/-- A visit of `wakeup` or `kill`: the process is `RUNNABLE` if it was `SLEEPING`. -/
def rouse (s : State n) (p : Fin n) : State n :=
  { s with sleeping := Function.update s.sleeping p false }

/-- A section under `log.lock`, up to a change of the log. -/
def enter (s : State n) (p : Fin n) (log : Log) (place : Place n) : State n :=
  { s with log := log, lock := some p }.goto p place

def leave (s : State n) (p : Fin n) (place : Place n) : State n :=
  { s with lock := none }.goto p place

def setPlock (s : State n) (p : Fin n) (held : Bool) : State n :=
  { s with plock := Function.update s.plock p held }

def panic (s : State n) (why : LogPanic) : State n := { s with panicked := some why }

end State

/-- The next step of a `wakeup`: `p` visits the first process of the list, if that is
another one and its lock is free. -/
def wakeupStep (s : State n) (p : Fin n) (again : List (Fin n) → Place n) (done : Place n) :
    List (Fin n) → Option (State n)
  | [] => some (s.goto p done)
  | q :: rest =>
    if q = p then some (s.goto p (again rest))
    else if s.plock q = false then some ((s.rouse q).goto p (again rest))
    else none

def advance (s : State n) (p : Fin n) : Option (State n) :=
  match s.place p with
  | .idle | .inOp => none
  | .beginEnter =>
    if s.lock = none then
      match s.log.beginOp with
      | some log => some (s.enter p log .beginExit)
      | none => some (s.enter p s.log .sleepAcquire)
    else none
  | .sleepAcquire =>
    if s.plock p = false then some ((s.setPlock p true).goto p .sleepRelease) else none
  | .sleepRelease => some (s.leave p .sleepMark)
  | .sleepMark =>
    some ({ s.setPlock p false with
      sleeping := Function.update s.sleeping p true }.goto p .sched)
  | .sched =>
    if s.sleeping p = false ∧ s.plock p = false then
      some ((s.setPlock p true).goto p .sleepWake)
    else none
  | .sleepWake => some ((s.setPlock p false).goto p .beginEnter)
  | .beginExit => some (s.leave p .inOp)
  | .writeEnter blockno =>
    if s.lock = none then
      match s.log.logWrite blockno with
      | .ok (log, _) => some (s.enter p log .writeExit)
      | .error why => some (s.panic why)
    else none
  | .writeExit => some (s.leave p .inOp)
  | .endEnter =>
    if s.lock = none then
      match s.log.endOp with
      | .ok (log, true) => some (s.enter p log (.endExit true))
      | .ok (log, false) => some (s.enter p log (.endWakeup (List.finRange n)))
      | .error why => some (s.panic why)
    else none
  | .endWakeup rest => wakeupStep s p .endWakeup (.endExit false) rest
  | .endExit doCommit => some (s.leave p (if doCommit then .commit else .idle))
  | .commit => some ({ s with log := { s.log with lh := [] } }.goto p .finishEnter)
  | .finishEnter =>
    if s.lock = none then
      some (s.enter p s.log.finishCommit (.finishWakeup (List.finRange n)))
    else none
  | .finishWakeup rest => wakeupStep s p .finishWakeup .finishExit rest
  | .finishExit => some (s.leave p .idle)

/-- One step. A panic stops the machine. -/
def next (s : State n) (event : Event n) : Option (State n) :=
  if s.panicked = none then
    match event with
    | .call p call =>
      match call, s.place p with
      | .beginOp, .idle => some (s.goto p .beginEnter)
      | .logWrite blockno, .inOp => some (s.goto p (.writeEnter blockno))
      | .endOp, .inOp => some (s.goto p .endEnter)
      | _, _ => none
    | .step p => advance s p
    | .kill p => if s.plock p = false then some (s.rouse p) else none
  else none

def Step (s : State n) (event : Event n) (t : State n) : Prop := next s event = some t

def initial (n dev start size : Nat) : State n where
  log := Log.init dev start size
  lock := none
  place := fun _ => .idle
  plock := fun _ => false
  sleeping := fun _ => false
  panicked := none

/-! ## Places -/

namespace Place

def holds : Place n → Bool
  | .sleepAcquire | .sleepRelease | .beginExit | .writeExit | .endWakeup _ | .endExit _
  | .finishWakeup _ | .finishExit => true
  | _ => false

/-- The process counts as an operation. -/
def counts : Place n → Bool
  | .beginExit | .inOp | .writeEnter _ | .writeExit | .endEnter => true
  | _ => false

/-- The process has set `log.committing`. -/
def commits : Place n → Bool
  | .endExit true | .commit | .finishEnter => true
  | _ => false

/-- The processes that a `wakeup` has still to visit. -/
def visits : Place n → List (Fin n)
  | .endWakeup rest | .finishWakeup rest => rest
  | _ => []

end Place

/-- The process sleeps, or will without another look at the log. -/
def State.Waits (s : State n) (p : Fin n) : Prop := s.sleeping p = true ∨ s.place p = .sleepMark

structure Locks (s : State n) : Prop where
  locked : Locked Place.holds s.lock s.place
  plocked : ∀ p, s.place p = .sleepRelease ∨ s.place p = .sleepMark → s.plock p = true
  sched : ∀ p, s.sleeping p = true → s.place p = .sched

/-- What the fields of the log count, and when the log is empty. -/
structure Counts (s : State n) : Prop where
  counted : s.log.outstanding = (inside Place.counts s.place).card
  committing : s.log.committing = true ↔ ∃ p, (s.place p).commits = true
  single : ∀ p q, (s.place p).commits = true → (s.place q).commits = true → p = q
  exclusive : s.log.committing = true → s.log.outstanding = 0
  cleared : ∀ p, s.place p = .finishEnter → s.log.lh = []
  quiet : s.log.outstanding = 0 → s.log.committing = false → s.log.lh = []

/-- A process that waits would not be admitted, or is about to be woken. -/
structure Waiting (s : State n) : Prop where
  refused : ∀ p, s.place p = .sleepAcquire ∨ s.place p = .sleepRelease → s.log.admits = false
  waits : ∀ p, s.Waits p → s.log.admits = false ∨ ∃ q, p ∈ (s.place q).visits

/-! ## What one step does -/

inductive Effect (s : State n) : State n → Prop where
  | beginOp {p : Fin n} : s.place p = .idle → Effect s (s.goto p .beginEnter)
  | logWrite {p : Fin n} {blockno : Nat} : s.place p = .inOp →
      Effect s (s.goto p (.writeEnter blockno))
  | endOp {p : Fin n} : s.place p = .inOp → Effect s (s.goto p .endEnter)
  | kill {p : Fin n} : s.plock p = false → Effect s (s.rouse p)
  | admitted {p : Fin n} : s.place p = .beginEnter → s.lock = none → s.log.admits = true →
      Effect s (s.enter p { s.log with outstanding := s.log.outstanding + 1 } .beginExit)
  | refuse {p : Fin n} : s.place p = .beginEnter → s.lock = none → s.log.admits = false →
      Effect s (s.enter p s.log .sleepAcquire)
  | sleepAcquire {p : Fin n} : s.place p = .sleepAcquire → s.plock p = false →
      Effect s ((s.setPlock p true).goto p .sleepRelease)
  | sleepRelease {p : Fin n} : s.place p = .sleepRelease → Effect s (s.leave p .sleepMark)
  | sleepMark {p : Fin n} : s.place p = .sleepMark →
      Effect s ({ s.setPlock p false with
        sleeping := Function.update s.sleeping p true }.goto p .sched)
  | sched {p : Fin n} : s.place p = .sched → s.sleeping p = false → s.plock p = false →
      Effect s ((s.setPlock p true).goto p .sleepWake)
  | sleepWake {p : Fin n} : s.place p = .sleepWake →
      Effect s ((s.setPlock p false).goto p .beginEnter)
  | beginExit {p : Fin n} : s.place p = .beginExit → Effect s (s.leave p .inOp)
  | absorb {p : Fin n} {blockno : Nat} : s.place p = .writeEnter blockno → s.lock = none →
      Effect s (s.enter p s.log .writeExit)
  | append {p : Fin n} {blockno : Nat} : s.place p = .writeEnter blockno → s.lock = none →
      Effect s (s.enter p { s.log with lh := s.log.lh ++ [blockno] } .writeExit)
  | writeExit {p : Fin n} : s.place p = .writeExit → Effect s (s.leave p .inOp)
  | last {p : Fin n} : s.place p = .endEnter → s.lock = none → s.log.committing = false →
      s.log.outstanding = 1 →
      Effect s (s.enter p { s.log with outstanding := 0, committing := true } (.endExit true))
  | more {p : Fin n} : s.place p = .endEnter → s.lock = none → s.log.committing = false →
      s.log.outstanding ≠ 1 →
      Effect s (s.enter p { s.log with outstanding := s.log.outstanding - 1 }
        (.endWakeup (List.finRange n)))
  | visit {p q : Fin n} {rest : List (Fin n)} {again : List (Fin n) → Place n} :
      again = .endWakeup ∨ again = .finishWakeup → s.place p = again (q :: rest) → q ≠ p →
      s.plock q = false → Effect s ((s.rouse q).goto p (again rest))
  | skip {p : Fin n} {rest : List (Fin n)} {again : List (Fin n) → Place n} :
      again = .endWakeup ∨ again = .finishWakeup → s.place p = again (p :: rest) →
      Effect s (s.goto p (again rest))
  | endWoken {p : Fin n} : s.place p = .endWakeup [] → Effect s (s.goto p (.endExit false))
  | endExit {p : Fin n} : s.place p = .endExit false → Effect s (s.leave p .idle)
  | commitExit {p : Fin n} : s.place p = .endExit true → Effect s (s.leave p .commit)
  | commit {p : Fin n} : s.place p = .commit →
      Effect s ({ s with log := { s.log with lh := [] } }.goto p .finishEnter)
  | finish {p : Fin n} : s.place p = .finishEnter → s.lock = none →
      Effect s (s.enter p s.log.finishCommit (.finishWakeup (List.finRange n)))
  | finishWoken {p : Fin n} : s.place p = .finishWakeup [] → Effect s (s.goto p .finishExit)
  | finishExit {p : Fin n} : s.place p = .finishExit → Effect s (s.leave p .idle)
  | panic {why : LogPanic} : Effect s (s.panic why)

theorem wakeupStep_effect {s t : State n} {p : Fin n} {rest : List (Fin n)}
    {again : List (Fin n) → Place n} {done : Place n}
    (kind : again = .endWakeup ∨ again = .finishWakeup) (here : s.place p = again rest)
    (woken : s.place p = again [] → Effect s (s.goto p done))
    (stepped : wakeupStep s p again done rest = some t) : Effect s t := by
  cases rest with
  | nil =>
    cases stepped
    exact woken here
  | cons q rest =>
    simp only [wakeupStep] at stepped
    split at stepped
    next same =>
      cases stepped
      subst same
      exact .skip kind here
    next other =>
      split at stepped
      next free =>
        cases stepped
        exact .visit kind here other free
      next => cases stepped

theorem advance_effect {s t : State n} {p : Fin n} (stepped : advance s p = some t) :
    Effect s t := by
  unfold advance at stepped
  split at stepped
  case h_1 | h_2 => cases stepped
  case h_3 here =>
    split at stepped
    next free =>
      split at stepped
      next log began =>
        cases stepped
        obtain ⟨room, rfl⟩ := beginOp_eq_some.mp began
        exact .admitted here free room
      next full =>
        cases stepped
        have full : s.log.admits = false := by
          by_contra room
          rw [beginOp, if_pos (by simpa using room)] at full
          cases full
        exact .refuse here free full
    next => cases stepped
  case h_4 here =>
    split at stepped
    next free => cases stepped; exact .sleepAcquire here free
    next => cases stepped
  case h_5 here => cases stepped; exact .sleepRelease here
  case h_6 here => cases stepped; exact .sleepMark here
  case h_7 here =>
    split at stepped
    next free => cases stepped; exact .sched here free.1 free.2
    next => cases stepped
  case h_8 here => cases stepped; exact .sleepWake here
  case h_9 here => cases stepped; exact .beginExit here
  case h_10 blockno here =>
    split at stepped
    next free =>
      split at stepped
      next log new written =>
        cases stepped
        obtain ⟨-, -, -, ⟨-, rfl, -⟩ | ⟨-, rfl, -⟩⟩ := logWrite_ok written
        · exact .absorb here free
        · exact .append here free
      next => cases stepped; exact .panic
    next => cases stepped
  case h_11 here => cases stepped; exact .writeExit here
  case h_12 here =>
    split at stepped
    next free =>
      split at stepped
      next log ended =>
        cases stepped
        obtain ⟨calm, ⟨one, -, rfl⟩ | ⟨-, impossible, -⟩⟩ := endOp_ok ended
        · exact .last here free calm one
        · cases impossible
      next log ended =>
        cases stepped
        obtain ⟨calm, ⟨-, impossible, -⟩ | ⟨several, -, rfl⟩⟩ := endOp_ok ended
        · cases impossible
        · exact .more here free calm several
      next => cases stepped; exact .panic
    next => cases stepped
  case h_13 rest here => exact wakeupStep_effect (.inl rfl) here .endWoken stepped
  case h_14 doCommit here =>
    cases doCommit <;> cases stepped
    · exact .endExit here
    · exact .commitExit here
  case h_15 here => cases stepped; exact .commit here
  case h_16 here =>
    split at stepped
    next free => cases stepped; exact .finish here free
    next => cases stepped
  case h_17 rest here => exact wakeupStep_effect (.inr rfl) here .finishWoken stepped
  case h_18 here => cases stepped; exact .finishExit here

theorem Step.effect {s t : State n} {event : Event n} (stepped : Step s event t) : Effect s t := by
  unfold Step next at stepped
  split at stepped
  next =>
    cases event with
    | call p call =>
      simp only at stepped
      split at stepped
      next here => cases stepped; exact .beginOp here
      next here => cases stepped; exact .logWrite here
      next here => cases stepped; exact .endOp here
      next => cases stepped
    | step p => exact advance_effect stepped
    | kill p =>
      simp only at stepped
      split at stepped
      next free => cases stepped; exact .kill free
      next => cases stepped
  next => cases stepped

/-! ## Locks -/

section Steps

variable {s t : State n} {p : Fin n} {new : Place n} {lock : Option (Fin n)} {log : Log}
  {plock sleeping : Fin n → Bool} {panicked : Option LogPanic}

section

variable (locks : Locks s)
include locks

theorem Locks.goto (locked : Locked Place.holds lock (update s.place p new))
    (awake : s.sleeping p = false) (target : new ≠ .sleepRelease ∧ (new = .sleepMark →
      s.place p = .sleepRelease)) : Locks ({ s with log := log, lock := lock }.goto p new) := by
  refine ⟨locked, fun q => ?_, fun q asleep => ?_⟩
  · by_cases same : q = p
    · subst same
      simp only [State.goto, update_self, target.1, false_or]
      exact fun marks => locks.plocked q (.inl (target.2 marks))
    · simpa only [State.goto, update_of_ne same] using locks.plocked q
  · have other : q ≠ p := by
      rintro rfl
      exact absurd (awake.symm.trans asleep) nofun
    simpa only [State.goto, update_of_ne other] using locks.sched q asleep

theorem Locks.rouse : Locks (s.rouse p) := by
  refine ⟨locks.locked, locks.plocked, fun q asleep => locks.sched q ?_⟩
  by_cases same : q = p
  · subst same
    simp [State.rouse] at asleep
  · simpa [State.rouse, same] using asleep

theorem Locks.awake (here : s.place p ≠ .sched) : s.sleeping p = false := by
  by_contra asleep
  exact here (locks.sched p (by simpa using asleep))

/-- A process takes or releases its own lock on the way through `sleep`. -/
theorem Locks.setPlock {held asleep : Bool}
    (locked : Locked Place.holds s.lock (update s.place p new))
    (target : new = .sleepRelease ∨ new = .sleepMark → held = true)
    (dozes : asleep = true → new = .sched) :
    Locks ({ s.setPlock p held with
      sleeping := update s.sleeping p asleep }.goto p new) := by
  refine ⟨locked, fun q => ?_, fun q sleeps => ?_⟩
  · by_cases same : q = p
    · subst same
      simpa only [State.goto, State.setPlock, update_self] using target
    · simpa only [State.goto, State.setPlock, update_of_ne same] using locks.plocked q
  · by_cases same : q = p
    · subst same
      simp only [State.goto, State.setPlock, update_self] at sleeps ⊢
      exact dozes sleeps
    · simp only [State.goto, State.setPlock, update_of_ne same] at sleeps ⊢
      exact locks.sched q sleeps

theorem Locks.step (effect : Effect s t) : Locks t := by
  have stay : ∀ {p new}, (new : Place n).holds = (s.place p).holds →
      Locked Place.holds s.lock (update s.place p new) := locks.locked.stay
  have same : ∀ p : Fin n, update s.sleeping p (s.sleeping p) = s.sleeping :=
    fun p => update_eq_self ..
  cases effect with
  | beginOp here | logWrite here | endOp here | endWoken here | finishWoken here =>
    exact locks.goto (stay (by rw [here]; rfl)) (locks.awake (by simp [here])) (by simp)
  | kill => exact locks.rouse
  | admitted here free | refuse here free | absorb here free | append here free | last here free
  | more here free | finish here free =>
    exact locks.goto (locks.locked.enter free rfl) (locks.awake (by simp [here])) (by simp)
  | @sleepAcquire p here =>
    have moved : Locks ({ s.setPlock p true with
        sleeping := update s.sleeping p (s.sleeping p) }.goto p .sleepRelease) :=
      locks.setPlock (stay (by rw [here]; rfl)) (fun _ => rfl)
      (by simp [locks.awake (p := p) (by simp [here])])
    rwa [same] at moved
  | sleepRelease here =>
    exact locks.goto (locks.locked.leave (by rw [here]; rfl) rfl) (locks.awake (by simp [here]))
      (by simp [here])
  | sleepMark here => exact locks.setPlock (stay (by rw [here]; rfl)) (by simp) (by simp)
  | @sched p here awake =>
    have moved : Locks ({ s.setPlock p true with
        sleeping := update s.sleeping p (s.sleeping p) }.goto p .sleepWake) :=
      locks.setPlock (stay (by rw [here]; rfl)) (fun _ => rfl) (by simp [awake])
    rwa [same] at moved
  | @sleepWake p here =>
    have moved : Locks ({ s.setPlock p false with
        sleeping := update s.sleeping p (s.sleeping p) }.goto p .beginEnter) :=
      locks.setPlock (stay (by rw [here]; rfl)) (by simp)
      (by simp [locks.awake (p := p) (by simp [here])])
    rwa [same] at moved
  | beginExit here | writeExit here | endExit here | commitExit here | finishExit here =>
    exact locks.goto (locks.locked.leave (by rw [here]; rfl) rfl) (locks.awake (by simp [here]))
      (by simp)
  | @visit p q rest again kind here =>
    rcases kind with rfl | rfl <;>
      exact locks.rouse.goto (stay (by rw [here]; rfl))
        (locks.rouse.awake (show s.place p ≠ _ by simp [here])) (by simp)
  | @skip p rest again kind here =>
    rcases kind with rfl | rfl <;>
      exact locks.goto (stay (by rw [here]; rfl)) (locks.awake (by simp [here])) (by simp)
  | commit here =>
    exact locks.goto (stay (by rw [here]; rfl)) (locks.awake (by simp [here])) (by simp)
  | panic => exact ⟨locks.locked, locks.plocked, locks.sched⟩

end

/-! ## Counters -/

/-- A process moves within its operation or outside of it, and not to or from a
commit. -/
theorem Counts.goto (counts : Counts s)
    (counted : new.counts = (s.place p).counts) (commits : new.commits = (s.place p).commits)
    (target : new ≠ .finishEnter) :
    Counts ⟨s.log, lock, update s.place p new, plock, sleeping, s.panicked⟩ := by
  have same : ∀ q, (update s.place p new q).commits = (s.place q).commits := by
    intro q
    by_cases here : q = p
    · subst here
      rw [update_self, commits]
    · rw [update_of_ne here]
  refine ⟨?_, ?_, ?_, counts.exclusive, ?_, counts.quiet⟩
  · rw [inside_stay counted]
    exact counts.counted
  · simp only [same]
    exact counts.committing
  · simp only [same]
    exact counts.single
  · intro q there
    by_cases here : q = p
    · subst here
      simp only [update_self] at there
      exact absurd there target
    · simp only [update_of_ne here] at there
      exact counts.cleared q there

theorem Counts.change (others : ∀ q, q ≠ p → (s.place q).commits = false)
    (counted : log.outstanding = (inside Place.counts (update s.place p new)).card)
    (committing : log.committing = new.commits)
    (exclusive : log.committing = true → log.outstanding = 0)
    (cleared : new = .finishEnter → log.lh = [])
    (quiet : log.outstanding = 0 → log.committing = false → log.lh = []) :
    Counts ⟨log, lock, update s.place p new, plock, sleeping, panicked⟩ := by
  have only : ∀ q, (update s.place p new q).commits = true → q = p := by
    intro q commits
    by_contra other
    rw [update_of_ne other, others q other] at commits
    cases commits
  refine ⟨counted, ⟨fun commits => ⟨p, ?_⟩, ?_⟩, ?_, exclusive, ?_, quiet⟩
  · simpa only [update_self, ← committing] using commits
  · rintro ⟨q, commits⟩
    obtain rfl := only q commits
    simpa only [update_self, ← committing] using commits
  · intro q r first second
    exact (only q first).trans (only r second).symm
  · intro q there
    have same := only q (by
      rw [show update s.place p new q = .finishEnter from there]
      rfl)
    subst same
    exact cleared (by simpa using there)

section

variable (counts : Counts s)
include counts

theorem Counts.outstanding_pos (here : (s.place p).counts = true) : 0 < s.log.outstanding := by
  have : 0 < (inside Place.counts s.place).card := card_inside_pos here
  rw [counts.counted]
  omega

theorem Counts.not_committing (here : (s.place p).counts = true) : s.log.committing = false := by
  by_contra commits
  have := counts.outstanding_pos here
  have := counts.exclusive (by simpa using commits)
  omega

theorem Counts.not_commits (calm : s.log.committing = false) (q : Fin n) :
    (s.place q).commits = false := by
  by_contra commits
  rw [counts.committing.mpr ⟨q, by simpa using commits⟩] at calm
  cases calm

theorem Counts.step (effect : Effect s t) : Counts t := by
  have move : ∀ {p new}, (s.place p).counts = (new : Place n).counts →
      (s.place p).commits = new.commits → new ≠ .finishEnter → ∀ {lock plock sleeping},
      Counts ⟨s.log, lock, update s.place p new, plock, sleeping, s.panicked⟩ :=
    fun counted commits target => counts.goto counted.symm commits.symm target
  cases effect with
  | beginOp here | logWrite here | endOp here | endWoken here | finishWoken here
  | refuse here | sleepAcquire here | sleepRelease here | sleepMark here | sched here
  | sleepWake here | beginExit here | absorb here | writeExit here | endExit here
  | commitExit here | finishExit here =>
    exact move (by rw [here]; rfl) (by rw [here]; rfl) (by simp)
  | kill | panic => exact ⟨counts.1, counts.2, counts.3, counts.4, counts.5, counts.6⟩
  | visit kind here | skip kind here =>
    rcases kind with rfl | rfl <;>
      exact move (by rw [here]; rfl) (by rw [here]; rfl) (by simp)
  | @admitted p here free room =>
    obtain ⟨calm, -⟩ := admits_iff.mp room
    have grown : (inside Place.counts (update s.place p .beginExit)).card =
        (inside Place.counts s.place).card + 1 := card_inside_enter (by rw [here]; rfl) rfl
    have counted := counts.counted
    refine Counts.change (fun q _ => counts.not_commits calm q) ?_ calm (by simp [calm])
      (by simp) ?_
    · simp only
      omega
    · intro none _
      simp only at none
      omega
  | @append p blockno here free =>
    have inOp : (s.place p).counts = true := by rw [here]; rfl
    have calm := counts.not_committing inOp
    have some := counts.outstanding_pos inOp
    refine Counts.change (fun q _ => counts.not_commits calm q) ?_ calm (by simp [calm])
      (by simp) ?_
    · rw [inside_stay (by rw [here]; rfl)]
      exact counts.counted
    · intro none _
      simp only at none
      omega
  | @last p here free calm one =>
    have fewer : (inside Place.counts (update s.place p (.endExit true))).card + 1 =
        (inside Place.counts s.place).card := card_inside_leave (by rw [here]; rfl) rfl
    have counted := counts.counted
    refine Counts.change (fun q _ => counts.not_commits calm q) ?_ rfl (fun _ => rfl) (by simp)
      nofun
    simp only
    omega
  | @more p here free calm several =>
    have fewer : (inside Place.counts (update s.place p
        (.endWakeup (List.finRange n)))).card + 1 = (inside Place.counts s.place).card :=
      card_inside_leave (by rw [here]; rfl) rfl
    have counted := counts.counted
    refine Counts.change (fun q _ => counts.not_commits calm q) ?_ calm (by simp [calm])
      (by simp) ?_
    · simp only
      omega
    · intro none _
      simp only at none
      omega
  | @commit p here =>
    have commits : (s.place p).commits = true := by rw [here]; rfl
    refine Counts.change ?_ ?_ (counts.committing.mpr ⟨p, commits⟩) counts.exclusive
      (fun _ => rfl) (fun _ _ => rfl)
    · exact fun q other => Bool.eq_false_iff.mpr fun both => other (counts.single q p both commits)
    · rw [inside_stay (by rw [here]; rfl)]
      exact counts.counted
  | @finish p here free =>
    have commits : (s.place p).commits = true := by rw [here]; rfl
    refine Counts.change ?_ ?_ rfl nofun (by simp) (fun _ _ => counts.cleared p here)
    · exact fun q other => Bool.eq_false_iff.mpr fun both => other (counts.single q p both commits)
    · rw [inside_stay (by rw [here]; rfl)]
      exact counts.counted

end

/-! ## Waiting -/

theorem Locks.no_visits (locks : Locks s) (free : s.lock = none) (q : Fin n) :
    (s.place q).visits = [] := by
  have outside := locks.locked.outside free q
  revert outside
  cases s.place q <;> simp [Place.holds, Place.visits]

/-- A process moves that is not in a `wakeup` and does not wait, and the log does not
get more room. -/
theorem Waiting.goto (waiting : Waiting s) (room : s.log.admits = false → log.admits = false)
    (asleep : ∀ q, sleeping q = true → s.Waits q) (marks : new = .sleepMark → log.admits = false)
    (refused : new = .sleepAcquire ∨ new = .sleepRelease → log.admits = false)
    (visits : ∀ q, s.Waits q → q ∈ (s.place p).visits →
      sleeping q = true ∨ update s.place p new q = .sleepMark → q ∈ new.visits) :
    Waiting ⟨log, lock, update s.place p new, plock, sleeping, panicked⟩ := by
  constructor
  · intro q there
    by_cases same : q = p
    · subst same
      simp only [update_self] at there
      exact refused there
    · simp only [update_of_ne same] at there
      exact room (waiting.refused q there)
  · intro q waits
    by_cases marked : q = p ∧ new = .sleepMark
    · exact .inl (marks marked.2)
    · have before : s.Waits q := by
        rcases waits with sleeps | mark
        · exact asleep q sleeps
        · by_cases same : q = p
          · subst same
            simp only [update_self] at mark
            exact absurd ⟨rfl, mark⟩ marked
          · simp only [update_of_ne same] at mark
            exact .inr mark
      rcases waiting.waits q before with full | ⟨r, visited⟩
      · exact .inl (room full)
      · refine .inr ⟨r, ?_⟩
        by_cases same : r = p
        · subst same
          simp only [update_self]
          exact visits q before visited waits
        · simpa only [update_of_ne same] using visited

theorem Waiting.step (waiting : Waiting s) (locks : Locks s) (counts : Counts s)
    (effect : Effect s t) : Waiting t := by
  have sleeps : ∀ q, s.sleeping q = true → s.Waits q := fun q => .inl
  cases effect with
  | beginOp here | logWrite here | endOp here | sched here | sleepWake here | absorb here
  | beginExit here | writeExit here | endExit here | commitExit here | finishExit here
  | endWoken here | finishWoken here =>
    exact waiting.goto id sleeps (by simp) (by simp) (by simp [here, Place.visits])
  | @kill p free =>
    refine ⟨waiting.refused, fun q waits => waiting.waits q ?_⟩
    rcases waits with asleep | marks
    · by_cases same : q = p
      · subst same
        simp [State.rouse] at asleep
      · exact .inl (by simpa [State.rouse, same] using asleep)
    · exact .inr marks
  | panic => exact ⟨waiting.refused, waiting.waits⟩
  | @refuse p here free full =>
    exact waiting.goto id sleeps (by simp) (fun _ => full) (by simp [here, Place.visits])
  | @sleepAcquire p here =>
    have full := waiting.refused p (.inl here)
    exact waiting.goto id sleeps (by simp) (fun _ => full) (by simp [here, Place.visits])
  | @sleepRelease p here =>
    have full := waiting.refused p (.inr here)
    exact waiting.goto id sleeps (fun _ => full) (by simp) (by simp [here, Place.visits])
  | @sleepMark p here =>
    refine waiting.goto id (fun q asleep => ?_) (by simp) (by simp) (by simp [here, Place.visits])
    by_cases same : q = p
    · exact .inr (same ▸ here)
    · exact .inl (by simpa [same] using asleep)
  | @admitted p here free room =>
    have nobody : ∀ q, ¬ s.Waits q := by
      intro q waits
      rcases waiting.waits q waits with full | ⟨r, visited⟩
      · rw [room] at full
        cases full
      · rw [locks.no_visits free r] at visited
        cases visited
    have unlocked := locks.locked.outside free
    constructor
    · intro q there
      by_cases same : q = p
      · subst same
        simp [State.enter, State.goto] at there
      · simp only [State.enter, State.goto, update_of_ne same] at there
        have := unlocked q
        rcases there with there | there <;> simp [there, Place.holds] at this
    · intro q waits
      refine absurd ?_ (nobody q)
      rcases waits with asleep | marks
      · exact .inl asleep
      · by_cases same : q = p
        · subst same
          simp [State.enter, State.goto] at marks
        · exact .inr (by simpa [State.enter, State.goto, same] using marks)
  | @append p blockno here free =>
    refine waiting.goto ?_ sleeps (by simp) (by simp) (by simp [here, Place.visits])
    simp only [admits, List.length_append, List.length_singleton]
    intro full
    rw [Bool.and_eq_false_iff] at full ⊢
    refine full.imp id fun less => ?_
    simp only [decide_eq_false_iff_not] at less ⊢
    push_cast
    omega
  | @last p here free calm one =>
    exact waiting.goto (fun _ => rfl) sleeps (by simp) (by simp) (by simp [here, Place.visits])
  | @more p here free | @finish p here free =>
    -- whoever waits is among those that this process is going to visit
    have unlocked := locks.locked.outside free
    constructor
    · intro q there
      by_cases same : q = p
      · subst same
        simp [State.enter, State.goto] at there
      · simp only [State.enter, State.goto, update_of_ne same] at there
        have := unlocked q
        rcases there with there | there <;> simp [there, Place.holds] at this
    · intro q _
      refine .inr ⟨p, ?_⟩
      simp [State.enter, State.goto, Place.visits]
  | @commit p here =>
    have busy := counts.committing.mpr ⟨p, by rw [here]; rfl⟩
    refine waiting.goto ?_ sleeps (by simp) (by simp) (by simp [here, Place.visits])
    intro _
    simp [admits, busy]
  | @visit p q rest again kind here other free =>
    have inner : (again rest).visits = rest ∧ (s.place p).visits = q :: rest := by
      rcases kind with rfl | rfl <;> simp [here, Place.visits]
    refine waiting.goto id ?_ (by rcases kind with rfl | rfl <;> simp)
      (by rcases kind with rfl | rfl <;> simp) ?_
    · intro r asleep
      by_cases same : r = q
      · subst same
        simp [State.rouse] at asleep
      · exact .inl (by simpa [State.rouse, same] using asleep)
    · intro r _ visited waits
      rw [inner.2, List.mem_cons] at visited
      rw [inner.1]
      refine visited.resolve_left ?_
      rintro rfl
      rcases waits with asleep | marks
      · simp [State.rouse] at asleep
      · have marked : s.place r = .sleepMark := by
          simpa only [State.rouse, update_of_ne other] using marks
        rw [locks.plocked r (.inr marked)] at free
        cases free
  | @skip p rest again kind here =>
    have inner : (again rest).visits = rest ∧ (s.place p).visits = p :: rest := by
      rcases kind with rfl | rfl <;> simp [here, Place.visits]
    refine waiting.goto id sleeps (by rcases kind with rfl | rfl <;> simp)
      (by rcases kind with rfl | rfl <;> simp) ?_
    intro r before visited _
    rw [inner.2, List.mem_cons] at visited
    rw [inner.1]
    refine visited.resolve_left ?_
    rintro rfl
    rcases before with asleep | marks
    · have := locks.sched r asleep
      rcases kind with rfl | rfl <;> simp [here] at this
    · rcases kind with rfl | rfl <;> simp [here] at marks

end Steps

/-! ## Runs -/

theorem invariant {dev start size : Nat} {events : List (Event n)} {s : State n}
    (run : Run Step (initial n dev start size) events s) : Locks s ∧ Counts s ∧ Waiting s := by
  refine run.invariant (fun s => Locks s ∧ Counts s ∧ Waiting s) ?_ ?_
  · rintro s event t ⟨locks, counts, waiting⟩ stepped
    have effect := stepped.effect
    exact ⟨locks.step effect, counts.step effect, waiting.step locks counts effect⟩
  · refine ⟨⟨?_, ?_, nofun⟩, ⟨?_, ?_, nofun, nofun, nofun, fun _ _ => rfl⟩, ⟨?_, ?_⟩⟩
    · intro p
      simp [initial, Place.holds]
    · simp [initial]
    · simp [initial, init, inside, Place.counts]
    · simp [initial, init, Place.commits]
    · simp [initial]
    · intro p waits
      simp [State.Waits, initial] at waits

/-- **Nobody is stranded waiting for the log.** A process that sleeps in `begin_op` would not be
admitted, and the end of an operation or a commit will wake it. -/
theorem waiter_not_stranded {dev start size : Nat} {events : List (Event n)} {s : State n}
    (run : Run Step (initial n dev start size) events s) (free : s.lock = none) (p : Fin n)
    (asleep : s.sleeping p = true) :
    (0 < s.log.outstanding ∨ s.log.committing = true) ∧ ¬ (s.log.committing = false ∧
        (s.log.lh.length : Int) + (s.log.outstanding + 1) * MAXOPBLOCKS ≤ LOGSIZE) := by
  obtain ⟨locks, counts, waiting⟩ := invariant run
  have full : s.log.admits = false := by
    rcases waiting.waits p (.inl asleep) with full | ⟨q, visited⟩
    · exact full
    · rw [locks.no_visits free q] at visited
      cases visited
  have refused : ¬ (s.log.committing = false ∧
      (s.log.lh.length : Int) + (s.log.outstanding + 1) * MAXOPBLOCKS ≤ LOGSIZE) := by
    rw [← Log.admits_iff, full]
    nofun
  refine ⟨?_, refused⟩
  by_contra neither
  rw [not_or, Bool.not_eq_true] at neither
  obtain ⟨none, calm⟩ := neither
  have zero : s.log.outstanding = 0 := by
    have := counts.counted
    omega
  refine refused ⟨calm, ?_⟩
  rw [counts.quiet zero calm, zero]
  decide

/-- One process commits while the other goes to sleep in `begin_op`. -/
def lateArrival : List (Event 2) :=
  [.call 0 .beginOp, .step 0, .step 0, .call 0 .endOp, .step 0, .step 0, .call 1 .beginOp, .step 1,
    .step 1, .step 1, .step 1]

theorem waiter_not_stranded_lateArrival :
    ∃ s, Run Step (initial 2 ROOTDEV 2 nlog) lateArrival s ∧ s.sleeping 1 = true ∧
      (0 < s.log.outstanding ∨ s.log.committing = true) := by
  have executed : lateArrival.foldlM next (initial 2 ROOTDEV 2 nlog) = some _ := rfl
  have run := Run.of_execute executed
  exact ⟨_, run, rfl, (waiter_not_stranded run rfl 1 rfl).1⟩

end Xv6.Waiters
