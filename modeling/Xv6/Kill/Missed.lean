import Xv6.Kill.Loops

/-!
# Kills that a sleeper misses

`killed()` and `sleep` take `p->lock` in two sections, and `kill` can run between them. It
finds the process `RUNNING` then, so that it wakes nobody, and the process goes to sleep
with `p->killed` set (`kill_between_test_and_sleep`). This is the
only way (`no_missed_kill`).
-/

namespace Xv6.Kill

open Function

open Proc (ProcState)

variable {n : Nat} {s t : State n} {p q : Fin n}

variable {place : Place n} {new : Place n}

/-- The process sleeps in one of the loops although it has been killed, and nobody holds
its lock or the lock of the loop. -/
def Missed (s : State n) (p : Fin n) : Prop :=
  ∃ call, s.place p = .asleep call ∧ (s.proc p).state = .sleeping ∧ (s.proc p).killed = true ∧
    s.plockFree p = true ∧ s.lkFree call.lk = true

/-- The process has called `killed()` and is on the way to `acquire(&p->lock)` in
`sleep`. -/
def Place.between : Place n → Bool
  | .wakeup _ _ _ sleeps => sleeps.isSome
  | .rouse _ _ _ _ sleeps => sleeps.isSome
  | .park _ => true
  | _ => false

/-- The pid that `kill` looks for and the process whose lock it holds. -/
def Place.aim : Place n → Option (Int32 × Fin n)
  | .killing pid q _ => some (pid, q)
  | _ => none

/-- If the event is the step of `kill` that sets `p->killed`, then the process is not
between its test and `sleep`. -/
def Timely (s : State n) : Event n → Prop
  | .step p _ => ∀ aim ∈ (s.place p).aim, (s.proc aim.2).pid = aim.1 →
      (s.place aim.2).between = false
  | _ => True

instance (s : State n) (event : Event n) : Decidable (Timely s event) := by
  cases event with
  | step p _ => exact Option.decidableForallMem (s.place p).aim
  | _ => exact isTrue trivial

/-- What holds of `p->state` and `p->killed` at a place. -/
def Alert : Place n → Slot n → Prop
  | .parked _, slot => slot.killed = false
  | .sched _, slot => slot.killed = false
  | .asleep _, slot => slot.state = .sleeping → slot.killed = false
  | place, slot => place.between = true → slot.killed = false

theorem alert_of_alive (place : Place n) {slot : Slot n} (alive : slot.killed = false) :
    Alert place slot := by
  cases place <;> first | exact alive | exact fun _ => alive

/-- Here the process has not tested `p->killed`, or has found it set. -/
def Place.calm : Place n → Bool
  | .parked _ => false
  | .sched _ => false
  | .asleep _ => false
  | place => !place.between

theorem alert_calm (calm : place.calm = true) (slot : Slot n) : Alert place slot := by
  cases place with
  | parked call => cases calm
  | sched call => cases calm
  | asleep call => cases calm
  | _ => exact fun between => absurd calm (by simp [Place.calm, between])

theorem Alert.rouse {slot : Slot n} (alert : Alert place slot) (chan : Chan n) :
    Alert place (slot.rouse chan) := by
  unfold Slot.rouse
  split
  · cases place <;> first | exact alert | exact fun woken => ProcState.noConfusion woken
  · exact alert

/-- Whether a process is `RUNNING` makes no difference where it cannot be `SLEEPING`. -/
theorem Alert.awake {slot : Slot n} {state : ProcState} (alert : Alert place slot)
    (awake : state ≠ .sleeping) : Alert place { slot with state := state } := by
  cases place <;> first | exact alert | exact fun asleep => absurd asleep awake

theorem Slot.kill_state (slot : Slot n) : slot.kill.state ≠ .sleeping := by
  unfold Slot.kill
  split
  · exact ProcState.noConfusion
  · assumption

/-- `kill` reaches a process that is not in the way to sleep. -/
theorem alert_kill {slot : Slot n} (outside : place.between = false)
    (unlocked : place.plock p ≠ some p) : Alert place slot.kill := by
  cases place with
  | parked call => exact absurd rfl unlocked
  | sched call => exact absurd rfl unlocked
  | asleep call => exact fun asleep => absurd asleep slot.kill_state
  | _ => exact fun between => absurd (outside.symm.trans between) Bool.false_ne_true

/-- No two threads hold the lock of one process, and each process is alert. -/
structure Inv (s : State n) : Prop where
  exclusive : ∀ p q r, (s.place p).plock p = some r → (s.place q).plock q = some r → p = q
  alert : ∀ p, Alert (s.place p) (s.proc p)

theorem not_held_of_plockFree (free : s.plockFree q = true) (p : Fin n) :
    (s.place p).plock p ≠ some q :=
  of_decide_eq_true free p

section

variable (inv : Inv s)
include inv

/-- One thread goes to a new place. A lock that it holds there it has held before, or it was
free. -/
theorem Inv.move (place : t.place = update s.place p new)
    (locks : ∀ r, new.plock p = some r → (s.place p).plock p = some r ∨ s.plockFree r = true)
    (here : Alert new (t.proc p))
    (others : ∀ q, Alert (s.place q) (s.proc q) → q ≠ p → Alert (s.place q) (t.proc q)) :
    Inv t := by
  have held : ∀ q r, q ≠ p → new.plock p = some r → (s.place q).plock q ≠ some r := by
    intro q r other holds there
    rcases locks r holds with before | free
    · exact other (inv.exclusive q p r there before)
    · exact not_held_of_plockFree free q there
  constructor
  · intro a b r first second
    rw [place] at first second
    by_cases isA : a = p <;> by_cases isB : b = p
    · rw [isA, isB]
    · subst isA
      rw [update_self] at first
      rw [update_of_ne isB] at second
      exact absurd second (held b r isB first)
    · subst isB
      rw [update_self] at second
      rw [update_of_ne isA] at first
      exact absurd first (held a r isA second)
    · rw [update_of_ne isA] at first
      rw [update_of_ne isB] at second
      exact inv.exclusive a b r first second
  · intro q
    rw [place]
    by_cases same : q = p
    · subst same
      rw [update_self]
      exact here
    · rw [update_of_ne same]
      exact others q (inv.alert q) same

omit inv in
theorem place_goto (place : t.place = s.place) : (t.goto p new).place = update s.place p new := by
  rw [← place]
  rfl

theorem Inv.goto (place : t.place = s.place) (proc : t.proc = s.proc)
    (unlocked : new.plock p = none) (here : Alert new (s.proc p)) : Inv (t.goto p new) := by
  have moved : (t.goto p new).place = update s.place p new := place_goto place
  refine inv.move moved (fun r holds => ?_) (proc ▸ here) (fun q alert _ => proc ▸ alert)
  rw [unlocked] at holds
  exact absurd holds (by simp)

theorem Inv.calm (place : t.place = s.place) (proc : t.proc = s.proc)
    (unlocked : new.plock p = none) (calm : new.calm = true) : Inv (t.goto p new) :=
  inv.goto place proc unlocked (alert_calm calm _)

theorem Inv.acquire (acquired : s.acquire p q new = some t)
    (lock : new.plock p = some q) (here : Alert new (s.proc p)) : Inv t := by
  unfold State.acquire at acquired
  split at acquired
  case isFalse => cases acquired
  case isTrue free =>
    cases acquired
    refine inv.move rfl (fun r holds => ?_) here (fun _ alert _ => alert)
    rw [lock] at holds
    cases holds
    exact .inr free

/-- A change of one slot that leaves its process alert, with a move of one thread. -/
theorem Inv.setSlot (q : Fin n) (f : Slot n → Slot n)
    (place : t.place = s.place) (proc : t.proc = (s.setSlot q f).proc)
    (locks : ∀ r, new.plock p = some r → (s.place p).plock p = some r ∨ s.plockFree r = true)
    (here : Alert new ((s.setSlot q f).proc p)) (there : q ≠ p → Alert (s.place q) (f (s.proc q))) :
    Inv (t.goto p new) := by
  have moved : (t.goto p new).place = update s.place p new := place_goto place
  refine inv.move moved locks (proc ▸ here) fun r alert other => ?_
  change Alert (s.place r) (t.proc r)
  rw [proc]
  change Alert (s.place r) (update s.proc q (f (s.proc q)) r)
  by_cases same : r = q
  · subst same
    rw [update_self]
    exact there other
  · rw [update_of_ne same]
    exact alert

variable {f : Slot n → Slot n}

omit inv in
theorem Alert.setSlot (alert : Alert place (s.proc p)) (q : Fin n)
    (kept : ∀ slot, Alert place slot → Alert place (f slot)) :
    Alert place ((s.setSlot q f).proc p) := by
  change Alert place (update s.proc q (f (s.proc q)) p)
  by_cases same : p = q
  · subst same
    rw [update_self]
    exact kept _ alert
  · rw [update_of_ne same]
    exact alert

theorem Inv.slot (alert : Alert (s.place q) (s.proc q) → Alert (s.place q) (f (s.proc q))) :
    Inv (s.setSlot q f) := by
  refine ⟨inv.exclusive, fun r => ?_⟩
  change Alert (s.place r) (update s.proc q (f (s.proc q)) r)
  by_cases same : r = q
  · subst same
    rw [update_self]
    exact alert (inv.alert r)
  · rw [update_of_ne same]
    exact inv.alert r

theorem Inv.test (valid : Bool) (call : Call) : Inv (testStep s p valid call) := by
  cases call with
  | piperead pi m =>
    simp only [testStep]
    split <;> exact inv.calm rfl rfl rfl rfl
  | pipewrite pi m i =>
    simp only [testStep]
    split
    · split <;> exact inv.calm rfl rfl rfl rfl
    · exact inv.calm rfl rfl rfl rfl
  | wait addr => exact inv.calm rfl rfl rfl rfl
  | sleep m ticks0 =>
    simp only [testStep]
    split <;> exact inv.calm rfl rfl rfl rfl
  | consoleread m target =>
    simp only [testStep, consume]
    split
    · split
      · exact inv.calm rfl rfl rfl rfl
      · split
        · split <;> exact inv.calm rfl rfl rfl rfl
        · split <;> exact inv.calm rfl rfl rfl rfl
    · exact inv.calm rfl rfl rfl rfl

theorem Inv.alive (alive : (s.proc p).killed = false) (valid : Bool) (call : Call) :
    Inv (aliveStep s p valid call) := by
  cases call with
  | pipewrite pi m i =>
    simp only [aliveStep]
    split
    · exact inv.goto rfl rfl rfl (alert_of_alive _ alive)
    · split <;> exact inv.calm rfl rfl rfl rfl
  | _ => exact inv.goto rfl rfl rfl (alert_of_alive _ alive)

variable {pid : Int32} {todo : List (Fin n)} {valid : Bool}

omit inv in
theorem not_between_of_timely
    (timely : Timely s (.step p valid)) (here : s.place p = .killing pid q todo)
    (hit : (s.proc q).pid = pid) : (s.place q).between = false := by
  exact timely (pid, q) (by rw [here]; rfl) hit

/-- `kill` holds the lock of the process that it marks, so that process does not. -/
theorem Inv.marks (here : s.place p = .killing pid q todo) (outside : (s.place q).between = false) :
    Inv ((s.setSlot q Slot.kill).goto p .user) := by
  have ours : (s.place p).plock p = some q := by rw [here]; rfl
  refine inv.setSlot q _ rfl rfl nofun (alert_calm rfl _) fun other => ?_
  exact alert_kill outside fun holds => other (inv.exclusive q p q holds ours)

theorem Inv.advance (timely : Timely s (.step p valid))
    (stepped : Kill.advance s p valid = some t) : Inv t := by
  have alert := inv.alert p
  unfold Kill.advance at stepped
  split at stepped
  case h_1 here => cases stepped
  case h_2 call here =>
    split at stepped <;> cases stepped
    exact inv.calm rfl rfl rfl rfl
  case h_3 call here =>
    cases stepped
    exact inv.test valid call
  case h_4 pi m i here =>
    split at stepped
    · split at stepped <;> cases stepped <;> exact inv.calm rfl rfl rfl rfl
    · cases stepped
      exact inv.calm rfl rfl rfl rfl
  case h_5 addr havekids here =>
    split at stepped <;> cases stepped <;> exact inv.calm rfl rfl rfl rfl
  case h_6 addr pp todo havekids here =>
    split at stepped
    · exact inv.acquire stepped rfl (alert_calm rfl _)
    · cases stepped
      exact inv.calm rfl rfl rfl rfl
  case h_7 addr pp todo here =>
    split at stepped
    · split at stepped <;> cases stepped
      · exact inv.calm rfl rfl rfl rfl
      · exact inv.setSlot pp _ rfl rfl nofun (alert_calm rfl _) fun _ => alert_of_alive _ rfl
    · cases stepped
      exact inv.calm rfl rfl rfl rfl
  case h_8 call here => exact inv.acquire stepped rfl (alert_calm rfl _)
  case h_9 call here =>
    split at stepped <;> cases stepped
    · exact inv.calm rfl rfl rfl rfl
    · case isFalse alive => exact inv.alive (Bool.eq_false_iff.mpr alive) valid call
  case h_10 lk chan sleeps here =>
    rw [here] at alert
    cases sleeps <;> cases stepped
    · exact inv.calm rfl rfl rfl rfl
    · exact inv.goto rfl rfl rfl alert
  case h_11 lk chan r todo sleeps here =>
    rw [here] at alert
    split at stepped
    · cases stepped
      exact inv.goto rfl rfl rfl alert
    · exact inv.acquire stepped rfl alert
  case h_12 lk chan r todo sleeps here =>
    rw [here] at alert
    cases stepped
    have kept : Alert (.wakeup lk chan todo sleeps) (s.proc p) := alert
    exact inv.setSlot r _ rfl rfl nofun (kept.setSlot r fun _ before => before.rouse chan)
      fun _ => (inv.alert r).rouse chan
  case h_13 call here =>
    rw [here] at alert
    exact inv.acquire stepped rfl (alert rfl)
  case h_14 call here =>
    rw [here] at alert
    cases stepped
    have ours : (s.place p).plock p = some p := by rw [here]; rfl
    have kept : Alert (.sched call) (s.proc p) := alert
    exact inv.setSlot p _ rfl rfl (fun r holds => .inl (ours.trans holds))
      (kept.setSlot p fun _ before => before) fun other => absurd rfl other
  case h_15 call here =>
    rw [here] at alert
    cases stepped
    exact inv.goto rfl rfl rfl fun _ => alert
  case h_16 call here =>
    split at stepped
    · unfold State.acquire at stepped
      split at stepped <;> cases stepped
      case isTrue free =>
        refine inv.setSlot p _ rfl rfl (fun r holds => ?_) (alert_calm rfl _)
          fun other => absurd rfl other
        cases holds
        exact .inr free
    · cases stepped
  case h_17 call here =>
    cases stepped
    exact inv.setSlot p _ rfl rfl nofun (alert_calm rfl _) fun other => absurd rfl other
  case h_18 lk here =>
    cases stepped
    exact inv.calm rfl rfl rfl rfl
  case h_19 pid here =>
    cases stepped
    exact inv.calm rfl rfl rfl rfl
  case h_20 pid r todo here => exact inv.acquire stepped rfl (alert_calm rfl _)
  case h_21 pid r todo here =>
    split at stepped <;> cases stepped
    · case isTrue hit => exact inv.marks here (not_between_of_timely timely here hit)
    · exact inv.calm rfl rfl rfl rfl

theorem Inv.step {event : Event n} (timely : Timely s event)
    (stepped : Step s event t) : Inv t := by
  unfold Step next at stepped
  cases event with
  | call p start =>
    dsimp only at stepped
    split at stepped
    · split at stepped <;> cases stepped
      cases start <;> exact inv.calm rfl rfl rfl rfl
    · cases stepped
  | step p valid =>
    dsimp only at stepped
    split at stepped
    · exact inv.advance timely stepped
    · cases stepped
  | other p slot =>
    dsimp only at stepped
    split at stepped
    · case h_1 here =>
      split at stepped <;> cases stepped
      exact inv.slot fun _ => here ▸ alert_calm rfl _
    · cases stepped
  | pipe _ _ | cons _ | tick | parent _ _ =>
    dsimp only at stepped
    split at stepped <;> cases stepped
    exact ⟨inv.exclusive, inv.alert⟩
  | wakeup q chan =>
    dsimp only at stepped
    split at stepped <;> cases stepped
    exact inv.slot fun alert => alert.rouse chan
  | preempt _ | schedule _ =>
    dsimp only at stepped
    split at stepped <;> cases stepped
    exact inv.slot fun alert => alert.awake nofun

end

theorem Inv.initial (initially : Initial s) : Inv s where
  exclusive p q r holds := by
    rw [initially p] at holds
    cases holds
  alert p := by
    rw [initially p]
    exact alert_calm rfl _

/-- In every run in which no `kill` falls between a test and the `sleep` that follows it, no
process sleeps in one of the loops with `p->killed` set. -/
theorem no_missed_kill {events : List (Event n)} (initially : Initial s)
    (run : Run (fun s event t => Timely s event ∧ Step s event t) s events t) (p : Fin n) :
    ¬ Missed t p := by
  have inv : Inv t :=
    run.invariant Inv (fun inv step => inv.step step.1 step.2) (.initial initially)
  rintro ⟨call, place, asleep, marked, -, -⟩
  have alert := inv.alert p
  rw [place] at alert
  have alive : (t.proc p).killed = false := alert asleep
  rw [alive] at marked
  cases marked

/-- Process 0 and the process 1 that kills it; the pipe is empty and both ends are open. -/
def twoProcesses : State 2 where
  proc p := { state := .running, chan := none, killed := false, pid := Int32.ofNat (p.val + 1) }
  parent _ := none
  pipe _ := { nread := 0, nwrite := 0, readopen := true, writeopen := true }
  cons := { r := 0, w := 0, buf := fun _ => 0 }
  ticks := 0
  place _ := .user

/-- Process 0 calls `piperead` and finds that it is not killed. -/
def readerTests : List (Event 2) :=
  [.call 0 (.piperead 0 1), .step 0 true, .step 0 true, .step 0 true, .step 0 true]

/-- Process 0 goes through `sleep`. -/
def readerSleeps : List (Event 2) := [.step 0 true, .step 0 true, .step 0 true]

/-- Process 1 kills process 0. -/
def killsReader : List (Event 2) := [.call 1 (.kill 1), .step 1 true, .step 1 true]

/-- A reader that is killed in its sleep is woken. -/
theorem no_missed_kill_reader : ∃ t : State 2,
      Run (fun s event t => Timely s event ∧ Step s event t) twoProcesses
        (readerTests ++ readerSleeps ++ killsReader) t ∧
      (t.proc 0).killed = true ∧ (t.proc 0).state = .runnable ∧ ¬ Missed t 0 := by
  have executed : ∃ t, (readerTests ++ readerSleeps ++ killsReader).foldlM
      (fun s event => if Timely s event then next s event else none) twoProcesses = some t ∧
        (t.proc 0).killed = true ∧ (t.proc 0).state = .runnable :=
    ⟨_, rfl, rfl, rfl⟩
  obtain ⟨t, fold, marked, woken⟩ := executed
  have run := (Run.of_execute fold).mono fun one => Option.ite_none_right_eq_some.mp one
  exact ⟨t, run, marked, woken, no_missed_kill (fun _ => rfl) run 0⟩

/-- A `kill` between the test and `sleep` is missed: process 0 sleeps on the empty pipe with
`p->killed` set, and both locks are free. -/
theorem kill_between_test_and_sleep : ∃ t : State 2, Initial twoProcesses ∧
      Run Step twoProcesses (readerTests ++ killsReader ++ readerSleeps) t ∧ Missed t 0 :=
  ⟨_, fun _ => rfl, .of_execute rfl, .piperead 0 1, rfl, rfl, rfl, rfl, rfl⟩

end Xv6.Kill
