import Mathlib.Data.Fintype.Card
import Xv6.Lib.Runs
import Xv6.Log.Basic

/-!
# Admission to the log

Processes call `begin_op`, `log_write` and `end_op` in any order that brackets
properly: a process writes to the log only between its own `begin_op` and its
own `end_op`. Each section under `log.lock` is one step. The process that ends
the last operation runs `commit` without the lock, between the two locked
sections of `end_op`, while other processes may arrive.
-/

namespace Xv6.Admission

open Log

/-- Where a process is with respect to the log. -/
inductive OpState where
  | idle
  | arriving
  | sleeping
  | inOp
  | committing
  | committed
  deriving DecidableEq, Repr

/-- The steps of the processes. -/
inductive Event (Pid : Type) where
  | call (p : Pid)
  | enter (p : Pid)
  | sleep (p : Pid)
  | logWrite (p : Pid) (blockno : Nat)
  | endOp (p : Pid)
  | commit (p : Pid)
  | finish (p : Pid)
  deriving DecidableEq, Repr

structure State (Pid : Type) where
  log : Log
  procs : Pid → OpState
  panicked : Option LogPanic

variable {Pid : Type} {o : OpState} {event : Event Pid} {q : Pid}

def initial (Pid : Type) (dev start size : Nat) : State Pid where
  log := Log.init dev start size
  procs := fun _ => .idle
  panicked := none

section Steps

variable [DecidableEq Pid]

namespace State

def move (s : State Pid) (p : Pid) (o : OpState) : State Pid :=
  { s with procs := Function.update s.procs p o }

/-- `wakeup(&log)`: every sleeper of `begin_op` tests again. -/
def wakeup (s : State Pid) : State Pid :=
  { s with procs := fun q => if s.procs q = .sleeping then .arriving else s.procs q }

theorem procs_move_of_ne {s : State Pid} {p : Pid} (other : q ≠ p) :
    (s.move p o).procs q = s.procs q :=
  Function.update_of_ne other _ _

def setLog (s : State Pid) (log : Log) : State Pid := { s with log := log }

def panic (s : State Pid) (why : LogPanic) : State Pid := { s with panicked := some why }

end State

/-- One step, when the process is where the step starts. -/
def next (s : State Pid) : Event Pid → Option (State Pid)
  | .call p => if s.procs p = .idle then some (s.move p .arriving) else none
  | .enter p =>
    if s.procs p = .arriving then
      s.log.beginOp.map fun log => (s.setLog log).move p .inOp
    else none
  | .sleep p =>
    if s.procs p = .arriving ∧ s.log.beginOp = none then some (s.move p .sleeping) else none
  | .logWrite p blockno =>
    if s.procs p = .inOp then
      match s.log.logWrite blockno with
      | .ok (log, _) => some (s.setLog log)
      | .error why => some (s.panic why)
    else none
  | .endOp p =>
    if s.procs p = .inOp then
      match s.log.endOp with
      | .ok (log, true) => some ((s.setLog log).move p .committing)
      | .ok (log, false) => some ((s.setLog log).wakeup.move p .idle)
      | .error why => some (s.panic why)
    else none
  | .commit p =>
    if s.procs p = .committing then
      some ((s.setLog { s.log with lh := [] }).move p .committed)
    else none
  | .finish p =>
    if s.procs p = .committed then
      some ((s.setLog s.log.finishCommit).wakeup.move p .idle)
    else none

/-- A panic stops the machine. -/
def advance (s : State Pid) (event : Event Pid) : Option (State Pid) :=
  if s.panicked = none then next s event else none

def Step (s : State Pid) (event : Event Pid) (t : State Pid) : Prop :=
  advance s event = some t

end Steps

/-- The blocks passed to `log_write` since the last commit. -/
def sinceCommit : List (Event Pid) → List Nat :=
  List.foldl (fun blocks event =>
    match event with
    | .commit _ => []
    | .logWrite _ blockno => blocks ++ [blockno]
    | _ => blocks) []

/-- The blocks that the operation `p` is in, or was in last, has passed to
`log_write`. -/
def opBlocks [DecidableEq Pid] (p : Pid) : List (Event Pid) → List Nat :=
  List.foldl (fun blocks event =>
    match event with
    | .enter q => if q = p then [] else blocks
    | .logWrite q blockno => if q = p then blocks ++ [blockno] else blocks
    | _ => blocks) []

/-- Every operation logs at most `MAXOPBLOCKS` distinct blocks. -/
def OpsFit [DecidableEq Pid] (events : List (Event Pid)) : Prop :=
  ∀ before after, events = before ++ after → ∀ p, (opBlocks p before).toFinset.card ≤ MAXOPBLOCKS

/-! ## What one step does -/

theorem sinceCommit_snoc (events : List (Event Pid)) (event : Event Pid) :
    sinceCommit (events ++ [event]) =
      match event with
      | .commit _ => []
      | .logWrite _ blockno => sinceCommit events ++ [blockno]
      | _ => sinceCommit events := by
  simp only [sinceCommit, List.foldl_append, List.foldl_cons, List.foldl_nil]

variable [DecidableEq Pid]

/-- The effect of each event, with the tests that let it happen. -/
inductive Effect (s : State Pid) : Event Pid → State Pid → Prop where
  | call {p : Pid} : s.procs p = .idle → Effect s (.call p) (s.move p .arriving)
  | enter {p : Pid} : s.procs p = .arriving → s.log.admits = true → Effect s (.enter p)
        ((s.setLog { s.log with outstanding := s.log.outstanding + 1 }).move p .inOp)
  | sleep {p : Pid} : s.procs p = .arriving → Effect s (.sleep p) (s.move p .sleeping)
  | absorb {p : Pid} {blockno : Nat} : s.procs p = .inOp → ¬ s.log.Full → blockno ∈ s.log.lh →
      Effect s (.logWrite p blockno) s
  | append {p : Pid} {blockno : Nat} : s.procs p = .inOp → ¬ s.log.Full → blockno ∉ s.log.lh →
      Effect s (.logWrite p blockno) (s.setLog { s.log with lh := s.log.lh ++ [blockno] })
  | tooBig {p : Pid} {blockno : Nat} : s.procs p = .inOp → s.log.Full →
      Effect s (.logWrite p blockno) (s.panic .tooBig)
  | outside {p : Pid} {blockno : Nat} : s.procs p = .inOp → ¬ s.log.Full →
      s.log.outstanding < 1 → Effect s (.logWrite p blockno) (s.panic .outsideTrans)
  | last {p : Pid} : s.procs p = .inOp → s.log.committing = false → s.log.outstanding = 1 →
      Effect s (.endOp p)
        ((s.setLog { s.log with outstanding := 0, committing := true }).move p .committing)
  | more {p : Pid} : s.procs p = .inOp → s.log.committing = false → s.log.outstanding ≠ 1 →
      Effect s (.endOp p)
        ((s.setLog { s.log with outstanding := s.log.outstanding - 1 }).wakeup.move p .idle)
  | interrupted {p : Pid} : s.procs p = .inOp → s.log.committing = true →
      Effect s (.endOp p) (s.panic .committing)
  | commit {p : Pid} : s.procs p = .committing →
      Effect s (.commit p) ((s.setLog { s.log with lh := [] }).move p .committed)
  | finish {p : Pid} : s.procs p = .committed →
      Effect s (.finish p) ((s.setLog s.log.finishCommit).wakeup.move p .idle)

theorem next_effect {s t : State Pid} (moved : next s event = some t) : Effect s event t := by
  cases event with
  | call p =>
    obtain ⟨here, ⟨⟩⟩ := Option.ite_none_right_eq_some.mp moved
    exact .call here
  | enter p =>
    obtain ⟨here, moved⟩ := Option.ite_none_right_eq_some.mp moved
    obtain ⟨log, began, rfl⟩ := Option.map_eq_some_iff.mp moved
    obtain ⟨room, rfl⟩ := beginOp_eq_some.mp began
    exact .enter here room
  | sleep p =>
    obtain ⟨here, ⟨⟩⟩ := Option.ite_none_right_eq_some.mp moved
    exact .sleep here.1
  | logWrite p blockno =>
    obtain ⟨here, moved⟩ := Option.ite_none_right_eq_some.mp moved
    split at moved
    next log new written =>
      cases moved
      obtain ⟨short, fits, -, written⟩ := logWrite_ok written
      have room : ¬ s.log.Full := by unfold Log.Full; omega
      obtain ⟨old, rfl, -⟩ | ⟨fresh, rfl, -⟩ := written
      · exact .absorb here room old
      · exact .append here room fresh
    next why failed =>
      cases moved
      obtain ⟨full, rfl⟩ | ⟨room, outside, rfl⟩ := logWrite_error failed
      · exact .tooBig here full
      · exact .outside here room outside
  | endOp p =>
    obtain ⟨here, moved⟩ := Option.ite_none_right_eq_some.mp moved
    split at moved
    next log ended =>
      cases moved
      obtain ⟨quiet, ⟨one, -, rfl⟩ | ⟨-, impossible, -⟩⟩ := endOp_ok ended
      · exact .last here quiet one
      · cases impossible
    next log ended =>
      cases moved
      obtain ⟨quiet, ⟨-, impossible, -⟩ | ⟨several, -, rfl⟩⟩ := endOp_ok ended
      · cases impossible
      · exact .more here quiet several
    next why failed =>
      cases moved
      obtain ⟨busy, rfl⟩ := endOp_error failed
      exact .interrupted here busy
  | commit p =>
    obtain ⟨here, ⟨⟩⟩ := Option.ite_none_right_eq_some.mp moved
    exact .commit here
  | finish p =>
    obtain ⟨here, ⟨⟩⟩ := Option.ite_none_right_eq_some.mp moved
    exact .finish here

theorem Step.effect {s t : State Pid} (step : Step s event t) :
    s.panicked = none ∧ Effect s event t := by
  unfold Step advance at step
  split at step
  next calm => exact ⟨calm, next_effect step⟩
  next => cases step

/-! ## The invariant -/

section Invariant

variable [Fintype Pid]

/-- The processes between `begin_op` and `end_op`. -/
def State.running (s : State Pid) : Finset Pid := Finset.univ.filter fun p => s.procs p = .inOp

/-- The process is in `end_op` and has set `committing`. -/
def State.Committer (s : State Pid) (p : Pid) : Prop :=
  s.procs p = .committing ∨ s.procs p = .committed

@[simp] theorem State.mem_running {s : State Pid} {p : Pid} :
    p ∈ s.running ↔ s.procs p = .inOp := by
  simp [running]

@[simp] theorem State.running_setLog (s : State Pid) (log : Log) :
    (s.setLog log).running = s.running := rfl

@[simp] theorem State.running_wakeup (s : State Pid) : s.wakeup.running = s.running := by
  ext q
  simp only [mem_running, wakeup]
  split
  next asleep => simp [asleep]
  next => rfl

theorem State.running_enter (s : State Pid) (p : Pid) :
    (s.move p .inOp).running = insert p s.running := by
  ext q
  by_cases same : q = p
  · subst same
    simp [move]
  · simp [move, same]

theorem State.running_leave {s : State Pid} {p : Pid} (out : o ≠ .inOp) :
    (s.move p o).running = s.running.erase p := by
  ext q
  by_cases same : q = p
  · subst same
    simp [move, out]
  · simp [move, same]

theorem State.committer_move {s : State Pid} {p : Pid} : (s.move p o).Committer q ↔
      q = p ∧ (o = .committing ∨ o = .committed) ∨ q ≠ p ∧ s.Committer q := by
  by_cases same : q = p
  · subst same
    simp [Committer, move]
  · simp [Committer, move, same]

@[simp] theorem State.committer_setLog {s : State Pid} {log : Log} {p : Pid} :
    (s.setLog log).Committer p ↔ s.Committer p := Iff.rfl

@[simp] theorem State.committer_wakeup {s : State Pid} {p : Pid} :
    s.wakeup.Committer p ↔ s.Committer p := by
  simp only [Committer, wakeup]
  split
  next asleep => simp [asleep]
  next => rfl

/-- What holds of the log and the processes after any events. -/
structure Invariant (events : List (Event Pid)) (s : State Pid) : Prop where
  counted : s.log.outstanding = s.running.card
  committer : ∀ p, s.Committer p → s.log.committing = true
  unique : ∀ p q, s.Committer p → s.Committer q → p = q
  quiet : s.log.committing = true → s.log.outstanding = 0
  distinct : s.log.lh.Nodup
  logged : s.panicked = none → ∀ blockno, blockno ∈ s.log.lh ↔ blockno ∈ sinceCommit events
  notCommitting : s.panicked ≠ some .committing
  notOutside : s.panicked ≠ some .outsideTrans

theorem Invariant.initial (dev start size : Nat) : Invariant [] (initial Pid dev start size) where
  counted := by simp [Admission.initial, init, State.running]
  committer := by simp [Admission.initial, State.Committer]
  unique := by simp [Admission.initial, State.Committer]
  quiet := by simp [Admission.initial, init]
  distinct := by simp [Admission.initial, init]
  logged := by simp [Admission.initial, init, sinceCommit]
  notCommitting := by simp [Admission.initial]
  notOutside := by simp [Admission.initial]

namespace Invariant

variable {events : List (Event Pid)} {s t : State Pid} {p : Pid}

section

variable (inv : Invariant events s)
include inv

/-- A process between `begin_op` and `end_op` keeps the commit away. -/
theorem not_committing (inside : s.procs p = .inOp) : s.log.committing = false := by
  by_contra busy
  have none := inv.quiet (by simpa using busy)
  have some : 0 < s.running.card := Finset.card_pos.mpr ⟨p, State.mem_running.mpr inside⟩
  have := inv.counted
  omega

theorem outstanding_pos (inside : s.procs p = .inOp) : 1 ≤ s.log.outstanding := by
  have some : 0 < s.running.card := Finset.card_pos.mpr ⟨p, State.mem_running.mpr inside⟩
  have := inv.counted
  omega

/-- A process that is in no operation may move about outside. -/
theorem outside (left : s.procs p ≠ .inOp)
    (enters : o ≠ .inOp) (idle : ¬ (o = .committing ∨ o = .committed)) :
    Invariant events (s.move p o) where
  counted := by
    rw [State.running_leave enters, Finset.erase_eq_of_notMem (by simpa using left)]
    exact inv.counted
  committer := by
    intro q busy
    obtain ⟨-, h⟩ | ⟨-, h⟩ := State.committer_move.mp busy
    · exact absurd h idle
    · exact inv.committer q h
  unique := by
    intro q r busy other
    obtain ⟨-, h⟩ | ⟨-, h⟩ := State.committer_move.mp busy
    · exact absurd h idle
    obtain ⟨-, k⟩ | ⟨-, k⟩ := State.committer_move.mp other
    · exact absurd k idle
    exact inv.unique q r h k
  quiet := inv.quiet
  distinct := inv.distinct
  logged := inv.logged
  notCommitting := inv.notCommitting
  notOutside := inv.notOutside

theorem not_committer (calm : s.log.committing = false) (q : Pid) : ¬ s.Committer q := by
  intro busy
  rw [inv.committer q busy] at calm
  cases calm

theorem enter (room : s.log.admits = true) (here : s.procs p = .arriving) : Invariant events
      ((s.setLog { s.log with outstanding := s.log.outstanding + 1 }).move p .inOp) where
  counted := by
    rw [State.running_enter, State.running_setLog, Finset.card_insert_of_notMem (by simp [here])]
    have := inv.counted
    simp only [State.move, State.setLog]
    push_cast
    omega
  committer := by
    intro q busy
    obtain ⟨-, h⟩ | ⟨-, h⟩ := State.committer_move.mp busy
    · simp at h
    · exact inv.committer q h
  unique := by
    intro q r busy
    obtain ⟨-, h⟩ | ⟨-, h⟩ := State.committer_move.mp busy
    · simp at h
    · exact absurd h (inv.not_committer (admits_iff.mp room).1 q)
  quiet := by
    intro busy
    simp only [State.move, State.setLog, (admits_iff.mp room).1] at busy
    cases busy
  distinct := inv.distinct
  logged := inv.logged
  notCommitting := inv.notCommitting
  notOutside := inv.notOutside

section

variable (here : s.procs p = .inOp) (calm : s.log.committing = false)
include here calm

/-- The last operation ends: its process becomes the one committer. -/
theorem last (one : s.log.outstanding = 1) :
    Invariant events
      ((s.setLog { s.log with outstanding := 0, committing := true }).move p .committing) where
  counted := by
    rw [State.running_leave (by simp), State.running_setLog,
      Finset.card_erase_of_mem (by simpa using here)]
    have := inv.counted
    simp only [State.move, State.setLog]
    omega
  committer := fun _ _ => rfl
  unique := by
    intro q r busy other
    obtain ⟨rfl, -⟩ | ⟨-, h⟩ := State.committer_move.mp busy
    · obtain ⟨rfl, -⟩ | ⟨-, k⟩ := State.committer_move.mp other
      · rfl
      · exact absurd k (inv.not_committer calm r)
    · exact absurd h (inv.not_committer calm q)
  quiet := fun _ => rfl
  distinct := inv.distinct
  logged := inv.logged
  notCommitting := inv.notCommitting
  notOutside := inv.notOutside

theorem more : Invariant events
      ((s.setLog { s.log with outstanding := s.log.outstanding - 1 }).wakeup.move p .idle) where
  counted := by
    rw [State.running_leave (by simp), State.running_wakeup, State.running_setLog,
      Finset.card_erase_of_mem (by simpa using here)]
    have := inv.counted
    have := inv.outstanding_pos here
    simp only [State.move, State.wakeup, State.setLog]
    omega
  committer := by
    intro q busy
    obtain ⟨-, h⟩ | ⟨-, h⟩ := State.committer_move.mp busy
    · simp at h
    · exact inv.committer q (by simpa using h)
  unique := by
    intro q r busy
    obtain ⟨-, h⟩ | ⟨-, h⟩ := State.committer_move.mp busy
    · simp at h
    · exact absurd (by simpa using h) (inv.not_committer calm q)
  quiet := by
    intro busy
    simp only [State.move, State.wakeup, State.setLog, calm] at busy
    cases busy
  distinct := inv.distinct
  logged := inv.logged
  notCommitting := inv.notCommitting
  notOutside := inv.notOutside

end

theorem commit (here : s.procs p = .committing) : Invariant (events ++ [.commit p])
      ((s.setLog { s.log with lh := [] }).move p .committed) where
  counted := by
    rw [State.running_leave (by simp), State.running_setLog,
      Finset.erase_eq_of_notMem (by simp [here])]
    exact inv.counted
  committer := fun _ _ => inv.committer p (.inl here)
  unique := by
    intro q r busy other
    obtain ⟨rfl, -⟩ | ⟨-, h⟩ := State.committer_move.mp busy
    · obtain ⟨rfl, -⟩ | ⟨-, k⟩ := State.committer_move.mp other
      · rfl
      · exact inv.unique q r (.inl here) k
    · obtain ⟨rfl, -⟩ | ⟨-, k⟩ := State.committer_move.mp other
      · exact inv.unique q r h (.inl here)
      · exact inv.unique q r h k
  quiet := inv.quiet
  distinct := List.nodup_nil
  logged := by
    intro _ blockno
    simp [sinceCommit_snoc, State.move, State.setLog]
  notCommitting := inv.notCommitting
  notOutside := inv.notOutside

theorem finish (here : s.procs p = .committed) :
    Invariant events ((s.setLog s.log.finishCommit).wakeup.move p .idle) where
  counted := by
    rw [State.running_leave (by simp), State.running_wakeup, State.running_setLog,
      Finset.erase_eq_of_notMem (by simp [here])]
    exact inv.counted
  committer := by
    intro q busy
    obtain ⟨-, h⟩ | ⟨other, h⟩ := State.committer_move.mp busy
    · simp at h
    · exact absurd (inv.unique q p (by simpa using h) (.inr here)) other
  unique := by
    intro q r busy
    obtain ⟨-, h⟩ | ⟨other, h⟩ := State.committer_move.mp busy
    · simp at h
    · exact absurd (inv.unique q p (by simpa using h) (.inr here)) other
  quiet := by
    intro busy
    simp [State.move, State.wakeup, State.setLog, finishCommit] at busy
  distinct := inv.distinct
  logged := inv.logged
  notCommitting := inv.notCommitting
  notOutside := inv.notOutside

/-- Events that log nothing and commit nothing leave the history alone. -/
theorem unlogged (same : sinceCommit (events ++ [event]) = sinceCommit events) :
    Invariant (events ++ [event]) s :=
  { inv with logged := by rw [same]; exact inv.logged }

theorem step (step : Step s event t) : Invariant (events ++ [event]) t := by
  obtain ⟨calm, effect⟩ := step.effect
  cases effect with
  | call here | sleep here =>
    exact (inv.outside (by simp [here]) (by simp) (by simp)).unlogged (sinceCommit_snoc ..)
  | @enter p here room => exact (inv.enter room here).unlogged (sinceCommit_snoc ..)
  | @absorb p blockno here room old =>
    refine { inv with logged := fun _ other => ?_ }
    rw [sinceCommit_snoc, List.mem_append, List.mem_singleton, ← inv.logged calm]
    constructor
    · exact .inl
    · rintro (h | rfl)
      · exact h
      · exact old
  | @append p blockno here room fresh =>
    refine { inv with
      distinct := inv.distinct.append (List.nodup_singleton _) (by simpa using fresh)
      logged := fun _ other => ?_ }
    simp only [sinceCommit_snoc, State.setLog, List.mem_append, inv.logged calm]
  | @tooBig p blockno here full =>
    exact { inv with
      logged := by simp [State.panic]
      notCommitting := by simp [State.panic]
      notOutside := by simp [State.panic] }
  | @outside p blockno here room out =>
    have := inv.outstanding_pos here
    omega
  | @last p here quiet one => exact (inv.last here quiet one).unlogged (sinceCommit_snoc ..)
  | @more p here quiet several => exact (inv.more here quiet).unlogged (sinceCommit_snoc ..)
  | @interrupted p here busy =>
    rw [inv.not_committing here] at busy
    cases busy
  | @commit p here => exact inv.commit here
  | @finish p here => exact (inv.finish here).unlogged (sinceCommit_snoc ..)

end

end Invariant

/-! ## Runs -/

section Runs

variable {events : List (Event Pid)} {s t : State Pid} {dev start size : Nat} {blockno : Nat}

theorem Invariant.run (run : Run Step (Admission.initial Pid dev start size) events s) :
    Invariant events s :=
  run.history (fun inv one => inv.step one) (.initial dev start size)

theorem step_functional (s : State Pid) (event : Event Pid) (t u : State Pid)
    (first : Step s event t) (second : Step s event u) : t = u :=
  Option.some.inj (first.symm.trans second)

/-- Only its own `end_op` takes a process out of its operation. -/
theorem Step.inOp_of_ne {p : Pid} (step : Step s event t)
    (inside : s.procs p = .inOp) (other : event ≠ .endOp p) : t.procs p = .inOp := by
  have elsewhere : ∀ {u : State Pid} {q : Pid} {o : OpState}, s.procs q ≠ .inOp →
      u.procs p = .inOp → (u.move q o).procs p = .inOp := by
    intro u q o out still
    have different : p ≠ q := fun same => out (same ▸ inside)
    rw [State.procs_move_of_ne different, still]
  have awake : s.wakeup.procs p = .inOp := by simp [State.wakeup, inside]
  cases step.effect.2 with
  | call here | enter here | sleep here | commit here =>
    exact elsewhere (by simp [here]) inside
  | @last q here =>
    have different : p ≠ q := fun same => other (by rw [same])
    rw [State.procs_move_of_ne different]
    exact inside
  | @more q here =>
    have different : p ≠ q := fun same => other (by rw [same])
    rw [State.procs_move_of_ne different]
    exact awake
  | finish here => exact elsewhere (by simp [here]) awake
  | _ => exact inside

theorem inOp_of_run {p : Pid} (run : Run Step s events t) (inside : s.procs p = .inOp)
    (running : .endOp p ∉ events) : t.procs p = .inOp := by
  induction run with
  | refl => exact inside
  | tail _ last ih =>
    simp only [List.mem_append, List.mem_singleton, not_or] at running
    exact last.inOp_of_ne (ih running.1) (Ne.symm running.2)

theorem mem_sinceCommit {events rest : List (Event Pid)} {p : Pid}
    (mem : .logWrite p blockno ∈ rest) (open_ : ∀ q, .commit q ∉ rest) :
    blockno ∈ sinceCommit (events ++ rest) := by
  induction rest using List.reverseRecOn with
  | nil => simp at mem
  | append_singleton rest event ih =>
    simp only [List.mem_append, List.mem_singleton, not_or] at mem open_
    rw [← List.append_assoc, sinceCommit_snoc]
    obtain earlier | rfl := mem
    · have found := ih earlier fun q => (open_ q).1
      cases event with
      | commit q => exact absurd rfl (open_ q).2
      | logWrite q other => exact List.mem_append_left _ found
      | _ => exact found
    · simp

/-- **No system call is split across commits.** The commit after the start of an operation has
all that it logged. -/
theorem no_call_split (run : Run Step (initial Pid dev start size) events s) :
    s.log.outstanding = (Finset.univ.filter fun p => s.procs p = .inOp).card ∧
    (s.log.committing = true → s.log.outstanding = 0) ∧
    s.log.lh.Nodup ∧
    (s.panicked = none → ∀ blockno, blockno ∈ s.log.lh ↔ blockno ∈ sinceCommit events) ∧
    (∀ before p blockno after, events = before ++ .logWrite p blockno :: after →
      ∀ t, Run Step (initial Pid dev start size) before t →
        t.log.committing = false ∧ ∀ q, t.procs q ≠ .committing ∧ t.procs q ≠ .committed) ∧
    (∀ before p op after, events = before ++ .enter p :: op ++ after → .endOp p ∉ op →
      ∀ q, .commit q ∉ op) ∧
    (∀ before p op rest q after,
      events = before ++ .enter p :: op ++ rest ++ .commit q :: after → .endOp p ∉ op →
      (∀ r, .commit r ∉ rest) →
      ∀ t, Run Step (initial Pid dev start size) (before ++ .enter p :: op ++ rest) t →
        ∀ blockno, .logWrite p blockno ∈ op → blockno ∈ t.log.lh) ∧
    s.panicked ≠ some .committing ∧ s.panicked ≠ some .outsideTrans := by
  have inv := Invariant.run run
  have whole : ∀ before p op after, events = before ++ .enter p :: op ++ after →
      .endOp p ∉ op → ∀ q, .commit q ∉ op := by
    rintro before p op after rfl running q mem
    obtain ⟨early, late, rfl⟩ := List.append_of_mem mem
    obtain ⟨t, up, -⟩ := run.split
    have upto : Run Step (initial Pid dev start size)
        ((before ++ .enter p :: early) ++ .commit q :: late) t := by simpa using up
    obtain ⟨u, commitDone, begun, one, -⟩ := upto.at_step
    obtain ⟨v, w, -, admitted, during⟩ := begun.at_step
    have inside : u.procs p = .inOp := by
      refine inOp_of_run during ?_ (by simp_all)
      cases admitted.effect.2
      simp [State.move]
    cases one.effect.2 with
    | commit here =>
      have quiet := (Invariant.run begun).not_committing inside
      rw [(Invariant.run begun).committer q (.inl here)] at quiet
      cases quiet
  refine ⟨inv.counted, inv.quiet, inv.distinct, inv.logged, ?_, whole, ?_, inv.notCommitting,
    inv.notOutside⟩
  · rintro before p blockno after rfl t upto
    obtain ⟨u, v, begun, one, -⟩ := run.at_step
    cases upto.unique step_functional begun
    have inside : t.procs p = .inOp := by
      cases one.effect.2 <;> assumption
    have quiet := (Invariant.run upto).not_committing inside
    refine ⟨quiet, fun q => ?_⟩
    exact not_or.mp ((Invariant.run upto).not_committer quiet q)
  · rintro before p op rest q after rfl running uncommitted t upto blockno mem
    obtain ⟨u, v, begun, one, -⟩ := run.at_step
    cases upto.unique step_functional begun
    refine ((Invariant.run upto).logged one.effect.1 blockno).mpr ?_
    have none : ∀ r, .commit r ∉ op ++ rest := by
      intro r
      simp only [List.mem_append, not_or]
      exact ⟨whole before p op (rest ++ .commit q :: after) (by simp) running r, uncommitted r⟩
    have found : blockno ∈ sinceCommit ((before ++ [.enter p]) ++ (op ++ rest)) :=
      mem_sinceCommit (List.mem_append_left rest mem) none
    simpa using found

/-- Two processes log the same block and a third one arrives during the
commit. -/
def twoWriters : List (Event (Fin 3)) :=
  [.call 0, .enter 0, .call 1, .enter 1, .logWrite 0 70, .logWrite 1 70, .logWrite 1 71,
    .endOp 0, .endOp 1, .call 2, .sleep 2]

theorem no_call_split_twoWriters :
    ∃ s, Run Step (initial (Fin 3) ROOTDEV 2 nlog) twoWriters s ∧ s.log.lh = [70, 71] ∧
      s.log.committing = true ∧
      s.log.outstanding = (Finset.univ.filter fun p => s.procs p = .inOp).card := by
  have executed : twoWriters.foldlM advance (initial (Fin 3) ROOTDEV 2 nlog) = some _ := rfl
  have run := Run.of_execute executed
  exact ⟨_, run, by decide, by decide, (no_call_split run).1⟩

/-! ## Log space -/

section

variable (run : Run Step (initial Pid dev start size) events s)
include run

theorem size_of_run : s.log.size = size := by
  refine run.invariant (fun s => s.log.size = size) ?_ rfl
  intro s event t same one
  cases one.effect.2 <;> exact same

theorem card_sinceCommit
    (calm : s.panicked = none) : (sinceCommit events).toFinset.card = s.log.lh.length := by
  have inv := Invariant.run run
  rw [← List.toFinset_card_of_nodup inv.distinct]
  congr 1
  ext blockno
  simp [inv.logged calm]

end

theorem full_iff (run : Run Step (initial Pid dev start nlog) events s) (calm : s.panicked = none) :
    s.log.Full ↔ LOGSIZE - 1 ≤ (sinceCommit events).toFinset.card := by
  rw [card_sinceCommit run calm, Log.Full, size_of_run run]
  simp only [nlog]
  omega

/-- The panic is reached by a `log_write` that finds the log full. -/
theorem Step.tooBig (step : Step s event t) (panicked : t.panicked = some .tooBig) :
    ∃ p blockno, event = .logWrite p blockno ∧ s.log.Full := by
  obtain ⟨calm, effect⟩ := step.effect
  cases effect with
  | tooBig here full => exact ⟨_, _, rfl, full⟩
  | outside => cases panicked
  | interrupted => cases panicked
  | _ => cases calm.symm.trans panicked

theorem Step.full {p : Pid} (step : Step s (.logWrite p blockno) t)
    (full : s.log.Full) : t.panicked = some .tooBig := by
  cases step.effect.2 with
  | absorb _ room => exact absurd full room
  | append _ room => exact absurd full room
  | tooBig => rfl
  | outside _ room => exact absurd full room

/-- **When the reserved log space is enough**: exactly when every `log_write` finds fewer than
`LOGSIZE - 1` distinct blocks logged since the last commit. -/
theorem never_tooBig_iff (run : Run Step (initial Pid dev start nlog) events s) :
    (∀ before after t, events = before ++ after →
      Run Step (initial Pid dev start nlog) before t → t.panicked ≠ some .tooBig) ↔
    ∀ before p blockno after, events = before ++ .logWrite p blockno :: after →
      (sinceCommit before).toFinset.card < LOGSIZE - 1 := by
  constructor
  · rintro never before p blockno after rfl
    obtain ⟨u, v, begun, one, -⟩ := run.at_step
    by_contra full
    refine never (before ++ [.logWrite p blockno]) after v (by simp) (begun.tail one) ?_
    exact one.full ((full_iff begun one.effect.1).mpr (by omega))
  · rintro bounded before after t rfl upto panicked
    cases upto with
    | refl => cases panicked
    | @tail past event u _ begun one =>
      obtain ⟨p, blockno, rfl, full⟩ := one.tooBig panicked
      have := bounded past p blockno after (by simp)
      have := (full_iff begun one.effect.1).mp full
      omega

/-- Three processes, each between `begin_op` and `end_op`, that log ten
blocks of their own each. -/
def threeFullOperations : List (Event (Fin 3)) :=
  [.call 0, .enter 0, .call 1, .enter 1, .call 2, .enter 2] ++
    (List.range 10).map (fun i => .logWrite 0 (100 + i)) ++
    (List.range 10).map (fun i => .logWrite 1 (110 + i)) ++
    (List.range 10).map (fun i => .logWrite 2 (120 + i))

/-- All but the last block of them are within the bound. -/
theorem never_tooBig_iff_allButOne :
    ∃ s, Run Step (initial (Fin 3) ROOTDEV 2 nlog) (threeFullOperations.take 35) s ∧
      ∀ before after t, threeFullOperations.take 35 = before ++ after →
        Run Step (initial (Fin 3) ROOTDEV 2 nlog) before t → t.panicked ≠ some .tooBig := by
  have executed : ((threeFullOperations.take 35).foldlM advance
      (initial (Fin 3) ROOTDEV 2 nlog)).isSome := by
    decide +kernel
  obtain ⟨s, executed⟩ := Option.isSome_iff_exists.mp executed
  have run := Run.of_execute executed
  refine ⟨s, run, (never_tooBig_iff run).mpr fun before p blockno after shape => ?_⟩
  have checked : ∀ n < 35,
      (sinceCommit ((threeFullOperations.take 35).take n)).toFinset.card < LOGSIZE - 1 := by
    decide +kernel
  have short := congrArg List.length shape
  rw [List.length_append, show (threeFullOperations.take 35).length = 35 from rfl,
    List.length_cons] at short
  rw [List.prefix_iff_eq_take.mp ⟨_, shape.symm⟩]
  exact checked _ (by omega)

theorem threeFullOperations_opsFit : OpsFit threeFullOperations := by
  intro before after shape p
  have checked : ∀ n < 37, ∀ p, (opBlocks p (threeFullOperations.take n)).toFinset.card ≤ 10 := by
    decide +kernel
  have short := congrArg List.length shape
  rw [List.length_append, show threeFullOperations.length = 36 from rfl] at short
  rw [List.prefix_iff_eq_take.mp ⟨_, shape.symm⟩]
  exact checked _ (by omega) p

/-- **The reserved log space is not enough** for three operations that keep within their limit. -/
theorem three_full_operations_panic : OpsFit threeFullOperations ∧
      ∃ s, Run Step (initial (Fin 3) ROOTDEV 2 nlog) threeFullOperations s ∧
        s.panicked = some .tooBig := by
  refine ⟨threeFullOperations_opsFit, ?_⟩
  have executed : ((threeFullOperations.foldlM advance (initial (Fin 3) ROOTDEV 2 nlog)).map
      State.panicked) = some (some .tooBig) := by
    decide +kernel
  obtain ⟨s, run, panicked⟩ := Option.map_eq_some_iff.mp executed
  exact ⟨s, Run.of_execute run, panicked⟩

end Runs

end Invariant

end Xv6.Admission
