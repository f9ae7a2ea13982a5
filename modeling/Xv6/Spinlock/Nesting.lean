import Xv6.Spinlock.Steps

/-!
# Interrupts and the nesting of `push_off`

A thread leaves its outermost section with interrupts as they were when it entered it, also
on another CPU (`interrupts_nest`).
-/

namespace Xv6.Spinlock

variable {C T L : Type} [DecidableEq C] [DecidableEq T] [DecidableEq L] {plock : T → L}
  {s u : State C T L} {c : C}

section Runs

variable [Fintype L] {t : T} {lk : L} {b : Bool}

/-- A balanced step after which the thread has not left the section that it is in, and still
is the same thread. -/
def InSection (plock : T → L) (t : T) (s : State C T L) (event : Event C T L) (u : State C T L) :
    Prop :=
  Balanced s event ∧ Step plock s event u ∧ (∀ c, event ≠ .recycle c t) ∧
    ∀ c, u.thread c = some t → 0 < u.noff c

section

variable (inv : Inv s)
include inv

theorem entry_pushOff {old : Bool} (runs : s.runs c = true)
    (entered : s.entry t = some b) : (s.pushOff c old).entry t = some b := by
  simp only [State.pushOff]
  split
  case isFalse => exact entered
  case isTrue outside =>
    rw [setEntry_other, entered]
    intro running
    have positive := (inv.sections.on c t b running (on_of_runs runs running) entered).2
    omega

theorem entry_popOff (outstanding : 0 < s.explicit c) (entered : s.entry t = some b)
    (stays : ∀ d, (s.popOff c).thread d = some t → 0 < (s.popOff c).noff d) :
    (s.popOff c).entry t = some b := by
  rw [popOff_eq inv.counts outstanding] at stays ⊢
  simp only at stays ⊢
  split
  case isFalse => exact entered
  case isTrue outermost =>
    rw [setEntry_other, entered]
    intro running
    have positive := stays c running
    rw [Function.update_self] at positive
    omega

theorem entry_inSection {event : Event C T L}
    (inSection : InSection plock t s event u) (entered : s.entry t = some b) :
    u.entry t = some b := by
  obtain ⟨balanced, stepped, same, stays⟩ := inSection
  obtain ⟨c, old, rfl, runs, pushing, rfl⟩ | ⟨c, rfl, enabled, rfl⟩ |
    ⟨c, r, rfl, running, resumed⟩ |
    ⟨ready, acted⟩ := step_cases stepped
  · exact entry_pushOff inv runs entered
  · exact entered
  · unfold State.resume at resumed
    split at resumed <;> cases resumed
    exact entered
  · cases event with
    | pushRead c =>
      cases acted
      exact entered
    | take c lk =>
      simp only [act, State.take] at acted
      split at acted
      · cases acted
        exact entered
      · split at acted <;> cases acted
        exact entered
    | drop c lk =>
      cases acted
      unfold State.drop
      split <;> exact entered
    | popOff c =>
      cases acted
      exact entry_popOff inv balanced entered stays
    | intrSet c on =>
      cases acted
      exact entered
    | sret c =>
      simp only [act, State.sret] at acted
      split at acted <;> cases acted
      exact entered
    | sched c =>
      obtain ⟨r, running, rfl⟩ := Option.map_eq_some_iff.mp acted
      unfold State.sched
      split
      · exact entered
      · split
        · exact entered
        · split <;> exact entered
    | switch c r =>
      simp only [act, State.switch] at acted
      split at acted
      case isFalse => cases acted
      case isTrue =>
        obtain ⟨new, found, rfl⟩ := Option.map_eq_some_iff.mp acted
        exact entered
    | recycle c r =>
      have other : t ≠ r := fun equal => same c (by rw [equal])
      simp only [act, State.recycle] at acted
      split at acted
      case h_2 => cases acted
      case h_1 =>
        split at acted <;> cases acted
        simp only [Function.update_of_ne other]
        exact entered
    | pushOff c => cases acted
    | trap c => cases acted
    | resume c => cases acted

/-- The last `pop_off` of a section puts interrupts back to what `intena` says. -/
theorem sie_popOff (outstanding : 0 < s.explicit c) (last : s.noff c = 1) :
    (s.popOff c).noff c = 0 ∧ (s.popOff c).sie c = s.intena c := by
  have off := (inv.counts.popOff_checks outstanding).1
  rw [popOff_eq inv.counts outstanding]
  simp only [last, Nat.sub_self, Function.update_self, true_and]
  split
  next enabled => rw [Function.update_self, enabled]
  next disabled => rw [off, Bool.eq_false_iff.mpr disabled]

/-- How interrupts and `push_off` go together in a state. -/
structure Nesting (plock : T → L) (s : State C T L) : Prop where
  -- `noff` is the number of locks that are held plus that of the other calls of `push_off` that are
  -- outstanding
  noff : ∀ c, s.noff c = (held s c).card + s.explicit c
  off : ∀ c, 0 < s.noff c → s.sie c = false -- interrupts are off in a section
  -- a thread that enters a section here leaves it, on whatever CPU, with interrupts as they are now
  restored : ∀ {c d : C} {t : T} {entered inside left : State C T L} {events : List (Event C T L)},
    s.thread c = some t → s.noff c = 0 → Step plock s (.pushOff c) entered →
    Run (InSection plock t) entered events inside →
    inside.thread d = some t → inside.noff d = 1 → Balanced inside (.popOff d) →
    Step plock inside (.popOff d) left → left.noff d = 0 ∧ left.sie d = s.sie c
  interruptible : s.panic ≠ some .popOffInterruptible
  unmatched : s.panic ≠ some .popOff
  sched : s.panic ≠ some .schedInterruptible

theorem Inv.restored {c d : C} {entered inside left : State C T L}
    {events : List (Event C T L)} (running : s.thread c = some t) (outside : s.noff c = 0)
    (enter : Step plock s (.pushOff c) entered)
    (run : Run (InSection plock t) entered events inside)
    (there : inside.thread d = some t) (last : inside.noff d = 1)
    (balanced : Balanced inside (.popOff d)) (leave : Step plock inside (.popOff d) left) :
    left.noff d = 0 ∧ left.sie d = s.sie c := by
  have start : Inv entered ∧ entered.entry t = some (s.sie c) := by
    have balanced : Balanced s (.pushOff c) := trivial
    refine ⟨inv.step balanced enter, ?_⟩
    obtain ⟨_, old, ⟨⟩, -, -, rfl⟩ | ⟨_, ⟨⟩, -⟩ | ⟨_, _, ⟨⟩, -⟩ | ⟨-, ⟨⟩⟩ := step_cases enter
    simp only [State.pushOff]
    rw [if_pos outside, setEntry_self running]
  have stays : Inv inside ∧ inside.entry t = some (s.sie c) :=
    run.invariant (fun s' => Inv s' ∧ s'.entry t = some (s.sie c))
      (fun both step => ⟨both.1.step step.1 step.2.1, entry_inSection both.1 step both.2⟩) start
  obtain ⟨inv', entry⟩ := stays
  obtain ⟨_, _, ⟨⟩, -⟩ | ⟨_, ⟨⟩, -⟩ | ⟨_, _, ⟨⟩, -⟩ | ⟨ready, ⟨⟩⟩ := step_cases leave
  have on := on_of_runs (runs_of_ready ready) there
  have restored := sie_popOff inv' balanced last
  rw [(inv'.sections.on d t (s.sie c) there on entry).1] at restored
  exact restored

end

/-- In every run of balanced calls, `noff` counts the locks and the outstanding calls of
`push_off`, and each thread leaves its sections with interrupts as it has entered them. -/
theorem interrupts_nest {start : State C T L} {events : List (Event C T L)}
    (initially : Initial start)
    (run : Run (fun s event u => Balanced s event ∧ Step plock s event u) start events s) :
    Nesting plock s := by
  have inv : Inv s :=
    run.invariant Inv (fun inv step => inv.step step.1 step.2) (.initial initially)
  have calm : ∀ {panic : Panic}, panic.nesting = true → s.panic ≠ some panic := by
    intro panic nesting failed
    rw [inv.calm panic failed] at nesting
    cases nesting
  exact {
    noff := inv.counts.noff
    off := inv.counts.sie
    restored := inv.restored
    interruptible := calm rfl
    unmatched := calm rfl
    sched := calm rfl }

end Runs

instance (s : State C T L) (event : Event C T L) : Decidable (Balanced s event) := by
  cases event <;> unfold Balanced <;> infer_instance

/-- Two CPUs, one process, its lock 0 and another lock 1. -/
def twoCpus : State (Fin 2) (Fin 1) (Fin 2) where
  thread _ := none
  noff _ := 0
  intena _ := false
  sie _ := false
  explicit _ := 0
  lock _ := none
  pushing _ := none
  traps _ := []
  status _ := .fresh
  entry _ := none
  panic := none

def acquire (c lk : Fin 2) : List (Event (Fin 2) (Fin 1) (Fin 2)) :=
  [.pushRead c, .pushOff c, .take c lk]

def release (c lk : Fin 2) : List (Event (Fin 2) (Fin 1) (Fin 2)) := [.drop c lk, .popOff c]

/-- The process yields when a timer interrupt comes in the middle of `push_off`, and goes on on
CPU 1, where it takes lock 1. -/
def migration : List (Event (Fin 2) (Fin 1) (Fin 2)) :=
  acquire 0 0 ++ [.switch 0 0] ++ release 0 0 ++ [.intrSet 0 true, .pushRead 0, .trap 0] ++
    acquire 0 0 ++ [.sched 0] ++ release 0 0 ++ acquire 1 0 ++ [.switch 1 0, .resume 1] ++
    release 1 0 ++ [.sret 1, .pushOff 1, .take 1 1]

theorem interrupts_nest_migration : ∃ s : State (Fin 2) (Fin 1) (Fin 2),
      Run (fun s event u => Balanced s event ∧ Step (fun _ => 0) s event u) twoCpus migration s ∧
      s.thread 1 = some 0 ∧ s.noff 1 = 1 ∧ s.intena 1 = true ∧ Nesting (fun _ => 0) s := by
  have executed : ∃ s, migration.foldlM
      (fun s event => if Balanced s event then next (fun _ => 0) s event else none) twoCpus =
        some s ∧
        s.thread 1 = some 0 ∧ s.noff 1 = 1 ∧ s.intena 1 = true :=
    ⟨_, rfl, rfl, rfl, rfl⟩
  obtain ⟨s, fold, running, locked, enabled⟩ := executed
  have run := (Run.of_execute fold).mono fun one => Option.ite_none_right_eq_some.mp one
  have initially : Initial twoCpus :=
    ⟨fun _ => rfl, fun _ => rfl, fun _ => rfl, fun _ => rfl, fun _ => rfl, fun _ => rfl,
      fun _ => rfl,
      fun _ => rfl, rfl⟩
  exact ⟨s, run, running, locked, enabled, interrupts_nest initially run⟩

end Xv6.Spinlock
