import Xv6.Spinlock.Basic

/-!
# What the CPUs, the locks and the threads agree on

Four invariants of the machine, each about some of its fields. `Counts` is about the
counters of a CPU, `Pushes` about the stacks of what runs and of what has been interrupted,
`Threads` about who runs where, and `Sections` about the place where a thread keeps whether
interrupts are to be enabled again.
-/

namespace Xv6.Spinlock

variable {C T L : Type} [DecidableEq C] [DecidableEq T] [DecidableEq L] {plock : T → L}
  {s u : State C T L} {c : C} {d : C}

/-! ## The invariants -/

/-- The locks that are held on a CPU. -/
def held [Fintype L] (s : State C T L) (c : C) : Finset L :=
  inside (fun holder => decide (holder = some c)) s.lock

structure Counts [Fintype L] (s : State C T L) : Prop where
  noff : ∀ c, s.noff c = (held s c).card + s.explicit c
  sie : ∀ c, 0 < s.noff c → s.sie c = false

/-- An interrupted `push_off` goes on with interrupts as it has seen them. -/
structure Pushes (s : State C T L) : Prop where
  pushing : ∀ c old, s.pushing (s.who c) = some old → s.sie c = old
  traps : ∀ w old, some old ∈ s.traps w → old = true
  idle : ∀ w, (∀ c, s.who c ≠ w) → s.pushing w = none

def Status.running : Status → Bool
  | .resuming _ => true
  | .on => true
  | _ => false

/-- A thread runs on one CPU at most. -/
structure Threads (s : State C T L) : Prop where
  running : ∀ c t, s.thread c = some t → (s.status t).running = true
  unique : ∀ c d t, s.thread c = some t → s.thread d = some t → c = d

/-- Where a thread keeps whether interrupts are to be enabled at the end of its section. -/
structure Sections (s : State C T L) : Prop where
  on : ∀ c t b, s.thread c = some t → s.status t = .on → s.entry t = some b →
    s.intena c = b ∧ 0 < s.noff c
  off : ∀ t b saved, s.status t = .off saved → s.entry t = some b → saved = b
  resuming : ∀ t b saved, s.status t = .resuming saved → s.entry t = some b → saved = b
  holds : ∀ c t saved, s.thread c = some t → s.status t = .resuming saved → 0 < s.noff c
  fresh : ∀ t, s.status t = .fresh → s.entry t = none

theorem who_of_thread {c : C} {t : T} (running : s.thread c = some t) : s.who c = .inr t := by
  unfold State.who
  rw [running]

theorem who_of_scheduler {c : C} (idle : s.thread c = none) : s.who c = .inl c := by
  unfold State.who
  rw [idle]

theorem Threads.who_inj (threads : Threads s) {c : C} (same : s.who c = s.who d) : c = d := by
  cases here : s.thread c with
  | none =>
    rw [who_of_scheduler here] at same
    cases there : s.thread d with
    | none =>
      rw [who_of_scheduler there] at same
      exact Sum.inl.inj same
    | some t =>
      rw [who_of_thread there] at same
      cases same
  | some t =>
    rw [who_of_thread here] at same
    cases there : s.thread d with
    | none =>
      rw [who_of_scheduler there] at same
      cases same
    | some t' =>
      rw [who_of_thread there] at same
      cases same
      exact threads.unique c d t here there

theorem who_congr (thread : u.thread = s.thread) : u.who = s.who := by
  funext c
  unfold State.who
  rw [thread]

/-! ## What runs on a CPU changes its own stack -/

theorem Pushes.here (pushes : Pushes s) (threads : Threads s) (c : C)
    (thread : u.thread = s.thread) (sie : ∀ d, d ≠ c → u.sie d = s.sie d)
    (pushing : ∀ w, w ≠ s.who c → u.pushing w = s.pushing w)
    (traps : ∀ w, w ≠ s.who c → u.traps w = s.traps w)
    (agrees : ∀ old, u.pushing (s.who c) = some old → u.sie c = old)
    (returns : ∀ old, some old ∈ u.traps (s.who c) → old = true) : Pushes u := by
  have who := who_congr thread
  constructor
  · intro d old pushed
    rw [who] at pushed
    by_cases same : d = c
    · subst same
      exact agrees old pushed
    · rw [pushing _ fun equal => same (threads.who_inj equal)] at pushed
      rw [sie d same]
      exact pushes.pushing d old pushed
  · intro w old mem
    by_cases same : w = s.who c
    · subst same
      exact returns old mem
    · rw [traps w same] at mem
      exact pushes.traps w old mem
  · intro w out
    rw [who] at out
    rw [pushing w (out c).symm]
    exact pushes.idle w out

/-- A step that leaves the stacks alone, and the interrupts of a CPU that is in the middle of
`push_off`. -/
theorem Pushes.apart (pushes : Pushes s) (threads : Threads s) (c : C)
    (thread : u.thread = s.thread) (sie : ∀ d, d ≠ c → u.sie d = s.sie d)
    (pushing : u.pushing = s.pushing) (traps : u.traps = s.traps)
    (settled : s.pushing (s.who c) = none) : Pushes u := by
  refine pushes.here threads c thread sie (fun w _ => by rw [pushing]) (fun w _ => by rw [traps])
    (fun old pushed => ?_) (fun old mem => ?_)
  · rw [pushing, settled] at pushed
    cases pushed
  · rw [traps] at mem
    exact pushes.traps _ old mem

/-- The context of a CPU is replaced by another one that is not in `push_off`. -/
theorem Pushes.replace (pushes : Pushes s) (c : C) (thread : ∀ d, d ≠ c → u.thread d = s.thread d)
    (sie : u.sie = s.sie) (pushing : u.pushing = s.pushing) (traps : u.traps = s.traps)
    (before : s.pushing (s.who c) = none) (after : s.pushing (u.who c) = none) : Pushes u := by
  have others : ∀ d, d ≠ c → u.who d = s.who d := by
    intro d other
    unfold State.who
    rw [thread d other]
  constructor
  · intro d old pushed
    rw [pushing] at pushed
    by_cases same : d = c
    · subst same
      rw [after] at pushed
      cases pushed
    · rw [others d same] at pushed
      rw [sie]
      exact pushes.pushing d old pushed
  · rw [traps]
    exact pushes.traps
  · intro w out
    rw [pushing]
    by_cases ran : w = s.who c
    · rw [ran]
      exact before
    · refine pushes.idle w fun d => ?_
      by_cases same : d = c
      · rw [same]
        exact Ne.symm ran
      · rw [← others d same]
        exact out d

/-! ## Sections -/

theorem Threads.move (threads : Threads s) (t : T) (status : ∀ r, r ≠ t → u.status r = s.status r)
    (thread : ∀ d r, r ≠ t → u.thread d = some r → s.thread d = some r)
    (running : ∀ d, u.thread d = some t → (u.status t).running = true)
    (unique : ∀ d e, u.thread d = some t → u.thread e = some t → d = e) : Threads u := by
  constructor
  · intro d r there
    by_cases same : r = t
    · subst same
      exact running d there
    · rw [status r same]
      exact threads.running d r (thread d r same there)
  · intro d e r first second
    by_cases same : r = t
    · subst same
      exact unique d e first second
    · exact threads.unique d e r (thread d r same first) (thread e r same second)

section

variable (sections : Sections s)
include sections

theorem Sections.move (t : T) (noff : u.noff = s.noff)
    (status : ∀ r, r ≠ t → u.status r = s.status r) (entry : ∀ r, r ≠ t → u.entry r = s.entry r)
    (thread : ∀ d r, r ≠ t → u.thread d = some r → s.thread d = some r ∧ u.intena d = s.intena d)
    (on : ∀ d b, u.thread d = some t → u.status t = .on → u.entry t = some b →
      u.intena d = b ∧ 0 < s.noff d)
    (off : ∀ b saved, u.status t = .off saved → u.entry t = some b → saved = b)
    (resuming : ∀ b saved, u.status t = .resuming saved → u.entry t = some b → saved = b)
    (holds : ∀ d saved, u.thread d = some t → u.status t = .resuming saved → 0 < s.noff d)
    (fresh : u.status t = .fresh → u.entry t = none) : Sections u := by
  constructor
  · intro d r b there isOn entered
    rw [noff]
    by_cases same : r = t
    · subst same
      exact on d b there isOn entered
    · rw [status r same] at isOn
      rw [entry r same] at entered
      obtain ⟨there, intena⟩ := thread d r same there
      rw [intena]
      exact sections.on d r b there isOn entered
  · intro r b saved isOff entered
    by_cases same : r = t
    · subst same
      exact off b saved isOff entered
    · rw [status r same] at isOff
      rw [entry r same] at entered
      exact sections.off r b saved isOff entered
  · intro r b saved resumes entered
    by_cases same : r = t
    · subst same
      exact resuming b saved resumes entered
    · rw [status r same] at resumes
      rw [entry r same] at entered
      exact sections.resuming r b saved resumes entered
  · intro d r saved there resumes
    rw [noff]
    by_cases same : r = t
    · subst same
      exact holds d saved there resumes
    · rw [status r same] at resumes
      exact sections.holds d r saved (thread d r same there).1 resumes
  · intro r isFresh
    by_cases same : r = t
    · subst same
      exact fresh isFresh
    · rw [status r same] at isFresh
      rw [entry r same]
      exact sections.fresh r isFresh

theorem Sections.here (threads : Threads s) (c : C)
    (runs : s.runs c = true) (thread : u.thread = s.thread) (status : u.status = s.status)
    (intena : ∀ d, d ≠ c → u.intena d = s.intena d) (noff : ∀ d, d ≠ c → u.noff d = s.noff d)
    (entry : ∀ t, s.thread c ≠ some t → u.entry t = s.entry t)
    (agrees : ∀ t b, s.thread c = some t → u.entry t = some b → u.intena c = b ∧ 0 < u.noff c) :
    Sections u := by
  have on : ∀ t, s.thread c = some t → s.status t = .on := by
    intro t running
    unfold State.runs at runs
    rw [running] at runs
    exact of_decide_eq_true runs
  have kept : ∀ t, s.status t ≠ .on → u.entry t = s.entry t :=
    fun t other => entry t fun running => other (on t running)
  constructor
  · intro d t b running isOn entered
    rw [thread] at running
    by_cases same : d = c
    · subst same
      exact agrees t b running entered
    · rw [status] at isOn
      rw [entry t fun here => same (threads.unique d c t running here)] at entered
      rw [intena d same, noff d same]
      exact sections.on d t b running isOn entered
  · intro t b saved isOff entered
    rw [status] at isOff
    rw [kept t (by rw [isOff]; nofun)] at entered
    exact sections.off t b saved isOff entered
  · intro t b saved resumes entered
    rw [status] at resumes
    rw [kept t (by rw [resumes]; nofun)] at entered
    exact sections.resuming t b saved resumes entered
  · intro d t saved running resumes
    rw [thread] at running
    rw [status] at resumes
    have other : d ≠ c := by
      rintro rfl
      have isOn := on t running
      rw [resumes] at isOn
      cases isOn
    rw [noff d other]
    exact sections.holds d t saved running resumes
  · intro t isFresh
    rw [status] at isFresh
    rw [kept t (by rw [isFresh]; nofun)]
    exact sections.fresh t isFresh

theorem Sections.same (thread : u.thread = s.thread)
    (status : u.status = s.status) (intena : u.intena = s.intena) (noff : u.noff = s.noff)
    (entry : u.entry = s.entry) : Sections u := by
  constructor
  · rw [thread, status, intena, noff, entry]
    exact sections.on
  · rw [status, entry]
    exact sections.off
  · rw [status, entry]
    exact sections.resuming
  · rw [thread, status, noff]
    exact sections.holds
  · rw [status, entry]
    exact sections.fresh

end

theorem Pushes.same (pushes : Pushes s) (thread : u.thread = s.thread) (sie : u.sie = s.sie)
    (pushing : u.pushing = s.pushing) (traps : u.traps = s.traps) : Pushes u := by
  constructor
  · rw [who_congr thread, sie, pushing]
    exact pushes.pushing
  · rw [traps]
    exact pushes.traps
  · rw [who_congr thread, pushing]
    exact pushes.idle

theorem Threads.same (threads : Threads s) (thread : u.thread = s.thread)
    (status : u.status = s.status) : Threads u := by
  constructor
  · rw [thread, status]
    exact threads.running
  · rw [thread]
    exact threads.unique

/-! ## Counting -/

section Count

variable [Fintype L] {lk : L}

theorem Counts.here (counts : Counts s) (c : C) (noff : ∀ d, d ≠ c → u.noff d = s.noff d)
    (explicit : ∀ d, d ≠ c → u.explicit d = s.explicit d) (sie : ∀ d, d ≠ c → u.sie d = s.sie d)
    (locks : ∀ d, d ≠ c → held u d = held s d)
    (count : u.noff c = (held u c).card + u.explicit c) (off : 0 < u.noff c → u.sie c = false) :
    Counts u := by
  constructor
  · intro d
    by_cases same : d = c
    · subst same
      exact count
    · rw [noff d same, locks d same, explicit d same]
      exact counts.noff d
  · intro d positive
    by_cases same : d = c
    · subst same
      exact off positive
    · rw [noff d same] at positive
      rw [sie d same]
      exact counts.sie d positive

theorem Counts.same (counts : Counts s) (noff : u.noff = s.noff)
    (explicit : u.explicit = s.explicit)
    (sie : u.sie = s.sie) (lock : u.lock = s.lock) : Counts u := by
  have locks : ∀ c, held u c = held s c := fun c => by unfold held; rw [lock]
  constructor
  · intro c
    rw [noff, explicit, locks]
    exact counts.noff c
  · rw [noff, sie]
    exact counts.sie

/-- A lock changes hands between a CPU and nobody: the other CPUs hold what they held. -/
theorem held_other {c : C} {holder : Option C} (other : d ≠ c)
    (before : s.lock lk = none ∨ s.lock lk = some c) (after : holder = none ∨ holder = some c)
    (lock : u.lock = Function.update s.lock lk holder) : held u d = held s d := by
  have apart : ∀ {x : Option C}, x = none ∨ x = some c → decide (x = some d) = false := by
    rintro x (rfl | rfl)
    · rfl
    · exact decide_eq_false fun same => other (Option.some.inj same).symm
  unfold held
  rw [lock]
  exact inside_stay (by rw [apart before, apart after])

theorem card_held_take (free : s.lock lk = none)
    (lock : u.lock = Function.update s.lock lk (some c)) :
    (held u c).card = (held s c).card + 1 := by
  unfold held
  rw [lock]
  exact card_inside_enter (by rw [free]; rfl) (decide_eq_true rfl)

theorem card_held_drop (mine : s.lock lk = some c)
    (lock : u.lock = Function.update s.lock lk none) : (held u c).card + 1 = (held s c).card := by
  unfold held
  rw [lock]
  exact card_inside_leave (decide_eq_true mine) rfl

end Count

end Xv6.Spinlock
