import Xv6.Spinlock.Invariants

/-!
# The invariants are kept by every balanced step

One lemma for each piece of code. `push_off` puts what it has seen of interrupts into
`intena` when it enters a section, `sched` takes it from there to the stack of the thread,
and the end of `sched` gives it to the CPU on which the thread goes on.
-/

namespace Xv6.Spinlock

open Function (update update_of_ne update_self)

variable {C T L : Type} [DecidableEq C] [DecidableEq T] [DecidableEq L] {plock : T → L}
  {s u : State C T L} {c : C}

/-- The panics that balanced calls cannot reach. -/
def Panic.nesting : Panic → Bool
  | .popOffInterruptible => true
  | .popOff => true
  | .schedInterruptible => true
  | _ => false

structure Inv [Fintype L] (s : State C T L) : Prop where
  counts : Counts s
  pushes : Pushes s
  threads : Threads s
  sections : Sections s
  calm : ∀ panic, s.panic = some panic → panic.nesting = false

section Steps

variable [Fintype L] {t : T} {lk : L} {value : Option Bool}

theorem Inv.fail (inv : Inv s) {panic : Panic} (harmless : panic.nesting = false) :
    Inv (s.fail panic) where
  counts := inv.counts.same rfl rfl rfl rfl
  pushes := inv.pushes.same rfl rfl rfl rfl
  threads := inv.threads.same rfl rfl
  sections := inv.sections.same rfl rfl rfl rfl rfl
  calm other failed := by
    cases failed
    exact harmless

theorem runs_of_ready (ready : s.ready c = true) : s.runs c = true :=
  (Bool.and_eq_true_iff.mp ready).1

theorem settled_of_ready (ready : s.ready c = true) : s.pushing (s.who c) = none :=
  Option.isNone_iff_eq_none.mp (Bool.and_eq_true_iff.mp ready).2

theorem on_of_runs (runs : s.runs c = true) (running : s.thread c = some t) : s.status t = .on := by
  unfold State.runs at runs
  rw [running] at runs
  exact of_decide_eq_true runs

theorem setEntry_other (other : s.thread c ≠ some t) : s.setEntry c value t = s.entry t :=
  if_neg other

theorem setEntry_self (running : s.thread c = some t) : s.setEntry c value t = value :=
  if_pos running

section

variable (inv : Inv s) {event : Event C T L} {new : Status}
include inv

theorem Inv.pushRead : Inv (s.pushRead c) where
  counts := inv.counts.same rfl rfl rfl rfl
  pushes := by
    refine inv.pushes.here inv.threads c rfl (fun _ _ => rfl)
      (fun w other => update_of_ne other ..) (fun _ _ => rfl) (fun old pushed => ?_)
      (fun old mem => inv.pushes.traps _ old mem)
    simp only [State.pushRead, update_self, Option.some.injEq] at pushed
    exact pushed
  threads := inv.threads.same rfl rfl
  sections := inv.sections.same rfl rfl rfl rfl rfl
  calm := inv.calm

/-- `push_off` remembers in `intena` what interrupts were when the section was entered. -/
theorem Inv.pushOff {old : Bool} (runs : s.runs c = true)
    (pushing : s.pushing (s.who c) = some old) : Inv (s.pushOff c old) where
  counts := by
    refine inv.counts.here c (fun d other => update_of_ne other ..)
      (fun d other => update_of_ne other ..) (fun d other => update_of_ne other ..)
      (fun _ _ => rfl) ?_ (fun _ => update_self ..)
    have count := inv.counts.noff c
    simp only [State.pushOff, update_self, held] at count ⊢
    omega
  pushes := by
    refine inv.pushes.here inv.threads c rfl (fun d other => update_of_ne other ..)
      (fun w other => update_of_ne other ..) (fun _ _ => rfl) (fun other pushed => ?_)
      (fun other mem => inv.pushes.traps _ other mem)
    simp [State.pushOff] at pushed
  threads := inv.threads.same rfl rfl
  sections := by
    have seen : s.sie c = old := inv.pushes.pushing c old pushing
    refine inv.sections.here inv.threads c runs rfl rfl (fun d other => ?_)
      (fun d other => update_of_ne other ..) (fun t other => ?_) (fun t b running entered => ?_)
    · simp only [State.pushOff]
      split
      · exact update_of_ne other ..
      · rfl
    · simp only [State.pushOff]
      split
      · exact setEntry_other other
      · rfl
    · simp only [State.pushOff, update_self] at entered ⊢
      refine ⟨?_, Nat.succ_pos _⟩
      split at entered
      next outermost =>
        rw [setEntry_self running] at entered
        rw [if_pos outermost, update_self, ← seen]
        exact Option.some.inj entered
      next nested =>
        rw [if_neg nested]
        exact (inv.sections.on c t b running (on_of_runs runs running) entered).1
  calm := inv.calm

omit inv in
/-- A call of `pop_off` that uses up a `push_off` passes both checks. -/
theorem Counts.popOff_checks (counts : Counts s) (outstanding : 0 < s.explicit c) :
    s.sie c = false ∧ 1 ≤ s.noff c := by
  have count := counts.noff c
  have positive : 0 < s.noff c := by omega
  exact ⟨counts.sie c positive, positive⟩

omit inv in
theorem popOff_eq (counts : Counts s) (outstanding : 0 < s.explicit c) :
    s.popOff c = { s with
      entry := if s.noff c - 1 = 0 then s.setEntry c none else s.entry
      noff := update s.noff c (s.noff c - 1)
      explicit := update s.explicit c (s.explicit c - 1)
      sie := if s.noff c - 1 = 0 ∧ s.intena c = true then update s.sie c true else s.sie } := by
  obtain ⟨off, positive⟩ := counts.popOff_checks outstanding
  unfold State.popOff
  rw [off, if_neg Bool.false_ne_true, if_neg (by omega)]

theorem Inv.popOff (ready : s.ready c = true) (outstanding : 0 < s.explicit c) :
    Inv (s.popOff c) := by
  rw [popOff_eq inv.counts outstanding]
  have sie : ∀ d, d ≠ c → (if s.noff c - 1 = 0 ∧ s.intena c = true
      then update s.sie c true else s.sie) d = s.sie d := by
    intro d other
    split
    · exact update_of_ne other ..
    · rfl
  have count := inv.counts.noff c
  constructor
  · refine inv.counts.here c (fun d other => update_of_ne other ..)
      (fun d other => update_of_ne other ..) sie (fun _ _ => rfl) ?_ (fun positive => ?_)
    · simp only [update_self, held] at count ⊢
      omega
    · simp only [update_self] at positive ⊢
      rw [if_neg (by omega)]
      exact inv.counts.sie c (by omega)
  · exact inv.pushes.apart inv.threads c rfl sie rfl rfl (settled_of_ready ready)
  · exact inv.threads.same rfl rfl
  · refine inv.sections.here inv.threads c (runs_of_ready ready) rfl rfl (fun _ _ => rfl)
      (fun d other => update_of_ne other ..) (fun t other => ?_) (fun t b running entered => ?_)
    · simp only
      split
      · exact setEntry_other other
      · rfl
    · simp only [update_self] at entered ⊢
      split at entered
      · rw [setEntry_self running] at entered
        cases entered
      next nested =>
        have on := on_of_runs (runs_of_ready ready) running
        exact ⟨(inv.sections.on c t b running on entered).1, by omega⟩
  · exact inv.calm

theorem Inv.take (outstanding : 0 < s.explicit c) (taken : s.take c lk = some u) : Inv u := by
  unfold State.take at taken
  split at taken
  · cases taken
    exact inv.fail rfl
  · split at taken
    case isFalse => cases taken
    case isTrue free =>
      cases taken
      refine ⟨?_, inv.pushes.same rfl rfl rfl rfl, inv.threads.same rfl rfl,
        inv.sections.same rfl rfl rfl rfl rfl, inv.calm⟩
      refine inv.counts.here c (fun _ _ => rfl) (fun d other => update_of_ne other ..)
        (fun _ _ => rfl) (fun d other => held_other other (.inl free) (.inr rfl) rfl) ?_
        (inv.counts.sie c)
      have count := inv.counts.noff c
      rw [card_held_take free rfl]
      simp only [update_self]
      omega

theorem Inv.drop : Inv (s.drop c lk) := by
  unfold State.drop
  split
  · exact inv.fail rfl
  next mine =>
    rw [not_not] at mine
    refine ⟨?_, inv.pushes.same rfl rfl rfl rfl, inv.threads.same rfl rfl,
      inv.sections.same rfl rfl rfl rfl rfl, inv.calm⟩
    refine inv.counts.here c (fun _ _ => rfl) (fun d other => update_of_ne other ..)
      (fun _ _ => rfl) (fun d other => held_other other (.inr mine) (.inl rfl) rfl) ?_
      (inv.counts.sie c)
    have count := inv.counts.noff c
    have fewer := card_held_drop (s := s)
      (u := { s with
        lock := update s.lock lk none
        explicit := update s.explicit c (s.explicit c + 1) }) mine rfl
    simp only [update_self]
    omega

omit inv in
theorem Counts.intrSet (counts : Counts s) (outside : s.noff c = 0)
    (noff : u.noff = s.noff) (explicit : u.explicit = s.explicit) (lock : u.lock = s.lock)
    (sie : ∀ d, d ≠ c → u.sie d = s.sie d) : Counts u := by
  have locks : ∀ d, held u d = held s d := fun d => by unfold held; rw [lock]
  refine counts.here c (fun _ _ => by rw [noff]) (fun _ _ => by rw [explicit]) sie
    (fun d _ => locks d) ?_ (fun positive => ?_)
  · rw [noff, explicit, locks]
    exact counts.noff c
  · rw [noff, outside] at positive
    exact absurd positive (Nat.lt_irrefl 0)

theorem Inv.intrSet (ready : s.ready c = true) (outside : s.noff c = 0) (on : Bool) :
    Inv (s.intrSet c on) where
  counts := inv.counts.intrSet outside rfl rfl rfl fun _ other => update_of_ne other ..
  pushes := inv.pushes.apart inv.threads c rfl (fun _ other => update_of_ne other ..) rfl rfl
    (settled_of_ready ready)
  threads := inv.threads.same rfl rfl
  sections := inv.sections.same rfl rfl rfl rfl rfl
  calm := inv.calm

/-- What a trap interrupts has seen interrupts on, if it has looked. -/
theorem Inv.trap (enabled : s.sie c = true) : Inv (s.trap c) where
  counts := by
    refine inv.counts.here c (fun _ _ => rfl) (fun _ _ => rfl)
      (fun d other => update_of_ne other ..) (fun _ _ => rfl) (inv.counts.noff c)
      (fun _ => update_self ..)
  pushes := by
    refine inv.pushes.here inv.threads c rfl (fun d other => update_of_ne other ..)
      (fun w other => update_of_ne other ..) (fun w other => update_of_ne other ..)
      (fun old pushed => ?_) (fun old mem => ?_)
    · simp [State.trap] at pushed
    · simp only [State.trap, update_self, List.mem_cons] at mem
      rcases mem with seen | below
      · rw [← inv.pushes.pushing c old seen.symm]
        exact enabled
      · exact inv.pushes.traps _ old below
  threads := inv.threads.same rfl rfl
  sections := inv.sections.same rfl rfl rfl rfl rfl
  calm := inv.calm

theorem Inv.sret (outside : s.noff c = 0) (returned : s.sret c = some u) : Inv u := by
  unfold State.sret at returned
  split at returned
  · cases returned
  next pushing traps stack =>
    cases returned
    refine ⟨?_, ?_, inv.threads.same rfl rfl, inv.sections.same rfl rfl rfl rfl rfl, inv.calm⟩
    · exact inv.counts.intrSet outside rfl rfl rfl fun d other => update_of_ne other ..
    · refine inv.pushes.here inv.threads c rfl (fun d other => update_of_ne other ..)
        (fun w other => update_of_ne other ..) (fun w other => update_of_ne other ..)
        (fun old pushed => ?_) (fun old mem => ?_)
      · simp only [update_self] at pushed ⊢
        exact (inv.pushes.traps (s.who c) old
          (by rw [stack, pushed]; exact List.mem_cons_self)).symm
      · simp only [update_self] at mem
        exact inv.pushes.traps (s.who c) old (by rw [stack]; exact List.mem_cons_of_mem _ mem)

omit inv in
/-- A thread that another CPU runs is not the one that a scheduler has just left or entered. -/
theorem Threads.not_running (threads : Threads s) (out : (s.status t).running = false) (d : C) :
    s.thread d ≠ some t := by
  intro running
  rw [threads.running d t running] at out
  cases out

section

variable (ready : s.ready c = true) (running : s.thread c = some t)
include ready running

theorem Inv.leaves (locked : s.noff c = 1) :
    Inv { s with
      status := update s.status t (.off (s.intena c))
      thread := update s.thread c none } := by
  have on := on_of_runs (runs_of_ready ready) running
  have others : ∀ {d : C} {r : T}, update s.thread c none d = some r →
      r ≠ t ∧ s.thread d = some r := by
    intro d r there
    have other : d ≠ c := by
      rintro rfl
      rw [update_self] at there
      cases there
    rw [update_of_ne other] at there
    refine ⟨?_, there⟩
    rintro rfl
    exact other (inv.threads.unique d c r there running)
  have gone : ∀ d, update s.thread c none d ≠ some t := fun d there => (others there).1 rfl
  have status : ∀ r, r ≠ t → update s.status t (.off (s.intena c)) r = s.status r :=
    fun r other => update_of_ne other ..
  constructor
  · exact inv.counts.same rfl rfl rfl rfl
  · refine inv.pushes.replace c (fun d other => update_of_ne other ..) rfl rfl rfl
      (settled_of_ready ready) ?_
    rw [who_of_scheduler (c := c) (update_self ..)]
    refine inv.pushes.idle _ fun d same => ?_
    cases here : s.thread d with
    | none =>
      rw [who_of_scheduler here] at same
      cases same
      rw [running] at here
      cases here
    | some r =>
      rw [who_of_thread here] at same
      cases same
  · exact inv.threads.move t status (fun d r _ there => (others there).2)
      (fun d there => absurd there (gone d)) (fun d _ there => absurd there (gone d))
  · refine inv.sections.move t rfl status (fun _ _ => rfl)
      (fun d r _ there => ⟨(others there).2, rfl⟩)
      (fun d _ there => absurd there (gone d)) (fun b saved isOff entered => ?_)
      (fun b saved resumes => ?_) (fun d _ there => absurd there (gone d)) (fun isFresh => ?_)
    · simp only [update_self, Status.off.injEq] at isOff
      rw [← isOff]
      exact (inv.sections.on c t b running on entered).1
    · simp at resumes
    · simp at isFresh
  · exact inv.calm

theorem Inv.sched : Inv (s.sched plock c t) := by
  unfold State.sched
  split
  · exact inv.fail rfl
  · split
    · exact inv.fail rfl
    next locked =>
      rw [not_not] at locked
      rw [if_neg (by rw [inv.counts.sie c (by omega)]; exact Bool.false_ne_true)]
      exact inv.leaves ready running locked

end

omit inv in
theorem Status.switched_cases {status : Status} (switched : status.switched = some new) :
    status = .fresh ∧ new = .on ∨ ∃ saved, status = .off saved ∧ new = .resuming saved := by
  cases status with
  | fresh => exact .inl ⟨rfl, (Option.some.inj switched).symm⟩
  | off saved => exact .inr ⟨saved, rfl, (Option.some.inj switched).symm⟩
  | resuming saved => cases switched
  | on => cases switched

theorem Inv.enters (ready : s.ready c = true) (idle : s.thread c = none)
    (locked : s.noff c = 1) (switched : (s.status t).switched = some new) :
    Inv { s with
      status := update s.status t new
      thread := update s.thread c (some t) } := by
  have out : (s.status t).running = false := by
    obtain ⟨before, -⟩ | ⟨saved, before, -⟩ :=
      Status.switched_cases switched <;> rw [before] <;> rfl
  have runs : new.running = true := by
    obtain ⟨-, after⟩ | ⟨saved, -, after⟩ := Status.switched_cases switched <;> rw [after] <;> rfl
  have absent := inv.threads.not_running out
  have status : ∀ r, r ≠ t → update s.status t new r = s.status r :=
    fun r other => update_of_ne other ..
  have here : ∀ d, update s.thread c (some t) d = some t → d = c := by
    intro d there
    by_contra other
    rw [update_of_ne other] at there
    exact absent d there
  have thread : ∀ d r, r ≠ t → update s.thread c (some t) d = some r → s.thread d = some r := by
    intro d r different there
    have other : d ≠ c := by
      rintro rfl
      rw [update_self] at there
      exact different (Option.some.inj there).symm
    rwa [update_of_ne other] at there
  have self : update s.status t new t = new := update_self ..
  constructor
  · exact inv.counts.same rfl rfl rfl rfl
  · refine inv.pushes.replace c (fun d other => update_of_ne other ..) rfl rfl rfl
      (settled_of_ready ready) ?_
    rw [who_of_thread (c := c) (t := t) (update_self ..)]
    refine inv.pushes.idle _ fun d same => ?_
    cases there : s.thread d with
    | none =>
      rw [who_of_scheduler there] at same
      cases same
    | some r =>
      rw [who_of_thread there] at same
      cases same
      exact absent d there
  · refine inv.threads.move t status thread (fun d _ => ?_) (fun d e first second => ?_)
    · simp only [self]
      exact runs
    · rw [here d first, here e second]
  · refine inv.sections.move t rfl status (fun _ _ => rfl)
      (fun d r other there => ⟨thread d r other there, rfl⟩)
      (fun d b _ isOn entered => ?_) (fun b saved isOff _ => ?_) (fun b saved resumes entered => ?_)
      (fun d saved there _ => ?_) (fun isFresh => ?_)
    · simp only [self] at isOn
      obtain ⟨before, -⟩ | ⟨saved, -, after⟩ := Status.switched_cases switched
      · rw [inv.sections.fresh t before] at entered
        cases entered
      · rw [after] at isOn
        cases isOn
    · rw [self.symm.trans isOff] at runs
      cases runs
    · simp only [self] at resumes
      obtain ⟨-, after⟩ | ⟨_, before, after⟩ := Status.switched_cases switched
      · rw [after] at resumes
        cases resumes
      · rw [after] at resumes
        cases resumes
        exact inv.sections.off t b _ before entered
    · rw [here d there, locked]
      exact Nat.zero_lt_one
    · rw [self.symm.trans isFresh] at runs
      cases runs
  · exact inv.calm

theorem Inv.switch (ready : s.ready c = true) (locked : s.noff c = 1)
    (switched : s.switch plock c t = some u) : Inv u := by
  unfold State.switch at switched
  split at switched
  case isFalse => cases switched
  case isTrue guard =>
    obtain ⟨new, found, rfl⟩ := Option.map_eq_some_iff.mp switched
    exact inv.enters ready guard.1 locked found

/-- The end of `sched` gives the CPU the `intena` of the thread. -/
theorem Inv.resume (running : s.thread c = some t) (resumed : s.resume c t = some u) : Inv u := by
  unfold State.resume at resumed
  split at resumed
  case h_2 => cases resumed
  case h_1 intena saved =>
    cases resumed
    have only : ∀ d, s.thread d = some t → d = c := fun d there =>
      inv.threads.unique d c t there running
    have status : ∀ r, r ≠ t → update s.status t .on r = s.status r :=
      fun r other => update_of_ne other ..
    constructor
    · exact inv.counts.same rfl rfl rfl rfl
    · exact inv.pushes.same rfl rfl rfl rfl
    · refine inv.threads.move t status (fun _ _ _ => id) (fun d _ => ?_)
        (fun d e first second => ?_)
      · simp only [update_self]
        rfl
      · rw [only d first, only e second]
    · refine inv.sections.move t rfl status (fun _ _ => rfl) (fun d r other there => ⟨there, ?_⟩)
        (fun d b there _ entered => ?_) (fun b saved isOff => ?_) (fun b saved resumes => ?_)
        (fun d saved _ resumes => ?_) (fun isFresh => ?_)
      · refine update_of_ne ?_ ..
        rintro rfl
        exact other (Option.some.inj (there.symm.trans running))
      · obtain rfl := only d there
        simp only [update_self]
        exact ⟨inv.sections.resuming t b intena saved entered,
          inv.sections.holds d t intena there saved⟩
      · simp at isOff
      · simp at resumes
      · simp at resumes
      · simp at isFresh
    · exact inv.calm

theorem Inv.recycle (recycled : s.recycle plock c t = some u) : Inv u := by
  unfold State.recycle at recycled
  split at recycled
  case h_2 => cases recycled
  case h_1 saved isOff =>
    split at recycled <;> cases recycled
    have absent := inv.threads.not_running (t := t) (by rw [isOff]; rfl)
    constructor
    · exact inv.counts.same rfl rfl rfl rfl
    · exact inv.pushes.same rfl rfl rfl rfl
    · exact inv.threads.move t (fun r other => update_of_ne other ..) (fun _ _ _ => id)
        (fun d there => absurd there (absent d)) (fun d _ there => absurd there (absent d))
    · refine inv.sections.move t rfl (fun r other => update_of_ne other ..)
        (fun r other => update_of_ne other ..) (fun d r _ there => ⟨there, rfl⟩)
        (fun d _ there => absurd there (absent d)) (fun b kept off => ?_) (fun b kept resumes => ?_)
        (fun d _ there => absurd there (absent d)) (fun _ => update_self ..)
      · simp at off
      · simp at resumes
    · exact inv.calm

theorem Inv.act (balanced : Balanced s event)
    (ready : s.ready event.hart = true) (acted : Spinlock.act plock s event = some u) : Inv u := by
  cases event with
  | pushRead c =>
    cases acted
    exact inv.pushRead
  | take c lk => exact inv.take balanced acted
  | drop c lk =>
    cases acted
    exact inv.drop
  | popOff c =>
    cases acted
    exact inv.popOff ready balanced
  | intrSet c on =>
    cases acted
    exact inv.intrSet ready balanced on
  | sret c => exact inv.sret balanced acted
  | sched c =>
    obtain ⟨t, running, rfl⟩ := Option.map_eq_some_iff.mp acted
    exact inv.sched ready running
  | switch c t => exact inv.switch ready balanced acted
  | recycle c t => exact inv.recycle acted
  | pushOff c => cases acted
  | trap c => cases acted
  | resume c => cases acted

omit inv in
/-- A step is the second half of a `push_off`, a trap, the end of `sched`, or what a ready
CPU does. -/
theorem step_cases (step : Step plock s event u) :
    (∃ c old, event = .pushOff c ∧ s.runs c = true ∧ s.pushing (s.who c) = some old ∧
      u = s.pushOff c old) ∨
    (∃ c, event = .trap c ∧ s.sie c = true ∧ u = s.trap c) ∨
    (∃ c t, event = .resume c ∧ s.thread c = some t ∧ s.resume c t = some u) ∨
    (s.ready event.hart = true ∧ act plock s event = some u) := by
  unfold Step next at step
  split at step
  case isTrue => cases step
  case isFalse =>
    split at step
    case h_1 c =>
      split at step
      case isFalse => cases step
      case isTrue runs =>
        obtain ⟨old, pushing, rfl⟩ := Option.map_eq_some_iff.mp step
        exact .inl ⟨c, old, rfl, runs, pushing, rfl⟩
    case h_2 c =>
      split at step
      case isFalse => cases step
      case isTrue enabled =>
        cases step
        exact .inr (.inl ⟨c, rfl, enabled, rfl⟩)
    case h_3 c =>
      obtain ⟨t, running, resumed⟩ := Option.bind_eq_some_iff.mp step
      exact .inr (.inr (.inl ⟨c, t, rfl, running, resumed⟩))
    case h_4 =>
      split at step
      case isFalse => cases step
      case isTrue ready => exact .inr (.inr (.inr ⟨ready, step⟩))

theorem Inv.step (balanced : Balanced s event) (step : Step plock s event u) : Inv u := by
  obtain ⟨c, old, rfl, runs, pushing, rfl⟩ | ⟨c, rfl, enabled, rfl⟩ |
    ⟨c, t, rfl, running, resumed⟩ |
    ⟨ready, acted⟩ := step_cases step
  · exact inv.pushOff runs pushing
  · exact inv.trap enabled
  · exact inv.resume running resumed
  · exact inv.act balanced ready acted

end

theorem Inv.initial (initially : Initial s) : Inv s where
  counts := by
    constructor
    · intro c
      have none : held s c = ∅ := by
        ext lk
        simp [held, initially.lock lk]
      rw [initially.noff, initially.explicit, none, Finset.card_empty]
    · intro c positive
      rw [initially.noff] at positive
      exact absurd positive (Nat.lt_irrefl 0)
  pushes := by
    constructor
    · intro c old pushed
      rw [initially.pushing] at pushed
      cases pushed
    · intro w old mem
      rw [initially.traps] at mem
      cases mem
    · exact fun w _ => initially.pushing w
  threads := by
    constructor
    · intro c t running
      rw [initially.thread] at running
      cases running
    · intro c d t running
      rw [initially.thread] at running
      cases running
  sections := by
    have none : ∀ {t : T} {b : Bool}, s.entry t ≠ some b := by
      intro t b entered
      rw [initially.entry] at entered
      cases entered
    refine ⟨fun _ _ _ _ _ entered => absurd entered none,
      fun _ _ _ _ entered => absurd entered none,
      fun _ _ _ _ entered => absurd entered none, fun c t _ running => ?_,
      fun t _ => initially.entry t⟩
    rw [initially.thread] at running
    cases running
  calm panic failed := by
    rw [initially.panic] at failed
    cases failed

end Steps

end Xv6.Spinlock
