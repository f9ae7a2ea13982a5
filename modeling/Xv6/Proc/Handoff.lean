import Xv6.Proc.Sched

/-!
# A process runs on one CPU

Who holds the lock of a process, whose `c->proc` it is and whether it is `RUNNING` are
all determined by where the CPUs are. Between the test of the scheduler and the release
by the process the lock is held by one CPU, although two threads use it, and the same
from the `acquire` of `sched`'s caller to the `release` of the scheduler.
-/

namespace Xv6.Sched

open Function (update update_apply update_of_ne update_self)

open Proc (ProcState)

variable {n m : Nat} {forkret : UInt64} {stack : Fin n → UInt64} {s t : State n m} {c : Fin m}
  {p q : Fin n} {new : Pc n} {d : Fin m} {k : Nat}

namespace Pc

/-- The process whose lock the CPU holds. -/
def holds : Pc n → Option (Fin n)
  | .idle | .runs _ => none
  | .look p | .chosen p | .switchIn p _ | .resumed p | .owns p _ | .leaves p | .switchOut p _
  | .back p | .cleared p | .visit _ p => some p

/-- `c->proc` -/
def proc : Pc n → Option (Fin n)
  | .switchIn p _ | .resumed p | .runs p | .owns p _ | .leaves p | .switchOut p _ | .back p => some
      p
  | .visit p _ => p
  | _ => none

/-- The process that the CPU has made `RUNNING`. -/
def active : Pc n → Option (Fin n)
  | .chosen p | .switchIn p _ | .resumed p | .runs p | .owns p _ => some p
  | .visit p _ => p
  | _ => none

/-- The process that leaves the CPU and is no longer `RUNNING`. -/
def leaving : Pc n → Option (Fin n)
  | .leaves p | .switchOut p _ | .back p => some p
  | _ => none

end Pc

/-- How the shared variables follow from where the CPUs are. -/
structure Handoff (s : State n m) : Prop where
  lock : ∀ c q, s.lock q = some c ↔ (s.pc c).holds = some q
  proc : ∀ c, s.proc c = (s.pc c).proc
  active : ∀ c p, (s.pc c).active = some p → s.state p = .running
  leaving : ∀ c p, (s.pc c).leaving = some p → s.state p ≠ .running
  runner : ∀ p, s.state p = .running → ∃ c, (s.pc c).active = some p
  unique : ∀ c d p, (s.pc c).active = some p → (s.pc d).active = some p → c = d

section

variable (handoff : Handoff s)
include handoff

theorem Handoff.holder
    (first : (s.pc c).holds = some q) (second : (s.pc d).holds = some q) : c = d := by
  have same := ((handoff.lock c q).mpr first).symm.trans ((handoff.lock d q).mpr second)
  exact Option.some.inj same

omit handoff in
theorem pc_goto (s : State n m) (c d : Fin m) (pc : Pc n) :
    (s.goto c pc).pc d = if d = c then pc else s.pc d :=
  update_apply ..

theorem Handoff.move (lock : t.lock = s.lock)
    (proc : t.proc = s.proc) (state : t.state = s.state) (pc : t.pc = update s.pc c new)
    (holds : new.holds = (s.pc c).holds) (runs : new.proc = (s.pc c).proc)
    (active : new.active = (s.pc c).active) (leaving : new.leaving = (s.pc c).leaving) :
    Handoff t := by
  have same {α : Type} (f : Pc n → α) (kept : f new = f (s.pc c)) (d : Fin m) :
      f (t.pc d) = f (s.pc d) := by
    rw [pc]
    by_cases here : d = c
    · rw [here, update_self, kept]
    · rw [update_of_ne here]
  constructor
  · simpa only [lock, same _ holds] using handoff.lock
  · simpa only [proc, same _ runs] using handoff.proc
  · simpa only [state, same _ active] using handoff.active
  · simpa only [state, same _ leaving] using handoff.leaving
  · simpa only [state, same _ active] using handoff.runner
  · simpa only [same _ active] using handoff.unique

/-- A CPU takes or releases a lock, and nothing else changes. -/
theorem Handoff.relock (proc : t.proc = s.proc)
    (state : t.state = s.state) (pc : t.pc = update s.pc c new)
    (lock : ∀ d q, t.lock q = some d ↔ (t.pc d).holds = some q)
    (runs : new.proc = (s.pc c).proc) (active : new.active = (s.pc c).active)
    (leaving : ∀ p, new.leaving = some p → (s.pc c).leaving = some p) : Handoff t := by
  have places : ∀ d, t.pc d = if d = c then new else s.pc d := by
    rw [pc]
    exact fun d => update_apply ..
  have actives : ∀ d, (t.pc d).active = (s.pc d).active := by
    intro d
    rw [places]
    split
    next here => rw [active, here]
    · rfl
  constructor
  case lock => exact lock
  case proc =>
    intro d
    rw [proc, places]
    split
    next here => rw [runs, here, handoff.proc]
    · exact handoff.proc d
  case active => simpa only [state, actives] using handoff.active
  case leaving =>
    intro d p gone
    rw [places] at gone
    rw [state]
    split at gone
    · exact handoff.leaving c p (leaving p gone)
    · exact handoff.leaving d p gone
  case runner => simpa only [state, actives] using handoff.runner
  case unique => simpa only [actives] using handoff.unique

theorem Handoff.acquire (rest : Fin m → List (Fin n))
    (free : s.lock q = none) (before : (s.pc c).holds = none) (holds : new.holds = some q)
    (runs : new.proc = (s.pc c).proc) (active : new.active = (s.pc c).active)
    (leaving : new.leaving = none) :
    Handoff ({ s with rest := rest, lock := update s.lock q (some c) }.goto c new) := by
  refine handoff.relock rfl rfl rfl (fun d r => ?_) runs active (by simp [leaving])
  have old := handoff.lock d r
  rw [pc_goto]
  change update s.lock q (some c) r = some d ↔ _
  rw [update_apply]
  grind

theorem Handoff.release (before : (s.pc c).holds = some q) (holds : new.holds = none)
    (runs : new.proc = (s.pc c).proc) (active : new.active = (s.pc c).active)
    (leaving : new.leaving = none) : Handoff (s.release c q new) := by
  refine handoff.relock rfl rfl rfl (fun d r => ?_) runs active (by simp [leaving])
  have old := handoff.lock d r
  have held := (handoff.lock c q).mpr before
  rw [State.release, pc_goto]
  change update s.lock q none r = some d ↔ _
  rw [update_apply]
  grind

/-- A change of a process that is not `RUNNING`, before and after. -/
theorem Handoff.setState {state : ProcState}
    {context saved : Fin n → Context} (before : s.state q ≠ .running) (after : state ≠ .running) :
    Handoff { s with
      state := update s.state q state, context := context, saved := saved } := by
  have same : ∀ p, update s.state q state p = .running ↔ s.state p = .running := by
    intro p
    by_cases here : p = q
    · rw [here, update_self]
      exact ⟨fun wrong => absurd wrong after, fun wrong => absurd wrong before⟩
    · rw [update_of_ne here]
  exact { handoff with active := fun d p on => (same p).mpr (handoff.active d p on), leaving := fun
      d p gone running => handoff.leaving d p gone ((same p).mp running), runner := fun p running
          => handoff.runner p ((same p).mp running) }

omit handoff in
theorem map_update {α : Type} {pc : Fin m → Pc n} (f : Pc n → α)
    (placed : pc = update s.pc c new) (d : Fin m) :
    f (pc d) = if d = c then f new else f (s.pc d) := by
  rw [placed, update_apply, apply_ite f]

/-- The holder of `p->lock` sets `p->state`. It is the holder, so nobody else has just left the
process. -/
theorem Handoff.restate {status : ProcState} (held : (s.pc c).holds = some p)
    (holds : new.holds = some p) (runs : new.proc = (s.pc c).proc)
    (active : new.active = if status = .running then some p else none)
    (leaving : ∀ q, new.leaving = some q → q = p ∧ status ≠ .running)
    (was : ∀ q, (s.pc c).active = some q → q = p) (alone : ∀ d, (s.pc d).active = some p → d = c) :
    Handoff ((s.setState p status).goto c new) := by
  generalize after : (s.setState p status).goto c new = t
  have placed : t.pc = update s.pc c new := by rw [← after]; rfl
  have lock : t.lock = s.lock := by rw [← after]; rfl
  have proc : t.proc = s.proc := by rw [← after]; rfl
  have state : ∀ q, t.state q = if q = p then status else s.state q := by
    rw [← after]
    exact fun q => update_apply ..
  have holdings := map_update Pc.holds placed
  have procs := map_update Pc.proc placed
  have actives := map_update Pc.active placed
  have leavings := map_update Pc.leaving placed
  have left : ∀ d, (s.pc d).leaving = some p → d = c := by
    intro d gone
    refine handoff.holder (q := p) ?_ held
    revert gone
    cases s.pc d <;> simp [Pc.leaving, Pc.holds]
  clear after placed
  obtain ⟨f1, f2, f3, f4, f5, f6⟩ := handoff
  constructor
  case lock =>
    intro d q
    rw [lock, f1, holdings]
    grind
  case runner =>
    intro q running
    rw [state] at running
    split at running
    · exact ⟨c, by rw [actives]; grind⟩
    · obtain ⟨d, on⟩ := f5 q running
      exact ⟨d, by rw [actives]; grind⟩
  all_goals grind

theorem Handoff.choose (here : s.pc c = .look p)
    (ready : s.state p = .runnable) : Handoff ((s.setState p .running).goto c (.chosen p)) := by
  refine handoff.restate (by rw [here]; rfl) rfl (by rw [here]; rfl) rfl nofun
    (by rw [here]; nofun) fun d on => ?_
  have running := handoff.active d p on
  rw [ready] at running
  cases running

theorem Handoff.mark {how : Leave} (here : s.pc c = .owns p how) :
    Handoff ((s.setState p how.state).goto c (.leaves p)) := by
  have stops : how.state ≠ .running := by cases how <;> nofun
  refine handoff.restate (by rw [here]; rfl) rfl (by rw [here]; rfl) (if_neg stops).symm ?_ ?_
    fun d on => handoff.unique d c p on (by rw [here]; rfl)
  · rintro q ⟨⟩
    exact ⟨rfl, stops⟩
  · rw [here]
    rintro q ⟨⟩
    rfl

theorem Handoff.setProc {p : Option (Fin n)}
    (holds : new.holds = (s.pc c).holds) (runs : new.proc = p)
    (active : new.active = (s.pc c).active)
    (leaving : ∀ p, new.leaving = some p → (s.pc c).leaving = some p) :
    Handoff ((s.setProc c p).goto c new) := by
  generalize after : (s.setProc c p).goto c new = t
  have placed : t.pc = update s.pc c new := by rw [← after]; rfl
  have lock : t.lock = s.lock := by rw [← after]; rfl
  have state : t.state = s.state := by rw [← after]; rfl
  have proc : ∀ d, t.proc d = if d = c then p else s.proc d := by
    rw [← after]
    exact fun d => update_apply ..
  have holdings := map_update Pc.holds placed
  have procs := map_update Pc.proc placed
  have actives := map_update Pc.active placed
  have leavings := map_update Pc.leaving placed
  clear after placed
  obtain ⟨f1, f2, f3, f4, f5, f6⟩ := handoff
  constructor
  case lock =>
    intro d q
    rw [lock, f1, holdings]
    grind
  case runner =>
    intro q running
    rw [state] at running
    obtain ⟨d, on⟩ := f5 q running
    exact ⟨d, by rw [actives]; grind⟩
  all_goals grind

theorem Handoff.step (effect : Effect forkret stack s t) : Handoff t := by
  cases effect with
  | round | compute => exact { handoff with }
  | look here free =>
    exact handoff.acquire _ free (by rw [here]; rfl) rfl (by rw [here]; rfl) (by rw [here]; rfl) rfl
  | own here free | visitIdle here free | visitRuns here free =>
    exact handoff.acquire s.rest free (by rw [here]; rfl) rfl (by rw [here]; rfl)
      (by rw [here]; rfl) rfl
  | pass here | resume here | done here | leftIdle here | leftRuns here =>
    exact handoff.release (by rw [here]; rfl) rfl (by rw [here]; rfl) (by rw [here]; rfl) rfl
  | choose here ready => exact handoff.choose here ready
  | mark here => exact handoff.mark here
  | assign here | clear here => exact handoff.setProc (by rw [here]; rfl) rfl (by rw [here]; rfl) nofun
  | inStore here | inLoad here | inReturn here | leave here | outStore here | outLoad here
  | outReturn here =>
    exact handoff.move rfl rfl rfl rfl (by rw [here]; rfl) (by rw [here]; rfl) (by rw [here]; rfl)
      (by rw [here]; rfl)
  | change here changes =>
    cases changes with
    | state before after => exact handoff.setState before after
    | create before after => exact handoff.setState before after

end

theorem Handoff.initial (initproc : Fin n) :
    Handoff (Sched.initial n m forkret stack initproc) := by
  refine ⟨fun c q => ⟨nofun, nofun⟩, fun _ => rfl, nofun, nofun, fun p running => ?_, nofun⟩
  simp only [Sched.initial] at running
  split at running <;> cases running

/-! ## Contexts -/

/-- What is in the contexts and in the registers of CPUs that switch. -/
structure Contexts (s : State n m) : Prop where
  -- a context has what the process saved, but for what a CPU has yet to store
  kept : ∀ p (i : Fin 14), (∀ c k, s.pc c = .switchOut p k → i.val < k) →
    s.context p i = s.saved p i
  -- until it has stored them, a CPU keeps the registers of the process
  out : ∀ c p k, s.pc c = .switchOut p k → k ≤ 14 → s.regs c = s.saved p
  -- what a CPU has loaded is what the process saved
  into : ∀ c p k (i : Fin 14), s.pc c = .switchIn p k → i.val + 14 < k → s.regs c i = s.saved p i

/-- No CPU stores the context of a process that another one is about to run. -/
theorem Handoff.not_out (handoff : Handoff s) (active : (s.pc c).active = some p) :
    s.pc d ≠ .switchOut p k := by
  intro there
  exact handoff.leaving d p (by rw [there]; rfl) (handoff.active c p active)

section

variable (contexts : Contexts s) {i : Fin 14}
include contexts

theorem Contexts.frame (context : t.context = s.context)
    (saved : t.saved = s.saved) (regs : t.regs = s.regs) (pc : t.pc = update s.pc c new)
    (notOut : ∀ p k, new ≠ .switchOut p k) (first : ∀ p k, new = .switchIn p k → k ≤ 14)
    (old : ∀ p k, s.pc c = .switchOut p k → 14 ≤ k) : Contexts t := by
  have places : ∀ d, t.pc d = if d = c then new else s.pc d := by
    rw [pc]
    exact fun d => update_apply ..
  refine ⟨fun p i stored => ?_, fun d p k there => ?_, fun d p k i there => ?_⟩
  · rw [context, saved]
    refine contexts.kept p i fun d k there => ?_
    by_cases mover : d = c
    · have := old p k (mover ▸ there)
      omega
    · exact stored d k (by rwa [places, if_neg mover])
  · rw [regs, saved]
    rw [places] at there
    split at there
    · exact absurd there (notOut p k)
    · exact contexts.out d p k there
  · rw [regs, saved]
    rw [places] at there
    split at there
    · have := first p k there
      omega
    · exact contexts.into d p k i there

theorem Contexts.leave (handoff : Handoff s) (here : s.pc c = .leaves p) :
    Contexts ({ s with saved := update s.saved p (s.regs c) }.goto c (.switchOut p 0)) := by
  have alone : ∀ d q, (s.pc d).holds = some q → d ≠ c → q ≠ p := by
    rintro d q holds other rfl
    exact other (handoff.holder holds (by rw [here]; rfl))
  have places := (pc_goto { s with saved := update s.saved p (s.regs c) } c · (.switchOut p 0))
  have saved : ∀ q, ({ s with saved := update s.saved p (s.regs c) }.goto c
      (.switchOut p 0)).saved q = if q = p then s.regs c else s.saved q :=
    fun q => update_apply ..
  refine ⟨fun q i stored => ?_, fun d q k there bound => ?_, fun d q k i there bound => ?_⟩
  · have other : q ≠ p := by
      rintro rfl
      exact absurd (stored c 0 (by rw [places, if_pos rfl])) (Nat.not_lt_zero _)
    rw [saved, if_neg other]
    refine contexts.kept q i fun d k there => stored d k ?_
    rw [places, if_neg]
    · exact there
    · rintro rfl
      rw [here] at there
      cases there
  · rw [saved]
    rw [places] at there
    split at there
    next mover =>
      cases there
      rw [if_pos rfl, mover]
      rfl
    next mover =>
      have there : s.pc d = .switchOut q k := there
      rw [if_neg (alone d q (by rw [there]; rfl) mover)]
      exact contexts.out d q k there bound
  · rw [saved]
    rw [places] at there
    split at there
    · cases there
    next mover =>
      have there : s.pc d = .switchIn q k := there
      rw [if_neg (alone d q (by rw [there]; rfl) mover)]
      exact contexts.into d q k i there bound

theorem Contexts.store (handoff : Handoff s) (here : s.pc c = .switchOut p k) (number : i.val = k) :
    Contexts ((s.storeProc c p i).goto c (.switchOut p (k + 1))) := by
  have alone : ∀ d k', s.pc d = .switchOut p k' → d = c := fun d k' there =>
    handoff.holder (q := p) (by rw [there]; rfl) (by rw [here]; rfl)
  have mine := contexts.out c p k here (by omega)
  have places := (pc_goto (s.storeProc c p i) c · (.switchOut p (k + 1)))
  have context : ∀ q j, ((s.storeProc c p i).goto c (.switchOut p (k + 1))).context q j =
      if q = p ∧ j = i then s.regs c i else s.context q j := by
    intro q j
    change update s.context p (update (s.context p) i (s.regs c i)) q j = _
    by_cases same : q = p
    · subst same
      rw [update_self, update_apply]
      simp
    · rw [update_of_ne same]
      simp [same]
  refine ⟨fun q j stored => ?_, fun d q k' there bound => ?_, fun d q k' j there bound => ?_⟩
  · rw [context]
    split
    next same => rw [same.1, same.2, mine]; rfl
    next other =>
      refine contexts.kept q j fun d k' there => ?_
      by_cases mover : d = c
      · subst mover
        rw [here] at there
        cases there
        have := stored d (k + 1) (by rw [places, if_pos rfl])
        have apart : j ≠ i := fun same => other ⟨rfl, same⟩
        have : j.val ≠ i.val := fun same => apart (Fin.ext same)
        omega
      · refine stored d k' ?_
        rw [places, if_neg mover]
        exact there
  · rw [places] at there
    split at there
    next mover =>
      cases there
      rw [mover]
      exact mine
    · exact contexts.out d q k' there bound
  · rw [places] at there
    split at there
    · cases there
    · exact contexts.into d q k' j there bound

omit contexts in
theorem regs_load (s : State n m) (c d : Fin m) (i j : Fin 14) (value : UInt64) :
    (s.load c i value).regs d j = if d = c ∧ j = i then value else s.regs d j := by
  change update s.regs c (update (s.regs c) i value) d j = _
  by_cases same : d = c
  · subst same
    rw [update_self, update_apply]
    simp
  · rw [update_of_ne same]
    simp [same]

theorem Contexts.loadScheduler
    {value : UInt64} (here : s.pc c = .switchOut p k) (number : i.val + 14 = k) :
    Contexts ((s.load c i value).goto c (.switchOut p (k + 1))) := by
  have places := (pc_goto (s.load c i value) c · (.switchOut p (k + 1)))
  have regs : ∀ d, d ≠ c → ((s.load c i value).goto c (.switchOut p (k + 1))).regs d = s.regs d :=
    fun d other => update_of_ne other ..
  refine ⟨fun q j stored => ?_, fun d q k' there bound => ?_, fun d q k' j there bound => ?_⟩
  · refine contexts.kept q j fun d k' there => ?_
    by_cases mover : d = c
    · subst mover
      rw [here] at there
      cases there
      omega
    · refine stored d k' ?_
      rw [places, if_neg mover]
      exact there
  · rw [places] at there
    split at there
    · cases there
      omega
    next mover =>
      rw [regs d mover]
      exact contexts.out d q k' there bound
  · rw [places] at there
    split at there
    · cases there
    next mover =>
      rw [regs d mover]
      exact contexts.into d q k' j there bound

theorem Contexts.loadProc (handoff : Handoff s)
    (here : s.pc c = .switchIn p k) (number : i.val + 14 = k) :
    Contexts ((s.load c i (s.context p i)).goto c (.switchIn p (k + 1))) := by
  have places := (pc_goto (s.load c i (s.context p i)) c · (.switchIn p (k + 1)))
  have regs : ∀ d, d ≠ c →
      ((s.load c i (s.context p i)).goto c (.switchIn p (k + 1))).regs d = s.regs d :=
    fun d other => update_of_ne other ..
  have complete : s.context p i = s.saved p i :=
    contexts.kept p i fun d k' there => absurd there (handoff.not_out (by rw [here]; rfl))
  refine ⟨fun q j stored => ?_, fun d q k' there bound => ?_, fun d q k' j there bound => ?_⟩
  · refine contexts.kept q j fun d k' there => stored d k' ?_
    rw [places, if_neg]
    · exact there
    · rintro rfl
      rw [here] at there
      cases there
  · rw [places] at there
    split at there
    · cases there
    next mover =>
      rw [regs d mover]
      exact contexts.out d q k' there bound
  · rw [places] at there
    split at there
    next mover =>
      cases there
      subst mover
      change (s.load d i (s.context p i)).regs d j = s.saved p j
      rw [regs_load]
      split
      next same => rw [same.2, complete]
      next other =>
        refine contexts.into d p k j here ?_
        have : j.val ≠ i.val := fun same => other ⟨rfl, Fin.ext same⟩
        omega
    next mover =>
      rw [regs d mover]
      exact contexts.into d q k' j there bound

/-- `allocproc` writes the context of a process that no CPU switches to or from. -/
theorem Contexts.create (handoff : Handoff s) {p : Option (Fin n)}
    {state : Fin n → ProcState} {new : Context} (here : s.pc c = .visit p q) :
    Contexts { s with
      state := state
      context := update s.context q new
      saved := update s.saved q new } := by
  have alone : ∀ d r, (s.pc d).holds = some r → s.pc d ≠ .visit p q → r ≠ q := by
    rintro d r holds other rfl
    obtain rfl : d = c := handoff.holder holds (by rw [here]; rfl)
    exact other here
  refine ⟨fun r i stored => ?_, fun d r k there bound => ?_, fun d r k i there bound => ?_⟩
  · simp only
    by_cases same : r = q
    · rw [same, update_self, update_self]
    · rw [update_of_ne same, update_of_ne same]
      exact contexts.kept r i stored
  · have other := alone d r (by rw [there]; rfl) (by rw [there]; nofun)
    simp only
    rw [update_of_ne other]
    exact contexts.out d r k there bound
  · have other := alone d r (by rw [there]; rfl) (by rw [there]; nofun)
    simp only
    rw [update_of_ne other]
    exact contexts.into d r k i there bound

theorem Contexts.step (handoff : Handoff s) (effect : Effect forkret stack s t) : Contexts t := by
  cases effect with
  | round => exact ⟨contexts.kept, contexts.out, contexts.into⟩
  | look here | own here | visitIdle here | visitRuns here | pass here | resume here | done here
  | leftIdle here | leftRuns here | choose here | mark here | clear here =>
    exact contexts.frame rfl rfl rfl rfl nofun nofun (by rw [here]; nofun)
  | assign here | inStore here =>
    refine contexts.frame rfl rfl rfl rfl nofun ?_ (by rw [here]; nofun)
    rintro p k ⟨⟩
    omega
  | inLoad here number => exact contexts.loadProc handoff here number
  | inReturn here => exact contexts.frame rfl rfl rfl rfl nofun nofun (by rw [here]; nofun)
  | leave here => exact contexts.leave handoff here
  | outStore here number => exact contexts.store handoff here number
  | outLoad here number => exact contexts.loadScheduler here number
  | outReturn here last =>
    refine contexts.frame rfl rfl rfl rfl nofun nofun ?_
    rw [here]
    rintro p k ⟨⟩
    omega
  | change here changes =>
    cases changes with
    | state => exact ⟨contexts.kept, contexts.out, contexts.into⟩
    | create => exact contexts.create handoff here
  | @compute c regs notIn notOut =>
    have others : ∀ d pc, s.pc d = pc → s.pc c ≠ pc → update s.regs c regs d = s.regs d := by
      rintro d pc rfl other
      refine update_of_ne ?_ ..
      rintro rfl
      exact other rfl
    refine ⟨contexts.kept, fun d p k there bound => ?_, fun d p k i there bound => ?_⟩
    · exact (others d _ there (notOut p k)).trans (contexts.out d p k there bound)
    · exact (congrFun (others d _ there (notIn p k)) i).trans (contexts.into d p k i there bound)

end

theorem Contexts.initial (initproc : Fin n) : Contexts (Sched.initial n m forkret stack initproc) :=
  ⟨fun _ _ _ => rfl, nofun, nofun⟩

/-! ## Runs -/

/-- What holds of processes and CPUs in every state. -/
structure OneCpu (s : State n m) : Prop where
  -- a process is the `c->proc` of one CPU at most
  unique : ∀ p c d, s.proc c = some p → s.proc d = some p → c = d
  -- a process whose lock is free is `RUNNING` exactly if it is the `c->proc` of one CPU
  running : ∀ p, s.lock p = none → (s.state p = .running ↔ ∃! c, s.proc c = some p)
  -- while a CPU switches to a process, no CPU stores its context; the context is what the process
  -- saved when it last called `swtch`, and so are the registers loaded so far
  resumes : ∀ c p k, s.pc c = .switchIn p k → (∀ d k', s.pc d ≠ .switchOut p k') ∧
    s.context p = s.saved p ∧ ∀ i : Fin 14, i.val + 14 < k → s.regs c i = s.saved p i

theorem Handoff.unique_proc (handoff : Handoff s)
    (first : s.proc c = some p) (second : s.proc d = some p) : c = d := by
  -- the CPU has made the process `RUNNING`, or it holds its lock and is leaving it
  have phase : ∀ e, s.proc e = some p → (s.pc e).active = some p ∨
      (s.pc e).leaving = some p ∧ (s.pc e).holds = some p := by
    intro e on
    rw [handoff.proc] at on
    revert on
    cases s.pc e <;> simp [Pc.proc, Pc.active, Pc.leaving, Pc.holds]
  rcases phase c first with runs | ⟨left, holds⟩ <;>
    rcases phase d second with runs' | ⟨left', holds'⟩
  · exact handoff.unique c d p runs runs'
  · exact absurd (handoff.active c p runs) (handoff.leaving d p left')
  · exact absurd (handoff.active d p runs') (handoff.leaving c p left)
  · exact handoff.holder holds holds'

theorem Handoff.running (handoff : Handoff s) (free : s.lock p = none) :
    s.state p = .running ↔ ∃! c, s.proc c = some p := by
  have unlocked : ∀ c, (s.pc c).holds ≠ some p := by
    intro c holds
    rw [(handoff.lock c p).mpr holds] at free
    cases free
  have phase : ∀ c, (s.pc c).active = some p ↔ (s.pc c).proc = some p := by
    intro c
    have := unlocked c
    revert this
    cases s.pc c <;> simp_all [Pc.proc, Pc.active, Pc.holds]
  constructor
  · intro running
    obtain ⟨c, on⟩ := handoff.runner p running
    have mine : s.proc c = some p := (handoff.proc c).trans ((phase c).mp on)
    exact ⟨c, mine, fun d other => handoff.unique_proc other mine⟩
  · rintro ⟨c, on, -⟩
    exact handoff.active c p ((phase c).mpr ((handoff.proc c).symm.trans on))

/-- **A process runs on one CPU at most**, and is resumed where it left. -/
theorem process_on_one_cpu {initproc : Fin n} {events : List (Event n m)}
    (run : Run (Step forkret stack) (initial n m forkret stack initproc) events s) : OneCpu s := by
  obtain ⟨handoff, contexts⟩ : Handoff s ∧ Contexts s :=
    run.invariant (fun s => Handoff s ∧ Contexts s) (fun ⟨handoff, contexts⟩ step =>
        ⟨handoff.step step.effect, contexts.step handoff step.effect⟩)
      ⟨.initial initproc, .initial initproc⟩
  refine ⟨fun p c d => handoff.unique_proc, fun p => handoff.running, fun c p k here => ?_⟩
  have quiet : ∀ d k', s.pc d ≠ .switchOut p k' :=
    fun d k' => handoff.not_out (c := c) (by rw [here]; rfl)
  refine ⟨quiet, funext fun i => ?_, fun i => contexts.into c p k i here⟩
  exact contexts.kept p i fun d k' there => absurd there (quiet d k')

/-- One CPU runs a process, which yields, and another CPU switches to it. -/
def migration : List (Event 1 2) :=
  List.replicate 34 (.step 0) ++ [.leave 0 .yield] ++ List.replicate 33 (.step 0) ++
    List.replicate 24 (.step 1)

section

set_option maxRecDepth 20000

theorem process_on_one_cpu_migration :
    ∃ s, Run (Step 0 (fun _ => 0)) (initial 1 2 0 (fun _ => 0) 0) migration s ∧ OneCpu s ∧
      s.proc 1 = some 0 ∧ s.pc 1 = .switchIn 0 20 := by
  have executed : migration.foldlM (next 0 fun _ => 0) (initial 1 2 0 (fun _ => 0) 0) = some _ :=
      rfl
  have run := Run.of_execute executed
  exact ⟨_, run, process_on_one_cpu run, rfl, rfl⟩

end

end Xv6.Sched
