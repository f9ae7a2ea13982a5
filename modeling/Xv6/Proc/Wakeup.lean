import Xv6.Proc.Wait

/-!
# No lost wakeup between `exit` and `wait`

A process in `wait` looks at its children under `wait_lock`, and is bound to sleep when
it releases that lock: it holds its own lock by then, so that a `wakeup` waits until it
is `SLEEPING`. A process in `exit` wakes its parent before it becomes a `ZOMBIE`, but it
holds `wait_lock` from before the one to after the other.
-/

namespace Xv6.Proc

variable {n : Nat} {initproc p : Fin n} {actor : Option (Fin n)} {s t : State n} {w r q : Fin n}
  {chan : Chan n}

def State.SleepsInWait (s : State n) (p : Fin n) : Prop :=
  (s.slot p).state = .sleeping ∧ ∃ addr, s.place p = .sched (some addr)

/-- The process sleeps in `wait`, or has released `wait_lock` to do so. -/
def Waits (s : State n) (p : Fin n) : Prop :=
  s.SleepsInWait p ∨ ∃ addr, s.place p = .sleepMark addr

/-- The visits to come of a `wakeup(initproc)`. -/
def Place.visits : Place n → List (Fin n)
  | .exitWakeInit _ _ todo => todo
  | _ => []

/-- What a process in `exit` knows of its parent. -/
def Wakes (s : State n) (q : Fin n) : Place n → Prop
  | .exitWakeParent _ todo => ∀ w, (s.core q).parent = some w → Waits s w → w ∈ todo
  | .exitLock _ => ∀ w, (s.core q).parent = some w → ¬ Waits s w
  | _ => True

variable {place : Place n}

theorem wakes_of_not_holds (outside : place.holds = false) : Wakes s p place := by
  cases place <;> trivial

theorem visits_of_not_holds (outside : place.holds = false) :
    place.visits = [] := by
  cases place <;> trivial

structure Woken (initproc : Fin n) (s : State n) : Prop where
  chan : ∀ p, s.SleepsInWait p → (s.slot p).chan = some (.proc p)
  wakes : ∀ q, Wakes s q (s.place q)
  zombie : ∀ w c, Waits s w → (s.core c).parent = some w → (s.core c).kind = .zombie →
    w = initproc ∧ ∃ q, initproc ∈ (s.place q).visits

theorem Wakes.mono (wakes : Wakes s p place)
    (waits : ∀ w, Waits t w → Waits s w) (parent : (t.core p).parent = (s.core p).parent) :
    Wakes t p place := by
  cases place <;> simp only [Wakes, parent] at wakes ⊢
  · exact fun w child waiting => wakes w child (waits w waiting)
  · exact fun w child waiting => wakes w child (waits w waiting)

/-- A process here sleeps in `wait`, or is about to. -/
def Place.parks : Place n → Bool
  | .sleepMark _ | .sched (some _) => true
  | _ => false

theorem Waits.parks (waits : Waits s w) : (s.place w).parks = true := by
  rcases waits with ⟨-, addr, here⟩ | ⟨addr, here⟩ <;> rw [here] <;> rfl

/-- One process moves, to a place where it does not wait, and nobody else goes to sleep. -/
structure Quiet (s t : State n) (r : Fin n) : Prop where
  place : ∀ q, q ≠ r → t.place q = s.place q ∨
    ((s.place q).holds = false ∧ (t.place q).holds = false) ∧ (t.place q).parks = false
  slot : ∀ q, q ≠ r → (t.slot q).state = .sleeping →
    (s.slot q).state = .sleeping ∧ (t.slot q).chan = (s.slot q).chan
  parks : (t.place r).parks = false

section

variable (quiet : Quiet s t r)
include quiet

theorem Quiet.place_of_parks (parks : (t.place w).parks = true) :
    w ≠ r ∧ t.place w = s.place w := by
  have other : w ≠ r := by
    rintro rfl
    rw [quiet.parks] at parks
    cases parks
  refine ⟨other, (quiet.place w other).resolve_right ?_⟩
  rintro ⟨-, not⟩
  rw [not] at parks
  cases parks

theorem Quiet.sleeps (sleeps : t.SleepsInWait w) :
    s.SleepsInWait w ∧ (t.slot w).chan = (s.slot w).chan := by
  obtain ⟨other, same⟩ := quiet.place_of_parks (Waits.parks (.inl sleeps))
  obtain ⟨asleep, chan⟩ := quiet.slot w other sleeps.1
  exact ⟨⟨asleep, same ▸ sleeps.2⟩, chan⟩

theorem Quiet.waits (waits : Waits t w) : Waits s w := by
  have same := (quiet.place_of_parks waits.parks).2
  exact waits.imp (fun sleeps => (quiet.sleeps sleeps).1) fun mark => same ▸ mark

end

/-- Such a step keeps the invariant if the process goes on with its visits. -/
theorem Woken.quiet (woken : Woken initproc s) (quiet : Quiet s t r)
    (parents : ∀ q, q ≠ r → (s.place q).holds = true → (t.core q).parent = (s.core q).parent)
    (wakes : Wakes t r (t.place r))
    (children : ∀ c w, (t.core c).parent = some w → (t.core c).kind = .zombie → Waits t w →
      (s.core c).parent = some w ∧ (s.core c).kind = .zombie ∨
        w = initproc ∧ initproc ∈ (t.place r).visits)
    (visits : initproc ∈ (s.place r).visits → Waits t initproc → initproc ∈ (t.place r).visits) :
    Woken initproc t := by
  refine ⟨fun w sleeps => ?_, fun q => ?_, fun w c waiting child dead => ?_⟩
  · obtain ⟨before, chan⟩ := quiet.sleeps sleeps
    rw [chan]
    exact woken.chan w before
  · by_cases mover : q = r
    · rw [mover]
      exact wakes
    · rcases quiet.place q mover with same | ⟨⟨-, outside⟩, -⟩
      · cases holds : (s.place q).holds with
        | false => exact wakes_of_not_holds (same ▸ holds)
        | true => exact same ▸ (woken.wakes q).mono (fun _ => quiet.waits) (parents q mover holds)
      · exact wakes_of_not_holds outside
  · rcases children c w child dead waiting with ⟨child, dead⟩ | ⟨first, visited⟩
    · obtain ⟨rfl, q, visited⟩ := woken.zombie w c (quiet.waits waiting) child dead
      refine ⟨rfl, ?_⟩
      by_cases mover : q = r
      · exact ⟨r, visits (mover ▸ visited) waiting⟩
      · rcases quiet.place q mover with same | ⟨⟨outside, -⟩, -⟩
        · exact ⟨q, same ▸ visited⟩
        · rw [visits_of_not_holds outside] at visited
          cases visited
    · exact ⟨first, r, visited⟩

theorem Woken.calm (woken : Woken initproc s) (quiet : Quiet s t r)
    (core : t.core = s.core) (wakes : Wakes t r (t.place r))
    (visits : initproc ∈ (s.place r).visits → Waits t initproc → initproc ∈ (t.place r).visits) :
    Woken initproc t :=
  woken.quiet quiet (by simp [core]) wakes (fun c w child dead _ => .inl (core ▸ ⟨child, dead⟩))
    visits

variable {c : Fin n}

/-- A step that changes what is recorded of one process, which does not become a zombie. -/
theorem Woken.recore {x : Core n} (woken : Woken initproc s) (quiet : Quiet s t r)
    (core : ∀ q, t.core q = if q = c then x else s.core q) (lives : x.kind ≠ .zombie)
    (parents : x.parent = (s.core c).parent ∨ ∀ q, q ≠ r → (s.place q).holds = false)
    (wakes : Wakes t r (t.place r)) (visits : (s.place r).visits = []) : Woken initproc t := by
  refine woken.quiet quiet (fun q other holds => ?_) wakes (fun c w child dead _ => ?_)
    (by rw [visits]; nofun)
  · rcases parents with same | alone
    · rw [core]
      split
      next here => rw [same, here]
      · rfl
    · rw [alone q other] at holds
      cases holds
  · rw [core] at child dead
    split at dead
    · exact absurd dead lives
    next apart => exact .inl ⟨by rwa [if_neg apart] at child, dead⟩

variable {new : Place n}

theorem Quiet.goto {u : State n} (parks : new.parks = false)
    (place : ∀ q, q ≠ r → u.place q = s.place q)
    (slot : ∀ q, q ≠ r → (u.slot q).state = .sleeping →
      (s.slot q).state = .sleeping ∧ (u.slot q).chan = (s.slot q).chan) :
    Quiet s (u.goto r new) r := by
  refine ⟨fun q other => .inl ?_, slot, ?_⟩
  · rw [place_goto, if_neg other]
    exact place q other
  · rwa [place_goto, if_pos rfl]

theorem slot_setSlot (s : State n) (q r : Fin n) (f : Slot n → Slot n) :
    (s.setSlot q f).slot r = if r = q then f (s.slot q) else s.slot r :=
  Function.update_apply ..

/-- A change of one slot after which it does not sleep, unless it did. -/
theorem Quiet.setSlot {f : Slot n → Slot n} (parks : new.parks = false)
    (slot : q ≠ r → (f (s.slot q)).state = .sleeping →
      (s.slot q).state = .sleeping ∧ (f (s.slot q)).chan = (s.slot q).chan) :
    Quiet s ((s.setSlot q f).goto r new) r := by
  refine .goto parks (fun _ _ => rfl) fun c other asleep => ?_
  rw [slot_setSlot] at asleep ⊢
  split at asleep
  next same =>
    subst same
    rw [if_pos rfl]
    exact slot other asleep
  next apart =>
    rw [if_neg apart]
    exact ⟨asleep, rfl⟩

theorem Quiet.rouse (parks : new.parks = false) : Quiet s ((s.rouse q chan).goto r new) r := by
  unfold State.rouse
  split
  · exact .setSlot parks fun _ asleep => nomatch asleep
  · exact .goto parks (fun _ _ => rfl) fun _ _ asleep => ⟨asleep, rfl⟩

section

variable (woken : Woken initproc s) {addr : Addr}
include woken

theorem Woken.rouse (other : q ≠ r)
    (free : s.free q = true) : ¬ Waits ((s.rouse q (.proc q)).goto r new) q := by
  intro waits
  have same : ((s.rouse q (.proc q)).goto r new).place q = s.place q := by
    rw [place_goto, if_neg other, place_rouse]
  rcases waits with ⟨asleep, addr, here⟩ | ⟨addr, here⟩
  · rw [same] at here
    change ((s.rouse q (.proc q)).slot q).state = .sleeping at asleep
    unfold State.rouse at asleep
    split at asleep
    · rw [slot_setSlot, if_pos rfl] at asleep
      cases asleep
    next not => exact not ⟨asleep, woken.chan q ⟨asleep, addr, here⟩⟩
  · rw [same] at here
    rw [State.free, here] at free
    cases free

/-! ## Steps -/

theorem Woken.moves (family : Family initproc s)
    (moves : Moves initproc s r (s.place r) new) : Woken initproc (s.goto r new) := by
  have parks : new.parks = false := by
    generalize s.place r = old at moves
    cases moves <;> rfl
  have quiet : Quiet s (s.goto r new) r :=
    .goto parks (fun _ _ => rfl) fun _ _ asleep => ⟨asleep, rfl⟩
  have knows := woken.wakes r
  have stays := family.init.2
  refine woken.calm quiet rfl ?_ ?_
  · rw [place_goto, if_pos rfl]
    generalize s.place r = old at moves knows
    cases moves with
    | reparentDone => exact fun w _ _ => List.mem_finRange w
    | parentWoken =>
      exact fun w parent waits => List.not_mem_nil (knows w parent (quiet.waits waits))
    | parentSelf =>
      intro w parent waits
      refine (List.mem_cons.mp (knows w parent (quiet.waits waits))).resolve_left ?_
      exact (quiet.place_of_parks waits.parks).1
    | parentNone orphan => exact fun w parent => nomatch orphan.symm.trans parent
    | _ => trivial
  · rw [place_goto, if_pos rfl]
    intro visited _
    generalize old : s.place r = place at moves visited
    cases moves with
    | initSelf =>
      refine (List.mem_cons.mp visited).resolve_left ?_
      rintro rfl
      rw [old] at stays
      cases stays
    | _ => cases visited

theorem Woken.visit (visits : Visits initproc s r (s.place r) q chan new) (other : q ≠ r)
    (free : s.free q = true) : Woken initproc ((s.rouse q chan).goto r new) := by
  have parks : new.parks = false := by
    generalize s.place r = old at visits
    cases visits <;> rfl
  have quiet : Quiet s ((s.rouse q chan).goto r new) r := .rouse parks
  have knows := woken.wakes r
  refine woken.calm quiet (core_rouse ..) ?_ ?_
  · rw [place_goto, if_pos rfl]
    generalize s.place r = old at visits knows
    cases visits with
    | init => trivial
    | @parent status q r' todo parent =>
      intro w child waits
      rw [core_goto, core_rouse] at child
      obtain rfl : r' = w := Option.some.inj (parent.symm.trans child)
      refine (List.mem_cons.mp (knows r' child (quiet.waits waits))).resolve_left ?_
      rintro rfl
      exact woken.rouse other free waits
  · rw [place_goto, if_pos rfl]
    intro visited waits
    generalize s.place r = old at visits visited
    cases visits with
    | init =>
      refine (List.mem_cons.mp visited).resolve_left ?_
      rintro rfl
      exact woken.rouse other free waits
    | parent => cases visited

theorem Woken.release (sound : Sound initproc s)
    (here : s.place r = .sleepRelease addr) : Woken initproc (s.leave r (.sleepMark addr)) := by
  have alone : ∀ q, q ≠ r → (s.place q).holds = false := by
    intro q other
    by_contra holds
    exact other (sound.locked.unique (by simpa using holds) (by rw [here]; rfl))
  have place : ∀ q, (s.leave r (.sleepMark addr)).place q =
      if q = r then .sleepMark addr else s.place q := fun q => place_goto ..
  refine ⟨fun w sleeps => ?_, fun q => ?_, fun w c waits child dead => ?_⟩
  · obtain ⟨asleep, addr', there⟩ := sleeps
    rw [place] at there
    split at there
    · cases there
    · exact woken.chan w ⟨asleep, addr', there⟩
  · rw [place]
    split
    · trivial
    next other => exact wakes_of_not_holds (alone q other)
  · have scans := sound.scans r
    rw [here] at scans
    by_cases mover : w = r
    · subst mover
      exact absurd dead (scans c child)
    · have before : Waits s w := by
        refine waits.imp (And.imp id ?_) ?_ <;>
          · rintro ⟨addr', there⟩
            rw [place, if_neg mover] at there
            exact ⟨addr', there⟩
      obtain ⟨-, q, visited⟩ := woken.zombie w c before child dead
      by_cases same : q = r
      · rw [same, here] at visited
        cases visited
      · rw [visits_of_not_holds (alone q same)] at visited
        cases visited

theorem Woken.mark (family : Family initproc s) (here : s.place r = .sleepMark addr) :
    Woken initproc ((s.setSlot r fun slot => { slot with
      state := .sleeping, chan := some (.proc r) }).goto r (.sched (some addr))) := by
  have core : ((s.setSlot r fun slot => { slot with
      state := .sleeping, chan := some (.proc r) }).goto r (.sched (some addr))).core = s.core := by
    have live := family.live here rfl
    refine (core_goto ..).trans (core_setSlot_same s r ?_)
    simp only [State.core, Slot.core] at live ⊢
    rw [live]
    rfl
  have slot : ∀ q, ((s.setSlot r fun slot => { slot with
      state := .sleeping, chan := some (.proc r) }).goto r (.sched (some addr))).slot q =
      if q = r then { s.slot r with state := .sleeping, chan := some (.proc r) } else s.slot q :=
    fun q => slot_setSlot s r q fun slot => { slot with
      state := .sleeping, chan := some (.proc r) }
  have place : ∀ q, ((s.setSlot r fun slot => { slot with
      state := .sleeping, chan := some (.proc r) }).goto r (.sched (some addr))).place q =
      if q = r then .sched (some addr) else s.place q := fun q => place_goto ..
  generalize ((s.setSlot r fun slot => { slot with
      state := .sleeping, chan := some (.proc r) }).goto r (.sched (some addr))) = t at *
  have sleeps : ∀ w, w ≠ r → t.SleepsInWait w → s.SleepsInWait w := by
    rintro w other ⟨asleep, addr', there⟩
    rw [slot, if_neg other] at asleep
    rw [place, if_neg other] at there
    exact ⟨asleep, addr', there⟩
  have waits : ∀ w, Waits t w → Waits s w := by
    intro w waits
    by_cases mover : w = r
    · exact .inr ⟨addr, mover ▸ here⟩
    · refine waits.imp (sleeps w mover) ?_
      rintro ⟨addr', there⟩
      rw [place, if_neg mover] at there
      exact ⟨addr', there⟩
  refine ⟨fun w sleeping => ?_, fun q => ?_, fun w c waiting child dead => ?_⟩
  · rw [slot]
    split
    next mover => rw [mover]
    next other => exact woken.chan w (sleeps w other sleeping)
  · rw [place]
    split
    · trivial
    · exact (woken.wakes q).mono waits (by rw [core])
  · rw [core] at child dead
    obtain ⟨first, q, visited⟩ := woken.zombie w c (waits w waiting) child dead
    refine ⟨first, q, ?_⟩
    rw [place]
    split
    next mover =>
      rw [mover, here] at visited
      cases visited
    · exact visited

theorem Woken.outside (q : Fin n) (chan : Chan n) : Woken initproc (s.rouse q chan) := by
  have sleeps : ∀ w, (s.rouse q chan).SleepsInWait w → s.SleepsInWait w ∧
      ((s.rouse q chan).slot w).chan = (s.slot w).chan := by
    rintro w ⟨asleep, there⟩
    rw [place_rouse] at there
    revert asleep
    unfold State.rouse
    split
    · rw [slot_setSlot]
      split
      · nofun
      · exact fun asleep => ⟨⟨asleep, there⟩, rfl⟩
    · exact fun asleep => ⟨⟨asleep, there⟩, rfl⟩
  have waits : ∀ w, Waits (s.rouse q chan) w → Waits s w := fun w waits =>
    waits.imp (fun sleeping => (sleeps w sleeping).1) fun mark => place_rouse s q chan ▸ mark
  have core := core_rouse s q chan
  refine ⟨fun w sleeping => ?_, fun r => ?_, fun w c waiting child dead => ?_⟩
  · obtain ⟨before, same⟩ := sleeps w sleeping
    rw [same]
    exact woken.chan w before
  · rw [place_rouse]
    exact (woken.wakes r).mono waits (by rw [core])
  · rw [core] at child dead
    rw [place_rouse]
    exact woken.zombie w c (waits w waiting) child dead

theorem Woken.step (sound : Sound initproc s)
    (effect : Effect initproc s actor t) : Woken initproc t := by
  have family := sound.family
  cases effect with
  | move moves => exact woken.moves family moves
  | @enter r new enters free =>
    generalize old : s.place r = place at enters
    refine woken.calm (r := r) (.goto ?_ (fun _ _ => rfl) fun _ _ asleep => ⟨asleep, rfl⟩) rfl ?_ ?_
    · cases enters <;> rfl
    · rw [place_goto, if_pos rfl]
      cases enters <;> trivial
    · rw [old]
      cases enters <;> rintro ⟨⟩
  | @leave r new leaves =>
    generalize old : s.place r = place at leaves
    cases leaves with
    | sleep => exact woken.release sound old
    | exit | wait =>
      refine woken.calm (r := r) (.goto rfl (fun _ _ => rfl) fun _ _ asleep => ⟨asleep, rfl⟩) rfl
        ?_ ?_
      · rw [State.leave, place_goto, if_pos rfl]
        trivial
      · rw [old]
        rintro ⟨⟩
  | @yield r here | @sleep r _ here =>
    refine woken.calm (r := r) (.setSlot rfl fun other => absurd rfl other) ?_ ?_ ?_
    · have live := family.live here rfl
      refine (core_goto ..).trans (core_setSlot_same s r ?_)
      simp only [State.core, Slot.core] at live ⊢
      rw [live]
      rfl
    · rw [place_goto, if_pos rfl]
      trivial
    · rw [here]
      rintro ⟨⟩
  | @resume r wait here ready =>
    refine woken.calm (r := r) (.setSlot (by cases wait <;> rfl) fun other => absurd rfl other)
      ?_ ?_ ?_
    · refine (core_goto ..).trans (core_setSlot_same s r ?_)
      simp only [Slot.core, ready]
      rfl
    · rw [place_goto, if_pos rfl]
      cases wait <;> trivial
    · rw [here]
      rintro ⟨⟩
  | wakeup => exact woken.outside _ _
  | visit visits other free => exact woken.visit visits other free
  | sleepMark here => exact woken.mark family here
  | @kill r q pid rest here free same =>
    refine woken.calm (r := r) (.setSlot rfl fun _ asleep => ?_) (core_kill ..) ?_ ?_
    · split at asleep
      · cases asleep
      next awake => exact absurd asleep awake
    · rw [place_goto, if_pos rfl]
      trivial
    · rw [here]
      rintro ⟨⟩
  | @create r np rest here unused =>
    have quiet : Quiet s.allocpid (s.create r np) r :=
      .setSlot rfl fun _ asleep => (by cases asleep)
    refine woken.recore (r := r) ⟨quiet.place, quiet.slot, quiet.parks⟩ (core_create s r np) (by simp)
      (.inl rfl) ?_ (by rw [here]; rfl)
    rw [place_create, if_pos rfl]
    trivial
  | @fail r np rest here unused =>
    have quiet : Quiet s.allocpid (s.fail r np) r := .setSlot rfl fun _ asleep => (by cases asleep)
    have free : (s.core np).kind = .dead := by
      simp [State.core, Slot.core, unused, ProcState.kind]
    refine woken.recore (r := r) (c := np)
      (x := ⟨.dead, none, (s.core np).born, (s.core np).creator, 0, 0⟩)
      ⟨quiet.place, quiet.slot, quiet.parks⟩ (congrFun (core_setSlot_apply s.allocpid np r _ _))
      (by simp) (.inl (by rw [family.dead np free])) ?_ (by rw [here]; rfl)
    rw [State.fail, place_goto, if_pos rfl]
    trivial
  | @parent r np here free =>
    have same := sameButParent_setSlot s np (some r) r (.forkRun np)
    have parents := parent_setSlot s np (some r) r (.forkRun np)
    have kind := (family.forks r np (by rw [here]; rfl)).1
    refine woken.quiet (r := r) (.setSlot rfl fun _ asleep => ⟨asleep, rfl⟩) ?_ ?_ ?_ ?_
    · intro q _ holds
      rw [sound.locked.outside free] at holds
      cases holds
    · rw [place_goto, if_pos rfl]
      trivial
    · intro c w child dead _
      rw [same.kind] at dead
      have other : c ≠ np := by
        rintro rfl
        rw [kind] at dead
        cases dead
      rw [parents, if_neg other] at child
      exact .inl ⟨child, dead⟩
    · rw [here]
      rintro ⟨⟩
  | @run r np here =>
    have kind := (family.forks r np (by rw [here]; rfl)).1
    have outside : (s.place np).holds = false := by
      have fits := family.fits np
      rw [kind] at fits
      cases there : s.place np <;> rw [there] at fits <;> first
        | rfl
        | cases fits
    refine woken.recore (r := r) (c := np) (x := { s.core np with kind := .live })
      ⟨fun q other => ?_, fun q _ asleep => ?_, ?_⟩
      (congrFun (core_setSlot_apply s np np (fun slot => { slot with state := .runnable })
        (.sched none))) (by simp) (.inl rfl) ?_ (by rw [here]; rfl)
    · rw [place_goto, if_neg other, place_goto]
      split
      next same => exact .inr ⟨⟨same ▸ outside, rfl⟩, rfl⟩
      · exact .inl rfl
    · change ((s.setSlot np fun slot => { slot with state := .runnable }).slot q).state =
      _ at asleep
      change _ ∧ ((s.setSlot np fun slot => { slot with state := .runnable }).slot q).chan = _
      rw [slot_setSlot] at asleep ⊢
      split at asleep
      · cases asleep
      next other => exact ⟨asleep, by rw [if_neg other]⟩
    · rw [place_goto, if_pos rfl]
      rfl
    · rw [place_goto, if_pos rfl]
      trivial
  | @reparent r q status rest here child =>
    have same := sameButParent_setSlot s q (some initproc) r
      (.exitWakeInit status rest (List.finRange n))
    have parents := parent_setSlot s q (some initproc) r
      (.exitWakeInit status rest (List.finRange n))
    refine woken.quiet (r := r) (.setSlot rfl fun _ asleep => ⟨asleep, rfl⟩) ?_ ?_ ?_ ?_
    · intro c other holds
      exact absurd (sound.locked.unique holds (by rw [here]; rfl)) other
    · rw [place_goto, if_pos rfl]
      trivial
    · intro c w child dead _
      rw [same.kind] at dead
      rw [parents] at child
      split at child
      · cases child
        rw [place_goto, if_pos rfl]
        exact .inr ⟨rfl, List.mem_finRange _⟩
      · exact .inl ⟨child, dead⟩
    · rw [here]
      rintro ⟨⟩
  | @zombie r status here =>
    have quiet : Quiet s ((s.setSlot r fun slot => { slot with
      xstate := status, state := .zombie }).goto r .exitRelease) r :=
        .setSlot rfl fun other => absurd rfl other
    have knows := woken.wakes r
    rw [here] at knows
    have core : ∀ q, ((s.zombie r status).goto r .exitRelease).core q =
        if q = r then { s.core r with kind := .zombie, xstate := status } else s.core q :=
      congrFun (core_setSlot_apply s r r (fun slot => { slot with
        xstate := status, state := .zombie }) .exitRelease)
    have quiet : Quiet s ((s.zombie r status).goto r .exitRelease) r :=
      ⟨quiet.place, quiet.slot, quiet.parks⟩
    refine woken.quiet quiet ?_ ?_ ?_ ?_
    · intro q other _
      rw [core, if_neg other]
    · rw [place_goto, if_pos rfl]
      trivial
    · intro c w child dead waits
      rw [core] at child dead
      split at child
      · exact absurd (quiet.waits waits) (knows w child)
      next other => exact .inl ⟨child, by rwa [if_neg other] at dead⟩
    · rw [here]
      rintro ⟨⟩
  | @reap r pp addr rest here free dead =>
    have quiet : Quiet s ((s.setSlot pp Slot.freeproc).goto r (.waitExit (s.slot pp).pid)) r :=
      .setSlot rfl fun _ asleep => (by cases asleep)
    refine woken.recore (r := r) (c := pp)
      (x := ⟨.dead, none, (s.core pp).born, (s.core pp).creator, 0, 0⟩)
      ⟨quiet.place, quiet.slot, quiet.parks⟩
      (congrFun (core_setSlot_apply s pp r Slot.freeproc (.waitExit (s.slot pp).pid))) (by simp)
      (.inr fun q other => ?_) ?_ (by rw [here]; rfl)
    · by_contra holds
      exact other (sound.locked.unique (by simpa using holds) (by rw [here]; rfl))
    · rw [place_goto, if_pos rfl]
      trivial

end

theorem Woken.initial (initproc : Fin n) : Woken initproc (Proc.initial initproc) := by
  have places : ∀ p, (Proc.initial initproc).place p = .sched none ∨
      (Proc.initial initproc).place p = .out := by
    intro p
    by_cases same : p = initproc <;> simp [Proc.initial, same]
  have parks : ∀ p, ((Proc.initial initproc).place p).parks = false := by
    intro p
    rcases places p with here | here <;> rw [here] <;> rfl
  refine ⟨fun p sleeps => ?_, fun q => ?_, fun w c waits => ?_⟩
  · exact absurd (Waits.parks (.inl sleeps)) (by simp [parks])
  · rcases places q with here | here <;> rw [here] <;> trivial
  · exact absurd waits.parks (by simp [parks])

variable {events : List (Event n)}

theorem Woken.run (run : Run (Step initproc) (Proc.initial initproc) events s) : Woken initproc s :=
  (run.invariant (fun s => Sound initproc s ∧ Woken initproc s)
    (fun ⟨sound, woken⟩ step => ⟨sound.effect step.effect, woken.step sound step.effect⟩)
    ⟨.initial initproc, .initial initproc⟩).2

/-- **No process sleeps in `wait` over a child that has exited.** -/
theorem no_lost_wakeup
    (run : Run (Step initproc) (initial initproc) events s) (free : s.waitLock = none)
    {p : Fin n} (sleeps : s.SleepsInWait p) (child : (s.slot c).parent = some p) :
    (s.slot c).state ≠ .zombie := by
  intro dead
  obtain ⟨-, q, visited⟩ := (Woken.run run).zombie p c (.inl sleeps) child
    (ProcState.kind_zombie.mpr dead)
  have outside := (Sound.run run).locked.outside free (q := q)
  rw [visits_of_not_holds outside] at visited
  cases visited

/-- The first process forks a child and goes to sleep in `wait`. -/
def sleepInWait : List (Event 2) :=
  [.step 0 true, .call 0 .fork, .step 0 true, .step 0 true, .step 0 true, .step 0 true,
    .step 0 true, .call 0 (.wait .null), .step 0 true, .step 0 true, .step 0 true, .step 0 true,
    .step 0 true, .step 0 true, .step 0 true, .step 0 true, .step 0 true]

theorem no_lost_wakeup_sleepInWait :
    ∃ s, Run (Step 0) (initial 0) sleepInWait s ∧ s.SleepsInWait 0 ∧
      (s.slot 1).parent = some 0 ∧ (s.slot 1).state ≠ .zombie := by
  have executed : sleepInWait.foldlM (next 0) (initial 0) = some _ := rfl
  have run := Run.of_execute executed
  exact ⟨_, run, ⟨rfl, .null, rfl⟩, rfl, no_lost_wakeup run rfl ⟨rfl, .null, rfl⟩ rfl⟩

end Xv6.Proc
