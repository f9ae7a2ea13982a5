import Xv6.Proc.Family

/-!
# `wait`

While a process scans the table for its children it holds `wait_lock`, and nothing
that the scan depends on changes behind it. A child that has exited is returned by
one `wait` of its parent, with its pid and its status (`children_reaped_once`).
-/

namespace Xv6.Proc

open Function State

variable {n : Nat} {initproc p : Fin n} {actor : Option (Fin n)} {s t : State n} {state : ProcState}
  {b : Nat}

/-- What a process in `wait` knows of its children. -/
def Scans (s : State n) (p : Fin n) : Place n → Prop
  | .waitScan _ rest havekids => ∀ c, (s.core c).parent = some p →
      (havekids = true ∨ c ∈ rest) ∧ ((s.core c).kind = .zombie → c ∈ rest)
  | .waitLook _ pp rest => (s.core pp).parent = some p ∧ ∀ c, (s.core c).parent = some p →
      (s.core c).kind = .zombie → c = pp ∨ c ∈ rest
  | .waitTest _ havekids => ∀ c, (s.core c).parent = some p →
      havekids = true ∧ (s.core c).kind ≠ .zombie
  | .sleepAcquire _ | .sleepRelease _ => ∀ c, (s.core c).parent = some p → (s.core c).kind ≠ .zombie
  | _ => True

theorem scans_of_not_holds {place : Place n} (outside : place.holds = false) : Scans s p place := by
  cases place <;> trivial

theorem Scans.mono {place : Place n} (scans : Scans s p place)
    (parent : ∀ c, (t.core c).parent = some p ↔ (s.core c).parent = some p)
    (kind : ∀ c, (t.core c).kind = .zombie → (s.core c).kind = .zombie) : Scans t p place := by
  cases place <;> simp only [Scans, parent] at scans ⊢
  · exact fun c child => ⟨(scans c child).1, fun dead => (scans c child).2 (kind c dead)⟩
  · exact ⟨scans.1, fun c child dead => scans.2 c child (kind c dead)⟩
  · exact fun c child => ⟨(scans c child).1, fun dead => (scans c child).2 (kind c dead)⟩
  · exact fun c child dead => scans c child (kind c dead)
  · exact fun c child dead => scans c child (kind c dead)

theorem Scans.congr {place : Place n} (scans : Scans s p place) (core : t.core = s.core) :
    Scans t p place :=
  scans.mono (by simp [core]) (by simp [core])

theorem Scans.moves {old new : Place n} (scans : Scans s p old)
    (moves : Moves initproc s p old new) : Scans s p new := by
  cases moves with
  | scanDone =>
    intro c child
    obtain ⟨kids, dead⟩ := scans c child
    exact ⟨kids.resolve_right List.not_mem_nil, fun zombie => List.not_mem_nil (dead zombie)⟩
  | @scanSkip _ q _ _ other =>
    intro c child
    have apart : c ≠ q := by
      rintro rfl
      exact other child
    obtain ⟨kids, dead⟩ := scans c child
    exact ⟨kids.imp id fun among => (List.mem_cons.mp among).resolve_left apart,
      fun zombie => (List.mem_cons.mp (dead zombie)).resolve_left apart⟩
  | scanLook child =>
    exact ⟨child, fun c child dead => List.mem_cons.mp ((scans c child).2 dead)⟩
  | @lookAlive _ pp _ alive =>
    intro c child
    refine ⟨.inl rfl, fun dead => (scans.2 c child dead).resolve_left ?_⟩
    rintro rfl
    simp only [core, Slot.core] at dead
    revert dead alive
    cases (s.slot c).state <;> simp [ProcState.kind]
  | testSleep => exact fun c child => (scans c child).2
  | sleepAcquire => exact scans
  | _ => trivial

theorem Scans.step (scans : ∀ p, Scans s p (s.place p)) (family : Family initproc s)
    (locked : Locked Place.holds s.waitLock s.place) (effect : Effect initproc s actor t)
    (p : Fin n) :
    Scans t p (t.place p) := by
  have after := Locked.step locked family effect
  by_cases holds : (t.place p).holds = true
  swap
  · exact scans_of_not_holds (by simpa using holds)
  have lock : t.waitLock = some p := after.inside holds
  have frame : ∀ {r new}, t.place = update s.place r new → t.core = s.core →
      (p = r → Scans s p new) → Scans t p (t.place p) := by
    intro r new place core mine
    rw [place]
    by_cases here : p = r
    · rw [here, update_self]
      exact (here ▸ mine here).congr core
    · rw [update_of_ne here]
      exact (scans p).congr core
  cases effect with
  | @move r new moves =>
    refine frame rfl rfl ?_
    rintro rfl
    exact (scans p).moves moves
  | @enter r new enters =>
    refine frame rfl rfl ?_
    rintro rfl
    generalize s.place p = old at enters
    cases enters
    · trivial
    · exact fun c _ => ⟨.inr (List.mem_finRange c), fun _ => List.mem_finRange c⟩
  | leave => cases lock
  | @yield r here | @sleep r _ here | @sleepMark r _ here =>
    refine frame rfl ?_ fun _ => trivial
    have live := family.live here rfl
    refine (core_goto ..).trans (core_setSlot_same s r ?_)
    simp only [State.core, Slot.core] at live ⊢
    rw [live]
    rfl
  | @resume r wait here ready =>
    refine frame rfl ?_ fun _ => by cases wait <;> trivial
    refine (core_goto ..).trans (core_setSlot_same s r ?_)
    simp only [Slot.core, ready]
    rfl
  | wakeup =>
    rw [place_rouse]
    exact (scans p).congr (core_rouse ..)
  | @visit r q chan new visits =>
    refine frame (by rw [goto, place_rouse]) (core_rouse ..) fun _ => ?_
    generalize s.place r = old at visits
    cases visits <;> trivial
  | kill => exact frame rfl (core_kill ..) fun _ => trivial
  | @create r np rest here unused =>
    rw [place_create] at holds ⊢
    split at holds
    · cases holds
    next other =>
      rw [if_neg other]
      refine (scans p).mono (fun c => ?_) fun c => ?_
      · rw [core_create]
        by_cases same : c = np
        · rw [same, if_pos rfl]
        · rw [if_neg same]
      · rw [core_create]
        split
        · simp
        · exact id
  | @fail r np rest here unused =>
    have core : ∀ q, (s.fail r np).core q = if q = np then
        ⟨.dead, none, (s.core np).born, (s.core np).creator, 0, 0⟩ else s.core q :=
      congrFun (core_setSlot_apply s.allocpid np r _ _)
    have dead : (s.core np).kind = .dead := by
      simp [State.core, Slot.core, unused, ProcState.kind]
    by_cases here' : p = r
    · subst here'
      simp [State.fail, goto, Place.holds] at holds
    · have place : (s.fail r np).place p = s.place p := update_of_ne here' ..
      rw [place]
      refine (scans p).mono (fun c => ?_) fun c => ?_
      · rw [core]
        split
        next same => simp [same, family.dead np dead]
        · rfl
      · rw [core]
        split
        · simp
        · exact id
  | @run r np here =>
    generalize after' : (((s.setSlot np fun slot => { slot with state := .runnable }).goto np
      (.sched none)).goto r (.ret (s.slot np).pid)) = t at *
    have place : ∀ q, t.place q = if q = r then .ret (s.slot np).pid else
        if q = np then .sched none else s.place q := by
      intro q
      rw [← after', place_goto, place_goto]
      rfl
    have core : ∀ q, t.core q =
        if q = np then { s.core np with kind := .live } else s.core q := by
      rw [← after', core_goto]
      exact congrFun (core_setSlot_apply s np np _ _)
    rw [place] at holds ⊢
    split at holds
    · cases holds
    next mover =>
      split at holds
      · cases holds
      next child =>
        rw [if_neg mover, if_neg child]
        refine (scans p).mono (fun c => ?_) fun c => ?_
        · rw [core]
          split
          next same => rw [same]
          · rfl
        · rw [core]
          split
          · simp
          · exact id
  | @parent r np here free =>
    rw [show s.waitLock = some p from lock] at free
    cases free
  | @reparent r | @zombie r | @reap r =>
    have mine : r = p := after.unique (p := r) (by simp [goto, Place.holds]) holds
    subst mine
    simp [goto, Scans]

/-! ## Runs -/

/-- What holds in every state of the process table. -/
structure Sound (initproc : Fin n) (s : State n) : Prop where
  family : Family initproc s
  locked : Locked Place.holds s.waitLock s.place
  scans : ∀ p, Scans s p (s.place p)

theorem Sound.effect (sound : Sound initproc s) (effect : Effect initproc s actor t) :
    Sound initproc t :=
  ⟨sound.family.step effect, Locked.step sound.locked sound.family effect,
    Scans.step sound.scans sound.family sound.locked effect⟩

theorem Sound.initial (initproc : Fin n) : Sound initproc (Proc.initial initproc) := by
  have places : ∀ p, (Proc.initial initproc).place p = .sched none ∨
      (Proc.initial initproc).place p = .out := by
    intro p
    by_cases same : p = initproc <;> simp [Proc.initial, same]
  refine ⟨.initial initproc, fun p => ?_, fun p => ?_⟩
  · rcases places p with here | here <;> rw [here] <;> simp [Proc.initial, Place.holds]
  · rcases places p with here | here <;> rw [here] <;> trivial

theorem Sound.run {events : List (Event n)}
    (run : Run (Step initproc) (Proc.initial initproc) events s) : Sound initproc s :=
  run.invariant (Sound initproc) (fun sound step => sound.effect step.effect) (.initial initproc)

/-! ## Answers -/

/-- `wait` has its result. -/
def Place.answers : Place n → Bool
  | .waitExit _ => true
  | _ => false

/-- What a step of a process does to its call of `wait`. -/
inductive Answers (s : State n) (p : Fin n) : State n → Prop where
  | invalid {pp : Fin n} {rest : List (Fin n)} : s.place p = .waitLook .invalid pp rest →
      (s.slot pp).state = .zombie → Answers s p (s.goto p (.waitExit (-1)))
  | refuse {addr : Addr} {havekids : Bool} : s.place p = .waitTest addr havekids →
      havekids = false ∨ (s.slot p).killed = true → Answers s p (s.goto p (.waitExit (-1)))
  | reap {addr : Addr} {pp : Fin n} {rest : List (Fin n)} : s.place p = .waitLook addr pp rest →
      (s.slot pp).state = .zombie → addr ≠ .invalid →
      Answers s p ((s.reap p pp addr).goto p (.waitExit (s.slot pp).pid))
  | silent {t : State n} : t.reaped = s.reaped → (t.place p).answers = false → Answers s p t

theorem Answers.goto {new : Place n} (other : new.answers = false) {u : State n}
    (same : u.reaped = s.reaped) : Answers s p (u.goto p new) := by
  refine .silent same ?_
  rwa [place_goto, if_pos rfl]

theorem Effect.answers (effect : Effect initproc s (some p) t) : Answers s p t := by
  cases effect with
  | move moves =>
    generalize old : s.place p = place at moves
    cases moves with
    | lookInvalid dead => exact .invalid old dead
    | testExit isOver => exact .refuse old isOver
    | _ => exact .goto rfl rfl
  | enter enters =>
    refine .goto ?_ rfl
    generalize s.place p = old at enters
    cases enters <;> rfl
  | leave leaves =>
    refine .goto ?_ rfl
    generalize s.place p = old at leaves
    cases leaves <;> rfl
  | visit visits =>
    refine .goto ?_ (sameHistory_rouse ..).reaped
    generalize s.place p = old at visits
    cases visits <;> rfl
  | @resume _ wait => exact .goto (by cases wait <;> rfl) rfl
  | reap here _ dead valid => exact .reap here dead valid
  | _ => exact .goto rfl rfl

theorem ProcState.kind_zombie : state.kind = .zombie ↔ state = .zombie := by
  cases state <;> decide

theorem ProcState.kind_dead : state.kind = .dead ↔ state = .unused := by
  cases state <;> decide

section

variable (sound : Sound initproc s)
include sound

/-- While a process holds `wait_lock` in `wait`, nobody else is giving away children. -/
theorem Sound.exited_of_gone (holds : (s.place p).holds = true)
    (stays : (s.place p).heirs = none) (gone : s.Gone b) : s.exited b ≠ none := by
  refine gone.resolve_right ?_
  rintro ⟨r, -, leaving⟩
  have inside : (s.place r).holds = true := by
    cases here : s.place r <;> rw [here] at leaving <;> first
      | rfl
      | exact absurd rfl leaving
  rw [sound.locked.unique inside holds] at leaving
  exact leaving stays

/-! ## Exits and their reports -/

/-- How the exits of processes are reported to their parents. -/
structure Reports (initproc : Fin n) (s : State n) : Prop where
  -- a process that has exited is a zombie, whose parent lives, or it was returned once and is gone
  once : ∀ b status, s.exited b = some status →
    (∃ c q, (s.slot c).state = .zombie ∧ (s.slot c).born = b ∧ (s.slot c).xstate = status ∧
      (s.slot c).parent = some q ∧ (s.slot q).state.kind = .live) ∧ s.reaps b = 0 ∨
    (∀ c, (s.slot c).state ≠ .unused → (s.slot c).born ≠ b) ∧ s.reaps b = 1
  -- what was returned has exited, and the pid and the status are its own
  own : ∀ r ∈ s.reaped, ∃ status, s.exited r.child = some status ∧ r.pid = s.pids r.child ∧
    (r.status = none ∨ r.status = some status)
  -- a process ends with the status that it gave
  status : ∀ p status memory t, s.place p = .exitLock status →
    Step initproc s (.step p memory) t → t.exited (s.slot p).born = some status
  -- a child is returned to its creator, or to the first process if the creator has exited; the
  -- status is copied if there is an address for it
  parent : ∀ p memory t r, Step initproc s (.step p memory) t → t.reaped = r :: s.reaped →
    ∃ addr pp rest, s.place p = .waitLook addr pp rest ∧ addr ≠ .invalid ∧
      (s.slot pp).state = .zombie ∧ (s.slot pp).parent = some p ∧ r = {
        child := (s.slot pp).born, reaper := (s.slot p).born, pid := (s.slot pp).pid
        status := if addr = .null then none else some (s.slot pp).xstate } ∧
      t.place p = .waitExit r.pid ∧
      ((s.slot p).born = (s.slot pp).creator ∧ s.exited (s.slot pp).creator = none ∨
        p = initproc ∧ s.exited (s.slot pp).creator ≠ none)
  -- `wait` fails if there are no children, or the process was killed, or the address is wrong, and
  -- then the child stays as it is
  failure : ∀ p memory t, Step initproc s (.step p memory) t → t.reaped = s.reaped →
    t.place p = .waitExit (-1) →
    (∀ c, (s.slot c).parent ≠ some p) ∨ (s.slot p).killed = true ∨
      ∃ pp rest, s.place p = .waitLook .invalid pp rest ∧ (t.slot pp).state = .zombie ∧
        (t.slot pp).parent = some p ∧ t.slot = s.slot

theorem Sound.once {status : Int32} (isOver : s.exited b = some status) :
    (∃ c q, (s.slot c).state = .zombie ∧ (s.slot c).born = b ∧ (s.slot c).xstate = status ∧
      (s.slot c).parent = some q ∧ (s.slot q).state.kind = .live) ∧ s.reaps b = 0 ∨
    (∀ c, (s.slot c).state ≠ .unused → (s.slot c).born ≠ b) ∧ s.reaps b = 1 := by
  have family := sound.family
  refine (family.past b (by simp [isOver])).imp (And.imp ?_ id) (And.imp ?_ id)
  · rintro ⟨c, dead, rfl⟩
    have same := family.zombie c dead
    rw [isOver, Option.some.injEq] at same
    have other : c ≠ initproc := by
      rintro rfl
      rw [family.init.1] at dead
      cases dead
    obtain ⟨q, parent⟩ := Option.ne_none_iff_exists'.mp (family.orphan c (.inr dead) other)
    exact ⟨c, q, ProcState.kind_zombie.mp dead, rfl, same.symm, parent, family.parent c q parent⟩
  · exact fun away c used => away c (mt ProcState.kind_dead.mp used)

theorem Sound.parent {addr : Addr} {pp : Fin n} {rest : List (Fin n)}
    (here : s.place p = .waitLook addr pp rest) : (s.slot pp).parent = some p ∧
      ((s.slot p).born = (s.slot pp).creator ∧ s.exited (s.slot pp).creator = none ∨
        p = initproc ∧ s.exited (s.slot pp).creator ≠ none) := by
  have scans := sound.scans p
  rw [here] at scans
  have live := sound.family.live here rfl
  refine ⟨scans.1,
    (sound.family.heir pp p scans.1).imp (fun creator => ⟨creator, ?_⟩) (And.imp id ?_)⟩
  · exact creator ▸ sound.family.alive p (.inl live)
  · exact sound.exited_of_gone (p := p) (by rw [here]; rfl) (by rw [here]; rfl)

end

/-- **Every process that exits is returned by one `wait`**, of its creator, or of the first
process once the creator has exited. -/
theorem children_reaped_once {events : List (Event n)}
    (run : Run (Step initproc) (initial initproc) events s) : Reports initproc s := by
  have sound := Sound.run run
  constructor
  case once => exact fun b status => sound.once
  case own => exact sound.family.reaped
  case status =>
    intro p status memory t here stepped
    unfold Step next at stepped
    simp only [advance, here, Option.some.injEq] at stepped
    rw [← stepped]
    exact update_self ..
  case parent =>
    intro p memory t r stepped grown
    cases (Step.effect stepped).answers with
    | invalid | refuse => exact absurd grown.symm (List.cons_ne_self _ _)
    | silent same => exact absurd (grown.symm.trans same) (List.cons_ne_self _ _)
    | @reap addr pp rest here dead valid =>
      obtain ⟨child, maker⟩ := sound.parent here
      obtain ⟨rfl, -⟩ := List.cons.inj grown
      exact ⟨addr, pp, rest, here, valid, dead, child, rfl, update_self .., maker⟩
  case failure =>
    intro p memory t stepped same failed
    cases (Step.effect stepped).answers with
    | @invalid pp rest here dead =>
      exact .inr (.inr ⟨pp, rest, here, dead, (sound.parent here).1, rfl⟩)
    | @refuse addr havekids here isOver =>
      rcases isOver with none | killed
      · have scans := sound.scans p
        rw [here, none] at scans
        exact .inl fun c child => nomatch (scans c child).1
      · exact .inr (.inl killed)
    | reap => exact absurd same (List.cons_ne_self _ _)
    | silent _ other =>
      rw [failed] at other
      cases other

/-- The first process forks a child, the child exits, and the first process waits. -/
def forkExitWait : List (Event 2) :=
  [.step 0 true, .call 0 .fork, .step 0 true, .step 0 true, .step 0 true, .step 0 true,
    .step 0 true, .step 1 true, .call 1 (.exit 7), .step 1 true, .step 1 true, .step 1 true,
    .step 1 true, .step 1 true, .step 1 true, .step 1 true, .step 1 true, .step 1 true,
    .step 1 true, .call 0 (.wait .valid), .step 0 true, .step 0 true, .step 0 true, .step 0 true]

theorem children_reaped_once_forkExitWait :
    ∃ s, Run (Step 0) (initial 0) forkExitWait s ∧ Reports 0 s ∧
      s.reaped = [{ child := 1, reaper := 0, pid := 2, status := some 7 }] := by
  have executed : forkExitWait.foldlM (next 0) (initial 0) = some _ := rfl
  have run := Run.of_execute executed
  exact ⟨_, run, children_reaped_once run, rfl⟩

end Xv6.Proc
