import Xv6.Proc.Table

/-!
# Parents and children

Every process but the first has a parent that lives: the process that has created it,
or the first one once that process is leaving. A process that has exited is a zombie
in its slot until its parent's `wait` returns it, and then it is gone for good.
-/

namespace Xv6.Proc

open Function State

variable {n : Nat}

inductive Kind where
  | dead
  | new
  | live
  | zombie
  deriving DecidableEq

def ProcState.kind : ProcState → Kind
  | .unused => .dead
  | .used => .new
  | .sleeping | .runnable | .running => .live
  | .zombie => .zombie

/-- What the relations between processes depend on. -/
structure Core (n : Nat) where
  kind : Kind
  parent : Option (Fin n)
  born : Nat
  creator : Nat
  xstate : Int32
  pid : Int32

def Slot.core (slot : Slot n) : Core n :=
  { slot with kind := slot.state.kind }

def State.core (s : State n) (p : Fin n) : Core n := (s.slot p).core

namespace Place

/-- The kinds of slots that a place goes with. -/
def fits (place : Place n) (kind : Kind) : Prop :=
  match place with
  | .out => kind ≠ .live
  | .exitRelease | .exitSched => kind = .zombie
  | _ => kind = .live

/-- The slot that a `fork` is setting up. -/
def forks : Place n → Option (Fin n)
  | .forkParent np | .forkRun np => some np
  | _ => none

/-- The slots where a process that is leaving can still have children. -/
def heirs : Place n → Option (List (Fin n))
  | .exitReparent _ rest | .exitWakeInit _ rest _ => some rest
  | .exitWakeParent .. | .exitLock _ => some []
  | _ => none

def exits : Place n → Bool
  | .exitEnter _ | .exitReparent .. | .exitWakeInit .. | .exitWakeParent .. | .exitLock _
  | .exitRelease | .exitSched => true
  | _ => false

end Place

/-- The process with that number has exited or is giving away its children. -/
def State.Gone (s : State n) (b : Nat) : Prop :=
  s.exited b ≠ none ∨ ∃ r, (s.core r).born = b ∧ (s.place r).heirs ≠ none

/-- How often a process was returned by `wait`. -/
def State.reaps (s : State n) (b : Nat) : Nat := s.reaped.countP fun r => r.child = b

structure Family (initproc : Fin n) (s : State n) : Prop where
  fits : ∀ p, (s.place p).fits (s.core p).kind
  forks : ∀ p np, (s.place p).forks = some np →
    (s.core np).kind = .new ∧ (s.core np).creator = (s.core p).born
  unset : ∀ p np, s.place p = .forkParent np → (s.core np).parent = none
  set : ∀ p np, s.place p = .forkRun np → (s.core np).parent = some p
  bound : ∀ p, (s.core p).kind ≠ .dead → (s.core p).born < s.births
  distinct : ∀ p q, (s.core p).kind ≠ .dead → (s.core q).kind ≠ .dead →
    (s.core p).born = (s.core q).born → p = q
  init : (s.core initproc).kind = .live ∧ (s.place initproc).exits = false
  dead : ∀ c, (s.core c).kind = .dead → (s.core c).parent = none
  parent : ∀ c q, (s.core c).parent = some q → (s.core q).kind = .live
  heir : ∀ c q, (s.core c).parent = some q → (s.core q).born = (s.core c).creator ∨
    q = initproc ∧ s.Gone (s.core c).creator
  orphan : ∀ c, (s.core c).kind = .live ∨ (s.core c).kind = .zombie → c ≠ initproc →
    (s.core c).parent ≠ none
  children : ∀ p rest c, (s.place p).heirs = some rest → (s.core c).parent = some p → c ∈ rest
  alive : ∀ q, (s.core q).kind = .live ∨ (s.core q).kind = .new → s.exited (s.core q).born = none
  future : ∀ b, s.births ≤ b → s.exited b = none
  zombie : ∀ q, (s.core q).kind = .zombie → s.exited (s.core q).born = some (s.core q).xstate
  past : ∀ b, s.exited b ≠ none →
    (∃ c, (s.core c).kind = .zombie ∧ (s.core c).born = b) ∧ s.reaps b = 0 ∨
    (∀ c, (s.core c).kind ≠ .dead → (s.core c).born ≠ b) ∧ s.reaps b = 1
  reaped : ∀ r ∈ s.reaped, ∃ status, s.exited r.child = some status ∧
    r.pid = s.pids r.child ∧ (r.status = none ∨ r.status = some status)
  pids : ∀ c, (s.core c).kind ≠ .dead → (s.core c).pid = s.pids (s.core c).born

section Steps

variable {initproc p : Fin n} {actor : Option (Fin n)} {s t : State n} {new : Place n}
  {f : Slot n → Slot n} {b : Nat}

@[simp] theorem core_goto (s : State n) (p : Fin n) (new : Place n) :
    (s.goto p new).core = s.core := rfl

theorem core_setSlot (s : State n) (p : Fin n) (f : Slot n → Slot n) :
    (s.setSlot p f).core = update s.core p (f (s.slot p)).core := by
  funext q
  by_cases same : q = p
  · subst same
    simp [core, setSlot]
  · simp [core, setSlot, same]

theorem core_setSlot_same (s : State n) (p : Fin n)
    (same : (f (s.slot p)).core = (s.slot p).core) : (s.setSlot p f).core = s.core := by
  rw [core_setSlot, same]
  exact update_eq_self ..

theorem core_rouse (s : State n) (p : Fin n) (chan : Chan n) : (s.rouse p chan).core = s.core := by
  unfold rouse
  split
  next asleep =>
    refine core_setSlot_same s p ?_
    simp [Slot.core, asleep.1, ProcState.kind]
  next => rfl

theorem core_kill (s : State n) (p : Fin n) : (s.kill p).core = s.core := by
  refine core_setSlot_same s p ?_
  simp only [Slot.core]
  split
  next asleep => simp [asleep, ProcState.kind]
  next => rfl

theorem place_rouse (s : State n) (p : Fin n) (chan : Chan n) :
    (s.rouse p chan).place = s.place := by
  unfold rouse
  split <;> rfl

/-- The history is that of another state. -/
structure SameHistory (s t : State n) : Prop where
  births : t.births = s.births
  exited : t.exited = s.exited
  pids : t.pids = s.pids
  reaped : t.reaped = s.reaped

theorem sameHistory_rouse (s : State n) (p : Fin n) (chan : Chan n) :
    SameHistory s (s.rouse p chan) := by
  unfold rouse
  split <;> exact ⟨rfl, rfl, rfl, rfl⟩

/-- The slots of two states differ in the parents at most. -/
structure SameButParent (s t : State n) : Prop where
  kind : ∀ q, (t.core q).kind = (s.core q).kind
  born : ∀ q, (t.core q).born = (s.core q).born
  creator : ∀ q, (t.core q).creator = (s.core q).creator
  xstate : ∀ q, (t.core q).xstate = (s.core q).xstate
  pid : ∀ q, (t.core q).pid = (s.core q).pid

theorem SameButParent.of_eq (core : t.core = s.core) : SameButParent s t := by
  constructor <;> simp [core]

theorem State.Gone.of_same (gone : s.Gone b) (exited : ∀ b, s.exited b ≠ none → t.exited b ≠ none)
    (kept : ∀ r, (s.place r).heirs ≠ none →
      (t.core r).born = (s.core r).born ∧ (t.place r).heirs ≠ none) : t.Gone b := by
  refine gone.imp (exited b) ?_
  rintro ⟨r, number, leaving⟩
  exact ⟨r, (kept r leaving).1.trans number, (kept r leaving).2⟩

theorem Gone.mono (same : SameButParent s t) (exited : t.exited = s.exited)
    (place : t.place = update s.place p new)
    (leaves : new.heirs = none → (s.place p).heirs = none) (gone : s.Gone b) : t.Gone b := by
  rcases gone with isOver | ⟨r, number, leaving⟩
  · exact .inl (by rwa [exited])
  · refine .inr ⟨r, by rwa [same.born], ?_⟩
    rw [place]
    by_cases here : r = p
    · subst here
      rw [update_self]
      exact fun none => leaving (leaves none)
    · rwa [update_of_ne here]

section

variable (family : Family initproc s) {np q : Fin n} {rest : List (Fin n)} {result : Int32}
  {status : Int32}
include family

theorem Family.relink (same : SameButParent s t)
    (history : SameHistory s t) (place : t.place = update s.place p new)
    (fits : new.fits (s.core p).kind)
    (forks : ∀ np, new.forks = some np → (s.place p).forks = some np)
    (exits : p = initproc → new.exits = false)
    (unset : ∀ q np, t.place q = .forkParent np → (t.core np).parent = none)
    (set : ∀ q np, t.place q = .forkRun np → (t.core np).parent = some q)
    (dead : ∀ c, (s.core c).kind = .dead → (t.core c).parent = none)
    (parent : ∀ c q, (t.core c).parent = some q → (s.core q).kind = .live)
    (heir : ∀ c q, (t.core c).parent = some q → (s.core q).born = (s.core c).creator ∨
      q = initproc ∧ t.Gone (s.core c).creator)
    (orphan : ∀ c, (s.core c).kind = .live ∨ (s.core c).kind = .zombie → c ≠ initproc →
      (t.core c).parent ≠ none)
    (children : ∀ q rest c, (t.place q).heirs = some rest → (t.core c).parent = some q → c ∈ rest) :
    Family initproc t := by
  obtain ⟨births, exited, pids, reaped⟩ := history
  have reaps : ∀ b, t.reaps b = s.reaps b := fun b => by rw [State.reaps, State.reaps, reaped]
  constructor
  case fits =>
    intro q
    rw [place, same.kind]
    by_cases here : q = p
    · subst here
      rwa [update_self]
    · rw [update_of_ne here]
      exact family.fits q
  case forks =>
    intro q np forking
    rw [same.kind, same.creator, same.born]
    refine family.forks q np ?_
    rw [place] at forking
    by_cases here : q = p
    · subst here
      rw [update_self] at forking
      exact forks np forking
    · rwa [update_of_ne here] at forking
  case unset => exact unset
  case set => exact set
  case bound =>
    intro q
    rw [same.kind, same.born, births]
    exact family.bound q
  case distinct =>
    intro q r
    rw [same.kind, same.kind, same.born, same.born]
    exact family.distinct q r
  case init =>
    rw [same.kind, place]
    refine ⟨family.init.1, ?_⟩
    by_cases here : initproc = p
    · rw [← here, update_self]
      exact exits here.symm
    · rw [update_of_ne here]
      exact family.init.2
  case dead =>
    intro c
    rw [same.kind]
    exact dead c
  case parent =>
    intro c q child
    rw [same.kind]
    exact parent c q child
  case heir =>
    intro c q child
    rw [same.born, same.creator]
    exact heir c q child
  case orphan =>
    intro c
    rw [same.kind]
    exact orphan c
  case children => exact children
  case alive =>
    intro q
    rw [same.kind, same.born, exited]
    exact family.alive q
  case future => rw [births, exited]; exact family.future
  case zombie =>
    intro q
    rw [same.kind, same.born, same.xstate, exited]
    exact family.zombie q
  case past =>
    intro b
    simp only [same.kind, same.born, exited, reaps]
    exact family.past b
  case reaped => rw [exited, reaped, pids]; exact family.reaped
  case pids =>
    intro c
    rw [same.kind, same.born, same.pid, pids]
    exact family.pids c

theorem Family.calm (core : t.core = s.core)
    (history : SameHistory s t) (place : t.place = update s.place p new)
    (fits : new.fits (s.core p).kind) (forks : new.forks = none)
    (leaves : new.heirs = none → (s.place p).heirs = none)
    (children : ∀ rest c, new.heirs = some rest → (s.core c).parent = some p → c ∈ rest)
    (exits : p = initproc → new.exits = false) : Family initproc t := by
  have others : ∀ q np, (t.place q).forks = some np → t.place q = s.place q := by
    intro q np forking
    rw [place] at forking ⊢
    by_cases here : q = p
    · subst here
      rw [update_self, forks] at forking
      cases forking
    · rw [update_of_ne here]
  refine family.relink (.of_eq core) history place fits (by simp [forks]) exits ?_ ?_ ?_ ?_ ?_ ?_ ?_
  all_goals rw [core]
  · exact fun q np at_ => family.unset q np (others q np (by rw [at_]; rfl) ▸ at_)
  · exact fun q np at_ => family.set q np (others q np (by rw [at_]; rfl) ▸ at_)
  · exact family.dead
  · exact family.parent
  · intro c q child
    exact (family.heir c q child).imp id
      (And.imp id (Gone.mono (.of_eq core) history.exited place leaves))
  · exact family.orphan
  · rw [place]
    intro q rest c leaving child
    by_cases here : q = p
    · subst here
      rw [update_self] at leaving
      exact children rest c leaving child
    · rw [update_of_ne here] at leaving
      exact family.children q rest c leaving child

theorem Family.moves (moves : Moves initproc s p (s.place p) new) :
    Family initproc (s.goto p new) := by
  have fits := family.fits p
  have left := family.children p
  have stays := family.init.2
  generalize old : s.place p = place at moves fits left
  refine family.calm rfl ⟨rfl, rfl, rfl, rfl⟩ rfl ?_ ?_ ?_ ?_ ?_
  · cases moves <;> simp_all [Place.fits]
  · cases moves <;> rfl
  · rw [old]
    cases moves <;> simp [Place.heirs]
  · intro rest c leaving child
    cases moves <;> simp only [Place.heirs, Option.some.injEq, reduceCtorEq] at leaving left <;>
      subst leaving
    all_goals
      have among := left _ c rfl child
      have child : (s.slot c).parent = some p := child
      grind
  · rintro rfl
    rw [old] at stays
    cases moves <;> simp_all [Place.exits]

theorem Family.enters (enters : Enters (s.place p) new)
    {lock : Option (Fin n)} : Family initproc ({ s with waitLock := lock }.goto p new) := by
  have fits := family.fits p
  have stays := family.init.2
  generalize old : s.place p = place at enters fits
  refine family.calm rfl ⟨rfl, rfl, rfl, rfl⟩ rfl ?_ ?_ ?_ ?_ ?_
  · cases enters <;> simpa [Place.fits] using fits
  · cases enters <;> rfl
  · rw [old]
    cases enters <;> simp [Place.heirs]
  · intro rest c leaving child
    cases enters <;> simp only [Place.heirs, Option.some.injEq, reduceCtorEq] at leaving
    subst leaving
    exact List.mem_finRange c
  · rintro rfl
    rw [old] at stays
    cases enters
    · cases stays
    · rfl

theorem Family.leaves (leaves : Leaves (s.place p) new) : Family initproc (s.leave p new) := by
  have fits := family.fits p
  have stays := family.init.2
  generalize old : s.place p = place at leaves fits
  refine family.calm rfl ⟨rfl, rfl, rfl, rfl⟩ rfl ?_ ?_ ?_ ?_ ?_
  · cases leaves <;> simpa [Place.fits] using fits
  · cases leaves <;> rfl
  · rw [old]
    cases leaves <;> simp [Place.heirs]
  · intro rest c leaving child
    cases leaves <;> simp [Place.heirs] at leaving
  · rintro rfl
    rw [old] at stays
    cases leaves
    · cases stays
    · rfl
    · rfl

/-- A process changes its own state, and goes to a place where it lives on. -/
theorem Family.own (same : (f (s.slot p)).core = (s.slot p).core) (heirs : (s.place p).heirs = none)
    (live : new.fits .live) (kind : (s.core p).kind = .live) (forks : new.forks = none)
    (after : new.heirs = none) (exits : new.exits = false) :
    Family initproc ((s.setSlot p f).goto p new) :=
  family.calm (core_setSlot_same s p same) ⟨rfl, rfl, rfl, rfl⟩ rfl (kind ▸ live) forks
    (fun _ => heirs) (by simp [after]) (fun _ => exits)

theorem Family.live {place : Place n} (here : s.place p = place)
    (fits : place.fits = (· = .live)) : (s.core p).kind = .live := by
  have known := family.fits p
  rwa [here, fits] at known

theorem Family.heirs_of_not_live (not : (s.core p).kind ≠ .live) :
    (s.place p).heirs = none ∧ (s.place p).forks = none := by
  have fits := family.fits p
  cases here : s.place p <;> rw [here] at fits <;> first
    | exact ⟨rfl, rfl⟩
    | exact absurd fits not

theorem Family.live_of_forks (forks : (s.place p).forks = some np) : (s.core p).kind = .live := by
  have fits := family.fits p
  cases here : s.place p <;> rw [here] at fits forks <;> first
    | exact fits
    | cases forks

theorem Family.fork_unique
    (first : (s.place p).forks = some np) (second : (s.place q).forks = some np) : p = q := by
  refine family.distinct p q ?_ ?_ ?_
  · rw [family.live_of_forks first]
    nofun
  · rw [family.live_of_forks second]
    nofun
  · exact (family.forks p np first).2.symm.trans (family.forks q np second).2

theorem Family.init_heirs : (s.place initproc).heirs = none := by
  have stays := family.init.2
  cases here : s.place initproc <;> rw [here] at stays <;> first
    | rfl
    | cases stays

omit family in
theorem core_create (s : State n) (p np q : Fin n) : (s.create p np).core q =
      if q = np then { s.core np with
        kind := .new, born := s.births, creator := (s.core p).born, pid := s.nextpid }
      else s.core q := by
  simp only [State.create, core_goto, core_setSlot, update_apply]
  split <;> rfl

omit family in
theorem place_create (s : State n) (p np q : Fin n) :
    (s.create p np).place q = if q = p then .forkParent np else s.place q := by
  simp only [State.create, State.goto, update_apply]
  rfl

theorem Family.create (here : s.place p = .forkScan rest) (unused : (s.slot np).state = .unused) :
    Family initproc (s.create p np) := by
  have live := family.live here rfl
  have dead : (s.core np).kind = .dead := by
    simp [State.core, Slot.core, unused, ProcState.kind]
  obtain ⟨noHeirs, noForks⟩ := family.heirs_of_not_live (p := np) (by simp [dead])
  have self : p ≠ np := by
    rintro rfl
    rw [live] at dead
    cases dead
  have core := core_create s p np
  have place := place_create s p np
  have births : (s.create p np).births = s.births + 1 := rfl
  have exited : ∀ b, (s.create p np).exited b = s.exited b := fun _ => rfl
  have pids : ∀ b, (s.create p np).pids b = if b = s.births then s.nextpid else s.pids b :=
    fun b => update_apply ..
  have reaped : (s.create p np).reaped = s.reaped := rfl
  have gone : ∀ b, s.Gone b → (s.create p np).Gone b :=
    fun b gone => gone.of_same (fun _ => id) fun r leaving => by grind [Place.heirs]
  have reaps : ∀ b, (s.create p np).reaps b = s.reaps b := fun _ => rfl
  generalize s.create p np = t at *
  obtain ⟨f1, f2, f3, f4, f5, f6, f7, f8, f9, f10, f11, f12, f13, f14, f15, f16, f17, f18⟩ := family
  constructor
  case fits =>
    intro q
    rw [core, place]
    by_cases mover : q = p
    · simp [mover, self, Place.fits, live]
    · by_cases child : q = np
      · have fits := f1 np
        subst child
        simp only [if_neg mover, if_true]
        revert fits
        rw [dead]
        cases s.place q <;> simp [Place.fits]
      · simpa [mover, child] using f1 q
  case forks => grind [Place.forks]
  case unset => grind [Place.forks]
  case set => grind [Place.forks]
  case bound => grind
  case distinct => grind
  case init => grind [Place.exits]
  case dead => grind
  case parent => grind
  case heir => grind
  case orphan => grind
  case children => grind [Place.heirs]
  case alive => grind
  case future => grind
  case zombie => grind
  case past => grind
  case reaped => grind
  case pids => grind

omit family in
theorem core_setSlot_apply (s : State n) (p q : Fin n) (f : Slot n → Slot n) (new : Place n) :
    ((s.setSlot p f).goto q new).core = fun r =>
      if r = p then (f (s.slot p)).core else s.core r := by
  funext r
  rw [core_goto, core_setSlot, update_apply]

omit family in
theorem place_goto (s : State n) (p q : Fin n) (new : Place n) :
    (s.goto p new).place q = if q = p then new else s.place q :=
  update_apply ..

theorem Family.fail (here : s.place p = .forkScan rest) (unused : (s.slot np).state = .unused) :
    Family initproc (s.fail p np) := by
  have live := family.live here rfl
  have dead : (s.core np).kind = .dead := by
    simp [State.core, Slot.core, unused, ProcState.kind]
  obtain ⟨noHeirs, noForks⟩ := family.heirs_of_not_live (p := np) (by simp [dead])
  have core : ∀ q, (s.fail p np).core q = if q = np then
      ⟨.dead, none, (s.core np).born, (s.core np).creator, 0, 0⟩ else s.core q :=
    congrFun (core_setSlot_apply s.allocpid np p _ _)
  have place : ∀ q, (s.fail p np).place q = if q = p then .ret (-1) else s.place q :=
    fun q => place_goto ..
  have births : (s.fail p np).births = s.births + 1 := rfl
  have exited : ∀ b, (s.fail p np).exited b = s.exited b := fun _ => rfl
  have pids : ∀ b, (s.fail p np).pids b = if b = s.births then s.nextpid else s.pids b :=
    fun b => update_apply ..
  have reaped : (s.fail p np).reaped = s.reaped := rfl
  have reaps : ∀ b, (s.fail p np).reaps b = s.reaps b := fun _ => rfl
  have gone : ∀ b, s.Gone b → (s.fail p np).Gone b :=
    fun b gone => gone.of_same (fun _ => id) fun r leaving => by grind [Place.heirs]
  generalize s.fail p np = t at *
  cases family
  constructor
  case fits =>
    intro q
    rw [core, place]
    grind [Place.fits]
  all_goals grind [Place.forks, Place.heirs, Place.exits]

omit family in
theorem sameButParent_setSlot (s : State n) (q : Fin n) (parent : Option (Fin n)) (p : Fin n)
    (new : Place n) :
    SameButParent s ((s.setSlot q fun slot => { slot with parent := parent }).goto p new) := by
  constructor <;>
    · intro r
      rw [core_setSlot_apply]
      by_cases here : r = q
      · subst here
        simp [Slot.core, State.core]
      · simp [here]

omit family in
theorem parent_setSlot (s : State n) (q : Fin n) (parent : Option (Fin n)) (p : Fin n)
    (new : Place n) (r : Fin n) :
    (((s.setSlot q fun slot => { slot with parent := parent }).goto p new).core r).parent =
      if r = q then parent else (s.core r).parent := by
  rw [core_setSlot_apply]
  simp only
  split <;> rfl

theorem Family.adopt {c x : Fin n} (kind : (s.core c).kind ≠ .dead)
    (live : (s.core x).kind = .live) (fits : new.fits (s.core p).kind)
    (forks : ∀ np, new.forks = some np → (s.place p).forks = some np)
    (exits : p = initproc → new.exits = false)
    (alone : ∀ q np, q ≠ p → (s.place q).forks = some np → np ≠ c)
    (unset : ∀ np, new ≠ .forkParent np) (set : ∀ np, new = .forkRun np → np = c ∧ x = p)
    (leaves : new.heirs = none → (s.place p).heirs = none)
    (heir : (s.core x).born = (s.core c).creator ∨ x = initproc ∧
      State.Gone ((s.setSlot c fun slot => { slot with parent := some x }).goto p new)
        (s.core c).creator)
    (children : ∀ rest r, new.heirs = some rest → r = c ∧ x = p ∨ r ≠ c ∧
    (s.core r).parent = some p →
      r ∈ rest) (away : x ≠ p → (s.place x).heirs = none) :
    Family initproc ((s.setSlot c fun slot => { slot with parent := some x }).goto p new) := by
  have parents := parent_setSlot s c (some x) p new
  have same := sameButParent_setSlot s c (some x) p new
  have place : ((s.setSlot c fun slot => { slot with parent := some x }).goto p new).place =
    update s.place p new := rfl
  refine family.relink same ⟨rfl, rfl, rfl, rfl⟩ place fits forks exits ?_ ?_ ?_ ?_ ?_ ?_ ?_
  · intro q np at_
    have mover : q ≠ p := by
      rintro rfl
      rw [place, update_self] at at_
      exact unset np at_
    rw [place, update_of_ne mover] at at_
    rw [parents, if_neg (alone q np mover (by rw [at_]; rfl))]
    exact family.unset q np at_
  · intro q np at_
    by_cases mover : q = p
    · subst mover
      rw [place, update_self] at at_
      obtain ⟨rfl, rfl⟩ := set np at_
      rw [parents, if_pos rfl]
    · rw [place, update_of_ne mover] at at_
      rw [parents, if_neg (alone q np mover (by rw [at_]; rfl))]
      exact family.set q np at_
  · intro r dead
    have apart : r ≠ c := by
      rintro rfl
      exact kind dead
    rw [parents, if_neg apart]
    exact family.dead r dead
  · intro r q child
    rw [parents] at child
    split at child
    · cases child
      exact live
    · exact family.parent r q child
  · intro r q child
    rw [parents] at child
    split at child
    next mine =>
      cases child
      rw [mine]
      exact heir
    · exact (family.heir r q child).imp id (And.imp id (Gone.mono same rfl place leaves))
  · intro r old other
    rw [parents]
    split
    · nofun
    · exact family.orphan r old other
  · intro q rest r leaving child
    rw [parents] at child
    by_cases mover : q = p
    · subst mover
      rw [place, update_self] at leaving
      refine children rest r leaving ?_
      split at child
      next mine => exact .inl ⟨mine, Option.some.inj child⟩
      next apart => exact .inr ⟨apart, child⟩
    · rw [place, update_of_ne mover] at leaving
      split at child
      · cases child
        rw [away mover] at leaving
        cases leaving
      · exact family.children q rest r leaving child

theorem Family.setParent (here : s.place p = .forkParent np) : Family initproc
      ((s.setSlot np fun slot => { slot with parent := some p }).goto p (.forkRun np)) := by
  have live := family.live here rfl
  have forks : (s.place p).forks = some np := by rw [here]; rfl
  obtain ⟨kind, creator⟩ := family.forks p np forks
  refine family.adopt (by simp [kind]) live live (fun _ => ?_) (fun _ => rfl) ?_ nofun ?_ ?_
    (.inl creator.symm) nofun (absurd rfl)
  · rintro ⟨⟩
    exact forks
  · rintro q _ other there rfl
    exact other (family.fork_unique there forks)
  · rintro _ ⟨⟩
    exact ⟨rfl, rfl⟩
  · simp [here, Place.heirs]

theorem Family.run (here : s.place p = .forkRun np) :
    Family initproc (((s.setSlot np fun slot => { slot with state := .runnable }).goto np
      (.sched none)).goto p (.ret result)) := by
  have live := family.live here rfl
  obtain ⟨kind, creator⟩ := family.forks p np (by rw [here]; rfl)
  have set := family.set p np here
  have only : ∀ q, (s.place q).forks = some np → q = p :=
    fun q other => family.fork_unique other (by rw [here]; rfl)
  obtain ⟨noHeirs, noForks⟩ := family.heirs_of_not_live (p := np) (by simp [kind])
  generalize after : (((s.setSlot np fun slot => { slot with state := .runnable }).goto np
      (.sched none)).goto p (.ret result)) = t
  have core : ∀ q, t.core q = if q = np then { s.core np with kind := .live } else s.core q := by
    rw [← after, core_goto]
    exact congrFun (core_setSlot_apply s np np _ _)
  have place : ∀ q, t.place q =
      if q = p then .ret result else if q = np then .sched none else s.place q := by
    intro q
    rw [← after, place_goto, place_goto]
    rfl
  have births : t.births = s.births := by rw [← after]; rfl
  have exited : ∀ b, t.exited b = s.exited b := by rw [← after]; exact fun _ => rfl
  have pids : ∀ b, t.pids b = s.pids b := by rw [← after]; exact fun _ => rfl
  have reaped : t.reaped = s.reaped := by rw [← after]; rfl
  have reaps : ∀ b, t.reaps b = s.reaps b := by rw [← after]; exact fun _ => rfl
  have gone : ∀ b, s.Gone b → t.Gone b :=
    fun b gone => gone.of_same (by simp [exited]) fun r leaving => by grind [Place.heirs]
  clear after
  obtain ⟨f1, f2, f3, f4, f5, f6, f7, f8, f9, f10, f11, f12, f13, f14, f15, f16, f17, f18⟩ := family
  constructor
  case fits =>
    intro q
    rw [core, place]
    grind [Place.fits]
  case forks =>
    intro q np' forking
    have before : (s.place q).forks = some np' := by grind [Place.forks]
    have known := f2 q np' before
    grind [Place.forks]
  case past =>
    intro b isOver
    rw [exited] at isOver
    rcases f16 b isOver with ⟨⟨c, dead, same⟩, zero⟩ | ⟨away, once⟩
    · exact .inl ⟨⟨c, by grind, by grind⟩, by grind⟩
    · exact .inr ⟨by grind, by grind⟩
  all_goals grind [Place.forks, Place.heirs, Place.exits]

theorem Family.reparent (here : s.place p = .exitReparent status (q :: rest))
    (child : (s.slot q).parent = some p) :
    Family initproc ((s.setSlot q fun slot => { slot with parent := some initproc }).goto p
      (.exitWakeInit status rest (List.finRange n))) := by
  have live := family.live here rfl
  have child : (s.core q).parent = some p := child
  have other : p ≠ initproc := by
    rintro rfl
    have stays := family.init.2
    rw [here] at stays
    cases stays
  have creator : (s.core p).born = (s.core q).creator :=
    (family.heir q p child).resolve_right fun wrong => other wrong.1
  refine family.adopt ?_ family.init.1 live nofun
    (fun wrong => absurd wrong other) ?_ nofun nofun ?_
    (.inr ⟨rfl, .inr ⟨p, ?_, ?_⟩⟩) ?_ fun _ => family.init_heirs
  · intro dead
    rw [family.dead q dead] at child
    cases child
  · -- the slot has its parent already, and it is another process
    rintro r _ mover there rfl
    cases at_ : s.place r <;> rw [at_] at there <;> cases there
    · rw [family.unset r _ at_] at child
      cases child
    · rw [family.set r _ at_] at child
      exact mover (Option.some.inj child)
  · simp [Place.heirs]
  · rw [(sameButParent_setSlot s q (some initproc) p _).born, creator]
  · simp [goto, Place.heirs]
  · rintro _ r ⟨⟩ (⟨-, mine⟩ | ⟨apart, mine⟩)
    · exact absurd mine.symm other
    · have among := family.children p (q :: rest) r (by rw [here]; rfl) mine
      exact (List.mem_cons.mp among).resolve_left apart

theorem Family.becomeZombie (here : s.place p = .exitLock status) :
    Family initproc ((s.zombie p status).goto p .exitRelease) := by
  have live := family.live here rfl
  have none : ∀ c, (s.core c).parent ≠ some p := by
    intro c child
    have := family.children p [] c (by rw [here]; rfl) child
    cases this
  have other : p ≠ initproc := by
    rintro rfl
    have := family.init.2
    rw [here] at this
    cases this
  have unreaped : s.reaps (s.core p).born = 0 := by
    refine List.countP_eq_zero.mpr fun r mem same => ?_
    obtain ⟨st, isOver, -⟩ := family.reaped r mem
    rw [of_decide_eq_true same, family.alive p (.inl live)] at isOver
    cases isOver
  generalize after : (s.zombie p status).goto p .exitRelease = t
  have core : ∀ r, t.core r =
      if r = p then { s.core p with kind := .zombie, xstate := status } else s.core r := by
    rw [← after]
    exact congrFun (core_setSlot_apply s p p (fun slot => { slot with
      xstate := status, state := .zombie }) .exitRelease)
  have place : ∀ r, t.place r = if r = p then .exitRelease else s.place r := by
    rw [← after]
    exact fun r => place_goto ..
  have births : t.births = s.births := by rw [← after]; rfl
  have exited : ∀ b, t.exited b = if b = (s.core p).born then some status else s.exited b := by
    rw [← after]
    exact fun b => update_apply ..
  have pids : ∀ b, t.pids b = s.pids b := by rw [← after]; exact fun _ => rfl
  have reaped : t.reaped = s.reaped := by rw [← after]; rfl
  have reaps : ∀ b, t.reaps b = s.reaps b := by rw [← after]; exact fun _ => rfl
  have gone : ∀ b, s.Gone b → t.Gone b := by
    intro b gone
    by_cases mine : b = (s.core p).born
    · exact .inl (by simp [exited, mine])
    · rcases gone with isOver | ⟨r, same, giving⟩
      · exact .inl (by rwa [exited, if_neg mine])
      · have apart : r ≠ p := by
          rintro rfl
          exact mine same.symm
        exact .inr ⟨r, by rwa [core, if_neg apart], by rwa [place, if_neg apart]⟩
  clear after
  cases family
  constructor
  case fits =>
    intro r
    rw [core, place]
    grind [Place.fits]
  all_goals grind [Place.forks, Place.heirs, Place.exits]

theorem Family.reapChild {pp : Fin n} {addr : Addr} (here : s.place p = .waitLook addr pp rest)
    (free : s.free pp = true) (dead : (s.slot pp).state = .zombie) :
    Family initproc ((s.reap p pp addr).goto p (.waitExit result)) := by
  have live := family.live here rfl
  have dead : (s.core pp).kind = .zombie := by
    simp [State.core, Slot.core, dead, ProcState.kind]
  have isOver := family.zombie pp dead
  have out : s.place pp = .out := by
    have fits := family.fits pp
    rw [dead] at fits
    unfold State.free at free
    cases there : s.place pp <;> rw [there] at fits free <;> simp_all [Place.fits, Place.locks]
  obtain ⟨noHeirs, noForks⟩ := family.heirs_of_not_live (p := pp) (by simp [dead])
  have unreaped : s.reaps (s.core pp).born = 0 := by
    rcases family.past (s.core pp).born (by simp [isOver]) with ⟨-, zero⟩ | ⟨away, -⟩
    · exact zero
    · exact absurd rfl (away pp (by simp [dead]))
  have pid := family.pids pp (by simp [dead])
  generalize after : (s.reap p pp addr).goto p (.waitExit result) = t
  have core : ∀ r, t.core r = if r = pp then
      ⟨.dead, none, (s.core pp).born, (s.core pp).creator, 0, 0⟩ else s.core r := by
    rw [← after]
    exact congrFun (core_setSlot_apply s pp p Slot.freeproc (.waitExit result))
  have place : ∀ r, t.place r = if r = p then .waitExit result else s.place r := by
    rw [← after]
    exact fun r => place_goto ..
  have births : t.births = s.births := by rw [← after]; rfl
  have exited : ∀ b, t.exited b = s.exited b := by rw [← after]; exact fun _ => rfl
  have pids : ∀ b, t.pids b = s.pids b := by rw [← after]; exact fun _ => rfl
  have reaped : t.reaped = {
      child := (s.core pp).born, reaper := (s.core p).born, pid := (s.core pp).pid
      status := if addr = .null then none else some (s.core pp).xstate } :: s.reaped := by
    rw [← after]
    rfl
  have reaps : ∀ b, t.reaps b = if b = (s.core pp).born then 1 else s.reaps b := by
    intro b
    rw [State.reaps, reaped, List.countP_cons]
    by_cases mine : b = (s.core pp).born
    · rw [if_pos mine, mine]
      simpa [State.reaps] using unreaped
    · simp [mine, Ne.symm mine, State.reaps]
  have gone : ∀ b, s.Gone b → t.Gone b :=
    fun b gone => gone.of_same (by simp [exited]) fun r leaving => by grind [Place.heirs]
  clear after
  obtain ⟨f1, f2, f3, f4, f5, f6, f7, f8, f9, f10, f11, f12, f13, f14, f15, f16, f17, f18⟩ := family
  constructor
  case fits =>
    intro r
    rw [core, place]
    grind [Place.fits]
  case past =>
    intro b out
    rw [exited] at out
    rcases f16 b out with ⟨⟨c, gone, same⟩, zero⟩ | ⟨away, once⟩
    · by_cases mine : c = pp
      · exact .inr ⟨by grind, by grind⟩
      · exact .inl ⟨⟨c, by grind, by grind⟩, by grind⟩
    · exact .inr ⟨by grind, by grind⟩
  case reaped =>
    intro r mem
    rw [reaped, List.mem_cons] at mem
    rcases mem with rfl | earlier
    · refine ⟨(s.core pp).xstate, by rw [exited]; exact isOver, by rw [pids]; exact pid, ?_⟩
      by_cases null : addr = .null
      · exact .inl (if_pos null)
      · exact .inr (if_neg null)
    · rw [exited, pids]
      exact f17 r earlier
  all_goals grind [Place.forks, Place.heirs, Place.exits]

theorem Family.visit {chan : Chan n} (visits : Visits initproc s p (s.place p) q chan new) :
    Family initproc ((s.rouse q chan).goto p new) := by
  have fits := family.fits p
  have left := family.children p
  have stays := family.init.2
  generalize old : s.place p = place at visits fits left
  have history := sameHistory_rouse s q chan
  refine family.calm (core_rouse s q chan) { history with }
    (by rw [goto, place_rouse]) ?_ ?_ ?_ ?_ ?_
  · cases visits <;> simpa [Place.fits] using fits
  · cases visits <;> rfl
  · rw [old]
    cases visits <;> simp [Place.heirs]
  · intro rest c leaving child
    cases visits <;> exact left rest c leaving child
  · rintro rfl
    rw [old] at stays
    cases visits <;> cases stays

theorem Family.killed {pid : Int32} (here : s.place p = .killScan pid rest) :
    Family initproc ((s.kill q).goto p (.ret result)) :=
  family.calm (core_kill s q) ⟨rfl, rfl, rfl, rfl⟩ rfl (family.live here rfl) rfl
    (fun _ => by rw [here]; rfl) nofun (fun _ => rfl)

theorem Family.roused (chan : Chan n) : Family initproc (s.rouse p chan) := by
  have same := core_rouse s p chan
  have history := sameHistory_rouse s p chan
  have place : (s.rouse p chan).place = update s.place p (s.place p) := by
    rw [place_rouse, update_eq_self]
  refine family.relink (.of_eq same) history place (family.fits p) (fun _ => id) ?_ ?_ ?_ ?_ ?_ ?_
    ?_ ?_
  · rintro rfl
    exact family.init.2
  all_goals rw [same]
  · rw [place_rouse]; exact family.unset
  · rw [place_rouse]; exact family.set
  · exact family.dead
  · exact family.parent
  · intro c q child
    exact (family.heir c q child).imp id
      (And.imp id (Gone.mono (.of_eq same) history.exited place id))
  · exact family.orphan
  · rw [place_rouse]; exact family.children

theorem Family.step (effect : Effect initproc s actor t) : Family initproc t := by
  cases effect with
  | move moves => exact family.moves moves
  | enter enters free => exact family.enters enters
  | leave leaves => exact family.leaves leaves
  | @yield p here | @sleep p _ here | @sleepMark p _ here =>
    have live := family.live here rfl
    refine family.own ?_ (by rw [here]; rfl) rfl live rfl rfl rfl
    simp only [core, Slot.core] at live ⊢
    rw [live]
    rfl
  | @resume p wait here ready =>
    have live := family.live here rfl
    refine family.own ?_ (by rw [here]; rfl) ?_ live ?_ ?_ ?_
    · simp only [core, Slot.core] at live ⊢
      rw [live]
      rfl
    all_goals cases wait <;> rfl
  | wakeup => exact family.roused _
  | create here unused => exact family.create here unused
  | fail here unused => exact family.fail here unused
  | parent here => exact family.setParent here
  | run here => exact family.run here
  | reparent here child => exact family.reparent here child
  | visit visits => exact family.visit visits
  | zombie here => exact family.becomeZombie here
  | reap here free dead => exact family.reapChild here free dead
  | kill here => exact family.killed here

end

end Steps

theorem Family.initial (initproc : Fin n) : Family initproc (Proc.initial initproc) := by
  have kind : ∀ q, ((Proc.initial initproc).core q).kind =
      if q = initproc then .live else .dead := by
    intro q
    by_cases same : q = initproc <;> simp [Proc.initial, core, Slot.core, same, ProcState.kind]
  have parent : ∀ q, ((Proc.initial initproc).core q).parent = none := by
    intro q
    by_cases same : q = initproc <;> simp [Proc.initial, core, Slot.core, same]
  have place : ∀ q, (Proc.initial initproc).place q =
      if q = initproc then .sched none else .out := fun _ => rfl
  have exited : ∀ b, (Proc.initial initproc).exited b = none := fun _ => rfl
  have reaped : (Proc.initial initproc).reaped = [] := rfl
  have born : ∀ q, ((Proc.initial initproc).core q).born = 0 := by
    intro q
    by_cases same : q = initproc <;> simp [Proc.initial, core, Slot.core, same]
  have pid : ∀ q, q = initproc → ((Proc.initial initproc).core q).pid = 1 := by
    rintro q rfl
    simp [Proc.initial, core, Slot.core]
  have births : (Proc.initial initproc).births = 1 := rfl
  have pids : ∀ b, (Proc.initial initproc).pids b = 1 := fun _ => rfl
  generalize Proc.initial initproc = s at *
  constructor
  case fits =>
    intro q
    rw [kind, place]
    grind [Place.fits]
  all_goals grind [Place.forks, Place.heirs, Place.exits]

theorem Locked.step {initproc : Fin n} {actor : Option (Fin n)} {s t : State n}
    (locked : Locked Place.holds s.waitLock s.place) (family : Family initproc s)
    (effect : Effect initproc s actor t) : Locked Place.holds t.waitLock t.place := by
  cases effect with
  | @move p new moves =>
    refine locked.stay ?_
    generalize s.place p = old at moves
    cases moves <;> rfl
  | @enter p new enters free =>
    refine locked.enter free ?_
    generalize s.place p = old at enters
    cases enters <;> rfl
  | @leave p new leaves =>
    generalize old : s.place p = place at leaves
    refine locked.leave (p := p) ?_ ?_
    · rw [old]
      cases leaves <;> rfl
    · cases leaves <;> rfl
  | yield here | sleep here | create here | fail here | parent here | reparent here | zombie here
  | reap here | sleepMark here | kill here => exact locked.stay (by rw [here]; rfl)
  | @resume p wait here ready =>
    refine locked.stay ?_
    rw [here]
    cases wait <;> rfl
  | @wakeup p address free =>
    rw [place_rouse]
    unfold rouse
    split <;> exact locked
  | @run p np here =>
    obtain ⟨kind, -⟩ := family.forks p np (by rw [here]; rfl)
    have fits := family.fits np
    rw [kind] at fits
    have other : np ≠ p := by
      rintro rfl
      rw [here] at fits
      cases fits
    have idle : Locked Place.holds s.waitLock (update s.place np (.sched none)) := by
      refine locked.stay ?_
      cases there : s.place np <;> rw [there] at fits <;> first
        | rfl
        | cases fits
    refine idle.stay (p := p) ?_
    rw [update_of_ne (Ne.symm other), here]
    rfl
  | @visit p q chan new visits other free =>
    have lock : (s.rouse q chan).waitLock = s.waitLock := by
      unfold rouse
      split <;> rfl
    simp only [goto, place_rouse, lock]
    refine locked.stay ?_
    generalize s.place p = old at visits
    cases visits <;> rfl

end Xv6.Proc
