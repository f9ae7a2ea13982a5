import Xv6.Proc.Signals

/-!
# Pids

`allocpid` gives out the values of a 32-bit counter, one after the other, and does not
look at the processes that are there. As long as it was called at most `2^31 - 1` times,
the pids of the processes are positive and different (`pids_unique`). After that they are
neither (`pids_wrap`).
-/

namespace Xv6.Proc

open Function State

variable {n : Nat} {initproc p : Fin n} {actor : Option (Fin n)} {s t : State n} {k : Nat}

/-- The pids so far are the numbers from 1 on. -/
structure Numbered (s : State n) : Prop where
  next : s.nextpid = Int32.ofNat (s.births + 1)
  given : ∀ b < s.births, s.pids b = Int32.ofNat (b + 1)

theorem Numbered.allocpid (numbered : Numbered s) : Numbered s.allocpid := by
  refine ⟨?_, fun b bound => ?_⟩
  · change s.nextpid + 1 = Int32.ofNat (s.births + 1 + 1)
    rw [numbered.next, Int32.ofNat_add (s.births + 1) 1]
    rfl
  · change update s.pids s.births s.nextpid b = _
    by_cases last : b = s.births
    · rw [last, update_self, numbered.next]
    · rw [update_of_ne last]
      refine numbered.given b ?_
      have : b < s.births + 1 := bound
      omega

theorem Numbered.step (numbered : Numbered s) (effect : Effect initproc s actor t) :
    Numbered t := by
  have rouse (q : Fin n) (chan : Chan n) : (s.rouse q chan).nextpid = s.nextpid := by
    unfold State.rouse
    split <;> rfl
  cases effect with
  | create | fail => exact ⟨numbered.allocpid.next, numbered.allocpid.given⟩
  | @wakeup q | @visit _ q =>
    have history := sameHistory_rouse s q
    refine ⟨?_, ?_⟩
    · simp only [goto, rouse, (history _).births, numbered.next]
    · simpa only [goto, (history _).births, (history _).pids] using numbered.given
  | _ => exact ⟨numbered.next, numbered.given⟩

theorem Numbered.run {events : List (Event n)}
    (run : Run (Step initproc) (Proc.initial initproc) events s) : Numbered s := by
  refine run.invariant Numbered (fun numbered step => numbered.step step.effect) ⟨rfl, ?_⟩
  intro b bound
  obtain rfl : b = 0 := Nat.lt_one_iff.mp bound
  rfl

theorem toInt_pid {b : Nat} (bound : b < 2147483647) : (Int32.ofNat (b + 1)).toInt = b + 1 := by
  rw [Int32.toInt_ofNat_of_lt (by omega)]
  rfl

/-- **The pids of processes are positive and different**, while `allocpid` was called at most
`2^31 - 1` times. -/
theorem pids_unique {events : List (Event n)}
    (run : Run (Step initproc) (initial initproc) events s) (few : s.births ≤ 2147483647) :
    (∀ p q, (s.slot p).state ≠ .unused → (s.slot q).state ≠ .unused → p ≠ q →
      (s.slot p).pid ≠ (s.slot q).pid) ∧
    ∀ p, (s.slot p).state ≠ .unused → 0 < (s.slot p).pid := by
  have family := (Sound.run run).family
  have numbered := Numbered.run run
  have value : ∀ p, (s.slot p).state ≠ .unused →
      (s.slot p).born < s.births ∧ (s.slot p).pid.toInt = (s.slot p).born + 1 := by
    intro p used
    have kind : (s.core p).kind ≠ .dead := mt ProcState.kind_dead.mp used
    have bound : (s.slot p).born < s.births := family.bound p kind
    have pid : (s.slot p).pid = s.pids (s.slot p).born := family.pids p kind
    rw [pid, numbered.given _ bound]
    exact ⟨bound, toInt_pid (by omega)⟩
  refine ⟨fun p q usedP usedQ other same => other ?_, fun p used => ?_⟩
  · refine family.distinct p q (mt ProcState.kind_dead.mp usedP)
      (mt ProcState.kind_dead.mp usedQ) ?_
    have first := (value p usedP).2
    have second := (value q usedQ).2
    rw [same] at first
    change (s.slot p).born = (s.slot q).born
    omega
  · rw [Int32.lt_iff_toInt_lt, (value p used).2]
    change (0 : Int) < _
    omega

/-- A parent and its child. -/
theorem pids_unique_forked : ∃ s, Run (Step 0) (initial 0) (forkExitWait.take 8) s ∧
    (s.slot 0).state = .running ∧ (s.slot 1).state = .running ∧
    (s.slot 0).pid ≠ (s.slot 1).pid ∧ 0 < (s.slot 0).pid ∧ 0 < (s.slot 1).pid := by
  have executed : (forkExitWait.take 8).foldlM (next 0) (initial 0) = some _ := rfl
  have run := Run.of_execute executed
  obtain ⟨different, positive⟩ := pids_unique run (by decide)
  exact ⟨_, run, rfl, rfl, different 0 1 (by decide) (by decide) (by decide),
    positive 0 (by decide), positive 1 (by decide)⟩

/-! ## The counter wraps -/

/-- The first process is about to call `fork`, and the second slot is free. -/
def alone (pid : Int32) (births : Nat) (pids : Nat → Int32) : State 2 :=
  { initial 0 with
    slot := fun p => if p = 0 then { (initial (0 : Fin 2)).slot 0 with state := .running } else
      (initial (0 : Fin 2)).slot 1
    place := fun p => if p = 0 then .user else .out
    nextpid := pid, births := births, pids := pids }

theorem run_boot : Run (Step 0) (initial 0) [.step 0 true] (alone 2 1 fun _ => 1) := by
  have executed : [.step 0 true].foldlM (next 0) (initial (0 : Fin 2)) = some _ := rfl
  refine cast (congrArg _ ?_) (Run.of_execute executed)
  refine State.mk.injEq .. ▸ ⟨?_, ?_, rfl, rfl, rfl, rfl, rfl, rfl⟩
  · exact funext fun | 0 | 1 => rfl
  · exact funext fun | 0 | 1 => rfl

variable {pid : Int32} {births : Nat} {pids : Nat → Int32}

/-- A call of `fork` that finds no memory takes a pid, and leaves everything else. -/
theorem run_forkFails : Run (Step 0) (alone pid births pids)
    [.call 0 .fork, .step 0 true, .step 0 false, .step 0 true]
    (alone (pid + 1) (births + 1) (update pids births pid)) := by
  have executed : [.call 0 .fork, .step 0 true, .step 0 false, .step 0 true].foldlM (next 0)
    (alone pid births pids) = some _ := rfl
  refine cast (congrArg _ ?_) (Run.of_execute executed)
  refine State.mk.injEq .. ▸ ⟨?_, ?_, rfl, rfl, rfl, rfl, rfl, rfl⟩
  · exact funext fun | 0 | 1 => rfl
  · exact funext fun | 0 | 1 => rfl

theorem alone_reached (k : Nat) : ∃ events births pids,
    Run (Step 0) (initial 0) events (alone (Int32.ofNat (k + 2)) births pids) := by
  induction k with
  | zero => exact ⟨_, _, _, run_boot⟩
  | succ k ih =>
    obtain ⟨events, births, pids, run⟩ := ih
    rw [show Int32.ofNat (k + 1 + 2) = _ from Int32.ofNat_add (k + 2) 1]
    exact ⟨_, _, _, run.trans run_forkFails⟩

/-- The child of the first process can have every pid from 2 on, modulo `2^32`. -/
theorem child_pid (k : Nat) : ∃ events s, Run (Step (0 : Fin 2)) (initial 0) events s ∧
    (s.slot 0).state = .running ∧ (s.slot 0).pid = 1 ∧
    (s.slot 1).state = .used ∧ (s.slot 1).pid = Int32.ofNat (k + 2) := by
  obtain ⟨events, births, pids, run⟩ := alone_reached k
  have executed : [.call 0 .fork, .step 0 true, .step 0 true].foldlM (next 0)
    (alone (Int32.ofNat (k + 2)) births pids) = some _ := rfl
  exact ⟨_, _, run.trans (Run.of_execute executed), rfl, rfl, rfl, rfl⟩

/-- A process gets a negative pid, and two processes have the same pid. -/
theorem pids_wrap : (∃ events s, Run (Step (0 : Fin 2)) (initial 0) events s ∧
      (s.slot 1).state ≠ .unused ∧ (s.slot 1).pid < 0) ∧
    ∃ events s, Run (Step (0 : Fin 2)) (initial 0) events s ∧
      (s.slot 0).state ≠ .unused ∧ (s.slot 1).state ≠ .unused ∧
        (s.slot 0).pid = (s.slot 1).pid := by
  constructor
  · obtain ⟨events, s, run, -, -, used, pid⟩ := child_pid 2147483646
    exact ⟨events, s, run, by simp [used], by rw [pid]; decide⟩
  · obtain ⟨events, s, run, running, one, used, pid⟩ := child_pid 4294967295
    exact ⟨events, s, run, by simp [running], by simp [used], by rw [one, pid]; decide⟩

end Xv6.Proc
