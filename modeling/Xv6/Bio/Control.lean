import Mathlib.Data.Fintype.Card
import Xv6.Bio.Effect
import Xv6.Lib.Runs

/-!
# Who runs the log

`Control` says which processes can be in `commit` or in recovery, and that no
operation is outstanding while one of them is. It speaks only of where the
processes are and of the counters of the log.
-/

namespace Xv6.Bio

open State

variable {Pid : Type} [DecidableEq Pid]

variable {p : Pid} {pc : Pc} {first : Pid} {act : Act Pid}

/-! ## What the statements of `commit` leave alone -/

/-- A statement of `commit` moves its own process and changes of the log at most the list of
blocks. -/
structure Moved (s t : State Pid) (p : Pid) (recovering : Bool) : Prop where
  others : ∀ q, q ≠ p → t.procs q = s.procs q
  self : ∃ pc, (t.procs p).ctl = .running recovering pc
  log : t.log = { s.log with lh := t.log.lh }

theorem State.procs_bwrite_of_ne {s : State Pid} {p q : Pid} {i : Fin NBUF} (other : q ≠ p) :
    (s.bwrite p i).procs q = s.procs q := by
  change (s.stored p i).procs q = s.procs q
  simp only [State.stored, State.procs_ne other]

theorem Moved.setCtl {s t : State Pid} {recovering : Bool}
    (others : ∀ q, q ≠ p → t.procs q = s.procs q) (log : t.log = { s.log with lh := t.log.lh }) :
    Moved s (t.setCtl p (.running recovering pc)) p recovering where
  others := by
    intro q other
    rw [State.setCtl, procs_ne other, others q other]
  self := ⟨pc, by simp [State.setCtl]⟩
  log := log

theorem Moved.bget {s : State Pid} {recovering : Bool} {dev blockno : Nat}
    {ctl : Fin NBUF → Ctl} (here : ∃ pc, (s.procs p).ctl = .running recovering pc)
    (there : ∀ i, ∃ pc, ctl i = .running recovering pc) :
    Moved s (s.bget p dev blockno ctl) p recovering := by
  unfold State.bget
  split
  next cache i got =>
    refine ⟨fun q other => procs_ne other _, ?_, rfl⟩
    obtain ⟨pc, found⟩ := there i
    exact ⟨pc, by simpa using found⟩
  next => exact ⟨fun _ _ => rfl, here, rfl⟩

theorem instr_moved {s : State Pid} {recovering : Bool}
    (here : (s.procs p).ctl = .running recovering pc) (going : pc ≠ .done) :
    Moved s (instr s p recovering pc) p recovering := by
  cases pc with
  | readHead | logFrom _ _ | headRead _ | instTo _ _ => exact .bget ⟨_, here⟩ fun i => ⟨_, rfl⟩
  | copyHead _ | clear => exact .setCtl (fun _ _ => rfl) rfl
  | brelseHead _ | logCopy _ _ _ | logRelseFrom _ _ _ | logRelseTo _ _ | headFill _ _
  | headRelse _ _ | instCopy _ _ _ | instRelseFrom _ _ _ | instRelseTo _ _ =>
    exact .setCtl (fun q other => procs_ne other _) rfl
  | test | instUnpin _ _ _ =>
    simp only [instr]
    split <;> exact .setCtl (fun _ _ => rfl) rfl
  | logTo _ | instFrom _ =>
    simp only [instr]
    split
    · exact .bget ⟨_, here⟩ fun i => ⟨_, rfl⟩
    · exact .setCtl (fun _ _ => rfl) rfl
  | logWrite _ _ _ | instWrite _ _ _ =>
    exact .setCtl (fun q other => procs_bwrite_of_ne other) rfl
  | headWrite erase i =>
    have written : Moved s ((s.bwrite p i).setCtl p (.running recovering (.headRelse erase i)))
        p recovering := .setCtl (fun q other => procs_bwrite_of_ne other) rfl
    simp only [instr]
    split
    · exact written
    · exact ⟨written.others, written.self, written.log⟩
  | done => exact absurd rfl going

/-! ## The invariant -/

/-- The processes inside an operation. -/
def State.inOps [Fintype Pid] (s : State Pid) : Finset Pid :=
  Finset.univ.filter fun p => (s.procs p).ctl = .inOp

/-- The process is in `commit`, or in recovery. -/
def State.Runs (s : State Pid) (p : Pid) (recovering : Bool) : Prop :=
  ∃ pc, (s.procs p).ctl = .running recovering pc

structure Control [Fintype Pid] (s : State Pid) : Prop where
  counted : s.log.outstanding = s.inOps.card
  quiet : s.log.committing = true → s.log.outstanding = 0
  committer : ∀ p, s.Runs p false → s.log.committing = true
  alone : ∀ p, s.Runs p true → ∀ q, q ≠ p → (s.procs q).ctl = .off
  unique : ∀ p q, s.Runs p false → s.Runs q false → p = q
  calm : ∀ p, s.Runs p true → s.log.committing = false
  asleep : ∀ p, (s.procs p).ctl = .off → (∀ i, (s.procs p).owns i = none) ∧ (s.procs p).busy = .no
  started : (∀ p, (s.procs p).ctl ≠ .off) ∨ ∃ p, s.Runs p true

section Runners

variable [Fintype Pid] {s : State Pid}

theorem Control.runner_unique (control : Control s) {p q : Pid} {r₁ r₂ : Bool}
    (mine : s.Runs p r₁) (yours : s.Runs q r₂) : p = q := by
  by_contra different
  have recovers : ∀ {a b : Pid} {r : Bool}, s.Runs a true → s.Runs b r → b ≠ a → False := by
    rintro a b r first ⟨pc, second⟩ other
    rw [control.alone a first b other] at second
    cases second
  cases r₁ with
  | true => exact recovers mine yours (Ne.symm different)
  | false =>
    cases r₂ with
    | true => exact recovers yours mine different
    | false => exact different (control.unique p q mine yours)

/-- While an operation is outstanding nobody is in `commit` or in recovery. -/
theorem Control.nobody_runs (control : Control s) (some : 1 ≤ s.log.outstanding) (p : Pid)
    (r : Bool) : ¬ s.Runs p r := by
  intro running
  cases r with
  | false =>
    have := control.quiet (control.committer p running)
    omega
  | true =>
    have none : s.inOps = ∅ := by
      refine Finset.filter_eq_empty_iff.mpr fun q _ inside => ?_
      by_cases same : q = p
      · obtain ⟨pc, here⟩ := running
        rw [same, here] at inside
        cases inside
      · rw [control.alone p running q same] at inside
        cases inside
    have := control.counted
    rw [none, Finset.card_empty] at this
    omega

/-- The step changes neither who is inside an operation or runs the log, nor the counters of the
log. -/
structure SameControl (s t : State Pid) : Prop where
  inOp : ∀ q, (t.procs q).ctl = .inOp ↔ (s.procs q).ctl = .inOp
  runs : ∀ q r, t.Runs q r ↔ s.Runs q r
  off : ∀ q, (t.procs q).ctl = .off ↔ (s.procs q).ctl = .off
  asleep : ∀ q, (s.procs q).ctl = .off → t.procs q = s.procs q
  outstanding : t.log.outstanding = s.log.outstanding
  committing : t.log.committing = s.log.committing

variable {t : State Pid}

theorem Control.of_same (control : Control s) (same : SameControl s t) : Control t where
  counted := by
    have inside : t.inOps = s.inOps := Finset.filter_congr fun q _ => same.inOp q
    rw [same.outstanding, inside]
    exact control.counted
  quiet := by
    rw [same.committing, same.outstanding]
    exact control.quiet
  committer := by
    intro p running
    rw [same.committing]
    exact control.committer p ((same.runs p false).mp running)
  alone := by
    intro p running q other
    exact (same.off q).mpr (control.alone p ((same.runs p true).mp running) q other)
  unique := by
    intro p q mine yours
    exact control.unique p q ((same.runs p false).mp mine) ((same.runs q false).mp yours)
  calm := by
    intro p running
    rw [same.committing]
    exact control.calm p ((same.runs p true).mp running)
  asleep := by
    intro p off
    have before := (same.off p).mp off
    rw [same.asleep p before]
    exact control.asleep p before
  started := by
    rcases control.started with all | ⟨p, running⟩
    · exact .inl fun q off => all q ((same.off q).mp off)
    · exact .inr ⟨p, (same.runs p true).mpr running⟩

/-- A step of one process that is awake and stays inside or outside its operation and the log. -/
theorem SameControl.of_one (others : ∀ q, q ≠ p → t.procs q = s.procs q)
    (awake : (s.procs p).ctl ≠ .off) (still : (t.procs p).ctl ≠ .off)
    (inOp : (t.procs p).ctl = .inOp ↔ (s.procs p).ctl = .inOp) (runs : ∀ r, t.Runs p r ↔ s.Runs p r)
    (outstanding : t.log.outstanding = s.log.outstanding)
    (committing : t.log.committing = s.log.committing) : SameControl s t where
  inOp := by
    intro q
    by_cases same : q = p
    · rw [same]
      exact inOp
    · rw [others q same]
  runs := by
    intro q r
    by_cases same : q = p
    · rw [same]
      exact runs r
    · rw [State.Runs, State.Runs, others q same]
  off := by
    intro q
    by_cases same : q = p
    · rw [same]
      exact ⟨fun off => absurd off still, fun off => absurd off awake⟩
    · rw [others q same]
  asleep := by
    intro q off
    exact others q fun same => awake (same ▸ off)
  outstanding := outstanding
  committing := committing

/-- A change of one process that is awake and stays where it is. -/
theorem SameControl.setProc {u : State Pid} {f : Proc → Proc}
    (procs : u.procs = s.procs) (outstanding : u.log.outstanding = s.log.outstanding)
    (committing : u.log.committing = s.log.committing)
    (stays : (f (s.procs p)).ctl = (s.procs p).ctl) (awake : (s.procs p).ctl ≠ .off) :
    SameControl s (u.setProc p f) := by
  have here : ((u.setProc p f).procs p).ctl = (s.procs p).ctl := by
    rw [procs_self, procs, stays]
  refine .of_one (fun q other => ?_) awake (here ▸ awake) (by rw [here]) ?_ outstanding committing
  · rw [procs_ne other, procs]
  · intro r
    rw [State.Runs, State.Runs, here]

/-- A statement of `commit` or recovery other than the return. -/
theorem Moved.sameControl {r : Bool} (moved : Moved s t p r) (here : s.Runs p r) :
    SameControl s t := by
  obtain ⟨pc, before⟩ := here
  obtain ⟨pc', after⟩ := moved.self
  refine .of_one moved.others ?_ ?_ ?_ ?_ (by rw [moved.log]) (by rw [moved.log])
  · rw [before]
    simp
  · rw [after]
    simp
  · rw [before, after]
    simp
  · intro b
    simp [State.Runs, before, after]

theorem Control.awake_of_busy (control : Control s) (busy : (s.procs p).busy ≠ .no) :
    (s.procs p).ctl ≠ .off :=
  fun off => busy (control.asleep p off).2

theorem Ctl.awake_of_client {ctl : Ctl} (client : ctl.client = true) : ctl ≠ .off := by
  rintro rfl
  cases client

theorem SameControl.wakeup (s : State Pid) : SameControl s s.wakeup := by
  have each : ∀ q, s.wakeup.procs q = s.procs q ∨
      (s.procs q).ctl = .sleeping ∧ (s.wakeup.procs q).ctl = .arriving := by
    intro q
    by_cases asleep : (s.procs q).ctl = .sleeping
    · exact .inr ⟨asleep, by simp [State.wakeup, asleep]⟩
    · exact .inl (by simp [State.wakeup, asleep])
  refine ⟨?_, ?_, ?_, ?_, rfl, rfl⟩
  · intro q
    rcases each q with same | ⟨before, after⟩
    · rw [same]
    · simp [before, after]
  · intro q r
    rcases each q with same | ⟨before, after⟩
    · rw [State.Runs, State.Runs, same]
    · simp [State.Runs, before, after]
  · intro q
    rcases each q with same | ⟨before, after⟩
    · rw [same]
    · simp [before, after]
  · intro q off
    rcases each q with same | ⟨before, -⟩
    · exact same
    · rw [before] at off
      cases off

/-! ## The steps that change control -/

theorem State.mem_inOps : p ∈ s.inOps ↔ (s.procs p).ctl = .inOp := by
  simp [State.inOps]

section

variable (control : Control s)
include control

/-- Nobody recovers while a process that has started is not the one that does. -/
theorem Control.not_recovering (awake : (s.procs p).ctl ≠ .off)
    (elsewhere : ¬ s.Runs p true) (q : Pid) : ¬ s.Runs q true := by
  intro running
  by_cases same : p = q
  · exact elsewhere (same ▸ running)
  · exact awake (control.alone q running p same)

omit control in
/-- Control where nobody runs the log and everybody has started. -/
theorem Control.of_started (counted : t.log.outstanding = t.inOps.card)
    (calm : t.log.committing = false) (nobody : ∀ q r, ¬ t.Runs q r)
    (started : ∀ q, (t.procs q).ctl ≠ .off) : Control t where
  counted := counted
  quiet := by
    intro busy
    rw [calm] at busy
    cases busy
  committer := fun q running => absurd running (nobody q false)
  alone := fun q running => absurd running (nobody q true)
  unique := fun a _ running => absurd running (nobody a false)
  calm := fun q running => absurd running (nobody q true)
  asleep := fun q off => absurd off (started q)
  started := .inl started

/-- Everybody has started when a process has that is not recovering. -/
theorem Control.all_started (p : Pid) (awake : (s.procs p).ctl ≠ .off)
    (elsewhere : ¬ s.Runs p true) (q : Pid) : (s.procs q).ctl ≠ .off := by
  rcases control.started with all | ⟨r, running⟩
  · exact all q
  · exact absurd running (control.not_recovering awake elsewhere r)

theorem Control.enter (here : (s.procs p).ctl = .arriving) (room : s.log.admits = true) :
    Control ((s.setLog { s.log with outstanding := s.log.outstanding + 1 }).setCtl p .inOp) := by
  generalize final : (s.setLog { s.log with outstanding := s.log.outstanding + 1 }).setCtl p .inOp
    = t
  have self : (t.procs p).ctl = .inOp := by simp [← final, setCtl]
  have others : ∀ q, q ≠ p → t.procs q = s.procs q := by
    intro q other
    rw [← final, setCtl, procs_ne other]
    rfl
  have log : t.log = { s.log with outstanding := s.log.outstanding + 1 } := by
    rw [← final]
    rfl
  have calm := (Log.admits_iff.mp room).1
  have awake : (s.procs p).ctl ≠ .off := by simp [here]
  have elsewhere : ¬ s.Runs p true := by simp [State.Runs, here]
  have nobody : ∀ q r, ¬ t.Runs q r := by
    rintro q r ⟨pc, running⟩
    by_cases same : q = p
    · rw [same, self] at running
      cases running
    · rw [others q same] at running
      cases r with
      | false =>
        have := control.committer q ⟨pc, running⟩
        rw [calm] at this
        cases this
      | true =>
        exact control.not_recovering awake elsewhere q ⟨pc, running⟩
  have inside : t.inOps = insert p s.inOps := by
    ext q
    rw [Finset.mem_insert, mem_inOps, mem_inOps]
    by_cases same : q = p
    · simp [same, self]
    · simp [same, others q same]
  have fresh : p ∉ s.inOps := by
    rw [mem_inOps, here]
    simp
  refine .of_started ?_ (by rw [log]; exact calm) nobody ?_
  · have := control.counted
    rw [inside, Finset.card_insert_of_notMem fresh, log]
    push_cast
    omega
  · intro q off
    by_cases same : q = p
    · rw [same, self] at off
      cases off
    · rw [others q same] at off
      exact control.all_started p awake elsewhere q off

omit control in
/-- The processes inside an operation after one of them has left. -/
theorem State.inOps_leave (others : ∀ q, q ≠ p →
    ((t.procs q).ctl = .inOp ↔ (s.procs q).ctl = .inOp)) (left : (t.procs p).ctl ≠ .inOp) :
    t.inOps = s.inOps.erase p := by
  ext q
  rw [Finset.mem_erase, State.mem_inOps, State.mem_inOps]
  by_cases same : q = p
  · simp [same, left]
  · simp [same, others q same]

/-- The end of the last operation: its process goes on to `commit`. -/
theorem Control.last (here : (s.procs p).ctl = .inOp) (one : s.log.outstanding = 1) :
    Control ((s.setLog { s.log with outstanding := 0, committing := true }).setCtl p
      (.running false .test)) := by
  generalize final : (s.setLog { s.log with outstanding := 0, committing := true }).setCtl p
    (.running false .test) = t
  have self : (t.procs p).ctl = .running false .test := by simp [← final, setCtl]
  have others : ∀ q, q ≠ p → t.procs q = s.procs q := by
    intro q other
    rw [← final, setCtl, procs_ne other]
    rfl
  have outstanding : t.log.outstanding = 0 := by
    rw [← final]
    rfl
  have committing : t.log.committing = true := by
    rw [← final]
    rfl
  have only : ∀ q r, t.Runs q r → q = p ∧ r = false := by
    rintro q r ⟨pc, running⟩
    by_cases same : q = p
    · rw [same, self] at running
      cases running
      exact ⟨same, rfl⟩
    · rw [others q same] at running
      exact absurd ⟨pc, running⟩ (control.nobody_runs (by omega) q r)
  have started : ∀ q, (t.procs q).ctl ≠ .off := by
    intro q off
    by_cases same : q = p
    · rw [same, self] at off
      cases off
    · rw [others q same] at off
      exact control.all_started p (by simp [here]) (by simp [State.Runs, here]) q off
  refine ⟨?_, fun _ => outstanding, fun _ _ => committing, ?_, ?_, ?_,
    fun q off => absurd off (started q), .inl started⟩
  · have left : t.inOps = s.inOps.erase p :=
      inOps_leave (fun q other => by rw [others q other]) (by simp [self])
    have counted := control.counted
    rw [outstanding, left, Finset.card_erase_of_mem (mem_inOps.mpr here)]
    omega
  · intro q running
    exact absurd (only q true running).2 (by simp)
  · intro a b mine yours
    rw [(only a false mine).1, (only b false yours).1]
  · intro q running
    exact absurd (only q true running).2 (by simp)

theorem Control.more (here : (s.procs p).ctl = .inOp) (calm : s.log.committing = false) :
    Control ((s.setLog { s.log with outstanding := s.log.outstanding - 1 }).wakeup.setCtl p
      .idle) := by
  generalize final : (s.setLog { s.log with outstanding := s.log.outstanding - 1 }).wakeup.setCtl p
    .idle = t
  have woken := SameControl.wakeup (s.setLog { s.log with outstanding := s.log.outstanding - 1 })
  have self : (t.procs p).ctl = .idle := by simp [← final, setCtl]
  have others : ∀ q, q ≠ p → t.procs q =
      (s.setLog { s.log with outstanding := s.log.outstanding - 1 }).wakeup.procs q := by
    intro q other
    rw [← final, setCtl, procs_ne other]
  have outstanding : t.log.outstanding = s.log.outstanding - 1 := by
    rw [← final]
    rfl
  have committing : t.log.committing = false := by
    rw [← final]
    exact calm
  have counted := control.counted
  have inside : p ∈ s.inOps := mem_inOps.mpr here
  have positive : 0 < s.inOps.card := Finset.card_pos.mpr ⟨p, inside⟩
  have nobody : ∀ q r, ¬ t.Runs q r := by
    intro q r running
    by_cases same : q = p
    · obtain ⟨pc, running⟩ := running
      rw [same, self] at running
      cases running
    · rw [State.Runs, others q same] at running
      exact control.nobody_runs (by omega) q r ((woken.runs q r).mp running)
  refine .of_started ?_ committing nobody ?_
  · have left : t.inOps = s.inOps.erase p := by
      refine inOps_leave (fun q other => ?_) (by simp [self])
      rw [others q other]
      exact woken.inOp q
    rw [outstanding, left, Finset.card_erase_of_mem inside]
    omega
  · intro q off
    by_cases same : q = p
    · rw [same, self] at off
      cases off
    · rw [others q same] at off
      exact control.all_started p (by simp [here]) (by simp [State.Runs, here]) q
        ((woken.off q).mp off)

theorem Control.finish (here : (s.procs p).ctl = .running false pc) :
    Control ((s.setLog s.log.finishCommit).wakeup.setCtl p .idle) := by
  generalize final : (s.setLog s.log.finishCommit).wakeup.setCtl p .idle = t
  have woken := SameControl.wakeup (s.setLog s.log.finishCommit)
  have self : (t.procs p).ctl = .idle := by simp [← final, setCtl]
  have others : ∀ q, q ≠ p → t.procs q = (s.setLog s.log.finishCommit).wakeup.procs q := by
    intro q other
    rw [← final, setCtl, procs_ne other]
  have outstanding : t.log.outstanding = s.log.outstanding := by
    rw [← final]
    rfl
  have inside : t.inOps = s.inOps := by
    refine Finset.filter_congr fun q _ => ?_
    by_cases same : q = p
    · simp [same, self, here]
    · rw [others q same]
      exact woken.inOp q
  refine .of_started ?_ ?_ ?_ ?_
  · rw [outstanding, inside]
    exact control.counted
  · rw [← final]
    rfl
  · intro q r running
    by_cases same : q = p
    · obtain ⟨pc', running⟩ := running
      rw [same, self] at running
      cases running
    · rw [State.Runs, others q same] at running
      exact same (control.runner_unique ((woken.runs q r).mp running) ⟨pc, here⟩)
  · intro q off
    by_cases same : q = p
    · rw [same, self] at off
      cases off
    · rw [others q same] at off
      exact control.all_started p (by simp [here]) (by simp [State.Runs, here]) q
        ((woken.off q).mp off)

theorem Control.booted (here : s.Runs p true) : Control s.booted := by
  have none : s.inOps = ∅ := by
    refine Finset.filter_eq_empty_iff.mpr fun q _ inside => ?_
    by_cases same : q = p
    · obtain ⟨pc, running⟩ := here
      rw [same, running] at inside
      cases inside
    · rw [control.alone p here q same] at inside
      cases inside
  have empty : s.booted.inOps = ∅ :=
    Finset.filter_eq_empty_iff.mpr fun q _ inside => by cases inside
  refine .of_started ?_ (control.calm p here) ?_ ?_
  · rw [empty, ← none]
    exact control.counted
  · rintro q r ⟨pc, running⟩
    cases running
  · intro q off
    cases off

end

theorem Control.boot (first : Pid) (dev start size : Nat) (disk : Nat → Block)
    (committed : List (List (Nat × Block))) :
    Control (Bio.boot first dev start size disk committed) := by
  have ctl : ∀ q, ((Bio.boot first dev start size disk committed).procs q).ctl =
      if q = first then .running true .readHead else .off := fun _ => rfl
  have recovers : ∀ q r, (Bio.boot first dev start size disk committed).Runs q r →
      q = first ∧ r = true := by
    rintro q r ⟨pc, running⟩
    rw [ctl] at running
    split at running
    next same =>
      cases running
      exact ⟨same, rfl⟩
    next => cases running
  refine ⟨?_, ?_, ?_, ?_, ?_, fun _ _ => rfl, fun _ _ => ⟨fun _ => rfl, rfl⟩,
    .inr ⟨first, .readHead, by simp [ctl]⟩⟩
  · have none : (Bio.boot first dev start size disk committed).inOps = ∅ := by
      refine Finset.filter_eq_empty_iff.mpr fun q _ inside => ?_
      rw [ctl] at inside
      split at inside <;> cases inside
    rw [none]
    rfl
  · intro busy
    cases busy
  · intro q running
    exact absurd (recovers q false running).2 (by simp)
  · intro q running other different
    have same := (recovers q true running).1
    rw [ctl, if_neg fun here => different (here.trans same.symm)]
  · intro a b mine
    exact absurd (recovers a false mine).2 (by simp)

/-! ## Runs -/

theorem SameControl.setCtl {ctl : Ctl} (awake : (s.procs p).ctl ≠ .off)
    (outside : (s.procs p).ctl ≠ .inOp) (unlogged : ∀ r, ¬ s.Runs p r)
    (there : ctl = .arriving ∨ ctl = .sleeping) : SameControl s (s.setCtl p ctl) := by
  have self : ((s.setCtl p ctl).procs p).ctl = ctl := by simp [State.setCtl]
  refine .of_one (fun q other => procs_ne other _) awake ?_ ?_ ?_ rfl rfl
  · rw [self]
    rcases there with rfl | rfl <;> simp
  · rw [self]
    rcases there with rfl | rfl <;> simp [outside]
  · intro r
    have none : ¬ (s.setCtl p ctl).Runs p r := by
      rintro ⟨pc, running⟩
      rw [self] at running
      rcases there with rfl | rfl <;> cases running
    exact ⟨fun running => absurd running none, fun running => absurd running (unlogged r)⟩

theorem SameControl.bget {dev blockno : Nat} (awake : (s.procs p).ctl ≠ .off) :
    SameControl s (s.bget p dev blockno fun _ => (s.procs p).ctl) := by
  unfold State.bget
  split
  · exact .setProc rfl rfl rfl rfl awake
  · exact ⟨fun _ => Iff.rfl, fun _ _ => Iff.rfl, fun _ => Iff.rfl, fun _ _ => rfl, rfl, rfl⟩

theorem SameControl.stored {u : State Pid} {i : Fin NBUF} (procs : u.procs = s.procs)
    (outstanding : u.log.outstanding = s.log.outstanding)
    (committing : u.log.committing = s.log.committing) (awake : (s.procs p).ctl ≠ .off) :
    SameControl s (u.stored p i) := by
  unfold State.stored
  exact .setProc procs outstanding committing rfl awake

theorem Control.panic (control : Control s) (why : Panic) : Control (s.panic why) :=
  control.of_same ⟨fun _ => Iff.rfl, fun _ _ => Iff.rfl, fun _ => Iff.rfl, fun _ _ => rfl, rfl, rfl⟩

/-- Only `begin_op`, `end_op`, the log and a crash change who is where. -/
theorem Effect.sameControl (control : Control s)
    (effect : Effect first s act t) (lives : act ≠ .crash)
    (plain : ∀ p, act ≠ .enter p ∧ act ≠ .endOp p ∧ act ≠ .run p) : SameControl s t := by
  have same : ∀ why, SameControl s (s.panic why) := fun _ =>
    ⟨fun _ => Iff.rfl, fun _ _ => Iff.rfl, fun _ => Iff.rfl, fun _ _ => rfl, rfl, rfl⟩
  cases effect with
  | call here _ =>
    exact .setCtl (by simp [here]) (by simp [here]) (by simp [State.Runs, here]) (.inl rfl)
  | sleep here =>
    exact .setCtl (by simp [here]) (by simp [here]) (by simp [State.Runs, here]) (.inr rfl)
  | bread client _ => exact .bget (Ctl.awake_of_client client)
  | acquire busy | release busy =>
    exact .setProc rfl rfl rfl rfl (control.awake_of_busy (by simp [busy]))
  | @load p i busy =>
    have awake := control.awake_of_busy (p := p) (by simp [busy])
    unfold State.load
    split
    · exact .setProc rfl rfl rfl rfl awake
    · exact .setProc rfl rfl rfl rfl awake
  | modify client | brelse client => exact .setProc rfl rfl rfl rfl (Ctl.awake_of_client client)
  | absorb client | append client => exact .stored rfl rfl rfl (Ctl.awake_of_client client)
  | refused => exact same _
  | enter => exact absurd rfl (plain _).1
  | last | more | interrupted => exact absurd rfl (plain _).2.1
  | run => exact absurd rfl (plain _).2.2
  | crash => exact absurd rfl lives

theorem Control.effect (control : Control s) (effect : Effect first s act t) : Control t := by
  cases act with
  | enter p =>
    cases effect with
    | enter here room => exact control.enter here room
  | endOp p =>
    cases effect with
    | last here _ _ one => exact control.last here one
    | more here _ calm _ => exact control.more here calm
    | interrupted => exact control.panic _
  | run p =>
    cases effect with
    | @run _ recovering pc here _ =>
      by_cases finished : pc = .done
      · subst finished
        cases recovering with
        | true => exact control.booted ⟨_, here⟩
        | false => exact control.finish here
      · exact control.of_same ((instr_moved here finished).sameControl ⟨_, here⟩)
  | crash =>
    cases effect
    exact .boot ..
  | _ => exact control.of_same (effect.sameControl control (by simp) (by simp))

/-- The process is in `recover_from_log`. -/
def Recovering (s : State Pid) : Prop := ∃ p, s.Runs p true

theorem Effect.recovering (control : Control s)
    (effect : Effect first s act t) (lives : act ≠ .crash) (after : Recovering t) :
    Recovering s := by
  obtain ⟨q, running⟩ := after
  have moved : ∀ {u : State Pid} {p : Pid} {ctl : Ctl}, (u.setCtl p ctl).Runs q true →
      (∀ pc, ctl ≠ .running true pc) → u.Runs q true := by
    rintro u p ctl ⟨pc, there⟩ place
    by_cases same : q = p
    · exact absurd (by simpa [setCtl, same] using there) (place pc)
    · rw [setCtl, procs_ne same] at there
      exact ⟨pc, there⟩
  cases act with
  | enter p =>
    cases effect with
    | enter => exact ⟨q, moved running nofun⟩
  | endOp p =>
    cases effect with
    | last => exact ⟨q, moved running nofun⟩
    | more => exact ⟨q, ((SameControl.wakeup _).runs q true).mp (moved running nofun)⟩
    | interrupted => exact ⟨q, running⟩
  | run p =>
    cases effect with
    | @run _ recovering pc here _ =>
      by_cases finished : pc = .done
      · subst finished
        cases recovering with
        | true => exact ⟨p, _, here⟩
        | false =>
          exact ⟨q, ((SameControl.wakeup _).runs q true).mp (moved running nofun)⟩
      · have same := (instr_moved here finished).sameControl ⟨_, here⟩
        exact ⟨q, (same.runs q true).mp running⟩
  | crash => exact absurd rfl lives
  | _ => exact ⟨q, ((effect.sameControl control (by simp) (by simp)).runs q true).mp running⟩

end Runners

end Xv6.Bio
