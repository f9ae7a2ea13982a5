import Xv6.Bio.System

/-!
# What one step of the cache and the log does

`Effect` lists the outcomes of every step with the tests that let it happen.
The invariants are proved by cases on it (`Step.effect`), so that none of them
unfolds `next`.
-/

namespace Xv6.Bio

variable {Pid : Type} [DecidableEq Pid] {first : Pid} {s t : State Pid} {act : Act Pid}

inductive Effect (first : Pid) (s : State Pid) : Act Pid → State Pid → Prop where
  | call {p : Pid} : (s.procs p).ctl = .idle → (s.procs p).busy = .no →
      Effect first s (.call p) (s.setCtl p .arriving)
  | enter {p : Pid} : (s.procs p).ctl = .arriving → s.log.admits = true → Effect first s (.enter p)
        ((s.setLog { s.log with outstanding := s.log.outstanding + 1 }).setCtl p .inOp)
  | sleep {p : Pid} : (s.procs p).ctl = .arriving → Effect first s (.sleep p) (s.setCtl p .sleeping)
  | last {p : Pid} : (s.procs p).ctl = .inOp → (s.procs p).busy = .no →
      s.log.committing = false → s.log.outstanding = 1 →
      Effect first s (.endOp p)
        ((s.setLog { s.log with outstanding := 0, committing := true }).setCtl p
          (.running false .test))
  | more {p : Pid} : (s.procs p).ctl = .inOp → (s.procs p).busy = .no →
      s.log.committing = false → s.log.outstanding ≠ 1 →
      Effect first s (.endOp p)
        ((s.setLog { s.log with outstanding := s.log.outstanding - 1 }).wakeup.setCtl p .idle)
  | interrupted {p : Pid} : (s.procs p).ctl = .inOp → s.log.committing = true →
      Effect first s (.endOp p) (s.panic (.log .committing))
  | bread {p : Pid} {dev blockno : Nat} : (s.procs p).ctl.client = true → (s.procs p).busy = .no →
      Effect first s (.bread p dev blockno) (s.bget p dev blockno fun _ => (s.procs p).ctl)
  | acquire {p : Pid} {i : Fin NBUF} : (s.procs p).busy = .waiting i → (s.cache.buf i).lock = none →
      Effect first s (.acquire p) ((s.setBuf i fun b => { b with lock := some p }).setProc p
        fun proc => { proc with busy := .locked i })
  | load {p : Pid} {i : Fin NBUF} : (s.procs p).busy = .locked i →
      Effect first s (.load p) (s.load p i)
  | modify {p : Pid} {i : Fin NBUF} {data : Block} : (s.procs p).ctl.client = true →
      (s.procs p).busy = .no → (s.procs p).owns i ≠ none →
      Effect first s (.modify p i data) (s.setData p i data)
  | absorb {p : Pid} {i : Fin NBUF} : (s.procs p).ctl.client = true →
      (s.procs p).busy = .no → (s.procs p).owns i ≠ none → ¬ s.log.Full →
      1 ≤ s.log.outstanding → (s.cache.buf i).blockno ∈ s.log.lh →
      Effect first s (.logWrite p i) (s.stored p i)
  | append {p : Pid} {i : Fin NBUF} : (s.procs p).ctl.client = true →
      (s.procs p).busy = .no → (s.procs p).owns i ≠ none → ¬ s.log.Full →
      1 ≤ s.log.outstanding → (s.cache.buf i).blockno ∉ s.log.lh →
      Effect first s (.logWrite p i)
        (((s.setLog { s.log with lh := s.log.lh ++ [(s.cache.buf i).blockno] }).pin i).stored p i)
  | refused {p : Pid} {i : Fin NBUF} {why : LogPanic} : (s.procs p).ctl.client = true →
      s.log.logWrite (s.cache.buf i).blockno = .error why →
      Effect first s (.logWrite p i) (s.panic (.log why))
  | brelse {p : Pid} {i : Fin NBUF} : (s.procs p).ctl.client = true → (s.procs p).busy = .no →
      (s.procs p).owns i = some false → Effect first s (.brelse p i) (s.brelse p i)
  | release {p : Pid} {i : Fin NBUF} : (s.procs p).busy = .releasing i →
      Effect first s (.release p) ({ s with cache := s.cache.release i }.setProc p
        fun proc => { proc with busy := .no })
  | run {p : Pid} {recovering : Bool} {pc : Pc} : (s.procs p).ctl = .running recovering pc →
      (s.procs p).busy = .no → Effect first s (.run p) (instr s p recovering pc)
  | crash : Effect first s .crash
      (boot first s.log.dev s.log.start s.log.size s.disk s.history.committed)

theorem next_effect (moved : next first s act = some t) : Effect first s act t := by
  cases act with
  | call p =>
    obtain ⟨here, ⟨⟩⟩ := Option.ite_none_right_eq_some.mp moved
    exact .call here.1 here.2
  | enter p =>
    obtain ⟨here, moved⟩ := Option.ite_none_right_eq_some.mp moved
    obtain ⟨log, began, rfl⟩ := Option.map_eq_some_iff.mp moved
    obtain ⟨room, rfl⟩ := Log.beginOp_eq_some.mp began
    exact .enter here room
  | sleep p =>
    obtain ⟨here, ⟨⟩⟩ := Option.ite_none_right_eq_some.mp moved
    exact .sleep here.1
  | endOp p =>
    obtain ⟨here, moved⟩ := Option.ite_none_right_eq_some.mp moved
    split at moved
    next log ended =>
      cases moved
      obtain ⟨quiet, ⟨one, -, rfl⟩ | ⟨-, impossible, -⟩⟩ := Log.endOp_ok ended
      · exact .last here.1 here.2 quiet one
      · cases impossible
    next log ended =>
      cases moved
      obtain ⟨quiet, ⟨-, impossible, -⟩ | ⟨several, -, rfl⟩⟩ := Log.endOp_ok ended
      · cases impossible
      · exact .more here.1 here.2 quiet several
    next why failed =>
      cases moved
      obtain ⟨busy, rfl⟩ := Log.endOp_error failed
      exact .interrupted here.1 busy
  | bread p dev blockno =>
    obtain ⟨here, ⟨⟩⟩ := Option.ite_none_right_eq_some.mp moved
    exact .bread here.1 here.2
  | acquire p =>
    simp only [next] at moved
    split at moved
    next i here =>
      split at moved
      next free =>
        cases moved
        exact .acquire here free
      next => cases moved
    next => cases moved
  | load p =>
    simp only [next] at moved
    split at moved
    next i here =>
      cases moved
      exact .load here
    next => cases moved
  | modify p i data =>
    obtain ⟨here, ⟨⟩⟩ := Option.ite_none_right_eq_some.mp moved
    exact .modify here.1 here.2.1 here.2.2
  | logWrite p i =>
    obtain ⟨here, moved⟩ := Option.ite_none_right_eq_some.mp moved
    split at moved
    next log written =>
      cases moved
      obtain ⟨short, fits, began, ⟨-, -, impossible⟩ | ⟨fresh, rfl, -⟩⟩ :=
        Log.logWrite_ok written
      · cases impossible
      · exact .append here.1 here.2.1 here.2.2 (by unfold Log.Full; omega) began fresh
    next log written =>
      cases moved
      obtain ⟨short, fits, began, ⟨old, rfl, -⟩ | ⟨-, -, impossible⟩⟩ :=
        Log.logWrite_ok written
      · exact .absorb here.1 here.2.1 here.2.2 (by unfold Log.Full; omega) began old
      · cases impossible
    next why failed =>
      cases moved
      exact .refused here.1 failed
  | brelse p i =>
    obtain ⟨here, ⟨⟩⟩ := Option.ite_none_right_eq_some.mp moved
    exact .brelse here.1 here.2.1 here.2.2
  | release p =>
    simp only [next] at moved
    split at moved
    next i here =>
      cases moved
      exact .release here
    next => cases moved
  | run p =>
    simp only [next] at moved
    split at moved
    next recovering pc here =>
      split at moved
      next quiet =>
        cases moved
        exact .run here quiet
      next => cases moved
    next => cases moved
  | crash =>
    cases moved
    exact .crash

/-- **What one step does**, and that its caller kept to the blocks it may
change. -/
theorem Step.effect {writable : Nat → Nat → Prop} (step : Step first writable s act t) :
    act.Allowed writable s ∧ Effect first s act t :=
  ⟨step.2.1, next_effect step.2.2⟩

end Xv6.Bio
