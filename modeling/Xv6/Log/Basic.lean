import Xv6.Param

/-!
# The in-memory log of `log.c`

The structure `struct log` and the sections of `begin_op`, `log_write` and
`end_op` that run under `log.lock`, each as a function of the log.

The list `lh` stands for `lh.block[0..n)`, so that `lh.n` is its length.
A section that panics returns the panic.
-/

namespace Xv6

/-- The panics of `log.c` that its locked sections can reach. -/
inductive LogPanic where
  | committing -- `panic("log.committing")` in `end_op`
  | tooBig -- `panic("too big a transaction")` in `log_write`
  | outsideTrans -- `panic("log_write outside of trans")` in `log_write`
  deriving DecidableEq, Repr

/-- `struct log`, without its lock. -/
structure Log where
  start : Nat
  size : Nat
  outstanding : Int
  committing : Bool
  dev : Nat
  lh : List Nat
  deriving DecidableEq, Repr

namespace Log

/-- The log as `initlog` leaves it, with the header recovery cleared. -/
def init (dev start size : Nat) : Log where
  start := start
  size := size
  outstanding := 0
  committing := false
  dev := dev
  lh := []

/-- The test of `begin_op` that lets an operation in. -/
def admits (log : Log) : Bool :=
  !log.committing &&
    decide ((log.lh.length : Int) + (log.outstanding + 1) * MAXOPBLOCKS ≤ LOGSIZE)

/-- One pass of `begin_op`'s loop. `none` is a `sleep`. -/
def beginOp (log : Log) : Option Log :=
  if log.admits then some { log with outstanding := log.outstanding + 1 } else none

/-- The test of `log_write` for a transaction that is too big. -/
def Full (log : Log) : Prop := log.lh.length ≥ LOGSIZE ∨ log.lh.length ≥ log.size - 1

/-- The section of `log_write` under `log.lock`. The second component says
whether the block is new, in which case its buffer gets pinned. -/
def logWrite (log : Log) (blockno : Nat) : Except LogPanic (Log × Bool) :=
  if log.lh.length ≥ LOGSIZE ∨ log.lh.length ≥ log.size - 1 then .error .tooBig
  else if log.outstanding < 1 then .error .outsideTrans
  else if blockno ∈ log.lh then .ok (log, false)
  else .ok ({ log with lh := log.lh ++ [blockno] }, true)

/-- The first section of `end_op`. The second component is `do_commit`. -/
def endOp (log : Log) : Except LogPanic (Log × Bool) :=
  let log := { log with outstanding := log.outstanding - 1 }
  if log.committing then .error .committing
  else if log.outstanding = 0 then .ok ({ log with committing := true }, true)
  else .ok (log, false)

/-- The last section of `end_op`, after `commit`. -/
def finishCommit (log : Log) : Log := { log with committing := false }

variable {log after : Log} {blockno : Nat}

theorem beginOp_eq_some : log.beginOp = some after ↔
      log.admits = true ∧ after = { log with outstanding := log.outstanding + 1 } := by
  unfold beginOp
  split
  next room => simp only [room, true_and, Option.some.injEq, eq_comm]
  next full => simp only [reduceCtorEq, full, false_and]

theorem admits_iff : log.admits = true ↔ log.committing = false ∧
      (log.lh.length : Int) + (log.outstanding + 1) * MAXOPBLOCKS ≤ LOGSIZE := by
  simp [admits]

theorem logWrite_ok {new : Bool} (written : log.logWrite blockno = .ok (after, new)) :
    log.lh.length < LOGSIZE ∧ log.lh.length < log.size - 1 ∧ 1 ≤ log.outstanding ∧
      (blockno ∈ log.lh ∧ after = log ∧ new = false ∨
        blockno ∉ log.lh ∧ after = { log with lh := log.lh ++ [blockno] } ∧ new = true) := by
  unfold logWrite at written
  split at written
  · cases written
  next room =>
    split at written
    · cases written
    next began =>
      split at written
      next old => cases written; exact ⟨by omega, by omega, by omega, .inl ⟨old, rfl, rfl⟩⟩
      next fresh => cases written; exact ⟨by omega, by omega, by omega, .inr ⟨fresh, rfl, rfl⟩⟩

theorem logWrite_error {panic : LogPanic} (failed : log.logWrite blockno = .error panic) :
    (log.lh.length ≥ LOGSIZE ∨ log.lh.length ≥ log.size - 1) ∧ panic = .tooBig ∨
      ¬ (log.lh.length ≥ LOGSIZE ∨ log.lh.length ≥ log.size - 1) ∧
        log.outstanding < 1 ∧ panic = .outsideTrans := by
  unfold logWrite at failed
  split at failed
  next full => cases failed; exact .inl ⟨full, rfl⟩
  next room =>
    split at failed
    next outside => cases failed; exact .inr ⟨room, outside, rfl⟩
    next => split at failed <;> cases failed

theorem endOp_ok {doCommit : Bool} (ended : log.endOp = .ok (after, doCommit)) :
    log.committing = false ∧ (log.outstanding = 1 ∧ doCommit = true ∧
          after = { log with outstanding := 0, committing := true } ∨
        log.outstanding ≠ 1 ∧ doCommit = false ∧
          after = { log with outstanding := log.outstanding - 1 }) := by
  unfold endOp at ended
  simp only at ended
  split at ended
  · cases ended
  next idle =>
    refine ⟨by simpa using idle, ?_⟩
    split at ended
    next last => cases ended; exact .inl ⟨by omega, rfl, by simp [last]⟩
    next more => cases ended; exact .inr ⟨by omega, rfl, rfl⟩

theorem endOp_error {panic : LogPanic} (failed : log.endOp = .error panic) :
    log.committing = true ∧ panic = .committing := by
  unfold endOp at failed
  simp only at failed
  split at failed
  next busy => cases failed; exact ⟨busy, rfl⟩
  next => split at failed <;> cases failed

end Log

end Xv6
