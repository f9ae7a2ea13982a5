import Xv6.Bio.Cache
import Xv6.Log.Basic
import Xv6.Log.Header

/-!
# The buffer cache and the log together

Processes use the buffer cache and the log on one disk. A process reads a
block (`bread`), changes its buffer, hands the buffer to the log (`log_write`)
and releases it (`brelse`); it does so inside operations (`begin_op`,
`end_op`). The process that ends the last operation runs `commit`. A crash can
come at any point: it keeps the disk and loses everything else, and the next
boot runs `recover_from_log`.

Each section under a spin-lock is one step, and so is each access to the data
of a buffer whose sleep-lock the process holds. Taking the sleep-lock, reading
the disk and dropping the reference are steps of their own, so that any other
process may come between them.

`write_log`, `write_head`, `install_trans`, `read_head` and their callers are the
program counter `Pc` and the function `instr`.
-/

namespace Xv6.Bio

open Function

/-- The statements of `commit` and `recover_from_log`, with the buffers that
their local variables point to. -/
inductive Pc where
  | readHead
  | copyHead (buf : Fin NBUF)
  | brelseHead (buf : Fin NBUF)
  | test
  -- `write_log`: the test of the loop and `to = bread(log.dev, log.start+tail+1)`
  | logTo (tail : Nat)
  -- `write_log`: `from = bread(log.dev, log.lh.block[tail])`
  | logFrom (tail : Nat) (toBuf : Fin NBUF)
  -- `write_log`: `memmove(to->data, from->data, BSIZE)`
  | logCopy (tail : Nat) (toBuf fromBuf : Fin NBUF)
  | logWrite (tail : Nat) (toBuf fromBuf : Fin NBUF)
  | logRelseFrom (tail : Nat) (toBuf fromBuf : Fin NBUF)
  | logRelseTo (tail : Nat) (toBuf : Fin NBUF)
  -- `write_head`: `buf = bread(log.dev, log.start)`; `erase` for the second call of `commit` and
  -- the one of `recover_from_log`
  | headRead (erase : Bool)
  | headFill (erase : Bool) (buf : Fin NBUF)
  | headWrite (erase : Bool) (buf : Fin NBUF)
  | headRelse (erase : Bool) (buf : Fin NBUF)
  -- `install_trans`: the test of the loop and `lbuf = bread(log.dev, log.start+tail+1)`
  | instFrom (tail : Nat)
  -- `install_trans`: `dbuf = bread(log.dev, log.lh.block[tail])`
  | instTo (tail : Nat) (lbuf : Fin NBUF)
  -- `install_trans`: `memmove(dbuf->data, lbuf->data, BSIZE)`
  | instCopy (tail : Nat) (lbuf dbuf : Fin NBUF)
  | instWrite (tail : Nat) (lbuf dbuf : Fin NBUF)
  -- `install_trans`: `if(recovering == 0) bunpin(dbuf)`
  | instUnpin (tail : Nat) (lbuf dbuf : Fin NBUF)
  | instRelseFrom (tail : Nat) (lbuf dbuf : Fin NBUF)
  | instRelseTo (tail : Nat) (dbuf : Fin NBUF)
  | clear
  | done
  deriving DecidableEq

/-- What a process is doing, apart from the buffer it waits for. -/
inductive Ctl where
  | off -- not started: only the first process runs before recovery is over
  | idle
  | arriving
  | sleeping
  | inOp
  | running (recovering : Bool) (pc : Pc) -- in `commit`, or in `recover_from_log` when `recovering`
  deriving DecidableEq

/-- A call of `bread` or `brelse` that is not over. -/
inductive Busy where
  | no
  | waiting (i : Fin NBUF)
  | locked (i : Fin NBUF)
  | releasing (i : Fin NBUF)
  deriving DecidableEq

/-- A process: what it does, the buffers it has, each with whether it has changed the data since
it last handed them over, and the call it is in. -/
structure Proc where
  ctl : Ctl
  owns : Fin NBUF → Option Bool
  busy : Busy

/-- What has happened so far. No step reads it. -/
structure History where
  store : Nat → Nat → Block -- the data last stored in each block of each device
  pinned : List Nat
  -- the groups of blocks whose header has reached the disk, oldest first
  committed : List (List (Nat × Block))

inductive Panic where
  | log (why : LogPanic)
  | noBuffers
  deriving DecidableEq, Repr

structure State (Pid : Type) where
  disk : Nat → Block
  cache : Bcache Pid
  log : Log
  procs : Pid → Proc
  history : History
  panicked : Option Panic

/-- The steps. `run` is the next statement of `commit` or recovery. -/
inductive Act (Pid : Type) where
  | call (p : Pid)
  | enter (p : Pid)
  | sleep (p : Pid)
  | endOp (p : Pid)
  | bread (p : Pid) (dev blockno : Nat)
  | acquire (p : Pid)
  | load (p : Pid)
  | modify (p : Pid) (i : Fin NBUF) (data : Block)
  | logWrite (p : Pid) (i : Fin NBUF)
  | brelse (p : Pid) (i : Fin NBUF)
  | release (p : Pid)
  | run (p : Pid)
  | crash

variable {Pid : Type} [DecidableEq Pid]

/-- The machine at power-on: the first process is about to recover the log. -/
def boot (first : Pid) (dev start size : Nat) (disk : Nat → Block)
    (committed : List (List (Nat × Block))) : State Pid where
  disk := disk
  cache := Bcache.binit Pid
  log := Log.init dev start size
  procs := fun p =>
    ⟨if p = first then .running true .readHead else .off, fun _ => none, .no⟩
  history := ⟨fun _ blockno => disk blockno, [], committed⟩
  panicked := none

namespace State

def setProc (s : State Pid) (p : Pid) (f : Proc → Proc) : State Pid :=
  { s with procs := update s.procs p (f (s.procs p)) }

def setCtl (s : State Pid) (p : Pid) (ctl : Ctl) : State Pid :=
  s.setProc p fun proc => { proc with ctl := ctl }

def setBuf (s : State Pid) (i : Fin NBUF) (f : Buf Pid → Buf Pid) : State Pid :=
  { s with cache := s.cache.modify i f }

def setLog (s : State Pid) (log : Log) : State Pid := { s with log := log }

def panic (s : State Pid) (why : Panic) : State Pid := { s with panicked := some why }

section Fields

variable (s : State Pid) (p : Pid) (i : Fin NBUF) (f : Proc → Proc) (g : Buf Pid → Buf Pid)

@[simp] theorem procs_self : (s.setProc p f).procs p = f (s.procs p) :=
  update_self ..

theorem procs_ne {s : State Pid} {p q : Pid} (other : q ≠ p) (f : Proc → Proc) :
    (s.setProc p f).procs q = s.procs q :=
  update_of_ne other ..

@[simp] theorem cache_setProc : (s.setProc p f).cache = s.cache := rfl
@[simp] theorem disk_setProc : (s.setProc p f).disk = s.disk := rfl
@[simp] theorem log_setProc : (s.setProc p f).log = s.log := rfl
@[simp] theorem history_setProc : (s.setProc p f).history = s.history := rfl

@[simp] theorem cache_setBuf : (s.setBuf i g).cache = s.cache.modify i g := rfl
@[simp] theorem procs_setBuf : (s.setBuf i g).procs = s.procs := rfl
@[simp] theorem disk_setBuf : (s.setBuf i g).disk = s.disk := rfl
@[simp] theorem log_setBuf : (s.setBuf i g).log = s.log := rfl
@[simp] theorem history_setBuf : (s.setBuf i g).history = s.history := rfl

end Fields

def wakeup (s : State Pid) : State Pid :=
  { s with procs := fun q =>
      if (s.procs q).ctl = .sleeping then { s.procs q with ctl := .arriving } else s.procs q }

/-- The part of `bread` in `bget`. -/
def bget (s : State Pid) (p : Pid) (dev blockno : Nat) (ctl : Fin NBUF → Ctl) : State Pid :=
  match s.cache.bget dev blockno with
  | some (cache, i) =>
    { s with cache := cache }.setProc p fun proc =>
      { proc with ctl := ctl i, busy := .waiting i }
  | none => s.panic .noBuffers

/-- The rest of `bread`, once the sleep-lock is taken. -/
def load (s : State Pid) (p : Pid) (i : Fin NBUF) : State Pid :=
  (if (s.cache.buf i).valid then s
    else s.setBuf i fun b => { b with data := s.disk b.blockno, valid := true }).setProc p
      fun proc => { proc with owns := update proc.owns i (some false), busy := .no }

/-- Change the data of a buffer the process owns. -/
def setData (s : State Pid) (p : Pid) (i : Fin NBUF) (data : Block) : State Pid :=
  (s.setBuf i fun b => { b with data := data }).setProc p
    fun proc => { proc with owns := update proc.owns i (some true) }

/-- The data of the buffer is now the data last stored in its block. -/
def stored (s : State Pid) (p : Pid) (i : Fin NBUF) : State Pid :=
  let b := s.cache.buf i
  { s with history := { s.history with
      store := update s.history.store b.dev
        (update (s.history.store b.dev) b.blockno b.data) } }.setProc p
    fun proc => { proc with owns := update proc.owns i (some false) }

/-- `bwrite`. The disk knows nothing of device numbers. -/
def bwrite (s : State Pid) (p : Pid) (i : Fin NBUF) : State Pid :=
  let b := s.cache.buf i
  { s.stored p i with disk := update s.disk b.blockno b.data }

/-- The part of `brelse` that gives the sleep-lock back. -/
def brelse (s : State Pid) (p : Pid) (i : Fin NBUF) : State Pid :=
  (s.setBuf i fun b => { b with lock := none }).setProc p
    fun proc => { proc with owns := update proc.owns i none, busy := .releasing i }

/-- The block of the buffer is in the log now, and its buffer pinned. -/
def pin (s : State Pid) (i : Fin NBUF) : State Pid :=
  { s with
    cache := s.cache.bpin i
    history := { s.history with
      pinned := (s.cache.buf i).blockno :: s.history.pinned } }

/-- The buffer is unpinned after its block is back home. -/
def unpin (s : State Pid) (i : Fin NBUF) : State Pid :=
  { s with
    cache := s.cache.bunpin i
    history := { s.history with
      pinned := s.history.pinned.erase (s.cache.buf i).blockno } }

/-- The group that is about to commit: each logged block with the data last
stored in it. -/
def group (s : State Pid) : List (Nat × Block) :=
  s.log.lh.map fun blockno => (blockno, s.history.store s.log.dev blockno)

/-- The header of a group that is not empty has reached the disk. -/
def groupDone (s : State Pid) : State Pid :=
  { s with history := { s.history with committed := s.history.committed ++ [s.group] } }

/-- Recovery is over: the other processes can start. -/
def booted (s : State Pid) : State Pid :=
  { s with procs := fun q => { s.procs q with ctl := .idle } }

end State

/-- One statement of `commit` (`recovering = false`) or of `recover_from_log`. -/
def instr (s : State Pid) (p : Pid) (recovering : Bool) : Pc → State Pid
  | .readHead => s.bget p s.log.dev s.log.start fun i => .running recovering (.copyHead i)
  | .copyHead i =>
    (s.setLog { s.log with lh := readHeader (s.cache.buf i).data }).setCtl p
      (.running recovering (.brelseHead i))
  | .brelseHead i => (s.brelse p i).setCtl p (.running recovering (.instFrom 0))
  | .test =>
    if s.log.lh.length > 0 then s.setCtl p (.running recovering (.logTo 0))
    else s.setCtl p (.running recovering .done)
  | .logTo tail =>
    if tail < s.log.lh.length then
      s.bget p s.log.dev (s.log.start + tail + 1) fun i =>
        .running recovering (.logFrom tail i)
    else s.setCtl p (.running recovering (.headRead false))
  | .logFrom tail toBuf =>
    s.bget p s.log.dev (s.log.lh.getD tail 0) fun i => .running recovering (.logCopy tail toBuf i)
  | .logCopy tail toBuf fromBuf =>
    (s.setData p toBuf (s.cache.buf fromBuf).data).setCtl p
      (.running recovering (.logWrite tail toBuf fromBuf))
  | .logWrite tail toBuf fromBuf =>
    (s.bwrite p toBuf).setCtl p (.running recovering (.logRelseFrom tail toBuf fromBuf))
  | .logRelseFrom tail toBuf fromBuf =>
    (s.brelse p fromBuf).setCtl p (.running recovering (.logRelseTo tail toBuf))
  | .logRelseTo tail toBuf => (s.brelse p toBuf).setCtl p (.running recovering (.logTo (tail + 1)))
  | .headRead erase =>
    s.bget p s.log.dev s.log.start fun i => .running recovering (.headFill erase i)
  | .headFill erase i =>
    (s.setData p i (writeHeader (s.cache.buf i).data s.log.lh)).setCtl p
      (.running recovering (.headWrite erase i))
  | .headWrite erase i =>
    let t := (s.bwrite p i).setCtl p (.running recovering (.headRelse erase i))
    if erase then t else t.groupDone
  | .headRelse erase i =>
    (s.brelse p i).setCtl p (.running recovering (if erase then .done else .instFrom 0))
  | .instFrom tail =>
    if tail < s.log.lh.length then
      s.bget p s.log.dev (s.log.start + tail + 1) fun i =>
        .running recovering (.instTo tail i)
    else s.setCtl p (.running recovering .clear)
  | .instTo tail lbuf =>
    s.bget p s.log.dev (s.log.lh.getD tail 0) fun i =>
      .running recovering (.instCopy tail lbuf i)
  | .instCopy tail lbuf dbuf =>
    (s.setData p dbuf (s.cache.buf lbuf).data).setCtl p
      (.running recovering (.instWrite tail lbuf dbuf))
  | .instWrite tail lbuf dbuf =>
    (s.bwrite p dbuf).setCtl p (.running recovering (.instUnpin tail lbuf dbuf))
  | .instUnpin tail lbuf dbuf =>
    (if recovering then s else s.unpin dbuf).setCtl p
      (.running recovering (.instRelseFrom tail lbuf dbuf))
  | .instRelseFrom tail lbuf dbuf =>
    (s.brelse p lbuf).setCtl p (.running recovering (.instRelseTo tail dbuf))
  | .instRelseTo tail dbuf =>
    (s.brelse p dbuf).setCtl p (.running recovering (.instFrom (tail + 1)))
  | .clear =>
    (s.setLog { s.log with lh := [] }).setCtl p (.running recovering (.headRead true))
  | .done =>
    if recovering then s.booted
    else ((s.setLog s.log.finishCommit).wakeup).setCtl p .idle

/-- The process is in user or system-call code that may use the cache. -/
def Ctl.client : Ctl → Bool
  | .idle => true
  | .inOp => true
  | _ => false

/-- One step, when the process is where the step starts. A client releases a
buffer only after handing its changes to `log_write`. Nothing else is asked of
it: `log_write` tests that some operation is running, not that the caller's is. -/
def next (first : Pid) (s : State Pid) : Act Pid → Option (State Pid)
  | .call p =>
    if (s.procs p).ctl = .idle ∧ (s.procs p).busy = .no then some (s.setCtl p .arriving)
    else none
  | .enter p =>
    if (s.procs p).ctl = .arriving then
      s.log.beginOp.map fun log => (s.setLog log).setCtl p .inOp
    else none
  | .sleep p =>
    if (s.procs p).ctl = .arriving ∧ s.log.beginOp = none then some (s.setCtl p .sleeping)
    else none
  | .endOp p =>
    if (s.procs p).ctl = .inOp ∧ (s.procs p).busy = .no then
      match s.log.endOp with
      | .ok (log, true) => some ((s.setLog log).setCtl p (.running false .test))
      | .ok (log, false) => some ((s.setLog log).wakeup.setCtl p .idle)
      | .error why => some (s.panic (.log why))
    else none
  | .bread p dev blockno =>
    if (s.procs p).ctl.client ∧ (s.procs p).busy = .no then
      some (s.bget p dev blockno fun _ => (s.procs p).ctl)
    else none
  | .acquire p =>
    match (s.procs p).busy with
    | .waiting i =>
      if (s.cache.buf i).lock = none then
        some ((s.setBuf i fun b => { b with lock := some p }).setProc p
          fun proc => { proc with busy := .locked i })
      else none
    | _ => none
  | .load p =>
    match (s.procs p).busy with
    | .locked i => some (s.load p i)
    | _ => none
  | .modify p i data =>
    if (s.procs p).ctl.client ∧ (s.procs p).busy = .no ∧ (s.procs p).owns i ≠ none then
      some (s.setData p i data)
    else none
  | .logWrite p i =>
    if (s.procs p).ctl.client ∧ (s.procs p).busy = .no ∧ (s.procs p).owns i ≠ none then
      match s.log.logWrite (s.cache.buf i).blockno with
      | .ok (log, true) => some (((s.setLog log).pin i).stored p i)
      | .ok (log, false) => some ((s.setLog log).stored p i)
      | .error why => some (s.panic (.log why))
    else none
  | .brelse p i =>
    if (s.procs p).ctl.client ∧ (s.procs p).busy = .no ∧ (s.procs p).owns i = some false then
      some (s.brelse p i)
    else none
  | .release p =>
    match (s.procs p).busy with
    | .releasing i =>
      some ({ s with cache := s.cache.release i }.setProc p fun proc => { proc with busy := .no })
    | _ => none
  | .run p =>
    match (s.procs p).ctl with
    | .running recovering pc =>
      if (s.procs p).busy = .no then some (instr s p recovering pc) else none
    | _ => none
  | .crash =>
    some (boot first s.log.dev s.log.start s.log.size s.disk s.history.committed)

/-- The callers change only the blocks `writable` lets them. -/
def Act.Allowed (writable : Nat → Nat → Prop) (s : State Pid) : Act Pid → Prop
  | .modify _ i _ => writable (s.cache.buf i).dev (s.cache.buf i).blockno
  | .logWrite _ i => writable (s.cache.buf i).dev (s.cache.buf i).blockno
  | _ => True

/-- A panic stops the machine until the next boot. -/
def Step (first : Pid) (writable : Nat → Nat → Prop) (s : State Pid) (act : Act Pid)
    (t : State Pid) : Prop :=
  (s.panicked = none ∨ act = .crash) ∧ act.Allowed writable s ∧ next first s act = some t

end Xv6.Bio
