import Xv6.Bio.Control
import Xv6.Bio.Durable
import Xv6.Bio.Needs

/-!
# `commit` and recovery, statement by statement

The log goes through phases. Operations collect blocks in memory while the
header on the disk is empty (`Collecting`); `write_log` copies them into the log
(`Copied`); the header makes them a group; `install_trans` writes them home
(`Installing`); the header is erased (`Erasing`, `Erased`).
-/

namespace Xv6.Bio

variable {Pid : Type} [DecidableEq Pid]

/-! ## Phases -/

/-- The data last stored in a block of the log's device. -/
def State.latest (s : State Pid) (blockno : Nat) : Block := s.history.store s.log.dev blockno

/-- Blocks are collected, and none of them is a group yet. -/
structure Collecting (area : Area) (s : State Pid) : Prop where
  header : readHeader (s.disk area.start) = []
  fits : area.Fits s.log.lh
  distinct : s.log.lh.Nodup
  pinned : ∀ blockno, blockno ∈ s.history.pinned ↔ blockno ∈ s.log.lh

/-- The first `k` blocks of the list are in the log. -/
def Copied (area : Area) (s : State Pid) (k : Nat) : Prop :=
  ∀ t, t < k → s.disk (area.slot t) = s.latest (s.log.lh.getD t 0)

/-- The list is the group on the disk, its first `k` blocks are home and its first `unpinned`
buffers are free again. -/
structure Installing (area : Area) (want : Nat → Block) (s : State Pid) (recovering : Bool)
    (k unpinned : Nat) : Prop where
  header : readHeader (s.disk area.start) = s.log.lh
  home : ∀ t, t < k → s.disk (s.log.lh.getD t 0) = want (s.log.lh.getD t 0)
  free : recovering = true → s.history.pinned = []
  distinct : recovering = false → s.log.lh.Nodup
  pinned : recovering = false →
    ∀ blockno, blockno ∈ s.history.pinned ↔ blockno ∈ s.log.lh.drop unpinned
  -- nothing has been stored in the blocks since the group was made
  stored : recovering = false → ∀ blockno ∈ s.log.lh, s.latest blockno = want blockno

/-- The list is empty again and the group on the disk is home. -/
structure Erasing (area : Area) (want : Nat → Block) (s : State Pid) : Prop where
  empty : s.log.lh = []
  free : s.history.pinned = []
  home : ∀ blockno ∈ readHeader (s.disk area.start), s.disk blockno = want blockno

structure Erased (area : Area) (s : State Pid) : Prop where
  empty : s.log.lh = []
  free : s.history.pinned = []
  header : readHeader (s.disk area.start) = []

def Pc.Phase (area : Area) (want : Nat → Block) (s : State Pid) (recovering : Bool) : Pc → Prop
  | .readHead | .copyHead _ => recovering = true ∧ s.log.lh = [] ∧ s.history.pinned = []
  | .brelseHead _ => recovering = true ∧ Installing area want s recovering 0 0
  | .test => recovering = false ∧ Collecting area s
  | .logTo tail =>
    recovering = false ∧ Collecting area s ∧ Copied area s tail ∧ tail ≤ s.log.lh.length ∧
      s.log.lh ≠ []
  | .logFrom tail _ | .logCopy tail _ _ | .logWrite tail _ _ =>
    recovering = false ∧ Collecting area s ∧ Copied area s tail ∧ tail < s.log.lh.length
  | .logRelseFrom tail _ _ | .logRelseTo tail _ =>
    recovering = false ∧ Collecting area s ∧ Copied area s (tail + 1) ∧ tail < s.log.lh.length
  | .headRead false | .headFill false _ | .headWrite false _ =>
    recovering = false ∧ Collecting area s ∧ Copied area s s.log.lh.length ∧ s.log.lh ≠ []
  | .headRelse false _ => recovering = false ∧ Installing area want s recovering 0 0
  | .headRead true | .headFill true _ | .headWrite true _ => Erasing area want s
  | .headRelse true _ | .done => Erased area s
  | .instFrom tail =>
    Installing area want s recovering tail tail ∧ tail ≤ s.log.lh.length
  | .instTo tail _ | .instCopy tail _ _ | .instWrite tail _ _ =>
    Installing area want s recovering tail tail ∧ tail < s.log.lh.length
  | .instUnpin tail _ _ =>
    Installing area want s recovering (tail + 1) tail ∧ tail < s.log.lh.length ∧
      s.disk (s.log.lh.getD tail 0) = s.latest (s.log.lh.getD tail 0)
  | .instRelseFrom tail _ _ | .instRelseTo tail _ =>
    Installing area want s recovering (tail + 1) (tail + 1) ∧ tail < s.log.lh.length
  | .clear => Installing area want s recovering s.log.lh.length s.log.lh.length

/-- The buffers each statement relies on. -/
def Pc.needs (area : Area) (s : State Pid) : Pc → List Need
  | .copyHead i => [.gets i area.start]
  | .brelseHead i => [.has i area.start]
  | .logFrom tail toBuf => [.gets toBuf (area.slot tail)]
  | .logCopy tail toBuf fromBuf =>
    [.has toBuf (area.slot tail), .gets fromBuf (s.log.lh.getD tail 0)]
  | .logWrite tail toBuf fromBuf =>
    [.changed toBuf (area.slot tail) fun data => data = s.latest (s.log.lh.getD tail 0),
      .has fromBuf (s.log.lh.getD tail 0)]
  | .logRelseFrom tail toBuf fromBuf =>
    [.has toBuf (area.slot tail), .has fromBuf (s.log.lh.getD tail 0)]
  | .logRelseTo tail toBuf => [.has toBuf (area.slot tail)]
  | .headFill _ i => [.gets i area.start]
  | .headWrite _ i => [.changed i area.start fun data => readHeader data = s.log.lh]
  | .headRelse _ i => [.has i area.start]
  | .instTo tail lbuf => [.gets lbuf (area.slot tail)]
  | .instCopy tail lbuf dbuf =>
    [.has lbuf (area.slot tail), .gets dbuf (s.log.lh.getD tail 0)]
  | .instWrite tail lbuf dbuf =>
    [.has lbuf (area.slot tail),
      .changed dbuf (s.log.lh.getD tail 0) fun data => data = s.disk (area.slot tail)]
  | .instUnpin tail lbuf dbuf | .instRelseFrom tail lbuf dbuf =>
    [.has lbuf (area.slot tail), .has dbuf (s.log.lh.getD tail 0)]
  | .instRelseTo tail dbuf => [.has dbuf (s.log.lh.getD tail 0)]
  | .readHead | .test | .logTo _ | .headRead _ | .instFrom _ | .clear | .done => []

/-- What holds where a process is in `commit` or recovery. -/
structure Pc.Good (area : Area) (want : Nat → Block) (s : State Pid) (p : Pid)
    (recovering : Bool) (pc : Pc) : Prop where
  phase : pc.Phase area want s recovering
  met : ∀ need ∈ pc.needs area s, need.Met s p

/-! ## Steps outside the log -/

/-- The step leaves the disk, the list of blocks and what has been stored. -/
structure SameLog (s t : State Pid) : Prop where
  disk : t.disk = s.disk
  history : t.history = s.history
  lh : t.log.lh = s.log.lh
  dev : t.log.dev = s.log.dev

section Congruence

variable {area : Area} {want : Nat → Block} {s t : State Pid} {recovering : Bool} {pc : Pc}

section

variable (same : SameLog s t) {k : Nat}
include same

theorem SameLog.latest (blockno : Nat) : t.latest blockno = s.latest blockno := by
  simp only [State.latest, same.history, same.dev]

theorem SameLog.collecting (collecting : Collecting area s) : Collecting area t where
  header := by
    rw [same.disk]
    exact collecting.header
  fits := by
    rw [same.lh]
    exact collecting.fits
  distinct := by
    rw [same.lh]
    exact collecting.distinct
  pinned := by
    rw [same.lh, same.history]
    exact collecting.pinned

theorem SameLog.copied (copied : Copied area s k) : Copied area t k := by
  intro j bound
  rw [same.disk, same.latest, same.lh]
  exact copied j bound

theorem SameLog.installing {unpinned : Nat}
    (installing : Installing area want s recovering k unpinned) :
    Installing area want t recovering k unpinned where
  header := by
    rw [same.disk, same.lh]
    exact installing.header
  home := by
    rw [same.disk, same.lh]
    exact installing.home
  free := by
    rw [same.history]
    exact installing.free
  distinct := by
    rw [same.lh]
    exact installing.distinct
  pinned := by
    rw [same.history, same.lh]
    exact installing.pinned
  stored := by
    rw [same.lh]
    intro commits blockno mem
    rw [same.latest]
    exact installing.stored commits blockno mem

theorem SameLog.erasing (erasing : Erasing area want s) : Erasing area want t :=
  ⟨same.lh.trans erasing.empty, by rw [same.history]; exact erasing.free,
    by rw [same.disk]; exact erasing.home⟩

theorem SameLog.erased (erased : Erased area s) : Erased area t :=
  ⟨same.lh.trans erased.empty, by rw [same.history]; exact erased.free,
    by rw [same.disk]; exact erased.header⟩

theorem SameLog.phase (phase : pc.Phase area want s recovering) :
    pc.Phase area want t recovering := by
  cases pc with
  | readHead | copyHead i =>
    exact ⟨phase.1, same.lh.trans phase.2.1, by rw [same.history]; exact phase.2.2⟩
  | brelseHead i => exact ⟨phase.1, same.installing phase.2⟩
  | test => exact ⟨phase.1, same.collecting phase.2⟩
  | logTo _ | logFrom _ _ | logCopy _ _ _ | logWrite _ _ _ | logRelseFrom _ _ _ | logRelseTo _ _ =>
    exact ⟨phase.1, same.collecting phase.2.1, same.copied phase.2.2.1, same.lh ▸ phase.2.2.2⟩
  | headRead erase | headFill erase i | headWrite erase i =>
    cases erase with
    | true => exact same.erasing phase
    | false =>
      exact ⟨phase.1, same.collecting phase.2.1, same.lh ▸ same.copied phase.2.2.1,
        same.lh ▸ phase.2.2.2⟩
  | headRelse erase i =>
    cases erase with
    | true => exact same.erased phase
    | false => exact ⟨phase.1, same.installing phase.2⟩
  | instFrom tail => exact ⟨same.installing phase.1, same.lh ▸ phase.2⟩
  | instTo tail lbuf | instCopy tail lbuf dbuf | instWrite tail lbuf dbuf =>
    exact ⟨same.installing phase.1, same.lh ▸ phase.2⟩
  | instUnpin tail lbuf dbuf =>
    refine ⟨same.installing phase.1, same.lh ▸ phase.2.1, ?_⟩
    rw [same.disk, same.latest, same.lh]
    exact phase.2.2
  | instRelseFrom tail lbuf dbuf | instRelseTo tail dbuf =>
    exact ⟨same.installing phase.1, same.lh ▸ phase.2⟩
  | clear =>
    have kept := same.installing phase
    simp only [Pc.Phase, same.lh]
    exact kept
  | done => exact same.erased phase

theorem SameLog.needs : pc.needs area t = pc.needs area s := by
  cases pc <;> simp only [Pc.needs, same.lh, same.latest, same.disk]

end

/-- **The other processes do not disturb `commit`.** -/
theorem Pc.Good.undisturbed {p : Pid} (good : pc.Good area want s p recovering)
    (same : SameLog s t) (still : Undisturbed s t p) : pc.Good area want t p recovering where
  phase := same.phase good.phase
  met := by
    rw [same.needs]
    exact fun need mem => (good.met need mem).undisturbed still

end Congruence

end Xv6.Bio
