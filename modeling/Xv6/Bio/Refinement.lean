import Mathlib.Algebra.BigOperators.Group.Finset.Piecewise
import Xv6.Bio.Invariant

/-!
# The cache and the log are a plain block store

The abstract component is a block store: a map from block numbers to data whose
only operation is a write. The cache and the log refine it. The store of a state
is what has last been stored in each block (`State.latest`).
-/

namespace Xv6.Bio

open State

variable {Pid : Type} [DecidableEq Pid] [Fintype Pid] {p q first : Pid} {i : Fin NBUF}
  {act : Act Pid} {blockno device : Nat} {r : Bool} {pc : Pc} {acts : List (Act Pid)}
  {writable : Nat → Nat → Prop}
variable {area : Area} {dev : Nat} {base : Nat → Block} {s t : State Pid}

/-! ## Buffers while another process runs the log -/

theorem Undisturbed.setCtl {ctl : Ctl} (still : Undisturbed s t p) (other : p ≠ q) :
    Undisturbed s (t.setCtl q ctl) p where
  owns := by
    rw [State.setCtl, procs_ne other]
    exact still.owns
  busy := by
    rw [State.setCtl, procs_ne other]
    exact still.busy
  dev := still.dev
  blockno := still.blockno
  data := still.data
  log := still.log

theorem Undisturbed.setData (coherent : Coherent s) {data : Block}
    (quiet : (s.procs q).busy = .no) (owned : (s.procs q).owns i ≠ none) (other : p ≠ q) :
    Undisturbed s (s.setData q i data) p :=
  .of_local coherent (Local.setData quiet data) other (.inr (.inl owned))

theorem Undisturbed.brelse (coherent : Coherent s)
    (quiet : (s.procs q).busy = .no) (other : p ≠ q) : Undisturbed s (s.brelse q i) p :=
  .of_local coherent (Local.brelse quiet) other (.inl (by simp [State.brelse]))

theorem Undisturbed.bwrite (other : p ≠ q) : Undisturbed s (s.bwrite q i) p :=
  .of_proc rfl rfl (procs_bwrite_of_ne other)

theorem Undisturbed.unpin (i : Fin NBUF) : Undisturbed s (s.unpin i) p := by
  have fields : ∀ j, ((s.unpin i).cache.buf j).dev = (s.cache.buf j).dev ∧
      ((s.unpin i).cache.buf j).blockno = (s.cache.buf j).blockno ∧
      ((s.unpin i).cache.buf j).data = (s.cache.buf j).data := by
    intro j
    by_cases same : j = i
    · simp [State.unpin, Bcache.bunpin, same]
    · simp [State.unpin, Bcache.bunpin, Bcache.modify_of_ne same]
  exact ⟨rfl, rfl, fun j _ => (fields j).1, fun j _ => (fields j).2.1,
    fun j _ => (fields j).2.2, rfl⟩

/-- A statement of `commit` or recovery leaves the buffers of the others. -/
theorem instr_undisturbed (inv : Inv area dev base s)
    (here : (s.procs q).ctl = .running r pc) (quiet : (s.procs q).busy = .no) (other : p ≠ q) :
    Undisturbed s (instr s q r pc) p := by
  have coherent := inv.healthy.coherent
  have good := inv.running q r pc here
  have self : Undisturbed s s p := .of_proc rfl rfl rfl
  have owned : ∀ {i : Fin NBUF} {blockno : Nat}, (Need.has i blockno).Met s q →
      (s.procs q).owns i ≠ none := fun met => by simp [met.2]
  cases pc with
  | readHead | logFrom _ _ | headRead _ | instTo _ _ =>
    exact .bget coherent _ quiet other
  | copyHead _ | clear => exact Undisturbed.setCtl (.of_proc rfl rfl rfl) other
  | brelseHead _ | logRelseFrom _ _ _ | logRelseTo _ _ | headRelse _ _ | instRelseFrom _ _ _
  | instRelseTo _ _ =>
    exact (Undisturbed.brelse coherent quiet other).setCtl other
  | test =>
    simp only [instr]
    split <;> exact self.setCtl other
  | logTo _ | instFrom _ =>
    simp only [instr]
    split
    · exact .bget coherent _ quiet other
    · exact self.setCtl other
  | logCopy tail toBuf fromBuf =>
    exact (Undisturbed.setData coherent quiet (owned (good.met _ List.mem_cons_self))
      other).setCtl other
  | logWrite _ _ _ | instWrite _ _ _ => exact (Undisturbed.bwrite other).setCtl other
  | headFill erase i =>
    have met := (good.met _ List.mem_cons_self).has_of_gets quiet
    exact (Undisturbed.setData coherent quiet (owned met) other).setCtl other
  | headWrite erase i =>
    have written : Undisturbed s ((s.bwrite q i).setCtl q (.running r (.headRelse erase i))) p :=
      (Undisturbed.bwrite other).setCtl other
    simp only [instr]
    split
    · exact written
    · exact { written with }
  | instCopy tail lbuf dbuf =>
    have met := (good.met _ (List.mem_cons_of_mem _ List.mem_cons_self)).has_of_gets quiet
    exact (Undisturbed.setData coherent quiet (owned met) other).setCtl other
  | instUnpin tail lbuf dbuf =>
    simp only [instr]
    split
    · exact self.setCtl other
    · exact (Undisturbed.unpin dbuf).setCtl other
  | done =>
    simp only [instr]
    split
    · exact .of_cache rfl rfl rfl rfl
    · refine Undisturbed.setCtl (.of_cache rfl rfl ?_ ?_) other
      · simp only [wakeup]
        split <;> rfl
      · simp only [wakeup]
        split <;> rfl

/-- **No step of another process touches the buffers of a process.** -/
theorem Inv.undisturbed (inv : Inv area dev base s)
    (effect : Effect first s act t) (actor : act.actor = some q) (other : p ≠ q) :
    Undisturbed s t p := by
  by_cases runs : act = .run q
  · subst runs
    cases effect with
    | run here quiet => exact instr_undisturbed inv here quiet other
  · exact effect.undisturbed inv.healthy.coherent actor other runs

/-! ## The store -/

/-- What a step stores: a `log_write` that returns stores the data of its
buffer. -/
def stores (s : State Pid) : Act Pid → Option (Nat × Block)
  | .logWrite _ i =>
    match s.log.logWrite (s.cache.buf i).blockno with
    | .ok _ => some ((s.cache.buf i).blockno, (s.cache.buf i).data)
    | .error _ => none
  | _ => none

/-- The operation of a plain block store. -/
def put (store : Nat → Block) : Option (Nat × Block) → Nat → Block
  | some (blockno, data) => Function.update store blockno data
  | none => store

theorem State.latest_stored (device : (s.cache.buf i).dev = s.log.dev)
    (blockno : Nat) : (s.stored p i).latest blockno =
      put s.latest (some ((s.cache.buf i).blockno, (s.cache.buf i).data)) blockno := by
  have written : (s.stored p i).latest blockno = (s.bwrite p i).latest blockno := rfl
  rw [written, State.latest_bwrite device, put, Function.update_apply]

/-- A write of `commit` or recovery to a block outside the log stores nothing
new. -/
theorem latest_instr (inv : Inv area dev base s)
    (here : (s.procs p).ctl = .running r pc) (calm : r = false) (outside : ¬ area.Inside blockno) :
    (instr s p r pc).latest blockno = s.latest blockno := by
  have coherent := inv.healthy.coherent
  have good := inv.running p r pc here
  have unread : ∀ (number : Nat) (after : Fin NBUF → Ctl),
      (s.bget p s.log.dev number after).latest blockno = s.latest blockno := by
    intro number after
    unfold bget
    split <;> rfl
  have start : area.Inside area.start := by
    have := inv.healthy.durable.fits.room
    unfold Area.Inside
    omega
  cases pc with
  | readHead | logFrom _ _ | headRead _ | instTo _ _ => exact unread _ _
  | test | instUnpin _ _ _ | done =>
    simp only [instr]
    split <;> rfl
  | logTo _ | instFrom _ =>
    simp only [instr]
    split
    · exact unread _ _
    · rfl
  | logWrite tail toBuf fromBuf =>
    obtain ⟨-, collecting, -, bound⟩ := good.phase
    have met := good.met _ List.mem_cons_self
    have written := Written.bwrite coherent met
    have other : blockno ≠ area.slot tail :=
      fun same => outside (same ▸ collecting.fits.slot_inside bound)
    exact (written.latest blockno).trans (if_neg other)
  | headWrite erase i =>
    have met := good.met _ List.mem_cons_self
    have written := Written.bwrite coherent met
    have other : blockno ≠ area.start := fun same => outside (same ▸ start)
    have kept : (s.bwrite p i).latest blockno = s.latest blockno :=
      (written.latest blockno).trans (if_neg other)
    simp only [instr]
    split
    · exact kept
    · exact kept
  | instWrite tail lbuf dbuf =>
    obtain ⟨installing, bound⟩ := good.phase
    have met := good.met _ (List.mem_cons_of_mem _ List.mem_cons_self)
    have written := Written.bwrite coherent met
    by_cases same : blockno = s.log.lh.getD tail 0
    · -- the block comes home with the data the group committed
      have listed : tail < (readHeader (s.disk area.start)).length := by
        rw [installing.header]
        exact bound
      have entry : (readHeader (s.disk area.start))[tail] = s.log.lh.getD tail 0 := by
        simp only [installing.header, List.getD_eq_getElem _ _ bound]
      have mem : s.log.lh.getD tail 0 ∈ s.log.lh := by
        rw [List.getD_eq_getElem _ _ bound]
        exact List.getElem_mem bound
      have data : (s.cache.buf dbuf).data = s.disk (area.slot tail) := met.2.2
      refine (written.latest blockno).trans ?_
      rw [if_pos same, data, inv.healthy.durable.logged tail listed, entry, same,
        installing.stored calm _ mem]
    · exact (written.latest blockno).trans (if_neg same)
  | _ => rfl

/-- **A step is a step of the plain block store**: a `log_write` that returns writes the data of
its buffer, and no other step writes. -/
theorem latest_step (inv : Inv area dev base s)
    (allowed : act.Allowed (HomeBlock area dev) s) (effect : Effect first s act t)
    (up : ¬ Recovering s) (lives : act ≠ .crash) (outside : ¬ area.Inside blockno) :
    t.latest blockno = put s.latest (stores s act) blockno := by
  cases effect with
  | call | enter | sleep | last | more | interrupted | acquire | modify | brelse | release => rfl
  | load here =>
    rw [load_eq]
    rfl
  | bread =>
    unfold bget
    split <;> rfl
  | @absorb p i client quiet owned room began old =>
    have device : (s.cache.buf i).dev = s.log.dev := allowed.1.trans inv.device.symm
    have returns : stores s (.logWrite p i) =
        some ((s.cache.buf i).blockno, (s.cache.buf i).data) := by
      unfold Log.Full at room
      simp only [stores, Log.logWrite, if_neg room, if_neg (not_lt.mpr began), if_pos old]
    rw [returns, latest_stored device]
  | @append p i client quiet owned room began new =>
    have device : (s.cache.buf i).dev = s.log.dev := allowed.1.trans inv.device.symm
    have returns : stores s (.logWrite p i) =
        some ((s.cache.buf i).blockno, (s.cache.buf i).data) := by
      unfold Log.Full at room
      simp only [stores, Log.logWrite, if_neg room, if_neg (not_lt.mpr began), if_neg new]
    have same : ((s.cache.bpin i).buf i).dev = (s.cache.buf i).dev ∧
        ((s.cache.bpin i).buf i).blockno = (s.cache.buf i).blockno ∧
        ((s.cache.bpin i).buf i).data = (s.cache.buf i).data := by simp [Bcache.bpin]
    rw [returns, latest_stored (same.1.trans device)]
    change put s.latest (some (((s.cache.bpin i).buf i).blockno,
      ((s.cache.bpin i).buf i).data)) blockno = _
    rw [same.2.1, same.2.2]
  | @refused p i why client failed =>
    have nothing : stores s (.logWrite p i) = none := by simp only [stores, failed]
    rw [nothing]
    rfl
  | @run p r pc here quiet =>
    cases r with
    | true => exact absurd ⟨p, pc, here⟩ up
    | false => exact latest_instr inv here rfl outside
  | crash => exact absurd rfl lives

/-- The plain block store after a list of steps. -/
def storeAfter (first : Pid) : State Pid → (Nat → Block) → List (Act Pid) → Nat → Block
  | _, store, [] => store
  | s, store, act :: acts =>
    match next first s act with
    | some t => storeAfter first t (put store (stores s act)) acts
    | none => store

theorem put_congr {left right : Nat → Block}
    (same : left blockno = right blockno) (entry : Option (Nat × Block)) :
    put left entry blockno = put right entry blockno := by
  cases entry with
  | none => exact same
  | some entry =>
    simp only [put, Function.update_apply]
    split
    · rfl
    · exact same

/-- **A run without a crash is a run of the plain block store.** -/
theorem latest_run
    (run : Run (Step first (HomeBlock area dev)) s acts t) (inv : Inv area dev base s)
    (up : ¬ Recovering s) (lives : Act.crash ∉ acts)
    (outside : ¬ area.Inside blockno) {store : Nat → Block}
    (start : s.latest blockno = store blockno) :
    t.latest blockno = storeAfter first s store acts blockno := by
  induction acts generalizing s store with
  | nil =>
    cases run.nil_eq
    exact start
  | cons act acts ih =>
    obtain ⟨v, step, rest⟩ := run.cons_inv
    have alive : act ≠ .crash := fun same => lives (same ▸ List.mem_cons_self)
    obtain ⟨allowed, effect⟩ := step.effect
    have stored : v.latest blockno = put store (stores s act) blockno := by
      rw [latest_step inv allowed effect up alive outside]
      exact put_congr start _
    rw [storeAfter, step.2.2]
    exact ih rest (inv.effect allowed effect)
      (fun after => up (effect.recovering inv.control alive after))
      (fun mem => lives (List.mem_cons_of_mem _ mem)) stored

/-! ## What `bread` returns -/

/-- The process is in `bread` of the block. -/
def Pending (s : State Pid) (p : Pid) (device blockno : Nat) : Prop :=
  ∃ i, ((s.procs p).busy = .waiting i ∨ (s.procs p).busy = .locked i) ∧
    (s.cache.buf i).dev = device ∧ (s.cache.buf i).blockno = blockno

theorem Pending.of_bread (coherent : Coherent s) (ctl : Ctl)
    (going : (s.bget p device blockno fun _ => ctl).panicked = none) :
    Pending (s.bget p device blockno fun _ => ctl) p device blockno := by
  unfold bget at going ⊢
  split at going
  next cache i got =>
    refine ⟨i, .inl (by simp), ?_⟩
    rcases Bcache.bget_cases coherent.listed got with ⟨same, number, rfl⟩ | ⟨-, -, rfl⟩
    · exact ⟨by simpa [Bcache.bpin] using same, by simpa [Bcache.bpin] using number⟩
    · exact ⟨by simp, by simp⟩
  next => cases going

theorem Pending.step (inv : Inv area dev base s) (pending : Pending s p device blockno)
    (effect : Effect first s act t) (lives : act ≠ .crash)
    (own : act.actor = some p → act = .acquire p) : Pending t p device blockno := by
  obtain ⟨i, busy, same, number⟩ := pending
  cases actor : act.actor with
  | none =>
    cases act <;> first | exact absurd rfl lives | cases actor
  | some q =>
    by_cases mine : p = q
    · subst mine
      have acquires := own actor
      subst acquires
      cases effect with
      | @acquire _ j here free =>
        have target : j = i := by
          rcases busy with waiting | locked
          · rw [here] at waiting
            cases waiting
            rfl
          · rw [here] at locked
            cases locked
        subst target
        have near := Local.acquire here
        refine ⟨j, .inr (by simp), ?_, ?_⟩
        · rw [near.dev]
          exact same
        · rw [near.blockno]
          exact number
    · have still := inv.undisturbed effect actor mine
      have used : 0 < (s.procs p).refs i := by
        refine Proc.refs_pos_of_busy ?_
        rcases busy with waiting | locked
        · rw [waiting]
          rfl
        · rw [locked]
          rfl
      refine ⟨i, ?_, ?_, ?_⟩
      · rw [still.busy]
        exact busy
      · rw [still.dev i used, same]
      · rw [still.blockno i used, number]

/-- **`bread` returns what is stored in the block it was asked for.** -/
theorem load_returns (inv : Inv area dev base s)
    (pending : Pending s p dev blockno) (effect : Effect first s (.load p) t) :
    ∃ i, (Need.has i blockno).Met t p ∧ (t.cache.buf i).data = t.latest blockno := by
  obtain ⟨i, busy, same, number⟩ := pending
  cases effect with
  | @load _ j here =>
    have target : j = i := by
      rcases busy with waiting | locked
      · rw [here] at waiting
        cases waiting
      · rw [here] at locked
        cases locked
        rfl
    subst target
    have near := Local.load here
    have met : (Need.has j blockno).Met (s.load p j) p := by
      refine ⟨near.caches ⟨same.trans inv.device.symm, number⟩, ?_⟩
      rw [load_eq]
      simp
    exact ⟨j, met, (inv.healthy.coherent.load here).data_of_has met⟩

/-! ## Reference counts -/

/-- The processes to which `bread` has returned the buffer and that have not
released it. -/
def State.holders (s : State Pid) (i : Fin NBUF) : Finset Pid :=
  Finset.univ.filter fun p => (s.procs p).owns i ≠ none

/-- The processes inside a `bread` or `brelse` of the buffer. -/
def State.waiters (s : State Pid) (i : Fin NBUF) : Finset Pid :=
  Finset.univ.filter fun p => (s.procs p).busy.buffer = some i

theorem State.users_eq (s : State Pid) (i : Fin NBUF) :
    s.users i = (s.holders i).card + (s.waiters i).card := by
  unfold State.users State.holders State.waiters Proc.refs
  rw [Finset.sum_add_distrib, Finset.card_filter, Finset.card_filter]
  congr 1
  refine Finset.sum_congr rfl fun p _ => ?_
  by_cases none : (s.procs p).owns i = none
  · rw [if_pos none, if_neg (not_not.mpr none)]
  · rw [if_neg none, if_pos none]

/-- **The count of a buffer**, while nobody is in `commit` or recovery. -/
theorem refcnt_eq (inv : Inv area dev base s) (nobody : ∀ p r, ¬ s.Runs p r) (i : Fin NBUF) :
    (s.cache.buf i).refcnt = (s.holders i).card + (s.waiters i).card +
      if (s.cache.buf i).dev = dev ∧ (s.cache.buf i).blockno ∈ s.log.lh then 1 else 0 := by
  have collecting := inv.collecting nobody
  rw [inv.healthy.coherent.counted i, users_eq]
  unfold pins
  simp only [inv.device, collecting.pinned]

/-! ## Recycling -/

/-- No buffer in use gets another block. -/
def Steady (s t : State Pid) : Prop :=
  ∀ i, (s.cache.buf i).refcnt ≠ 0 → (t.cache.buf i).dev = (s.cache.buf i).dev ∧
    (t.cache.buf i).blockno = (s.cache.buf i).blockno

theorem Steady.of_cache (same : t.cache = s.cache) : Steady s t := by
  intro i _
  rw [same]
  exact ⟨rfl, rfl⟩

theorem Steady.of_modify {f : Buf Pid → Buf Pid} (change : t.cache.buf = (s.cache.modify i f).buf)
    (dev : ∀ b, (f b).dev = b.dev) (blockno : ∀ b, (f b).blockno = b.blockno) : Steady s t := by
  intro j _
  rw [change]
  by_cases same : j = i
  · subst same
    rw [Bcache.modify_self]
    exact ⟨dev _, blockno _⟩
  · rw [Bcache.modify_of_ne same]
    exact ⟨rfl, rfl⟩

theorem Steady.bget (listed : s.cache.Listed) (p : Pid) (device blockno : Nat)
    (ctl : Fin NBUF → Ctl) : Steady s (s.bget p device blockno ctl) := by
  unfold State.bget
  split
  next cache i got =>
    rcases Bcache.bget_cases listed got with ⟨-, -, rfl⟩ | ⟨-, zero, rfl⟩
    · exact .of_modify rfl (fun _ => rfl) fun _ => rfl
    · intro j used
      have other : j ≠ i := fun same => used (same ▸ zero)
      simp [Bcache.modify_of_ne other]
  next => exact .of_cache rfl

theorem Steady.instr (listed : s.cache.Listed) (p : Pid) (r : Bool) (pc : Pc) :
    Steady s (Bio.instr s p r pc) := by
  have relse : ∀ i, Steady s (s.brelse p i) := fun i =>
    .of_modify rfl (fun _ => rfl) fun _ => rfl
  have fill : ∀ i data, Steady s (s.setData p i data) := fun i data =>
    .of_modify rfl (fun _ => rfl) fun _ => rfl
  have unpin : ∀ i, Steady s (s.unpin i) := fun i =>
    .of_modify rfl (fun _ => rfl) fun _ => rfl
  cases pc with
  | readHead | headRead _ => exact .bget listed _ _ _ _
  | logFrom _ _ | instTo _ _ => exact .bget listed _ _ _ _
  | copyHead _ | clear => exact .of_cache rfl
  | brelseHead i | logRelseFrom _ _ i | logRelseTo _ i => exact relse i
  | headRelse _ i | instRelseFrom _ i _ | instRelseTo _ i => exact relse i
  | logCopy _ i _ | headFill _ i | instCopy _ _ i => exact fill i _
  | logWrite _ _ _ | instWrite _ _ _ => exact .of_cache rfl
  | test =>
    simp only [Bio.instr]
    split <;> exact .of_cache rfl
  | logTo tail | instFrom tail =>
    simp only [Bio.instr]
    split
    · exact .bget listed _ _ _ _
    · exact .of_cache rfl
  | headWrite erase i => cases erase <;> exact .of_cache rfl
  | instUnpin tail lbuf dbuf =>
    cases r
    · exact unpin dbuf
    · exact .of_cache rfl
  | done => cases r <;> exact .of_cache rfl

/-- **`bget` recycles only buffers that nobody uses**, and nothing else gives a
buffer another block. -/
theorem Effect.steady (effect : Effect first s act t)
    (listed : s.cache.Listed) (lives : act ≠ .crash) : Steady s t := by
  cases effect with
  | call | enter | sleep | last | more | interrupted | absorb | refused => exact .of_cache rfl
  | bread => exact .bget listed _ _ _ _
  | acquire | append | modify | brelse => exact .of_modify rfl (fun _ => rfl) fun _ => rfl
  | load =>
    unfold State.load
    split
    · exact .of_cache rfl
    · exact .of_modify rfl (fun _ => rfl) fun _ => rfl
  | @release _ i =>
    have change : (s.cache.release i).buf =
        (s.cache.modify i fun b => { b with refcnt := b.refcnt - 1 }).buf :=
      s.cache.buf_release i
    exact .of_modify change (fun _ => rfl) fun _ => rfl
  | run => exact .instr listed _ _ _
  | crash => exact absurd rfl lives

/-- **A logged block is not recycled before it is home.** -/
theorem recycled_home (inv : Inv area dev base s)
    (effect : Effect first s act t) (lives : act ≠ .crash)
    (before : s.Caches i blockno) (after : ¬ t.Caches i blockno) (log : t.log.dev = s.log.dev) :
    s.disk blockno = s.latest blockno := by
  refine inv.healthy.coherent.home blockno fun pinned => after ?_
  have used : (s.cache.buf i).refcnt ≠ 0 := by
    have pins : s.pins i = 1 := by
      rw [State.pins, if_pos ⟨before.1, before.2 ▸ pinned⟩]
    have counted := inv.healthy.coherent.counted i
    omega
  obtain ⟨same, number⟩ := effect.steady inv.healthy.coherent.listed lives i used
  exact ⟨by rw [same, log, before.1], by rw [number, before.2]⟩

/-! ## The refinement -/

/-- A run of the callers, the log and crashes from the boot on a disk. -/
def Executes (first : Pid) (area : Area) (dev : Nat) (disk : Nat → Block) (acts : List (Act Pid))
    (s : State Pid) : Prop :=
  Run (Step first (HomeBlock area dev)) (boot first dev area.start area.size disk []) acts s

/-- A process that is in `bread` stays there until it takes the lock and loads
the data. -/
theorem Pending.run (pending : Pending s p device blockno)
    (run : Run (Step first (HomeBlock area dev)) s acts t) (inv : Inv area dev base s)
    (own : ∀ act ∈ acts, act ≠ .crash ∧ (act.actor = some p → act = .acquire p)) :
    Inv area dev base t ∧ Pending t p device blockno := by
  induction run with
  | refl => exact ⟨inv, pending⟩
  | tail _ step ih =>
    obtain ⟨before, waits⟩ := ih fun act mem => own act (List.mem_append_left _ mem)
    obtain ⟨lives, mine⟩ := own _ (List.mem_append_right _ List.mem_cons_self)
    obtain ⟨allowed, effect⟩ := step.effect
    exact ⟨before.effect allowed effect, waits.step before effect lives mine⟩

theorem Step.calm (step : Step first writable s act t) (lives : act ≠ .crash) : s.panicked = none :=
  step.1.resolve_right lives

/-- **`bread` returns the stored data**, whatever the other processes do between
its call and its return. -/
theorem bread_returns {between : List (Act Pid)} {u v : State Pid} (inv : Inv area dev base s)
    (call : Step first (HomeBlock area dev) s (.bread p dev blockno) u)
    (waits : Run (Step first (HomeBlock area dev)) u between v)
    (own : ∀ act ∈ between, act ≠ .crash ∧ (act.actor = some p → act = .acquire p))
    (load : Step first (HomeBlock area dev) v (.load p) t) :
    ∃ i, (t.procs p).owns i = some false ∧ t.Caches i blockno ∧
      (t.cache.buf i).data = t.latest blockno := by
  obtain ⟨allowed, effect⟩ := call.effect
  have later := inv.effect allowed effect
  have calm : u.panicked = none := by
    cases between with
    | nil =>
      cases waits.nil_eq
      exact load.calm (by simp)
    | cons act acts =>
      obtain ⟨w, step, -⟩ := waits.cons_inv
      exact step.calm (own act List.mem_cons_self).1
  have pending : Pending u p dev blockno := by
    cases effect with
    | bread => exact .of_bread inv.healthy.coherent _ calm
  obtain ⟨now, still⟩ := pending.run waits later own
  obtain ⟨i, met, data⟩ := load_returns now still load.effect.2
  exact ⟨i, met.2, met.1, data⟩

/-- **Cache and log refine a plain block store.** Once recovery is over and up to the next crash,
the blocks have what a plain store has after the same `log_write`s, and a `bread` returns it;
buffers are counted, unique, and recycled only when their block is home. -/
theorem block_store {first : Pid} {disk : Nat → Block} {acts : List (Act Pid)} (device : dev ≠ 0)
    (clean : Durable area base disk) (run : Executes first area dev disk acts s) :
    (∀ before after u, acts = before ++ after → Executes first area dev disk before u →
      ¬ Recovering u → Act.crash ∉ after → ∀ blockno, ¬ area.Inside blockno →
      s.latest blockno = storeAfter first u u.latest after blockno) ∧
    (∀ before between p blockno, acts = before ++ .bread p dev blockno :: between ++ [.load p] →
      (∀ act ∈ between, act ≠ .crash ∧ (act.actor = some p → act = .acquire p)) →
      ∃ i, (s.procs p).owns i = some false ∧ s.Caches i blockno ∧
        (s.cache.buf i).data = s.latest blockno) ∧
    (∀ i j, (s.cache.buf i).dev ≠ 0 → (s.cache.buf i).dev = (s.cache.buf j).dev →
      (s.cache.buf i).blockno = (s.cache.buf j).blockno → i = j) ∧
    ((∀ p r, ¬ s.Runs p r) → ∀ i, (s.cache.buf i).refcnt = (s.holders i).card + (s.waiters i).card +
        if (s.cache.buf i).dev = dev ∧ (s.cache.buf i).blockno ∈ s.log.lh then 1 else 0) ∧
    (∀ act t, Step first (HomeBlock area dev) s act t → act ≠ .crash →
      ∀ i blockno, s.Caches i blockno → ¬ t.Caches i blockno →
      s.disk blockno = s.latest blockno) := by
  have inv := Inv.run device clean run
  refine ⟨?_, ?_, inv.healthy.coherent.unique, refcnt_eq inv, ?_⟩
  · intro before after u split early up lives blockno outside
    subst split
    obtain ⟨v, left, right⟩ := Run.split run
    have same : u = v := early.unique
      (fun _ _ _ _ one two => Option.some.inj (one.2.2.symm.trans two.2.2)) left
    subst same
    exact latest_run right (.run device clean early) up lives outside rfl
  · intro before between p blockno split own
    subst split
    obtain ⟨v, earlier, load⟩ := Run.snoc_inv run
    obtain ⟨u, w, start, call, waits⟩ := earlier.at_step
    exact bread_returns (.run device clean start) call waits own load
  · intro act t step lives i blockno before after
    have later := inv.effect step.effect.1 step.effect.2
    exact recycled_home inv step.effect.2 lives before after (later.device.trans inv.device.symm)

/-! ## Executing a list of steps -/

theorem Act.actor_eq_none : act.actor = none ↔ act = .crash := by
  cases act <;> simp [Act.actor]

instance (writable : Nat → Nat → Prop) [∀ device blockno, Decidable (writable device blockno)]
    (s : State Pid) (act : Act Pid) : Decidable (act.Allowed writable s) := by
  cases act <;> unfold Act.Allowed <;> infer_instance

instance (area : Area) (dev device blockno : Nat) : Decidable (HomeBlock area dev device blockno) :=
  inferInstanceAs (Decidable (_ ∧ _ ∧ ¬ (_ ∧ _)))

/-- One step, when it is allowed. -/
def advance (first : Pid) (writable : Nat → Nat → Prop)
    [∀ device blockno, Decidable (writable device blockno)] (s : State Pid) (act : Act Pid) :
    Option (State Pid) :=
  if (s.panicked = none ∨ act.actor = none) ∧ act.Allowed writable s then next first s act
  else none

theorem Step.of_advance [∀ device blockno, Decidable (writable device blockno)]
    (advanced : advance first writable s act = some t) : Step first writable s act t := by
  unfold advance at advanced
  split at advanced
  next allowed =>
    rw [Act.actor_eq_none] at allowed
    exact ⟨allowed.1, allowed.2, advanced⟩
  next => cases advanced

/-- The steps of recovery on a disk with an empty header. -/
def emptyRecovery (p : Pid) : List (Act Pid) :=
  [.run p, .acquire p, .load p, .run p, .run p, .release p, .run p, .run p, .run p, .acquire p,
    .load p, .run p, .run p, .run p, .release p, .run p]

/-- Change block 40 of a device and read it from the log's device. -/
def writeThenRead (device : Nat) : List (Act (Fin 1)) :=
  emptyRecovery 0 ++ [.call 0, .enter 0, .bread 0 device 40, .acquire 0, .load 0,
    .modify 0 1 fun _ => 7, .logWrite 0 1, .brelse 0 1, .release 0, .bread 0 1 40, .acquire 0,
    .load 0]

theorem Durable.blank (area : Area) (room : 0 < area.size) :
    Durable area (fun _ => Bytes.zero BSIZE) fun _ => Bytes.zero BSIZE := by
  refine ⟨?_, ?_, fun _ _ _ => rfl⟩
  · rw [readHeader_zero]
    exact ⟨room, .nil, by simp⟩
  · intro t listed
    simp [readHeader_zero] at listed

/-- The refinement at a run that logs a block and reads it again. -/
theorem block_store_writeThenRead :
    ∃ s, Executes 0 ⟨2, 30⟩ 1 (fun _ => Bytes.zero BSIZE) (writeThenRead 1) s ∧
      s.log.lh = [40] ∧ ∃ i, (s.procs 0).owns i = some false ∧ s.Caches i 40 ∧
        (s.cache.buf i).data = s.latest 40 := by
  have executed : ((writeThenRead 1).foldlM (advance 0 (HomeBlock ⟨2, 30⟩ 1))
      (boot 0 1 2 30 (fun _ => Bytes.zero BSIZE) [])).map (fun s => s.log.lh) = some [40] := by
    decide +kernel
  obtain ⟨s, reached, listed⟩ := Option.map_eq_some_iff.mp executed
  have run : Executes 0 ⟨2, 30⟩ 1 (fun _ => Bytes.zero BSIZE) (writeThenRead 1) s :=
    (Run.of_execute reached).mono fun step => .of_advance step
  obtain ⟨-, returns, -⟩ := block_store (by decide) (Durable.blank _ (by decide)) run
  refine ⟨s, run, listed, ?_⟩
  exact returns ((writeThenRead 1).take 25) [.acquire 0] 0 40 rfl (by simp [Act.actor])

/-- **The callers have to keep to the log's device**, since the log lists a block number without
its device. -/
theorem two_devices_refcnt : ∃ s : State (Fin 1), Run (Step 0 fun device _ => device ≠ 0)
        (boot 0 1 2 30 (fun _ => Bytes.zero BSIZE) []) (writeThenRead 2) s ∧
      (∀ p r, ¬ s.Runs p r) ∧ ∃ i, (s.cache.buf i).dev = 1 ∧ (s.cache.buf i).blockno ∈ s.log.lh ∧
        (s.cache.buf i).refcnt ≠ (s.holders i).card + (s.waiters i).card + 1 := by
  have executed : ((writeThenRead 2).foldlM (advance 0 fun device _ => device ≠ 0)
      (boot 0 1 2 30 (fun _ => Bytes.zero BSIZE) [])).map (fun s =>
        ((s.procs 0).ctl, s.log.lh, (s.cache.buf 2).dev, (s.cache.buf 2).blockno,
          (s.cache.buf 2).refcnt, (s.holders 2).card)) = some (.inOp, [40], 1, 40, 1, 1) := by
    decide +kernel
  obtain ⟨s, reached, facts⟩ := Option.map_eq_some_iff.mp executed
  simp only [Prod.mk.injEq] at facts
  obtain ⟨ctl, listed, device, number, count, holder⟩ := facts
  refine ⟨s, (Run.of_execute reached).mono fun step => .of_advance step, ?_, 2, device, ?_, ?_⟩
  · rintro p r ⟨pc, running⟩
    rw [Subsingleton.elim p 0, ctl] at running
    cases running
  · simp [listed, number]
  · omega

end Xv6.Bio
