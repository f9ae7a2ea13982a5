import Xv6.Bio.Refinement

/-!
# A crash leaves whole groups

A group of blocks is committed by the write of its header (`commits`). After a
crash at any point, recovery brings the disk to the committed groups, however
often it is itself cut short by a crash and started again (`crash_atomic`).
-/

namespace Xv6.Bio

open List (append_nil mem_cons_self)

open Function State

variable {Pid : Type} [DecidableEq Pid] [Fintype Pid] {first : Pid} {act : Act Pid}
  {acts : List (Act Pid)} {r : Bool} {blockno : Nat}
variable {area : Area} {dev : Nat} {base : Nat → Block} {s t : State Pid}

/-! ## Committed groups -/

/-- The group a step commits: the write of a header in `commit`, other than the
one that erases it. -/
def commits (s : State Pid) : Act Pid → List (List (Nat × Block))
  | .run p =>
    match (s.procs p).ctl with
    | .running _ (.headWrite false _) => [s.group]
    | _ => []
  | _ => []

/-- The groups that a list of steps commits, oldest first. -/
def groupsOf (first : Pid) : State Pid → List (Act Pid) → List (List (Nat × Block))
  | _, [] => []
  | s, act :: acts =>
    commits s act ++
      match next first s act with
      | some t => groupsOf first t acts
      | none => []

theorem committed_bget (p : Pid) (device blockno : Nat) (ctl : Fin NBUF → Ctl) :
    (s.bget p device blockno ctl).history.committed = s.history.committed := by
  unfold bget
  split <;> rfl

section

variable (inv : Inv area dev base s)
include inv

theorem group_bwrite {p : Pid} {i : Fin NBUF}
    (here : (s.procs p).ctl = .running r (.headWrite false i)) :
    (s.bwrite p i).group = s.group := by
  have good := inv.running p r _ here
  obtain ⟨-, collecting, -⟩ := good.phase
  have met := good.met _ mem_cons_self
  have written := Written.bwrite inv.healthy.coherent met
  refine List.map_congr_left fun blockno mem => ?_
  have other : blockno ≠ area.start := by
    rintro rfl
    refine collecting.fits.outside _ mem ?_
    have := collecting.fits.room
    unfold Area.Inside
    omega
  have same : (s.bwrite p i).latest blockno = s.latest blockno := by
    rw [written.latest, if_neg other]
  exact Prod.ext rfl same

theorem committed_instr {p : Pid} {pc : Pc} (here : (s.procs p).ctl = .running r pc) :
    (instr s p r pc).history.committed = s.history.committed ++ commits s (.run p) := by
  cases pc with
  | headWrite erase i =>
    cases erase with
    | true => simp [commits, here, instr, setCtl, bwrite, stored]
    | false =>
      simp only [commits, here, ← group_bwrite inv here]
      rfl
  | readHead | headRead erase => simp [commits, here, instr, committed_bget]
  | logFrom tail i | instTo tail i => simp [commits, here, instr, committed_bget]
  | logTo tail | instFrom tail =>
    simp only [commits, here, instr, append_nil]
    split
    · exact committed_bget ..
    · rfl
  | test =>
    simp only [commits, here, instr, append_nil]
    split <;> rfl
  | instUnpin tail i j | done =>
    simp only [commits, here, instr, append_nil]
    split <;> rfl
  | _ => simp only [commits, here, instr, append_nil]; rfl

theorem committed_step (effect : Effect first s act t) :
    t.history.committed = s.history.committed ++ commits s act := by
  cases effect with
  | run here _ => exact committed_instr inv here
  | bread => simp [commits, committed_bget]
  | load => simp [commits, load_eq]
  | _ => simp only [commits, append_nil]; rfl

theorem committed_run (run : Run (Step first (HomeBlock area dev)) s acts t) :
    t.history.committed = s.history.committed ++ groupsOf first s acts := by
  induction acts generalizing s with
  | nil =>
    cases run.nil_eq
    simp [groupsOf]
  | cons act acts ih =>
    obtain ⟨u, step, rest⟩ := run.cons_inv
    obtain ⟨allowed, effect⟩ := step.effect
    rw [ih (inv.effect allowed effect) rest, committed_step inv effect, groupsOf, step.2.2,
      List.append_assoc]

theorem commits_ne_nil {group : List (Nat × Block)} (mem : group ∈ commits s act) : group ≠ [] := by
  unfold commits at mem
  split at mem
  next p =>
    split at mem
    next r i here =>
      obtain ⟨-, -, -, some⟩ := (inv.running p r _ here).phase
      rw [List.mem_singleton.mp mem, State.group]
      simpa using some
    next => cases mem
  next => cases mem

theorem groupsOf_ne_nil (run : Run (Step first (HomeBlock area dev)) s acts t) :
    ∀ group ∈ groupsOf first s acts, group ≠ [] := by
  induction acts generalizing s with
  | nil => simp [groupsOf]
  | cons act acts ih =>
    intro group mem
    obtain ⟨u, step, rest⟩ := run.cons_inv
    obtain ⟨allowed, effect⟩ := step.effect
    rw [groupsOf, step.2.2] at mem
    rcases List.mem_append.mp mem with now | later
    · exact commits_ne_nil inv now
    · exact ih (inv.effect allowed effect) rest group later

end

/-! ## Recovery -/

/-- The steps of recovery, crashes included. -/
def RecoveryStep (first : Pid) (area : Area) (dev : Nat) (s : State Pid) (act : Act Pid)
    (t : State Pid) : Prop :=
  Recovering s ∧ Step first (HomeBlock area dev) s act t

/-- While the first process recovers, only it takes steps, and only these. -/
theorem Control.recovery_act (control : Control s) {p : Pid}
    (effect : Effect first s act t) (runs : s.Runs p true) :
    act = .crash ∨ act = .run p ∨ act = .acquire p ∨ act = .load p ∨ act = .release p := by
  have alone : ∀ {q : Pid} {busy : Busy}, (s.procs q).busy = busy → busy ≠ .no → q = p := by
    intro q busy same active
    by_contra other
    exact active (same ▸ (control.asleep q (control.alone p runs q other)).2)
  have place : ∀ q, (s.procs q).ctl = .idle ∨ (s.procs q).ctl = .arriving ∨
      (s.procs q).ctl = .inOp ∨ (s.procs q).ctl.client = true → False := by
    intro q outside
    by_cases same : q = p
    · obtain ⟨pc, running⟩ := runs
      rw [same, running] at outside
      rcases outside with h | h | h | h <;> cases h
    · rw [control.alone p runs q same] at outside
      rcases outside with h | h | h | h <;> cases h
  cases effect with
  | call here => exact (place _ (.inl here)).elim
  | enter here | sleep here => exact (place _ (.inr (.inl here))).elim
  | last here | more here | interrupted here => exact (place _ (.inr (.inr (.inl here)))).elim
  | bread client | modify client | absorb client | append client | refused client
  | brelse client => exact (place _ (.inr (.inr (.inr client)))).elim
  | acquire busy => simp [alone busy nofun]
  | load busy => simp [alone busy nofun]
  | release busy => simp [alone busy nofun]
  | @run q r pc here =>
    have : q = p := by
      by_contra other
      rw [control.alone p runs q other] at here
      cases here
    simp [this]
  | crash => exact .inl rfl

theorem recovery_commits (inv : Inv area dev base s) (recovering : Recovering s) (act : Act Pid) :
    commits s act = [] := by
  obtain ⟨p, runs⟩ := recovering
  unfold commits
  split
  next q =>
    split
    next r i here =>
      have same : q = p := inv.control.runner_unique ⟨_, here⟩ runs
      obtain ⟨pc, running⟩ := runs
      rw [← same, here] at running
      cases running
      have good := inv.running q true _ here
      exact absurd good.phase.1 (by simp)
    next => rfl
  next => rfl

/-! ## The buffers of recovery -/

/-- The buffers that the local variables of a statement of recovery point to. -/
def Pc.bufs : Pc → List (Fin NBUF)
  | .copyHead i | .brelseHead i => [i]
  | .instTo _ lbuf => [lbuf]
  | .instCopy _ lbuf dbuf | .instWrite _ lbuf dbuf | .instUnpin _ lbuf dbuf
  | .instRelseFrom _ lbuf dbuf => [dbuf, lbuf]
  | .instRelseTo _ dbuf => [dbuf]
  | .headFill _ i | .headWrite _ i | .headRelse _ i => [i]
  | _ => []

/-- The process owns no other buffers, and the one it waits for is new to it. -/
structure Tidy (s : State Pid) (p : Pid) (pc : Pc) : Prop where
  owned : ∀ i, (s.procs p).owns i ≠ none → i ∈ pc.bufs
  fetched : ∀ i, (s.procs p).busy = .waiting i ∨ (s.procs p).busy = .locked i →
    i ∈ pc.bufs ∧ (s.procs p).owns i = none

theorem Pc.length_bufs (pc : Pc) : pc.bufs.length ≤ 2 := by
  cases pc <;> simp [Pc.bufs]

theorem exists_notMem_of_length_lt {bufs : List (Fin NBUF)} (short : bufs.length < NBUF) :
    ∃ i, i ∉ bufs := by
  by_contra all
  push Not at all
  have whole : Finset.univ ⊆ bufs.toFinset := fun i _ => List.mem_toFinset.mpr (all i)
  have := Finset.card_le_card whole
  have := bufs.toFinset_card_le
  rw [Finset.card_univ, Fintype.card_fin] at *
  omega

theorem Pc.Phase.free {want : Nat → Block} {pc : Pc} (phase : pc.Phase area want s true) :
    s.history.pinned = [] := by
  cases pc with
  | readHead | copyHead i => exact phase.2.2
  | brelseHead i => exact phase.2.free rfl
  | test | logTo tail | logFrom tail i | logCopy tail i j | logWrite tail i j
  | logRelseFrom tail i j | logRelseTo tail i => exact absurd phase.1 (by simp)
  | headRead erase | headFill erase i | headWrite erase i =>
    cases erase with
    | true => exact Erasing.free phase
    | false => exact absurd phase.1 (by simp)
  | headRelse erase i =>
    cases erase with
    | true => exact Erased.free phase
    | false => exact absurd phase.1 (by simp)
  | instFrom tail | instTo tail i | instCopy tail i j | instWrite tail i j | instUnpin tail i j
  | instRelseFrom tail i j | instRelseTo tail i => exact phase.1.free rfl
  | clear => exact Installing.free phase rfl
  | done => exact Erased.free phase

theorem Tidy.refcnt_eq_zero {p : Pid} {pc : Pc} (tidy : Tidy s p pc) (inv : Inv area dev base s)
    (here : (s.procs p).ctl = .running true pc) (quiet : (s.procs p).busy = .no) {i : Fin NBUF}
    (other : i ∉ pc.bufs) : (s.cache.buf i).refcnt = 0 := by
  have free : s.history.pinned = [] := (inv.running p true pc here).phase.free
  have unused : s.users i = 0 := by
    refine Finset.sum_eq_zero fun q _ => ?_
    have owns : (s.procs q).owns i = none := by
      by_cases same : q = p
      · subst same
        by_contra owned
        exact other (tidy.owned i owned)
      · exact (inv.control.asleep q (inv.control.alone p ⟨pc, here⟩ q same)).1 i
    have busy : (s.procs q).busy = .no := by
      by_cases same : q = p
      · rw [same, quiet]
      · exact (inv.control.asleep q (inv.control.alone p ⟨pc, here⟩ q same)).2
    simp [Proc.refs, owns, busy, Busy.buffer]
  rw [inv.healthy.coherent.counted i, unused, pins, free]
  simp

/-! ## Recovery ends -/

/-- The statements that are left, when the header lists `n` blocks. -/
def Pc.rank (n : Nat) : Pc → Nat
  | .readHead => 7 * n + 9
  | .copyHead _ => 7 * n + 8
  | .brelseHead _ => 7 * n + 7
  | .instFrom tail => 7 * (n - tail) + 6
  | .instTo tail _ => 7 * (n - tail) + 5
  | .instCopy tail _ _ => 7 * (n - tail) + 4
  | .instWrite tail _ _ => 7 * (n - tail) + 3
  | .instUnpin tail _ _ => 7 * (n - tail) + 2
  | .instRelseFrom tail _ _ => 7 * (n - tail) + 1
  | .instRelseTo tail _ => 7 * (n - tail)
  | .clear => 5
  | .headRead _ => 4
  | .headFill _ _ => 3
  | .headWrite _ _ => 2
  | .headRelse _ _ => 1
  | _ => 0

/-- The steps that are left of a call of `bread` or `brelse`. -/
def Busy.rank : Busy → Nat
  | .no => 0
  | .waiting _ => 2
  | .locked _ => 1
  | .releasing _ => 1

/-- The number of blocks that the header lists. -/
def State.listed (s : State Pid) : Nat := (readHeader (s.disk s.log.start)).length

/-- A bound on the steps that are left of recovery. -/
def State.work (s : State Pid) (p : Pid) : Nat :=
  match (s.procs p).ctl with
  | .running _ pc => 3 * pc.rank s.listed + (s.procs p).busy.rank + 1
  | _ => 0

/-- A statement of recovery leads to a later one. -/
def Advances (s t : State Pid) (p : Pid) (pc : Pc) : Prop :=
  ∃ pc', (t.procs p).ctl = .running true pc' ∧ Tidy t p pc' ∧ t.panicked = none ∧
    pc'.rank t.listed < pc.rank s.listed

section Statements

variable {p : Pid} {pc pc' : Pc} {i : Fin NBUF} {u : State Pid}

theorem Advances.setCtl (owned : ∀ i, (u.procs p).owns i ≠ none → i ∈ pc'.bufs)
    (here : ∀ i, (u.procs p).busy ≠ .waiting i ∧ (u.procs p).busy ≠ .locked i)
    (calm : u.panicked = none) (fewer : pc'.rank u.listed < pc.rank s.listed) :
    Advances s (u.setCtl p (.running true pc')) p pc := by
  have self : (u.setCtl p (.running true pc')).procs p =
      { u.procs p with ctl := .running true pc' } := procs_self ..
  refine ⟨pc', by rw [self], ⟨?_, ?_⟩, calm, fewer⟩
  · rw [self]
    exact owned
  · rw [self]
    rintro i (waiting | locked)
    · exact absurd waiting (here i).1
    · exact absurd locked (here i).2

theorem Advances.brelse (tidy : Tidy s p pc) (calm : s.panicked = none)
    (rest : ∀ j ∈ pc.bufs, j = i ∨ j ∈ pc'.bufs) (fewer : pc'.rank s.listed < pc.rank s.listed) :
    Advances s ((s.brelse p i).setCtl p (.running true pc')) p pc := by
  refine .setCtl ?_ (by simp [State.brelse]) calm fewer
  intro j owned
  have other : j ≠ i := by
    rintro rfl
    simp [State.brelse] at owned
  simp only [State.brelse, procs_self, update_of_ne other] at owned
  exact (rest j (tidy.owned j owned)).resolve_left other

theorem Advances.own (tidy : Tidy s p pc) (quiet : (s.procs p).busy = .no)
    (calm : u.panicked = none) {changed : Bool}
    (proc : u.procs p = { s.procs p with
      owns := update (s.procs p).owns i (some changed) })
    (named : i ∈ pc.bufs) (same : pc'.bufs = pc.bufs)
    (fewer : pc'.rank u.listed < pc.rank s.listed) :
    Advances s (u.setCtl p (.running true pc')) p pc := by
  refine .setCtl ?_ ?_ calm fewer
  · intro j owned
    rw [same]
    by_cases here : j = i
    · exact here ▸ named
    · rw [proc] at owned
      simp only [update_of_ne here] at owned
      exact tidy.owned j owned
  · rw [proc]
    simp [quiet]

theorem Advances.bget (tidy : Tidy s p pc) (inv : Inv area dev base s)
    (here : (s.procs p).ctl = .running true pc) (quiet : (s.procs p).busy = .no)
    (calm : s.panicked = none) {next : Fin NBUF → Pc}
    (apart : ∀ j, (s.procs p).owns j ≠ none → ¬ s.Caches j blockno)
    (names : ∀ j, (next j).bufs = j :: pc.bufs)
    (fewer : ∀ j, (next j).rank s.listed < pc.rank s.listed) :
    Advances s (s.bget p s.log.dev blockno fun j => .running true (next j)) p pc := by
  have coherent := inv.healthy.coherent
  have short : pc.bufs.length < NBUF := lt_of_le_of_lt pc.length_bufs (by decide)
  obtain ⟨j, other⟩ := exists_notMem_of_length_lt short
  obtain ⟨cache, i, got⟩ := Bcache.bget_of_free coherent.listed
    (tidy.refcnt_eq_zero inv here quiet other) s.log.dev blockno
  have new : (s.procs p).owns i = none := by
    rcases Bcache.bget_cases coherent.listed got with ⟨same, number, -⟩ | ⟨-, zero, -⟩
    · by_contra owned
      exact apart i owned ⟨same, number⟩
    · exact (coherent.unused zero).owns p
  unfold State.bget
  rw [got]
  refine ⟨next i, by simp, ⟨?_, ?_⟩, calm, fewer i⟩
  · intro k owned
    rw [names]
    exact List.mem_cons_of_mem _ (tidy.owned k (by simpa using owned))
  · intro k waits
    have same : k = i := by simpa [eq_comm] using waits
    subst same
    rw [names]
    exact ⟨mem_cons_self, by simpa using new⟩

theorem State.procs_bwrite_self (s : State Pid) (p : Pid) (i : Fin NBUF) : (s.bwrite p i).procs p =
      { s.procs p with owns := update (s.procs p).owns i (some false) } := by
  simp only [State.bwrite, State.stored, State.procs_self]

/-- **Every statement of recovery leads to a later one.** -/
theorem instr_advances (tidy : Tidy s p pc) (inv : Inv area dev base s)
    (here : (s.procs p).ctl = .running true pc) (quiet : (s.procs p).busy = .no)
    (calm : s.panicked = none) (going : pc ≠ .done) : Advances s (instr s p true pc) p pc := by
  have good := inv.running p true pc here
  have start := inv.healthy.start
  have count : ∀ {want k unpinned}, Installing area want s true k unpinned →
      s.listed = s.log.lh.length := by
    intro want k unpinned installing
    rw [listed, start, installing.header]
  have resting : ∀ i, (s.procs p).busy ≠ .waiting i ∧ (s.procs p).busy ≠ .locked i := by
    simp [quiet]
  have none : pc.bufs = [] → ∀ (j : Fin NBUF) (blockno : Nat), (s.procs p).owns j ≠ none →
      ¬ s.Caches j blockno := by
    intro empty j blockno owned
    have := tidy.owned j owned
    rw [empty] at this
    cases this
  cases pc with
  | readHead | headRead _ =>
    exact .bget tidy inv here quiet calm (fun j => none rfl j _) (fun _ => rfl)
      fun _ => Nat.lt_succ_self _
  | copyHead _ | instUnpin _ _ _ | clear => exact .setCtl tidy.owned resting calm (Nat.lt_succ_self _)
  | brelseHead i =>
    refine .brelse tidy calm (by simp [Pc.bufs]) ?_
    simp only [Pc.rank]
    omega
  | test | logTo tail | logFrom tail i | logCopy tail i j | logWrite tail i j
  | logRelseFrom tail i j | logRelseTo tail i => exact absurd good.phase.1 (by simp)
  | headFill _ _ | instCopy _ _ _ =>
    exact .own tidy quiet calm (procs_self ..) mem_cons_self rfl (Nat.lt_succ_self _)
  | headWrite erase i =>
    cases erase with
    | true =>
      exact .own tidy quiet calm (procs_bwrite_self s p i) mem_cons_self rfl
        (Nat.lt_succ_self _)
    | false => exact absurd good.phase.1 (by simp)
  | headRelse erase i =>
    cases erase with
    | true => exact .brelse tidy calm (by simp [Pc.bufs]) Nat.zero_lt_one
    | false => exact absurd good.phase.1 (by simp)
  | instFrom tail =>
    simp only [instr]
    split
    · exact .bget tidy inv here quiet calm (fun j => none rfl j _) (fun _ => rfl)
        fun _ => Nat.lt_succ_self _
    · refine .setCtl tidy.owned resting calm ?_
      simp only [Pc.rank]
      omega
  | instTo tail lbuf =>
    have log := (good.met _ mem_cons_self).has_of_gets quiet
    have fits := good.phase.1.fits inv.healthy
    refine .bget tidy inv here quiet calm ?_ (fun _ => rfl) fun _ => Nat.lt_succ_self _
    intro j owned caches
    have same : j = lbuf := List.mem_singleton.mp (tidy.owned j owned)
    subst same
    exact fits.getD_ne good.phase.2 (fits.slot_inside good.phase.2) (caches.2.symm.trans log.1.2)
  | instWrite tail lbuf dbuf =>
    have fits := good.phase.1.fits inv.healthy
    have block := good.met _ (List.mem_cons_of_mem _ mem_cons_self)
    have written := Written.bwrite inv.healthy.coherent block
    have inside : area.Inside area.start := by
      have := fits.room
      unfold Area.Inside
      omega
    have header : (s.bwrite p dbuf).listed = s.listed := by
      have other : area.start ≠ s.log.lh.getD tail 0 :=
        (fits.getD_ne good.phase.2 inside).symm
      have log : (s.bwrite p dbuf).log.start = s.log.start := rfl
      rw [listed, log, start, written.disk, update_of_ne other, listed, start]
    refine .own tidy quiet calm (procs_bwrite_self s p dbuf) mem_cons_self rfl ?_
    rw [header]
    exact Nat.lt_succ_self _
  | instRelseFrom tail lbuf dbuf =>
    refine .brelse tidy calm ?_ (Nat.lt_succ_self _)
    simp [Pc.bufs]
  | instRelseTo tail dbuf =>
    refine .brelse tidy calm (by simp [Pc.bufs]) ?_
    have := count good.phase.1
    have := good.phase.2
    simp only [Pc.rank]
    omega
  | done => exact absurd rfl going

end Statements

/-- The process is in recovery and all is well. -/
structure Rebooting (area : Area) (dev : Nat) (base : Nat → Block) (s : State Pid) (p : Pid) :
    Prop where
  inv : Inv area dev base s
  calm : s.panicked = none
  tidy : ∃ pc, (s.procs p).ctl = .running true pc ∧ Tidy s p pc

theorem Rebooting.of_boot {size start : Nat} {disk : Nat → Block}
    {committed : List (List (Nat × Block))}
    (inv : Inv area dev base (boot first dev start size disk committed)) :
    Rebooting area dev base (boot first dev start size disk committed) first where
  inv := inv
  calm := rfl
  tidy := ⟨.readHead, by simp [boot], by simp [boot], by simp [boot]⟩

/-- **Recovery is never stuck**: its next step is possible. -/
theorem Rebooting.progress {p : Pid} (rebooting : Rebooting area dev base s p) (first : Pid) :
    ∃ act t, act ≠ .crash ∧ Step first (HomeBlock area dev) s act t := by
  obtain ⟨inv, calm, pc, here, tidy⟩ := rebooting
  cases busy : (s.procs p).busy with
  | no =>
    exact ⟨.run p, instr s p true pc, by simp, .inl calm, trivial, by simp [next, here, busy]⟩
  | waiting i =>
    obtain ⟨named, new⟩ := tidy.fetched i (.inl busy)
    have free : (s.cache.buf i).lock = none := by
      refine Option.eq_none_iff_forall_ne_some.mpr fun q taken => ?_
      have locks := (inv.healthy.coherent.locked i q).mp taken
      by_cases same : q = p
      · rw [same] at locks
        rcases locks with owned | locked
        · exact owned new
        · rw [busy] at locked
          cases locked
      · obtain ⟨owns, no⟩ := inv.control.asleep q (inv.control.alone p ⟨pc, here⟩ q same)
        rcases locks with owned | locked
        · exact owned (owns i)
        · rw [no] at locked
          cases locked
    exact ⟨.acquire p, _, by simp, .inl calm, trivial, by simp only [next, busy, free]; rfl⟩
  | locked i => exact ⟨.load p, _, by simp, .inl calm, trivial, by simp only [next, busy]; rfl⟩
  | releasing i =>
    exact ⟨.release p, _, by simp, .inl calm, trivial, by simp only [next, busy]; rfl⟩

/-- **Recovery goes on**: a step of it leaves less to do, until it is over. -/
theorem Rebooting.step {p : Pid} (rebooting : Rebooting area dev base s p)
    (step : Step first (HomeBlock area dev) s act t) (lives : act ≠ .crash) :
    (Rebooting area dev base t p ∧ t.work p < s.work p) ∨ ∀ q, (t.procs q).ctl = .idle := by
  obtain ⟨inv, calm, pc, here, tidy⟩ := rebooting
  obtain ⟨allowed, effect⟩ := step.effect
  have later := inv.effect allowed effect
  rcases inv.control.recovery_act effect ⟨pc, here⟩ with rfl | rfl | rfl | rfl | rfl
  · exact absurd rfl lives
  · cases effect with
    | @run _ r pc' there quiet =>
      rw [here] at there
      cases there
      by_cases going : pc = .done
      · subst going
        exact .inr fun q => rfl
      · obtain ⟨pc', ctl, kept, still, fewer⟩ := instr_advances tidy inv here quiet calm going
        refine .inl ⟨⟨later, still, pc', ctl, kept⟩, ?_⟩
        have rest : ((instr s p true pc).procs p).busy.rank ≤ 2 := by
          cases ((instr s p true pc).procs p).busy <;> simp [Busy.rank]
        simp only [work, here, ctl]
        omega
  · cases effect with
    | @acquire _ i busy free =>
      obtain ⟨named, new⟩ := tidy.fetched i (.inl busy)
      refine .inl ⟨⟨later, calm, pc, by simpa using here, ?_, ?_⟩, ?_⟩
      · simpa using tidy.owned
      · intro j locks
        have same : j = i := by simpa [eq_comm] using locks
        subst same
        exact ⟨named, by simpa using new⟩
      · simp [work, here, busy, Busy.rank, listed]
  · cases effect with
    | @load _ i busy =>
      obtain ⟨named, new⟩ := tidy.fetched i (.inr busy)
      rw [load_eq] at later ⊢
      refine .inl ⟨⟨later, calm, pc, by simpa using here, ?_, by simp⟩, ?_⟩
      · intro j owned
        by_cases same : j = i
        · exact same ▸ named
        · simp [update_of_ne same] at owned
          exact tidy.owned j owned
      · simp [work, here, busy, Busy.rank, listed]
  · cases effect with
    | @release _ i busy =>
      refine .inl ⟨⟨later, calm, pc, by simpa using here, ?_, by simp⟩, ?_⟩
      · simpa using tidy.owned
      · simp [work, here, busy, Busy.rank, listed]

theorem Rebooting.recovering {p : Pid} (rebooting : Rebooting area dev base s p) :
    Recovering s := by
  obtain ⟨pc, here, -⟩ := rebooting.tidy
  exact ⟨p, pc, here⟩

theorem not_recovering_of_idle (idle : ∀ q, (s.procs q).ctl = .idle) : ¬ Recovering s := by
  rintro ⟨p, pc, running⟩
  rw [idle p] at running
  cases running

/-- **Recovery comes to its end** when no crash cuts it short. -/
theorem Rebooting.completes {p : Pid} (rebooting : Rebooting area dev base s p) :
    ∃ acts t, Act.crash ∉ acts ∧ Run (RecoveryStep first area dev) s acts t ∧ ¬ Recovering t := by
  induction bound : s.work p using Nat.strongRecOn generalizing s with
  | ind n ih =>
    obtain ⟨act, t, lives, step⟩ := rebooting.progress first
    have one : Run (RecoveryStep first area dev) s [act] t :=
      .single ⟨rebooting.recovering, step⟩
    rcases rebooting.step step lives with ⟨next, less⟩ | idle
    · obtain ⟨acts, u, alive, rest, isOver⟩ := ih _ (bound ▸ less) next rfl
      refine ⟨[act] ++ acts, u, ?_, one.trans rest, isOver⟩
      simp [lives.symm, alive]
    · exact ⟨[act], t, by simp [lives.symm], one, not_recovering_of_idle idle⟩

theorem Rebooting.bounded {p : Pid}
    (rebooting : Rebooting area dev base s p) (lives : Act.crash ∉ acts)
    (run : Run (RecoveryStep first area dev) s acts t) : acts.length ≤ s.work p := by
  induction acts generalizing s with
  | nil => simp
  | cons act acts ih =>
    obtain ⟨u, ⟨-, step⟩, rest⟩ := run.cons_inv
    have alive : act ≠ .crash := fun same => lives (same ▸ mem_cons_self)
    rcases rebooting.step step alive with ⟨next, less⟩ | idle
    · have := ih next (fun mem => lives (List.mem_cons_of_mem _ mem)) rest
      rw [List.length_cons]
      omega
    · -- recovery is over, so no more of its steps follow
      cases acts with
      | nil =>
        obtain ⟨pc, here, -⟩ := rebooting.tidy
        simp only [work, here, List.length_singleton]
        omega
      | cons act acts =>
        obtain ⟨v, ⟨recovering, -⟩, -⟩ := rest.cons_inv
        exact absurd recovering (not_recovering_of_idle idle)

/-! ## The disk after recovery -/

/-- Where a recovery leads: it goes on, or it is over and nothing else has happened. -/
theorem recovery_run (rebooting : Rebooting area dev base s first)
    (run : Run (RecoveryStep first area dev) s acts t) :
    t.history.committed = s.history.committed ∧ Inv area dev base t ∧
      (Rebooting area dev base t first ∨ ∀ q, (t.procs q).ctl = .idle) := by
  induction run with
  | refl => exact ⟨rfl, rebooting.inv, .inl rebooting⟩
  | @tail _ act u v _ last ih =>
    obtain ⟨recovering, step⟩ := last
    obtain ⟨same, inv, now⟩ := ih
    obtain ⟨allowed, effect⟩ := step.effect
    have later := inv.effect allowed effect
    refine ⟨?_, later, ?_⟩
    · rw [committed_step inv effect, recovery_commits inv recovering, append_nil, same]
    · have going := now.resolve_right fun idle => not_recovering_of_idle idle recovering
      by_cases crashed : act = .crash
      · subst crashed
        cases effect
        have device : u.log.dev = dev := inv.device
        rw [device] at later ⊢
        exact .inl (.of_boot later)
      · exact (going.step step crashed).imp_left And.left

theorem Inv.settled (inv : Inv area dev base s) (idle : ∀ q, (s.procs q).ctl = .idle)
    (outside : ¬ area.Inside blockno) :
    s.disk blockno = content base s.history.committed blockno := by
  have nobody : ∀ p r, ¬ s.Runs p r := by
    rintro p r ⟨pc, running⟩
    rw [idle p] at running
    cases running
  exact inv.healthy.durable.settled (inv.collecting nobody).header outside

/-- **Crash atomicity.** After a crash at any point, and a recovery that may itself be cut by
crashes, the blocks outside the log are as after exactly the groups whose header was written
before. Recovery does not panic, and it ends. -/
theorem crash_atomic {first : Pid} {disk : Nat → Block} {acts more : List (Act Pid)}
    {u v : State Pid} (device : dev ≠ 0) (clean : Durable area base disk)
    (run : Executes first area dev disk acts u)
    (crash : Step first (HomeBlock area dev) u .crash v)
    (recovery : Run (RecoveryStep first area dev) v more s) :
    let groups := groupsOf first (boot first dev area.start area.size disk []) acts
    (∀ group ∈ groups, group ≠ []) ∧
    (¬ Recovering s → ∀ blockno, ¬ area.Inside blockno →
      s.disk blockno = content base groups blockno) ∧
    (Recovering s → s.panicked = none ∧
      (∃ rest t, Act.crash ∉ rest ∧ Run (RecoveryStep first area dev) s rest t ∧ ¬ Recovering t) ∧
      ∀ rest t, Act.crash ∉ rest → Run (RecoveryStep first area dev) s rest t →
        rest.length ≤ s.work first) := by
  intro groups
  have initial : Inv area dev base (boot first dev area.start area.size disk []) :=
    .boot first device clean
  have before := Inv.run device clean run
  obtain ⟨allowed, effect⟩ := crash.effect
  have after := before.effect allowed effect
  have rebooting : Rebooting area dev base v first := by
    cases effect
    have device : u.log.dev = dev := before.device
    rw [device] at after ⊢
    exact .of_boot after
  obtain ⟨same, inv, now⟩ := recovery_run rebooting recovery
  have committed : s.history.committed = groups := by
    rw [same, committed_step before effect, committed_run initial run]
    simp [commits, boot, groups]
  refine ⟨groupsOf_ne_nil initial run, ?_, ?_⟩
  · intro isOver blockno outside
    have idle := now.resolve_left fun going => isOver going.recovering
    rw [inv.settled idle outside, committed]
  · intro recovering
    have going := now.resolve_right fun idle => not_recovering_of_idle idle recovering
    exact ⟨going.calm, going.completes, fun rest t lives run => going.bounded lives run⟩

/-- An operation logs block 40, and its header reaches the disk. -/
def commitOne : List (Act (Fin 1)) :=
  emptyRecovery 0 ++ [.call 0, .enter 0, .bread 0 1 40, .acquire 0, .load 0,
    .modify 0 1 fun _ => 7, .logWrite 0 1, .brelse 0 1, .release 0, .endOp 0,
    .run 0, .run 0, .acquire 0, .load 0, .run 0, .acquire 0, .load 0, .run 0, .run 0, .run 0,
    .release 0, .run 0, .release 0, .run 0, .run 0, .acquire 0, .load 0, .run 0, .run 0]

/-- A recovery that a second crash cuts short, and one that installs the block. -/
def recoverOne : List (Act (Fin 1)) :=
  [.run 0, .acquire 0, .load 0, .run 0, .crash,
    .run 0, .acquire 0, .load 0, .run 0, .run 0, .release 0, .run 0, .acquire 0, .load 0, .run 0,
    .acquire 0, .load 0, .run 0, .run 0, .run 0, .run 0, .release 0, .run 0, .release 0, .run 0,
    .run 0, .run 0, .acquire 0, .load 0, .run 0, .run 0, .run 0, .release 0, .run 0]

def recoveryAdvance (first : Pid) (area : Area) (dev : Nat) (s : State Pid) (act : Act Pid) :
    Option (State Pid) :=
  match (s.procs first).ctl with
  | .running true _ => advance first (HomeBlock area dev) s act
  | _ => none

theorem RecoveryStep.of_advance (advanced : recoveryAdvance first area dev s act = some t) :
    RecoveryStep first area dev s act t := by
  unfold recoveryAdvance at advanced
  split at advanced
  next pc here => exact ⟨⟨first, pc, here⟩, .of_advance advanced⟩
  next => cases advanced

/-- The block is home after the second recovery. -/
theorem crash_atomic_commitOne :
    ∃ u v s, Executes 0 ⟨2, 30⟩ 1 (fun _ => Bytes.zero BSIZE) commitOne u ∧
      Step 0 (HomeBlock ⟨2, 30⟩ 1) u .crash v ∧
      Run (RecoveryStep 0 ⟨2, 30⟩ 1) v recoverOne s ∧ ¬ Recovering s ∧
      s.disk 40 = content (fun _ => Bytes.zero BSIZE)
        (groupsOf 0 (boot 0 1 2 30 (fun _ => Bytes.zero BSIZE) []) commitOne) 40 := by
  have executed : ((commitOne.foldlM (advance 0 (HomeBlock ⟨2, 30⟩ 1))
      (boot 0 1 2 30 (fun _ => Bytes.zero BSIZE) [])).bind fun u =>
        (advance 0 (HomeBlock ⟨2, 30⟩ 1) u .crash).bind fun v =>
          (recoverOne.foldlM (recoveryAdvance 0 ⟨2, 30⟩ 1) v).map fun s => (s.procs 0).ctl) =
        some .idle := by
    decide +kernel
  obtain ⟨u, before, rest⟩ := Option.bind_eq_some_iff.mp executed
  obtain ⟨v, crash, rest⟩ := Option.bind_eq_some_iff.mp rest
  obtain ⟨s, after, idle⟩ := Option.map_eq_some_iff.mp rest
  have run : Executes 0 ⟨2, 30⟩ 1 (fun _ => Bytes.zero BSIZE) commitOne u :=
    (Run.of_execute before).mono fun step => .of_advance step
  have recovery : Run (RecoveryStep 0 ⟨2, 30⟩ 1) v recoverOne s :=
    (Run.of_execute after).mono fun step => .of_advance step
  have isOver : ¬ Recovering s :=
    not_recovering_of_idle fun q => by rw [Subsingleton.elim q 0, idle]
  obtain ⟨-, home, -⟩ := crash_atomic (by decide) (Durable.blank _ (by decide)) run
    (.of_advance crash) recovery
  refine ⟨u, v, s, run, .of_advance crash, recovery, isOver, home isOver 40 ?_⟩
  simp [Area.Inside]

end Xv6.Bio
