import Xv6.Bio.Statements

/-!
# The invariant of the cache and the log

`Inv` joins coherence of the cache, control, the disk that recovery completes
and the facts at each statement of `commit`. Every step keeps it, a crash
included (`Inv.effect`), so it holds in every reachable state (`Inv.run`).
-/

namespace Xv6.Bio

open State

variable {Pid : Type} [DecidableEq Pid] [Fintype Pid]

/-- The blocks that callers change: those of the log's device outside the log.
Block numbers have 32 bits. -/
def HomeBlock (area : Area) (dev : Nat) (device blockno : Nat) : Prop :=
  device = dev ∧ blockno < 2 ^ 32 ∧ ¬ area.Inside blockno

structure Inv (area : Area) (dev : Nat) (base : Nat → Block) (s : State Pid) : Prop where
  control : Control s
  healthy : Healthy area base s
  device : s.log.dev = dev
  collecting : (∀ p r, ¬ s.Runs p r) → Collecting area s
  running : ∀ p r pc, (s.procs p).ctl = .running r pc →
    pc.Good area (content base s.history.committed) s p r

section Steps

variable {area : Area} {dev : Nat} {base : Nat → Block} {s t : State Pid} {p q : Pid}
  {act : Act Pid} {i : Fin NBUF} {disk : Nat → Block} {first : Pid}

theorem Inv.of_sameLog (inv : Inv area dev base s) (control : Control t) (coherent : Coherent t)
    (same : SameLog s t) (start : t.log.start = s.log.start) (size : t.log.size = s.log.size)
    (ctl : ∀ p r pc, (t.procs p).ctl = .running r pc ↔ (s.procs p).ctl = .running r pc)
    (good : ∀ p r pc, (s.procs p).ctl = .running r pc →
      pc.Good area (content base s.history.committed) s p r →
      pc.Good area (content base s.history.committed) t p r) : Inv area dev base t where
  control := control
  healthy := by
    refine ⟨coherent, ?_, start.trans inv.healthy.start, size.trans inv.healthy.size⟩
    rw [same.disk, same.history]
    exact inv.healthy.durable
  device := same.dev.trans inv.device
  collecting := by
    intro nobody
    refine same.collecting (inv.collecting fun p r running => ?_)
    obtain ⟨pc, here⟩ := running
    exact nobody p r ⟨pc, (ctl p r pc).mpr here⟩
  running := by
    intro p r pc here
    have before := (ctl p r pc).mp here
    rw [same.history]
    exact good p r pc before (inv.running p r pc before)

theorem Inv.panic (inv : Inv area dev base s) (why : Panic) : Inv area dev base (s.panic why) :=
  inv.of_sameLog (inv.control.panic why)
    (inv.healthy.coherent.congr rfl rfl rfl rfl rfl (fun _ => rfl) fun _ => rfl)
    ⟨rfl, rfl, rfl, rfl⟩ rfl rfl (fun _ _ _ => Iff.rfl)
    fun _ _ _ _ good => good.undisturbed ⟨rfl, rfl, rfl, rfl⟩ (.of_proc rfl rfl rfl)

theorem Erased.collecting (erased : Erased area s) (healthy : Healthy area base s) :
    Collecting area s := by
  have room : 0 < area.size := by
    have := healthy.durable.fits.room
    omega
  refine ⟨erased.header, ?_, ?_, ?_⟩
  · rw [erased.empty]
    exact ⟨by simpa using room, .nil, by simp⟩
  · rw [erased.empty]
    exact List.nodup_nil
  · rw [erased.empty, erased.free]
    exact fun _ => Iff.rfl

theorem Inv.of_collecting (control : Control t) (healthy : Healthy area base t)
    (device : t.log.dev = dev) (collecting : Collecting area t)
    (nobody : ∀ p r, ¬ t.Runs p r) : Inv area dev base t :=
  ⟨control, healthy, device, fun _ => collecting, fun p r pc here => absurd ⟨pc, here⟩ (nobody p r)⟩

/-! ## `log_write` -/

theorem State.ctl_stored (u : State Pid) (p q : Pid) (i : Fin NBUF) :
    ((u.stored p i).procs q).ctl = (u.procs q).ctl := by
  by_cases same : q = p
  · simp [State.stored, same]
  · simp only [State.stored, State.procs_ne same]

theorem Inv.absorb (inv : Inv area dev base s)
    (control : Control (s.stored p i)) (owned : (s.procs p).owns i ≠ none)
    (began : 1 ≤ s.log.outstanding) (old : (s.cache.buf i).blockno ∈ s.log.lh)
    (home : HomeBlock area dev (s.cache.buf i).dev (s.cache.buf i).blockno) :
    Inv area dev base (s.stored p i) := by
  have nobody := inv.control.nobody_runs began
  have collecting := inv.collecting nobody
  have device : (s.cache.buf i).dev = s.log.dev := home.1.trans inv.device.symm
  have coherent := inv.healthy.coherent.stored owned device ((collecting.pinned _).mpr old)
  refine .of_collecting control ⟨coherent, inv.healthy.durable, inv.healthy.start,
    inv.healthy.size⟩ inv.device ⟨collecting.header, collecting.fits, collecting.distinct,
    collecting.pinned⟩ ?_
  rintro q r ⟨pc, running⟩
  rw [ctl_stored] at running
  exact nobody q r ⟨pc, running⟩

theorem Inv.append (inv : Inv area dev base s)
    (control : Control (((s.setLog { s.log with
      lh := s.log.lh ++ [(s.cache.buf i).blockno] }).pin i).stored p i))
    (owned : (s.procs p).owns i ≠ none) (room : ¬ s.log.Full) (began : 1 ≤ s.log.outstanding)
    (new : (s.cache.buf i).blockno ∉ s.log.lh)
    (home : HomeBlock area dev (s.cache.buf i).dev (s.cache.buf i).blockno) :
    Inv area dev base (((s.setLog { s.log with
      lh := s.log.lh ++ [(s.cache.buf i).blockno] }).pin i).stored p i) := by
  have nobody := inv.control.nobody_runs began
  have collecting := inv.collecting nobody
  have device : (s.cache.buf i).dev = s.log.dev := home.1.trans inv.device.symm
  have unpinned : (s.cache.buf i).blockno ∉ s.history.pinned :=
    fun mem => new ((collecting.pinned _).mp mem)
  have relisted : Coherent (s.setLog { s.log with
      lh := s.log.lh ++ [(s.cache.buf i).blockno] }) :=
    inv.healthy.coherent.congr rfl rfl rfl rfl rfl (fun _ => rfl) fun _ => rfl
  have pinned := relisted.pin device (inv.healthy.coherent.valid p i owned) unpinned
  have same : ∀ j, ((s.cache.bpin i).buf j).dev = (s.cache.buf j).dev ∧
      ((s.cache.bpin i).buf j).blockno = (s.cache.buf j).blockno := by
    intro j
    by_cases here : j = i
    · simp [here, Bcache.bpin]
    · simp [Bcache.bpin, Bcache.modify_of_ne here]
  have coherent := pinned.stored (p := p) (i := i) owned ((same i).1.trans device) (by
    change ((s.cache.bpin i).buf i).blockno ∈ (s.cache.buf i).blockno :: s.history.pinned
    rw [(same i).2]
    exact List.mem_cons_self)
  refine .of_collecting control ⟨coherent, inv.healthy.durable, inv.healthy.start,
    inv.healthy.size⟩ inv.device ⟨collecting.header, ⟨?_, ⟨?_, ?_⟩, ?_⟩, ?_, ?_⟩ ?_
  · change (s.log.lh ++ [(s.cache.buf i).blockno]).length < area.size
    have := inv.healthy.size
    rw [List.length_append, List.length_singleton]
    unfold Log.Full at room
    omega
  · change (s.log.lh ++ [(s.cache.buf i).blockno]).length < BSIZE / 4
    rw [List.length_append, List.length_singleton]
    unfold Log.Full at room
    have : LOGSIZE < BSIZE / 4 := by decide
    omega
  · intro blockno mem
    rcases List.mem_append.mp mem with old | last
    · exact collecting.fits.header.small blockno old
    · rw [List.mem_singleton.mp last]
      exact home.2.1
  · intro blockno mem
    rcases List.mem_append.mp mem with old | last
    · exact collecting.fits.outside blockno old
    · rw [List.mem_singleton.mp last]
      exact home.2.2
  · exact List.nodup_append.mpr ⟨collecting.distinct, List.nodup_singleton _, by
      rintro a old b last rfl
      exact new (List.mem_singleton.mp last ▸ old)⟩
  · intro blockno
    change blockno ∈ (s.cache.buf i).blockno :: s.history.pinned ↔
      blockno ∈ s.log.lh ++ [(s.cache.buf i).blockno]
    rw [List.mem_cons, List.mem_append, List.mem_singleton, collecting.pinned, or_comm]
  · rintro q r ⟨pc, running⟩
    rw [ctl_stored] at running
    exact nobody q r ⟨pc, running⟩

/-! ## Power-on and the end of the log's work -/

theorem Coherent.boot (first : Pid) {dev start size : Nat} (device : dev ≠ 0)
    (disk : Nat → Block) (committed : List (List (Nat × Block))) :
    Coherent (Bio.boot first dev start size disk committed) where
  listed := Bcache.listed_binit
  unique := fun _ _ nonzero => absurd rfl nonzero
  counted := by
    intro i
    have users : (Bio.boot first dev start size disk committed).users i = 0 :=
      Finset.sum_eq_zero fun q _ => rfl
    have pins : (Bio.boot first dev start size disk committed).pins i = 0 :=
      if_neg fun pinned => by cases pinned.2
    rw [users, pins]
    rfl
  locked := by
    intro i q
    refine ⟨nofun, ?_⟩
    rintro (owned | busy)
    · exact absurd rfl owned
    · cases busy
  apart := fun _ _ busy => by cases busy
  valid := fun _ _ owned => absurd rfl owned
  fresh := fun _ loaded => by cases loaded
  cached := fun _ mem => by cases mem
  distinct := List.nodup_nil
  home := fun _ _ => rfl
  device := device

theorem Inv.boot (first : Pid) (device : dev ≠ 0) {committed : List (List (Nat × Block))}
    (durable : Durable area (content base committed) disk) :
    Inv area dev base (Bio.boot first dev area.start area.size disk committed) where
  control := .boot ..
  healthy := ⟨.boot first device disk committed, durable, rfl, rfl⟩
  device := rfl
  collecting := by
    intro nobody
    exact absurd ⟨.readHead, by simp [Bio.boot]⟩ (nobody first true)
  running := by
    intro p r pc here
    change (if p = first then Ctl.running true .readHead else Ctl.off) = .running r pc at here
    split at here
    next =>
      cases here
      exact ⟨⟨rfl, rfl, rfl⟩, by simp [Pc.needs]⟩
    next => cases here

theorem Inv.finish (inv : Inv area dev base s) (here : (s.procs p).ctl = .running false .done) :
    Inv area dev base ((s.setLog s.log.finishCommit).wakeup.setCtl p .idle) := by
  have erased : Erased area s := (inv.running p false .done here).phase
  have control := inv.control.finish here
  have fields : ∀ u : State Pid, ∀ q, (u.wakeup.procs q).owns = (u.procs q).owns ∧
      (u.wakeup.procs q).busy = (u.procs q).busy := by
    intro u q
    simp only [State.wakeup]
    split <;> exact ⟨rfl, rfl⟩
  have woken : Coherent (s.setLog s.log.finishCommit).wakeup :=
    inv.healthy.coherent.congr rfl rfl rfl rfl rfl (fun q => (fields _ q).1) fun q => (fields _ q).2
  have healthy : Healthy area base ((s.setLog s.log.finishCommit).wakeup.setCtl p .idle) :=
    ⟨woken.setCtl .idle, inv.healthy.durable, inv.healthy.start, inv.healthy.size⟩
  have still : Erased area ((s.setLog s.log.finishCommit).wakeup.setCtl p .idle) :=
    ⟨erased.empty, erased.free, erased.header⟩
  refine .of_collecting control healthy inv.device (still.collecting healthy) ?_
  rintro q r ⟨pc, running⟩
  by_cases same : q = p
  · rw [same] at running
    simp [State.setCtl] at running
  · have before : s.Runs q r := by
      rw [State.setCtl, procs_ne same] at running
      exact ((SameControl.wakeup (s.setLog s.log.finishCommit)).runs q r).mp ⟨pc, running⟩
    exact same (inv.control.runner_unique before ⟨_, here⟩)

theorem Inv.booted (inv : Inv area dev base s)
    (here : (s.procs p).ctl = .running true .done) : Inv area dev base s.booted := by
  have erased : Erased area s := (inv.running p true .done here).phase
  have healthy : Healthy area base s.booted :=
    ⟨inv.healthy.coherent.congr rfl rfl rfl rfl rfl (fun _ => rfl) fun _ => rfl,
      inv.healthy.durable, inv.healthy.start, inv.healthy.size⟩
  have still : Erased area s.booted := ⟨erased.empty, erased.free, erased.header⟩
  refine .of_collecting (inv.control.booted ⟨_, here⟩) healthy inv.device
    (still.collecting healthy) ?_
  rintro q r ⟨pc, running⟩
  cases running

/-! ## Every step -/

/-- A step of a process that does not run the log, and that leaves the log. -/
theorem Inv.of_client (inv : Inv area dev base s) (first : Pid)
    (effect : Effect first s act t) (actor : act.actor = some q) (client : act ≠ .run q)
    (idle : ∀ r, ¬ s.Runs q r) (still : ∀ r, ¬ t.Runs q r) (same : SameLog s t)
    (coherent : Coherent t) (start : t.log.start = s.log.start) (size : t.log.size = s.log.size)
    (others : ∀ p, p ≠ q → ∀ r pc,
      (t.procs p).ctl = .running r pc ↔ (s.procs p).ctl = .running r pc) : Inv area dev base t := by
  refine inv.of_sameLog (inv.control.effect effect) coherent same start size ?_ ?_
  · intro p r pc
    by_cases here : p = q
    · rw [here]
      exact ⟨fun running => absurd ⟨pc, running⟩ (still r),
        fun running => absurd ⟨pc, running⟩ (idle r)⟩
    · exact others p here r pc
  · intro p r pc running good
    have different : p ≠ q := fun here => idle r ⟨pc, here ▸ running⟩
    exact good.undisturbed same (effect.undisturbed inv.healthy.coherent actor different client)

theorem Ctl.client_not_running (client : (s.procs p).ctl.client = true) (r : Bool) :
    ¬ s.Runs p r := by
  rintro ⟨pc, running⟩
  rw [running] at client
  cases client

/-- A call of `bread` or `brelse` goes on, in whichever process. -/
theorem Inv.of_call (inv : Inv area dev base s) (first : Pid)
    (effect : Effect first s act t) (actor : act.actor = some q) (client : act ≠ .run q)
    (same : SameLog s t) (coherent : Coherent t) (start : t.log.start = s.log.start)
    (size : t.log.size = s.log.size) (ctl : ∀ p, (t.procs p).ctl = (s.procs p).ctl)
    (own : ∀ need : Need, need.Met s q → need.Met t q) : Inv area dev base t := by
  refine inv.of_sameLog (inv.control.effect effect) coherent same start size
    (fun p r pc => by rw [ctl]) ?_
  intro p r pc running good
  by_cases here : p = q
  · subst here
    refine ⟨same.phase good.phase, ?_⟩
    rw [same.needs]
    exact fun need mem => own need (good.met need mem)
  · exact good.undisturbed same (effect.undisturbed inv.healthy.coherent actor here client)

theorem State.ctl_setProc (u : State Pid) (q : Pid) (f : Proc → Proc)
    (stays : (f (u.procs q)).ctl = (u.procs q).ctl) (p : Pid) :
    ((u.setProc q f).procs p).ctl = (u.procs p).ctl := by
  by_cases here : p = q
  · rw [here, State.procs_self, stays]
  · rw [State.procs_ne here]

section

variable (inv : Inv area dev base s)
include inv

/-- A process goes from one place outside the log to another. -/
theorem Inv.setCtl (first : Pid) {u : State Pid}
    {ctl : Ctl} (effect : Effect first s act (u.setCtl q ctl)) (actor : act.actor = some q)
    (client : act ≠ .run q) (idle : ∀ r, ¬ s.Runs q r) (place : ∀ r pc, ctl ≠ .running r pc)
    (same : SameLog s u) (coherent : Coherent u) (start : u.log.start = s.log.start)
    (size : u.log.size = s.log.size)
    (others : ∀ p r pc, (u.procs p).ctl = .running r pc ↔ (s.procs p).ctl = .running r pc) :
    Inv area dev base (u.setCtl q ctl) := by
  refine inv.of_client first effect actor client idle ?_
    ⟨same.disk, same.history, same.lh, same.dev⟩
    (coherent.setCtl ctl) start size ?_
  · rintro r ⟨pc, running⟩
    refine place r pc ?_
    simpa [State.setCtl] using running
  · intro p different r pc
    rw [State.setCtl, procs_ne different]
    exact others p r pc

theorem Inv.last (here : (s.procs p).ctl = .inOp) (one : s.log.outstanding = 1) :
    Inv area dev base ((s.setLog { s.log with outstanding := 0, committing := true }).setCtl p
      (.running false .test)) := by
  have nobody := inv.control.nobody_runs (by omega)
  have collecting := inv.collecting nobody
  have same : SameLog s ((s.setLog { s.log with outstanding := 0, committing := true }).setCtl p
      (.running false .test)) := ⟨rfl, rfl, rfl, rfl⟩
  have coherent : Coherent (s.setLog { s.log with outstanding := 0, committing := true }) :=
    inv.healthy.coherent.congr rfl rfl rfl rfl rfl (fun _ => rfl) fun _ => rfl
  refine ⟨inv.control.last here one, ⟨coherent.setCtl _, inv.healthy.durable, inv.healthy.start,
    inv.healthy.size⟩, inv.device, fun _ => same.collecting collecting, ?_⟩
  intro q r pc running
  by_cases mine : q = p
  · subst mine
    simp only [State.setCtl, procs_self, Ctl.running.injEq] at running
    obtain ⟨rfl, rfl⟩ := running
    exact ⟨⟨rfl, same.collecting collecting⟩, by simp [Pc.needs]⟩
  · rw [State.setCtl, procs_ne mine] at running
    exact absurd ⟨pc, running⟩ (nobody q r)

/-- A statement of `commit` or recovery, the return included. -/
theorem Inv.statement (first : Pid) {r : Bool} {pc : Pc}
    (here : (s.procs p).ctl = .running r pc) (quiet : (s.procs p).busy = .no) :
    Inv area dev base (instr s p r pc) := by
  by_cases finished : pc = .done
  · subst finished
    cases r with
    | true => exact inv.booted here
    | false => exact inv.finish here
  · have moved := instr_moved here finished
    have outcome := instr_outcome inv.healthy quiet here finished (inv.running p r pc here)
    obtain ⟨after, there, good⟩ := outcome.next
    have step : Effect first s (.run p) (instr s p r pc) := .run here quiet
    have control := inv.control.effect step
    refine ⟨control, outcome.healthy, ?_, ?_, ?_⟩
    · rw [moved.log]
      exact inv.device
    · intro nobody
      exact absurd ⟨after, there⟩ (nobody p r)
    · intro q r' pc' running
      have same : q = p := control.runner_unique ⟨pc', running⟩ ⟨after, there⟩
      subst same
      rw [there] at running
      cases running
      exact good

theorem Inv.effect (allowed : act.Allowed (HomeBlock area dev) s) (effect : Effect first s act t) :
    Inv area dev base t := by
  have control := inv.control.effect effect
  have coherent := inv.healthy.coherent
  have sameCache : ∀ {u : State Pid}, u.cache = s.cache → u.disk = s.disk →
      u.history = s.history → u.log.dev = s.log.dev → u.procs = s.procs → Coherent u := by
    intro u cache disk history log procs
    exact coherent.congr cache disk (by rw [history]) (by rw [history]) log
      (fun q => by rw [procs]) fun q => by rw [procs]
  cases effect with
  | call here quiet =>
    exact inv.setCtl first (.call here quiet) rfl (by simp) (by simp [State.Runs, here]) (by simp)
      ⟨rfl, rfl, rfl, rfl⟩ coherent rfl rfl fun _ _ _ => Iff.rfl
  | enter here room =>
    exact inv.setCtl first (.enter here room) rfl (by simp) (by simp [State.Runs, here]) (by simp)
      ⟨rfl, rfl, rfl, rfl⟩ (sameCache rfl rfl rfl rfl rfl) rfl rfl fun _ _ _ => Iff.rfl
  | sleep here =>
    exact inv.setCtl first (.sleep here) rfl (by simp) (by simp [State.Runs, here]) (by simp)
      ⟨rfl, rfl, rfl, rfl⟩ coherent rfl rfl fun _ _ _ => Iff.rfl
  | last here _ _ one => exact inv.last here one
  | more here quiet calm several =>
    refine inv.setCtl first (.more here quiet calm several) rfl (by simp)
      (by simp [State.Runs, here])
      (by simp) ⟨rfl, rfl, rfl, rfl⟩ ?_ rfl rfl ?_
    · refine coherent.congr rfl rfl rfl rfl rfl ?_ ?_
      · intro q
        simp only [State.wakeup]
        split <;> rfl
      · intro q
        simp only [State.wakeup]
        split <;> rfl
    · intro q r pc
      simp only [State.wakeup]
      split
      next asleep =>
        have before : (s.procs q).ctl = .sleeping := asleep
        simp [before]
      next => exact Iff.rfl
  | interrupted => exact inv.panic _
  | @bread p number blockno client quiet =>
    have step : Effect first s (.bread p number blockno)
        (s.bget p number blockno fun _ => (s.procs p).ctl) := .bread client quiet
    have idle := Ctl.client_not_running client
    unfold bget at step ⊢
    split
    next cache i got =>
      rw [got] at step
      refine inv.of_client first step rfl (by simp) idle ?_ ⟨rfl, rfl, rfl, rfl⟩
        (coherent.bget quiet got _) rfl rfl ?_
      · rintro r ⟨pc, running⟩
        refine idle r ⟨pc, ?_⟩
        simpa using running
      · intro q different r pc
        rw [procs_ne different]
    next => exact inv.panic _
  | @acquire p i here free =>
    exact inv.of_call first (.acquire here free) rfl (by simp) ⟨rfl, rfl, rfl, rfl⟩
      (coherent.acquire here free) rfl rfl (ctl_setProc _ p _ rfl)
      fun need met => met.acquire coherent here free
  | @load p i here =>
    refine inv.of_call first (.load here) rfl (by simp) ?_ (coherent.load here) ?_ ?_ ?_
      fun need met => met.load coherent here
    · rw [load_eq]
      exact ⟨rfl, rfl, rfl, rfl⟩
    · rw [load_eq]
      rfl
    · rw [load_eq]
      rfl
    · rw [load_eq]
      exact ctl_setProc _ p _ rfl
  | @modify p i data client quiet owned =>
    refine inv.of_client first (.modify client quiet owned) rfl (by simp)
      (Ctl.client_not_running client) ?_ (SameLog.setData s p i data)
      (coherent.setData owned quiet data) rfl rfl ?_
    · rintro r ⟨pc, running⟩
      exact Ctl.client_not_running client r ⟨pc, by simpa [setData] using running⟩
    · intro q different r pc
      rw [setData, procs_ne different]
      rfl
  | absorb client quiet owned room began old => exact inv.absorb control owned began old allowed
  | append client quiet owned room began new =>
    exact inv.append control owned room began new allowed
  | refused => exact inv.panic _
  | @brelse p i client quiet owned =>
    refine inv.of_client first (.brelse client quiet owned) rfl (by simp)
      (Ctl.client_not_running client) ?_ (SameLog.brelse s p i)
      (coherent.brelse owned quiet) rfl rfl ?_
    · rintro r ⟨pc, running⟩
      exact Ctl.client_not_running client r ⟨pc, by simpa [State.brelse] using running⟩
    · intro q different r pc
      rw [State.brelse, procs_ne different]
      rfl
  | @release p i here =>
    exact inv.of_call first (.release here) rfl (by simp) ⟨rfl, rfl, rfl, rfl⟩
      (coherent.release here)
      rfl rfl (ctl_setProc _ p _ rfl) fun need met => met.release here
  | run here quiet => exact inv.statement first here quiet
  | crash =>
    rw [inv.healthy.start, inv.healthy.size, inv.device]
    exact .boot first (inv.device ▸ coherent.device) inv.healthy.durable

end

/-- **The invariant holds in every reachable state**, whatever crashes come. -/
theorem Inv.run {acts : List (Act Pid)} (device : dev ≠ 0) (clean : Durable area base disk)
    (run : Run (Step first (HomeBlock area dev)) (Bio.boot first dev area.start area.size disk [])
      acts s) : Inv area dev base s :=
  run.invariant (Inv area dev base)
    (fun inv step => inv.effect step.effect.1 step.effect.2) (.boot first device clean)

end Steps

end Xv6.Bio
