import Xv6.Pipe.Basic

/-!
# Sleepers on a pipe

A process that sleeps on `&pi->nread` waits for bytes or for the write end to
be closed, one that sleeps on `&pi->nwrite` for room or for the read end to be
closed. Whenever one of them has what it waits for, some thread holds the lock
and has the matching `wakeup` still before it (`Inv.signalled`).
-/

namespace Xv6.Pipe

open Function

variable {Pid : Type}

/-- The pipe has what the sleepers of the channel wait for. -/
def Buffer.Ready (pipe : Buffer) : Chan → Prop
  | .nread => ¬ pipe.ring.Empty ∨ pipe.writeopen = false
  | .nwrite => ¬ pipe.ring.Full ∨ pipe.readopen = false

/-- The thread holds the lock and will call `wakeup` on the channel before it
releases it. -/
def Thread.owes : Thread → Chan → Prop
  | .writeLoop _ _ i signalled, .nread => signalled < i
  | .writeFull .., .nread => True
  | .writeWakeup _, .nread => True
  | .readCopy .., .nwrite => True
  | .readWakeup .., .nwrite => True
  | .closeWakeup writable, chan => chan = if writable then .nread else .nwrite
  | _, _ => False

theorem Thread.holds_of_owes {t : Thread} {chan : Chan} (owes : t.owes chan) : t.holds = true := by
  cases t <;> first | rfl | exact owes.elim

/-- What the threads know while they hold the lock: why they are about to sleep, and that a
writer with unannounced bytes has found the read end open. -/
def WakeFacts (pipe : Buffer) : Thread → Prop
  | .writeEnter _ _ i signalled => signalled = i
  | .writeLoop _ _ i signalled => signalled ≤ i ∧ (signalled < i → pipe.readopen = true)
  | .writeFull .. => ¬ pipe.Ready .nwrite
  | .writeSleep _ _ i signalled => signalled = i ∧ ¬ pipe.Ready .nwrite
  | .readSleep .. => ¬ pipe.Ready .nread
  | _ => True

theorem stable_wakeFacts : Stable WakeFacts := by
  intro t pipe other without fact
  cases t <;> first | exact fact | cases without

/-- No sleeper has what it waits for, unless the holder of the lock is about to
wake it. -/
structure Inv (s : State Pid) : Prop where
  guarded : Guarded WakeFacts s
  signalled : ∀ q chan, s.asleep q = some chan → s.pipe.Ready chan →
    ∃ p, s.lock = some p ∧ (s.thread p).owes chan

/-- The next step of the thread returns from `pipewrite` because the process is
killed, with bytes stored since its last `wakeup(&pi->nread)`. -/
def Thread.leavesUnannounced (killed : Bool) : Thread → Bool
  | .writeLoop _ n i signalled => decide ((i : Int) < n) && killed && decide (signalled ≠ i)
  | _ => false

/-- If a writer leaves because it is killed, and has not announced its bytes, then no process
sleeps on `&pi->nread`. -/
def Announces (s : State Pid) : Event Pid → Prop
  | .step p => (s.thread p).leavesUnannounced (s.killed p) = true → ∀ q, s.asleep q ≠ some .nread
  | _ => True

variable {target : Thread}

namespace Inv

theorem initially (junk : Fin PIPESIZE → UInt8) : Inv (initial Pid junk) where
  guarded := .initially (fun _ => trivial) junk
  signalled := fun q chan asleep => by cases asleep

variable {s t : State Pid} {p q : Pid} {chan : Chan}

theorem not_ready_of_free (inv : Inv s) (free : s.lock = none) (asleep : s.asleep q = some chan) :
    ¬ s.pipe.Ready chan := by
  intro ready
  obtain ⟨p, held, _⟩ := inv.signalled q chan asleep ready
  rw [free] at held
  cases held

theorem owes_of_held (inv : Inv s) (held : s.lock = some p) (asleep : s.asleep q = some chan)
    (ready : s.pipe.Ready chan) : (s.thread p).owes chan := by
  obtain ⟨holder, taken, owes⟩ := inv.signalled q chan asleep ready
  rw [held] at taken
  exact Option.some.inj taken ▸ owes

variable [DecidableEq Pid]

/-- A thread that has the lock, or finds it free, moves on: it must know why
it sleeps and owe a `wakeup` to every sleeper it leaves behind. -/
theorem move (inv : Inv s) (mine : s.lock = none ∨ s.lock = some p)
    (thread : t.thread = update s.thread p target)
    (lock : t.lock = if target.holds then some p else none) (fact : WakeFacts t.pipe target)
    (sleepers : ∀ q chan, t.asleep q = some chan → t.pipe.Ready chan → target.owes chan) :
    Inv t where
  guarded := inv.guarded.move stable_wakeFacts mine thread lock fact
  signalled := by
    intro q chan asleep ready
    have owes := sleepers q chan asleep ready
    refine ⟨p, ?_, ?_⟩
    · rw [lock, Thread.holds_of_owes owes]
      rfl
    · rwa [thread, update_self]

end Inv

theorem asleep_wakeup [DecidableEq Pid] {s : State Pid} {chan other : Chan} {q : Pid}
    (asleep : (s.wakeup chan).asleep q = some other) : s.asleep q = some other ∧ other ≠ chan := by
  simp only [State.wakeup] at asleep
  split at asleep
  · cases asleep
  next awake =>
    refine ⟨asleep, ?_⟩
    rintro rfl
    exact awake asleep

section Steps

variable [DecidableEq Pid] {s t : State Pid} {p : Pid}

section

variable (inv : Inv s) {n : Int} {i : Nat} {dst : Nat → Bool}
include inv

theorem Inv.writePass {src : Nat → Option UInt8} {signalled : Nat}
    (at_p : s.thread p = .writeLoop src n i signalled) (announces : Announces s (.step p)) :
    Inv (writePass s p src n i signalled) := by
  have held : s.lock = some p := inv.guarded.held (by rw [at_p]; rfl)
  obtain ⟨le, opened⟩ : signalled ≤ i ∧ (signalled < i → s.pipe.readopen = true) := by
    simpa only [WakeFacts, at_p] using inv.guarded.facts p
  have announced : (i : Int) < n → s.killed p = true → signalled < i →
      ∀ q, s.asleep q ≠ some .nread := by
    intro more killed less
    refine announces ?_
    rw [at_p]
    simp [Thread.leavesUnannounced, more, killed, less.ne]
  have owed : ∀ q chan, s.asleep q = some chan → s.pipe.Ready chan →
      chan = .nread ∧ signalled < i := by
    intro q chan asleep ready
    have owes := inv.owes_of_held held asleep ready
    rw [at_p] at owes
    cases chan with
    | nread => exact ⟨rfl, owes⟩
    | nwrite => exact owes.elim
  have toWakeup : Inv (s.goto p (.writeWakeup i)) := by
    refine inv.move (.inr held) rfl held trivial fun q chan asleep ready => ?_
    rw [(owed q chan asleep ready).1]
    trivial
  unfold Pipe.writePass
  split
  next more =>
    split
    · -- an exit: the read end closed since the last `wakeup`, or killed
      next leaving =>
        refine inv.move (.inr held) rfl held trivial fun q chan asleep ready => ?_
        obtain ⟨rfl, unannounced⟩ := owed q chan asleep ready
        rcases leaving with closed | killed
        · rw [opened unannounced] at closed
          cases closed
        · exact absurd asleep (announced more killed unannounced q)
    next staying =>
      have reading : s.pipe.readopen = true := by
        simpa using (not_or.mp staying).1
      split
      next full =>
        refine inv.move (.inr held) rfl held ?_ fun q chan asleep ready => ?_
        · rintro (room | closed)
          · exact room full
          · rw [State.goto, reading] at closed
            cases closed
        · rw [(owed q chan asleep ready).1]
          trivial
      next room =>
        split
        · exact toWakeup
        · -- with room there was no sleeper on `nwrite` before the store
          refine inv.move (.inr held) rfl held ⟨by omega, fun _ => reading⟩
            fun q chan asleep _ => ?_
          cases chan with
          | nread => exact Nat.lt_succ_of_le le
          | nwrite => cases (owed q .nwrite asleep (.inl room)).1
  · exact toWakeup

theorem Inv.readTest (at_p : s.thread p = .readLoop dst n) : Inv (readTest s p dst n) := by
  have held : s.lock = some p := inv.guarded.held (by rw [at_p]; rfl)
  have unready : ∀ q chan, s.asleep q = some chan → ¬ s.pipe.Ready chan := by
    intro q chan asleep ready
    have owes := inv.owes_of_held held asleep ready
    rw [at_p] at owes
    exact owes.elim
  have sleepers : ∀ {target : Thread} (q : Pid) (chan : Chan), s.asleep q = some chan →
      s.pipe.Ready chan → target.owes chan :=
    fun q chan asleep ready => absurd ready (unready q chan asleep)
  unfold Pipe.readTest
  split
  next waiting =>
    split
    · exact inv.move (.inr held) rfl held trivial sleepers
    · refine inv.move (.inr held) rfl held ?_ sleepers
      rintro (some_bytes | closed)
      · exact some_bytes waiting.1
      · rw [State.goto, waiting.2] at closed
        cases closed
  · exact inv.move (.inr held) rfl held trivial sleepers

theorem Inv.readPass (at_p : s.thread p = .readCopy dst n i) : Inv (readPass s p dst n i) := by
  have held : s.lock = some p := inv.guarded.held (by rw [at_p]; rfl)
  have owed : ∀ q chan, s.asleep q = some chan → s.pipe.Ready chan → chan = .nwrite := by
    intro q chan asleep ready
    have owes := inv.owes_of_held held asleep ready
    rw [at_p] at owes
    cases chan with
    | nread => exact owes.elim
    | nwrite => rfl
  have toWakeup : Inv (s.goto p (.readWakeup n i)) := by
    refine inv.move (.inr held) rfl held trivial fun q chan asleep ready => ?_
    rw [owed q chan asleep ready]
    trivial
  unfold Pipe.readPass
  split
  · split
    · exact toWakeup
    · -- with a byte in the pipe there was no sleeper on `nread` before
      next some_bytes =>
        split
        all_goals
          refine inv.move (.inr held) rfl held trivial fun q chan asleep _ => ?_
          cases chan with
          | nread => cases owed q .nread asleep (.inl some_bytes)
          | nwrite => trivial
  · exact toWakeup

section

variable (held : s.lock = some p)
include held

/-- `wakeup` on the channel that the thread owes pays its whole debt. -/
theorem Inv.wakeup {chan : Chan} (holds : target.holds = true)
    (debt : ∀ other, (s.thread p).owes other → s.pipe.Ready other → other = chan)
    (fact : WakeFacts s.pipe target) : Inv ((s.wakeup chan).goto p target) := by
  refine inv.move (.inr held) rfl ?_ fact fun q other asleep ready => ?_
  · rw [holds]
    exact held
  · obtain ⟨before, different⟩ := asleep_wakeup asleep
    exact absurd (debt other (inv.owes_of_held held before ready) ready) different

/-- A thread that knows why it sleeps, and owes nothing, may sleep. -/
theorem Inv.sleep {chan : Chan}
    (without : target.holds = false) (paid : ∀ other, ¬ (s.thread p).owes other)
    (reason : ¬ s.pipe.Ready chan) (fact : WakeFacts s.pipe target) :
    Inv ((s.sleep p chan).goto p target) := by
  refine inv.move (.inr held) rfl ?_ fact fun q other asleep ready => ?_
  · rw [without]
    rfl
  · by_cases same : q = p
    · subst same
      simp only [State.goto, State.sleep, update_self, Option.some.injEq] at asleep
      exact absurd (asleep ▸ ready) reason
    · simp only [State.goto, State.sleep, update_of_ne same] at asleep
      exact absurd (inv.owes_of_held held asleep ready) (paid other)

theorem Inv.release (paid : ∀ other, ¬ (s.thread p).owes other) (freed : Bool) :
    Inv ({ s.release with freed := freed }.goto p .idle) := by
  refine inv.move (.inr held) rfl rfl trivial fun q other asleep ready => ?_
  exact absurd (inv.owes_of_held held asleep ready) (paid other)

end

/-- A thread that takes the free lock finds no sleeper with what it waits
for. -/
theorem Inv.enter (free : s.lock = none)
    (holds : target.holds = true) (fact : WakeFacts s.pipe target) :
    Inv ({ s with lock := some p }.goto p target) := by
  refine inv.move (.inl free) rfl ?_ fact fun q other asleep ready => ?_
  · rw [holds]
    rfl
  · exact absurd ready (inv.not_ready_of_free free asleep)

/-- `pipeclose` owes a `wakeup` to those it gives what they wait for. -/
theorem Inv.shut (writable : Bool) (free : s.lock = none) :
    Inv (({ s with lock := some p }.shut writable).goto p (.closeWakeup writable)) := by
  refine inv.move (.inl free) rfl rfl trivial fun q other asleep ready => ?_
  have unready := inv.not_ready_of_free free asleep
  cases writable with
  | true =>
    cases other with
    | nread => rfl
    | nwrite => exact absurd ready unready
  | false =>
    cases other with
    | nread => exact absurd ready unready
    | nwrite => rfl

/-- Every step of a process keeps the invariant, if a killed writer leaves no reader
asleep. -/
theorem Inv.advance (announces : Announces s (.step p)) (moved : advance s p = some t) : Inv t := by
  have fact := inv.guarded.facts p
  have held := inv.guarded.held (p := p)
  unfold Pipe.advance at moved
  cases at_p : s.thread p with rw [at_p] at moved fact held
  | idle => cases moved
  | writeEnter src n i signalled =>
    obtain ⟨_, acquired, rfl⟩ := Option.map_eq_some_iff.mp moved
    obtain ⟨free, rfl⟩ := acquire_eq acquired
    exact inv.enter free rfl ⟨Nat.le_of_eq fact, fun less => absurd fact (Nat.ne_of_lt less)⟩
  | writeLoop src n i signalled =>
    cases moved
    exact inv.writePass at_p announces
  | writeFull src n i signalled =>
    cases moved
    refine inv.wakeup (held rfl) rfl (fun other owes _ => ?_) ⟨rfl, fact⟩
    rw [at_p] at owes
    cases other with
    | nread => rfl
    | nwrite => exact owes.elim
  | writeSleep src n i signalled =>
    cases moved
    exact inv.sleep (held rfl) rfl (fun other owes => by rw [at_p] at owes; exact owes) fact.2
      fact.1
  | writeWakeup i =>
    cases moved
    refine inv.wakeup (held rfl) rfl (fun other owes _ => ?_) trivial
    rw [at_p] at owes
    cases other with
    | nread => rfl
    | nwrite => exact owes.elim
  | readEnter dst n =>
    obtain ⟨_, acquired, rfl⟩ := Option.map_eq_some_iff.mp moved
    obtain ⟨free, rfl⟩ := acquire_eq acquired
    exact inv.enter free rfl trivial
  | readLoop dst n =>
    cases moved
    exact inv.readTest at_p
  | readSleep dst n =>
    cases moved
    exact inv.sleep (held rfl) rfl (fun other owes => by rw [at_p] at owes; exact owes) fact
      trivial
  | readCopy dst n i =>
    cases moved
    exact inv.readPass at_p
  | readWakeup n i =>
    cases moved
    refine inv.wakeup (held rfl) rfl (fun other owes _ => ?_) trivial
    rw [at_p] at owes
    cases other with
    | nread => exact owes.elim
    | nwrite => rfl
  | closeEnter writable =>
    obtain ⟨_, acquired, rfl⟩ := Option.map_eq_some_iff.mp moved
    obtain ⟨free, rfl⟩ := acquire_eq acquired
    exact inv.shut writable free
  | closeWakeup writable =>
    cases moved
    refine inv.wakeup (held rfl) rfl (fun other owes _ => ?_) trivial
    rwa [at_p] at owes
  | closeExit =>
    cases moved
    exact inv.release (held rfl) (fun other owes => by rw [at_p] at owes; exact owes) _
  | writeExit _ | readExit _ _ =>
    cases moved
    exact inv.release (held rfl) (fun other owes => by rw [at_p] at owes; exact owes) s.freed

theorem Inv.call {call : Call} (idle : s.thread p = .idle) : Inv (s.goto p call.enter) where
  guarded := inv.guarded.call idle (by cases call <;> trivial)
  signalled := by
    intro q chan asleep ready
    obtain ⟨holder, held, owes⟩ := inv.signalled q chan asleep ready
    refine ⟨holder, held, ?_⟩
    have other : holder ≠ p := by
      rintro rfl
      rw [idle] at owes
      exact owes
    simpa only [State.goto, update_of_ne other] using owes

theorem Inv.kill (p : Pid) : Inv (s.kill p) where
  guarded := inv.guarded.kill p
  signalled := by
    intro q chan asleep ready
    by_cases same : q = p
    · subst same
      simp [State.kill] at asleep
    · simp only [State.kill, update_of_ne same] at asleep
      exact inv.signalled q chan asleep ready

theorem Inv.step {event : Event Pid} (step : Step s event t)
    (announces : Announces s event) : Inv t := by
  obtain ⟨p, call, rfl, idle, rfl⟩ | ⟨p, rfl, moved⟩ | ⟨p, rfl, rfl⟩ := step_cases step
  · exact inv.call idle
  · exact inv.advance announces moved
  · exact inv.kill p

end

end Steps

/-- **No process sleeps on a pipe that has what it waits for** while the lock is free, if no
killed writer leaves with unannounced bytes while a process sleeps on `&pi->nread`. -/
theorem no_sleeper_on_ready_pipe [DecidableEq Pid] (junk : Fin PIPESIZE → UInt8)
    {events : List (Event Pid)} {s : State Pid}
    (run : Run (fun s event t => Step s event t ∧ Announces s event) (initial Pid junk) events s)
    (free : s.lock = none) :
    (∀ p, s.asleep p = some .nread → s.pipe.ring.Empty ∧ s.pipe.writeopen = true) ∧
      (∀ p, s.asleep p = some .nwrite → s.pipe.ring.Full ∧ s.pipe.readopen = true) := by
  have inv : Inv s := run.invariant Inv (fun inv one => inv.step one.1 one.2) (.initially junk)
  constructor
  · intro p asleep
    simpa [Buffer.Ready] using inv.not_ready_of_free free asleep
  · intro p asleep
    simpa [Buffer.Ready] using inv.not_ready_of_free free asleep

/-- Process 0 reads one byte from the empty pipe and sleeps, process 1 stores the first of two
bytes, is killed, and leaves. -/
def strandingRun : List (Event (Fin NPROC)) :=
  [.call 0 (.piperead (fun _ => true) 1), .step 0, .step 0, .step 0,
    .call 1 (.pipewrite (fun _ => some 65) 2), .step 1, .step 1, .kill 1, .step 1, .step 1]

/-- A reader alone sleeps on the empty pipe, as it should. -/
theorem no_sleeper_on_ready_pipe_reader : ∃ s : State (Fin NPROC),
      Run (fun s event t => Step s event t ∧ Announces s event)
        (initial (Fin NPROC) fun _ => 0) (strandingRun.take 4) s ∧
      s.lock = none ∧ s.asleep 0 = some .nread ∧
      s.pipe.ring.Empty ∧ s.pipe.writeopen = true := by
  have run : ∃ s : State (Fin NPROC), Run (fun s event t => Step s event t ∧ Announces s event)
      (initial (Fin NPROC) fun _ => 0) (strandingRun.take 4) s ∧ s.lock = none ∧
        s.asleep 0 = some .nread :=
    ⟨_, .cons ⟨rfl, trivial⟩ <| .cons ⟨rfl, by rintro ⟨⟩⟩ <| .cons ⟨rfl, by rintro ⟨⟩⟩ <|
      .cons ⟨rfl, by rintro ⟨⟩⟩ .refl, rfl, rfl⟩
  obtain ⟨s, run, free, asleep⟩ := run
  exact ⟨s, run, free, asleep, (no_sleeper_on_ready_pipe _ run free).1 0 asleep⟩

/-- **The killed writer leaves the reader asleep on a pipe with a byte in it,
with the lock free.** -/
theorem killed_writer_strands_reader : ∃ s : State (Fin NPROC),
      Run Step (initial (Fin NPROC) fun _ => 0) strandingRun s ∧
      s.lock = none ∧ s.asleep 0 = some .nread ∧ ¬ s.pipe.ring.Empty :=
  ⟨_, .of_execute rfl, rfl, rfl, by decide⟩

end Xv6.Pipe
