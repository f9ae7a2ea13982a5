import Xv6.Pipe.Basic

/-!
# A pipe is a bounded queue

At any point of any run, the bytes that `piperead` has delivered followed by
the bytes in the ring are the bytes that `pipewrite` has accepted
(`Fifo.queue`). The ring is that of `Xv6.Lib.Ring`, so this holds across the
wrap of the 32-bit counters.
-/

namespace Xv6.Pipe

variable {Pid : Type}

/-- The whole buffer of a call of `piperead` can be written. -/
def Writable (dst : Nat → Bool) (n : Int) : Prop := ∀ i : Nat, (i : Int) < n → dst i = true

/-- A call of `piperead` passes a buffer that can be written. -/
def Event.Valid : Event Pid → Prop
  | .call _ (.piperead dst n) => Writable dst n
  | _ => True

/-- The pipe has no bytes and will get none. -/
def Buffer.AtEnd (pipe : Buffer) : Prop := pipe.ring.Empty ∧ pipe.writeopen = false

/-- What a reader knows behind the loop that waits: there are bytes or the pipe is at its end. -/
def ReadFacts (pipe : Buffer) : Thread → Prop
  | .readEnter dst n | .readLoop dst n | .readSleep dst n => Writable dst n
  | .readCopy dst n i =>
    Writable dst n ∧ (i = 0 → pipe.ring.Empty → pipe.writeopen = false)
  | .readWakeup n i => i = 0 → 0 < n → pipe.AtEnd
  | .readExit n result => result = 0 → 0 < n → pipe.AtEnd
  | _ => True

theorem stable_readFacts : Stable ReadFacts := by
  intro t pipe other without fact
  cases t <;> first | exact fact | cases without

/-- The delivered bytes and those in the ring are the accepted ones. -/
def State.Queue (s : State Pid) : Prop :=
  ∃ buffered, s.pipe.ring.Holds buffered ∧ s.accepted = s.delivered ++ buffered

structure Fifo (s : State Pid) : Prop where
  guarded : Guarded ReadFacts s
  queue : s.Queue

theorem PIPESIZE_dvd : PIPESIZE ∣ 2 ^ 32 := by decide

theorem PIPESIZE_lt : PIPESIZE < 2 ^ 32 := by decide

theorem State.Queue.store {s : State Pid} (queue : s.Queue) (room : ¬ s.pipe.ring.Full)
    (ch : UInt8) : (s.store ch).Queue := by
  obtain ⟨buffered, holds, accepted⟩ := queue
  refine ⟨buffered ++ [ch], holds.push PIPESIZE_dvd ?_ ch, ?_⟩
  · rw [holds.full_iff PIPESIZE_lt] at room
    exact lt_of_le_of_ne holds.length_le room
  · simp only [State.store, accepted, List.append_assoc]

/-- Taking the front of a ring with bytes and copying it out delivers it. -/
theorem State.Queue.deliver {s : State Pid} (queue : s.Queue) (bytes : ¬ s.pipe.ring.Empty) :
    (s.take.deliver s.pipe.ring.front).Queue := by
  obtain ⟨buffered, holds, accepted⟩ := queue
  cases buffered with
  | nil => exact absurd ((holds.empty_iff PIPESIZE_lt).mpr rfl) bytes
  | cons ch rest =>
    obtain ⟨front, popped⟩ := holds.pop
    refine ⟨rest, popped, ?_⟩
    simp only [State.take, State.deliver, accepted, front, List.append_assoc, List.singleton_append]

namespace Fifo

theorem initially (junk : Fin PIPESIZE → UInt8) : Fifo (initial Pid junk) where
  guarded := .initially (fun _ => trivial) junk
  queue := ⟨[], Ring.holds_nil junk 0, rfl⟩

section Steps

variable [DecidableEq Pid] {s t : State Pid} {p : Pid}

section

variable (fifo : Fifo s) {n : Int} {i : Nat} {dst : Nat → Bool}
include fifo

theorem move (mine : s.lock = none ∨ s.lock = some p) {target : Thread}
    (thread : t.thread = Function.update s.thread p target)
    (lock : t.lock = if target.holds then some p else none)
    (fact : ReadFacts t.pipe target) (queue : t.Queue) : Fifo t :=
  ⟨fifo.guarded.move stable_readFacts mine thread lock fact, queue⟩

theorem writePass {src : Nat → Option UInt8} {signalled : Nat}
    (at_p : s.thread p = .writeLoop src n i signalled) :
    Fifo (writePass s p src n i signalled) := by
  have held : s.lock = some p := fifo.guarded.held (by rw [at_p]; rfl)
  unfold Pipe.writePass
  split
  · split
    · exact fifo.move (.inr held) rfl held trivial fifo.queue
    · split
      · exact fifo.move (.inr held) rfl held trivial fifo.queue
      next room =>
        split
        · exact fifo.move (.inr held) rfl held trivial fifo.queue
        next ch _ =>
          exact fifo.move (.inr held) rfl held trivial (fifo.queue.store room ch)
  · exact fifo.move (.inr held) rfl held trivial fifo.queue

theorem readTest (at_p : s.thread p = .readLoop dst n) : Fifo (readTest s p dst n) := by
  have held : s.lock = some p := fifo.guarded.held (by rw [at_p]; rfl)
  have writable : Writable dst n := by
    simpa only [ReadFacts, at_p] using fifo.guarded.facts p
  unfold Pipe.readTest
  split
  · split
    · exact fifo.move (.inr held) rfl held (fun zero => by cases zero) fifo.queue
    · exact fifo.move (.inr held) rfl held writable fifo.queue
  next ready =>
    refine fifo.move (.inr held) rfl held ⟨writable, fun _ empty => ?_⟩ fifo.queue
    exact Bool.eq_false_iff.mpr fun opened => ready ⟨empty, opened⟩

theorem readPass (at_p : s.thread p = .readCopy dst n i) : Fifo (readPass s p dst n i) := by
  have held : s.lock = some p := fifo.guarded.held (by rw [at_p]; rfl)
  obtain ⟨writable, atEnd⟩ :
      Writable dst n ∧ (i = 0 → s.pipe.ring.Empty → s.pipe.writeopen = false) := by
    simpa only [ReadFacts, at_p] using fifo.guarded.facts p
  unfold Pipe.readPass
  split
  next more =>
    split
    next empty =>
      exact fifo.move (.inr held) rfl held (fun none _ => ⟨empty, atEnd none empty⟩) fifo.queue
    next bytes =>
      rw [if_pos (writable i more)]
      exact fifo.move (.inr held) rfl held ⟨writable, fun zero => absurd zero (by omega)⟩
        (fifo.queue.deliver bytes)
  next done =>
    exact fifo.move (.inr held) rfl held (fun none wanted => absurd wanted (by omega)) fifo.queue

theorem advance (moved : advance s p = some t) : Fifo t := by
  have fact := fifo.guarded.facts p
  have held := fifo.guarded.held (p := p)
  unfold Pipe.advance at moved
  cases at_p : s.thread p with rw [at_p] at moved fact held
  | idle => cases moved
  | writeEnter src n i signalled =>
    obtain ⟨_, acquired, rfl⟩ := Option.map_eq_some_iff.mp moved
    obtain ⟨free, rfl⟩ := acquire_eq acquired
    exact fifo.move (.inl free) rfl rfl trivial fifo.queue
  | writeLoop src n i signalled =>
    cases moved
    exact fifo.writePass at_p
  | readEnter dst n =>
    obtain ⟨_, acquired, rfl⟩ := Option.map_eq_some_iff.mp moved
    obtain ⟨free, rfl⟩ := acquire_eq acquired
    exact fifo.move (.inl free) rfl rfl fact fifo.queue
  | readLoop dst n =>
    cases moved
    exact fifo.readTest at_p
  | readCopy dst n i =>
    cases moved
    exact fifo.readPass at_p
  | closeEnter writable =>
    obtain ⟨_, acquired, rfl⟩ := Option.map_eq_some_iff.mp moved
    obtain ⟨free, rfl⟩ := acquire_eq acquired
    refine fifo.move (.inl free) rfl rfl trivial ?_
    cases writable <;> exact fifo.queue
  | readWakeup n i =>
    cases moved
    refine fifo.move (.inr (held rfl)) rfl (held rfl) (fun zero wanted => ?_) fifo.queue
    exact fact (by exact_mod_cast zero) wanted
  | readSleep dst n =>
    cases moved
    exact fifo.move (.inr (held rfl)) rfl rfl fact fifo.queue
  | writeFull src n i signalled | writeWakeup i | closeWakeup writable =>
    cases moved
    exact fifo.move (.inr (held rfl)) rfl (held rfl) trivial fifo.queue
  | writeSleep src n i signalled | closeExit | writeExit result | readExit n result =>
    cases moved
    exact fifo.move (.inr (held rfl)) rfl rfl trivial fifo.queue

theorem step {event : Event Pid} (stepped : Step s event t) (valid : event.Valid) : Fifo t := by
  obtain ⟨p, call, rfl, idle, rfl⟩ | ⟨p, rfl, moved⟩ | ⟨p, rfl, rfl⟩ := step_cases stepped
  · refine ⟨fifo.guarded.call idle ?_, fifo.queue⟩
    cases call with
    | piperead dst n => exact valid
    | pipewrite src n => trivial
    | pipeclose writable => trivial
  · exact fifo.advance moved
  · exact ⟨fifo.guarded.kill p, fifo.queue⟩

end

end Steps

end Fifo

/-- **A pipe is a bounded queue, in runs of any length**, and `piperead` returns 0 only when the
pipe is empty and its write end closed. -/
theorem pipe_is_bounded_fifo [DecidableEq Pid] (junk : Fin PIPESIZE → UInt8)
    {events : List (Event Pid)} {s : State Pid}
    (run : Run Step (initial Pid junk) events s) (valid : ∀ event ∈ events, event.Valid) :
    (∃ buffered, s.accepted = s.delivered ++ buffered ∧ s.pipe.ring.Holds buffered ∧
        (s.pipe.ring.nwrite - s.pipe.ring.nread).toNat = buffered.length ∧
        buffered.length ≤ PIPESIZE) ∧
      ∀ p n, s.thread p = .readExit n 0 → 0 < n → s.pipe.ring.Empty ∧ s.pipe.writeopen = false := by
  have fifo : Fifo s := 
    (run.restrict valid).invariant Fifo (fun fifo one => fifo.step one.1 one.2) (.initially junk)
  obtain ⟨buffered, holds, accepted⟩ := fifo.queue
  refine ⟨⟨buffered, accepted, holds, holds.toNat_sub PIPESIZE_lt, holds.length_le⟩, ?_⟩
  intro p n returning wanted
  have fact := fifo.guarded.facts p
  rw [returning] at fact
  exact fact rfl wanted

/-- Two bytes are written and one of them is read. -/
theorem pipe_is_bounded_fifo_two : ∃ (events : List (Event (Fin NPROC))) (s : State (Fin NPROC)),
      Run Step (initial (Fin NPROC) fun _ => 0) events s ∧
      s.accepted = [65, 66] ∧ s.delivered = [65] ∧
      ∃ buffered, s.accepted = s.delivered ++ buffered ∧ s.pipe.ring.Holds buffered ∧
        (s.pipe.ring.nwrite - s.pipe.ring.nread).toNat = buffered.length ∧
        buffered.length ≤ PIPESIZE := by
  let events : List (Event (Fin NPROC)) :=
    [.call 0 (.pipewrite (fun i => some (65 + i.toUInt8)) 2), .step 0, .step 0, .step 0, .step 0,
      .step 0, .step 0, .call 1 (.piperead (fun _ => true) 1), .step 1, .step 1, .step 1]
  have executed : ∃ s, events.foldlM next (initial (Fin NPROC) fun _ => 0) = some s ∧
      s.accepted = [65, 66] ∧ s.delivered = [65] := ⟨_, rfl, rfl, rfl⟩
  obtain ⟨s, fold, accepted, delivered⟩ := executed
  have run : Run Step (initial (Fin NPROC) fun _ => 0) events s := .of_execute fold
  refine ⟨events, s, run, accepted, delivered, (pipe_is_bounded_fifo _ run ?_).1⟩
  simp [events, Event.Valid, Writable]

end Xv6.Pipe
