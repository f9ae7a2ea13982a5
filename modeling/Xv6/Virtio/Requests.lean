import Xv6.Virtio.Protocol

/-!
# Every request is served once

The steps of the driver and of the device keep the descriptors, the two rings and the
numbers of the requests in order, for any number of processes and in any interleaving.

That no two calls are about one buffer is a condition on the callers: they hold the
sleep-lock of the buffer.
-/

namespace Xv6.Virtio

open Function State

variable {β : Type} {m : Nat} {s t : State β m} {p : Fin m} {av us : List (Fin NUM)} {c : Chain β}
  {h : Fin NUM} {new : Place β}

/-- The two rings, as queues. -/
structure Queues where
  avail : List (Fin NUM)
  used : List (Fin NUM)

/-- What an event does to the queues. -/
def Queues.after (q : Queues) (s : State β m) : Event β m → Queues
  | .step p =>
    match s.place p with
    | .publish chain => { q with avail := q.avail ++ [chain.head] }
    | _ => q
  | .take => { q with avail := q.avail.tail }
  | .report => { q with used := q.used ++ s.posted.toList }
  | .intr => if s.lock = some .intr then { q with used := q.used.tail } else q
  | _ => q

structure Sound (s : State β m) (q : Queues) : Prop where
  driver : Driver s
  pipeline : Pipeline s q.avail q.used
  numbers : Numbers s q.avail
  panic : s.panic = none

/-- What no step of the driver changes, other than `disk.avail->idx += 1`. -/
structure SameDevice (s t : State β m) : Prop where
  avail : t.disk.avail = s.disk.avail
  used : t.disk.used = s.disk.used
  device : t.device = s.device
  done : t.done = s.done
  posted : t.posted = s.posted
  panic : t.panic = s.panic
  issued : t.issued = s.issued
  number : t.number = s.number
  log : t.log = s.log
  seen : t.seen = s.seen

variable {q : Queues}

section

variable (sound : Sound s q)
include sound

theorem Sound.driven (same : SameDevice s t) (driver : Driver t)
    (before : ∀ p c, (t.place p).waits = some c → (s.place p).waits = some c ∧
      t.disk.busy c.request.b = s.disk.busy c.request.b)
    (after : ∀ p c, (s.place p).waits = some c → (t.place p).waits = some c ∨
      s.disk.busy c.request.b = false)
    (written : ∀ p c, t.place p = .publish c → s.place p = .publish c)
    (unseen : ∀ p c, t.place p = .post c ∨ t.place p = .publish c → t.disk.busy c.request.b = true)
    (status : ∀ h, 0 < s.flight q.avail q.used h →
      (t.disk.info h).status = (s.disk.info h).status) : Sound t q where
  driver := driver
  pipeline := by
    refine sound.pipeline.driver same.avail same.used same.device same.done same.posted before
      (fun p c waits busy => ?_) written unseen status
    exact (after p c waits).resolve_right (by simp [busy])
  numbers := by
    refine sound.numbers.keep (fun h => ?_) same.number same.issued same.log same.seen before
      fun p c waits => (after p c waits).imp_right fun idle => ⟨?_, idle⟩
    · simp only [ahead, taken, same.device]
    · have none := sound.pipeline.idle sound.driver waits idle
      simp only [flight] at none
      omega
  panic := same.panic.trans sound.panic

/-- A process moves on, and the rings, the buffers and the states of the requests stay. -/
theorem Sound.moved (p : Fin m) (new : Place β) (same : SameDevice s t)
    (driver : Driver t) (place : t.place = update s.place p new)
    (waits : new.waits = (s.place p).waits) (hidden : ∀ c, new ≠ .post c ∧ new ≠ .publish c)
    (busy : t.disk.busy = s.disk.busy) (info : t.disk.info = s.disk.info) : Sound t q := by
  have places : ∀ r, t.place r = if r = p then new else s.place r := by
    rw [place]
    exact fun r => update_apply ..
  have waiting : ∀ r, (t.place r).waits = (s.place r).waits := by
    intro r
    rw [places]
    split
    next mine => rw [waits, mine]
    · rfl
  refine sound.driven same driver (fun r c isWaiting => ⟨?_, by rw [busy]⟩)
    (fun r c isWaiting => .inl ?_) (fun r c here => ?_) (fun r c there => ?_)
    fun h _ => by rw [info]
  · rw [← waiting]; exact isWaiting
  · rw [waiting]; exact isWaiting
  · rw [places] at here
    split at here
    · exact absurd here (hidden c).2
    · exact here
  · rw [places] at there
    rw [busy]
    split at there
    · exact absurd there (by simp [hidden c])
    · exact sound.pipeline.unseen r c there

/-! ## The steps of a call -/

theorem Sound.call {request : Request β} (here : s.place p = .out)
    (alone : ∀ r, (s.place r).buffer ≠ some request.b) : Sound (s.goto p (.enter request)) q :=
  sound.moved _ _ ⟨rfl, rfl, rfl, rfl, rfl, rfl, rfl, rfl, rfl, rfl⟩
    (sound.driver.call here alone) rfl
    (by rw [here]; rfl) (fun _ => ⟨nofun, nofun⟩) rfl rfl

theorem Sound.acquire (free : s.lock = none)
    (holds : new.holds = true) (chain : new.chain = (s.place p).chain)
    (buffer : new.buffer = (s.place p).buffer)
    (ready : new.ready = (s.place p).ready) (waits : new.waits = (s.place p).waits)
    (hidden : ∀ c, new ≠ .post c ∧ new ≠ .publish c) :
    Sound ((s.setLock (some (.proc p))).goto p new) q := by
  refine sound.moved p new ⟨rfl, rfl, rfl, rfl, rfl, rfl, rfl, rfl, rfl, rfl⟩ ?_ rfl waits
    hidden rfl rfl
  refine sound.driver.move rfl (sound.driver.lock_acquire free holds) (.refl _) chain buffer
    fun c isReady => ?_
  rw [← ready]
  exact isReady

theorem Sound.release (desc : Fin NUM → Desc β)
    (kept : ∀ x, s.disk.free x = false → desc x = s.disk.desc x)
    (before : (s.place p).holds = true) (holds : new.holds = false)
    (chain : new.chain = (s.place p).chain) (buffer : new.buffer = (s.place p).buffer)
    (ready : new.ready = (s.place p).ready) (waits : new.waits = (s.place p).waits)
    (hidden : ∀ c, new ≠ .post c ∧ new ≠ .publish c) :
    Sound (((s.setDisk { s.disk with desc }).setLock none).goto p new) q := by
  refine sound.moved p new ⟨rfl, rfl, rfl, rfl, rfl, rfl, rfl, rfl, rfl, rfl⟩ ?_ rfl waits
    hidden rfl rfl
  refine sound.driver.move rfl (sound.driver.lock_release before holds)
    ⟨rfl, kept, rfl, fun _ => rfl⟩ chain buffer fun c isReady => ?_
  rw [← ready]
  exact isReady

theorem Sound.format [DecidableEq β] (here : s.place p = .format c) :
    Sound ((s.setDisk (s.disk.format c)).goto p (.post c)) q := by
  have has : (s.place p).chain = some c := by rw [here]; rfl
  have places := (place_goto (s.setDisk (s.disk.format c)) p · (.post c))
  have waiting : ∀ r, (((s.setDisk (s.disk.format c)).goto p (.post c)).place r).waits =
      (s.place r).waits := by
    intro r
    rw [places]
    split
    next mine => rw [mine, here]; rfl
    · rfl
  have busy : ∀ b, (s.disk.format c).busy b = if b = c.request.b then true else s.disk.busy b :=
    fun b => update_apply ..
  have apart : ∀ r b, r ≠ p → (s.place r).buffer = some b → b ≠ c.request.b := by
    rintro r b other mine rfl
    exact other (sound.driver.buffers r p _ mine (Place.buffer_of_chain has))
  refine sound.driven ⟨rfl, rfl, rfl, rfl, rfl, rfl, rfl, rfl, rfl, rfl⟩ (sound.driver.format here)
    (fun r d isWaiting => ?_) (fun r d isWaiting => .inl ?_) (fun r d there => ?_)
    (fun r d there => ?_) fun h some => ?_
  · rw [waiting] at isWaiting
    refine ⟨isWaiting, (busy _).trans (if_neg ?_)⟩
    refine apart r _ ?_ (Place.buffer_of_chain (Place.chain_of_waits isWaiting))
    rintro rfl
    rw [here] at isWaiting
    cases isWaiting
  · rw [waiting]; exact isWaiting
  · rw [places] at there
    split at there
    · cases there
    · exact there
  · rw [places] at there
    refine (busy _).trans ?_
    split at there
    · rcases there with there | there <;> cases there
      exact if_pos rfl
    · split
      · rfl
      · exact sound.pipeline.unseen r d there
  · have other : h ≠ c.head := by
      rintro rfl
      have := sound.pipeline.flight_zero sound.driver has (by rw [here]; rfl)
      omega
    change (update s.disk.info c.head _ h).status = _
    rw [update_of_ne other]

theorem Sound.done {desc : Fin NUM → Desc β}
    (here : s.place p = .wait c) (idle : s.disk.busy c.request.b = false)
    (kept : ∀ x, ¬ c.Has x → desc x = s.disk.desc x) :
    Sound (((s.setDisk { s.disk with
      info := update s.disk.info c.head { s.disk.info c.head with b := none }
      desc := desc
      free := fun x => if c.Has x then true else s.disk.free x }).setLock none).goto p .out) q := by
  refine sound.driven ⟨rfl, rfl, rfl, rfl, rfl, rfl, rfl, rfl, rfl, rfl⟩
    (sound.driver.done here kept) (fun r d isWaiting => ?_) (fun r d isWaiting => ?_)
    (fun r d there => ?_) (fun r d there => ?_) fun h some => ?_
  · rw [place_goto] at isWaiting
    split at isWaiting
    · cases isWaiting
    · exact ⟨isWaiting, rfl⟩
  · rw [place_goto]
    split
    next mine =>
      subst mine
      rw [here] at isWaiting
      cases isWaiting
      exact .inr idle
    · exact .inl isWaiting
  · rw [place_goto] at there
    split at there
    · cases there
    · exact there
  · rw [place_goto] at there
    split at there
    · rcases there with there | there <;> cases there
    · exact sound.pipeline.unseen r d there
  · simp only [goto, setDisk, setLock, update_apply]
    split
    next mine => rw [mine]
    · rfl

/-- A step of a call. The panics of `free_desc` are out of reach. -/
theorem Sound.advance [DecidableEq β]
    (advanced : advance s p = some t) : Sound t (q.after s (.step p)) := by
  have driver := sound.driver
  unfold Virtio.advance at advanced
  cases here : s.place p with
  | out => simp [here] at advanced
  | enter _ | sleep _ =>
    simp only [here, Option.ite_none_right_eq_some, Option.some.injEq] at advanced
    obtain ⟨free, rfl⟩ := advanced
    simp only [Queues.after, here]
    exact sound.acquire free rfl (by rw [here]; rfl) (by rw [here]; rfl) (by rw [here]; rfl)
      (by rw [here]; rfl) fun _ => ⟨by simp, by simp⟩
  | alloc request =>
    simp only [here] at advanced
    simp only [Queues.after, here]
    rcases s.disk.alloc3Desc_cases with ⟨i, j, k, free, apart, result⟩ | ⟨desc, kept, result⟩
    · rw [result] at advanced
      cases advanced
      exact sound.moved _ _ ⟨rfl, rfl, rfl, rfl, rfl, rfl, rfl, rfl, rfl, rfl⟩
        (driver.alloc here free apart) rfl (by rw [here]; rfl) (fun _ => ⟨by simp, by simp⟩) rfl rfl
    · rw [result] at advanced
      cases advanced
      exact sound.release desc kept (by rw [here]; rfl) rfl (by rw [here]; rfl) (by rw [here]; rfl)
        (by rw [here]; rfl) (by rw [here]; rfl) fun _ => ⟨by simp, by simp⟩
  | format c =>
    simp only [here, Option.some.injEq] at advanced
    subst advanced
    simp only [Queues.after, here]
    exact sound.format here
  | post c =>
    simp only [here, Option.some.injEq] at advanced
    subst advanced
    simp only [Queues.after, here]
    refine ⟨?_, sound.pipeline.post driver here, ?_, sound.panic⟩
    · exact driver.move rfl (driver.lock_keep (by rw [here]; rfl))
        ⟨rfl, fun _ _ => rfl, rfl, fun _ => rfl⟩
        (by rw [here]; rfl) (by rw [here]; rfl) (by rw [here]; exact fun _ same => same)
    · have waiting : ∀ r, ((s.post p c).place r).waits = (s.place r).waits := by
        intro r
        rw [State.post, place_goto]
        split
        next mine => rw [mine, here]; rfl
        · rfl
      refine sound.numbers.keep (fun _ => rfl) rfl rfl rfl rfl (fun r d isWaiting => ⟨?_, rfl⟩)
        fun r d isWaiting => .inl ?_
      · rw [← waiting]; exact isWaiting
      · rw [waiting]; exact isWaiting
  | publish c =>
    simp only [here, Option.some.injEq] at advanced
    subst advanced
    simp only [Queues.after, here]
    refine ⟨?_, sound.pipeline.publish driver here,
      sound.numbers.publish sound.pipeline driver here,
      sound.panic⟩
    exact driver.move rfl (driver.lock_keep (by rw [here]; rfl))
      ⟨rfl, fun _ _ => rfl, rfl, fun _ => rfl⟩
      (by rw [here]; rfl) (by rw [here]; rfl) (by rw [here]; exact fun _ same => same)
  | wait c =>
    simp only [here] at advanced
    simp only [Queues.after, here]
    split at advanced
    · cases advanced
      exact sound.release s.disk.desc (fun _ _ => rfl) (by rw [here]; rfl) rfl
        (by rw [here]; rfl) (by rw [here]; rfl) (by rw [here]; rfl) (by rw [here]; rfl)
        fun _ => ⟨by simp, by simp⟩
    next busy =>
      have has : (s.place p).chain = some c := by rw [here]; rfl
      obtain ⟨desc, kept, result⟩ := Disk.freeChain_eq
        (driver.ready p c (by rw [here]; rfl)) (driver.apart p c has) (driver.used has)
        (update s.disk.info c.head { s.disk.info c.head with b := none }) 6
      rw [show NUM + 1 = 6 + 3 from rfl, result] at advanced
      cases advanced
      exact sound.done here (by simpa using busy) kept

/-! ## `virtio_disk_intr` -/

theorem Sound.relock {lock : Option (Holder m)}
    (before : ∀ r, s.lock ≠ some (.proc r)) (after : ∀ r, lock ≠ some (.proc r)) :
    Sound (s.setLock lock) q := by
  refine sound.driven ⟨rfl, rfl, rfl, rfl, rfl, rfl, rfl, rfl, rfl, rfl⟩ ?_
    (fun _ _ isWaiting => ⟨isWaiting, rfl⟩) (fun _ _ isWaiting => .inl isWaiting)
    (fun _ _ there => there) sound.pipeline.unseen fun _ _ => rfl
  exact sound.driver.frame rfl (fun r => ⟨fun wrong => absurd wrong (after r),
    fun wrong => absurd wrong (before r)⟩) (.refl _)

theorem Sound.intr [DecidableEq β] (lock : s.lock = some .intr) :
    Sound (intr s) { q with used := q.used.tail } := by
  obtain ⟨avail, used⟩ := q
  have pipeline : Pipeline s avail used := sound.pipeline
  unfold Virtio.intr
  cases used with
  | nil =>
    have empty : s.disk.used.nread = s.disk.used.nwrite :=
      (pipeline.used.empty_iff NUM_lt).mpr rfl
    rw [if_pos empty]
    exact sound.relock (by simp [lock]) (by simp)
  | cons h us =>
    have front : s.disk.used.front = h := pipeline.used.pop.1
    rw [if_neg (fun empty => by simpa using (pipeline.used.empty_iff NUM_lt).mp empty), front]
    have some : 0 < s.flight avail (h :: us) h := by
      simp only [flight, List.count_cons_self]
      omega
    obtain ⟨p, c, waits, same, busy⟩ := pipeline.owned h some
    have status : (s.disk.info h).status = 0 := by
      refine pipeline.status h ?_
      rw [List.count_cons_self]
      omega
    have buffer : (s.disk.info h).b = Option.some c.request.b := by
      rw [← same]
      exact (sound.driver.ready p c (Place.ready_of_waits waits)).buffer
    simp only [status, buffer, ne_eq, not_true_eq_false, if_false]
    refine ⟨?_, pipeline.see sound.driver waits same,
      Numbers.see sound.numbers sound.driver waits same busy, sound.panic⟩
    exact sound.driver.frame rfl (fun _ => Iff.rfl) ⟨rfl, fun _ _ => rfl, rfl, fun _ => rfl⟩

/-! ## The device -/

theorem Sound.take (some : s.disk.avail.nread ≠ s.disk.avail.nwrite) :
    Sound (s.take s.disk.avail.front) { q with avail := q.avail.tail } := by
  obtain ⟨avail, used⟩ := q
  have pipeline : Pipeline s avail used := sound.pipeline
  cases avail with
  | nil => exact absurd (pipeline.avail.empty_iff NUM_lt |>.mpr rfl) some
  | cons h av =>
    rw [show s.disk.avail.front = h from pipeline.avail.pop.1]
    refine ⟨sound.driver.frame rfl (fun _ => Iff.rfl) ⟨rfl, fun _ _ => rfl, rfl, fun _ => rfl⟩,
      pipeline.take sound.driver, ?_, sound.panic⟩
    exact Numbers.keep sound.numbers (ahead_take s av h) rfl rfl rfl rfl
      (fun _ _ isWaiting => ⟨isWaiting, rfl⟩) fun _ _ isWaiting => .inl isWaiting

theorem Sound.finish {f : Fetched β} (mem : (h, f) ∈ s.device) : Sound (s.finish h f) q := by
  refine ⟨?_, sound.pipeline.finish mem, sound.numbers.finish sound.pipeline mem, sound.panic⟩
  obtain ⟨-, p, c, -, -, rfl⟩ := sound.pipeline.entry mem
  refine sound.driver.frame rfl (fun _ => Iff.rfl) ⟨rfl, fun _ _ => rfl, rfl, fun i => ?_⟩
  change ((s.disk.writeStatus (.status c.head)).info i).b = _
  simp only [Disk.writeStatus, update_apply]
  split
  next mine => rw [mine]
  · rfl

theorem Sound.append (mem : h ∈ s.done) (free : s.posted = none) : Sound (s.append h) q :=
  ⟨sound.driver.frame rfl (fun _ => Iff.rfl) ⟨rfl, fun _ _ => rfl, rfl, fun _ => rfl⟩,
    sound.pipeline.append mem free,
    sound.numbers.keep (fun _ => rfl) rfl rfl rfl rfl (fun _ _ isWaiting => ⟨isWaiting, rfl⟩)
      fun _ _ isWaiting => .inl isWaiting,
    sound.panic⟩

theorem Sound.report (posted : s.posted = some h) :
    Sound s.report { q with used := q.used ++ [h] } :=
  ⟨sound.driver.frame rfl (fun _ => Iff.rfl) ⟨rfl, fun _ _ => rfl, rfl, fun _ => rfl⟩,
    sound.pipeline.report posted,
    sound.numbers.keep (fun _ => rfl) rfl rfl rfl rfl (fun _ _ isWaiting => ⟨isWaiting, rfl⟩)
      fun _ _ isWaiting => .inl isWaiting,
    sound.panic⟩

/-! ## Runs -/

theorem Sound.step [DecidableEq β] {event : Event β m}
    (step : Step s event t) : Sound t (q.after s event) := by
  unfold Step next at step
  rw [if_neg (by simp [sound.panic])] at step
  cases event with
  | call p request =>
    cases here : s.place p <;> simp only [here, reduceCtorEq] at step
    split at step
    next alone =>
      cases step
      exact sound.call here alone
    · cases step
  | step p => exact sound.advance step
  | intr =>
    simp only at step
    split at step
    next free =>
      cases step
      simp only [Queues.after, free, reduceCtorEq, if_false]
      exact sound.relock (by simp [free]) (by simp)
    next held =>
      cases step
      simp only [Queues.after, held, if_true]
      exact sound.intr held
    · cases step
  | take =>
    simp only [Option.ite_none_left_eq_some, Option.some.injEq] at step
    obtain ⟨some, rfl⟩ := step
    exact sound.take some
  | finish head =>
    simp only at step
    split at step
    · cases step
    next h f found =>
      cases step
      have same : h = head := by simpa using List.find?_some found
      subst same
      exact sound.finish (List.mem_of_find?_eq_some found)
  | append head =>
    simp only [Option.ite_none_right_eq_some, Option.some.injEq] at step
    obtain ⟨⟨mem, free⟩, rfl⟩ := step
    exact sound.append mem free
  | report =>
    simp only at step
    split at step
    · cases step
    next h posted =>
      cases step
      simp only [Queues.after, posted]
      exact sound.report posted

end

theorem Sound.initial : Sound (initial β m) ⟨[], []⟩ where
  driver := .initial
  pipeline :=
    ⟨Ring.holds_nil _ _, Ring.holds_nil _ _, nofun, nofun, fun _ => Nat.zero_le _, nofun, nofun,
    nofun, nofun, nofun⟩
  numbers := ⟨nofun, nofun, fun _ _ => ⟨rfl, rfl⟩, nofun, nofun, nofun, nofun⟩
  panic := rfl

theorem Sound.run [DecidableEq β] {events : List (Event β m)}
    (run : Run Step (Virtio.initial β m) events s) : ∃ q, Sound s q := by
  refine run.invariant (fun s : State β m => ∃ q, Sound s q) ?_ ⟨_, .initial⟩
  rintro s event t ⟨q, sound⟩ step
  exact ⟨_, sound.step step⟩

/-- What the driver and the device rely on. -/
structure Served [DecidableEq β] (s : State β m) (q : Queues) : Prop where
  -- the descriptors in use are those of the calls that sleep
  free : s.lock = none → ∀ i, s.disk.free i = false ↔ ∃ p c, s.place p = .sleep c ∧ c.Has i
  disjoint : ∀ p r c d i, s.place p = .sleep c → s.place r = .sleep d → c.Has i → d.Has i → p = r
  -- a call has three descriptors, for its own header, data and status
  chained : ∀ p c, s.place p = .sleep c → c.Apart ∧ Formatted s.disk c
  avail : s.disk.avail.Holds q.avail
  used : s.disk.used.Holds q.used
  once : ∀ h, s.flight q.avail q.used h ≤ 1 -- a request is once on its way
  -- a call returns after the device has done its request and the driver has seen it
  returned : ∀ p c t, s.place p = .wait c → Step s (.step p) t → t.place p = .out →
    s.log (s.number c.head) = [c.fetched] ∧ s.seen (s.number c.head) = 1
  -- a request whose call is over has been done once and seen once
  past : ∀ k < s.issued, (∃ p c, (s.place p).waits = some c ∧ s.number c.head = k) ∨
    (s.log k).length = 1 ∧ s.seen k = 1
  panic : s.panic = none

/-- With `vdisk_lock` free, the calls that have descriptors sleep. -/
theorem Driver.asleep (driver : Driver s) (free : s.lock = none)
    (has : (s.place p).chain = some c) : s.place p = .sleep c := by
  have idle : (s.place p).holds = false := by
    have := driver.lock p
    rw [free] at this
    simpa using this
  cases here : s.place p <;> rw [here] at has idle <;> cases has <;> cases idle
  rfl

/-- A call returns when its buffer is not the disk's any more. -/
theorem idle_of_return [DecidableEq β] (here : s.place p = .wait c)
    (step : Step s (.step p) t) (out : t.place p = .out) : s.disk.busy c.request.b = false := by
  by_contra busy
  unfold Step next at step
  split at step
  · cases step
  · simp only [advance, here, if_pos (Bool.eq_true_of_not_eq_false busy)] at step
    cases step
    rw [place_goto, if_pos rfl] at out
    cases out

theorem Sound.served [DecidableEq β] (sound : Sound s q) : Served s q where
  free := by
    intro unlocked i
    rw [sound.driver.free i]
    constructor
    · rintro ⟨p, c, has, mine⟩
      exact ⟨p, c, sound.driver.asleep unlocked has, mine⟩
    · rintro ⟨p, c, here, mine⟩
      exact ⟨p, c, by rw [here]; rfl, mine⟩
  disjoint := fun p r c d i first second =>
    sound.driver.disjoint p r c d i (by rw [first]; rfl) (by rw [second]; rfl)
  chained := fun p c here =>
    ⟨sound.driver.apart p c (by rw [here]; rfl), sound.driver.ready p c (by rw [here]; rfl)⟩
  avail := sound.pipeline.avail
  used := sound.pipeline.used
  once := sound.pipeline.once
  returned := by
    intro p c t here step out
    have waits : (s.place p).waits = some c := by rw [here]; rfl
    have idle := idle_of_return here step out
    have none := sound.pipeline.idle sound.driver waits idle
    refine ⟨sound.numbers.behind p c waits ?_, ?_⟩
    · simp only [flight] at none
      omega
    · rw [sound.numbers.seen p c waits, idle]
      rfl
  past := sound.numbers.past
  panic := sound.panic

/-- In every reachable state the requests are served (`Served`), and every event after it keeps
the rings the queues that `Queues.after` says. -/
theorem requests_served [DecidableEq β] {events : List (Event β m)}
    (run : Run Step (initial β m) events s) :
    ∃ q, Served s q ∧ ∀ event t, Step s event t → Served t (q.after s event) := by
  obtain ⟨q, sound⟩ := Sound.run run
  exact ⟨q, sound.served, fun event t step => (sound.step step).served⟩

/-- Two processes write blocks 7 and 8. The device finishes the second first, and its call
returns. -/
def secondFirst : List (Event Nat 2) :=
  [.call 0 ⟨40, 7, true⟩, .step 0, .step 0, .step 0, .step 0, .step 0, .step 0,
   .call 1 ⟨41, 8, true⟩, .step 1, .step 1, .step 1, .step 1, .take, .step 1, .step 1,
   .take, .finish 3, .append 3, .report, .intr, .intr, .intr, .step 1, .step 1]

theorem requests_served_secondFirst :
    ∃ s, Run Step (initial Nat 2) secondFirst s ∧ s.place 1 = .out ∧
      s.place 0 = .sleep ⟨⟨40, 7, true⟩, 0, 1, 2⟩ ∧
      ∃ q, Served s q ∧ ∀ event t, Step s event t → Served t (q.after s event) := by
  have executed : secondFirst.foldlM next (initial Nat 2) = some _ := rfl
  have run := Run.of_execute executed
  exact ⟨_, run, rfl, rfl, requests_served run⟩

end Xv6.Virtio
