import Xv6.Virtio.Driver
import Mathlib.Data.Fintype.Card

/-!
# The requests on their way

A request that the device can see is in one place: in the available ring, at the device,
finished there, about to be reported, or in the used ring. The two rings are those of
`Xv6.Lib.Ring`. They have room for every request, since a request is on its way once and
has its own first descriptor.
-/

namespace Xv6.Virtio

open Function State

variable {β : Type} {m : Nat} {s t : State β m} {p : Fin m} {av us av' us' : List (Fin NUM)}
  {q : Fin m}

/-- The first descriptors of the requests that the device works on. -/
def State.taken (s : State β m) : List (Fin NUM) := s.device.map Prod.fst

/-- The first descriptors of requests that the device has not finished. -/
def State.ahead (s : State β m) (av : List (Fin NUM)) (h : Fin NUM) : Nat :=
  av.count h + s.taken.count h

/-- How often a first descriptor is on its way, if `av` and `us` are in the rings. -/
def State.flight (s : State β m) (av us : List (Fin NUM)) (h : Fin NUM) : Nat :=
  s.ahead av h + s.done.count h + s.posted.toList.count h + us.count h

structure Pipeline (s : State β m) (av us : List (Fin NUM)) : Prop where
  avail : s.disk.avail.Holds av
  used : s.disk.used.Holds us
  written : ∀ p c, s.place p = .publish c →
    s.disk.avail.data (Ring.slot s.disk.avail.nwrite) = c.head
  posted : ∀ h, s.posted = some h → s.disk.used.data (Ring.slot s.disk.used.nwrite) = h
  once : ∀ h, s.flight av us h ≤ 1
  owned : ∀ h, 0 < s.flight av us h →
    ∃ p c, (s.place p).waits = some c ∧ c.head = h ∧ s.disk.busy c.request.b = true
  busy : ∀ p c, (s.place p).waits = some c → s.disk.busy c.request.b = true →
    0 < s.flight av us c.head
  unseen : ∀ p c, s.place p = .post c ∨ s.place p = .publish c → s.disk.busy c.request.b = true
  fetched : ∀ e ∈ s.device, ∀ p c, (s.place p).waits = some c → c.head = e.1 → e.2 = c.fetched
  status : ∀ h, 0 < s.done.count h + s.posted.toList.count h + us.count h →
    (s.disk.info h).status = 0

/-- The numbers of the requests, and what the device has done for them. -/
structure Numbers (s : State β m) (av : List (Fin NUM)) : Prop where
  bound : ∀ p c, (s.place p).waits = some c → s.number c.head < s.issued
  distinct : ∀ p q c d, (s.place p).waits = some c → (s.place q).waits = some d →
    s.number c.head = s.number d.head → p = q
  later : ∀ k, s.issued ≤ k → s.log k = [] ∧ s.seen k = 0
  ahead : ∀ p c, (s.place p).waits = some c → 0 < s.ahead av c.head → s.log (s.number c.head) = []
  behind : ∀ p c, (s.place p).waits = some c → s.ahead av c.head = 0 →
    s.log (s.number c.head) = [c.fetched]
  seen : ∀ p c, (s.place p).waits = some c →
    s.seen (s.number c.head) = if s.disk.busy c.request.b then 0 else 1
  past : ∀ k < s.issued, (∃ p c, (s.place p).waits = some c ∧ s.number c.head = k) ∨
    (s.log k).length = 1 ∧ s.seen k = 1

theorem NUM_dvd : NUM ∣ 2 ^ 16 := by decide

theorem NUM_lt : NUM < 2 ^ 16 := by decide

/-- A list of descriptors without repetitions that misses one has room for it. -/
theorem room_of_count {l : List (Fin NUM)} {h : Fin NUM} (once : ∀ i, l.count i ≤ 1)
    (missing : l.count h = 0) : l.length < NUM := by
  have nodup : (h :: l).Nodup := by
    rw [List.nodup_cons]
    exact ⟨List.count_eq_zero.mp missing, List.nodup_iff_count_le_one.mpr once⟩
  have bound := nodup.length_le_card
  rw [List.length_cons, Fintype.card_fin] at bound
  exact bound

theorem Driver.owner (driver : Driver s) {c d : Chain β}
    (first : (s.place p).chain = some c) (second : (s.place q).chain = some d)
    (same : c.head = d.head) : p = q :=
  driver.disjoint p q c d c.head first second (.inl rfl) (.inl same)

theorem Place.chain_of_waits {place : Place β} {c : Chain β} (waits : place.waits = some c) :
    place.chain = some c :=
  chain_of_ready (ready_of_waits waits)

section

variable (pipeline : Pipeline s av us)
include pipeline

/-- A call whose descriptors the device cannot see yet is not on its way. -/
theorem Pipeline.flight_zero (driver : Driver s) {c : Chain β}
    (has : (s.place p).chain = some c) (hidden : (s.place p).waits = none) :
    s.flight av us c.head = 0 := by
  by_contra some
  obtain ⟨q, d, waits, same, -⟩ := pipeline.owned c.head (Nat.pos_of_ne_zero some)
  have mine := driver.owner (Place.chain_of_waits waits) has same
  rw [mine, hidden] at waits
  cases waits

/-- A request that `virtio_disk_intr` has seen is not on its way. -/
theorem Pipeline.idle (driver : Driver s) {c : Chain β}
    (waits : (s.place p).waits = some c) (idle : s.disk.busy c.request.b = false) :
    s.flight av us c.head = 0 := by
  by_contra some
  obtain ⟨q, d, others, same, busy⟩ := pipeline.owned c.head (Nat.pos_of_ne_zero some)
  have mine := driver.owner (Place.chain_of_waits others) (Place.chain_of_waits waits) same
  rw [mine, waits] at others
  cases others
  rw [idle] at busy
  cases busy

theorem Pipeline.keep (avail : t.disk.avail.Holds av') (used : t.disk.used.Holds us')
    (flight : ∀ h, t.flight av' us' h = s.flight av us h)
    (before : ∀ p c, (t.place p).waits = some c → (s.place p).waits = some c ∧
      t.disk.busy c.request.b = s.disk.busy c.request.b)
    (after : ∀ p c, (s.place p).waits = some c → s.disk.busy c.request.b = true →
      (t.place p).waits = some c)
    (written : ∀ p c, t.place p = .publish c →
      t.disk.avail.data (Ring.slot t.disk.avail.nwrite) = c.head)
    (posted : ∀ h, t.posted = some h → t.disk.used.data (Ring.slot t.disk.used.nwrite) = h)
    (unseen : ∀ p c, t.place p = .post c ∨ t.place p = .publish c → t.disk.busy c.request.b = true)
    (fetched : ∀ e ∈ t.device, ∀ p c, (s.place p).waits = some c → c.head = e.1 → e.2 = c.fetched)
    (status : ∀ h, 0 < t.done.count h + t.posted.toList.count h + us'.count h →
      (t.disk.info h).status = 0) : Pipeline t av' us' := by
  refine ⟨avail, used, written, posted, ?_, fun h some => ?_, fun p c waits busy => ?_, unseen,
    fun e mem p c waits => fetched e mem p c (before p c waits).1, status⟩
  · simpa only [flight] using pipeline.once
  · rw [flight] at some
    obtain ⟨p, c, waits, same, busy⟩ := pipeline.owned h some
    have still := after p c waits busy
    exact ⟨p, c, still, same, (before p c still).2.trans busy⟩
  · obtain ⟨old, same⟩ := before p c waits
    rw [flight]
    exact pipeline.busy p c old (same.symm.trans busy)

theorem Pipeline.driver (avail : t.disk.avail = s.disk.avail)
    (used : t.disk.used = s.disk.used) (device : t.device = s.device) (done : t.done = s.done)
    (posted : t.posted = s.posted)
    (before : ∀ p c, (t.place p).waits = some c → (s.place p).waits = some c ∧
      t.disk.busy c.request.b = s.disk.busy c.request.b)
    (after : ∀ p c, (s.place p).waits = some c → s.disk.busy c.request.b = true →
      (t.place p).waits = some c)
    (written : ∀ p c, t.place p = .publish c → s.place p = .publish c)
    (unseen : ∀ p c, t.place p = .post c ∨ t.place p = .publish c → t.disk.busy c.request.b = true)
    (status : ∀ h, 0 < s.flight av us h → (t.disk.info h).status = (s.disk.info h).status) :
    Pipeline t av us := by
  refine pipeline.keep ?_ ?_ (fun h => ?_) before after (fun p c here => ?_) ?_ unseen ?_
    fun h late => ?_
  · rw [avail]; exact pipeline.avail
  · rw [used]; exact pipeline.used
  · simp only [flight, ahead, taken, device, done, posted]
  · rw [avail]
    exact pipeline.written p c (written p c here)
  · rw [posted, used]; exact pipeline.posted
  · rw [device]; exact pipeline.fetched
  · rw [done, posted] at late
    rw [status h (by simp only [flight]; omega)]
    exact pipeline.status h late

omit pipeline in
/-- A step that neither issues nor finishes a request, and that `virtio_disk_intr` does not
take. -/
theorem Numbers.keep (numbers : Numbers s av) (ahead : ∀ h, t.ahead av' h = s.ahead av h)
    (number : t.number = s.number) (issued : t.issued = s.issued) (log : t.log = s.log)
    (seen : t.seen = s.seen)
    (before : ∀ p c, (t.place p).waits = some c → (s.place p).waits = some c ∧
      t.disk.busy c.request.b = s.disk.busy c.request.b)
    (after : ∀ p c, (s.place p).waits = some c → (t.place p).waits = some c ∨
      s.ahead av c.head = 0 ∧ s.disk.busy c.request.b = false) : Numbers t av' := by
  constructor
  · intro p c waits
    rw [number, issued]
    exact numbers.bound p c (before p c waits).1
  · intro p q c d first second
    rw [number]
    exact numbers.distinct p q c d (before p c first).1 (before q d second).1
  · rw [issued, log, seen]; exact numbers.later
  · intro p c waits
    rw [ahead, log, number]
    exact numbers.ahead p c (before p c waits).1
  · intro p c waits
    rw [ahead, log, number]
    exact numbers.behind p c (before p c waits).1
  · intro p c waits
    obtain ⟨old, busy⟩ := before p c waits
    rw [seen, number, busy]
    exact numbers.seen p c old
  · intro k old
    rw [issued] at old
    rw [number, log, seen]
    rcases numbers.past k old with ⟨p, c, waits, rfl⟩ | past
    · rcases after p c waits with still | ⟨finished, idle⟩
      · exact .inl ⟨p, c, still, rfl⟩
      · refine .inr ⟨by rw [numbers.behind p c waits finished]; rfl, ?_⟩
        rw [numbers.seen p c waits, idle]
        rfl
    · exact .inr past

theorem Pipeline.post (driver : Driver s) {c : Chain β} (here : s.place p = .post c) :
    Pipeline (s.post p c) av us := by
  have zero := pipeline.flight_zero driver (p := p) (c := c) (by rw [here]; rfl) (by rw [here]; rfl)
  have room : av.length < NUM := by
    refine room_of_count (h := c.head) (fun i => ?_) ?_
    · have := pipeline.once i
      simp only [State.flight, ahead] at this
      omega
    · simp only [State.flight, ahead] at zero
      omega
  generalize after : s.post p c = t
  have places : ∀ q, t.place q = if q = p then .publish c else s.place q := by
    rw [← after]
    exact fun q => place_goto ..
  have waits : ∀ q, (t.place q).waits = (s.place q).waits := by
    intro q
    rw [places]
    split
    next mine => rw [mine, here]; rfl
    · rfl
  have flight : ∀ h, t.flight av us h = s.flight av us h := by
    rw [← after]
    exact fun _ => rfl
  have disk : t.disk = { s.disk with avail := { s.disk.avail with
      data := update s.disk.avail.data (Ring.slot s.disk.avail.nwrite) c.head } } := by
    rw [← after]
    rfl
  have posted : t.posted = s.posted := by rw [← after]; rfl
  have done : t.done = s.done := by rw [← after]; rfl
  have device : t.device = s.device := by rw [← after]; rfl
  clear after
  constructor
  · rw [disk]
    exact pipeline.avail.write NUM_dvd room c.head
  · rw [disk]; exact pipeline.used
  · intro q d there
    rw [places] at there
    rw [disk]
    split at there
    · cases there
      exact update_self ..
    next other =>
      have mine := (driver.lock p).mpr (by rw [here]; rfl)
      have others := (driver.lock q).mpr (by rw [there]; rfl)
      rw [mine] at others
      cases others
      exact absurd rfl other
  · rw [posted, disk]; exact pipeline.posted
  · simpa only [flight] using pipeline.once
  · rw [disk]; simpa only [flight, waits] using pipeline.owned
  · rw [disk]; simpa only [flight, waits] using pipeline.busy
  · intro q d there
    rw [places] at there
    rw [disk]
    split at there
    · rcases there with wrong | same
      · cases wrong
      · cases same
        exact pipeline.unseen p c (.inl here)
    · exact pipeline.unseen q d there
  · rw [device]; simpa only [waits] using pipeline.fetched
  · rw [disk, done, posted]; exact pipeline.status

end

theorem Driver.alone (driver : Driver s) (first : (s.place p).holds = true)
    (second : (s.place q).holds = true) : p = q := by
  have mine := (driver.lock p).mpr first
  have others := (driver.lock q).mpr second
  rw [mine] at others
  cases others
  rfl

section Publish

variable {c : Chain β}

theorem waits_publish (s : State β m) (p q : Fin m) (c : Chain β) :
    ((s.publish p c).place q).waits = if q = p then some c else (s.place q).waits := by
  rw [publish, place_goto, apply_ite Place.waits]
  rfl

theorem ahead_publish (s : State β m) (p : Fin m) (c : Chain β) (av : List (Fin NUM)) (h : Fin NUM)
    : (s.publish p c).ahead (av ++ [c.head]) h = s.ahead av h + if c.head = h then 1 else 0 := by
  simp only [ahead, List.count_append, List.count_singleton, beq_iff_eq]
  change _ + s.taken.count h = _
  omega

theorem Pipeline.publish (pipeline : Pipeline s av us) (driver : Driver s)
    (here : s.place p = .publish c) : Pipeline (s.publish p c) (av ++ [c.head]) us := by
  have zero := pipeline.flight_zero driver (p := p) (c := c) (by rw [here]; rfl) (by rw [here]; rfl)
  have room : av.length < NUM := by
    refine room_of_count (h := c.head) (fun i => ?_) ?_
    · have := pipeline.once i
      simp only [State.flight, State.ahead] at this
      omega
    · simp only [State.flight, State.ahead] at zero
      omega
  have flight : ∀ h, (s.publish p c).flight (av ++ [c.head]) us h =
      s.flight av us h + if c.head = h then 1 else 0 := by
    intro h
    have ahead := ahead_publish s p c av h
    simp only [State.flight, ahead]
    change _ + _ + s.done.count h + s.posted.toList.count h + _ = _
    omega
  have busy := pipeline.unseen p c (.inr here)
  have waits := waits_publish s p (c := c)
  constructor
  · exact pipeline.avail.publish NUM_dvd room (pipeline.written p c here)
  · exact pipeline.used
  · intro q d there
    rw [State.publish, place_goto] at there
    split at there
    · cases there
    next other =>
      exact absurd (driver.alone (by rw [there]; rfl) (by rw [here]; rfl)) other
  · exact pipeline.posted
  · intro h
    rw [flight]
    have := pipeline.once h
    split
    next same => rw [← same, zero]
    · exact this
  · intro h some
    rw [flight] at some
    split at some
    next same => exact ⟨p, c, by rw [waits, if_pos rfl], same, busy⟩
    · obtain ⟨q, d, old, same, busy⟩ := pipeline.owned h some
      refine ⟨q, d, ?_, same, busy⟩
      rw [waits, if_neg]
      · exact old
      · rintro rfl
        rw [here] at old
        cases old
  · intro q d isWaiting isBusy
    rw [waits] at isWaiting
    rw [flight]
    split at isWaiting
    · cases isWaiting
      rw [if_pos rfl]
      omega
    · have := pipeline.busy q d isWaiting isBusy
      omega
  · intro q d there
    rw [State.publish, place_goto] at there
    split at there
    · rcases there with wrong | wrong <;> cases wrong
    · exact pipeline.unseen q d there
  · intro e mem q d isWaiting same
    rw [waits] at isWaiting
    split at isWaiting
    · cases isWaiting
      have inside : 0 < s.taken.count c.head :=
        List.count_pos_iff.mpr (same ▸ List.mem_map_of_mem mem)
      simp only [State.flight, State.ahead] at zero
      omega
    · exact pipeline.fetched e mem q d isWaiting same
  · exact pipeline.status

theorem Numbers.publish (numbers : Numbers s av) (pipeline : Pipeline s av us) (driver : Driver s)
    (here : s.place p = .publish c) : Numbers (s.publish p c) (av ++ [c.head]) := by
  have waits := waits_publish s p (c := c)
  have ahead := ahead_publish s p c av
  have number : ∀ h, (s.publish p c).number h = if h = c.head then s.issued else s.number h :=
    fun h => update_apply ..
  have apart : ∀ q d, q ≠ p → (s.place q).waits = some d → d.head ≠ c.head :=
    fun q d other isWaiting same => other
      (driver.owner (Place.chain_of_waits isWaiting) (by rw [here]; rfl) same)
  have fresh := numbers.later s.issued (Nat.le_refl _)
  constructor
  · intro q d isWaiting
    rw [waits] at isWaiting
    rw [number]
    change _ < s.issued + 1
    split at isWaiting
    · cases isWaiting
      rw [if_pos rfl]
      omega
    next other =>
      have := numbers.bound q d isWaiting
      rw [if_neg (apart q d other isWaiting)]
      omega
  · intro q r d e first second
    rw [waits] at first second
    rw [number, number]
    split at first <;> split at second
    next mine mine' => exact fun _ => mine.trans mine'.symm
    next mine other =>
      cases first
      have := numbers.bound r e second
      rw [if_pos rfl, if_neg (apart r e other second)]
      omega
    next other mine =>
      cases second
      have := numbers.bound q d first
      rw [if_pos rfl, if_neg (apart q d other first)]
      omega
    next other other' =>
      rw [if_neg (apart q d other first), if_neg (apart r e other' second)]
      exact numbers.distinct q r d e first second
  · intro k bound
    change s.log k = [] ∧ s.seen k = 0
    refine numbers.later k ?_
    have : s.issued + 1 ≤ k := bound
    omega
  · intro q d isWaiting some
    rw [waits] at isWaiting
    rw [number]
    split at isWaiting
    · cases isWaiting
      rw [if_pos rfl]
      exact fresh.1
    next other =>
      have not := apart q d other isWaiting
      rw [ahead, if_neg (Ne.symm not)] at some
      rw [if_neg not]
      exact numbers.ahead q d isWaiting some
  · intro q d isWaiting none
    rw [waits] at isWaiting
    rw [number]
    rw [ahead] at none
    split at isWaiting
    · cases isWaiting
      rw [if_pos rfl] at none
      omega
    next other =>
      have not := apart q d other isWaiting
      rw [if_neg not]
      exact numbers.behind q d isWaiting (by omega)
  · intro q d isWaiting
    rw [waits] at isWaiting
    rw [number]
    change s.seen _ = if s.disk.busy d.request.b then 0 else 1
    split at isWaiting
    · cases isWaiting
      rw [if_pos rfl, pipeline.unseen p c (.inr here)]
      exact fresh.2
    next other =>
      rw [if_neg (apart q d other isWaiting)]
      exact numbers.seen q d isWaiting
  · intro k old
    have old : k < s.issued + 1 := old
    by_cases new : k = s.issued
    · refine .inl ⟨p, c, by rw [waits, if_pos rfl], ?_⟩
      rw [number, if_pos rfl, new]
    · rcases numbers.past k (by omega) with ⟨q, d, isWaiting, same⟩ | past
      · have other : q ≠ p := by
          rintro rfl
          rw [here] at isWaiting
          cases isWaiting
        refine .inl ⟨q, d, by rw [waits, if_neg other]; exact isWaiting, ?_⟩
        rw [number, if_neg (apart q d other isWaiting)]
        exact same
      · exact .inr past

end Publish

section Intr

variable [DecidableEq β] {c : Chain β} {h : Fin NUM}

theorem Pipeline.see (pipeline : Pipeline s av (h :: us)) (driver : Driver s)
    (mine : (s.place p).waits = some c) (head : c.head = h) :
    Pipeline (s.see h c.request.b) av us := by
  have apart : ∀ q b, q ≠ p → (s.place q).buffer = some b → b ≠ c.request.b := by
    rintro q b other has rfl
    exact other (driver.buffers q p _ has (Place.buffer_of_chain (Place.chain_of_waits mine)))
  have busy : ∀ b, (s.see h c.request.b).disk.busy b =
      if b = c.request.b then false else s.disk.busy b := fun b => update_apply ..
  have flight : ∀ x, s.flight av (h :: us) x =
      (s.see h c.request.b).flight av us x + if h = x then 1 else 0 := by
    intro x
    simp only [State.flight, List.count_cons, beq_iff_eq]
    change _ = s.ahead av x + s.done.count x + s.posted.toList.count x + _ + _
    omega
  have notMine : ∀ q d, (s.place q).waits = some d → d.head ≠ h → d.request.b ≠ c.request.b := by
    intro q d isWaiting other
    refine apart q _ ?_ (Place.buffer_of_chain (Place.chain_of_waits isWaiting))
    rintro rfl
    rw [mine] at isWaiting
    cases isWaiting
    exact other head
  constructor
  · exact pipeline.avail
  · exact pipeline.used.pop.2
  · exact pipeline.written
  · exact pipeline.posted
  · intro x
    have := pipeline.once x
    rw [flight] at this
    omega
  · intro x some
    have once := pipeline.once x
    have total := flight x
    rw [total] at once
    have other : x ≠ h := by
      rintro rfl
      rw [if_pos rfl] at once
      omega
    obtain ⟨q, d, isWaiting, same, isBusy⟩ := pipeline.owned x (by omega)
    refine ⟨q, d, isWaiting, same, ?_⟩
    rw [busy, if_neg (notMine q d isWaiting (same ▸ other))]
    exact isBusy
  · intro q d isWaiting isBusy
    rw [busy] at isBusy
    split at isBusy
    · cases isBusy
    next other =>
      have some := pipeline.busy q d isWaiting isBusy
      rw [flight, if_neg] at some
      · exact some
      · intro same
        have := driver.owner (Place.chain_of_waits isWaiting) (Place.chain_of_waits mine)
          (same.symm.trans head.symm)
        subst this
        cases mine.symm.trans isWaiting
        exact other rfl
  · intro q d there
    have has : (s.place q).chain = some d := by
      rcases there with there | there <;>
        · rw [show s.place q = _ from there]
          rfl
    have other : q ≠ p := by
      rintro rfl
      rcases there with there | there <;>
        · rw [show s.place q = _ from there] at mine
          cases mine
    rw [busy, if_neg (apart q _ other (Place.buffer_of_chain has))]
    exact pipeline.unseen q d there
  · exact pipeline.fetched
  · intro x late
    refine pipeline.status x ?_
    rw [List.count_cons]
    change 0 < s.done.count x + s.posted.toList.count x + us.count x at late
    omega

theorem Numbers.see (numbers : Numbers s av) (driver : Driver s)
    (mine : (s.place p).waits = some c) (head : c.head = h) (isBusy : s.disk.busy c.request.b =
        true) : Numbers (s.see h c.request.b) av := by
  have busy : ∀ b, (s.see h c.request.b).disk.busy b =
      if b = c.request.b then false else s.disk.busy b := fun b => update_apply ..
  have seen : ∀ k, (s.see h c.request.b).seen k =
      if k = s.number h then s.seen (s.number h) + 1 else s.seen k := fun k =>
          update_apply ..
  have bound := numbers.bound p c mine
  have was := numbers.seen p c mine
  rw [isBusy, if_pos rfl, head] at was
  refine { numbers with later := fun k late => ?_, seen := fun q d isWaiting => ?_, past := fun k
      old => ?_ }
  · have late : s.issued ≤ k := late
    rw [seen, if_neg (by rw [head] at bound; omega)]
    exact numbers.later k late
  · change (s.see h c.request.b).seen (s.number d.head) = _
    rw [seen, busy]
    by_cases same : q = p
    · subst same
      cases mine.symm.trans isWaiting
      rw [head, if_pos rfl, if_pos rfl, was]
      rfl
    · have apart : s.number d.head ≠ s.number h := by
        rw [← head]
        exact fun equal => same (numbers.distinct q p d c isWaiting mine equal)
      have other : d.request.b ≠ c.request.b := by
        intro equal
        exact same (driver.buffers q p _ (Place.buffer_of_chain (Place.chain_of_waits isWaiting))
          (equal ▸ Place.buffer_of_chain (Place.chain_of_waits mine)))
      rw [if_neg apart, if_neg other]
      exact numbers.seen q d isWaiting
  · rcases numbers.past k old with waits | ⟨logged, past⟩
    · exact .inl waits
    · refine .inr ⟨logged, ?_⟩
      rw [seen, if_neg]
      · exact past
      · rintro rfl
        rw [was] at past
        cases past

end Intr

/-! ## The device -/

section Device

variable {h : Fin NUM} {f : Fetched β}

theorem ahead_take (s : State β m) (av : List (Fin NUM)) (h x : Fin NUM) :
    (s.take h).ahead av x = s.ahead (h :: av) x := by
  have taken : (s.take h).taken = s.taken ++ [h] := by simp [take, State.taken]
  rw [ahead, ahead, taken, List.count_append, List.count_singleton, List.count_cons]
  omega

theorem Pipeline.take (pipeline : Pipeline s (h :: av) us) (driver : Driver s) :
    Pipeline (s.take h) av us := by
  refine pipeline.keep pipeline.avail.pop.2 pipeline.used (fun x => ?_)
    (fun _ _ isWaiting => ⟨isWaiting, rfl⟩) (fun _ _ isWaiting _ => isWaiting) pipeline.written
    pipeline.posted pipeline.unseen ?_ pipeline.status
  · simp only [flight, ahead_take]
    rfl
  · intro e mem q d isWaiting same
    rcases List.mem_append.mp mem with old | new
    · exact pipeline.fetched e old q d isWaiting same
    · rw [List.mem_singleton] at new
      subst new
      change s.disk.fetch h = d.fetched
      rw [← show d.head = h from same]
      exact (driver.ready q d (Place.ready_of_waits isWaiting)).fetch

/-- The device works on requests that wait, as they were asked for. -/
theorem Pipeline.entry (pipeline : Pipeline s av us) (mem : (h, f) ∈ s.device) :
    s.taken.count h = 1 ∧ ∃ p c, (s.place p).waits = some c ∧ c.head = h ∧ f = c.fetched := by
  have inside : 0 < s.taken.count h := List.count_pos_iff.mpr (List.mem_map_of_mem mem)
  have once := pipeline.once h
  have some : 0 < s.flight av us h := by
    simp only [flight, ahead]
    omega
  obtain ⟨p, c, isWaiting, same, -⟩ := pipeline.owned h some
  refine ⟨?_, p, c, isWaiting, same, pipeline.fetched _ mem p c isWaiting same⟩
  simp only [flight, ahead] at once
  omega

theorem taken_finish (s : State β m) (h x : Fin NUM) (f : Fetched β) :
    (s.finish h f).taken.count x = if x = h then 0 else s.taken.count x := by
  have taken : (s.finish h f).taken = s.taken.filter (· ≠ h) := by
    simp only [finish, State.taken, List.filter_map]
    rfl
  rw [taken]
  split
  next same => simp [same, List.count_eq_zero]
  next other => rw [List.count_filter (by simpa using other)]

theorem Pipeline.finish (pipeline : Pipeline s av us) (mem : (h, f) ∈ s.device) :
    Pipeline (s.finish h f) av us := by
  obtain ⟨one, p, c, isWaiting, same, read⟩ := pipeline.entry mem
  have info : ∀ x, ((s.finish h f).disk.info x).status =
      if x = h then 0 else (s.disk.info x).status := by
    intro x
    subst read
    change ((s.disk.writeStatus (.status c.head)).info x).status = _
    simp only [Disk.writeStatus, same, update_apply]
    split <;> rfl
  have disk : (s.finish h f).disk.avail = s.disk.avail ∧ (s.finish h f).disk.used = s.disk.used ∧
      (s.finish h f).disk.busy = s.disk.busy := by
    subst read
    exact ⟨rfl, rfl, rfl⟩
  refine pipeline.keep (by rw [disk.1]; exact pipeline.avail) (by rw [disk.2.1]; exact
      pipeline.used)
    (fun x => ?_) (fun _ _ isWaiting => ⟨isWaiting, by rw [disk.2.2]⟩)
    (fun _ _ isWaiting _ => isWaiting) (by rw [disk.1]; exact pipeline.written)
    (by rw [disk.2.1]; exact pipeline.posted) (by rw [disk.2.2]; exact pipeline.unseen) ?_
    fun x late => ?_
  · simp only [flight, ahead, taken_finish]
    change _ + _ + (h :: s.done).count x + s.posted.toList.count x + _ = _
    simp only [List.count_cons, beq_iff_eq]
    split
    next eq => rw [if_pos eq.symm, eq]; omega
    next ne => rw [if_neg (Ne.symm ne)]; omega
  · exact fun e there => pipeline.fetched e (List.mem_of_mem_filter there)
  · rw [info]
    split
    · rfl
    next other =>
      refine pipeline.status x ?_
      change 0 < (h :: s.done).count x + s.posted.toList.count x + _ at late
      simp only [List.count_cons, beq_iff_eq, if_neg (Ne.symm other)] at late
      exact late

theorem Numbers.finish (numbers : Numbers s av) (pipeline : Pipeline s av us)
    (mem : (h, f) ∈ s.device) : Numbers (s.finish h f) av := by
  obtain ⟨one, p, c, mine, same, read⟩ := pipeline.entry mem
  have once := pipeline.once h
  have ahead : ∀ x, (s.finish h f).ahead av x = if x = h then 0 else s.ahead av x := by
    intro x
    simp only [State.ahead, taken_finish]
    split
    next eq =>
      rw [eq]
      simp only [flight, State.ahead] at once
      omega
    · rfl
  have log : ∀ k, (s.finish h f).log k =
      if k = s.number h then s.log (s.number h) ++ [f] else s.log k :=
    fun k => update_apply ..
  have bound := numbers.bound p c mine
  have busy : (s.finish h f).disk.busy = s.disk.busy := by
    subst read
    rfl
  have empty : s.log (s.number h) = [] := by
    rw [← same]
    refine numbers.ahead p c mine ?_
    rw [same, State.ahead]
    omega
  have apart : ∀ q d, (s.place q).waits = some d → d.head ≠ h → s.number d.head ≠ s.number h := by
    intro q d isWaiting other equal
    have := numbers.distinct q p d c isWaiting mine (same ▸ equal)
    subst this
    rw [mine] at isWaiting
    cases isWaiting
    exact other same
  refine ⟨numbers.bound, numbers.distinct, fun k late => ?_, fun q d isWaiting some => ?_,
    fun q d isWaiting none => ?_, ?_, fun k old => ?_⟩
  · have late : s.issued ≤ k := late
    rw [log, if_neg (by rw [same] at bound; omega)]
    exact numbers.later k late
  · rw [ahead] at some
    split at some
    · cases some
    next other =>
      change (s.finish h f).log (s.number d.head) = []
      rw [log, if_neg (apart q d isWaiting other)]
      exact numbers.ahead q d isWaiting some
  · rw [ahead] at none
    change (s.finish h f).log (s.number d.head) = [d.fetched]
    rw [log]
    by_cases eq : d.head = h
    · obtain rfl : d = c := by
        by_contra differ
        have := pipeline.fetched _ mem q d isWaiting eq
        have same' : c.head = d.head := same.trans eq.symm
        have : q = p := by
          by_contra other
          exact other (numbers.distinct q p d c isWaiting mine (by rw [same']))
        subst this
        cases mine.symm.trans isWaiting
        exact differ rfl
      rw [eq, if_pos rfl, empty, read]
      rfl
    · rw [if_neg eq] at none
      rw [if_neg (apart q d isWaiting eq)]
      exact numbers.behind q d isWaiting none
  · rw [busy]
    exact numbers.seen
  · rcases numbers.past k old with waits | ⟨logged, past⟩
    · exact .inl waits
    · refine .inr ⟨?_, past⟩
      rw [log, if_neg]
      · exact logged
      · rintro rfl
        rw [empty] at logged
        cases logged

theorem Pipeline.append (pipeline : Pipeline s av us) (mem : h ∈ s.done) (free : s.posted =
    none) : Pipeline (s.append h) av us := by
  have inside : 0 < s.done.count h := List.count_pos_iff.mpr mem
  have room : us.length < NUM := by
    refine room_of_count (h := h) (fun i => ?_) ?_
    · have := pipeline.once i
      simp only [flight] at this
      omega
    · have := pipeline.once h
      simp only [flight] at this
      omega
  have late : ∀ x, (s.append h).done.count x + (s.append h).posted.toList.count x =
      s.done.count x + s.posted.toList.count x := by
    intro x
    change (s.done.erase h).count x + [h].count x = _
    rw [free, List.count_erase, List.count_singleton]
    simp only [beq_iff_eq, Option.toList_none, List.count_nil]
    split
    next eq => rw [← eq]; omega
    · omega
  refine pipeline.keep pipeline.avail (pipeline.used.write NUM_dvd room h) (fun x => ?_)
    (fun _ _ isWaiting => ⟨isWaiting, rfl⟩) (fun _ _ isWaiting _ => isWaiting) pipeline.written
    ?_ pipeline.unseen pipeline.fetched fun x some => ?_
  · have := late x
    simp only [flight]
    change s.ahead av x + _ + _ + _ = _
    omega
  · rintro x ⟨⟩
    exact update_self ..
  · rw [late] at some
    exact pipeline.status x some

theorem Pipeline.report (pipeline : Pipeline s av us) (posted : s.posted = some h) :
    Pipeline s.report av (us ++ [h]) := by
  have room : us.length < NUM := by
    refine room_of_count (h := h) (fun i => ?_) ?_
    · have := pipeline.once i
      simp only [flight] at this
      omega
    · have := pipeline.once h
      simp only [flight, posted, Option.toList_some, List.count_singleton_self] at this
      omega
  have late : ∀ x, s.report.done.count x + s.report.posted.toList.count x + (us ++ [h]).count x =
      s.done.count x + s.posted.toList.count x + us.count x := by
    intro x
    rw [posted, List.count_append]
    change s.done.count x + 0 + _ = s.done.count x + [h].count x + _
    omega
  refine pipeline.keep pipeline.avail (pipeline.used.publish NUM_dvd room (pipeline.posted h
      posted))
    (fun x => ?_) (fun _ _ isWaiting => ⟨isWaiting, rfl⟩) (fun _ _ isWaiting _ => isWaiting)
    pipeline.written nofun pipeline.unseen pipeline.fetched fun x some => ?_
  · have := late x
    simp only [flight]
    change s.ahead av x + _ + _ + _ = _
    omega
  · rw [late] at some
    exact pipeline.status x some

end Device

end Xv6.Virtio
