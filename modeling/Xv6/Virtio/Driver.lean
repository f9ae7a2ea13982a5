import Xv6.Virtio.Chains

/-!
# The driver's side

What the driver knows without looking at the device: who holds `vdisk_lock`, that the
descriptors that are not free are those of the calls, three for each, and that the chain
of a call has its own header, data and status from `format` on.
-/

namespace Xv6.Virtio

open Function State Place

variable {β : Type} {m : Nat} {s t : State β m} {p : Fin m} {new : Place β} {c : Chain β}

namespace Place

/-- The process holds `vdisk_lock`. -/
def holds : Place β → Bool
  | .alloc _ | .format _ | .post _ | .publish _ | .wait _ => true
  | _ => false

/-- The descriptors of the call. -/
def chain : Place β → Option (Chain β)
  | .format chain | .post chain | .publish chain | .wait chain | .sleep chain => some chain
  | _ => none

/-- The same, once they are filled in. -/
def ready : Place β → Option (Chain β)
  | .post chain | .publish chain | .wait chain | .sleep chain => some chain
  | _ => none

/-- The same, once the device can see them. -/
def waits : Place β → Option (Chain β)
  | .wait chain | .sleep chain => some chain
  | _ => none

variable {place : Place β}

theorem chain_of_ready {chain : Chain β} (ready : place.ready = some chain) :
    place.chain = some chain := by
  cases place <;> first | exact ready | cases ready

theorem ready_of_waits {chain : Chain β} (waits : place.waits = some chain) :
    place.ready = some chain := by
  cases place <;> first | exact waits | cases waits

theorem buffer_of_chain {chain : Chain β} (has : place.chain = some chain) :
    place.buffer = some chain.request.b := by
  cases place <;> cases has <;> rfl

end Place

structure Driver (s : State β m) : Prop where
  lock : ∀ p, s.lock = some (.proc p) ↔ (s.place p).holds = true
  apart : ∀ p c, (s.place p).chain = some c → c.Apart
  disjoint : ∀ p q c d i, (s.place p).chain = some c → (s.place q).chain = some d →
    c.Has i → d.Has i → p = q
  free : ∀ i, s.disk.free i = false ↔ ∃ p c, (s.place p).chain = some c ∧ c.Has i
  buffers : ∀ p q b, (s.place p).buffer = some b → (s.place q).buffer = some b → p = q
  ready : ∀ p c, (s.place p).ready = some c → Formatted s.disk c

theorem place_goto (s : State β m) (p q : Fin m) (new : Place β) :
    (s.goto p new).place q = if q = p then new else s.place q :=
  update_apply ..

theorem Driver.lock_acquire (driver : Driver s) (free : s.lock = none)
    (holds : new.holds = true) (q : Fin m) :
    some (Holder.proc p) = some (.proc q) ↔ ((s.goto p new).place q).holds = true := by
  have old := driver.lock q
  rw [free] at old
  rw [place_goto]
  split
  next same => simp [same, holds]
  next other =>
    rw [← old]
    simp [Ne.symm other]

theorem Driver.lock_release (driver : Driver s)
    (before : (s.place p).holds = true) (holds : new.holds = false) (q : Fin m) :
    (none : Option (Holder m)) = some (.proc q) ↔ ((s.goto p new).place q).holds = true := by
  have held := (driver.lock p).mpr before
  have old := driver.lock q
  rw [held] at old
  rw [place_goto]
  split
  · simp [holds]
  next other =>
    rw [← old]
    simp [Ne.symm other]

theorem Driver.lock_keep (driver : Driver s) (holds : new.holds = (s.place p).holds) (q : Fin m) :
    s.lock = some (.proc q) ↔ ((s.goto p new).place q).holds = true := by
  rw [place_goto, driver.lock]
  split
  next same => rw [same, holds]
  · rfl

/-- What the driver's side reads of the disk. -/
structure SameChains (disk disk' : Disk β) : Prop where
  free : disk'.free = disk.free
  desc : ∀ i, disk.free i = false → disk'.desc i = disk.desc i
  ops : disk'.ops = disk.ops
  info : ∀ i, (disk'.info i).b = (disk.info i).b

theorem SameChains.refl (disk : Disk β) : SameChains disk disk :=
    ⟨rfl, fun _ _ => rfl, rfl, fun _ => rfl⟩

theorem Formatted.congr {disk disk' : Disk β} (formatted : Formatted disk c)
    (desc : ∀ i, c.Has i → disk'.desc i = disk.desc i) (ops : disk'.ops c.head = disk.ops c.head)
    (info : (disk'.info c.head).b = (disk.info c.head).b) : Formatted disk' c where
  op := ops.trans formatted.op
  head := (desc _ (.inl rfl)).trans formatted.head
  data := (desc _ (.inr (.inl rfl))).trans formatted.data
  status := (desc _ (.inr (.inr rfl))).trans formatted.status
  buffer := info.trans formatted.buffer

section

variable (driver : Driver s) {request : Request β}
include driver

theorem Driver.used (has : (s.place p).chain = some c)
    (i : Fin NUM) (mine : c.Has i) : s.disk.free i = false :=
  (driver.free i).mpr ⟨p, c, has, mine⟩

theorem Driver.frame (place : t.place = s.place)
    (lock : ∀ q, t.lock = some (.proc q) ↔ s.lock = some (.proc q))
    (same : SameChains s.disk t.disk) : Driver t where
  lock := by
    intro q
    rw [lock, place]
    exact driver.lock q
  apart := by rw [place]; exact driver.apart
  disjoint := by rw [place]; exact driver.disjoint
  free := by rw [place, same.free]; exact driver.free
  buffers := by rw [place]; exact driver.buffers
  ready := by
    intro q c ready
    rw [place] at ready
    refine (driver.ready q c ready).congr (fun i mine => ?_) (by rw [same.ops]) (same.info _)
    exact same.desc i (driver.used (chain_of_ready ready) i mine)

/-- One process moves on with its call, and the disk changes where no chain is. -/
theorem Driver.move (place : t.place = update s.place p new)
    (lock : ∀ q, t.lock = some (.proc q) ↔ ((s.goto p new).place q).holds = true)
    (same : SameChains s.disk t.disk) (chain : new.chain = (s.place p).chain)
    (buffer : new.buffer = (s.place p).buffer)
    (ready : ∀ c, new.ready = some c → (s.place p).ready = some c) : Driver t := by
  have places : ∀ q, t.place q = if q = p then new else s.place q := by
    rw [place]
    exact fun q => update_apply ..
  have chains : ∀ q, (t.place q).chain = (s.place q).chain := by
    intro q
    rw [places]
    split
    next mine => rw [chain, mine]
    · rfl
  have buffers : ∀ q, (t.place q).buffer = (s.place q).buffer := by
    intro q
    rw [places]
    split
    next mine => rw [buffer, mine]
    · rfl
  refine ⟨fun q => ?_, ?_, ?_, ?_, ?_, fun q c isReady => ?_⟩
  · rw [lock, place]
    rfl
  · simpa only [chains] using driver.apart
  · simpa only [chains] using driver.disjoint
  · simpa only [chains, same.free] using driver.free
  · simpa only [buffers] using driver.buffers
  · have before : (s.place q).ready = some c := by
      rw [places] at isReady
      split at isReady
      next mine => rw [mine]; exact ready c isReady
      · exact isReady
    refine (driver.ready q c before).congr (fun i mine => ?_) (by rw [same.ops]) (same.info _)
    exact same.desc i (driver.used (chain_of_ready before) i mine)

theorem Driver.call (here : s.place p = .out)
    (alone : ∀ q, (s.place q).buffer ≠ some request.b) : Driver (s.goto p (.enter request)) := by
  have places := (place_goto s p · (.enter request))
  have chains : ∀ q, ((s.goto p (.enter request)).place q).chain = (s.place q).chain := by
    intro q
    rw [places]
    split
    next mine => rw [mine, here]; rfl
    · rfl
  refine ⟨driver.lock_keep (by rw [here]; rfl), ?_, ?_, ?_, fun q r b => ?_, fun q c isReady => ?_⟩
  · simpa only [chains] using driver.apart
  · simpa only [chains] using driver.disjoint
  · intro i
    simp only [chains]
    exact driver.free i
  · rw [places, places]
    split <;> split
    next first second => exact fun _ _ => first.trans second.symm
    next mine other =>
      rintro ⟨⟩ wrong
      exact absurd wrong (alone r)
    next other mine =>
      rintro wrong ⟨⟩
      exact absurd wrong (alone q)
    · exact driver.buffers q r b
  · rw [places] at isReady
    split at isReady
    · cases isReady
    · exact driver.ready q c isReady

theorem Driver.alloc {i j k : Fin NUM} (here : s.place p = .alloc request)
    (free : s.disk.free i = true ∧ s.disk.free j = true ∧ s.disk.free k = true)
    (apart : i ≠ j ∧ i ≠ k ∧ j ≠ k) :
    Driver ((s.setDisk { s.disk with
      free := fun x => if x = i ∨ x = j ∨ x = k then false else s.disk.free x }).goto p
        (.format ⟨request, i, j, k⟩)) := by
  generalize after : (s.setDisk { s.disk with
      free := fun x => if x = i ∨ x = j ∨ x = k then false else s.disk.free x }).goto p
        (.format ⟨request, i, j, k⟩) = t
  have places : ∀ q, t.place q = if q = p then .format ⟨request, i, j, k⟩ else s.place q := by
    rw [← after]
    exact fun q => place_goto ..
  have lock : t.lock = s.lock := by rw [← after]; rfl
  have frees : ∀ x, t.disk.free x = if x = i ∨ x = j ∨ x = k then false else s.disk.free x := by
    rw [← after]
    exact fun _ => rfl
  have chains : ∀ q, (t.place q).chain =
      if q = p then some ⟨request, i, j, k⟩ else (s.place q).chain := by
    intro q
    rw [places, apply_ite chain]
    rfl
  have none : (s.place p).chain = none := by rw [here]; rfl
  have new : ∀ q c x, (s.place q).chain = some c → c.Has x → ¬ (x = i ∨ x = j ∨ x = k) := by
    rintro q c x has mine (rfl | rfl | rfl)
    · rw [driver.used has x mine] at free
      exact absurd free.1 (by decide)
    · rw [driver.used has x mine] at free
      exact absurd free.2.1 (by decide)
    · rw [driver.used has x mine] at free
      exact absurd free.2.2 (by decide)
  refine ⟨fun q => ?_, fun q c has => ?_, fun q r c d x hasC hasD mineC mineD => ?_, fun x => ?_,
    fun q r b => ?_, fun q c isReady => ?_⟩
  · rw [lock, driver.lock, places]
    split
    next mine => rw [mine, here]; rfl
    · rfl
  · rw [chains] at has
    split at has
    · cases has
      exact ⟨apart.1, apart.2.1, apart.2.2⟩
    · exact driver.apart q c has
  · rw [chains] at hasC hasD
    split at hasC <;> split at hasD
    next first second => exact first.trans second.symm
    · cases hasC
      exact absurd mineC (new r d x hasD mineD)
    · cases hasD
      exact absurd mineD (new q c x hasC mineC)
    · exact driver.disjoint q r c d x hasC hasD mineC mineD
  · rw [frees]
    constructor
    · intro used
      split at used
      next mine => exact ⟨p, ⟨request, i, j, k⟩, by rw [chains, if_pos rfl], mine⟩
      · obtain ⟨q, c, has, mine⟩ := (driver.free x).mp used
        refine ⟨q, c, ?_, mine⟩
        rw [chains, if_neg]
        · exact has
        · rintro rfl
          rw [none] at has
          cases has
    · rintro ⟨q, c, has, mine⟩
      rw [chains] at has
      split at has
      · cases has
        exact if_pos mine
      · rw [if_neg (new q c x has mine)]
        exact driver.used has x mine
  · rw [places, places]
    have old := driver.buffers q r b
    split <;> split
    next first second => exact fun _ _ => first.trans second.symm
    next mine other =>
      rw [mine] at old
      rw [here] at old
      exact fun first second => mine.trans (old first second)
    next other mine =>
      rw [mine] at old
      rw [here] at old
      exact fun first second => (old first second).trans mine.symm
    · exact old
  · rw [places] at isReady
    split at isReady
    · cases isReady
    · rw [← after]
      exact (driver.ready q c isReady).congr (fun _ _ => rfl) rfl rfl

theorem Driver.format [DecidableEq β] {chain : Chain β} (here : s.place p = .format chain) :
    Driver ((s.setDisk (s.disk.format chain)).goto p (.post chain)) := by
  have has : (s.place p).chain = some chain := by rw [here]; rfl
  obtain ⟨hd, hs, ds⟩ := driver.apart p chain has
  have places := (place_goto (s.setDisk (s.disk.format chain)) p · (.post chain))
  have chains : ∀ q, (((s.setDisk (s.disk.format chain)).goto p (.post chain)).place q).chain =
      (s.place q).chain := by
    intro q
    rw [places]
    split
    next mine => rw [mine, here]; rfl
    · rfl
  have buffers : ∀ q, (((s.setDisk (s.disk.format chain)).goto p (.post chain)).place q).buffer =
      (s.place q).buffer := by
    intro q
    rw [places]
    split
    next mine => rw [mine, here]; rfl
    · rfl
  refine ⟨driver.lock_keep (by rw [here]; rfl), ?_, ?_, ?_, ?_, fun q c isReady => ?_⟩
  · simpa only [chains] using driver.apart
  · simpa only [chains] using driver.disjoint
  · intro i
    simp only [chains]
    exact driver.free i
  · simpa only [buffers] using driver.buffers
  · rw [places] at isReady
    split at isReady
    · cases isReady
      constructor
      · exact update_self ..
      · simp only [goto, setDisk, Disk.format]
        rw [update_of_ne hs, update_of_ne hd, update_self]
      · simp only [goto, setDisk, Disk.format]
        rw [update_of_ne ds, update_self]
      · simp only [goto, setDisk, Disk.format]
        rw [update_self]
      · simp only [goto, setDisk, Disk.format]
        rw [update_self]
    next other =>
      have isReady : (s.place q).ready = some c := isReady
      have apart : ∀ i, c.Has i → ¬ chain.Has i := fun i mine his =>
        other (driver.disjoint q p c chain i (chain_of_ready isReady) has mine his)
      refine (driver.ready q c isReady).congr (fun i mine => ?_) ?_ ?_
      · have not := apart i mine
        simp only [Chain.Has, not_or] at not
        simp only [goto, setDisk, Disk.format]
        rw [update_of_ne not.2.2, update_of_ne not.2.1, update_of_ne not.1]
      · have not : c.head ≠ chain.head := fun same => apart c.head (.inl rfl) (.inl same)
        exact update_of_ne not ..
      · have not : c.head ≠ chain.head := fun same => apart c.head (.inl rfl) (.inl same)
        simp only [goto, setDisk, Disk.format]
        rw [update_of_ne not]

theorem Driver.done {chain : Chain β} {desc : Fin NUM → Desc β}
    (here : s.place p = .wait chain) (kept : ∀ x, ¬ chain.Has x → desc x = s.disk.desc x) :
    Driver (((s.setDisk { s.disk with
      info := update s.disk.info chain.head { s.disk.info chain.head with b := none }
      desc := desc
      free := fun x =>
        if chain.Has x then true else s.disk.free x }).setLock none).goto p .out) := by
  have has : (s.place p).chain = some chain := by rw [here]; rfl
  generalize after : ((s.setDisk { s.disk with
      info := update s.disk.info chain.head { s.disk.info chain.head with b := none }
      desc := desc
      free := fun x => if chain.Has x then true else s.disk.free x }).setLock none).goto p .out = t
  have places : ∀ q, t.place q = if q = p then .out else s.place q := by
    rw [← after]
    exact fun q => place_goto ..
  have lock : t.lock = none := by rw [← after]; rfl
  have frees : ∀ x, t.disk.free x = if chain.Has x then true else s.disk.free x := by
    rw [← after]
    exact fun _ => rfl
  have chains : ∀ q, (t.place q).chain = if q = p then none else (s.place q).chain := by
    intro q
    rw [places, apply_ite Place.chain]
    rfl
  have other : ∀ q c x, q ≠ p → (s.place q).chain = some c → c.Has x → ¬ chain.Has x :=
    fun q c x apart hasC mine his => apart (driver.disjoint q p c chain x hasC has mine his)
  refine ⟨fun q => ?_, fun q c hasC => ?_, fun q r c d x hasC hasD => ?_, fun x => ?_,
    fun q r b => ?_, fun q c isReady => ?_⟩
  · have released := driver.lock_release (p := p) (by rw [here]; rfl)
      (rfl : (Place.out : Place β).holds = false) q
    rw [place_goto] at released
    rw [lock, places]
    exact released
  · rw [chains] at hasC
    split at hasC
    · cases hasC
    · exact driver.apart q c hasC
  · rw [chains] at hasC hasD
    split at hasC
    · cases hasC
    · split at hasD
      · cases hasD
      · exact driver.disjoint q r c d x hasC hasD
  · rw [frees]
    constructor
    · intro used
      split at used
      · cases used
      next not =>
        obtain ⟨q, c, hasC, mine⟩ := (driver.free x).mp used
        refine ⟨q, c, ?_, mine⟩
        rw [chains, if_neg]
        · exact hasC
        · rintro rfl
          rw [has] at hasC
          cases hasC
          exact not mine
    · rintro ⟨q, c, hasC, mine⟩
      rw [chains] at hasC
      split at hasC
      · cases hasC
      next apart =>
        rw [if_neg (other q c x apart hasC mine)]
        exact driver.used hasC x mine
  · rw [places, places]
    split
    · nofun
    · split
      · nofun
      · exact driver.buffers q r b
  · rw [places] at isReady
    split at isReady
    · cases isReady
    next apart =>
      have hasC := chain_of_ready isReady
      rw [← after]
      refine (driver.ready q c isReady).congr (fun i mine => ?_) rfl ?_
      · exact kept i (other q c i apart hasC mine)
      · have not : c.head ≠ chain.head := fun same =>
          other q c c.head apart hasC (.inl rfl) (.inl same)
        simp only [goto, setDisk, setLock]
        rw [update_of_ne not]

end

theorem Driver.initial : Driver (Virtio.initial β m) where
  lock := fun _ => ⟨nofun, nofun⟩
  apart := nofun
  disjoint := nofun
  free := fun _ => ⟨nofun, nofun⟩
  buffers := nofun
  ready := nofun

end Xv6.Virtio
