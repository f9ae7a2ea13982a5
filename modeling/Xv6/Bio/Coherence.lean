import Mathlib.Algebra.Order.BigOperators.Group.Finset
import Xv6.Bio.System

/-!
# Coherence of the buffer cache

`Coherent` is what the cache, the disk and the holders of the buffers have to
do with one another. It says nothing of where the processes are in `commit`:
every statement of the system is made of a few operations on buffers, and each
of them keeps it.
-/

namespace Xv6.Bio

open Busy

open Function State Bcache

/-! ## References -/

/-- The buffer that an unfinished `bread` or `brelse` refers to. -/
def Busy.buffer : Busy → Option (Fin NBUF)
  | .no => none
  | .waiting i => some i
  | .locked i => some i
  | .releasing i => some i

/-- The references of a process to a buffer: one that `bread` has returned, and
one of the call it is in. -/
def Proc.refs (proc : Proc) (i : Fin NBUF) : Nat :=
  (if proc.owns i = none then 0 else 1) + (if proc.busy.buffer = some i then 1 else 0)

/-- The process has the sleep-lock of the buffer. -/
def Proc.Locks (proc : Proc) (i : Fin NBUF) : Prop :=
  proc.owns i ≠ none ∨ proc.busy = .locked i

variable {Pid : Type} [DecidableEq Pid]

namespace State

variable [Fintype Pid]

/-- The references of all processes to a buffer. -/
def users (s : State Pid) (i : Fin NBUF) : Nat := ∑ p, (s.procs p).refs i

theorem users_update (s t : State Pid) (p : Pid) (i : Fin NBUF)
    (others : ∀ q, q ≠ p → t.procs q = s.procs q) :
    t.users i + (s.procs p).refs i = s.users i + (t.procs p).refs i := by
  have same : ∑ q ∈ Finset.univ.erase p, (t.procs q).refs i =
      ∑ q ∈ Finset.univ.erase p, (s.procs q).refs i :=
    Finset.sum_congr rfl fun q mem => by rw [others q (Finset.ne_of_mem_erase mem)]
  unfold users
  rw [← Finset.add_sum_erase Finset.univ (fun q => (t.procs q).refs i) (Finset.mem_univ p),
    ← Finset.add_sum_erase Finset.univ (fun q => (s.procs q).refs i) (Finset.mem_univ p), same]
  omega

theorem refs_le_users (s : State Pid) (p : Pid) (i : Fin NBUF) : (s.procs p).refs i ≤ s.users i :=
  Finset.single_le_sum (f := fun q => (s.procs q).refs i) (fun _ _ => Nat.zero_le _)
    (Finset.mem_univ p)

end State

/-! ## The invariant -/

/-- The buffer caches a block of the log's device. -/
def State.Caches (s : State Pid) (i : Fin NBUF) (blockno : Nat) : Prop :=
  (s.cache.buf i).dev = s.log.dev ∧ (s.cache.buf i).blockno = blockno

instance (s : State Pid) (i : Fin NBUF) (blockno : Nat) : Decidable (s.Caches i blockno) :=
  inferInstanceAs (Decidable (_ ∧ _))

/-- One more reference for a buffer that the log pins. -/
def State.pins (s : State Pid) (i : Fin NBUF) : Nat :=
  if (s.cache.buf i).dev = s.log.dev ∧ (s.cache.buf i).blockno ∈ s.history.pinned then 1 else 0

structure Coherent [Fintype Pid] (s : State Pid) : Prop where
  listed : s.cache.Listed
  unique : ∀ i j, (s.cache.buf i).dev ≠ 0 → (s.cache.buf i).dev = (s.cache.buf j).dev →
    (s.cache.buf i).blockno = (s.cache.buf j).blockno → i = j
  counted : ∀ i, (s.cache.buf i).refcnt = s.users i + s.pins i
  locked : ∀ i p, (s.cache.buf i).lock = some p ↔ (s.procs p).Locks i
  -- `acquiresleep` has returned for a buffer that the process does not own yet
  apart : ∀ p i, (s.procs p).busy = .locked i → (s.procs p).owns i = none
  valid : ∀ p i, (s.procs p).owns i ≠ none → (s.cache.buf i).valid = true
  -- a buffer whose holder has no change to hand over has the data last stored
  fresh : ∀ i, (s.cache.buf i).valid = true → (s.cache.buf i).dev = s.log.dev →
    (∀ p, (s.procs p).owns i ≠ some true) →
    (s.cache.buf i).data = s.history.store s.log.dev (s.cache.buf i).blockno
  cached : ∀ blockno ∈ s.history.pinned, ∃ i, s.Caches i blockno ∧ (s.cache.buf i).valid = true
  distinct : s.history.pinned.Nodup
  -- only the blocks whose buffers are pinned differ from the disk
  home : ∀ blockno, blockno ∉ s.history.pinned → s.disk blockno = s.history.store s.log.dev blockno
  device : s.log.dev ≠ 0

/-! ## Steps at one buffer -/

section Local

variable [Fintype Pid] {s t : State Pid} {p : Pid} {i : Fin NBUF} {j : Fin NBUF} {q : Pid}

/-- Only the process `p` changes, in what it has to do with the buffer `i`, and of the buffers
only `i`, which keeps its block. -/
structure Local (s t : State Pid) (p : Pid) (i : Fin NBUF) : Prop where
  others : ∀ q, q ≠ p → t.procs q = s.procs q
  owns : ∀ j, j ≠ i → (t.procs p).owns j = (s.procs p).owns j
  busy : ∀ j, j ≠ i → ((t.procs p).busy.buffer = some j ↔ (s.procs p).busy.buffer = some j)
  locking : ∀ j, j ≠ i → ((t.procs p).busy = .locked j ↔ (s.procs p).busy = .locked j)
  bufs : ∀ j, j ≠ i → t.cache.buf j = s.cache.buf j
  dev : (t.cache.buf i).dev = (s.cache.buf i).dev
  blockno : (t.cache.buf i).blockno = (s.cache.buf i).blockno
  log : t.log.dev = s.log.dev

namespace Local

section

variable (near : Local s t p i)
include near

theorem dev_eq (j : Fin NBUF) : (t.cache.buf j).dev = (s.cache.buf j).dev := by
  by_cases same : j = i
  · rw [same, near.dev]
  · rw [near.bufs j same]

theorem blockno_eq (j : Fin NBUF) : (t.cache.buf j).blockno = (s.cache.buf j).blockno := by
  by_cases same : j = i
  · rw [same, near.blockno]
  · rw [near.bufs j same]

theorem owns_eq (other : j ≠ i) (q : Pid) : (t.procs q).owns j = (s.procs q).owns j := by
  by_cases same : q = p
  · rw [same, near.owns j other]
  · rw [near.others q same]

theorem locks_iff (other : j ≠ i) (q : Pid) : (t.procs q).Locks j ↔ (s.procs q).Locks j := by
  by_cases same : q = p
  · rw [same, Proc.Locks, Proc.Locks, near.owns j other, near.locking j other]
  · rw [near.others q same]

theorem users_eq (other : j ≠ i) : t.users j = s.users j := by
  have same : (t.procs p).refs j = (s.procs p).refs j := by
    simp only [Proc.refs, near.owns j other, near.busy j other]
  have := s.users_update t p j near.others
  omega

end

end Local

/-- The parts of the state that only the log's steps change. -/
structure SameStore (s t : State Pid) : Prop where
  disk : t.disk = s.disk
  history : t.history = s.history

/-- **A step at one buffer keeps the cache coherent when it does so at that
buffer.** -/
theorem Coherent.of_local (coherent : Coherent s) (near : Local s t p i) (same : SameStore s t)
    (listed : t.cache.Listed)
    (counted : (t.cache.buf i).refcnt + (s.procs p).refs i =
      (s.cache.buf i).refcnt + (t.procs p).refs i)
    (locked : ∀ q, (t.cache.buf i).lock = some q ↔ (t.procs q).Locks i)
    (apart : (t.procs p).busy = .locked i → (t.procs p).owns i = none)
    (valid : ∀ q, (t.procs q).owns i ≠ none → (t.cache.buf i).valid = true)
    (stays : (s.cache.buf i).valid = true → (t.cache.buf i).valid = true)
    (fresh : (t.cache.buf i).valid = true → (s.cache.buf i).dev = s.log.dev →
      (∀ q, (t.procs q).owns i ≠ some true) →
      (t.cache.buf i).data = s.history.store s.log.dev (s.cache.buf i).blockno) :
    Coherent t where
  listed := listed
  unique := by
    intro j k
    rw [near.dev_eq, near.dev_eq, near.blockno_eq, near.blockno_eq]
    exact coherent.unique j k
  counted := by
    intro j
    have pins : t.pins j = s.pins j := by
      simp only [State.pins, near.dev_eq, near.blockno_eq, near.log, same.history]
    have before := coherent.counted j
    by_cases here : j = i
    · subst here
      have := s.users_update t p j near.others
      omega
    · rw [near.bufs j here, near.users_eq here, pins, before]
  locked := by
    intro j q
    by_cases here : j = i
    · rw [here]
      exact locked q
    · rw [near.bufs j here, near.locks_iff here]
      exact coherent.locked j q
  apart := by
    intro q j busy
    by_cases here : j = i
    · subst here
      by_cases mine : q = p
      · rw [mine] at busy ⊢
        exact apart busy
      · rw [near.others q mine] at busy ⊢
        exact coherent.apart q j busy
    · rw [near.owns_eq here]
      refine coherent.apart q j ?_
      by_cases mine : q = p
      · rw [mine] at busy ⊢
        exact (near.locking j here).mp busy
      · rwa [near.others q mine] at busy
  valid := by
    intro q j owned
    by_cases here : j = i
    · rw [here] at owned ⊢
      exact valid q owned
    · rw [near.owns_eq here] at owned
      rw [near.bufs j here]
      exact coherent.valid q j owned
  fresh := by
    intro j loaded device clean
    rw [near.dev_eq, near.log] at device
    rw [near.blockno_eq, near.log, same.history]
    by_cases here : j = i
    · subst here
      exact fresh loaded device clean
    · rw [near.bufs j here] at loaded ⊢
      exact coherent.fresh j loaded device fun q => near.owns_eq here q ▸ clean q
  cached := by
    rw [same.history]
    intro blockno mem
    obtain ⟨j, ⟨device, number⟩, loaded⟩ := coherent.cached blockno mem
    refine ⟨j, ⟨by rw [near.dev_eq, near.log, device], by rw [near.blockno_eq, number]⟩, ?_⟩
    by_cases here : j = i
    · subst here
      exact stays loaded
    · rwa [near.bufs j here]
  distinct := by
    rw [same.history]
    exact coherent.distinct
  home := by
    rw [same.history, same.disk, near.log]
    exact coherent.home
  device := by
    rw [near.log]
    exact coherent.device

theorem Coherent.locks_unique (coherent : Coherent s) (mine : (s.procs p).Locks i)
    (yours : (s.procs q).Locks i) : q = p := by
  have first := (coherent.locked i p).mpr mine
  have second := (coherent.locked i q).mpr yours
  exact Option.some.inj (second.symm.trans first)

theorem Coherent.owns_of_ne (coherent : Coherent s) (mine : (s.procs p).Locks i)
    (other : q ≠ p) : (s.procs q).owns i = none := by
  by_contra owned
  exact other (coherent.locks_unique mine (.inl owned))

theorem Coherent.blockno_ne (coherent : Coherent s) (device : (s.cache.buf i).dev = s.log.dev)
    (other : j ≠ i) (here : (s.cache.buf j).dev = s.log.dev) :
    (s.cache.buf j).blockno ≠ (s.cache.buf i).blockno := by
  intro number
  refine other (coherent.unique j i ?_ (here.trans device.symm) number)
  rw [here]
  exact coherent.device

theorem Local.touch (s : State Pid) (p : Pid) (i : Fin NBUF) {f : Buf Pid → Buf Pid}
    {g : Proc → Proc} (dev : (f (s.cache.buf i)).dev = (s.cache.buf i).dev)
    (blockno : (f (s.cache.buf i)).blockno = (s.cache.buf i).blockno)
    (owns : ∀ j, j ≠ i → (g (s.procs p)).owns j = (s.procs p).owns j)
    (before : ∀ j, j ≠ i → (s.procs p).busy.buffer ≠ some j)
    (after : ∀ j, j ≠ i → (g (s.procs p)).busy.buffer ≠ some j) :
    Local s ((s.setBuf i f).setProc p g) p i where
  others := fun _ other => procs_ne other _
  owns := by simpa using owns
  busy := by
    intro j other
    simp [before j other, after j other]
  locking := by
    intro j other
    have buffer : ∀ busy : Busy, busy = .locked j → busy.buffer = some j := by
      rintro _ rfl
      rfl
    simp only [procs_self, procs_setBuf]
    exact ⟨fun busy => absurd (buffer _ busy) (after j other),
      fun busy => absurd (buffer _ busy) (before j other)⟩
  bufs := by
    intro j other
    simp [modify_of_ne other]
  dev := by simpa using dev
  blockno := by simpa using blockno
  log := rfl

theorem Local.acquire (here : (s.procs p).busy = .waiting i) :
    Local s ((s.setBuf i fun b => { b with lock := some p }).setProc p
      fun proc => { proc with busy := .locked i }) p i :=
  .touch s p i rfl rfl (fun _ _ => rfl) (fun j other => by simp [here, buffer, other.symm])
    (fun j other => by simp [buffer, other.symm])

section

variable (quiet : (s.procs p).busy = .no)
include quiet

theorem Local.setData (data : Block) : Local s (s.setData p i data) p i :=
  .touch s p i rfl rfl (fun j other => update_of_ne other _ _)
    (fun j _ => by simp [quiet, buffer]) (fun j _ => by simp [quiet, buffer])

theorem Local.brelse : Local s (s.brelse p i) p i :=
  .touch s p i rfl rfl (fun j other => update_of_ne other _ _)
    (fun j _ => by simp [quiet, buffer]) (fun j other => by simp [buffer, other.symm])

theorem Local.bget_hit (ctl : Ctl) :
    Local s ({ s with cache := s.cache.bpin i }.setProc p
      fun proc => { proc with ctl := ctl, busy := .waiting i }) p i :=
  .touch s p i (f := fun b => { b with refcnt := b.refcnt + 1 }) rfl rfl (fun _ _ => rfl)
    (fun j _ => by simp [quiet, buffer]) (fun j other => by simp [buffer, other.symm])

end

section

variable (coherent : Coherent s)
include coherent

theorem Coherent.acquire (here : (s.procs p).busy = .waiting i)
    (free : (s.cache.buf i).lock = none) :
    Coherent ((s.setBuf i fun b => { b with lock := some p }).setProc p
      fun proc => { proc with busy := .locked i }) := by
  have nobody : ∀ q, ¬ (s.procs q).Locks i := by
    intro q locks
    rw [(coherent.locked i q).mpr locks] at free
    cases free
  have unowned : ∀ q, (s.procs q).owns i = none := by
    intro q
    by_contra owned
    exact nobody q (.inl owned)
  have near := Local.acquire here
  have still : ∀ q, (((s.setBuf i fun b => { b with lock := some p }).setProc p
      fun proc => { proc with busy := .locked i }).procs q).owns i = none := by
    intro q
    by_cases mine : q = p
    · rw [mine, procs_self]
      exact unowned p
    · rw [procs_ne mine]
      exact unowned q
  refine coherent.of_local near ⟨rfl, rfl⟩ coherent.listed ?_ ?_ (fun _ => still p) ?_ ?_ ?_
  · simp [Proc.refs, here, buffer]
  · intro q
    by_cases mine : q = p
    · simp [mine, Proc.Locks]
    · rw [procs_ne mine]
      simp only [cache_setProc, cache_setBuf, modify_self, Option.some.injEq]
      exact ⟨fun same => absurd same.symm mine, fun locks => absurd locks (nobody q)⟩
  · intro q owned
    exact absurd (still q) owned
  · intro loaded
    simpa using loaded
  · intro loaded device _
    have clean : ∀ q, (s.procs q).owns i ≠ some true := fun q => by simp [unowned q]
    simpa using coherent.fresh i (by simpa using loaded) device clean

theorem Coherent.clean_of_holder (mine : (s.procs p).Locks i)
    (clean : (s.procs p).owns i ≠ some true) (q : Pid) : (s.procs q).owns i ≠ some true := by
  by_cases same : q = p
  · rwa [same]
  · rw [coherent.owns_of_ne mine same]
    simp

/-- What the locks of a buffer are after its holder has changed. -/
theorem Coherent.locked_of_holder (mine : (s.procs p).Locks i)
    {t : State Pid} (others : ∀ q, q ≠ p → t.procs q = s.procs q)
    (lock : (t.cache.buf i).lock = (s.cache.buf i).lock) (still : (t.procs p).Locks i) (q : Pid) :
    (t.cache.buf i).lock = some q ↔ (t.procs q).Locks i := by
  rw [lock]
  by_cases same : q = p
  · rw [same]
    exact ⟨fun _ => still, fun _ => (coherent.locked i p).mpr mine⟩
  · rw [others q same]
    exact coherent.locked i q

theorem Coherent.valid_of_pinned (device : (s.cache.buf i).dev = s.log.dev)
    (mem : (s.cache.buf i).blockno ∈ s.history.pinned) : (s.cache.buf i).valid = true := by
  obtain ⟨j, ⟨dev, blockno⟩, loaded⟩ := coherent.cached _ mem
  have same : j = i := by
    refine coherent.unique j i ?_ (dev.trans device.symm) blockno
    rw [dev]
    exact coherent.device
  rwa [same] at loaded

omit coherent in
theorem State.load_eq (s : State Pid) (p : Pid) (i : Fin NBUF) : s.load p i = (s.setBuf i fun b =>
      if b.valid then b else { b with data := s.disk b.blockno, valid := true }).setProc p
        fun proc => { proc with owns := update proc.owns i (some false), busy := .no } := by
  unfold State.load
  by_cases loaded : (s.cache.buf i).valid = true
  · rw [if_pos loaded]
    congr 1
    simp [State.setBuf, Bcache.modify, loaded]
  · rw [if_neg loaded]
    congr 1
    simp [State.setBuf, Bcache.modify, loaded]

omit coherent in
theorem Local.load (here : (s.procs p).busy = .locked i) : Local s (s.load p i) p i := by
  rw [State.load_eq]
  exact .touch s p i (by split <;> rfl) (by split <;> rfl)
    (fun j other => update_of_ne other _ _)
    (fun j other => by simp [here, Busy.buffer, other.symm]) (fun j other => by simp [Busy.buffer])

/-- The end of `bread`: the data come from the disk unless the buffer has them. -/
theorem Coherent.load (here : (s.procs p).busy = .locked i) : Coherent (s.load p i) := by
  have mine : (s.procs p).Locks i := .inr here
  have unowned := coherent.apart p i here
  have near := Local.load here
  rw [load_eq] at near ⊢
  refine coherent.of_local near ⟨rfl, rfl⟩ coherent.listed ?_ ?_ (by simp) ?_ ?_ ?_
  · simp only [cache_setProc, cache_setBuf, modify_self, procs_self, procs_setBuf]
    split <;> simp [Proc.refs, here, unowned, buffer]
  · refine coherent.locked_of_holder mine near.others ?_ (.inl (by simp))
    simp only [cache_setProc, cache_setBuf, modify_self]
    split <;> rfl
  · intro q _
    simp only [cache_setProc, cache_setBuf, modify_self]
    split
    next loaded => exact loaded
    next => rfl
  · intro loaded
    simp [loaded]
  · intro _ device _
    simp only [cache_setProc, cache_setBuf, modify_self]
    split
    next loaded =>
      exact coherent.fresh i loaded device (coherent.clean_of_holder mine (by simp [unowned]))
    next missing =>
      exact coherent.home _ fun mem => missing (coherent.valid_of_pinned device mem)

/-- A change of the data by the process that holds the buffer. -/
theorem Coherent.setData (owned : (s.procs p).owns i ≠ none)
    (quiet : (s.procs p).busy = .no) (data : Block) : Coherent (s.setData p i data) := by
  unfold State.setData
  have mine : (s.procs p).Locks i := .inl owned
  have near := Local.setData (i := i) quiet data
  unfold State.setData at near
  refine coherent.of_local near ⟨rfl, rfl⟩ coherent.listed ?_ ?_ (by simp [quiet]) ?_ ?_ ?_
  · simp [Proc.refs, owned]
  · exact coherent.locked_of_holder mine near.others (by simp) (.inl (by simp))
  · intro q _
    simpa using coherent.valid p i owned
  · intro loaded
    simpa using loaded
  · intro _ _ clean
    exact absurd (by simp) (clean p)

theorem Coherent.brelse (owned : (s.procs p).owns i = some false)
    (quiet : (s.procs p).busy = .no) : Coherent (s.brelse p i) := by
  unfold State.brelse
  have mine : (s.procs p).Locks i := .inl (by simp [owned])
  have near := Local.brelse (i := i) quiet
  unfold State.brelse at near
  have nobody : ∀ q, (((s.setBuf i fun b => { b with lock := none }).setProc p fun proc =>
      { proc with owns := update proc.owns i none, busy := .releasing i }).procs q).owns i
        = none := by
    intro q
    by_cases same : q = p
    · simp [same]
    · rw [near.others q same]
      exact coherent.owns_of_ne mine same
  refine coherent.of_local near ⟨rfl, rfl⟩ coherent.listed ?_ ?_ (by simp) ?_ ?_ ?_
  · simp [Proc.refs, owned, quiet, buffer]
  · intro q
    refine ⟨fun lock => by simp at lock, ?_⟩
    rintro (owns | busy)
    · exact absurd (nobody q) owns
    · by_cases same : q = p
      · simp [same] at busy
      · rw [near.others q same] at busy
        exact absurd (coherent.locks_unique mine (.inr busy)) same
  · intro q owns
    exact absurd (nobody q) owns
  · intro loaded
    simpa using loaded
  · intro loaded device _
    simpa using coherent.fresh i (by simpa using loaded) device
      (coherent.clean_of_holder mine (by simp [owned]))

omit coherent in
theorem Local.release (here : (s.procs p).busy = .releasing i) :
    Local s ({ s with cache := s.cache.release i }.setProc p
      fun proc => { proc with busy := .no }) p i := by
  refine ⟨fun q other => State.procs_ne other _, ?_, ?_, ?_, ?_, ?_, ?_, rfl⟩
  · intro j _
    simp
  · intro j other
    simp [here, Busy.buffer, other.symm]
  · intro j _
    simp [here]
  · intro j other
    simp [Bcache.bunpin, Bcache.modify_of_ne other]
  · simp [Bcache.bunpin]
  · simp [Bcache.bunpin]

theorem Coherent.release (here : (s.procs p).busy = .releasing i) :
    Coherent ({ s with cache := s.cache.release i }.setProc p
      fun proc => { proc with busy := .no }) := by
  have near := Local.release here
  have owns : ∀ q, (({ s with cache := s.cache.release i }.setProc p
      fun proc => { proc with busy := .no }).procs q).owns i = (s.procs q).owns i := by
    intro q
    by_cases same : q = p
    · simp [same]
    · rw [near.others q same]
  refine coherent.of_local near ⟨rfl, rfl⟩ (coherent.listed.release i) ?_ ?_ (by simp) ?_ ?_ ?_
  · have := coherent.counted i
    have := s.refs_le_users p i
    have used : (s.procs p).refs i = (if (s.procs p).owns i = none then 0 else 1) + 1 := by
      simp [Proc.refs, here, buffer]
    simp only [cache_setProc, buf_release, bunpin, modify_self,
      procs_self, Proc.refs, buffer, here] at *
    simp only [reduceCtorEq, if_false, if_true] at *
    omega
  · intro q
    have lock : ((({ s with cache := s.cache.release i }.setProc p
        fun proc => { proc with busy := .no }).cache).buf i).lock = (s.cache.buf i).lock := by
      simp [bunpin]
    rw [lock, coherent.locked i q]
    by_cases same : q = p
    · simp [same, Proc.Locks, here]
    · rw [near.others q same]
  · intro q owned
    rw [owns q] at owned
    simpa [bunpin] using coherent.valid q i owned
  · intro loaded
    simpa [bunpin] using loaded
  · intro loaded device clean
    have before : ∀ q, (s.procs q).owns i ≠ some true := fun q => owns q ▸ clean q
    simpa [bunpin] using coherent.fresh i (by simpa [bunpin] using loaded) device before

end

/-! ## Recycling -/

/-- Nobody has to do with a buffer whose count is zero. -/
structure Unused (s : State Pid) (i : Fin NBUF) : Prop where
  owns : ∀ q, (s.procs q).owns i = none
  busy : ∀ q, (s.procs q).busy.buffer ≠ some i
  unpinned : ¬ ((s.cache.buf i).dev = s.log.dev ∧ (s.cache.buf i).blockno ∈ s.history.pinned)

section

variable (coherent : Coherent s) {dev blockno : Nat}
include coherent

theorem Coherent.unused (zero : (s.cache.buf i).refcnt = 0) : Unused s i := by
  have total := coherent.counted i
  have each : ∀ q, (s.procs q).refs i = 0 := by
    intro q
    have := s.refs_le_users q i
    omega
  refine ⟨?_, ?_, ?_⟩
  · intro q
    have := each q
    unfold Proc.refs at this
    by_contra owned
    rw [if_neg owned] at this
    omega
  · intro q busy
    have := each q
    unfold Proc.refs at this
    rw [if_pos busy] at this
    omega
  · intro pinned
    have : s.pins i = 1 := if_pos pinned
    omega

omit coherent in
theorem State.refs_waiting {proc : Proc} (quiet : proc.busy = .no) (ctl : Ctl) (i j : Fin NBUF) :
    ({ proc with ctl := ctl, busy := .waiting i } : Proc).refs j =
      proc.refs j + if i = j then 1 else 0 := by
  simp [Proc.refs, quiet, Busy.buffer]

section

variable (quiet : (s.procs p).busy = .no)
include quiet

theorem Coherent.bget_hit (ctl : Ctl) :
    Coherent ({ s with cache := s.cache.bpin i }.setProc p
      fun proc => { proc with ctl := ctl, busy := .waiting i }) := by
  change Coherent ((s.setBuf i fun b => { b with refcnt := b.refcnt + 1 }).setProc p
    fun proc => { proc with ctl := ctl, busy := .waiting i })
  have near : Local s ((s.setBuf i fun b => { b with refcnt := b.refcnt + 1 }).setProc p
      fun proc => { proc with ctl := ctl, busy := .waiting i }) p i := .bget_hit quiet ctl
  have owns : ∀ q, (((s.setBuf i fun b => { b with refcnt := b.refcnt + 1 }).setProc p
      fun proc => { proc with ctl := ctl, busy := .waiting i }).procs q).owns i =
        (s.procs q).owns i := by
    intro q
    by_cases same : q = p
    · simp [same]
    · rw [near.others q same]
  refine coherent.of_local near ⟨rfl, rfl⟩ coherent.listed ?_ ?_ (by simp) ?_ ?_ ?_
  · simp only [cache_setProc, cache_setBuf, modify_self,
      procs_self, procs_setBuf, refs_waiting quiet, if_true]
    omega
  · intro q
    have lock : (((s.setBuf i fun b => { b with refcnt := b.refcnt + 1 }).setProc p
        fun proc => { proc with ctl := ctl, busy := .waiting i }).cache.buf i).lock =
          (s.cache.buf i).lock := by simp
    rw [lock, coherent.locked i q]
    by_cases same : q = p
    · simp [same, Proc.Locks, quiet]
    · rw [near.others q same]
  · intro q owned
    rw [owns q] at owned
    simpa using coherent.valid q i owned
  · intro loaded
    simpa using loaded
  · intro loaded device clean
    have before : ∀ q, (s.procs q).owns i ≠ some true := fun q => owns q ▸ clean q
    simpa using coherent.fresh i (by simpa using loaded) device before

/-- A buffer that nobody uses is taken for a block that no buffer caches. -/
theorem Coherent.bget_miss (ctl : Ctl) (zero : (s.cache.buf i).refcnt = 0)
    (absent : ∀ j, ¬ ((s.cache.buf j).dev = dev ∧ (s.cache.buf j).blockno = blockno)) :
    Coherent ((s.setBuf i fun b =>
      { b with dev := dev, blockno := blockno, valid := false, refcnt := 1 }).setProc p
        fun proc => { proc with ctl := ctl, busy := .waiting i }) := by
  have unused := coherent.unused zero
  generalize final : (s.setBuf i fun b =>
      { b with dev := dev, blockno := blockno, valid := false, refcnt := 1 }).setProc p
        (fun proc => { proc with ctl := ctl, busy := .waiting i }) = t
  have others : ∀ q, q ≠ p → t.procs q = s.procs q := by
    intro q other
    rw [← final, procs_ne other, procs_setBuf]
  have mine : t.procs p = { s.procs p with ctl := ctl, busy := .waiting i } := by simp [← final]
  have bufs : ∀ j, j ≠ i → t.cache.buf j = s.cache.buf j := by
    intro j other
    simp [← final, modify_of_ne other]
  have taken : t.cache.buf i = { s.cache.buf i with
      dev := dev, blockno := blockno, valid := false, refcnt := 1 } := by simp [← final]
  have log : t.log = s.log := by simp [← final]
  have history : t.history = s.history := by simp [← final]
  have disk : t.disk = s.disk := by simp [← final]
  have owns : ∀ q j, (t.procs q).owns j = (s.procs q).owns j := by
    intro q j
    by_cases same : q = p
    · rw [same, mine]
    · rw [others q same]
  have locking : ∀ q j, (t.procs q).busy = .locked j ↔ (s.procs q).busy = .locked j := by
    intro q j
    by_cases same : q = p
    · simp [same, mine, quiet]
    · rw [others q same]
  have locks : ∀ q j, (t.procs q).Locks j ↔ (s.procs q).Locks j := by
    intro q j
    rw [Proc.Locks, Proc.Locks, owns, locking]
  refine ⟨?_, ?_, ?_, ?_, ?_, ?_, ?_, ?_, ?_, ?_, ?_⟩
  · intro j
    simpa [← final] using coherent.listed j
  · intro j k nonzero sameDev sameNo
    by_cases first : j = i <;> by_cases second : k = i
    · rw [first, second]
    · rw [first, taken, bufs k second] at sameDev sameNo
      exact absurd ⟨sameDev.symm, sameNo.symm⟩ (absent k)
    · rw [second, taken, bufs j first] at sameDev sameNo
      exact absurd ⟨sameDev, sameNo⟩ (absent j)
    · rw [bufs j first, bufs k second] at sameDev sameNo
      rw [bufs j first] at nonzero
      exact coherent.unique j k nonzero sameDev sameNo
  · intro j
    have change := s.users_update t p j others
    rw [mine, refs_waiting quiet] at change
    have before := coherent.counted j
    by_cases here : j = i
    · have pinless : t.pins i = 0 := by
        refine if_neg ?_
        rw [taken, log, history]
        rintro ⟨device, mem⟩
        obtain ⟨k, ⟨sameDev, sameNo⟩, -⟩ := coherent.cached blockno mem
        exact absent k ⟨sameDev.trans device.symm, sameNo⟩
      rw [here] at change before ⊢
      rw [if_pos rfl] at change
      rw [pinless, taken]
      simp only
      omega
    · have pins : t.pins j = s.pins j := by
        simp only [State.pins, bufs j here, log, history]
      rw [if_neg (Ne.symm here)] at change
      rw [bufs j here, pins]
      omega
  · intro j q
    rw [locks]
    by_cases here : j = i
    · rw [here, taken]
      exact coherent.locked i q
    · rw [bufs j here]
      exact coherent.locked j q
  · intro q j busy
    rw [owns]
    exact coherent.apart q j ((locking q j).mp busy)
  · intro q j owned
    rw [owns] at owned
    by_cases here : j = i
    · rw [here] at owned
      exact absurd (unused.owns q) owned
    · rw [bufs j here]
      exact coherent.valid q j owned
  · intro j loaded device clean
    by_cases here : j = i
    · rw [here, taken] at loaded
      cases loaded
    · rw [bufs j here] at loaded device ⊢
      rw [log] at device ⊢
      rw [history]
      exact coherent.fresh j loaded device fun q => owns q j ▸ clean q
  · intro number mem
    rw [history] at mem
    obtain ⟨j, ⟨device, same⟩, loaded⟩ := coherent.cached number mem
    have kept : j ≠ i := by
      rintro rfl
      exact unused.unpinned ⟨device, same ▸ mem⟩
    refine ⟨j, ⟨?_, ?_⟩, ?_⟩
    · rw [bufs j kept, log, device]
    · rw [bufs j kept, same]
    · rw [bufs j kept, loaded]
  · rw [history]
    exact coherent.distinct
  · rw [history, disk, log]
    exact coherent.home
  · rw [log]
    exact coherent.device

/-- **`bget` keeps the cache coherent**, whether it finds the block or not. -/
theorem Coherent.bget {cache : Bcache Pid} (got : s.cache.bget dev blockno = some (cache, i))
    (ctl : Ctl) :
    Coherent ({ s with cache := cache }.setProc p
      fun proc => { proc with ctl := ctl, busy := .waiting i }) := by
  rcases bget_cases coherent.listed got with ⟨-, -, rfl⟩ | ⟨absent, zero, rfl⟩
  · exact coherent.bget_hit quiet ctl
  · exact coherent.bget_miss quiet ctl zero absent

end

/-! ## Storing -/

/-- The count and the pin of one buffer change together. -/
theorem Coherent.repin (device : (s.cache.buf i).dev = s.log.dev) (count : Nat → Nat)
    {pinned : List Nat} (distinct : pinned.Nodup)
    (elsewhere : ∀ number, number ≠ (s.cache.buf i).blockno →
      (number ∈ pinned ↔ number ∈ s.history.pinned))
    (counted : count (s.cache.buf i).refcnt +
        (if (s.cache.buf i).blockno ∈ s.history.pinned then 1 else 0) =
      (s.cache.buf i).refcnt + if (s.cache.buf i).blockno ∈ pinned then 1 else 0)
    (loaded : (s.cache.buf i).blockno ∈ pinned → (s.cache.buf i).valid = true)
    (home : (s.cache.buf i).blockno ∉ pinned →
      s.disk (s.cache.buf i).blockno = s.history.store s.log.dev (s.cache.buf i).blockno) :
    Coherent { s with
      cache := s.cache.modify i fun b => { b with refcnt := count b.refcnt }
      history := { s.history with pinned } } := by
  generalize after : s.cache.modify i (fun b => { b with refcnt := count b.refcnt }) = cache
  have fields : ∀ j, (cache.buf j).dev = (s.cache.buf j).dev ∧
      (cache.buf j).blockno = (s.cache.buf j).blockno ∧
      (cache.buf j).valid = (s.cache.buf j).valid ∧ (cache.buf j).lock = (s.cache.buf j).lock ∧
      (cache.buf j).data = (s.cache.buf j).data := by
    intro j
    by_cases same : j = i
    · simp [← after, same]
    · simp [← after, modify_of_ne same]
  refine ⟨after ▸ coherent.listed, ?_, ?_, ?_, coherent.apart, ?_, ?_, ?_, distinct, ?_,
    coherent.device⟩
  · intro j k
    rw [(fields j).1, (fields k).1, (fields j).2.1, (fields k).2.1]
    exact coherent.unique j k
  · intro j
    have before := coherent.counted j
    change _ = s.users j + ite ((cache.buf j).dev = s.log.dev ∧ (cache.buf j).blockno ∈ pinned) 1 0
    rw [(fields j).1, (fields j).2.1]
    unfold State.pins at before
    by_cases same : j = i
    · rw [same] at before ⊢
      simp only [device, true_and] at before ⊢
      have now : (cache.buf i).refcnt = count (s.cache.buf i).refcnt := by simp [← after]
      omega
    · have now : (cache.buf j).refcnt = (s.cache.buf j).refcnt := by
        simp [← after, modify_of_ne same]
      rw [now, before]
      refine congrArg _ (if_congr (and_congr_right fun here => ?_) rfl rfl)
      exact (elsewhere _ (coherent.blockno_ne device same here)).symm
  · intro j q
    rw [(fields j).2.2.2.1]
    exact coherent.locked j q
  · intro q j owned
    rw [(fields j).2.2.1]
    exact coherent.valid q j owned
  · intro j valid here clean
    rw [(fields j).2.2.1] at valid
    rw [(fields j).1] at here
    rw [(fields j).2.2.2.2, (fields j).2.1]
    exact coherent.fresh j valid here clean
  · intro number mem
    by_cases same : number = (s.cache.buf i).blockno
    · refine ⟨i, ⟨(fields i).1.trans device, (fields i).2.1.trans same.symm⟩, ?_⟩
      exact (fields i).2.2.1.trans (loaded (same ▸ mem))
    · obtain ⟨j, ⟨here, is⟩, valid⟩ := coherent.cached number ((elsewhere number same).mp mem)
      exact ⟨j, ⟨(fields j).1.trans here, (fields j).2.1.trans is⟩, (fields j).2.2.1.trans valid⟩
  · intro number absent
    by_cases same : number = (s.cache.buf i).blockno
    · subst same
      exact home absent
    · exact coherent.home number fun mem => absent ((elsewhere number same).mpr mem)

theorem Coherent.pin (device : (s.cache.buf i).dev = s.log.dev)
    (loaded : (s.cache.buf i).valid = true)
    (new : (s.cache.buf i).blockno ∉ s.history.pinned) : Coherent (s.pin i) :=
  coherent.repin device (· + 1) (List.nodup_cons.mpr ⟨new, coherent.distinct⟩)
    (fun number other => by simp [other]) (by simp [new]) (fun _ => loaded)
    fun absent => absurd List.mem_cons_self absent

section

variable (owned : (s.procs p).owns i ≠ none) (device : (s.cache.buf i).dev = s.log.dev)
include owned device

/-- The holder's data become the data last stored, and the disk has them too
unless the block is pinned. -/
theorem Coherent.stored_with {disk : Nat → Block}
    (elsewhere : ∀ number, number ≠ (s.cache.buf i).blockno → disk number = s.disk number)
    (written : (s.cache.buf i).blockno ∉ s.history.pinned →
      disk (s.cache.buf i).blockno = (s.cache.buf i).data) :
    Coherent { s.stored p i with disk := disk } := by
  generalize final : ({ s.stored p i with disk := disk } : State Pid) = t
  have cache : t.cache = s.cache := by simp [← final, State.stored]
  have log : t.log = s.log := by simp [← final, State.stored]
  have pinned : t.history.pinned = s.history.pinned := by simp [← final, State.stored]
  have blocks : t.disk = disk := by simp [← final]
  have others : ∀ q, q ≠ p → t.procs q = s.procs q := by
    intro q other
    simp only [← final, State.stored]
    rw [procs_ne other]
  have self : (t.procs p).owns = update (s.procs p).owns i (some false) := by
    simp [← final, State.stored]
  have store : ∀ number, t.history.store s.log.dev number =
      if number = (s.cache.buf i).blockno then (s.cache.buf i).data
      else s.history.store s.log.dev number := by
    intro number
    simp only [← final, State.stored, history_setProc, device, update_self]
    by_cases same : number = (s.cache.buf i).blockno
    · rw [if_pos same, same, update_self]
    · rw [if_neg same, update_of_ne same]
  have owns : ∀ q j, (t.procs q).owns j = none ↔ (s.procs q).owns j = none := by
    intro q j
    by_cases same : q = p
    · by_cases here : j = i
      · simp [same, here, self, owned]
      · rw [same, self, update_of_ne here]
    · rw [others q same]
  have busy : ∀ q, (t.procs q).busy = (s.procs q).busy := by
    intro q
    by_cases same : q = p
    · simp [same, ← final, State.stored]
    · rw [others q same]
  have refs : ∀ q j, (t.procs q).refs j = (s.procs q).refs j := by
    intro q j
    simp only [Proc.refs, busy, owns]
  have dirty : ∀ q j, j ≠ i → (t.procs q).owns j = (s.procs q).owns j := by
    intro q j other
    by_cases same : q = p
    · rw [same, self, update_of_ne other]
    · rw [others q same]
  refine ⟨?_, ?_, ?_, ?_, ?_, ?_, ?_, ?_, ?_, ?_, ?_⟩
  · rw [cache]
    exact coherent.listed
  · rw [cache]
    exact coherent.unique
  · intro j
    have users : t.users j = s.users j := Finset.sum_congr rfl fun q _ => refs q j
    have pins : t.pins j = s.pins j := by simp only [State.pins, cache, log, pinned]
    rw [cache, users, pins]
    exact coherent.counted j
  · intro j q
    rw [cache, coherent.locked j q, Proc.Locks, Proc.Locks, busy, ne_eq, ne_eq, owns]
  · intro q j locked
    rw [busy] at locked
    exact (owns q j).mpr (coherent.apart q j locked)
  · intro q j held
    rw [cache]
    exact coherent.valid q j fun absent => held ((owns q j).mpr absent)
  · intro j loaded here clean
    rw [cache] at loaded here ⊢
    rw [log] at here ⊢
    rw [store]
    by_cases same : j = i
    · rw [same, if_pos rfl]
    · rw [if_neg (coherent.blockno_ne device same here)]
      exact coherent.fresh j loaded here fun q => dirty q j same ▸ clean q
  · intro number mem
    rw [pinned] at mem
    obtain ⟨j, ⟨here, same⟩, loaded⟩ := coherent.cached number mem
    exact ⟨j, ⟨by rw [cache, log, here], by rw [cache, same]⟩, by rw [cache, loaded]⟩
  · rw [pinned]
    exact coherent.distinct
  · intro number absent
    rw [pinned] at absent
    rw [blocks, log, store]
    by_cases same : number = (s.cache.buf i).blockno
    · rw [if_pos same, same]
      exact written (same ▸ absent)
    · rw [if_neg same, elsewhere number same]
      exact coherent.home number absent
  · rw [log]
    exact coherent.device

theorem Coherent.stored
    (pinned : (s.cache.buf i).blockno ∈ s.history.pinned) : Coherent (s.stored p i) :=
  coherent.stored_with owned device (fun _ _ => rfl) fun absent => absurd pinned absent

theorem Coherent.bwrite : Coherent (s.bwrite p i) :=
  coherent.stored_with owned device (fun _ other => update_of_ne other ..)
    fun _ => update_self ..

end

theorem Coherent.unpin (device : (s.cache.buf i).dev = s.log.dev)
    (pinned : (s.cache.buf i).blockno ∈ s.history.pinned)
    (installed : s.disk (s.cache.buf i).blockno =
      s.history.store s.log.dev (s.cache.buf i).blockno) : Coherent (s.unpin i) := by
  have left : (s.cache.buf i).blockno ∉ s.history.pinned.erase (s.cache.buf i).blockno :=
    fun still => (coherent.distinct.mem_erase_iff.mp still).1 rfl
  refine coherent.repin device (· - 1) (coherent.distinct.erase _) (fun number other => ?_) ?_
    (fun still => absurd still left) fun _ => installed
  · rw [coherent.distinct.mem_erase_iff, and_iff_right other]
  · have before := coherent.counted i
    rw [State.pins, if_pos ⟨device, pinned⟩] at before
    rw [if_pos pinned, if_neg left]
    omega

theorem Coherent.congr (cache : t.cache = s.cache) (disk : t.disk = s.disk)
    (store : t.history.store = s.history.store) (pinned : t.history.pinned = s.history.pinned)
    (log : t.log.dev = s.log.dev) (owns : ∀ q, (t.procs q).owns = (s.procs q).owns)
    (busy : ∀ q, (t.procs q).busy = (s.procs q).busy) : Coherent t where
  listed := by
    rw [cache]
    exact coherent.listed
  unique := by
    rw [cache]
    exact coherent.unique
  counted := by
    intro i
    have users : t.users i = s.users i :=
      Finset.sum_congr rfl fun q _ => by simp only [Proc.refs, owns, busy]
    have pins : t.pins i = s.pins i := by simp only [State.pins, cache, log, pinned]
    rw [cache, users, pins]
    exact coherent.counted i
  locked := by
    intro i q
    rw [cache, Proc.Locks, owns, busy]
    exact coherent.locked i q
  apart := by
    intro q i
    rw [owns, busy]
    exact coherent.apart q i
  valid := by
    intro q i
    rw [owns, cache]
    exact coherent.valid q i
  fresh := by
    intro i
    rw [cache, log, store]
    intro loaded device clean
    exact coherent.fresh i loaded device fun q => owns q ▸ clean q
  cached := by
    intro number mem
    rw [pinned] at mem
    obtain ⟨i, ⟨device, same⟩, loaded⟩ := coherent.cached number mem
    exact ⟨i, ⟨by rw [cache, log, device], by rw [cache, same]⟩, by rw [cache, loaded]⟩
  distinct := by
    rw [pinned]
    exact coherent.distinct
  home := by
    rw [pinned, disk, log, store]
    exact coherent.home
  device := by
    rw [log]
    exact coherent.device

theorem Coherent.setCtl (ctl : Ctl) : Coherent (s.setCtl p ctl) := by
  have same : ∀ q, ((s.setCtl p ctl).procs q).owns = (s.procs q).owns ∧
      ((s.setCtl p ctl).procs q).busy = (s.procs q).busy := by
    intro q
    by_cases here : q = p
    · simp [State.setCtl, here]
    · rw [State.setCtl, procs_ne here]
      exact ⟨rfl, rfl⟩
  exact coherent.congr rfl rfl rfl rfl rfl (fun q => (same q).1) fun q => (same q).2

end

end Local

end Xv6.Bio
