import Mathlib.Data.List.FinRange
import Xv6.Param

/-!
# The buffer cache of `bio.c`

The buffers and the list that orders them by use. The sections of `bget`,
`brelse`, `bpin` and `bunpin` that run under `bcache.lock` are functions of the
cache; the sleep-lock of a buffer is the process that holds it, if any.
-/

namespace Xv6

/-- `struct buf`. The list links are in `Bcache.lru`. -/
structure Buf (Pid : Type) where
  valid : Bool
  dev : Nat
  blockno : Nat
  lock : Option Pid
  refcnt : Nat
  data : Block

/-- `bcache`: the buffers, and the list of them from `head.next`, the most
recently used, to `head.prev`. -/
structure Bcache (Pid : Type) where
  buf : Fin NBUF → Buf Pid
  lru : List (Fin NBUF)

instance : NeZero NBUF := ⟨by decide⟩

namespace Bcache

variable {Pid : Type} {cache : Bcache Pid} {i : Fin NBUF}

/-- The cache after `binit`, which puts each buffer in front of the ones
before it. The buffers are zero. -/
def binit (Pid : Type) : Bcache Pid where
  buf := fun _ => ⟨false, 0, 0, none, 0, Bytes.zero BSIZE⟩
  lru := (List.finRange NBUF).reverse

def modify (cache : Bcache Pid) (i : Fin NBUF) (f : Buf Pid → Buf Pid) : Bcache Pid :=
  { cache with buf := Function.update cache.buf i (f (cache.buf i)) }

/-- The first loop of `bget`: the buffer that caches the block. -/
def lookup (cache : Bcache Pid) (dev blockno : Nat) : Option (Fin NBUF) :=
  cache.lru.find? fun i => (cache.buf i).dev = dev ∧ (cache.buf i).blockno = blockno

/-- The second loop of `bget`: the least recently used buffer nobody uses. -/
def victim (cache : Bcache Pid) : Option (Fin NBUF) :=
  cache.lru.reverse.find? fun i => (cache.buf i).refcnt = 0

/-- The section of `bget` under `bcache.lock`. `none` is the panic on a cache
without a free buffer. -/
def bget (cache : Bcache Pid) (dev blockno : Nat) : Option (Bcache Pid × Fin NBUF) :=
  match cache.lookup dev blockno with
  | some i => some (cache.modify i fun b => { b with refcnt := b.refcnt + 1 }, i)
  | none =>
    match cache.victim with
    | some i =>
      some (cache.modify i fun b =>
        { b with dev := dev, blockno := blockno, valid := false, refcnt := 1 }, i)
    | none => none

/-- The section of `brelse` under `bcache.lock`. -/
def release (cache : Bcache Pid) (i : Fin NBUF) : Bcache Pid :=
  let cache := cache.modify i fun b => { b with refcnt := b.refcnt - 1 }
  if (cache.buf i).refcnt = 0 then { cache with lru := i :: cache.lru.erase i } else cache

def bpin (cache : Bcache Pid) (i : Fin NBUF) : Bcache Pid :=
  cache.modify i fun b => { b with refcnt := b.refcnt + 1 }

def bunpin (cache : Bcache Pid) (i : Fin NBUF) : Bcache Pid :=
  cache.modify i fun b => { b with refcnt := b.refcnt - 1 }

@[simp] theorem modify_self (cache : Bcache Pid) (i : Fin NBUF) (f : Buf Pid → Buf Pid) :
    (cache.modify i f).buf i = f (cache.buf i) :=
  Function.update_self ..

theorem modify_of_ne {j : Fin NBUF} (other : j ≠ i)
    (f : Buf Pid → Buf Pid) : (cache.modify i f).buf j = cache.buf j :=
  Function.update_of_ne other ..

@[simp] theorem lru_modify (cache : Bcache Pid) (i : Fin NBUF) (f : Buf Pid → Buf Pid) :
    (cache.modify i f).lru = cache.lru := rfl

@[simp] theorem buf_release (cache : Bcache Pid) (i : Fin NBUF) :
    (cache.release i).buf = (cache.bunpin i).buf := by
  unfold release bunpin
  simp only
  split <;> rfl

def Listed (cache : Bcache Pid) : Prop := ∀ i, i ∈ cache.lru

theorem listed_binit : Listed (binit Pid) := by
  intro i
  simp [binit]

section

variable (listed : cache.Listed)
include listed

theorem Listed.release (i : Fin NBUF) : (cache.release i).Listed := by
  intro j
  unfold Bcache.release
  simp only
  split
  · by_cases same : j = i
    · simp [same]
    · exact List.mem_cons_of_mem _ ((List.mem_erase_of_ne same).mpr (listed j))
  · exact listed j

/-- `bget` finds the block in the cache, or takes a buffer that nobody uses. -/
theorem bget_cases {after : Bcache Pid} {dev blockno : Nat}
    (got : cache.bget dev blockno = some (after, i)) :
    ((cache.buf i).dev = dev ∧ (cache.buf i).blockno = blockno ∧ after = cache.bpin i) ∨
    ((∀ j, ¬ ((cache.buf j).dev = dev ∧ (cache.buf j).blockno = blockno)) ∧
      (cache.buf i).refcnt = 0 ∧
      after = cache.modify i fun b =>
        { b with dev := dev, blockno := blockno, valid := false, refcnt := 1 }) := by
  unfold bget at got
  split at got
  next found hit =>
    cases got
    have := List.find?_some hit
    simp only [decide_eq_true_eq] at this
    exact .inl ⟨this.1, this.2, rfl⟩
  next missed =>
    split at got
    next found free =>
      cases got
      refine .inr ⟨fun j => ?_, ?_, rfl⟩
      · have := List.find?_eq_none.mp missed j (listed j)
        simpa using this
      · have := List.find?_some free
        simpa using this
    next => cases got

theorem bget_of_free (free : (cache.buf i).refcnt = 0) (device blockno : Nat) :
    ∃ after j, cache.bget device blockno = some (after, j) := by
  unfold bget
  split
  · exact ⟨_, _, rfl⟩
  · split
    · exact ⟨_, _, rfl⟩
    next none =>
      have := List.find?_eq_none.mp none i (List.mem_reverse.mpr (listed i))
      simp [free] at this

end

end Bcache

end Xv6
