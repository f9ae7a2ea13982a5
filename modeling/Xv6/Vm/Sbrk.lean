import Mathlib.Combinatorics.Pigeonhole
import Xv6.Vm.Rollback

/-!
# The size of a process

`growproc` and `sys_sbrk`. A process owns the page frames below its size, and there are not
enough of them to come near the trapframe, so that `uvmalloc` does not panic.
-/

namespace Xv6.Vm

open BitVec (le_def lt_def not_lt_zero)

variable {m m' : Memory} {kend : Word}

def TRAPFRAME : Word := MAXVA - 2 * PGSIZE

/-- The fields of `struct proc` that `growproc` uses. -/
structure Proc where
  sz : Word
  pagetable : Word
  deriving DecidableEq

/-- `growproc`; the `int` is converted to a `uint64` when it is added. -/
def growproc (kend : Word) (n : BitVec 32) (p : Proc) (m : Memory) :
    Except Panic (Int × Proc × Memory) :=
  if 0 < n.toInt then
    match uvmalloc kend p.pagetable p.sz (p.sz + n.signExtend 64) PTE_W m with
    | .error why => .error why
    | .ok (sz, m) => if sz = 0 then .ok (-1, p, m) else .ok (0, { p with sz }, m)
  else if n.toInt < 0 then
    match uvmdealloc kend p.pagetable p.sz (p.sz + n.signExtend 64) m with
    | .error why => .error why
    | .ok (sz, m) => .ok (0, { p with sz }, m)
  else .ok (0, p, m)

def sysSbrk (kend : Word) (n : BitVec 32) (p : Proc) (m : Memory) :
    Except Panic (Word × Proc × Memory) :=
  match growproc kend n p m with
  | .error why => .error why
  | .ok (r, p', m) => .ok (if r < 0 then -1 else p.sz, p', m)

/-- The address space of a process: the pages below its size are page frames of its own, and
above them nothing is mapped up to the trapframe. -/
structure User (kend : Word) (m : Memory) (p : Proc) : Prop extends Space m p.pagetable p.sz where
  owned : ∀ va pa fl, Aligned va → va < p.sz → lookup m p.pagetable va = some (pa, fl) →
    Freeable kend pa
  distinct : ∀ va va' pa fl fl', Aligned va → Aligned va' → va < p.sz → va' < p.sz →
    lookup m p.pagetable va = some (pa, fl) → lookup m p.pagetable va' = some (pa, fl') → va = va'
  gap : ∀ va, Aligned va → p.sz ≤ va → va < TRAPFRAME → lookup m p.pagetable va = none

variable {p : Proc}

theorem toNat_nth_zero {k : Nat} (small : k * 4096 < 2 ^ 64) : (nth 0 k).toNat = k * 4096 := by
  rw [toNat_nth, show (0 : Word).toNat = 0 from rfl]
  omega

theorem User.sz_le (user : User kend m p) : p.sz.toNat ≤ PHYSTOP.toNat := by
  by_contra large
  have top : PHYSTOP.toNat = 557056 * 4096 := rfl
  have low : ∀ k < 557057, nth 0 k < p.sz ∧ nth 0 k < MAXVA := by
    intro k bound
    rw [lt_MAXVA, lt_def, toNat_nth_zero (by omega)]
    omega
  choose! frame flag mapped using fun k (bound : k < 557057) =>
    user.mapped (nth 0 k) (aligned_nth (by decide) k) (low k bound).2 (low k bound).1
  have number : ∀ k < 557057, (frame k).toNat / 4096 < 557056 := by
    intro k bound
    have below :=
      (user.owned _ _ _ (aligned_nth (by decide) k) (low k bound).1 (mapped k bound).1).2
    rw [lt_def] at below
    omega
  obtain ⟨k, first, l, second, apart, same⟩ := Finset.exists_ne_map_eq_of_card_lt_of_maps_to
    (s := Finset.range 557057) (t := Finset.range 557056) (by simp)
    (f := fun k => (frame k).toNat / 4096) (by simpa [Set.MapsTo] using number)
  rw [Finset.mem_range] at first second
  obtain ⟨_, -, -, is, -⟩ := entry_of_lookup (mapped k first).1
  obtain ⟨_, -, -, is', -⟩ := entry_of_lookup (mapped l second).1
  have aligned := aligned_iff.mp (is ▸ aligned_PTE2PA _)
  have aligned' := aligned_iff.mp (is' ▸ aligned_PTE2PA _)
  have equal : frame k = frame l := by
    rw [← BitVec.toNat_inj]
    omega
  have pages := user.distinct _ _ _ _ _ (aligned_nth (by decide) k) (aligned_nth (by decide) l)
    (low k first).1 (low l second).1 (mapped k first).1 (equal ▸ (mapped l second).1)
  have value := congrArg BitVec.toNat pages
  rw [toNat_nth_zero (by omega), toNat_nth_zero (by omega)] at value
  omega

/-- The sum of the size and an `int`, as the machine computes it. -/
theorem toNat_add_signExtend (sz : Word) (n : BitVec 32) :
    ((sz + n.signExtend 64).toNat : Int) = (sz.toNat + n.toInt) % 2 ^ 64 := by
  have wide : (n.signExtend 64).toInt = n.toInt := BitVec.toInt_signExtend_of_le (by decide)
  have value := BitVec.toInt_eq_toNat_cond (n.signExtend 64)
  rw [wide] at value
  rw [BitVec.toNat_add]
  split at value <;> omega

theorem User.uvmalloc_ok (user : User kend m p) (ok : m.Ok)
    (freeable : ∀ page ∈ m.free, Freeable kend page) (newsz : Word) (grows : p.sz ≤ newsz)
    (below : newsz < TRAPFRAME) :
    ∃ r m', uvmalloc kend p.pagetable p.sz newsz PTE_W m = .ok (r, m') ∧ (r = newsz ∨ r = 0) ∧
      (r = 0 → ∀ va, Aligned va → va < MAXVA → view m' p.pagetable va = view m p.pagetable va) := by
  have outcome := (out_of_memory_rolls_back ok freeable).1 p.pagetable p.sz newsz PTE_W
    user.toSpace grows (by decide)
  have trapframe : TRAPFRAME.toNat = 2 ^ 38 - 8192 := rfl
  have size := user.sz_le
  rw [lt_def] at below
  cases called : uvmalloc kend p.pagetable p.sz newsz PTE_W m with
  | error why =>
    rw [called] at outcome
    obtain ⟨k, whole, inside, blocked⟩ := outcome
    have rounded := toNat_PGROUNDUP p.sz
    have top : PHYSTOP.toNat = 557056 * 4096 := rfl
    have place := toNat_nth (PGROUNDUP p.sz) k
    rw [lt_def] at inside
    rcases blocked with high | mapped
    · rw [← BitVec.not_lt, lt_MAXVA] at high
      omega
    · refine absurd (user.gap _ (aligned_nth (aligned_PGROUNDUP _) k) ?_ ?_) mapped
      · rw [le_def]
        omega
      · rw [lt_def]
        omega
  | ok result =>
    obtain ⟨r, m'⟩ := result
    rw [called] at outcome
    exact ⟨r, m', rfl, outcome.1, fun zero => (outcome.2 zero).2⟩

theorem User.uvmdealloc_ok (user : User kend m p) (newsz : Word) (shrinks : newsz < p.sz) :
    ∃ m', uvmdealloc kend p.pagetable p.sz newsz m = .ok (newsz, m') := by
  have size := user.sz_le
  have top : PHYSTOP.toNat = 557056 * 4096 := rfl
  have old := toNat_PGROUNDUP p.sz
  have new := toNat_PGROUNDUP newsz
  rw [lt_def] at shrinks
  unfold uvmdealloc
  rw [if_neg (by rw [ge_iff_le, le_def]; omega)]
  split
  case isFalse => exact ⟨m, rfl⟩
  case isTrue less =>
    rw [lt_def] at less
    have count : ((PGROUNDUP p.sz - PGROUNDUP newsz) / PGSIZE).toNat =
        ((PGROUNDUP p.sz).toNat - (PGROUNDUP newsz).toNat) / 4096 := by
      rw [BitVec.toNat_udiv, BitVec.toNat_sub, toNat_PGSIZE]
      omega
    have low : ∀ k < ((PGROUNDUP p.sz - PGROUNDUP newsz) / PGSIZE).toNat,
        nth (PGROUNDUP newsz) k < p.sz ∧ nth (PGROUNDUP newsz) k < MAXVA := by
      intro k bound
      rw [lt_MAXVA, lt_def, toNat_nth]
      omega
    choose! frame flag mapped using fun k bound => user.mapped (nth (PGROUNDUP newsz) k)
      (aligned_nth (aligned_PGROUNDUP _) k) (low k bound).2 (low k bound).1
    rw [asInt_eq (by omega)]
    obtain ⟨m', done, -⟩ :=
      uvmunmap_ok kend ((PGROUNDUP p.sz - PGROUNDUP newsz) / PGSIZE) frame flag
      true user.table.distinct (aligned_PGROUNDUP newsz) (by omega) mapped fun _ k bound =>
        ⟨user.owned _ _ _ (aligned_nth (aligned_PGROUNDUP _) k) (low k bound).1 (mapped k bound).1,
          (user.frames _ _ _ (aligned_nth (aligned_PGROUNDUP _) k) (low k bound).2
            (mapped k bound).1).2⟩
    simp only [done]
    exact ⟨m', rfl⟩

/-- `sys_sbrk` means what it returns: -1 and nothing has changed, or the old size and the
process has grown by `n` bytes. -/
def SbrkMeans (kend : Word) (n : BitVec 32) (p : Proc) (m : Memory) : Prop :=
  match sysSbrk kend n p m with
  | .error _ => False
  | .ok (r, p', m') =>
    r = -1 ∧ p' = p ∧
        (∀ va, Aligned va → va < MAXVA → view m' p.pagetable va = view m p.pagetable va) ∨
      r = p.sz ∧ (p'.sz.toNat : Int) = p.sz.toNat + n.toInt

/-- **`sys_sbrk` means what it returns exactly if the new size is not negative.** -/
theorem sbrk_means_iff (ok : m.Ok) (freeable : ∀ page ∈ m.free, Freeable kend page)
    (user : User kend m p) (n : BitVec 32) :
    SbrkMeans kend n p m ↔ 0 ≤ p.sz.toNat + n.toInt := by
  have size := user.sz_le
  have top : PHYSTOP.toNat = 557056 * 4096 := rfl
  have trapframe : TRAPFRAME.toNat = 2 ^ 38 - 8192 := rfl
  have sum := toNat_add_signExtend p.sz n
  have high := BitVec.toInt_lt (x := n)
  have low := BitVec.le_toInt n
  unfold SbrkMeans sysSbrk growproc
  rcases lt_trichotomy n.toInt 0 with shrinks | zero | grows
  · rw [if_neg (by omega), if_pos shrinks]
    by_cases fits : 0 ≤ p.sz.toNat + n.toInt
    · obtain ⟨m', done⟩ := user.uvmdealloc_ok (p.sz + n.signExtend 64) (by
        rw [BitVec.lt_def]
        omega)
      simp only [done, fits, iff_true]
      exact .inr ⟨rfl, by omega⟩
    · -- the sum wraps around, and there is nothing to do
      have done : uvmdealloc kend p.pagetable p.sz (p.sz + n.signExtend 64) m = .ok (p.sz, m) :=
        if_pos (by rw [ge_iff_le, BitVec.le_def]; omega)
      simp only [done, fits, iff_false]
      rintro (⟨failed, -⟩ | ⟨-, size'⟩)
      · have value := congrArg BitVec.toNat failed
        simp at value
        omega
      · omega
  · rw [if_neg (by omega), if_neg (by omega)]
    simp only [zero, add_zero, Int.natCast_nonneg, iff_true]
    exact .inr ⟨rfl, trivial⟩
  · obtain ⟨r, m', done, result, same⟩ := user.uvmalloc_ok ok freeable
      (p.sz + n.signExtend 64) (by rw [BitVec.le_def]; omega)
      (by rw [BitVec.lt_def]; omega)
    simp only [if_pos grows, done, show 0 ≤ p.sz.toNat + n.toInt by omega, iff_true]
    by_cases zero : r = 0
    · rw [if_pos zero]
      exact .inl ⟨rfl, rfl, same zero⟩
    · rw [if_neg zero, result.resolve_right zero]
      exact .inr ⟨rfl, show ((p.sz + n.signExtend 64).toNat : Int) = _ by omega⟩

theorem user_paged : User KERNBASE paged ⟨8192, 0x80001000⟩ := by
  have top : ∀ va, va < (8192 : Word) → va < MAXVA := fun va below =>
    BitVec.lt_trans below (by decide)
  refine ⟨space_paged, fun va pa fl aligned below found => ?_, ?_, fun va aligned above below => ?_⟩
  · rcases lookup_paged aligned (top va below) found with ⟨-, rfl⟩ | ⟨-, rfl⟩ <;>
      exact ⟨by decide, by decide⟩
  · intro va va' pa fl fl' aligned aligned' below below' found found'
    rcases lookup_paged aligned (top va below) found with ⟨rfl, rfl⟩ | ⟨rfl, rfl⟩ <;>
      rcases lookup_paged aligned' (top va' below') found' with
        ⟨rfl, same⟩ | ⟨rfl, same⟩ <;> first | rfl | exact absurd same (by decide)
  · cases found : lookup paged 0x80001000 va with
    | none => rfl
    | some entry =>
      obtain ⟨pa, fl⟩ := entry
      have low : va < MAXVA := BitVec.lt_trans below (by decide)
      rcases lookup_paged aligned low found with
        ⟨rfl, -⟩ | ⟨rfl, -⟩ <;> exact absurd above (by decide)

/-- One page is given back, and there is no memory for four more. -/
theorem sbrk_means_iff_paged : SbrkMeans KERNBASE (-4096) ⟨8192, 0x80001000⟩ paged ∧
    SbrkMeans KERNBASE 16384 ⟨8192, 0x80001000⟩ paged ∧
    (sysSbrk KERNBASE (-4096) ⟨8192, 0x80001000⟩ paged).toOption.map Prod.fst = some 8192 ∧
    (sysSbrk KERNBASE 16384 ⟨8192, 0x80001000⟩ paged).toOption.map Prod.fst = some (-1) := by
  have freeable : ∀ page ∈ paged.free, Freeable KERNBASE page :=
    freeable_of_all (by decide +kernel)
  refine ⟨?_, ?_, by decide +kernel, by decide +kernel⟩
  · rw [sbrk_means_iff mapped_paged.ok freeable user_paged]
    decide
  · rw [sbrk_means_iff mapped_paged.ok freeable user_paged]
    decide

/-- A process of two pages that gives back three keeps its pages, and is told that it has not. -/
theorem sbrk_below_zero : User KERNBASE paged ⟨8192, 0x80001000⟩ ∧
    (∀ kend root m, sysSbrk kend (-12288) ⟨8192, root⟩ m = .ok (8192, ⟨8192, root⟩, m)) ∧
    ¬ SbrkMeans KERNBASE (-12288) ⟨8192, 0x80001000⟩ paged := by
  have kept : ∀ kend root m, sysSbrk kend (-12288) ⟨8192, root⟩ m =
      .ok (8192, ⟨8192, root⟩, m) := by
    intro kend root m
    have done : uvmdealloc kend root 8192 (8192 + (-12288 : BitVec 32).signExtend 64) m =
        .ok (8192, m) := if_pos (by decide)
    simp only [sysSbrk, growproc]
    rw [if_neg (by decide), if_pos (by decide), done]
    rfl
  refine ⟨user_paged, kept, ?_⟩
  rw [SbrkMeans, kept]
  rintro (⟨failed, -⟩ | ⟨-, size⟩)
  · exact absurd failed (by decide)
  · exact absurd size (by decide)

end Xv6.Vm
