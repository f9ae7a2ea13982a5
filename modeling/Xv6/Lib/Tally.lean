import Mathlib.Algebra.BigOperators.Ring.Finset
import Mathlib.Data.Fintype.BigOperators
import Mathlib.Algebra.Order.BigOperators.Group.Finset

/-!
# Tallies

Counting the holders of a thing. A table has a number of entries, and each holds the
thing some number of times. When one entry changes, the total changes by as much as that
entry does. A tally is the number of slots that have a value.
-/

namespace Xv6

open Function

universe u v

variable {ι : Type u} [Fintype ι] [DecidableEq ι] {α : Type v}

theorem sum_update (table : ι → α) (measure : α → Nat) (i : ι) (new : α) :
    ∑ j, measure (update table i new j) + measure (table i) =
      ∑ j, measure (table j) + measure new := by
  have rest : ∑ j ∈ Finset.univ.erase i, measure (update table i new j) =
      ∑ j ∈ Finset.univ.erase i, measure (table j) :=
    Finset.sum_congr rfl fun j mem => by
      rw [update_of_ne (Finset.ne_of_mem_erase mem)]
  rw [← Finset.add_sum_erase _ _ (Finset.mem_univ i), rest, update_self,
    ← Finset.add_sum_erase _ (fun j => measure (table j)) (Finset.mem_univ i)]
  omega

theorem le_sum (table : ι → α) (measure : α → Nat) (i : ι) :
    measure (table i) ≤ ∑ j, measure (table j) := by
  rw [← Finset.add_sum_erase _ (fun j => measure (table j)) (Finset.mem_univ i)]
  exact Nat.le_add_right ..

section Slots

variable [DecidableEq α]

/-- The number of slots that hold a value. -/
@[irreducible]
def tally (slots : ι → Option α) (value : α) : Nat :=
  ∑ i, if slots i = some value then 1 else 0

theorem tally_update (slots : ι → Option α) (i : ι) (new : Option α) (value : α) :
    tally (update slots i new) value + (if slots i = some value then 1 else 0) =
      tally slots value + if new = some value then 1 else 0 := by
  unfold tally
  exact sum_update slots (fun slot => if slot = some value then 1 else 0) i new

theorem tally_pos {slots : ι → Option α} {i : ι} {value : α} (here : slots i = some value) :
    0 < tally slots value := by
  unfold tally
  refine Nat.lt_of_lt_of_le ?_ (le_sum slots (fun slot => if slot = some value then 1 else 0) i)
  rw [if_pos here]
  exact Nat.one_pos

omit [DecidableEq ι] in
theorem tally_none (value : α) : tally (fun _ : ι => none) value = 0 := by
  simp [tally]

end Slots

end Xv6
