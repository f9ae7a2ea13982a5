import Mathlib.Data.Fintype.Card

/-!
# Threads and the places where they are

A system of threads that each are at a place of their code. Which threads are inside
a part of the code is a set of places: for a lock it has at most the thread that
holds the lock (`Locked`), and for a counter it has as many threads as the counter
says (`inside`).
-/

namespace Xv6

open Function

universe u v

variable {P : Type u} {π : Type v} [DecidableEq P] {part : π → Bool} {place : P → π} {p : P}
  {new : π}

/-- The lock is held by the thread that is inside, if there is one. -/
def Locked (part : π → Bool) (lock : Option P) (place : P → π) : Prop :=
  ∀ p, lock = some p ↔ part (place p) = true

namespace Locked

variable {lock : Option P}

section

variable (locked : Locked part lock place)
include locked

theorem inside (here : part (place p) = true) : lock = some p :=
  (locked p).mpr here

theorem unique {q : P} (here : part (place p) = true) (there : part (place q) = true) : p = q :=
  Option.some.inj ((locked.inside here).symm.trans (locked.inside there))

theorem outside (free : lock = none) (q : P) : part (place q) = false := by
  rw [Bool.eq_false_iff, Ne, ← locked q, free]
  nofun

theorem enter (free : lock = none) (here : part new = true) :
    Locked part (some p) (update place p new) := by
  intro q
  by_cases same : q = p
  · subst same
    simp [here]
  · simp [same, Ne.symm same, locked.outside free q]

theorem leave (before : part (place p) = true)
    (after : part new = false) : Locked part none (update place p new) := by
  intro q
  by_cases same : q = p
  · subst same
    simp [after]
  · have apart : part (place q) ≠ true := fun there => same (locked.unique there before)
    simp [same, apart]

theorem stay (same : part new = part (place p)) : Locked part lock (update place p new) := by
  intro q
  by_cases here : q = p
  · subst here
    rw [update_self, same]
    exact locked q
  · rw [update_of_ne here]
    exact locked q

end

end Locked

section Count

variable [Fintype P]

def inside (part : π → Bool) (place : P → π) : Finset P :=
  Finset.univ.filter fun p => part (place p) = true

@[simp] theorem mem_inside : p ∈ inside part place ↔ part (place p) = true := by
  simp [inside]

theorem inside_enter (after : part new = true) :
    inside part (update place p new) = insert p (inside part place) := by
  ext q
  by_cases same : q = p
  · subst same
    simp [after]
  · simp [same]

theorem inside_leave (after : part new = false) :
    inside part (update place p new) = (inside part place).erase p := by
  ext q
  by_cases same : q = p
  · subst same
    simp [after]
  · simp [same]

theorem inside_stay (same : part new = part (place p)) :
    inside part (update place p new) = inside part place := by
  ext q
  by_cases here : q = p
  · subst here
    simp [same]
  · simp [here]

theorem card_inside_enter (before : part (place p) = false) (after : part new = true) :
    (inside part (update place p new)).card = (inside part place).card + 1 := by
  rw [inside_enter after, Finset.card_insert_of_notMem]
  simp [before]

theorem card_inside_leave (before : part (place p) = true) (after : part new = false) :
    (inside part (update place p new)).card + 1 = (inside part place).card := by
  rw [inside_leave after]
  exact Finset.card_erase_add_one (mem_inside.mpr before)

theorem card_inside_pos (here : part (place p) = true) : 0 < (inside part place).card :=
  Finset.card_pos.mpr ⟨p, mem_inside.mpr here⟩

end Count

end Xv6
