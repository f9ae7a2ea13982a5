import Mathlib.Data.Fin.Basic
import Mathlib.Data.List.Basic
import Mathlib.Data.Nat.ModEq

/-!
# Rings with free-running counters

A ring of `size` slots with two counters of `w` bits that are never reduced:
the next value is stored at `nwrite % size`, the oldest one is at
`nread % size`, and the counters wrap at `2 ^ w`. The ring is full when
`nwrite = nread + size` in the arithmetic of the counters.

When `size` divides `2 ^ w` and is smaller, the ring is a queue of at most
`size` values whatever the counters are (`Holds`).
-/

namespace Xv6

open Function

/-- A ring of `size` slots with counters of `w` bits. -/
structure Ring (w size : Nat) (α : Type) where
  data : Fin size → α
  nread : BitVec w
  nwrite : BitVec w

namespace Ring

variable {w size : Nat} {α : Type} [NeZero size]

/-- The slot of a value of a counter. -/
def slot (counter : BitVec w) : Fin size := Fin.ofNat size counter.toNat

def Empty (r : Ring w size α) : Prop := r.nread = r.nwrite

def Full (r : Ring w size α) : Prop := r.nwrite = r.nread + BitVec.ofNat w size

instance (r : Ring w size α) : Decidable r.Empty :=
  inferInstanceAs (Decidable (r.nread = r.nwrite))

instance (r : Ring w size α) : Decidable r.Full :=
  inferInstanceAs (Decidable (r.nwrite = r.nread + BitVec.ofNat w size))

/-- `data[nwrite++ % size] = value` -/
def push (r : Ring w size α) (value : α) : Ring w size α :=
  { r with
    data := update r.data (slot r.nwrite) value
    nwrite := r.nwrite + 1 }

/-- The value of `data[nread % size]`. -/
def front (r : Ring w size α) : α := r.data (slot r.nread)

/-- `nread++` -/
def pop (r : Ring w size α) : Ring w size α := { r with nread := r.nread + 1 }

/-- The value of `data[(nwrite - 1) % size]`. -/
def last (r : Ring w size α) : α := r.data (slot (r.nwrite - 1))

/-- `nwrite--` -/
def unpush (r : Ring w size α) : Ring w size α := { r with nwrite := r.nwrite - 1 }

/-- The values of the ring are `buffer`, oldest first. -/
structure Holds (r : Ring w size α) (buffer : List α) : Prop where
  length_le : buffer.length ≤ size
  count : r.nwrite = r.nread + BitVec.ofNat w buffer.length
  stored : ∀ (j : Nat) (bound : j < buffer.length),
    r.data (slot (r.nread + BitVec.ofNat w j)) = buffer[j]

/-- Reducing a counter modulo `2 ^ w` does not move its slot. -/
theorem slot_add (divides : size ∣ 2 ^ w) (counter : BitVec w) (j : Nat) :
    (slot (counter + BitVec.ofNat w j) : Fin size) = Fin.ofNat size (counter.toNat + j) := by
  apply Fin.ext
  simp only [slot, Fin.val_ofNat, BitVec.toNat_add, BitVec.toNat_ofNat]
  rw [Nat.mod_mod_of_dvd _ divides, Nat.add_mod, Nat.mod_mod_of_dvd _ divides, ← Nat.add_mod]

/-- Offsets that differ by less than the size have different slots. -/
theorem slot_add_ne (divides : size ∣ 2 ^ w) (counter : BitVec w) {j k : Nat} (before : j < k)
    (room : k < size) :
    (slot (counter + BitVec.ofNat w j) : Fin size) ≠ slot (counter + BitVec.ofNat w k) := by
  rw [slot_add divides, slot_add divides]
  intro same
  have residues : counter.toNat + j ≡ counter.toNat + k [MOD size] := by
    simpa [Nat.ModEq] using congrArg Fin.val same
  have apart := (Nat.ModEq.add_left_cancel' _ residues).eq_of_lt_of_lt (before.trans room) room
  omega

theorem succ_add_ofNat (counter : BitVec w) (j : Nat) :
    counter + 1 + BitVec.ofNat w j = counter + BitVec.ofNat w (j + 1) := by
  rw [BitVec.ofNat_add, BitVec.add_assoc]
  exact congrArg (counter + ·) (BitVec.add_comm _ _)

theorem holds_nil (data : Fin size → α) (counter : BitVec w) :
    Holds { data, nread := counter, nwrite := counter } [] where
  length_le := Nat.zero_le _
  count := by simp
  stored := fun j bound => absurd bound (Nat.not_lt_zero j)

namespace Holds

variable {r : Ring w size α} {buffer : List α} {value : α}

section

variable (holds : r.Holds buffer)

include holds

theorem toNat_sub (bounded : size < 2 ^ w) : (r.nwrite - r.nread).toNat = buffer.length := by
  have small := holds.length_le
  rw [holds.count, BitVec.add_comm, BitVec.add_sub_cancel, BitVec.toNat_ofNat,
    Nat.mod_eq_of_lt (by omega)]

theorem full_iff (bounded : size < 2 ^ w) : r.Full ↔ buffer.length = size := by
  have small := holds.length_le
  rw [Full, holds.count, BitVec.add_right_inj]
  constructor
  · intro same
    have values := congrArg BitVec.toNat same
    rwa [BitVec.toNat_ofNat, BitVec.toNat_ofNat, Nat.mod_eq_of_lt (by omega),
      Nat.mod_eq_of_lt bounded] at values
  · intro same
    rw [same]

theorem empty_iff (bounded : size < 2 ^ w) : r.Empty ↔ buffer = [] := by
  have count := holds.toNat_sub bounded
  constructor
  · intro empty
    rw [Empty] at empty
    rw [empty, BitVec.sub_self, BitVec.toNat_zero] at count
    exact List.eq_nil_of_length_eq_zero count.symm
  · rintro rfl
    simpa [Empty] using holds.count.symm

section

variable (divides : size ∣ 2 ^ w) (room : buffer.length < size)
include divides room

theorem push (value : α) : (r.push value).Holds (buffer ++ [value]) where
  length_le := by
    rw [List.length_append, List.length_singleton]
    exact room
  count := by
    simp only [Ring.push, List.length_append, List.length_singleton, holds.count]
    rw [BitVec.ofNat_add, BitVec.add_assoc]
    rfl
  stored := by
    intro j bound
    simp only [Ring.push, holds.count]
    rcases Nat.lt_or_ge j buffer.length with old | last
    · rw [update_of_ne (slot_add_ne divides _ old room), holds.stored j old,
        List.getElem_append_left old]
    · obtain rfl : j = buffer.length := by
        simp only [List.length_append, List.length_singleton] at bound
        omega
      simp

/-- The slot that is written next holds no value while there is room. -/
theorem write (value : α) :
    Holds { r with data := update r.data (slot r.nwrite) value } buffer where
  length_le := holds.length_le
  count := holds.count
  stored := by
    intro j bound
    simp only [holds.count]
    rw [update_of_ne (slot_add_ne divides _ bound room), holds.stored j bound]

/-- Moving `nwrite` on adds the value that was written there. -/
theorem publish
    (written : r.data (slot r.nwrite) = value) :
    Holds { r with nwrite := r.nwrite + 1 } (buffer ++ [value]) := by
  subst written
  have pushed := holds.push divides room (r.data (slot r.nwrite))
  rwa [Ring.push, update_eq_self] at pushed

end

end

/-- The front of a ring with values is the oldest, and it is gone once `nread`
moves on. -/
theorem pop (holds : r.Holds (value :: buffer)) : r.front = value ∧ r.pop.Holds buffer := by
  refine ⟨?_, Nat.le_of_succ_le holds.length_le, ?_, ?_⟩
  · have oldest := holds.stored 0 (by simp)
    simpa only [front, BitVec.ofNat_eq_ofNat, BitVec.add_zero, List.getElem_cons_zero] using oldest
  · exact holds.count.trans (succ_add_ofNat r.nread buffer.length).symm
  · intro j bound
    have next := holds.stored (j + 1) (Nat.succ_lt_succ bound)
    exact (congrArg (fun counter => r.data (slot counter)) (succ_add_ofNat r.nread j)).trans next

/-- The last value of a ring is the newest, and it is gone once `nwrite` moves back. -/
theorem unpush (holds : r.Holds (buffer ++ [value])) : r.last = value ∧ r.unpush.Holds buffer := by
  have length : (buffer ++ [value]).length = buffer.length + 1 := by simp
  have before : r.nwrite - 1 = r.nread + BitVec.ofNat w buffer.length := by
    rw [holds.count, length, BitVec.ofNat_add, ← BitVec.add_assoc]
    exact BitVec.add_sub_cancel ..
  refine ⟨?_, ?_, before, ?_⟩
  · rw [last, before, holds.stored buffer.length (by simp)]
    simp
  · have := holds.length_le
    omega
  · intro j bound
    have kept := holds.stored j (by omega)
    rw [List.getElem_append_left bound] at kept
    exact kept

end Holds

end Ring

end Xv6
