import Mathlib.Data.Nat.ModEq
import Mathlib.Tactic.Ring

/-!
# Arrays of bytes

`Bytes n` is an array of `n` bytes. A range of it is read as a list (`slice`)
and overwritten by a list (`writeAt`); a read sees a write to the same range
(`slice_writeAt_self`) and none to a disjoint one (`slice_writeAt_of_disjoint`).

Unsigned numbers are stored with the low byte first. `toLE k v` is the list of
the `k` low bytes of `v` and `ofLE` reads a list back (`ofLE_toLE`).
-/

namespace Xv6

def Bytes (n : Nat) : Type := Fin n → UInt8

variable {i k v : Nat} {pos : Nat}

namespace Bytes

variable {n : Nat}

instance : Inhabited (Bytes n) := ⟨fun _ => 0⟩

/-- The byte at a position, zero past the end. -/
def get (bytes : Bytes n) (i : Nat) : UInt8 := if h : i < n then bytes ⟨i, h⟩ else 0

/-- The array whose bytes are the values of a function. -/
def ofFn (f : Nat → UInt8) : Bytes n := fun i => f i

/-- The array of zeros, as `memset` makes it. -/
def zero (n : Nat) : Bytes n := fun _ => 0

theorem get_of_lt {bytes : Bytes n} (bound : i < n) :
    bytes.get i = bytes ⟨i, bound⟩ := dif_pos bound

theorem get_of_le {bytes : Bytes n} (past : n ≤ i) : bytes.get i = 0 :=
  dif_neg (by omega)

@[simp] theorem get_ofFn {f : Nat → UInt8} (bound : i < n) :
    (ofFn f : Bytes n).get i = f i := get_of_lt bound

@[simp] theorem get_zero (i : Nat) : (zero n).get i = 0 := by
  unfold get
  split <;> rfl

/-- The bytes from `off` on, `len` of them. -/
def slice (bytes : Bytes n) (off len : Nat) : List UInt8 :=
  (List.range len).map fun i => bytes.get (off + i)

/-- Overwrite the bytes from `off` on with a list. -/
def writeAt (bytes : Bytes n) (off : Nat) (data : List UInt8) : Bytes n :=
  ofFn fun i => if off ≤ i ∧ i < off + data.length then data.getD (i - off) 0 else bytes.get i

section

variable (bytes : Bytes n)
include bytes

@[simp] theorem length_slice (off len : Nat) : (bytes.slice off len).length = len := by
  simp [slice]

theorem getElem?_slice (off len i : Nat) :
    (bytes.slice off len)[i]? = if i < len then some (bytes.get (off + i)) else none := by
  unfold slice
  split
  next bound => simp [bound]
  next past => simp; omega

theorem get_writeAt (off : Nat) (data : List UInt8) (bound : i < n) :
    (bytes.writeAt off data).get i =
      if off ≤ i ∧ i < off + data.length then data.getD (i - off) 0 else bytes.get i :=
  get_ofFn bound

theorem get_writeAt_of_disjoint (off : Nat) (data : List UInt8)
    (apart : i < off ∨ off + data.length ≤ i) : (bytes.writeAt off data).get i = bytes.get i := by
  by_cases bound : i < n
  · rw [get_writeAt _ _ _ bound, if_neg (by omega)]
  · rw [get_of_le (by omega), get_of_le (by omega)]

theorem slice_writeAt_self (off : Nat) (data : List UInt8) (fits : off + data.length ≤ n) :
    (bytes.writeAt off data).slice off data.length = data := by
  apply List.ext_getElem?
  intro i
  rw [getElem?_slice]
  split
  next bound =>
    rw [get_writeAt _ _ _ (by omega), if_pos (by omega), Nat.add_sub_cancel_left,
      List.getD_eq_getElem?_getD, List.getElem?_eq_getElem bound]
    rfl
  next past => rw [List.getElem?_eq_none (by omega)]

theorem slice_writeAt_of_disjoint (off : Nat) (data : List UInt8)
    {len : Nat} (apart : pos + len ≤ off ∨ off + data.length ≤ pos) :
    (bytes.writeAt off data).slice pos len = bytes.slice pos len := by
  unfold slice
  apply List.map_congr_left
  intro i mem
  have := List.mem_range.mp mem
  exact get_writeAt_of_disjoint _ _ _ (by omega)

end

theorem slice_zero (off len : Nat) : (zero n).slice off len = List.replicate len 0 := by
  unfold slice
  simp only [get_zero, List.map_const', List.length_range]

end Bytes

/-! ## Numbers, low byte first -/

/-- The `k` low bytes of a number, low byte first. -/
def toLE : Nat → Nat → List UInt8
  | 0, _ => []
  | k + 1, v => UInt8.ofNat v :: toLE k (v / 256)

/-- The number a list of bytes stands for. -/
def ofLE : List UInt8 → Nat
  | [] => 0
  | byte :: rest => byte.toNat + 256 * ofLE rest

@[simp] theorem length_toLE (k v : Nat) : (toLE k v).length = k := by
  induction k generalizing v with
  | zero => rfl
  | succ k ih => simp [toLE, ih]

theorem ofLE_toLE (k v : Nat) : ofLE (toLE k v) = v % 256 ^ k := by
  induction k generalizing v with
  | zero => simp [toLE, ofLE, Nat.mod_one]
  | succ k ih =>
    have low : (UInt8.ofNat v).toNat = v % 256 := by simp
    rw [toLE, ofLE, ih, low, pow_succ', Nat.mod_mul]

theorem ofLE_toLE_of_lt (bound : v < 256 ^ k) : ofLE (toLE k v) = v := by
  rw [ofLE_toLE, Nat.mod_eq_of_lt bound]

/-- The pieces of a list that is put together from pieces of one length. -/
theorem take_drop_flatMap {α β : Type} {f : α → List β} (values : List α)
    (length : ∀ a, (f a).length = k) (bound : i < values.length) :
    ((values.flatMap f).drop (k * i)).take k = f values[i] := by
  induction values generalizing i with
  | nil => cases bound
  | cons a rest ih =>
    cases i with
    | zero => simp [← length a]
    | succ i =>
      have shift : k * (i + 1) = (f a).length + k * i := by
        rw [length]
        ring
      rw [List.flatMap_cons, shift, List.drop_append, List.drop_eq_nil_of_le (by omega),
        Nat.add_sub_cancel_left, List.nil_append]
      exact ih (Nat.lt_of_succ_lt_succ bound)

@[simp] theorem ofLE_replicate_zero (k : Nat) : ofLE (List.replicate k 0) = 0 := by
  induction k with
  | zero => rfl
  | succ k ih => simp [List.replicate_succ, ofLE, ih]

namespace Bytes

variable {n : Nat} {off : Nat}

/-- The number in the `k` bytes at an offset. -/
def getLE (bytes : Bytes n) (k off : Nat) : Nat := ofLE (bytes.slice off k)

/-- Store the `k` low bytes of a number at an offset. -/
def setLE (bytes : Bytes n) (k off v : Nat) : Bytes n := bytes.writeAt off (toLE k v)

theorem getLE_setLE_self (bytes : Bytes n) (fits : off + k ≤ n)
    (bound : v < 256 ^ k) : (bytes.setLE k off v).getLE k off = v := by
  have := slice_writeAt_self bytes off (toLE k v) (by simpa using fits)
  rw [length_toLE] at this
  rw [getLE, setLE, this, ofLE_toLE_of_lt bound]

theorem getLE_setLE_of_disjoint (bytes : Bytes n) {l : Nat}
    (apart : pos + l ≤ off ∨ off + k ≤ pos) :
    (bytes.setLE k off v).getLE l pos = bytes.getLE l pos := by
  rw [getLE, setLE, slice_writeAt_of_disjoint _ _ _ (by simpa using apart), getLE]

@[simp] theorem getLE_zero (k off : Nat) : (zero n).getLE k off = 0 := by
  rw [getLE, slice_zero, ofLE_replicate_zero]

end Bytes

end Xv6
