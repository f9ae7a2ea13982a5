import Xv6.Fs.Dir

/-!
# What an inode stands for

A `Node` is an inode with the blocks that belong to it: its on-disk fields, and
at each position a block number and the contents of that block. The positions
are the entries of `addrs`, the indirect block among them at `NDIRECT`, and then
the entries of the indirect block.
-/

namespace Xv6.Fs

open Function

/-- The position of a block of the content. -/
def posOf (bn : Nat) : Nat := if bn < NDIRECT then bn else bn + 1

theorem posOf_ne_indirect (bn : Nat) : posOf bn ≠ NDIRECT := by
  unfold posOf
  split <;> omega

theorem posOf_injective : Function.Injective posOf := by
  intro bn bm same
  unfold posOf at same
  split at same <;> split at same <;> omega

@[ext] structure Node where
  d : Dinode
  slots : Nat → Nat
  data : Nat → Block

namespace Node

variable (n : Node) {pos other off : Nat} {len : Nat} {list : List UInt8}

def size : Nat := n.d.size.toNat

def byte (off : Nat) : UInt8 := (n.data (posOf (off / BSIZE))).get (off % BSIZE)

def bytes (off len : Nat) : List UInt8 := (List.range len).map fun i => n.byte (off + i)

/-- **The content of a file.** -/
def content : List UInt8 := n.bytes 0 n.size

def dirent (k : Nat) : Dirent := .ofBytes (n.bytes (DIRENT * k) DIRENT)

def count : Nat := n.size / DIRENT

/-! ## Changes -/

/-- Another block at a position. -/
def put (pos b : Nat) (block : Block) : Node :=
  { n with slots := update n.slots pos b, data := update n.data pos block }

def drop (pos : Nat) : Node := n.put pos 0 (n.data pos)

/-- No blocks at all, as `itrunc` leaves an inode. -/
def emptied : Node :=
  ⟨{ n.d with size := 0, addrs := fun _ => 0 }, fun _ => 0, n.data⟩

def setD (f : Dinode → Dinode) : Node := { n with d := f n.d }

variable {n}

@[simp] theorem d_put (pos b : Nat) (block : Block) : (n.put pos b block).d = n.d := rfl

@[simp] theorem slots_put_self (pos b : Nat) (block : Block) :
    (n.put pos b block).slots pos = b := update_self ..

@[simp] theorem data_put_self (pos b : Nat) (block : Block) :
    (n.put pos b block).data pos = block := update_self ..

theorem slots_put_ne (apart : other ≠ pos) (b : Nat) (block : Block) :
    (n.put pos b block).slots other = n.slots other := update_of_ne apart ..

theorem data_put_of_ne (apart : other ≠ pos) (b : Nat) (block : Block) :
    (n.put pos b block).data other = n.data other := update_of_ne apart ..

@[simp] theorem d_drop (pos : Nat) : (n.drop pos).d = n.d := rfl

@[simp] theorem data_drop (pos : Nat) : (n.drop pos).data = n.data := update_eq_self ..

@[simp] theorem slots_drop_self (pos : Nat) : (n.drop pos).slots pos = 0 := slots_put_self ..

theorem slots_drop_of_ne (apart : other ≠ pos) :
    (n.drop pos).slots other = n.slots other := slots_put_ne apart ..

section

variable (f : Dinode → Dinode)
include f

@[simp] theorem d_setD : (n.setD f).d = f n.d := rfl
@[simp] theorem slots_setD : (n.setD f).slots = n.slots := rfl
@[simp] theorem data_setD : (n.setD f).data = n.data := rfl

end

theorem byte_put (bn b : Nat) (block : Block) (off : Nat) : (n.put (posOf bn) b block).byte off =
      if off / BSIZE = bn then block.get (off % BSIZE) else n.byte off := by
  unfold byte
  split
  next here => rw [here, data_put_self]
  next apart => rw [data_put_of_ne fun same => apart (posOf_injective same)]

@[simp] theorem byte_put_indirect (b : Nat) (block : Block) (off : Nat) :
    (n.put NDIRECT b block).byte off = n.byte off := by
  rw [byte, data_put_of_ne (posOf_ne_indirect _), byte]

@[simp] theorem byte_setD (f : Dinode → Dinode) (off : Nat) :
    (n.setD f).byte off = n.byte off := rfl

theorem length_bytes (off len : Nat) : (n.bytes off len).length = len := by
  simp [bytes]

theorem bytes_congr {m : Node} (same : ∀ i < len, m.byte (off + i) = n.byte (off + i)) :
    m.bytes off len = n.bytes off len := by
  apply List.map_congr_left
  intro i mem
  exact same i (List.mem_range.mp mem)

theorem bytes_add (off len more : Nat) :
    n.bytes off (len + more) = n.bytes off len ++ n.bytes (off + len) more := by
  unfold bytes
  rw [List.range_add, List.map_append, List.map_map]
  simp only [comp_def, Nat.add_assoc]

theorem bytes_eq_list (same : ∀ i < list.length, n.byte (off + i) = list.getD i 0) :
    n.bytes off list.length = list := by
  apply List.ext_getElem (n.length_bytes off list.length)
  intro i left right
  simp only [bytes, List.getElem_map, List.getElem_range, same i right]
  rw [List.getD_eq_getElem?_getD, List.getElem?_eq_getElem right, Option.getD_some]

theorem slice_eq_bytes (inside : off % BSIZE + len ≤ BSIZE) :
    (n.data (posOf (off / BSIZE))).slice (off % BSIZE) len = n.bytes off len := by
  apply List.map_congr_left
  intro i mem
  have := List.mem_range.mp mem
  have split : (off + i) / BSIZE = off / BSIZE ∧ (off + i) % BSIZE = off % BSIZE + i := by
    unfold BSIZE at *
    omega
  rw [byte, split.1, split.2]

theorem byte_put_writeAt (b : Nat) (inside : off % BSIZE + list.length ≤ BSIZE) (i : Nat) :
    (n.put (posOf (off / BSIZE)) b
      ((n.data (posOf (off / BSIZE))).writeAt (off % BSIZE) list)).byte i =
      if off ≤ i ∧ i < off + list.length then list.getD (i - off) 0 else n.byte i := by
  have positive : 0 < BSIZE := by decide
  rw [byte_put]
  by_cases here : i / BSIZE = off / BSIZE
  · rw [if_pos here, Bytes.get_writeAt _ _ _ (Nat.mod_lt _ positive)]
    have range : (off % BSIZE ≤ i % BSIZE ∧ i % BSIZE < off % BSIZE + list.length) ↔
        (off ≤ i ∧ i < off + list.length) := by
      unfold BSIZE at *
      omega
    simp only [range]
    split
    next mem =>
      congr 1
      unfold BSIZE at *
      omega
    next => rw [byte, here]
  · rw [if_neg here, if_neg]
    unfold BSIZE at *
    omega

/-! ## Well-formed nodes -/

/-- The positions agree with the fields and with the indirect block. -/
structure Stable (n : Node) : Prop where
  addrs : ∀ i : Fin (NDIRECT + 1), n.slots i = (n.d.addrs i).toNat
  entries : ∀ k < NINDIRECT, n.slots (NDIRECT + 1 + k) =
    if n.slots NDIRECT = 0 then 0 else entryOf (n.data NDIRECT) k
  past : ∀ pos, NDIRECT + 1 + NINDIRECT ≤ pos → n.slots pos = 0

/-- There are no holes below an offset. -/
def Covered (n : Node) (size : Nat) : Prop := ∀ bn, bn * BSIZE < size → n.slots (posOf bn) ≠ 0

/-- A list of directory entries with different names. -/
structure IsDir (sb : Super) (n : Node) : Prop where
  aligned : n.size % DIRENT = 0
  inums : ∀ k < n.count, (n.dirent k).inum < sb.ninodes
  names : ∀ j < n.count, ∀ k < n.count, (n.dirent j).inum ≠ 0 → (n.dirent k).inum ≠ 0 →
    key DIRSIZ (n.dirent j).name = key DIRSIZ (n.dirent k).name → j = k

/-- What holds of an inode that nobody has locked. -/
structure Good (sb : Super) (n : Node) : Prop where
  stable : n.Stable
  covered : n.Covered n.size
  size_le : n.size ≤ MAXFILE * BSIZE
  empty : n.d.type = 0 → ∀ pos, n.slots pos = 0
  dir : n.d.type = T_DIR → n.IsDir sb

theorem good_emptied (sb : Super) (n : Node) : n.emptied.Good sb where
  stable := by
    refine ⟨fun _ => rfl, fun _ _ => ?_, fun _ _ => rfl⟩
    rw [if_pos (show n.emptied.slots NDIRECT = 0 from rfl)]
    rfl
  covered := by
    intro bn below
    exact absurd below (Nat.not_lt_zero _)
  size_le := Nat.zero_le _
  empty := fun _ _ => rfl
  dir := by
    intro _
    have none : n.emptied.count = 0 := Nat.zero_div _
    refine ⟨Nat.zero_mod _, ?_, ?_⟩
    · intro k below
      rw [none] at below
      exact absurd below (Nat.not_lt_zero _)
    · intro j below
      rw [none] at below
      exact absurd below (Nat.not_lt_zero _)

end Node

end Xv6.Fs
