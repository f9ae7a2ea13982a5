import Mathlib.Tactic.IntervalCases
import Mathlib.Data.List.FinRange
import Xv6.Param

/-!
# The format of the disk

The parts of a disk block that the file system reads and writes: bits of the
free map, on-disk inodes, entries of an indirect block and directory entries.
Each has a reader and a writer of one item, and two lemmas about them: a read
sees the write of its own item and none of another.
-/

namespace Xv6.Fs

open Function

/-! ## Constants -/

def NDIRECT : Nat := 12
def NINDIRECT : Nat := BSIZE / 4
def MAXFILE : Nat := NDIRECT + NINDIRECT

theorem maxfile_lt : MAXFILE * BSIZE < 2 ^ 31 := by decide

def DINODE : Nat := 64

/-- Inodes per block. -/
def IPB : Nat := BSIZE / DINODE

/-- Bitmap bits per block. -/
def BPB : Nat := BSIZE * 8

def DIRSIZ : Nat := 14

def DIRENT : Nat := 16

def ROOTINO : Nat := 1
def NINODE : Nat := 50
def NFILE : Nat := 100
def NOFILE : Nat := 16

instance : NeZero NFILE := ⟨by decide⟩
instance : NeZero NOFILE := ⟨by decide⟩
def NDEV : Nat := 10

def T_DIR : Int16 := 1
def T_FILE : Int16 := 2
def T_DEVICE : Int16 := 3

/-- The fields of the super block that the file system uses. The inodes end
before the free map, and the free map before the data. -/
structure Super where
  size : Nat
  ninodes : Nat
  inodestart : Nat
  bmapstart : Nat
  start_pos : 0 < inodestart
  inodes_fit : inodestart + ninodes / IPB + 1 ≤ bmapstart
  data_fits : bmapstart + size / BPB + 1 ≤ size
  root_fits : ROOTINO < ninodes
  ninodes_lt : ninodes < 2 ^ 16
  size_lt : size < 2 ^ 31

variable {b i c j bi k : Nat} {value : Bool} {n : Nat}

namespace Super

variable (sb : Super)

def iblock (i : Nat) : Nat := i / IPB + sb.inodestart

/-- The block of the free map with the bit of block `b`. -/
def bblock (b : Nat) : Nat := b / BPB + sb.bmapstart

/-- The first block behind the free map. -/
def datastart : Nat := sb.bmapstart + sb.size / BPB + 1

def Data (b : Nat) : Prop := sb.datastart ≤ b ∧ b < sb.size

instance (b : Nat) : Decidable (sb.Data b) := inferInstanceAs (Decidable (_ ∧ _))

variable {sb}

theorem iblock_lt (bound : i < sb.ninodes) : sb.iblock i < sb.bmapstart := by
  have := sb.inodes_fit
  have : i / IPB ≤ sb.ninodes / IPB := Nat.div_le_div_right (by omega)
  unfold iblock
  omega

theorem bblock_lt (bound : b < sb.size) : sb.bblock b < sb.datastart := by
  have : b / BPB ≤ sb.size / BPB := Nat.div_le_div_right (by omega)
  unfold bblock datastart
  omega

theorem bmapstart_le_bblock (b : Nat) : sb.bmapstart ≤ sb.bblock b := Nat.le_add_left ..

theorem bmapstart_lt_datastart : sb.bmapstart < sb.datastart :=
  Nat.lt_succ_of_le (Nat.le_add_right ..)

theorem inodestart_lt_bmapstart : sb.inodestart < sb.bmapstart :=
  lt_of_lt_of_le (Nat.lt_succ_of_le (Nat.le_add_right ..)) sb.inodes_fit

theorem Data.ne_iblock (data : sb.Data b) (bound : i < sb.ninodes) : b ≠ sb.iblock i := by
  have := iblock_lt bound
  have := data.1
  have := sb.bmapstart_lt_datastart
  omega

theorem Data.ne_bblock (data : sb.Data b) (bound : c < sb.size) : b ≠ sb.bblock c := by
  have := bblock_lt bound
  have := data.1
  omega

theorem iblock_ne_bblock (bound : i < sb.ninodes) : sb.iblock i ≠ sb.bblock b := by
  have := iblock_lt bound
  have := sb.bmapstart_le_bblock b
  omega

theorem Data.pos (data : sb.Data b) : b ≠ 0 := by
  have := sb.start_pos
  have := sb.inodestart_lt_bmapstart
  have := sb.bmapstart_lt_datastart
  have := data.1
  omega

end Super

/-! ## Bits of the free map -/

/-- `1 << (bi % 8)`. -/
def mask (bi : Nat) : UInt8 := 1 <<< UInt8.ofNat (bi % 8)

/-- `bp->data[bi/8] & m`. -/
def isSet (block : Block) (bi : Nat) : Bool := block.get (bi / 8) &&& mask bi != 0

/-- `bp->data[bi/8] |= m`. -/
def setBit (block : Block) (bi : Nat) : Block :=
  block.writeAt (bi / 8) [block.get (bi / 8) ||| mask bi]

/-- `bp->data[bi/8] &= ~m`. -/
def clearBit (block : Block) (bi : Nat) : Block :=
  block.writeAt (bi / 8) [block.get (bi / 8) &&& ~~~ mask bi]

theorem getLsbD_mask (bi j : Nat) (bound : j < 8) :
    (mask bi).toBitVec.getLsbD j = decide (bi % 8 = j) := by
  have small : bi % 8 < 8 := Nat.mod_lt _ (by decide)
  unfold mask
  generalize bi % 8 = i at small ⊢
  interval_cases i <;> interval_cases j <;> rfl

theorem isSet_eq (block : Block) (bi : Nat) :
    isSet block bi = (block.get (bi / 8)).toBitVec.getLsbD (bi % 8) := by
  have small : bi % 8 < 8 := Nat.mod_lt _ (by decide)
  unfold isSet
  generalize block.get (bi / 8) = byte
  have bit : ∀ j < 8, (byte &&& mask bi).toBitVec.getLsbD j =
      (byte.toBitVec.getLsbD j && decide (bi % 8 = j)) := by
    intro j bound
    rw [UInt8.toBitVec_and, BitVec.getLsbD_and, getLsbD_mask bi j bound]
  cases clear : byte.toBitVec.getLsbD (bi % 8) with
  | false =>
    have zero : byte &&& mask bi = 0 := by
      apply UInt8.toBitVec_inj.mp
      apply BitVec.eq_of_getLsbD_eq
      intro j bound
      rw [bit j bound]
      by_cases same : bi % 8 = j
      · simp [← same, clear]
      · simp [same]
    simp [zero]
  | true =>
    have nonzero : byte &&& mask bi ≠ 0 := by
      intro zero
      have := bit (bi % 8) small
      rw [zero, clear] at this
      simp at this
    simpa using nonzero

theorem get_writeAt_byte (block : Block) (k : Nat) (byte : UInt8) (i : Nat) (bound : k < BSIZE) :
    (block.writeAt k [byte]).get i = if i = k then byte else block.get i := by
  by_cases same : i = k
  · subst same
    rw [Bytes.get_writeAt _ _ _ bound]
    simp
  · rw [if_neg same]
    exact Bytes.get_writeAt_of_disjoint _ _ _ (by simp only [List.length_singleton]; omega)

theorem isSet_writeAt {block : Block} {byte : UInt8} (bound : bi < BPB)
    (bits : ∀ k < 8, byte.toBitVec.getLsbD k =
      if bi % 8 = k then value else (block.get (bi / 8)).toBitVec.getLsbD k) :
    isSet (block.writeAt (bi / 8) [byte]) j = if bi = j then value else isSet block j := by
  have inside : bi / 8 < BSIZE := by
    unfold BPB at bound
    omega
  rw [isSet_eq, isSet_eq, get_writeAt_byte _ _ _ _ inside]
  by_cases same : j / 8 = bi / 8
  · rw [if_pos same, bits _ (Nat.mod_lt _ (by decide)), ← same]
    by_cases here : bi = j
    · rw [if_pos (by omega), if_pos here]
    · rw [if_neg (by omega), if_neg here]
  · rw [if_neg same, if_neg (by omega)]

theorem isSet_setBit (block : Block) (bound : bi < BPB) (j : Nat) :
    isSet (setBit block bi) j = if bi = j then true else isSet block j := by
  refine isSet_writeAt bound fun k small => ?_
  rw [UInt8.toBitVec_or, BitVec.getLsbD_or, getLsbD_mask bi k small]
  by_cases same : bi % 8 = k <;> simp [same]

theorem isSet_clearBit (block : Block) (bound : bi < BPB) (j : Nat) :
    isSet (clearBit block bi) j = if bi = j then false else isSet block j := by
  refine isSet_writeAt bound fun k small => ?_
  rw [UInt8.toBitVec_and, BitVec.getLsbD_and, UInt8.toBitVec_not, BitVec.getLsbD_not,
    getLsbD_mask bi k small]
  by_cases same : bi % 8 = k <;> simp [same, small]

/-! ## On-disk inodes -/

/-- `struct dinode`, and the same fields of `struct inode`. -/
structure Dinode where
  type : Int16
  major : Int16
  minor : Int16
  nlink : Int16
  size : UInt32
  addrs : Fin (NDIRECT + 1) → UInt32

namespace Dinode

/-- The fields after `memset(dip, 0, sizeof(*dip))`. -/
def zero : Dinode := ⟨0, 0, 0, 0, 0, fun _ => 0⟩

def short (v : Int16) : List UInt8 := toLE 2 v.toUInt16.toNat

def toBytes (d : Dinode) : List UInt8 :=
  short d.type ++ short d.major ++ short d.minor ++ short d.nlink ++ toLE 4 d.size.toNat ++
    (List.finRange (NDIRECT + 1)).flatMap fun i => toLE 4 (d.addrs i).toNat

/-- The number in the `k` bytes at an offset. -/
def field (bytes : List UInt8) (k off : Nat) : Nat := ofLE ((bytes.drop off).take k)

def ofBytes (bytes : List UInt8) : Dinode where
  type := (UInt16.ofNat (field bytes 2 0)).toInt16
  major := (UInt16.ofNat (field bytes 2 2)).toInt16
  minor := (UInt16.ofNat (field bytes 2 4)).toInt16
  nlink := (UInt16.ofNat (field bytes 2 6)).toInt16
  size := UInt32.ofNat (field bytes 4 8)
  addrs := fun i => UInt32.ofNat (field bytes 4 (12 + 4 * i))

theorem length_toBytes (d : Dinode) : d.toBytes.length = DINODE := by
  simp [toBytes, short, DINODE, NDIRECT, List.length_flatMap]

theorem ofLE_short (v : Int16) : (UInt16.ofNat (ofLE (short v))).toInt16 = v := by
  rw [short, ofLE_toLE_of_lt v.toUInt16.toNat_lt, UInt16.ofNat_toNat, Int16.toInt16_toUInt16]

theorem ofLE_word (v : UInt32) : UInt32.ofNat (ofLE (toLE 4 v.toNat)) = v := by
  rw [ofLE_toLE_of_lt v.toNat_lt, UInt32.ofNat_toNat]

theorem length_short (v : Int16) : (short v).length = 2 := length_toLE ..

theorem ofBytes_toBytes (d : Dinode) : ofBytes d.toBytes = d := by
  have header : d.toBytes = (short d.type ++ short d.major ++ short d.minor ++ short d.nlink ++
      toLE 4 d.size.toNat) ++
        (List.finRange (NDIRECT + 1)).flatMap fun i => toLE 4 (d.addrs i).toNat := rfl
  have addrs : ∀ i : Fin (NDIRECT + 1), (d.toBytes.drop (12 + 4 * i)).take 4 =
      toLE 4 (d.addrs i).toNat := by
    intro i
    have length : (short d.type ++ short d.major ++ short d.minor ++ short d.nlink ++
        toLE 4 d.size.toNat).length = 12 := by simp [length_short]
    have piece := take_drop_flatMap (f := fun i => toLE 4 (d.addrs i).toNat)
      (List.finRange (NDIRECT + 1)) (fun _ => length_toLE ..) (i := i)
      (by rw [List.length_finRange]; exact i.isLt)
    rw [header, ← List.drop_drop, ← length, List.drop_left, piece, List.getElem_finRange]
    rfl
  have type : (d.toBytes.drop 0).take 2 = short d.type := rfl
  have major : (d.toBytes.drop 2).take 2 = short d.major := rfl
  have minor : (d.toBytes.drop 4).take 2 = short d.minor := rfl
  have nlink : (d.toBytes.drop 6).take 2 = short d.nlink := rfl
  have size : (d.toBytes.drop 8).take 4 = toLE 4 d.size.toNat := rfl
  simp only [ofBytes, field, type, major, minor, nlink, size, addrs, ofLE_short, ofLE_word]

end Dinode

/-- `(struct dinode*)bp->data + k`. -/
def dinodeOf (block : Block) (k : Nat) : Dinode := .ofBytes (block.slice (DINODE * k) DINODE)

theorem dinodeOf_zero (k : Nat) : dinodeOf (Bytes.zero BSIZE) k = Dinode.zero := by
  have bytes : Dinode.zero.toBytes = List.replicate DINODE 0 := by decide
  rw [dinodeOf, Bytes.slice_zero, ← bytes, Dinode.ofBytes_toBytes]

/-- Store an inode at the same place. -/
def setDinode (block : Block) (k : Nat) (d : Dinode) : Block := block.writeAt (DINODE * k) d.toBytes

theorem dinodeOf_setDinode_self (block : Block) (d : Dinode) (bound : k < IPB) :
    dinodeOf (setDinode block k d) k = d := by
  have fits : DINODE * k + d.toBytes.length ≤ BSIZE := by
    rw [d.length_toBytes]
    simp only [DINODE, IPB, BSIZE] at bound ⊢
    omega
  have read := Bytes.slice_writeAt_self block (DINODE * k) d.toBytes fits
  rw [d.length_toBytes] at read
  rw [dinodeOf, setDinode, read, Dinode.ofBytes_toBytes]

theorem dinodeOf_setDinode_of_ne (block : Block) (d : Dinode) (other : j ≠ k) :
    dinodeOf (setDinode block k d) j = dinodeOf block j := by
  rw [dinodeOf, setDinode, Bytes.slice_writeAt_of_disjoint, dinodeOf]
  rw [d.length_toBytes]
  simp only [DINODE]
  omega

/-- The inode of a number on a disk. -/
def dinodeAt (sb : Super) (disk : Nat → Block) (i : Nat) : Dinode :=
  dinodeOf (disk (sb.iblock i)) (i % IPB)

/-- The disk with another inode of a number. -/
def putDinode (sb : Super) (disk : Nat → Block) (i : Nat) (d : Dinode) : Nat → Block :=
  update disk (sb.iblock i) (setDinode (disk (sb.iblock i)) (i % IPB) d)

theorem dinodeAt_putDinode_self (sb : Super) (disk : Nat → Block) (i : Nat) (d : Dinode) :
    dinodeAt sb (putDinode sb disk i d) i = d := by
  rw [dinodeAt, putDinode, update_self]
  exact dinodeOf_setDinode_self _ _ (Nat.mod_lt _ (by decide))

theorem dinodeAt_putDinode_of_ne (sb : Super) (disk : Nat → Block) (d : Dinode)
    (other : j ≠ i) : dinodeAt sb (putDinode sb disk i d) j = dinodeAt sb disk j := by
  unfold dinodeAt putDinode
  by_cases same : sb.iblock j = sb.iblock i
  · rw [same, update_self]
    refine dinodeOf_setDinode_of_ne _ _ ?_
    unfold Super.iblock IPB DINODE BSIZE at *
    omega
  · rw [update_of_ne same]

theorem dinodeAt_update_of_ne (sb : Super) (disk : Nat → Block) (data : Block)
    (other : b ≠ sb.iblock i) : dinodeAt sb (update disk b data) i = dinodeAt sb disk i := by
  rw [dinodeAt, update_of_ne other.symm, dinodeAt]

/-! ## The free map -/

/-- The bit of a block in the free map. -/
def used (sb : Super) (disk : Nat → Block) (b : Nat) : Bool :=
  isSet (disk (sb.bblock b)) (b % BPB)

theorem used_update_of_ne (sb : Super) (disk : Nat → Block) (data : Block)
    (other : c ≠ sb.bblock b) : used sb (update disk c data) b = used sb disk b := by
  rw [used, update_of_ne other.symm, used]

theorem used_update (sb : Super) (disk : Nat → Block) {data : Block} (bits : ∀ j, isSet data j =
      if c % BPB = j then value else isSet (disk (sb.bblock c)) j) :
    used sb (update disk (sb.bblock c) data) b =
      if b = c then value else used sb disk b := by
  unfold used
  by_cases same : sb.bblock b = sb.bblock c
  · rw [same, update_self, bits]
    have here : c % BPB = b % BPB ↔ b = c := by
      unfold Super.bblock BPB BSIZE at *
      omega
    simp only [here]
  · rw [update_of_ne same, if_neg]
    rintro rfl
    exact same rfl

/-! ## Entries of an indirect block -/

/-- `a[k]` for `a = (uint*)bp->data`. -/
def entryOf (block : Block) (k : Nat) : Nat := block.getLE 4 (4 * k)

/-- `a[k] = addr`. -/
def setEntry (block : Block) (k addr : Nat) : Block := block.setLE 4 (4 * k) addr

theorem entryOf_setEntry_self (block : Block) {addr : Nat} (bound : k < NINDIRECT)
    (small : addr < 2 ^ 32) : entryOf (setEntry block k addr) k = addr := by
  refine Bytes.getLE_setLE_self block ?_ small
  simp only [NINDIRECT, BSIZE] at bound ⊢
  omega

theorem entryOf_setEntry_of_ne (block : Block) (addr : Nat) (other : j ≠ k) :
    entryOf (setEntry block k addr) j = entryOf block j :=
  Bytes.getLE_setLE_of_disjoint block (by omega)

@[simp] theorem entryOf_zero (k : Nat) : entryOf (Bytes.zero BSIZE) k = 0 := Bytes.getLE_zero ..

/-! ## Directory entries -/

/-- `struct dirent`. -/
structure Dirent where
  inum : Nat
  name : List UInt8
  deriving DecidableEq

namespace Dirent

def toBytes (de : Dirent) : List UInt8 := toLE 2 de.inum ++ de.name

def ofBytes (bytes : List UInt8) : Dirent := ⟨ofLE (bytes.take 2), bytes.drop 2⟩

theorem ofBytes_toBytes {de : Dirent} (small : de.inum < 2 ^ 16) : ofBytes de.toBytes = de := by
  have head : de.toBytes.take 2 = toLE 2 de.inum := rfl
  have tail : de.toBytes.drop 2 = de.name := rfl
  rw [ofBytes, head, tail, ofLE_toLE_of_lt small]

/-- `memset(&de, 0, sizeof(de))`. -/
def zero : Dirent := ⟨0, List.replicate DIRSIZ 0⟩

end Dirent

/-- `strncmp`, on strings that end with a zero or with the list. -/
def strncmp : Nat → List UInt8 → List UInt8 → Int
  | 0, _, _ => 0
  | n + 1, p, q =>
    if p.headD 0 ≠ 0 ∧ p.headD 0 = q.headD 0 then strncmp n p.tail q.tail
    else (p.headD 0).toNat - (q.headD 0).toNat

def namecmp (s t : List UInt8) : Int := strncmp DIRSIZ s t

/-- The part of a name that counts: at most `n` bytes, up to the first zero. -/
def key (n : Nat) (name : List UInt8) : List UInt8 := (name.take n).takeWhile (· ≠ 0)

/-- `strncpy`: the string, padded with zeros. -/
def strncpy (n : Nat) (t : List UInt8) : List UInt8 :=
  key n t ++ List.replicate (n - (key n t).length) 0

theorem key_succ (n : Nat) (name : List UInt8) :
    key (n + 1) name = if name.headD 0 = 0 then [] else name.headD 0 :: key n name.tail := by
  cases name with
  | nil => simp [key]
  | cons byte rest => by_cases zero : byte = 0 <;> simp [key, zero]

theorem strncmp_eq_zero {p q : List UInt8} : strncmp n p q = 0 ↔ key n p = key n q := by
  induction n generalizing p q with
  | zero => simp [strncmp, key]
  | succ n ih =>
    rw [strncmp, key_succ, key_succ]
    generalize p.headD 0 = a
    generalize q.headD 0 = b
    by_cases more : a ≠ 0 ∧ a = b
    · obtain ⟨nonzero, rfl⟩ := more
      rw [if_pos ⟨nonzero, rfl⟩, ih, if_neg nonzero, if_neg nonzero]
      simp
    · rw [if_neg more]
      have same : ((a.toNat : Int) - b.toNat = 0) ↔ a = b := by
        constructor
        · intro zero
          exact UInt8.toNat_inj.mp (by omega)
        · rintro rfl
          omega
      rw [same]
      by_cases zero : a = 0
      · subst zero
        by_cases other : b = 0
        · simp [other]
        · simp [other, Ne.symm other]
      · have apart : a ≠ b := fun same => more ⟨zero, same⟩
        simp only [apart, false_iff, if_neg zero]
        split <;> simp [apart]

theorem length_key_le (n : Nat) (name : List UInt8) : (key n name).length ≤ n := by
  have := (List.takeWhile_sublist (· ≠ 0) (l := name.take n)).length_le
  rw [List.length_take] at this
  unfold key
  omega

theorem ne_zero_of_mem_key {name : List UInt8} {byte : UInt8}
    (mem : byte ∈ key n name) : byte ≠ 0 := by
  simpa using (List.all_eq_true.mp List.all_takeWhile) byte mem

theorem length_strncpy (n : Nat) (name : List UInt8) : (strncpy n name).length = n := by
  have := length_key_le n name
  rw [strncpy, List.length_append, List.length_replicate]
  omega

theorem key_strncpy (n : Nat) (name : List UInt8) : key n (strncpy n name) = key n name := by
  have whole : (strncpy n name).take n = strncpy n name :=
    List.take_of_length_le (length_strncpy n name).le
  rw [key, whole, strncpy, List.takeWhile_append_of_pos]
  · generalize n - (key n name).length = m
    cases m <;> simp [List.replicate_succ]
  · intro byte mem
    simpa using ne_zero_of_mem_key mem

end Xv6.Fs
