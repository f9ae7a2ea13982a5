import Xv6.Fs.Content

/-!
# `mkfs`

The program that makes the image of a file system from a list of host files.

The image is a host file that `wsect` extends and in which `rsect` fails past
the end; a failed `assert`, `lseek` or `read` ends the program, which is `none`
here. A host file is the list of what the successive `read`s of it return.
-/

namespace Xv6.Mkfs

open Fs

def NINODES : Nat := 200
def nbitmap : Nat := FSSIZE / BPB + 1
def ninodeblocks : Nat := NINODES / IPB + 1

/-- The number of meta blocks: boot, super block, log, inodes and free map. -/
def nmeta : Nat := 2 + nlog + ninodeblocks + nbitmap

def sb : Super where
  size := FSSIZE
  ninodes := NINODES
  inodestart := 2 + nlog
  bmapstart := 2 + nlog + ninodeblocks
  start_pos := by decide
  inodes_fit := by decide
  data_fits := by decide
  root_fits := by decide
  ninodes_lt := by decide
  size_lt := by decide

def FSMAGIC : Nat := 0x10203040

def superBlock : Block :=
  (Bytes.zero BSIZE).writeAt 0 ([FSMAGIC, FSSIZE, FSSIZE - nmeta, NINODES, nlog, 2, sb.inodestart,
    sb.bmapstart].flatMap (toLE 4))

/-- The image file and the variables of the program. -/
structure State where
  disk : Nat → Block
  len : Nat
  freeinode : Nat
  freeblock : Nat

namespace State

/-- The sector at the offset `sec * BSIZE`, a `uint`. -/
def sector (sec : Nat) : Nat := sec % 2 ^ 22

def wsect (s : State) (sec : Nat) (buf : Block) : State :=
  { s with
    disk := Function.update s.disk (sector sec) buf
    len := max s.len (sector sec + 1) }

def rsect (s : State) (sec : Nat) : Option Block :=
  if sector sec < s.len then some (s.disk (sector sec)) else none

def winode (s : State) (inum : Nat) (d : Dinode) : Option State := do
  let buf ← s.rsect (sb.iblock inum)
  return s.wsect (sb.iblock inum) (setDinode buf (inum % IPB) d)

def rinode (s : State) (inum : Nat) : Option Dinode := do
  let buf ← s.rsect (sb.iblock inum)
  return dinodeOf buf (inum % IPB)

def ialloc (s : State) (type : Int16) : Option (Nat × State) := do
  let inum := s.freeinode
  let s ← { s with freeinode := inum + 1 }.winode inum { Dinode.zero with type := type, nlink := 1 }
  return (inum, s)

end State

/-- The free map with the first `used` bits set. -/
def bitmap (used : Nat) : Block := (List.range used).foldl setBit (Bytes.zero BSIZE)

def balloc (s : State) (used : Nat) : Option State :=
  if used < BPB then some (s.wsect sb.bmapstart (bitmap used)) else none

/-- `if(xint(din.addrs[i]) == 0) din.addrs[i] = xint(freeblock++);` -/
def allocAddr (s : State) (din : Dinode) (i : Fin (NDIRECT + 1)) : State × Dinode :=
  if din.addrs i = 0 then
    ({ s with freeblock := s.freeblock + 1 }, din.setAddr i s.freeblock)
  else (s, din)

/-- `if(indirect[k] == 0){ indirect[k] = xint(freeblock++); wsect(…); }`, for the
indirect block `ind`. -/
def allocEntry (s : State) (ind : Nat) (indirect : Block) (k : Nat) : State × Block :=
  if entryOf indirect k = 0 then
    let indirect := setEntry indirect k s.freeblock
    ({ s with freeblock := s.freeblock + 1 }.wsect ind indirect, indirect)
  else (s, indirect)

/-- The part of a pass of `iappend` that finds the block `x`. -/
def iappendAddr (s : State) (din : Dinode) (fbn : Nat) : Option (State × Dinode × Nat) :=
  if first : fbn < NDIRECT then
    let i : Fin (NDIRECT + 1) := ⟨fbn, Nat.lt_succ_of_lt first⟩
    let (s, din) := allocAddr s din i
    some (s, din, (din.addrs i).toNat)
  else do
    let (s, din) := allocAddr s din INDIRECT
    let indirect ← s.rsect (din.addrs INDIRECT).toNat
    let (s, indirect) := allocEntry s (din.addrs INDIRECT).toNat indirect (fbn - NDIRECT)
    return (s, din, entryOf indirect (fbn - NDIRECT))

/-- One pass of the loop of `iappend`: `chunk` goes to the offset `off`. -/
def iappendPass (s : State) (din : Dinode) (off : Nat) (chunk : List UInt8) :
    Option (State × Dinode) := do
  let (s, din, x) ← iappendAddr s din (off / BSIZE)
  let buf ← s.rsect x
  return (s.wsect x (buf.writeAt (off - off / BSIZE * BSIZE) chunk), din)

/-- The number `n1` of bytes that a pass copies. -/
def passLength (off n : Nat) : Nat := min n ((off / BSIZE + 1) * BSIZE - off)

theorem passLength_pos (off : Nat) {n : Nat} (more : 0 < n) : 0 < passLength off n := by
  unfold passLength BSIZE
  omega

/-- The loop of `iappend`, with the bytes that are left. -/
def iappendLoop (s : State) (din : Dinode) (off : Nat) (p : List UInt8) :
    Option (State × Dinode × Nat) :=
  if _ : 0 < p.length then
    if off / BSIZE < MAXFILE then do
      let n1 := passLength off p.length
      let (s, din) ← iappendPass s din off (p.take n1)
      iappendLoop s din (off + n1) (p.drop n1)
    else none
  else some (s, din, off)
termination_by p.length
decreasing_by
  have := passLength_pos off ‹0 < p.length›
  rw [List.length_drop]
  omega

def iappend (s : State) (inum : Nat) (p : List UInt8) : Option State := do
  let din ← s.rinode inum
  let (s, din, off) ← iappendLoop s din din.size.toNat p
  s.winode inum { din with size := UInt32.ofNat off }

/-- A host file: its path among the arguments, a C string, and what the `read`s
into `buf` return before the one that returns 0. -/
structure HostFile where
  path : List UInt8
  reads : List (List UInt8)
  string : 0 ∉ path
  sizes : ∀ chunk ∈ reads, 0 < chunk.length ∧ chunk.length ≤ BSIZE

def HostFile.bytes (f : HostFile) : List UInt8 := f.reads.flatten

/-- `"user/"` -/
def userDir : List UInt8 := [117, 115, 101, 114, 47]

/-- `'_'` -/
def underscore : UInt8 := 95

/-- The name of a file in the image. -/
def shortname (path : List UInt8) : Option (List UInt8) :=
  let name := if userDir <+: path then path.drop 5 else path
  if slash ∈ name then none
  else
    let name := if name.head? = some underscore then name.drop 1 else name
    if name.length ≤ DIRSIZ then some name else none

/-- The entry of the root directory for a name. -/
def direntOf (inum : Nat) (name : List UInt8) : List UInt8 :=
  Dirent.toBytes ⟨inum, strncpy DIRSIZ name⟩

/-- The body of the loop over the arguments. -/
def addFile (s : State) (f : HostFile) : Option State := do
  let name ← shortname f.path
  let (inum, s) ← s.ialloc T_FILE
  let s ← iappend s ROOTINO (direntOf inum name)
  f.reads.foldlM (fun s buf => iappend s inum buf) s

/-- The image of `FSSIZE` zero blocks with the super block. -/
def blank : State :=
  ((List.range FSSIZE).foldl (fun (s : State) i => s.wsect i (Bytes.zero BSIZE))
    { disk := fun _ => Bytes.zero BSIZE, len := 0, freeinode := 1, freeblock := nmeta }).wsect 1
      superBlock

/-- The root directory with its two entries. -/
def makeRoot (s : State) : Option State := do
  let (rootino, s) ← s.ialloc T_DIR
  if rootino = ROOTINO then
    let s ← iappend s rootino (direntOf rootino dot)
    iappend s rootino (direntOf rootino dotdot)
  else none

/-- `off = ((off/BSIZE) + 1) * BSIZE` for the size of the root directory. -/
def fixRoot (s : State) : Option State := do
  let din ← s.rinode ROOTINO
  let off := (din.size.toNat / BSIZE + 1) * BSIZE
  s.winode ROOTINO { din with size := UInt32.ofNat off }

/-- `main`, up to `exit(0)`. -/
def main (files : List HostFile) : Option State := do
  let s ← makeRoot blank
  let s ← files.foldlM addFile s
  let s ← fixRoot s
  balloc s s.freeblock

end Xv6.Mkfs
