import Mathlib.Algebra.BigOperators.Group.Finset.Basic
import Mathlib.Data.Fintype.Basic
import Xv6.Fs.Node
import Xv6.Fs.Syscall

/-!
# The invariant of the file system

Each process has a ghost value (`Local`): what it knows of the inodes it has
locked, the blocks it has allocated and not yet put into an inode, and the
references it holds. The invariant (`Core`) ties these to the state, together
with the node of each inode and the owner of each block.
-/

namespace Xv6.Fs

/-! ## Ghost values -/

/-- What a process knows of an inode that it has locked. -/
structure View where
  inum : Nat
  valid : Bool
  owned : Bool
  sole : Bool
  disk : Dinode
  node : Node

structure Local (Pid : Type) where
  view : Fin NINODE → Option View
  -- the blocks it has allocated and not put into an inode, with their contents
  loose : Nat → Option Block
  refs : Fin NINODE → Int -- references to inodes beyond that of its current directory
  num : Fin NINODE → Option Nat -- the inode numbers of entries it has references to
  files : Fin NFILE → Int -- references to open files beyond those of its descriptors
  file : Fin NFILE → Option File
  op : Bool
  running : Bool
  proc : Option Proc
  child : Option (Pid × Proc)
  making : Option Nat
  fresh : Option (Nat × Node) -- the same as long as it has not locked it

/-- The ghost value outside of calls. -/
def Local.idle {Pid : Type} : Local Pid where
  view := fun _ => none
  loose := fun _ => none
  refs := fun _ => 0
  num := fun _ => none
  files := fun _ => 0
  file := fun _ => none
  op := false
  running := false
  proc := none
  child := none
  making := none
  fresh := none

inductive Owner (Pid : Type) where
  | reserved
  | free
  | node (i pos : Nat)
  | loose (p : Pid)

/-! ## The parts of the invariant -/

section Parts

variable {Pid : Type}

/-- Every block has one owner, and the free map says which are free. -/
structure Blocks (sb : Super) (disk : Nat → Block) (loose : Pid → Nat → Option Block)
    (N : Nat → Node) (own : Nat → Owner Pid) : Prop where
  reserved : ∀ b, own b = .reserved ↔ ¬ sb.Data b
  free : ∀ b < sb.size, used sb disk b = false ↔ own b = .free
  node : ∀ b i pos, own b = .node i pos ↔ (N i).slots pos = b ∧ b ≠ 0
  carried : ∀ b p, own b = .loose p ↔ loose p b ≠ none
  kept : ∀ b p block, loose p b = some block → disk b = block
  content : ∀ i pos, (N i).slots pos ≠ 0 → disk ((N i).slots pos) = (N i).data pos
  bound : ∀ i pos, (N i).slots pos ≠ 0 → i < sb.ninodes

/-- Some process owns the node of the inode. -/
def Held (view : Pid → Fin NINODE → Option View) (i : Nat) : Prop :=
  ∃ p e v, view p e = some v ∧ v.owned = true ∧ v.inum = i

/-- An inode that no process owns is well-formed, and is the one on the disk. -/
def Pool (sb : Super) (disk : Nat → Block) (view : Pid → Fin NINODE → Option View)
    (N : Nat → Node) : Prop :=
  ∀ i < sb.ninodes, ¬ Held view i → dinodeAt sb disk i = (N i).d ∧ (N i).Good sb

/-- The view of a locked inode is right. -/
structure Agrees (sb : Super) (disk : Nat → Block) (N : Nat → Node) (ip : Inode Pid) (v : View) :
    Prop where
  inum : ip.inum = v.inum
  valid : ip.valid = v.valid
  mem : v.owned = true → ip.valid = true ∧ ip.d = v.node.d
  node : v.owned = true → N v.inum = v.node
  disk : v.owned = true → dinodeAt sb disk v.inum = v.disk ∧ v.disk.type ≠ 0

/-- The entries of the inode table. -/
structure Table (sb : Super) (disk : Nat → Block) (itable : Fin NINODE → Inode Pid)
    (view : Pid → Fin NINODE → Option View) (N : Nat → Node) : Prop where
  locked : ∀ p e, (itable e).lock = some p ↔ view p e ≠ none
  agrees : ∀ p e v, view p e = some v → Agrees sb disk N (itable e) v
  entry : ∀ e, 0 < (itable e).ref →
    (itable e).dev = ROOTDEV ∧ 0 < (itable e).inum ∧ (itable e).inum < sb.ninodes
  unique : ∀ e e', 0 < (itable e).ref → 0 < (itable e').ref →
    (itable e).inum = (itable e').inum → e = e'
  rest : ∀ e, 0 < (itable e).ref → (itable e).lock = none → (itable e).valid = true →
    (itable e).d = (N (itable e).inum).d ∧ (itable e).d.type ≠ 0

/-- The reference of a current directory. -/
def cwdRef (proc : Proc) (e : Fin NINODE) : Int := if proc.cwd = some e then 1 else 0

/-- The references of the descriptors of a process. -/
def slotRef (proc : Proc) (i : Fin NFILE) : Int :=
  ((List.finRange NOFILE).countP fun fd => proc.ofile fd = some i : Nat)

/-- The reference of an open file. -/
def fileRef (f : File) (e : Fin NINODE) : Int := if f.type ≠ .none ∧ f.ip = e then 1 else 0

/-- The references of a process to an inode. -/
def share (procs : Pid → Proc) (refs : Pid → Fin NINODE → Int) (p : Pid) (e : Fin NINODE) : Int :=
  cwdRef (procs p) e + refs p e

/-- The references of a process to an open file. -/
def slotShare (procs : Pid → Proc) (files : Pid → Fin NFILE → Int) (p : Pid) (i : Fin NFILE) :
    Int :=
  slotRef (procs p) i + files p i

/-- The reference counts of inodes, for the shares of the processes in inodes and in open files. -/
structure Refs [Fintype Pid] (itable : Fin NINODE → Inode Pid) (ftable : Fin NFILE → File)
    (inodes : Pid → Fin NINODE → Int) (files : Pid → Fin NFILE → Int)
    (view : Pid → Fin NINODE → Option View) (proc : Pid → Option Proc)
    (num : Pid → Fin NINODE → Option Nat) : Prop where
  count : ∀ e, ((itable e).ref : Int) = ∑ p, inodes p e + ∑ i, fileRef (ftable i) e
  nonneg : ∀ p e, 0 ≤ inodes p e
  holder : ∀ p e, view p e ≠ none → 1 ≤ inodes p e ∨ ∃ i, 1 ≤ files p i ∧ fileRef (ftable i) e = 1
  num : ∀ p e inum, proc p ≠ none → num p e = some inum → 1 ≤ inodes p e → (itable e).inum = inum
  sole : ∀ p e v, view p e = some v → v.sole = true → ∀ i, fileRef (ftable i) e = 0

/-- The files are the same but for the offset and the count. -/
structure File.Same (f g : File) : Prop where
  type : f.type = g.type
  readable : f.readable = g.readable
  writable : f.writable = g.writable
  ip : f.ip = g.ip
  major : f.major = g.major

/-- The reference counts of open files, what is known of them, and what they are. -/
structure Files [Fintype Pid] (procs : Pid → Proc) (itable : Fin NINODE → Inode Pid)
    (ftable : Fin NFILE → File) (files : Pid → Fin NFILE → Int) (proc : Pid → Option Proc)
    (file : Pid → Fin NFILE → Option File) (N : Nat → Node) : Prop where
  count : ∀ i, ((ftable i).ref : Int) = ∑ p, files p i
  nonneg : ∀ p i, 0 ≤ files p i
  closed : ∀ i, (ftable i).ref = 0 → (ftable i).type = .none
  same : ∀ p i f, proc p ≠ none → file p i = some f → 1 ≤ files p i → (ftable i).Same f
  kind : ∀ i, (ftable i).type ≠ .none → (N (itable (ftable i).ip).inum).d.type ≠ 0 ∧
    ((ftable i).writable = true → (N (itable (ftable i).ip).inum).d.type ≠ T_DIR)
  -- a file that is not open yet belongs to one process, which is opening it
  single : ∀ i, (ftable i).type = .none → ∀ p q, 1 ≤ files p i → 1 ≤ files q i → p = q
  opened : ∀ p, proc p = none → ∀ fd i, (procs p).ofile fd = some i → (ftable i).type ≠ .none
  resting : ∀ p, proc p = none → ∀ i, files p i = slotRef (procs p) i

/-- What processes know of the process table. -/
structure Procs (procs : Pid → Proc) (proc : Pid → Option Proc)
    (child : Pid → Option (Pid × Proc)) : Prop where
  own : ∀ p pr, proc p = some pr → procs p = pr ∧ pr.state = .runnable
  young : ∀ p q pr, child p = some (q, pr) → procs q = pr ∧ pr.state = .used
  single : ∀ p p' q pr pr', child p = some (q, pr) → child p' = some (q, pr') → p = p'
  unused : ∀ p, (procs p).state = .unused → (procs p).cwd = none ∧ ∀ fd, (procs p).ofile fd = none
  home : ∀ p, proc p = none → (procs p).state = .runnable → (procs p).cwd ≠ none

/-- Who builds which inode: nobody else owns it meanwhile. -/
structure Shape (sb : Super) (disk : Nat → Block) (building : Nat → Option Pid)
    (view : Pid → Fin NINODE → Option View) (making : Pid → Option Nat)
    (fresh : Pid → Option (Nat × Node)) (N : Nat → Node) : Prop where
  maker : ∀ i p, building i = some p ↔ making p = some i
  real : ∀ i < sb.ninodes, building i ≠ none → (dinodeAt sb disk i).type ≠ 0
  builder : ∀ p e v, view p e = some v → v.owned = true →
    building v.inum = none ∨ building v.inum = some p
  fresh : ∀ p i n, fresh p = some (i, n) → building i = some p ∧ N i = n ∧ ¬ Held view i

end Parts

/-! ## The invariant -/

/-- What a process that runs alone knows of the rest of the state. -/
structure World where
  node : Nat → Node
  free : Nat → Prop
  quiet : Prop

variable {Pid : Type} [DecidableEq Pid] [Fintype Pid]

structure Known (sb : Super) (view : Pid → Fin NINODE → Option View) (running : Pid → Bool)
    (N : Nat → Node) (own : Nat → Owner Pid) (W : World) : Prop where
  node : ∀ i < sb.ninodes, ¬ Held view i → N i = W.node i
  free : ∀ b, own b = .free ↔ W.free b
  alone : W.quiet → ∀ p q, running p = true → running q = true → p = q

/-- The invariant, with the nodes and the owners. -/
structure Core (sb : Super) (s : State Pid) (gs : Pid → Local Pid)
    (N : Nat → Node) (own : Nat → Owner Pid) : Prop where
  blocks : Blocks sb s.disk (fun p => (gs p).loose) N own
  pool : Pool sb s.disk (fun p => (gs p).view) N
  table : Table sb s.disk s.itable (fun p => (gs p).view) N
  refs : Refs s.itable s.ftable (share s.procs fun p => (gs p).refs)
    (slotShare s.procs fun p => (gs p).files) (fun p => (gs p).view)
    (fun p => (gs p).proc) (fun p => (gs p).num)
  files : Files s.procs s.itable s.ftable (slotShare s.procs fun p => (gs p).files)
    (fun p => (gs p).proc) (fun p => (gs p).file) N
  procs : Procs s.procs (fun p => (gs p).proc) (fun p => (gs p).child)
  shape : Shape sb s.disk s.building (fun p => (gs p).view) (fun p => (gs p).making)
    (fun p => (gs p).fresh) N
  -- blocks are on the way to an inode only under its lock
  carried : ∀ p b, (gs p).loose b ≠ none → ∃ e, (gs p).view e ≠ none
  active : ∀ p e, (gs p).view e ≠ none → (gs p).running = true
  trans : s.outstanding = ∑ p, if (gs p).op then 1 else 0

/-- A step gets hold of an inode: its lock and its contents. -/
def Gets (p : Pid) (s t : State Pid) (e : Fin NINODE) : Prop :=
  ((t.itable e).lock = some p ∧ (t.itable e).valid = true) ∧
    ¬ ((s.itable e).lock = some p ∧ (s.itable e).valid = true)

/-- The step does not get hold of an inode that another process is building. -/
def Keeps (p : Pid) (s t : State Pid) : Prop :=
  ∀ e, Gets p s t e → s.building (s.itable e).inum = none ∨ s.building (s.itable e).inum = some p

/-- What a development about the kernel's runs allows and assumes. -/
structure Setting (Pid : Type) where
  allowed : Bool → Panic → Prop
  waits : Bool → Prop
  assumed : Pid → State Pid → State Pid → Prop
  keeps : ∀ p s t, assumed p s t → Keeps p s t

def theory (sb : Super) (C : Setting Pid) : Theory (State Pid) Panic Pid (Local Pid) World where
  Inv := fun s gs w => ∃ N own, Core sb s gs N own ∧
    ∀ W, w = some W → Known sb (fun p => (gs p).view) (fun p => (gs p).running) N own W
  allowed := C.allowed
  waits := C.waits
  assumed := C.assumed

abbrev Safe (sb : Super) (C : Setting Pid) (p : Pid) {α : Type} (prog : Kernel Pid α)
    (l : Local Pid)
    (w : Option World) (post : α → Local Pid → Option World → Prop) : Prop :=
  (theory sb C).Safe p prog l w post

end Xv6.Fs
