import Xv6.Fs.Layout
import Xv6.Lib.Prog

/-!
# The state of the file system

The disk as the block store that the buffer cache and the log make of it, the
in-memory inode table, the open files and what the processes have of both. The
steps here are the sections of `fs.c`, `file.c` and `sysfile.c` under one lock:
the spin-lock of a table, or the sleep-lock of a buffer from `bread` to
`brelse`. Accesses to an inode under its own sleep-lock are steps as well.

No call reads the records `building` and `events`.
-/

namespace Xv6.Fs

open Function

instance : NeZero NINODE := ⟨by decide⟩

inductive Panic where
  | logWriteOutside
  | freeingFreeBlock
  | igetNoInodes
  | ilock
  | ilockNoType
  | iunlock
  | schedLocks
  | bmapOutOfRange
  | dirlookupNotDir
  | dirlookupRead
  | dirlinkRead
  | isdiremptyReadi
  | unlinkNlink
  | unlinkWritei
  | filedup
  | fileclose
  | fileread
  | filewrite
  | kerneltrap
  deriving DecidableEq, Repr

/-- `struct inode`. -/
structure Inode (Pid : Type) where
  dev : Nat
  inum : Nat
  ref : Nat
  lock : Option Pid
  valid : Bool
  d : Dinode

/-- The kinds of open files. Pipes are left out. -/
inductive FileType where
  | none
  | inode
  | device
  deriving DecidableEq, Repr

/-- `struct file`. The pointer `ip` has no meaning for `FD_NONE`. -/
structure File where
  ref : Nat
  type : FileType
  readable : Bool
  writable : Bool
  ip : Fin NINODE
  off : Nat
  major : Int16

/-- Whether a slot is in use, and whether `fork` is done with it. A process that has exited is
not told from a free slot. -/
inductive ProcState where
  | unused
  | used
  | runnable
  deriving DecidableEq, Repr

/-- What a process has of the file system. -/
structure Proc where
  state : ProcState
  cwd : Option (Fin NINODE)
  ofile : Fin NOFILE → Option (Fin NFILE)

/-- What happened on the way along a path, or in a directory. -/
inductive Event where
  -- `namex` went from a directory, with that many links, through an entry to an inode, with that
  -- type on the disk
  | hop (dir : Nat) (nlink : Int16) (name : List UInt8) (inum : Nat) (type : Int16)
  -- an entry was added to a directory with that many links
  | bind (dir : Nat) (nlink : Int16) (name : List UInt8) (inum : Nat)
  deriving DecidableEq, Repr

structure State (Pid : Type) where
  disk : Nat → Block
  itable : Fin NINODE → Inode Pid
  ftable : Fin NFILE → File
  procs : Pid → Proc
  -- the inodes that a `create` has allocated, and neither linked nor freed
  building : Nat → Option Pid
  events : List Event
  outstanding : Nat
  logged : Pid → List Nat -- the blocks each process has passed to `log_write` since its `begin_op`

variable {Pid : Type} [DecidableEq Pid]

namespace State

def setInode (s : State Pid) (e : Fin NINODE) (f : Inode Pid → Inode Pid) : State Pid :=
  { s with itable := update s.itable e (f (s.itable e)) }

def setFile (s : State Pid) (i : Fin NFILE) (f : File → File) : State Pid :=
  { s with ftable := update s.ftable i (f (s.ftable i)) }

def setProc (s : State Pid) (p : Pid) (f : Proc → Proc) : State Pid :=
  { s with procs := update s.procs p (f (s.procs p)) }

/-- Change a block and pass it to `log_write`. -/
def write (s : State Pid) (p : Pid) (b : Nat) (data : Block) : State Pid :=
  { s with
    disk := update s.disk b data
    logged := update s.logged p (b :: s.logged p) }

/-- A section that ends with `log_write`, which checks for a transaction. -/
def log {α : Type} (s t : State Pid) (value : α) : Outcome (State Pid) Panic α :=
  if s.outstanding < 1 then .panic .logWriteOutside else .ok t value

variable {s : State Pid}

theorem log_eq {α : Type} {t : State Pid} {value : α} (op : 0 < s.outstanding) :
    s.log t value = .ok t value :=
  if_neg (by omega)

@[simp] theorem itable_setInode_self (s : State Pid) (e : Fin NINODE)
    (f : Inode Pid → Inode Pid) : (s.setInode e f).itable e = f (s.itable e) :=
  update_self ..

theorem itable_setInode_of_ne {e e' : Fin NINODE} (other : e' ≠ e)
    (f : Inode Pid → Inode Pid) : (s.setInode e f).itable e' = s.itable e' :=
  update_of_ne other ..

@[simp] theorem ftable_setFile_self (s : State Pid) (i : Fin NFILE) (f : File → File) :
    (s.setFile i f).ftable i = f (s.ftable i) :=
  update_self ..

@[simp] theorem procs_self (s : State Pid) (p : Pid) (f : Proc → Proc) :
    (s.setProc p f).procs p = f (s.procs p) :=
  update_self ..

theorem procs_ne {p q : Pid} (other : q ≠ p) (f : Proc → Proc) :
    (s.setProc p f).procs q = s.procs q :=
  update_of_ne other ..

end State

abbrev Kernel (Pid : Type) (α : Type) : Type 1 := Prog (State Pid) Panic α

/-! ## Blocks -/

section Steps

variable (sb : Super) (p : Pid)

/-- `bread`, and `brelse` without a change. -/
def readBlock (b : Nat) : Kernel Pid Block := .atomic fun s => .ok s (s.disk b)

/-- `bread`, a change of the data, `log_write`, `brelse`. -/
def logWrite (b : Nat) (f : Block → Block) : Kernel Pid Unit :=
  .atomic fun s => s.log (s.write p b (f (s.disk b))) ()

/-- `bread`, a change of the data, `brelse`: the change is not logged. -/
def scribble (b : Nat) (f : Block → Block) : Kernel Pid Unit :=
  .atomic fun s => .ok { s with disk := update s.disk b (f (s.disk b)) } ()

/-- `begin_op`, once it is admitted. -/
def beginOp : Kernel Pid Unit :=
  .atomic fun s => .ok { s with
    outstanding := s.outstanding + 1, logged := update s.logged p [] } ()

/-- `end_op`. The commit does not change the blocks as the file system sees
them. -/
def endOp : Kernel Pid Unit :=
  .atomic fun s => .ok { s with outstanding := s.outstanding - 1 } ()

/-- The first free block that block `k` of the free map has a bit of. -/
def freeBit (k : Nat) (block : Block) : Option Nat :=
  (List.range' 0 BPB).find? fun bi => k * BPB + bi < sb.size ∧ isSet block bi = false

/-- One pass of the outer loop of `balloc`, up to `brelse`. -/
def ballocAt (k : Nat) : Kernel Pid (Option Nat) :=
  .atomic fun s =>
    let b := sb.bmapstart + k
    match freeBit sb k (s.disk b) with
    | some bi => s.log (s.write p b (setBit (s.disk b) bi)) (some (k * BPB + bi))
    | none => .ok s none

def bfree (b : Nat) : Kernel Pid Unit :=
  .atomic fun s =>
    let block := s.disk (sb.bblock b)
    if isSet block (b % BPB) then s.log (s.write p (sb.bblock b) (clearBit block (b % BPB))) ()
    else .panic .freeingFreeBlock

/-! ## Inodes -/

/-- The body of the loop of `ialloc` for one inode, up to `brelse`. -/
def iallocAt (type : Int16) (inum : Nat) : Kernel Pid (Option Nat) :=
  .atomic fun s =>
    let block := s.disk (sb.iblock inum)
    if (dinodeOf block (inum % IPB)).type = 0 then
      s.log { s.write p (sb.iblock inum)
                (setDinode block (inum % IPB) { Dinode.zero with type := type }) with
              building := update s.building inum (some p) } (some inum)
    else .ok s none

/-- The `create` that allocated the inode has linked it. -/
def finished (inum : Nat) : Kernel Pid Unit :=
  .atomic fun s =>
    if s.building inum = some p then
      .ok { s with building := update s.building inum none } ()
    else .ok s ()

/-- The entry of the table that `iget` finds: the one of the inode, or the
first one that is free. -/
def findInode (s : State Pid) (dev inum : Nat) : Option (Fin NINODE × Bool) :=
  match (List.finRange NINODE).find? fun e =>
      0 < (s.itable e).ref ∧ (s.itable e).dev = dev ∧ (s.itable e).inum = inum with
  | some e => some (e, true)
  | none =>
    ((List.finRange NINODE).find? fun e => (s.itable e).ref = 0).map fun e => (e, false)

def iget (dev inum : Nat) : Kernel Pid (Fin NINODE) :=
  .atomic fun s =>
    match findInode s dev inum with
    | some (e, true) => .ok (s.setInode e fun ip => { ip with ref := ip.ref + 1 }) e
    | some (e, false) =>
      .ok (s.setInode e fun ip =>
        { ip with dev := dev, inum := inum, ref := 1, valid := false }) e
    | none => .panic .igetNoInodes

def idup (e : Fin NINODE) : Kernel Pid Unit :=
  .atomic fun s => .ok (s.setInode e fun ip => { ip with ref := ip.ref + 1 }) ()

/-- The fields of an inode that the process has locked. -/
def getInode (e : Fin NINODE) : Kernel Pid (Inode Pid) := .atomic fun s => .ok s (s.itable e)

/-- Change the fields that are copies of the disk's. -/
def setDinodeMem (e : Fin NINODE) (f : Dinode → Dinode) : Kernel Pid Unit :=
  .atomic fun s => .ok (s.setInode e fun ip => { ip with d := f ip.d }) ()

def invalidate (e : Fin NINODE) : Kernel Pid Unit :=
  .atomic fun s => .ok (s.setInode e fun ip => { ip with valid := false }) ()

/-- The test of `ilock` and `acquiresleep`. -/
def acquireInode (e : Fin NINODE) : Kernel Pid Unit :=
  .atomic fun s =>
    if (s.itable e).ref < 1 then .panic .ilock
    else if (s.itable e).lock = none then
      .ok (s.setInode e fun ip => { ip with lock := some p }) ()
    else .block

/-- The rest of `ilock`: the fields come from the disk unless they are there. -/
def loadInode (e : Fin NINODE) : Kernel Pid Unit :=
  .atomic fun s =>
    if (s.itable e).valid then .ok s ()
    else
      let d := dinodeAt sb s.disk (s.itable e).inum
      if d.type = 0 then .panic .ilockNoType
      else .ok (s.setInode e fun ip => { ip with d := d, valid := true }) ()

def iunlock (e : Fin NINODE) : Kernel Pid Unit :=
  .atomic fun s =>
    if (s.itable e).lock ≠ some p ∨ (s.itable e).ref < 1 then .panic .iunlock
    else .ok (s.setInode e fun ip => { ip with lock := none }) ()

/-- `releasesleep(&ip->lock)`. -/
def releaseInode (e : Fin NINODE) : Kernel Pid Unit :=
  .atomic fun s => .ok (s.setInode e fun ip => { ip with lock := none }) ()

/-- The first section of `iput`: whether the inode has to be freed. If so, its
sleep-lock is taken with the table's spin-lock held. -/
def iputTest (e : Fin NINODE) : Kernel Pid Bool :=
  .atomic fun s =>
    let ip := s.itable e
    if ip.ref = 1 ∧ ip.valid = true ∧ ip.d.nlink = 0 then
      if ip.lock = none then .ok (s.setInode e fun ip => { ip with lock := some p }) true
      else .panic .schedLocks
    else .ok (s.setInode e fun ip => { ip with ref := ip.ref - 1 }) false

/-- The last section of `iput` after it has freed the inode. -/
def iputDrop (e : Fin NINODE) : Kernel Pid Unit :=
  .atomic fun s => .ok (s.setInode e fun ip => { ip with ref := ip.ref - 1 }) ()

def iupdate (e : Fin NINODE) : Kernel Pid Unit :=
  .atomic fun s =>
    let ip := s.itable e
    s.log { s.write p (sb.iblock ip.inum)
              (setDinode (s.disk (sb.iblock ip.inum)) (ip.inum % IPB) ip.d) with
            building :=
              if ip.d.type = 0 then update s.building ip.inum none else s.building } ()

/-! ## Open files and processes -/

def filealloc : Kernel Pid (Option (Fin NFILE)) :=
  .atomic fun s =>
    match (List.finRange NFILE).find? fun i => (s.ftable i).ref = 0 with
    | some i => .ok (s.setFile i fun f => { f with ref := 1 }) (some i)
    | none => .ok s none

def filedup (i : Fin NFILE) : Kernel Pid Unit :=
  .atomic fun s =>
    if (s.ftable i).ref < 1 then .panic .filedup
    else .ok (s.setFile i fun f => { f with ref := f.ref + 1 }) ()

/-- The section of `fileclose` under `ftable.lock`: the file, if this was its
last reference. -/
def filecloseTest (i : Fin NFILE) : Kernel Pid (Option File) :=
  .atomic fun s =>
    let f := s.ftable i
    if f.ref < 1 then .panic .fileclose
    else if 1 < f.ref then .ok (s.setFile i fun f => { f with ref := f.ref - 1 }) none
    else .ok (s.setFile i fun f => { f with ref := 0, type := .none }) (some f)

def getFile (i : Fin NFILE) : Kernel Pid File := .atomic fun s => .ok s (s.ftable i)

def setFile (i : Fin NFILE) (f : File → File) : Kernel Pid Unit :=
  .atomic fun s => .ok (s.setFile i f) ()

def myproc : Kernel Pid Proc := .atomic fun s => .ok s (s.procs p)

def setCwd (cwd : Option (Fin NINODE)) : Kernel Pid Unit :=
  .atomic fun s => .ok (s.setProc p fun proc => { proc with cwd := cwd }) ()

def setOfile (fd : Fin NOFILE) (i : Option (Fin NFILE)) : Kernel Pid Unit :=
  .atomic fun s =>
    .ok (s.setProc p fun proc => { proc with ofile := update proc.ofile fd i }) ()

def fdalloc (i : Fin NFILE) : Kernel Pid (Option (Fin NOFILE)) :=
  .atomic fun s =>
    match (List.finRange NOFILE).find? fun fd => (s.procs p).ofile fd = none with
    | some fd =>
      .ok (s.setProc p fun proc =>
        { proc with ofile := update proc.ofile fd (some i) }) (some fd)
    | none => .ok s none

/-- `allocproc`, if it finds the slot free. -/
def allocproc (child : Pid) : Kernel Pid Bool :=
  .atomic fun s =>
    if (s.procs child).state = .unused then
      .ok (s.setProc child fun proc => { proc with state := .used }) true
    else .ok s false

/-- `np->ofile[i] = filedup(p->ofile[i])`. -/
def forkFile (child : Pid) (fd : Fin NOFILE) (i : Fin NFILE) : Kernel Pid Unit :=
  .atomic fun s =>
    if (s.ftable i).ref < 1 then .panic .filedup
    else
      .ok ((s.setFile i fun f => { f with ref := f.ref + 1 }).setProc child fun proc =>
        { proc with ofile := update proc.ofile fd (some i) }) ()

/-- `np->cwd = idup(p->cwd)`. -/
def forkCwd (child : Pid) (e : Fin NINODE) : Kernel Pid Unit :=
  .atomic fun s =>
    .ok ((s.setInode e fun ip => { ip with ref := ip.ref + 1 }).setProc child fun proc =>
      { proc with cwd := some e }) ()

def setProcState (q : Pid) (state : ProcState) : Kernel Pid Unit :=
  .atomic fun s => .ok (s.setProc q fun proc => { proc with state := state }) ()

/-! ## History -/

/-- `namex` has found the next inode of a path. -/
def noteHop (dp ip : Fin NINODE) (name : List UInt8) : Kernel Pid Unit :=
  .atomic fun s =>
    let inum := (s.itable ip).inum
    let hop := Event.hop (s.itable dp).inum (s.itable dp).d.nlink name inum
      (dinodeAt sb s.disk inum).type
    .ok { s with events := hop :: s.events } ()

/-- An entry has been added to a directory. -/
def noteBind (dp ip : Fin NINODE) (name : List UInt8) : Kernel Pid Unit :=
  .atomic fun s =>
    let bind := Event.bind (s.itable dp).inum (s.itable dp).d.nlink name (s.itable ip).inum
    .ok { s with events := bind :: s.events } ()

end Steps

end Xv6.Fs
