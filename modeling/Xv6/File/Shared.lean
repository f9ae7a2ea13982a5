import Xv6.Fs.Syscall

/-!
# An open file that processes share

`filewrite` and `fileread` of `file.c` on one open file of an inode, by any number of processes
that have it by `dup` or `fork`. A write goes in chunks: for each the inode is locked, `writei`
copies the bytes at `f->off` block by block, `f->off` moves on, and the inode is unlocked. A
read locks the inode once.

The file is the bytes at all offsets, with a size. `room` says for which blocks of the file
`bmap` finds a block of the disk, or one that is free. The sources of writes are valid. The
transactions around the chunks do not touch the file and are left out.

No call reads the events.
-/

namespace Xv6.File

open Fs (MAXFILE maxWrite)

variable {Pid : Type} [DecidableEq Pid]

inductive Panic where
  | iunlock
  deriving DecidableEq, Repr

/-- What has happened to the file. -/
inductive Event (Pid : Type) where
  | called (p : Pid) (buf : List UInt8)
  -- a chunk is stored, and `f->off` has moved past it
  | wrote (p : Pid) (start : Nat) (bytes : List UInt8)
  | read (p : Pid) (start len : Nat)
  -- `filewrite` gives up: `writei` did not take a chunk at that offset whole
  | short (p : Pid) (off len : Nat)
  deriving DecidableEq, Repr

structure State (Pid : Type) where
  off : Nat
  size : Nat
  data : Nat → UInt8
  lock : Option Pid
  events : List (Event Pid)

abbrev Code (Pid : Type) (α : Type) := Prog (State Pid) Panic α

/-! ## Steps -/

/-- Other bytes from an offset on. -/
def place (data : Nat → UInt8) (off : Nat) (bytes : List UInt8) (i : Nat) : UInt8 :=
  if off ≤ i ∧ i < off + bytes.length then bytes.getD (i - off) 0 else data i

def ilock (p : Pid) : Code Pid Unit :=
  .atomic fun s => if s.lock = none then .ok { s with lock := some p } () else .block

def iunlock (p : Pid) : Code Pid Unit :=
  .atomic fun s => if s.lock = some p then .ok { s with lock := none } () else .panic .iunlock

/-- `f->off` and `ip->size`, which only the process that has locked the inode changes. -/
def getFile : Code Pid (Nat × Nat) := .atomic fun s => .ok s (s.off, s.size)

/-- A step that changes the state and does nothing else. -/
def change (f : State Pid → State Pid) : Code Pid Unit := .atomic fun s => .ok (f s) ()

/-- The bytes of one block are copied and logged. -/
def putBytes (off : Nat) (bytes : List UInt8) (s : State Pid) : State Pid :=
  { s with data := place s.data off bytes }

/-- `if(off > ip->size) ip->size = off;` -/
def growTo (off : Nat) (s : State Pid) : State Pid := { s with size := max s.size off }

/-- `f->off += r` after a write of these bytes. -/
def advance (p : Pid) (bytes : List UInt8) (s : State Pid) : State Pid :=
  { s with off := (s.off + bytes.length) % 2 ^ 32, events := .wrote p s.off bytes :: s.events }

/-- `f->off += r` after a read. -/
def skip (p : Pid) (len : Nat) (s : State Pid) : State Pid :=
  { s with off := (s.off + len) % 2 ^ 32, events := .read p s.off len :: s.events }

def note (event : Event Pid) (s : State Pid) : State Pid := { s with events := event :: s.events }

/-! ## Calls -/

section Calls

variable (room : Nat → Bool) (p : Pid)

/-- The loop of `writei`: the number of bytes written. -/
def writeiLoop (bytes : List UInt8) (off : Nat) : Nat → Nat → Code Pid Nat
  | 0, tot => return tot
  | fuel + 1, tot =>
    if tot < bytes.length then
      if room ((off + tot) / BSIZE) then do
        let m := min (bytes.length - tot) (BSIZE - (off + tot) % BSIZE)
        change (putBytes (off + tot) ((bytes.drop tot).take m))
        writeiLoop bytes off fuel (tot + m)
      else return tot
    else return tot

def writei (bytes : List UInt8) (off size : Nat) : Code Pid Int := do
  if size < off ∨ (off + bytes.length) % 2 ^ 32 < off then return -1
  else if MAXFILE * BSIZE < (off + bytes.length) % 2 ^ 32 then return -1
  else
    let tot ← writeiLoop room bytes off bytes.length 0
    change (growTo (off + tot))
    return tot

/-- One pass of the loop of `filewrite`, up to the test of what `writei` returned. -/
def filewriteChunk (bytes : List UInt8) : Code Pid Bool := do
  ilock p
  let (off, size) ← getFile
  let r ← writei room bytes off size
  if 0 < r then
    change (advance p (bytes.take r.toNat))
    iunlock p
    if r = bytes.length then return true
    else
      change (note (.short p off bytes.length))
      return false
  else
    iunlock p
    if r = bytes.length then return true
    else
      change (note (.short p off bytes.length))
      return false

/-- The loop of `filewrite`: the bytes written by full chunks. -/
def filewriteLoop (buf : List UInt8) : Nat → Nat → Code Pid Nat
  | 0, i => return i
  | fuel + 1, i =>
    if i < buf.length then do
      let n1 := min (buf.length - i) maxWrite
      if ← filewriteChunk room p ((buf.drop i).take n1) then filewriteLoop buf fuel (i + n1)
      else return i
    else return i

def filewrite (buf : List UInt8) : Code Pid Int := do
  change (note (.called p buf))
  let i ← filewriteLoop room p buf buf.length 0
  if i = buf.length then return buf.length else return -1

/-- What `readi` returns; `copied` says whether the destination is valid. -/
def readi (off n size : Nat) (copied : Bool) : Int :=
  if size < off ∨ (off + n) % 2 ^ 32 < off then 0
  else
    let n := if size < (off + n) % 2 ^ 32 then size - off else n
    if copied then n else -1

def fileread (n : Int) (copied : Bool) : Code Pid Int := do
  ilock p
  let (off, size) ← getFile
  let r := readi off (n % 2 ^ 32).toNat size copied
  if 0 < r then
    change (skip p r.toNat)
    iunlock p
    return r
  else
    iunlock p
    return r

end Calls

inductive Call where
  | write (buf : List UInt8)
  | read (n : Int) (copied : Bool)

/-- The processes that share the file: each can always read or write. -/
def sharers (room : Nat → Bool) : Machine (State Pid) Panic Pid Call Int where
  code := fun p call =>
    match call with
    | .write buf => filewrite room p buf
    | .read n copied => fileread p n copied
  ready := fun _ _ _ => true

end Xv6.File
