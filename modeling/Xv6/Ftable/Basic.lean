import Xv6.Fs.Layout
import Xv6.Lib.Runs
import Xv6.Lib.Tally

/-!
# Open files

`filealloc`, `filedup` and `fileclose` of `file.c`, `pipealloc` and `pipeclose` of `pipe.c`,
and the calls that use them: `sys_open`, `sys_pipe`, `sys_dup`, `sys_close`, `fork` and
`exit`, with their failures. A process in a call has a list of things to do (`Op`). A step
does the first one, and processes take their steps in any order. What a step does is what
the source does with `ftable.lock` or the lock of a pipe held, or to memory that no other
process has.

The rest of the kernel appears as answers: whether `kalloc` finds a page, whether
`copyout` and `uvmcopy` succeed, which slot `allocproc` finds, and the inode that `namei`
or `create` returns.

The references that the kernel has to inodes and to the ends of pipes are numbered
(`State.refs`), in the order in which they are made, and `State.dropped` has the calls of
`iput` and `pipeclose` for each of them. The numbers are not in the source.
-/

namespace Xv6.Ftable

open Function

open Fs (NFILE NOFILE)

/-- `FD_NONE`, `FD_PIPE`, `FD_INODE` and `FD_DEVICE` -/
inductive FdType where
  | none
  | pipe
  | inode
  | device
  deriving DecidableEq

/-- An inode pointer, with the number of the reference. -/
structure Held (ι : Type) where
  ip : ι
  serial : Nat

/-- `struct file`, with the number of the reference that it stands for. -/
structure File (ι π : Type) where
  ref : Nat
  type : FdType
  readable : Bool
  writable : Bool
  pipe : Option π
  ip : Option ι
  serial : Nat

/-- `readopen` and `writeopen` of a pipe, with the number of its read end. The write end has
the next number. -/
structure Pipe where
  readopen : Bool
  writeopen : Bool
  serial : Nat

/-- What a reference is to. -/
inductive Target (ι π : Type) where
  | inode (ip : ι)
  | pipe (pi : π) (writable : Bool)
  deriving DecidableEq

/-- What `sys_open` has found out about the inode and the mode. -/
structure Mode where
  allowed : Bool -- not a directory to write, nor a device with a wrong number
  device : Bool
  readable : Bool
  writable : Bool

/-- What a process does next. -/
inductive Op (ι π : Type) (n : Nat) where
  | openAlloc (mode : Mode) (held : Held ι)
  | openFd (mode : Mode) (held : Held ι) (f : Fin NFILE)
  | openFill (mode : Mode) (held : Held ι) (f : Fin NFILE)
  | pipeFirst
  | pipeSecond (f0 : Fin NFILE)
  | pipeMem (f0 f1 : Fin NFILE)
  | pipeFd0 (f0 f1 : Fin NFILE)
  | pipeFd1 (f0 f1 : Fin NFILE) (fd0 : Fin NOFILE)
  | pipeCopy (f0 f1 : Fin NFILE) (fd0 fd1 : Fin NOFILE)
  | dupFd (fd : Fin NOFILE) (f : Fin NFILE)
  -- `filedup` in `sys_dup`, for the descriptor `new`
  | filedup (fd new : Fin NOFILE) (f : Fin NFILE)
  | clear (fd : Fin NOFILE) (f : Fin NFILE) -- `p->ofile[fd] = 0`, where it is `f`
  | fileclose (f : Fin NFILE)
  | pipeclose (pi : π) (writable : Bool) (serial : Nat)
  | iput (held : Held ι)
  | forkAlloc
  | forkMem (np : Fin n)
  | forkFd (np : Fin n) (i : Nat)
  | forkCwd (np : Fin n)
  | forkRun (np : Fin n)
  | exitFd (i : Nat)
  | exitCwd
  | exitZombie

/-- `UNUSED`, `USED`, `ZOMBIE`, and the states of a process that runs its code. -/
inductive Status where
  | unused
  | used
  | live
  | zombie
  deriving DecidableEq

structure Proc (ι π : Type) (n : Nat) where
  status : Status
  ofile : Fin NOFILE → Option (Fin NFILE)
  cwd : Option (Held ι)
  code : List (Op ι π n)

structure State (ι π : Type) (n : Nat) where
  file : Fin NFILE → File ι π
  proc : Fin n → Proc ι π n
  pipes : π → Option Pipe
  refs : List (Target ι π)
  dropped : Nat → List (Target ι π)
  freed : Nat → Nat -- how often the pipe with a number has been freed
  panic : Bool

/-- The answers of the rest of the kernel. -/
structure Answer (π : Type) (n : Nat) where
  page : Option π
  ok : Bool
  slot : Option (Fin n)

inductive Event (ι π : Type) (n : Nat) where
  | sysOpen (p : Fin n) (mode : Mode) (ip : ι) -- `sys_open` has the inode from `namei` or `create`
  | sysPipe (p : Fin n)
  | sysDup (p : Fin n) (fd : Fin NOFILE)
  | sysClose (p : Fin n) (fd : Fin NOFILE)
  | fork (p : Fin n)
  | exit (p : Fin n)
  | step (p : Fin n) (answer : Answer π n)
  -- a pass of `piperead` or `pipewrite` with the lock of the pipe
  | access (p : Fin n) (fd : Fin NOFILE)
  | freeproc (np : Fin n)

variable {ι π : Type} {n : Nat}

def Pipe.isOpen (pipe : Pipe) (writable : Bool) : Bool :=
  if writable then pipe.writeopen else pipe.readopen

def Pipe.shut (pipe : Pipe) (writable : Bool) : Pipe :=
  if writable then { pipe with writeopen := false } else { pipe with readopen := false }

/-- The number of an end of a pipe. -/
def Pipe.number (pipe : Pipe) (writable : Bool) : Nat := pipe.serial + writable.toNat

namespace State

def setProc (s : State ι π n) (p : Fin n) (proc : Proc ι π n) : State ι π n :=
  { s with proc := update s.proc p proc }

def setFile (s : State ι π n) (f : Fin NFILE) (file : File ι π) : State ι π n :=
  { s with file := update s.file f file }

def setCode (s : State ι π n) (p : Fin n) (code : List (Op ι π n)) : State ι π n :=
  s.setProc p { s.proc p with code }

def setOfile (s : State ι π n) (p : Fin n) (fd : Fin NOFILE) (f : Option (Fin NFILE)) :
    State ι π n :=
  s.setProc p { s.proc p with ofile := update (s.proc p).ofile fd f }

def setStatus (s : State ι π n) (p : Fin n) (status : Status) : State ι π n :=
  s.setProc p { s.proc p with status }

/-- The next number is for a reference to `target`. -/
def issue (s : State ι π n) (target : Target ι π) : State ι π n :=
  { s with refs := s.refs ++ [target] }

/-- `iput` or `pipeclose` for a reference. -/
def drop (s : State ι π n) (serial : Nat) (target : Target ι π) : State ι π n :=
  { s with dropped := update s.dropped serial (s.dropped serial ++ [target]) }

def setRef (s : State ι π n) (f : Fin NFILE) (ref : Nat) : State ι π n :=
  s.setFile f { s.file f with ref }

def filealloc (s : State ι π n) : Option (Fin NFILE) :=
  (List.finRange NFILE).find? fun f => (s.file f).ref = 0

/-- The page of a pipe, when `pipealloc` has made it. -/
def newPipe (s : State ι π n) [DecidableEq π] (f0 f1 : Fin NFILE) (pi : π) : State ι π n :=
  let serial := s.refs.length
  let s := { s with pipes := update s.pipes pi (some ⟨true, true, serial⟩) }
  let s := (s.issue (.pipe pi false)).issue (.pipe pi true)
  let s := s.setFile f0 { s.file f0 with
    type := .pipe, readable := true, writable := false, pipe := some pi, serial }
  s.setFile f1 { s.file f1 with
    type := .pipe, readable := false, writable := true, pipe := some pi, serial := serial + 1 }

end State

/-- The descriptor that `fdalloc` finds. -/
def fdalloc (ofile : Fin NOFILE → Option (Fin NFILE)) : Option (Fin NOFILE) :=
  (List.finRange NOFILE).find? fun fd => ofile fd = none

/-- What is left of `fileclose` when the last reference is gone, with `ff = *f`. -/
def File.release (ff : File ι π) : Option (List (Op ι π n)) :=
  match ff.type with
  | .none => some []
  | .pipe => ff.pipe.map fun pi => [.pipeclose pi ff.writable ff.serial]
  | .inode | .device => ff.ip.map fun ip => [.iput ⟨ip, ff.serial⟩]

/-- What `op` does, with `rest` to do after it. -/
def perform [DecidableEq π] (s : State ι π n) (p : Fin n) (answer : Answer π n)
    (rest : List (Op ι π n)) : Op ι π n → Option (State ι π n)
  | .openAlloc mode held =>
    match s.filealloc with
    | none => some (s.setCode p (.iput held :: rest))
    | some f => some ((s.setRef f 1).setCode p (.openFd mode held f :: rest))
  | .openFd mode held f =>
    match fdalloc (s.proc p).ofile with
    | none => some (s.setCode p (.fileclose f :: .iput held :: rest))
    | some fd => some ((s.setOfile p fd (some f)).setCode p (.openFill mode held f :: rest))
  | .openFill mode held f =>
    some ((s.setFile f { s.file f with
      type := if mode.device then .device else .inode
      ip := some held.ip
      readable := mode.readable
      writable := mode.writable
      serial := held.serial }).setCode p rest)
  | .pipeFirst =>
    match s.filealloc with
    | none => some (s.setCode p rest)
    | some f0 => some ((s.setRef f0 1).setCode p (.pipeSecond f0 :: rest))
  | .pipeSecond f0 =>
    match s.filealloc with
    | none => some (s.setCode p (.fileclose f0 :: rest))
    | some f1 => some ((s.setRef f1 1).setCode p (.pipeMem f0 f1 :: rest))
  | .pipeMem f0 f1 =>
    match answer.page with
    | none => some (s.setCode p (.fileclose f0 :: .fileclose f1 :: rest))
    | some pi =>
      match s.pipes pi with
      | some _ => none
      | none => some ((s.newPipe f0 f1 pi).setCode p (.pipeFd0 f0 f1 :: rest))
  | .pipeFd0 f0 f1 =>
    match fdalloc (s.proc p).ofile with
    | none => some (s.setCode p (.fileclose f0 :: .fileclose f1 :: rest))
    | some fd0 => some ((s.setOfile p fd0 (some f0)).setCode p (.pipeFd1 f0 f1 fd0 :: rest))
  | .pipeFd1 f0 f1 fd0 =>
    match fdalloc (s.proc p).ofile with
    | none => some (s.setCode p (.clear fd0 f0 :: .fileclose f0 :: .fileclose f1 :: rest))
    | some fd1 =>
      some ((s.setOfile p fd1 (some f1)).setCode p (.pipeCopy f0 f1 fd0 fd1 :: rest))
  | .pipeCopy f0 f1 fd0 fd1 =>
    if answer.ok then some (s.setCode p rest)
    else some (s.setCode p
      (.clear fd0 f0 :: .clear fd1 f1 :: .fileclose f0 :: .fileclose f1 :: rest))
  | .dupFd fd f =>
    match fdalloc (s.proc p).ofile with
    | none => some (s.setCode p rest)
    | some new => some ((s.setOfile p new (some f)).setCode p (.filedup fd new f :: rest))
  | .filedup _ _ f =>
    if (s.file f).ref < 1 then some { s with panic := true }
    else some ((s.setRef f ((s.file f).ref + 1)).setCode p rest)
  | .clear fd _ => some ((s.setOfile p fd none).setCode p rest)
  | .fileclose f =>
    if (s.file f).ref < 1 then some { s with panic := true }
    else if (s.file f).ref - 1 > 0 then some ((s.setRef f ((s.file f).ref - 1)).setCode p rest)
    else
      match (s.file f).release with
      | none => some { s with panic := true }
      | some ops =>
        some ((s.setFile f { s.file f with ref := 0, type := .none }).setCode p (ops ++ rest))
  | .pipeclose pi writable serial =>
    match s.pipes pi with
    | none => some { s with panic := true }
    | some pipe =>
      let pipe := pipe.shut writable
      let s := (s.drop serial (.pipe pi writable)).setCode p rest
      if !pipe.readopen && !pipe.writeopen then
        -- `kfree` comes after `release`; here nobody may use the page in between
        some { s with
          pipes := update s.pipes pi none
          freed := update s.freed pipe.serial (s.freed pipe.serial + 1) }
      else some { s with pipes := update s.pipes pi (some pipe) }
  | .iput held => some ((s.drop held.serial (.inode held.ip)).setCode p rest)
  | .forkAlloc =>
    match answer.slot with
    | none => some (s.setCode p rest)
    | some np =>
      if (s.proc np).status = .unused then
        some ((s.setStatus np .used).setCode p (.forkMem np :: rest))
      else none
  | .forkMem np =>
    if answer.ok then some (s.setCode p (.forkFd np 0 :: rest))
    else some ((s.setStatus np .unused).setCode p rest)
  | .forkFd np i =>
    if bound : i < NOFILE then
      match (s.proc p).ofile ⟨i, bound⟩ with
      | none => some (s.setCode p (.forkFd np (i + 1) :: rest))
      | some f =>
        if (s.file f).ref < 1 then some { s with panic := true }
        else some (((s.setRef f ((s.file f).ref + 1)).setOfile np ⟨i, bound⟩ (some f)).setCode p
          (.forkFd np (i + 1) :: rest))
    else some (s.setCode p (.forkCwd np :: rest))
  | .forkCwd np =>
    match (s.proc p).cwd with
    | none => some { s with panic := true }
    | some held =>
      some (((s.issue (.inode held.ip)).setProc np { s.proc np with
        cwd := some ⟨held.ip, s.refs.length⟩ }).setCode p (.forkRun np :: rest))
  | .forkRun np => some ((s.setStatus np .live).setCode p rest)
  | .exitFd i =>
    if bound : i < NOFILE then
      match (s.proc p).ofile ⟨i, bound⟩ with
      | none => some (s.setCode p (.exitFd (i + 1) :: rest))
      | some f =>
        some (s.setCode p (.fileclose f :: .clear ⟨i, bound⟩ f :: .exitFd (i + 1) :: rest))
    else some (s.setCode p (.exitCwd :: rest))
  | .exitCwd =>
    match (s.proc p).cwd with
    | none => some { s with panic := true }
    | some held =>
      some (((s.drop held.serial (.inode held.ip)).setProc p
        { s.proc p with cwd := none }).setCode p (.exitZombie :: rest))
  | .exitZombie => some ((s.setStatus p .zombie).setCode p rest)

/-- A process that is not in a call begins one. -/
def enter (s : State ι π n) (p : Fin n) (code : List (Op ι π n)) : Option (State ι π n) :=
  match (s.proc p).status, (s.proc p).code with
  | .live, [] => some (s.setCode p code)
  | _, _ => none

/-- One step of the system. Nothing happens after a panic. -/
def next [DecidableEq π] (s : State ι π n) (event : Event ι π n) : Option (State ι π n) :=
  if s.panic then none
  else
    match event with
    | .sysOpen p mode ip =>
      let held : Held ι := ⟨ip, s.refs.length⟩
      enter (s.issue (.inode ip)) p [if mode.allowed then .openAlloc mode held else .iput held]
    | .sysPipe p => enter s p [.pipeFirst]
    | .sysDup p fd =>
      match (s.proc p).ofile fd with
      | none => none
      | some f => enter s p [.dupFd fd f]
    | .sysClose p fd =>
      match (s.proc p).ofile fd with
      | none => none
      | some f => enter s p [.clear fd f, .fileclose f]
    | .fork p => enter s p [.forkAlloc]
    | .exit p => enter s p [.exitFd 0]
    | .step p answer =>
      match (s.proc p).status, (s.proc p).code with
      | .live, op :: rest => perform s p answer rest op
      | _, _ => none
    | .access p fd =>
      match (s.proc p).status, (s.proc p).code, (s.proc p).ofile fd with
      | .live, [], some f =>
        if (s.file f).type = .pipe then
          match (s.file f).pipe.bind s.pipes with
          | none => some { s with panic := true }
          | some _ => some s
        else none
      | _, _, _ => none
    | .freeproc np =>
      if (s.proc np).status = .zombie then some (s.setStatus np .unused) else none

def Step [DecidableEq π] (s : State ι π n) (event : Event ι π n) (t : State ι π n) : Prop :=
  next s event = some t

/-- After `userinit`: one process, in the root directory. -/
def initial (ι π : Type) (n : Nat) (root : ι) (init : Fin n) : State ι π n where
  file := fun _ => ⟨0, .none, false, false, none, none, 0⟩
  proc := update (fun _ => ⟨.unused, fun _ => none, none, []⟩) init
    ⟨.live, fun _ => none, some ⟨root, 0⟩, []⟩
  pipes := fun _ => none
  refs := [.inode root]
  dropped := fun _ => []
  freed := fun _ => 0
  panic := false

end Xv6.Ftable
