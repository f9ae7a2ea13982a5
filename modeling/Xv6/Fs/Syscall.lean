import Xv6.Fs.Dir

/-!
# System calls on files

The programs of `sysfile.c` and `file.c`, and the parts of `fork` and `exit` that
are about files. A call carries what the source fetches from user memory: a path,
or `none` where `argstr` fails.

Left out are pipes and `exec`, the drivers behind `devsw` (a call says what the
driver returns), and of a process all but its open files and its directory.
-/

namespace Xv6.Fs

variable {Pid : Type} [DecidableEq Pid] (sb : Super) (p : Pid)

def MAXPATH : Nat := 128
def O_RDONLY : UInt32 := 0
def O_WRONLY : UInt32 := 1
def O_RDWR : UInt32 := 2
def O_CREATE : UInt32 := 0x200
def O_TRUNC : UInt32 := 0x400

/-- What `stati` copies. -/
structure Stat where
  dev : Nat
  ino : Nat
  type : Int16
  nlink : Int16
  size : Nat
  deriving DecidableEq, Repr

inductive Result (Pid : Type) where
  | int (value : Int)
  | pid (child : Pid)
  | data (value : Int) (bytes : List UInt8)
  | stat (st : Stat)

def failed : Result Pid := .int (-1)

/-! ## Arguments -/

/-- `argstr`: the string at an address, if it can be read and is short enough. -/
def argstr (bytes : Option (List UInt8)) : Option (List UInt8) := do
  let path := (← bytes).takeWhile (· ≠ 0)
  if path.length < MAXPATH then some path else none

def argfd (fd : Int) : Kernel Pid (Option (Fin NOFILE × Fin NFILE)) := do
  let proc ← myproc p
  if bound : 0 ≤ fd ∧ fd < NOFILE then
    let fd : Fin NOFILE := ⟨fd.toNat, by omega⟩
    return (proc.ofile fd).map fun i => (fd, i)
  else return none

/-! ## Open files -/

def fileclose (i : Fin NFILE) : Kernel Pid Unit := do
  match ← filecloseTest i with
  | none => return ()
  | some ff =>
    if ff.type = .none then return ()
    else
      beginOp p
      iput sb p ff.ip
      endOp

def stati (ip : Inode Pid) : Stat :=
  ⟨ip.dev, ip.inum, ip.d.type, ip.d.nlink, ip.d.size.toNat⟩

/-- `filestat`. `copied` says whether the copy to user memory succeeds. -/
def filestat (i : Fin NFILE) (copied : Bool) : Kernel Pid (Result Pid) := do
  let f ← getFile i
  if f.type = .none then return failed
  else
    ilock sb p f.ip
    let ip ← getInode f.ip
    iunlock p f.ip
    if copied then return .stat (stati ip) else return failed

/-- A major number without an entry in `devsw`. -/
def badMajor (major : Int16) : Prop := major < 0 ∨ Int16.ofNat NDEV ≤ major

instance (major : Int16) : Decidable (badMajor major) := inferInstanceAs (Decidable (_ ∨ _))

/-- `fileread`. `device` is what the driver returns, if there is one. -/
def fileread (i : Fin NFILE) (dst : Nat → Nat → Bool) (n : Int) (device : Option Int) :
    Kernel Pid (Result Pid) := do
  let f ← getFile i
  if f.readable = false then return failed
  else
    match f.type with
    | .device => if badMajor f.major then return failed else return .int (device.getD (-1))
    | .inode =>
      ilock sb p f.ip
      let f ← getFile i
      let (r, bytes) ← readi sb p f.ip dst f.off (n % 2 ^ 32).toNat
      if 0 < r then
        setFile i fun f => { f with off := (f.off + r.toNat) % 2 ^ 32 }
        iunlock p f.ip
        return .data r bytes
      else
        iunlock p f.ip
        return .data r bytes
    | .none => Prog.stop .fileread

/-- The most bytes `filewrite` writes in one transaction. -/
def maxWrite : Nat := (MAXOPBLOCKS - 1 - 1 - 2) / 2 * BSIZE

def Source.drop (src : Source) (k : Nat) : Source :=
  ⟨fun i => src.byte (k + i), fun off m => src.fault (k + off) m⟩

/-- One pass of the loop of `filewrite`: what `writei` returns. -/
def filewriteChunk (i : Fin NFILE) (src : Source) (n1 : Nat) : Kernel Pid Int := do
  beginOp p
  let f ← getFile i
  ilock sb p f.ip
  let f ← getFile i
  let r ← writei sb p f.ip src f.off n1
  if 0 < r then
    setFile i fun f => { f with off := (f.off + r.toNat) % 2 ^ 32 }
    iunlock p f.ip
    endOp
    return r
  else
    iunlock p f.ip
    endOp
    return r

/-- The loop of `filewrite`: the bytes written by full chunks. -/
def filewriteLoop (i : Fin NFILE) (src : Source) (n : Nat) : Nat → Nat → Kernel Pid Nat
  | 0, done => return done
  | fuel + 1, done =>
    if done < n then do
      let n1 := min (n - done) maxWrite
      let r ← filewriteChunk sb p i (src.drop done) n1
      if r = n1 then filewriteLoop i src n fuel (done + n1) else return done
    else return done

def filewrite (i : Fin NFILE) (src : Source) (n : Int) (device : Option Int) :
    Kernel Pid (Result Pid) := do
  let f ← getFile i
  if f.writable = false then return failed
  else
    match f.type with
    | .device => if badMajor f.major then return failed else return .int (device.getD (-1))
    | .inode =>
      let done ← filewriteLoop sb p i src n.toNat n.toNat 0
      if done = n then return .int n else return failed
    | .none => Prog.stop .filewrite

/-! ## Calls on descriptors -/

def sysDup (fd : Int) : Kernel Pid (Result Pid) := do
  match ← argfd p fd with
  | none => return failed
  | some (_, i) =>
    match ← fdalloc p i with
    | none => return failed
    | some fd =>
      filedup i
      return .int fd

def sysRead (fd : Int) (dst : Nat → Nat → Bool) (n : Int) (device : Option Int) :
    Kernel Pid (Result Pid) := do
  match ← argfd p fd with
  | none => return failed
  | some (_, i) => fileread sb p i dst n device

def sysWrite (fd : Int) (src : Source) (n : Int) (device : Option Int) :
    Kernel Pid (Result Pid) := do
  match ← argfd p fd with
  | none => return failed
  | some (_, i) => filewrite sb p i src n device

def sysClose (fd : Int) : Kernel Pid (Result Pid) := do
  match ← argfd p fd with
  | none => return failed
  | some (fd, i) =>
    setOfile p fd none
    fileclose sb p i
    return .int 0

def sysFstat (fd : Int) (copied : Bool) : Kernel Pid (Result Pid) := do
  match ← argfd p fd with
  | none => return failed
  | some (_, i) => filestat sb p i copied

/-! ## Calls on names -/

/-- The label `bad` of `sys_link`. -/
def sysLinkBad (ip : Fin NINODE) : Kernel Pid (Result Pid) := do
  ilock sb p ip
  setDinodeMem ip fun d => { d with nlink := d.nlink - 1 }
  iupdate sb p ip
  iunlockput sb p ip
  endOp
  return failed

/-- `sys_link` from the search for the new parent on. -/
def sysLinkTo (ip : Fin NINODE) (path : List UInt8) : Kernel Pid (Result Pid) := do
  match ← nameiparent sb p path with
  | none => sysLinkBad sb p ip
  | some (dp, name) =>
    ilock sb p dp
    let parent ← getInode dp
    let inode ← getInode ip
    if parent.dev ≠ inode.dev then
      iunlockput sb p dp
      sysLinkBad sb p ip
    else
      let r ← dirlink sb p dp name inode.inum
      if r < 0 then
        iunlockput sb p dp
        sysLinkBad sb p ip
      else
        noteBind dp ip name
        iunlockput sb p dp
        iput sb p ip
        endOp
        return .int 0

def sysLink (oldPath newPath : Option (List UInt8)) : Kernel Pid (Result Pid) := do
  match argstr oldPath, argstr newPath with
  | some oldPath, some newPath =>
    beginOp p
    match ← namei sb p oldPath with
    | none =>
      endOp
      return failed
    | some ip =>
      ilock sb p ip
      let inode ← getInode ip
      if inode.d.type = T_DIR then
        iunlockput sb p ip
        endOp
        return failed
      else
        setDinodeMem ip fun d => { d with nlink := d.nlink + 1 }
        iupdate sb p ip
        iunlock p ip
        sysLinkTo sb p ip newPath
  | _, _ => return failed

/-- The label `bad` of `sys_unlink`. -/
def sysUnlinkBad (dp : Fin NINODE) : Kernel Pid (Result Pid) := do
  iunlockput sb p dp
  endOp
  return failed

/-- A directory that is removed no longer links to its parent. -/
def dropParentLink (dp ip : Fin NINODE) : Kernel Pid Unit := do
  let inode ← getInode ip
  if inode.d.type = T_DIR then
    setDinodeMem dp fun d => { d with nlink := d.nlink - 1 }
    iupdate sb p dp
  else return ()

/-- `sys_unlink` once the entry may be removed. -/
def sysUnlinkEntry (dp ip : Fin NINODE) (k : Nat) : Kernel Pid (Result Pid) := do
  let r ← writeDirent sb p dp .zero k
  if r = DIRENT then
    dropParentLink sb p dp ip
    iunlockput sb p dp
    setDinodeMem ip fun d => { d with nlink := d.nlink - 1 }
    iupdate sb p ip
    iunlockput sb p ip
    endOp
    return .int 0
  else Prog.stop .unlinkWritei

/-- The test of `sys_unlink` for a directory that is not empty. -/
def keepsEntries (ip : Fin NINODE) : Kernel Pid Bool := do
  let inode ← getInode ip
  if inode.d.type = T_DIR then
    let empty ← isdirempty sb p ip
    return !empty
  else return false

/-- `sys_unlink` from the lock of the parent on. -/
def sysUnlinkIn (dp : Fin NINODE) (name : List UInt8) : Kernel Pid (Result Pid) := do
  ilock sb p dp
  if namecmp name dot = 0 ∨ namecmp name dotdot = 0 then sysUnlinkBad sb p dp
  else
    match ← dirlookup sb p dp name with
    | none => sysUnlinkBad sb p dp
    | some (ip, k) =>
      ilock sb p ip
      let inode ← getInode ip
      if inode.d.nlink < 1 then Prog.stop .unlinkNlink
      else if ← keepsEntries sb p ip then
        iunlockput sb p ip
        sysUnlinkBad sb p dp
      else sysUnlinkEntry sb p dp ip k

def sysUnlink (path : Option (List UInt8)) : Kernel Pid (Result Pid) := do
  match argstr path with
  | none => return failed
  | some path =>
    beginOp p
    match ← nameiparent sb p path with
    | none =>
      endOp
      return failed
    | some (dp, name) => sysUnlinkIn sb p dp name

/-- `sys_open` gives up. -/
def sysOpenBad (ip : Fin NINODE) : Kernel Pid (Result Pid) := do
  iunlockput sb p ip
  endOp
  return failed

/-- The fields of the open file that `sys_open` makes. -/
def openedFile (ip : Fin NINODE) (d : Dinode) (omode : UInt32) (f : File) : File :=
  { f with
    type := if d.type = T_DEVICE then .device else .inode
    major := if d.type = T_DEVICE then d.major else f.major
    off := if d.type = T_DEVICE then f.off else 0
    ip := ip
    readable := omode &&& O_WRONLY = 0
    writable := omode &&& O_WRONLY ≠ 0 ∨ omode &&& O_RDWR ≠ 0 }

/-- `O_TRUNC`. -/
def openTrunc (ip : Fin NINODE) (d : Dinode) (omode : UInt32) : Kernel Pid Unit :=
  if omode &&& O_TRUNC ≠ 0 ∧ d.type = T_FILE then itrunc sb p ip else return ()

/-- `sys_open` with the inode locked. -/
def sysOpenInode (ip : Fin NINODE) (omode : UInt32) : Kernel Pid (Result Pid) := do
  let inode ← getInode ip
  if inode.d.type = T_DEVICE ∧ badMajor inode.d.major then sysOpenBad sb p ip
  else
    match ← filealloc with
    | none => sysOpenBad sb p ip
    | some f =>
      match ← fdalloc p f with
      | none =>
        fileclose sb p f
        sysOpenBad sb p ip
      | some fd =>
        setFile f (openedFile ip inode.d omode)
        openTrunc sb p ip inode.d omode
        iunlock p ip
        endOp
        return .int fd

def sysOpen (path : Option (List UInt8)) (omode : UInt32) : Kernel Pid (Result Pid) := do
  match argstr path with
  | none => return failed
  | some path =>
    beginOp p
    if omode &&& O_CREATE ≠ 0 then
      match ← create sb p path T_FILE 0 0 with
      | none =>
        endOp
        return failed
      | some ip => sysOpenInode sb p ip omode
    else
      match ← namei sb p path with
      | none =>
        endOp
        return failed
      | some ip =>
        ilock sb p ip
        let inode ← getInode ip
        if inode.d.type = T_DIR ∧ omode ≠ O_RDONLY then sysOpenBad sb p ip
        else sysOpenInode sb p ip omode

/-- `sys_mkdir` and `sys_mknod`, which differ in what they create. -/
def sysMake (path : Option (List UInt8)) (type major minor : Int16) : Kernel Pid (Result Pid) := do
  beginOp p
  match argstr path with
  | none =>
    endOp
    return failed
  | some path =>
    match ← create sb p path type major minor with
    | none =>
      endOp
      return failed
    | some ip =>
      iunlockput sb p ip
      endOp
      return .int 0

def sysMkdir (path : Option (List UInt8)) : Kernel Pid (Result Pid) :=
  sysMake sb p path T_DIR 0 0

def sysMknod (path : Option (List UInt8)) (major minor : Int16) : Kernel Pid (Result Pid) :=
  sysMake sb p path T_DEVICE major minor

/-- `iput(p->cwd)`. -/
def putCwd : Kernel Pid Unit := do
  let proc ← myproc p
  match proc.cwd with
  | some e => iput sb p e
  | none => Prog.stop .kerneltrap

def sysChdir (path : Option (List UInt8)) : Kernel Pid (Result Pid) := do
  beginOp p
  match argstr path with
  | none =>
    endOp
    return failed
  | some path =>
    match ← namei sb p path with
    | none =>
      endOp
      return failed
    | some ip =>
      ilock sb p ip
      let inode ← getInode ip
      if inode.d.type ≠ T_DIR then
        iunlockput sb p ip
        endOp
        return failed
      else
        iunlock p ip
        putCwd sb p
        endOp
        setCwd p (some ip)
        return .int 0

/-! ## Processes -/

/-- The open files in `fork`. -/
def forkFiles (proc : Proc) (child : Pid) (fd : Fin NOFILE) : Kernel Pid Unit :=
  match proc.ofile fd with
  | some i => forkFile child fd i
  | none => return ()

/-- `fork`, if there is memory for the child. -/
def fork (child : Option Pid) : Kernel Pid (Result Pid) := do
  match child with
  | none => return failed
  | some child =>
    if ← allocproc child then
      let proc ← myproc p
      Prog.forEach (List.finRange NOFILE) (forkFiles proc child)
      match proc.cwd with
      | some e =>
        forkCwd child e
        setProcState child .runnable
        return .pid child
      | none => Prog.stop .kerneltrap
    else return failed

/-- The loop of `exit` over the open files. -/
def exitFile (fd : Fin NOFILE) : Kernel Pid Unit := do
  let proc ← myproc p
  match proc.ofile fd with
  | some i =>
    fileclose sb p i
    setOfile p fd none
  | none => return ()

def exit : Kernel Pid (Result Pid) := do
  Prog.forEach (List.finRange NOFILE) (exitFile sb p)
  beginOp p
  putCwd sb p
  endOp
  setCwd p none
  setProcState p .unused
  return .int 0

/-! ## The system -/

inductive Call (Pid : Type) where
  | sysOpen (path : Option (List UInt8)) (omode : UInt32)
  | sysMkdir (path : Option (List UInt8))
  | sysMknod (path : Option (List UInt8)) (major minor : Int16)
  | sysLink (oldPath newPath : Option (List UInt8))
  | sysUnlink (path : Option (List UInt8))
  | sysChdir (path : Option (List UInt8))
  | sysDup (fd : Int)
  | sysRead (fd : Int) (dst : Nat → Nat → Bool) (n : Int) (device : Option Int)
  | sysWrite (fd : Int) (src : Source) (n : Int) (device : Option Int)
  | sysClose (fd : Int)
  | sysFstat (fd : Int) (copied : Bool)
  | fork (child : Option Pid)
  | exit

def code : Call Pid → Kernel Pid (Result Pid)
  | .sysOpen path omode => sysOpen sb p path omode
  | .sysMkdir path => sysMkdir sb p path
  | .sysMknod path major minor => sysMknod sb p path major minor
  | .sysLink oldPath newPath => sysLink sb p oldPath newPath
  | .sysUnlink path => sysUnlink sb p path
  | .sysChdir path => sysChdir sb p path
  | .sysDup fd => sysDup p fd
  | .sysRead fd dst n device => sysRead sb p fd dst n device
  | .sysWrite fd src n device => sysWrite sb p fd src n device
  | .sysClose fd => sysClose sb p fd
  | .sysFstat fd copied => sysFstat sb p fd copied
  | .fork child => fork p child
  | .exit => exit sb p

/-- The kernel: the processes that are not free make calls. -/
def kernel : Machine (State Pid) Panic Pid (Call Pid) (Result Pid) where
  code := code sb
  ready := fun s p _ => (s.procs p).state = .runnable

end Xv6.Fs
