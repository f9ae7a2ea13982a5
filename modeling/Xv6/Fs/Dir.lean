import Xv6.Fs.Inode

/-!
# Directories and paths

The programs of `fs.c` from `dirlookup` on, and `create` of `sysfile.c`. A name
is the list of its bytes, and the end of the list is its terminating zero.
-/

namespace Xv6.Fs

variable {Pid : Type} [DecidableEq Pid] (sb : Super) (p : Pid)

/-! ## Directories -/

/-- The number of `struct dirent` in that many bytes. -/
def slots (size : Nat) : Nat := (size + DIRENT - 1) / DIRENT

/-- `readi` of one directory entry. -/
def readDirent (dp : Fin NINODE) (why : Panic) (k : Nat) : Kernel Pid Dirent := do
  let (r, bytes) ← readi sb p dp (fun _ _ => true) (DIRENT * k) DIRENT
  if r = DIRENT then return .ofBytes bytes else Prog.stop why

def dirlookupAt (dp : Fin NINODE) (name : List UInt8) (k : Nat) :
    Kernel Pid (Option (Nat × Nat)) := do
  let de ← readDirent sb p dp .dirlookupRead k
  if de.inum = 0 then return none
  else if namecmp name de.name = 0 then return some (de.inum, k)
  else return none

/-- `dirlookup`: the inode, and the slot of the entry. -/
def dirlookup (dp : Fin NINODE) (name : List UInt8) : Kernel Pid (Option (Fin NINODE × Nat)) := do
  let ip ← getInode dp
  if ip.d.type ≠ T_DIR then Prog.stop .dirlookupNotDir
  else
    match ← Prog.first (List.range (slots ip.d.size.toNat)) (dirlookupAt sb p dp name) with
    | some (inum, k) =>
      let e ← iget ip.dev inum
      return some (e, k)
    | none => return none

def dirlinkAt (dp : Fin NINODE) (k : Nat) : Kernel Pid (Option Nat) := do
  let de ← readDirent sb p dp .dirlinkRead k
  if de.inum = 0 then return some k else return none

/-- `writei` of one directory entry. -/
def writeDirent (dp : Fin NINODE) (de : Dirent) (k : Nat) : Kernel Pid Int :=
  writei sb p dp (.kernel de.toBytes) (DIRENT * k) DIRENT

def dirlink (dp : Fin NINODE) (name : List UInt8) (inum : Nat) : Kernel Pid Int := do
  match ← dirlookup sb p dp name with
  | some (ip, _) =>
    iput sb p ip
    return -1
  | none =>
    let ip ← getInode dp
    let found ← Prog.first (List.range (slots ip.d.size.toNat)) (dirlinkAt sb p dp)
    let k := found.getD (slots ip.d.size.toNat)
    let r ← writeDirent sb p dp ⟨inum, strncpy DIRSIZ name⟩ k
    if r = DIRENT then return 0 else return -1

def isdiremptyAt (dp : Fin NINODE) (k : Nat) : Kernel Pid (Option Unit) := do
  let de ← readDirent sb p dp .isdiremptyReadi k
  if de.inum = 0 then return none else return some ()

def isdirempty (dp : Fin NINODE) : Kernel Pid Bool := do
  let ip ← getInode dp
  let found ← Prog.first (List.range' 2 (slots ip.d.size.toNat - 2)) (isdiremptyAt sb p dp)
  return found.isNone

/-! ## Paths -/

def slash : UInt8 := 47

def dot : List UInt8 := [46]

def dotdot : List UInt8 := [46, 46]

/-- `skipelem`: the next element of a path, and what follows it. -/
def skipelem (path : List UInt8) : Option (List UInt8 × List UInt8) :=
  let path := path.dropWhile (· = slash)
  if path = [] then none
  else some ((path.takeWhile (· ≠ slash)).take DIRSIZ,
    (path.dropWhile (· ≠ slash)).dropWhile (· = slash))

def namexEnd (parent : Bool) (ip : Fin NINODE) : Kernel Pid (Option (Fin NINODE × List UInt8)) := do
  if parent then
    iput sb p ip
    return none
  else return some (ip, [])

/-- The loop of `namex`. Each pass takes at least one byte of the path. -/
def namexLoop (parent : Bool) :
    Nat → List UInt8 → Fin NINODE → Kernel Pid (Option (Fin NINODE × List UInt8))
  | 0, _, ip => namexEnd sb p parent ip
  | fuel + 1, path, ip =>
    match skipelem path with
    | none => namexEnd sb p parent ip
    | some (name, path) => do
        ilock sb p ip
        let inode ← getInode ip
        if inode.d.type ≠ T_DIR then
          iunlockput sb p ip
          return none
        else if parent ∧ path = [] then
          -- stop one level early
          iunlock p ip
          return some (ip, name)
        else
          match ← dirlookup sb p ip name with
          | none =>
            iunlockput sb p ip
            return none
          | some (next, _) =>
            noteHop sb ip next name
            iunlockput sb p ip
            namexLoop parent fuel path next

/-- `idup(myproc()->cwd)`. -/
def dupCwd : Kernel Pid (Fin NINODE) := do
  let proc ← myproc p
  match proc.cwd with
  | some e =>
    idup e
    return e
  | none => Prog.stop .kerneltrap

/-- `namex`: the inode, and the last element if it is the parent's. -/
def namex (parent : Bool) (path : List UInt8) : Kernel Pid (Option (Fin NINODE × List UInt8)) := do
  let ip ← if path.head? = some slash then iget ROOTDEV ROOTINO else dupCwd p
  namexLoop sb p parent path.length path ip

def namei (path : List UInt8) : Kernel Pid (Option (Fin NINODE)) := do
  let found ← namex sb p false path
  return found.map Prod.fst

def nameiparent (path : List UInt8) : Kernel Pid (Option (Fin NINODE × List UInt8)) :=
  namex sb p true path

/-! ## `create` -/

/-- The calls of `dirlink` in `create`: whether all of them succeed. -/
def createLinks (dp ip : Fin NINODE) (name : List UInt8) (type : Int16) : Kernel Pid Bool := do
  let parent ← getInode dp
  let inode ← getInode ip
  if type = T_DIR then
    let r ← dirlink sb p ip dot inode.inum
    if r < 0 then return false
    else
      let r ← dirlink sb p ip dotdot parent.inum
      if r < 0 then return false
      else
        let r ← dirlink sb p dp name inode.inum
        return 0 ≤ r
  else
    let r ← dirlink sb p dp name inode.inum
    return 0 ≤ r

/-- `create` from the lock of the new inode on. -/
def createNew (dp ip : Fin NINODE) (name : List UInt8) (type major minor : Int16) :
    Kernel Pid (Option (Fin NINODE)) := do
  ilock sb p ip
  setDinodeMem ip fun d => { d with major := major, minor := minor, nlink := 1 }
  iupdate sb p ip
  let inode ← getInode ip
  if ← createLinks sb p dp ip name type then
    noteBind dp ip name
    if type = T_DIR then
      setDinodeMem dp fun d => { d with nlink := d.nlink + 1 }
      iupdate sb p dp
      finished p inode.inum
      iunlockput sb p dp
      return some ip
    else
      finished p inode.inum
      iunlockput sb p dp
      return some ip
  else
    setDinodeMem ip fun d => { d with nlink := 0 }
    iupdate sb p ip
    finished p inode.inum
    iunlockput sb p ip
    iunlockput sb p dp
    return none

def create (path : List UInt8) (type major minor : Int16) : Kernel Pid (Option (Fin NINODE)) := do
  match ← nameiparent sb p path with
  | none => return none
  | some (dp, name) =>
    ilock sb p dp
    match ← dirlookup sb p dp name with
    | some (ip, _) =>
      iunlockput sb p dp
      ilock sb p ip
      let inode ← getInode ip
      if type = T_FILE ∧ (inode.d.type = T_FILE ∨ inode.d.type = T_DEVICE) then return some ip
      else
        iunlockput sb p ip
        return none
    | none =>
      let parent ← getInode dp
      match ← ialloc sb p parent.dev type with
      | none =>
        iunlockput sb p dp
        return none
      | some ip => createNew sb p dp ip name type major minor

end Xv6.Fs
