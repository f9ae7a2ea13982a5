import Xv6.Fs.State

/-!
# Blocks and inodes

The programs of `fs.c` up to `writei`, from the steps of `Xv6.Fs.State`. Numbers
of type `uint` are `Nat` with the reductions modulo `2 ^ 32` written out; a loop
has as fuel a number of passes that it cannot exceed.
-/

namespace Xv6.Fs

variable {Pid : Type} [DecidableEq Pid] (sb : Super) (p : Pid)

/-! ## Blocks -/

def bzero (b : Nat) : Kernel Pid Unit := logWrite p b fun _ => Bytes.zero BSIZE

/-- `balloc`: a zeroed block, or 0 if there is none. -/
def balloc : Kernel Pid Nat := do
  match ← Prog.first (List.range ((sb.size + BPB - 1) / BPB)) (ballocAt sb p) with
  | some b =>
    bzero p b
    return b
  | none => return 0

/-! ## Inodes -/

def ialloc (dev : Nat) (type : Int16) : Kernel Pid (Option (Fin NINODE)) := do
  match ← Prog.first (List.range' 1 (sb.ninodes - 1)) (iallocAt sb p type) with
  | some inum =>
    let e ← iget dev inum
    return some e
  | none => return none

def ilock (e : Fin NINODE) : Kernel Pid Unit := do
  acquireInode p e
  loadInode sb e

/-- `ip->addrs[i] = addr`. -/
def setAddr (e : Fin NINODE) (i : Fin (NDIRECT + 1)) (addr : Nat) : Kernel Pid Unit :=
  setDinodeMem e fun d => { d with addrs := Function.update d.addrs i (UInt32.ofNat addr) }

/-- The position of the indirect block in `addrs`. -/
def INDIRECT : Fin (NDIRECT + 1) := Fin.last NDIRECT

/-- The body of the first loop of `itrunc`. -/
def itruncDirect (e : Fin NINODE) (i : Fin (NDIRECT + 1)) : Kernel Pid Unit := do
  let ip ← getInode e
  if ip.d.addrs i ≠ 0 then
    bfree sb p (ip.d.addrs i).toNat
    setAddr e i 0
  else return ()

/-- The body of the second loop of `itrunc`. -/
def itruncEntry (block : Block) (j : Nat) : Kernel Pid Unit :=
  if entryOf block j ≠ 0 then bfree sb p (entryOf block j) else return ()

def itruncIndirect (e : Fin NINODE) : Kernel Pid Unit := do
  let ip ← getInode e
  if ip.d.addrs INDIRECT ≠ 0 then
    let block ← readBlock (ip.d.addrs INDIRECT).toNat
    Prog.forEach (List.range NINDIRECT) (itruncEntry sb p block)
    bfree sb p (ip.d.addrs INDIRECT).toNat
    setAddr e INDIRECT 0
  else return ()

def itrunc (e : Fin NINODE) : Kernel Pid Unit := do
  Prog.forEach ((List.finRange NDIRECT).map Fin.castSucc) (itruncDirect sb p e)
  itruncIndirect sb p e
  setDinodeMem e fun d => { d with size := 0 }
  iupdate sb p e

def iput (e : Fin NINODE) : Kernel Pid Unit := do
  if ← iputTest p e then
    itrunc sb p e
    setDinodeMem e fun d => { d with type := 0 }
    iupdate sb p e
    invalidate e
    releaseInode e
    iputDrop e
  else return ()

def iunlockput (e : Fin NINODE) : Kernel Pid Unit := do
  iunlock p e
  iput sb p e

/-! ## Content -/

/-- `bmap` for a block of the first `NDIRECT`. -/
def bmapDirect (e : Fin NINODE) (i : Fin (NDIRECT + 1)) : Kernel Pid Nat := do
  let ip ← getInode e
  if ip.d.addrs i = 0 then
    let addr ← balloc sb p
    if addr = 0 then return 0
    else
      setAddr e i addr
      return addr
  else return (ip.d.addrs i).toNat

/-- `bmap` for an entry of the indirect block, once there is one. -/
def bmapEntry (ind k : Nat) : Kernel Pid Nat := do
  let block ← readBlock ind
  if entryOf block k = 0 then
    let addr ← balloc sb p
    if addr = 0 then return 0
    else
      logWrite p ind fun block => setEntry block k addr
      return addr
  else return entryOf block k

/-- `bmap`. The indirect block is found, or allocated, as the direct ones are. -/
def bmap (e : Fin NINODE) (bn : Nat) : Kernel Pid Nat :=
  if direct : bn < NDIRECT then bmapDirect sb p e ⟨bn, Nat.lt_succ_of_lt direct⟩
  else if bn - NDIRECT < NINDIRECT then do
    let ind ← bmapDirect sb p e INDIRECT
    if ind = 0 then return 0
    else bmapEntry sb p ind (bn - NDIRECT)
  else Prog.stop .bmapOutOfRange

/-- Where a copy from user memory takes its bytes, and where it fails: a copy of
`m` bytes from `off` on may stop after a part of them. A copy within the kernel
never fails. -/
structure Source where
  byte : Nat → UInt8
  fault : Nat → Nat → Option Nat

def Source.bytes (src : Source) (off m : Nat) : List UInt8 :=
  (List.range m).map fun i => src.byte (off + i)

def Source.kernel (bytes : List UInt8) : Source := ⟨fun i => bytes.getD i 0, fun _ _ => none⟩

/-- The loop of `readi`: the bytes it copies to `dst`, and whether a copy failed.
`dst off m` says whether the copy of `m` bytes to `off` succeeds. -/
def readiLoop (e : Fin NINODE) (dst : Nat → Nat → Bool) (n : Nat) :
    Nat → Nat → Nat → List UInt8 → Kernel Pid (Bool × List UInt8)
  | 0, _, _, got => return (true, got)
  | fuel + 1, off, tot, got =>
    if tot < n then do
      let addr ← bmap sb p e (off / BSIZE)
      if addr = 0 then return (true, got)
      else
        let block ← readBlock addr
        let m := min (n - tot) (BSIZE - off % BSIZE)
        if dst tot m then
          readiLoop e dst n fuel (off + m) (tot + m) (got ++ block.slice (off % BSIZE) m)
        else return (false, got)
    else return (true, got)

/-- `readi`: what it returns, and the bytes it has copied. -/
def readi (e : Fin NINODE) (dst : Nat → Nat → Bool) (off n : Nat) :
    Kernel Pid (Int × List UInt8) := do
  let ip ← getInode e
  let size := ip.d.size.toNat
  if size < off ∨ (off + n) % 2 ^ 32 < off then return (0, [])
  else
    let n := if size < (off + n) % 2 ^ 32 then size - off else n
    let (copied, got) ← readiLoop sb p e dst n n off 0 []
    if copied then return (got.length, got) else return (-1, got)

/-- The loop of `writei`: the number of bytes written. -/
def writeiLoop (e : Fin NINODE) (src : Source) (n : Nat) : Nat → Nat → Nat → Kernel Pid Nat
  | 0, _, tot => return tot
  | fuel + 1, off, tot =>
    if tot < n then do
      let addr ← bmap sb p e (off / BSIZE)
      if addr = 0 then return tot
      else
        let m := min (n - tot) (BSIZE - off % BSIZE)
        match src.fault tot m with
        | some part =>
          scribble addr fun block => block.writeAt (off % BSIZE) (src.bytes tot (min part m))
          return tot
        | none =>
          logWrite p addr fun block => block.writeAt (off % BSIZE) (src.bytes tot m)
          writeiLoop e src n fuel (off + m) (tot + m)
    else return tot

def writei (e : Fin NINODE) (src : Source) (off n : Nat) : Kernel Pid Int := do
  let ip ← getInode e
  if ip.d.size.toNat < off ∨ (off + n) % 2 ^ 32 < off then return -1
  else if MAXFILE * BSIZE < (off + n) % 2 ^ 32 then return -1
  else
    let tot ← writeiLoop sb p e src n n off 0
    setDinodeMem e fun d =>
      if d.size.toNat < off + tot then { d with size := UInt32.ofNat (off + tot) } else d
    iupdate sb p e
    return tot

end Xv6.Fs
