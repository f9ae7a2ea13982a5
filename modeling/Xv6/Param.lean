import Xv6.Lib.Bytes

/-!
# The constants of `param.h`, `fs.h` and `stat.h`
-/

namespace Xv6

def NPROC : Nat := 64

instance : NeZero NPROC := ⟨by decide⟩

/-- The most blocks any file-system operation may write. -/
def MAXOPBLOCKS : Nat := 10

/-- The most data blocks in the on-disk log. -/
def LOGSIZE : Nat := MAXOPBLOCKS * 3

/-- The number of buffers in the disk block cache. -/
def NBUF : Nat := MAXOPBLOCKS * 3

/-- The size of the file system in blocks. -/
def FSSIZE : Nat := 2000

/-- The bytes in a disk block. -/
def BSIZE : Nat := 1024

abbrev Block : Type := Bytes BSIZE

/-- The device number of the root file system. -/
def ROOTDEV : Nat := 1

/-- The number of log blocks `mkfs` puts in the super block. Its variable
`nlog` counts the header block as well. -/
def nlog : Nat := LOGSIZE

end Xv6
