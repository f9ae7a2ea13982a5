import Xv6.Fs.Quiescence
import Xv6.Mkfs.Main

/-!
# The image as the kernel reads it

`mkfs` lays the image out with code of its own. What it writes is consistent in the
sense of the kernel, and the kernel finds in it the files that `mkfs` was given.
-/

namespace Xv6.Mkfs

open Fs

/-- The entry in a slot of the root directory, blank behind the last file. -/
def rootDirent (files : List HostFile) (k : Nat) : Dirent :=
  match (rootEntries files)[k]? with
  | some (inum, name) => ⟨inum, strncpy DIRSIZ name⟩
  | none => ⟨0, List.replicate DIRSIZ 0⟩

variable {files : List HostFile}

theorem inum_lt_of_mem {inum : Nat} {name : List UInt8} (mem : (inum, name) ∈ rootEntries files) :
    inum < files.length + 2 := by
  simp only [rootEntries, List.mem_cons, List.mem_map, Prod.mk.injEq, Prod.exists] at mem
  rcases mem with ⟨rfl, -⟩ | ⟨rfl, -⟩ | ⟨f, k, mem, rfl, -⟩
  · exact Nat.le_add_left ..
  · exact Nat.le_add_left ..
  · have := (List.mem_zipIdx mem).2.1
    omega

theorem inum_rootDirent_lt (k : Nat) : (rootDirent files k).inum < files.length + 2 := by
  unfold rootDirent
  split
  next found => exact inum_lt_of_mem (List.mem_of_getElem? found)
  next => exact Nat.succ_pos _

theorem key_rootDirent {k : Nat} (used : (rootDirent files k).inum ≠ 0) :
    ((rootEntries files).map fun e => key DIRSIZ e.2)[k]? =
      some (key DIRSIZ (rootDirent files k).name) := by
  unfold rootDirent at used ⊢
  rw [List.getElem?_map]
  split at used
  next found => rw [found, Option.map_some, key_strncpy]
  next => exact absurd rfl used

/-- A part of the content. -/
theorem take_drop_bytes (n : Node) {len off more : Nat} (inside : off + more ≤ len) :
    ((n.bytes 0 len).drop off).take more = n.bytes off more := by
  obtain ⟨rest, rfl⟩ := Nat.exists_eq_add_of_le inside
  rw [Nat.add_assoc, Node.bytes_add, List.drop_left' (Node.length_bytes ..), Node.bytes_add,
    List.take_left' (Node.length_bytes ..), Nat.zero_add]

namespace Made

variable {Pid : Type} {s : State} {N : Nat → Node} {own : Nat → Owner Pid}
  (made : Made files s N own)
include made

theorem dirent_root (k : Nat) : (N ROOTINO).dirent k = rootDirent files k := by
  have length : (rootEntries files).length = files.length + 2 := by simp [rootEntries]
  unfold rootDirent Node.dirent
  by_cases bound : k < (rootEntries files).length
  · have inside : DIRENT * k + DIRENT ≤ DIRENT * (files.length + 2) := by
      unfold DIRENT
      omega
    rw [← take_drop_bytes _ inside, made.root.2.2, rootContent,
      take_drop_flatMap _ (fun e => length_direntOf e.1 e.2) bound, List.getElem?_eq_getElem bound]
    refine Dirent.ofBytes_toBytes ?_
    exact ((inum_lt_of_mem (List.getElem_mem bound)).trans_le made.inodes).trans (by decide)
  · have blank : (N ROOTINO).bytes (DIRENT * k) (List.replicate DIRENT (0 : UInt8)).length =
        List.replicate DIRENT 0 := by
      refine Node.bytes_eq_list fun i less => ?_
      rw [made.rootTight.rest _ (by unfold DIRENT; omega), List.getD_eq_getElem?_getD,
        List.getElem?_eq_getElem less, List.getElem_replicate, Option.getD_some]
    rw [List.length_replicate] at blank
    rw [List.getElem?_eq_none (Nat.le_of_not_lt bound), blank]
    rfl

theorem isDir_root (distinct : ((rootEntries files).map fun e => key DIRSIZ e.2).Nodup) :
    (N ROOTINO).IsDir sb := by
  refine ⟨?_, fun k _ => ?_, fun j _ k _ first second same => ?_⟩
  · rw [made.rootSize, roundedSize]
    unfold DIRENT BSIZE
    omega
  · rw [made.dirent_root]
    exact (inum_rootDirent_lt k).trans_le made.inodes
  · rw [made.dirent_root] at first second same
    rw [made.dirent_root] at same
    have entry := key_rootDirent first
    refine (List.getElem?_inj (List.getElem?_eq_some_iff.mp entry).1 distinct).mp ?_
    rw [entry, key_rootDirent second, same]

/-- Every inode but that of the root directory is of a file, or was never used. -/
theorem file_or_zero {i : Nat} (other : i ≠ ROOTINO) :
    (N i).d.type = T_FILE ∨ (N i).d = Dinode.zero := by
  by_cases unused : i = 0 ∨ s.freeinode ≤ i
  · exact .inr (made.unused i unused)
  · have number := made.freeinode
    obtain ⟨k, rfl⟩ : ∃ k, i = k + 2 := ⟨i - 2, by unfold ROOTINO at other; omega⟩
    exact .inl (made.file k (by omega)).type

theorem good (partly : (files.length + 2) % DPB ≠ 0)
    (distinct : ((rootEntries files).map fun e => key DIRSIZ e.2).Nodup) (i : Nat) :
    (N i).Good sb := by
  by_cases root : i = ROOTINO
  · subst root
    have inodes := made.inodes
    refine ⟨made.rootTight.stable, fun bn below => (made.rootTight.slots bn).mpr ?_, ?_,
      fun free => ?_, fun _ => made.isDir_root distinct⟩
    · rw [made.rootSize, roundedSize] at below
      unfold DPB BSIZE DIRENT at *
      omega
    · rw [made.rootSize, roundedSize]
      unfold DIRENT BSIZE MAXFILE NDIRECT NINDIRECT BSIZE
      unfold NINODES at inodes
      omega
    · rw [made.root.1] at free
      exact absurd free (by decide)
  · have tight := made.tight i root
    rcases made.file_or_zero root with file | zero
    · refine ⟨tight.stable, tight.covered, tight.size_le, ?_, ?_⟩
      · exact fun free => absurd (file.symm.trans free) (by decide)
      · exact fun isDir => absurd (file.symm.trans isDir) (by decide)
    · refine ⟨tight.stable, tight.covered, tight.size_le, fun _ pos => ?_, fun isDir => ?_⟩
      · rw [← addrAt_eq_slots tight.stable (made.blocks.content i NDIRECT), zero]
        exact addrAt_zero s.disk pos
      · rw [zero] at isDir
        exact absurd isDir (by decide)

end Made

/-- **The kernel reads what `mkfs` wrote.** When the files fit, the root directory does
not end with its block and no two names are the same for `namecmp`, `mkfs` makes an
image that is consistent. The root directory has the entries of the files and no
others, and the inode of each entry has the bytes of its file. -/
theorem kernel_reads_image (acceptable : Acceptable files) (inodes : files.length + 2 ≤ NINODES)
    (partly : (files.length + 2) % DPB ≠ 0)
    (distinct : ((rootEntries files).map fun e => key DIRSIZ e.2).Nodup) :
    ∃ s, main files = some s ∧ Consistent sb s.disk ∧
      (dinodeAt sb s.disk ROOTINO).type = T_DIR ∧
      (∀ k < (nodeAt sb s.disk ROOTINO).count,
        (nodeAt sb s.disk ROOTINO).dirent k = rootDirent files k) ∧
      ∀ (k : Nat) (bound : k < files.length), (dinodeAt sb s.disk (k + 2)).type = T_FILE ∧
        (nodeAt sb s.disk (k + 2)).content = files[k].bytes := by
  rcases main_spec () files inodes with ⟨-, unacceptable⟩ | ⟨s, N, own, done, made⟩
  · exact absurd acceptable unacceptable
  have good := made.good partly distinct
  have dinode : ∀ i < sb.ninodes, dinodeAt sb s.disk i = (N i).d := made.dinode
  have root := dinode ROOTINO (by decide)
  have size : ∀ i < sb.ninodes, (nodeAt sb s.disk i).size = (N i).size := fun i bound =>
    congrArg (fun d : Dinode => d.size.toNat) (dinode i bound)
  refine ⟨s, done, consistent_of_blocks made.blocks (fun i bound => ⟨dinode i bound, good i⟩)
    fun _ _ => rfl, root ▸ made.root.1, fun k inside => ?_, fun k bound => ?_⟩
  · rw [← made.dirent_root, Node.dirent, bytes_nodeAt made.blocks (good _) root, Node.dirent]
    rw [← size ROOTINO (by decide)]
    unfold Node.count at inside
    unfold DIRENT at *
    omega
  · have small : k + 2 < sb.ninodes := lt_of_lt_of_le (by omega) inodes
    rw [dinode _ small, Node.content, size _ small,
      bytes_nodeAt made.blocks (good _) (dinode _ small) (Nat.zero_add _).le]
    exact ⟨(made.file k bound).type, (made.file k bound).content⟩

/-- A file that needs the indirect block. -/
def indirectFile : HostFile where
  path := [letter 0]
  reads := List.replicate (NDIRECT + 1) (List.replicate BSIZE 7)
  string := by decide
  sizes := fun _ mem => by
    rw [List.eq_of_mem_replicate mem, List.length_replicate]
    decide

theorem kernel_reads_image_indirect : NDIRECT * BSIZE < indirectFile.bytes.length ∧
    ∃ s, main [indirectFile] = some s ∧ Consistent sb s.disk ∧
      (nodeAt sb s.disk 2).content = indirectFile.bytes := by
  have length : indirectFile.bytes.length = (NDIRECT + 1) * BSIZE := by
    simp [HostFile.bytes, indirectFile]
  have acceptable : Acceptable [indirectFile] := by
    refine ⟨fun f mem => ?_, by simp only [total, List.map_singleton, length]; decide⟩
    rw [List.mem_singleton.mp mem, length]
    decide
  obtain ⟨s, done, consistent, -, -, content⟩ :=
    kernel_reads_image acceptable (by decide) (by decide) (by decide)
  exact ⟨by rw [length]; decide, s, done, consistent, (content 0 Nat.one_pos).2⟩

end Xv6.Mkfs
