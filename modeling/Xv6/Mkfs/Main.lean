import Xv6.Mkfs.Image

/-!
# The image that `mkfs` makes

As long as the inode numbers last, the image after a list of files is known
completely (`Built`): the content of the root directory, the content of each
file, and the number of blocks in use. `mkfs` succeeds exactly when the names
and the sizes allow it and the blocks suffice (`main_spec`).
-/

namespace Xv6.Mkfs

open Option (bind_eq_bind bind_eq_some_iff bind_none bind_some pure_def)

open Function

open Fs

/-! ## The blank image -/

theorem wsects_blank (n : Nat) (small : n ≤ FSSIZE) :
    (List.range n).foldl (fun (s : State) i => s.wsect i (Bytes.zero BSIZE))
      { disk := fun _ => Bytes.zero BSIZE, len := 0, freeinode := 1, freeblock := nmeta } =
      { disk := fun _ => Bytes.zero BSIZE, len := n, freeinode := 1, freeblock := nmeta } := by
  induction n with
  | zero => rfl
  | succ n ih =>
    rw [List.range_succ, List.foldl_append, ih (Nat.le_of_succ_le small), List.foldl_cons,
      List.foldl_nil, State.wsect, sector_of_lt small, Nat.max_eq_right (Nat.le_succ n),
      update_eq_self]

theorem blank_eq : blank =
    { disk := update (fun _ => Bytes.zero BSIZE) 1 superBlock, len := FSSIZE,
      freeinode := 1, freeblock := nmeta } := by
  rw [blank, wsects_blank FSSIZE le_rfl]
  exact wsect_of_lt rfl (by decide) _

variable {Pid : Type} {type : Int16} {list : List UInt8} {t : State} {inum : Nat} {n : Node}
  {content : List UInt8} {din din' : Dinode}

/-- The owners of the blocks of a blank image. -/
def blankOwner (b : Nat) : Owner Pid := if sb.Data b then .free else .reserved

/-- An inode that was never used. -/
def blankNode : Node := ⟨Dinode.zero, fun _ => 0, fun _ => Bytes.zero BSIZE⟩

theorem blank_tight : Tight blankNode blankNode.size where
  stable := ⟨fun _ => rfl, fun _ _ => rfl, fun _ _ => rfl⟩
  slots := fun _ => iff_of_false (fun used => used rfl) (Nat.not_lt_zero _)
  indirect := iff_of_false (fun used => used rfl) (Nat.not_lt_zero _)
  size_le := Nat.zero_le _
  rest := fun _ _ => Bytes.get_zero _

theorem blank_image : Image none blank (fun _ => blankNode) (@blankOwner Pid) := by
  have apart : (1 : Nat) < sb.inodestart := by decide
  rw [blank_eq]
  refine ⟨rfl, le_rfl, by decide, by decide, ⟨?_, ?_, ?_, ?_, ?_, ?_, ?_⟩, ?_, ?_,
    fun _ _ => blank_tight, fun _ _ => rfl⟩
  · intro b
    unfold blankOwner
    split
    next data => exact iff_of_false nofun (not_not.mpr data)
    next other => exact iff_of_true rfl other
  · intro b bound
    rw [used_mapped (s := ⟨_, _, _, nmeta⟩) (by decide) bound, decide_eq_false_iff_not]
    unfold blankOwner
    split
    next data => exact iff_of_true (Nat.not_lt.mpr data.1) rfl
    next other =>
      refine iff_of_false (fun past => other (data_iff.mpr ⟨Nat.le_of_not_lt past, bound⟩)) nofun
  · intro b i pos
    unfold blankOwner
    refine iff_of_false ?_ fun both => both.2 both.1.symm
    split <;> nofun
  · intro b p
    unfold blankOwner
    refine iff_of_false ?_ fun some => some rfl
    split <;> nofun
  · exact fun b p block => nofun
  · exact fun i pos used => absurd rfl used
  · exact fun i pos used => absurd rfl used
  · intro b past bound
    have other : b ≠ 1 := by
      have : 1 < nmeta := by decide
      have : nmeta ≤ b := past
      omega
    show update (fun _ => Bytes.zero BSIZE) 1 superBlock b = _
    rw [update_of_ne other]
  · intro i bound _
    have other : (1 : Nat) ≠ sb.iblock i := by
      have : sb.inodestart ≤ sb.iblock i := Nat.le_add_left ..
      omega
    exact (dinodeAt_update_of_ne _ _ _ other).trans (dinodeOf_zero _)

/-! ## The image after a list of files -/

/-- The name of a file in the image, if `mkfs` takes it. -/
def nameOf (f : HostFile) : List UInt8 := (shortname f.path).getD []

def rootEntries (files : List HostFile) : List (Nat × List UInt8) :=
  (ROOTINO, dot) :: (ROOTINO, dotdot) :: files.zipIdx.map fun (f, k) => (k + 2, nameOf f)

def rootContent (files : List HostFile) : List UInt8 :=
  (rootEntries files).flatMap fun (inum, name) => direntOf inum name

/-- The number of data blocks that the image needs. -/
def total (files : List HostFile) : Nat :=
  blocksOf (DIRENT * (files.length + 2)) + (files.map fun f => blocksOf f.bytes.length).sum

/-- The files that `mkfs` can put into the image, while inode numbers last. -/
def Acceptable (files : List HostFile) : Prop :=
  (∀ f ∈ files, shortname f.path ≠ none ∧ f.bytes.length ≤ MAXFILE * BSIZE) ∧
    nmeta + total files ≤ FSSIZE

theorem length_direntOf (inum : Nat) (name : List UInt8) :
    (direntOf inum name).length = DIRENT := by
  rw [direntOf, Dirent.toBytes, List.length_append, length_toLE, length_strncpy]
  rfl

theorem length_rootContent (files : List HostFile) :
    (rootContent files).length = DIRENT * (files.length + 2) := by
  simp only [rootContent, rootEntries, List.length_flatMap, length_direntOf, List.map_const',
    List.sum_replicate_nat, List.length_cons, List.length_map, List.length_zipIdx]
  exact Nat.mul_comm ..

theorem rootContent_append (files : List HostFile) (f : HostFile) :
    rootContent (files ++ [f]) = rootContent files ++ direntOf (files.length + 2) (nameOf f) := by
  simp [rootContent, rootEntries, List.zipIdx_append]

theorem total_append (files : List HostFile) (f : HostFile) :
    total (files ++ [f]) + blocksOf (DIRENT * (files.length + 2)) =
      total files + blocksOf (DIRENT * (files.length + 3)) + blocksOf f.bytes.length := by
  simp only [total, List.length_append, List.length_singleton, List.map_append, List.map_cons,
    List.map_nil, List.sum_append, List.sum_singleton]
  rw [show files.length + 1 + 2 = files.length + 3 from rfl]
  omega

/-- What is known of an inode of the image. -/
structure Holds (n : Node) (type : Int16) (content : List UInt8) : Prop where
  type : n.d.type = type
  nlink : n.d.nlink = 1
  content : n.content = content

/-- The image has the root directory and the files, and nothing else. -/
structure Built (files : List HostFile) (s : State) (N : Nat → Node) (own : Nat → Owner Pid) :
    Prop where
  image : Image none s N own
  freeinode : s.freeinode = files.length + 2
  root : Holds (N ROOTINO) T_DIR (rootContent files)
  file : ∀ (k : Nat) (bound : k < files.length), Holds (N (k + 2)) T_FILE files[k].bytes
  names : ∀ f ∈ files, shortname f.path ≠ none
  freeblock : s.freeblock = nmeta + total files

theorem Holds.size_eq (holds : Holds n type content) : n.size = content.length := by
  rw [← holds.content, Node.content, Node.length_bytes]

theorem Holds.append {m : Node}
    (holds : Holds n type content) (longer : m.content = n.content ++ list)
    (fields : m.d = { n.d with size := m.d.size, addrs := m.d.addrs }) :
    Holds m type (content ++ list) where
  type := by rw [fields]; exact holds.type
  nlink := by rw [fields]; exact holds.nlink
  content := by rw [longer, holds.content]

section Build

variable [DecidableEq Pid] {files : List HostFile} {s : State} {N : Nat → Node}
  {own : Nat → Owner Pid}

theorem makeRoot_spec (p : Pid) : ∃ (s : State) (N : Nat → Node) (own : Nat → Owner Pid),
    makeRoot blank = some s ∧ Built [] s N own := by
  have free : blank.freeinode = 1 := by rw [blank_eq]
  have first : blank.freeblock = nmeta := by rw [blank_eq]
  obtain ⟨t₀, m₀, alloc, img₀, fields₀, content₀, freeinode₀, freeblock₀⟩ :=
    ialloc_spec T_DIR (@blank_image Pid) (by rw [free]; decide) (by rw [free]; decide)
  rw [free] at alloc img₀ freeinode₀
  rw [first] at freeblock₀
  have holds₀ : Holds m₀ T_DIR [] := ⟨by rw [fields₀], by rw [fields₀], content₀⟩
  obtain ⟨-, append₁⟩ := iappend_spec p ROOTINO img₀ (by rw [freeinode₀]; decide)
    (direntOf ROOTINO dot)
  rw [show (update (fun _ => blankNode) 1 m₀) ROOTINO = m₀ from update_self ..] at append₁
  obtain ⟨m₁, own₁, t₁, done₁, img₁, longer₁, size₁, fields₁, freeinode₁, freeblock₁⟩ := append₁ (by
    rw [holds₀.size_eq, length_direntOf, Fits, freeblock₀]
    decide)
  rw [show update (update (fun _ => blankNode) 1 m₀) ROOTINO m₁ =
    update (fun _ => blankNode) ROOTINO m₁ from update_idem ..] at img₁
  have holds₁ := holds₀.append longer₁ fields₁
  rw [holds₀.size_eq, freeblock₀, holds₁.size_eq, List.nil_append, length_direntOf] at freeblock₁
  obtain ⟨-, append₂⟩ := iappend_spec p ROOTINO img₁
    (by rw [freeinode₁, freeinode₀]; decide) (direntOf ROOTINO dotdot)
  rw [update_self] at append₂
  have value : t₁.freeblock = nmeta + 1 := by
    have : blocksOf DIRENT = 1 := by decide
    have : blocksOf ([] : List UInt8).length = 0 := by decide
    omega
  obtain ⟨m₂, own₂, t₂, done₂, img₂, longer₂, size₂, fields₂, freeinode₂, freeblock₂⟩ := append₂ (by
    rw [holds₁.size_eq, List.nil_append, length_direntOf, length_direntOf, Fits, value]
    decide)
  have holds₂ := holds₁.append longer₂ fields₂
  rw [update_idem] at img₂
  refine ⟨t₂, _, own₂, ?_, img₂, ?_, ?_, ?_, ?_, ?_⟩
  · have root : (1 : Nat) = ROOTINO := rfl
    simp only [makeRoot, alloc, bind_eq_bind, bind_some, if_pos root]
    rw [root, done₁, bind_some, done₂]
  · rw [freeinode₂, freeinode₁, freeinode₀]
    rfl
  · rw [update_self]
    simpa [rootContent, rootEntries] using holds₂
  · exact fun k bound => absurd bound (Nat.not_lt_zero _)
  · exact fun f mem => absurd mem List.not_mem_nil
  · simp only [holds₁.size_eq, holds₂.size_eq, List.length_append, List.nil_append,
      length_direntOf, value] at freeblock₂
    have : blocksOf DIRENT = 1 := by decide
    have : blocksOf (DIRENT + DIRENT) = 1 := by decide
    have : total [] = 1 := by decide
    omega

theorem addFile_spec (p : Pid) (built : Built files s N own) (more : files.length + 2 < NINODES)
    (f : HostFile) :
    (addFile s f = none ∧ ¬ Acceptable (files ++ [f])) ∨
      ∃ (t : State) (N' : Nat → Node) (own' : Nat → Owner Pid),
        addFile s f = some t ∧ Built (files ++ [f]) t N' own' := by
  cases name : shortname f.path with
  | none =>
    refine .inl ⟨by rw [addFile, name]; rfl, fun acceptable => ?_⟩
    exact (acceptable.1 f (by simp)).1 name
  | some short =>
    have nameEq : nameOf f = short := by rw [nameOf, name, Option.getD_some]
    have count := total_append files f
    have inum := built.freeinode
    obtain ⟨t₀, m₀, alloc, img₀, fields₀, content₀, freeinode₀, freeblock₀⟩ :=
      ialloc_spec T_FILE built.image (by omega) (by omega)
    rw [inum] at alloc img₀ freeinode₀
    rw [built.freeblock] at freeblock₀
    have holds₀ : Holds m₀ T_FILE [] := ⟨by rw [fields₀], by rw [fields₀], content₀⟩
    have apart : ROOTINO ≠ files.length + 2 := by unfold ROOTINO; omega
    have rootSize := built.root.size_eq
    rw [length_rootContent] at rootSize
    have append₁ := iappend_spec p ROOTINO img₀
      ⟨by decide, by rw [freeinode₀]; unfold ROOTINO; omega⟩ (direntOf (files.length + 2) short)
    unfold Appends Fits at append₁
    rw [update_of_ne apart, rootSize, freeblock₀, length_direntOf] at append₁
    have lengths : DIRENT * (files.length + 2) + DIRENT = DIRENT * (files.length + 3) := by
      rw [Nat.mul_add DIRENT files.length 3, Nat.mul_add]
      unfold DIRENT
      omega
    have bounded : DIRENT * (files.length + 3) ≤ MAXFILE * BSIZE := by
      unfold DIRENT MAXFILE NDIRECT NINDIRECT BSIZE NINODES at *
      omega
    rw [lengths] at append₁
    by_cases room₁ : nmeta + total files + blocksOf (DIRENT * (files.length + 3)) ≤
        FSSIZE + blocksOf (DIRENT * (files.length + 2))
    · obtain ⟨m₁, own₁, t₁, done₁, img₁, longer₁, size₁, fields₁, freeinode₁, freeblock₁⟩ :=
        append₁.2 ⟨bounded, room₁⟩
      have holds₁ := built.root.append longer₁ fields₁
      rw [← nameEq, ← rootContent_append] at holds₁
      rw [size₁] at freeblock₁
      have append₂ := iappends_spec p (files.length + 2) f.reads img₁
        ⟨by omega, by rw [freeinode₁, freeinode₀]; omega⟩
      unfold Appends Fits at append₂
      have zero : m₀.size = 0 := holds₀.size_eq
      have none : blocksOf 0 = 0 := by decide
      rw [update_of_ne apart.symm, update_self, zero, none, Nat.zero_add] at append₂
      have run : addFile s f =
          f.reads.foldlM (fun s buf => iappend s (files.length + 2) buf) t₁ := by
        simp only [addFile, name, alloc, done₁, bind_eq_bind, bind_some]
      by_cases room₂ : f.bytes.length ≤ MAXFILE * BSIZE ∧
          t₁.freeblock + blocksOf f.bytes.length ≤ FSSIZE
      · obtain ⟨m₂, own₂, t₂, done₂, img₂, longer₂, size₂, fields₂, freeinode₂, freeblock₂⟩ :=
          append₂.2 room₂
        have holds₂ := holds₀.append longer₂ fields₂
        rw [size₂] at freeblock₂
        refine .inr ⟨t₂, _, own₂, run.trans done₂, img₂, ?_, ?_, ?_, ?_, ?_⟩
        · rw [freeinode₂, freeinode₁, freeinode₀, List.length_append, List.length_singleton]
        · rw [update_of_ne apart, update_self]
          exact holds₁
        · intro k bound
          rw [List.length_append, List.length_singleton] at bound
          by_cases last : k = files.length
          · subst last
            rw [update_self, List.getElem_concat_length rfl]
            exact holds₂
          · have early : k < files.length := by omega
            rw [update_of_ne (by omega), update_of_ne (by unfold ROOTINO; omega),
              update_of_ne (by omega), List.getElem_append_left early]
            exact built.file k early
        · intro g mem
          rcases List.mem_append.mp mem with old | new
          · exact built.names g old
          · rw [List.mem_singleton.mp new, name]
            simp
        · have same : f.reads.flatten.length = f.bytes.length := rfl
          rw [same] at freeblock₂
          omega
      · refine .inl ⟨run.trans (append₂.1 room₂), fun acceptable => room₂ ⟨?_, ?_⟩⟩
        · exact (acceptable.1 f (by simp)).2
        · have := acceptable.2
          omega
    · refine .inl ⟨?_, fun acceptable => room₁ ?_⟩
      · simp only [addFile, name, alloc, bind_eq_bind, bind_some,
          append₁.1 fun fits => room₁ fits.2, bind_none]
      · have := acceptable.2
        omega

theorem total_le_append (files : List HostFile) (f : HostFile) :
    total files ≤ total (files ++ [f]) := by
  have count := total_append files f
  have := blocksOf_mono (show DIRENT * (files.length + 2) ≤ DIRENT * (files.length + 3) from
    Nat.mul_le_mul_left _ (Nat.le_succ _))
  omega

theorem Acceptable.init {f : HostFile} (acceptable : Acceptable (files ++ [f])) :
    Acceptable files := by
  refine ⟨fun g mem => acceptable.1 g (List.mem_append_left _ mem), ?_⟩
  have := acceptable.2
  have := total_le_append files f
  omega

/-- The loop over the arguments: it fails, and the files are not acceptable, or
it builds the image. -/
theorem addFiles_spec (p : Pid) (files : List HostFile) (built : Built [] s N own)
    (more : files.length + 2 ≤ NINODES) :
    (files.foldlM addFile s = none ∧ ¬ Acceptable files) ∨
      ∃ (t : State) (N' : Nat → Node) (own' : Nat → Owner Pid),
        files.foldlM addFile s = some t ∧ Built files t N' own' := by
  induction files using List.reverseRecOn with
  | nil => exact .inr ⟨s, N, own, rfl, built⟩
  | append_singleton files f ih =>
    rw [List.length_append, List.length_singleton] at more
    rw [List.foldlM_append]
    rcases ih (by omega) with ⟨failed, unacceptable⟩ | ⟨t, N', own', done, before⟩
    · refine .inl ⟨by rw [failed]; rfl, fun acceptable => unacceptable acceptable.init⟩
    · have step := addFile_spec p before (by omega) f
      simpa only [done, bind_eq_bind, bind_some, List.foldlM_cons, List.foldlM_nil,
        Option.bind_fun_some, pure_def] using step

/-- The size of the root directory in the image. -/
def roundedSize (files : List HostFile) : Nat :=
  (DIRENT * (files.length + 2) / BSIZE + 1) * BSIZE

/-- The state of `mkfs` at `exit(0)`: the node of the root directory has its
rounded size, and the free map is on the disk. -/
structure Made (files : List HostFile) (s : State) (N : Nat → Node) (own : Nat → Owner Pid) :
    Prop where
  freeinode : s.freeinode = files.length + 2
  inodes : files.length + 2 ≤ NINODES
  freeblock : s.freeblock = nmeta + total files
  below : s.freeblock ≤ FSSIZE
  map : s.disk sb.bmapstart = bitmap s.freeblock
  blocks : Blocks sb s.disk (fun _ _ => none) N own
  dinode : ∀ i < NINODES, dinodeAt sb s.disk i = (N i).d
  unused : ∀ i, i = 0 ∨ s.freeinode ≤ i → (N i).d = Dinode.zero
  tight : ∀ i, i ≠ ROOTINO → Tight (N i) (N i).size
  rootTight : Tight (N ROOTINO) (DIRENT * (files.length + 2))
  rootSize : (N ROOTINO).size = roundedSize files
  root : (N ROOTINO).d.type = T_DIR ∧ (N ROOTINO).d.nlink = 1 ∧
    (N ROOTINO).bytes 0 (DIRENT * (files.length + 2)) = rootContent files
  file : ∀ (k : Nat) (bound : k < files.length), Holds (N (k + 2)) T_FILE files[k].bytes
  names : ∀ f ∈ files, shortname f.path ≠ none

theorem finish_spec (built : Built files s N own) :
    ∃ (t : State) (N' : Nat → Node), (fixRoot s).bind (fun s => balloc s s.freeblock) = some t ∧
      Made files t N' own := by
  have img := built.image
  have rootBound : ROOTINO < NINODES := by decide
  have rootSize := built.root.size_eq
  rw [length_rootContent] at rootSize
  have inodes : files.length + 2 ≤ NINODES := by
    have := img.inodes
    have := built.freeinode
    omega
  let d : Dinode := { (N ROOTINO).d with size := UInt32.ofNat (roundedSize files) }
  let u : State := { s with disk := putDinode sb s.disk ROOTINO d }
  have small : (UInt32.ofNat (roundedSize files)).toNat = roundedSize files := by
    have bound : roundedSize files < 2 ^ 32 := by
      unfold roundedSize DIRENT BSIZE
      unfold NINODES at inodes
      omega
    exact UInt32.toNat_ofNat_of_lt bound
  have fixed : fixRoot s = some u := by
    simp only [fixRoot, rinode_eq img rootBound, bind_eq_bind, bind_some]
    have size : (N ROOTINO).d.size.toNat = DIRENT * (files.length + 2) := rootSize
    rw [size, winode_eq img.len rootBound]
    rfl
  have written : balloc u u.freeblock = some { u with disk := u.mapped } := by
    have lt : u.freeblock < BPB := by
      have := img.below
      have : FSSIZE < BPB := by decide
      exact lt_of_le_of_lt img.below this
    rw [balloc, if_pos lt, wsect_of_lt (s := u) img.len (by decide)]
    rfl
  have mapped : u.mapped = putDinode sb s.mapped ROOTINO d := mapped_putDinode rootBound d
  have map : u.mapped sb.bmapstart = bitmap u.freeblock := update_self ..
  have placed : Blocks sb u.mapped (fun _ _ => none) N own := by
    rw [mapped]
    exact img.blocks.putDinode rootBound d
  have dinodes : ∀ i < NINODES, dinodeAt sb u.mapped i = dinodeAt sb u.disk i := by
    intro i bound
    exact dinodeAt_update_of_ne _ _ _ (Nat.ne_of_gt (iblock_bound bound).1)
  have tight := img.tight ROOTINO (by simp)
  rw [rootSize] at tight
  refine ⟨{ u with disk := u.mapped }, update N ROOTINO ((N ROOTINO).setD fun _ => d),
    ?_, built.freeinode, inodes, built.freeblock, img.below, map, ?_, ?_, ?_, ?_, ?_, ?_, ?_, ?_,
        built.names⟩
  · rw [fixed, bind_some, written]
  · refine placed.congr (fun _ _ => rfl) (fun _ _ => rfl) ?_ ?_
    · intro j
      by_cases same : j = ROOTINO
      · rw [same, update_self, Node.slots_setD]
      · rw [update_of_ne same]
    · intro j q _
      by_cases same : j = ROOTINO
      · rw [same, update_self, Node.data_setD]
      · rw [update_of_ne same]
  · intro i bound
    refine (dinodes i bound).trans ?_
    by_cases same : i = ROOTINO
    · rw [same, update_self]
      exact dinodeAt_putDinode_self ..
    · rw [update_of_ne same]
      exact (dinodeAt_putDinode_of_ne _ _ _ same).trans (img.dinode i bound (by simp))
  · intro i free
    have apart : i ≠ ROOTINO := by
      rintro rfl
      have := built.freeinode
      rcases free with zero | past
      · exact absurd zero (by decide)
      · have : s.freeinode ≤ ROOTINO := past
        unfold ROOTINO at this
        omega
    rw [update_of_ne apart]
    exact img.unused i free
  · intro i apart
    rw [update_of_ne apart]
    exact img.tight i (by simp)
  · rw [update_self]
    refine { tight with stable := ⟨tight.stable.addrs, tight.stable.entries, tight.stable.past⟩ }
  · rw [update_self]
    exact small
  · rw [update_self]
    refine ⟨built.root.type, built.root.nlink, ?_⟩
    rw [← built.root.content, Node.content, rootSize]
    rfl
  · intro k bound
    rw [update_of_ne (by unfold ROOTINO; omega)]
    exact built.file k bound

/-- **While inode numbers last, `mkfs` fails exactly when the files are not
acceptable, and otherwise makes their image.** -/
theorem main_spec (p : Pid) (files : List HostFile) (more : files.length + 2 ≤ NINODES) :
    (main files = none ∧ ¬ Acceptable files) ∨
      ∃ (t : State) (N : Nat → Node) (own : Nat → Owner Pid),
        main files = some t ∧ Made files t N own := by
  obtain ⟨s, N, own, root, built⟩ := makeRoot_spec p
  rcases addFiles_spec p files built more with ⟨failed, unacceptable⟩ | ⟨t, N', own', done, built'⟩
  · refine .inl ⟨?_, unacceptable⟩
    simp only [main, root, failed, bind_eq_bind, bind_some, bind_none]
  · obtain ⟨u, N'', finished, made⟩ := finish_spec built'
    refine .inr ⟨u, N'', own', ?_, made⟩
    simpa only [main, root, done, bind_eq_bind, bind_some] using finished

end Build

/-! ## The number of inodes in any run -/

theorem freeinode_winode {s : State} {d : Dinode} (done : s.winode inum d = some t) :
    t.freeinode = s.freeinode := by
  obtain ⟨buf, -, last⟩ := bind_eq_some_iff.mp done
  cases last
  rfl

theorem freeinode_iappendAddr {s : State} {fbn x : Nat}
    (done : iappendAddr s din fbn = some (t, din', x)) : t.freeinode = s.freeinode := by
  have alloc : ∀ i, (allocAddr s din i).1.freeinode = s.freeinode := by
    intro i
    unfold allocAddr
    split <;> rfl
  have entry : ∀ (u : State) (ind : Nat) (indirect : Block) (k : Nat),
      (allocEntry u ind indirect k).1.freeinode = u.freeinode := by
    intro u ind indirect k
    unfold allocEntry
    split <;> rfl
  unfold iappendAddr at done
  split at done
  next first =>
    simp only [Option.some.injEq, Prod.mk.injEq] at done
    rw [← done.1, alloc]
  · have number := alloc INDIRECT
    generalize allocAddr s din INDIRECT = found at done number
    simp only [bind_eq_bind, bind_eq_some_iff, pure_def, Option.some.injEq, Prod.mk.injEq] at done
    obtain ⟨indirect, -, last, -⟩ := done
    rw [← last, entry, number]

theorem freeinode_iappendLoop {s : State} {off off' : Nat}
    (done : iappendLoop s din off list = some (t, din', off')) : t.freeinode = s.freeinode := by
  fun_induction iappendLoop s din off list with
  | case1 s din off list more inside len ih =>
    obtain ⟨⟨u, din₁⟩, passed, rest⟩ := bind_eq_some_iff.mp done
    obtain ⟨⟨v, din₂, x⟩, found, rest'⟩ := bind_eq_some_iff.mp passed
    obtain ⟨buf, -, last⟩ := bind_eq_some_iff.mp rest'
    cases last
    exact (ih _ _ rest).trans (show v.freeinode = s.freeinode from freeinode_iappendAddr found)
  | case2 => cases done
  | case3 =>
    cases done
    rfl

theorem freeinode_iappend {s : State}
    (done : iappend s inum list = some t) : t.freeinode = s.freeinode := by
  obtain ⟨din, -, rest⟩ := bind_eq_some_iff.mp done
  obtain ⟨⟨u, din', off⟩, looped, last⟩ := bind_eq_some_iff.mp rest
  exact (freeinode_winode last).trans (freeinode_iappendLoop looped)

theorem freeinode_ialloc {s : State}
    (done : s.ialloc type = some (inum, t)) : t.freeinode = s.freeinode + 1 := by
  obtain ⟨u, written, last⟩ := bind_eq_some_iff.mp done
  cases last
  exact freeinode_winode written

theorem freeinode_iappends {chunks : List (List UInt8)} {s : State}
    (done : chunks.foldlM (fun s buf => iappend s inum buf) s = some t) :
    t.freeinode = s.freeinode := by
  induction chunks generalizing s with
  | nil =>
    cases done
    rfl
  | cons chunk chunks ih =>
    rw [List.foldlM_cons] at done
    obtain ⟨u, first, rest⟩ := bind_eq_some_iff.mp done
    exact (ih rest).trans (freeinode_iappend first)

theorem freeinode_addFiles {files : List HostFile} {s : State}
    (done : files.foldlM addFile s = some t) : t.freeinode = s.freeinode + files.length := by
  induction files generalizing s with
  | nil =>
    cases done
    rfl
  | cons f files ih =>
    rw [List.foldlM_cons] at done
    obtain ⟨u, first, rest⟩ := bind_eq_some_iff.mp done
    obtain ⟨name, -, named⟩ := bind_eq_some_iff.mp first
    obtain ⟨⟨inum, v⟩, allocated, more⟩ := bind_eq_some_iff.mp named
    obtain ⟨w, entered, copied⟩ := bind_eq_some_iff.mp more
    have := freeinode_ialloc allocated
    have := freeinode_iappend entered
    have := freeinode_iappends copied
    have := ih rest
    rw [List.length_cons]
    omega

/-- Every run of `mkfs` to `exit(0)` hands out one inode for the root directory
and one for each file. -/
theorem freeinode_main {files : List HostFile} {s : State} (done : main files = some s) :
    s.freeinode = files.length + 2 := by
  simp only [main, bind_eq_bind, bind_eq_some_iff] at done
  obtain ⟨u, root, v, added, w, fixed, mapped⟩ := done
  obtain ⟨blankRoot, N, own, made, built⟩ := makeRoot_spec ()
  rw [made] at root
  cases root
  have start := built.freeinode
  have files := freeinode_addFiles added
  obtain ⟨din, -, stored⟩ := bind_eq_some_iff.mp fixed
  have fixedNumber := freeinode_winode stored
  unfold balloc at mapped
  split at mapped
  · cases mapped
    show w.freeinode = _
    rw [fixedNumber, files, start, List.length_nil]
    omega
  · cases mapped

/-! ## Well-formed images -/

/-- The address of a content block of an inode, as the image has it. -/
def addrOf (disk : Nat → Block) (d : Dinode) (bn : Nat) : Nat :=
  if first : bn < NDIRECT then (d.addrs ⟨bn, Nat.lt_succ_of_lt first⟩).toNat
  else if d.addrs INDIRECT = 0 then 0
  else entryOf (disk (d.addrs INDIRECT).toNat) (bn - NDIRECT)

/-- The inode is in its area, the blocks it names are data blocks, and it has one for every part
of its size. -/
structure WellFormedInode (disk : Nat → Block) (i : Nat) : Prop where
  inum : i < sb.ninodes
  area : sb.inodestart ≤ sb.iblock i ∧ sb.iblock i < sb.bmapstart
  addrs : ∀ k, (dinodeAt sb disk i).addrs k ≠ 0 →
    sb.datastart ≤ ((dinodeAt sb disk i).addrs k).toNat ∧
      ((dinodeAt sb disk i).addrs k).toNat < sb.size
  entries : (dinodeAt sb disk i).addrs INDIRECT ≠ 0 → ∀ k < NINDIRECT,
    entryOf (disk ((dinodeAt sb disk i).addrs INDIRECT).toNat) k ≠ 0 →
    sb.datastart ≤ entryOf (disk ((dinodeAt sb disk i).addrs INDIRECT).toNat) k ∧
      entryOf (disk ((dinodeAt sb disk i).addrs INDIRECT).toNat) k < sb.size
  covered : ∀ bn, bn * BSIZE < (dinodeAt sb disk i).size.toNat →
    addrOf disk (dinodeAt sb disk i) bn ≠ 0

/-- All the inodes that `mkfs` has made are well-formed. -/
def WellFormed (s : State) : Prop := ∀ i, 0 < i → i < s.freeinode → WellFormedInode s.disk i

section Nodes

variable [DecidableEq Pid] {disk : Nat → Block} {N : Nat → Node} {own : Nat → Owner Pid} {i : Nat}

section

variable (blocks : Blocks sb disk (fun _ _ => none) N own) (stable : (N i).Stable)
include blocks stable

/-- The addresses in the image are the positions of the node. -/
theorem addrOf_eq
    {bn : Nat} (inside : bn < MAXFILE) : addrOf disk (N i).d bn = (N i).slots (posOf bn) := by
  unfold addrOf
  by_cases first : bn < NDIRECT
  · rw [dif_pos first, Node.posOf_direct first]
    exact (stable.addrs ⟨bn, Nat.lt_succ_of_lt first⟩).symm
  · have inner : bn - NDIRECT < NINDIRECT := by
      unfold MAXFILE at inside
      omega
    have indirect : (N i).slots NDIRECT = ((N i).d.addrs INDIRECT).toNat := stable.addrs INDIRECT
    rw [dif_neg first, Node.posOf_indirect first, stable.entries _ inner, indirect]
    by_cases none : (N i).d.addrs INDIRECT = 0
    · simp [none]
    · have used : (N i).slots NDIRECT ≠ 0 := by
        rw [indirect]
        exact fun zero => none (UInt32.toNat_inj.mp zero)
      rw [if_neg none, if_neg (indirect ▸ used), ← indirect, blocks.content i NDIRECT used]

theorem wellFormedInode_of_node (bound : i < sb.ninodes) (fields : dinodeAt sb disk i = (N i).d)
    (size : (N i).size ≤ MAXFILE * BSIZE) (covered : (N i).Covered (N i).size) :
    WellFormedInode disk i := by
  have data : ∀ pos, (N i).slots pos ≠ 0 → sb.datastart ≤ (N i).slots pos ∧
      (N i).slots pos < sb.size := fun pos used => blocks.data_of_node (blocks.owner used)
  have indirect : (N i).slots NDIRECT = ((N i).d.addrs INDIRECT).toNat := stable.addrs INDIRECT
  refine ⟨bound, ⟨Nat.le_add_left .., Super.iblock_lt bound⟩, ?_, ?_, ?_⟩
  · intro k nonzero
    rw [fields] at nonzero ⊢
    rw [← stable.addrs k]
    refine data k ?_
    rw [stable.addrs k]
    exact fun zero => nonzero (UInt32.toNat_inj.mp zero)
  · intro present k inside nonzero
    rw [fields] at present nonzero ⊢
    have used : (N i).slots NDIRECT ≠ 0 := by
      rw [indirect]
      exact fun zero => present (UInt32.toNat_inj.mp zero)
    rw [← indirect, blocks.content i NDIRECT used] at nonzero ⊢
    have entry := stable.entries k inside
    rw [if_neg used] at entry
    rw [← entry] at nonzero ⊢
    exact data _ nonzero
  · intro bn below
    rw [fields] at below ⊢
    have below : bn * BSIZE < (N i).size := below
    have inside : bn < MAXFILE := by
      unfold MAXFILE NDIRECT NINDIRECT BSIZE at *
      omega
    rw [addrOf_eq blocks stable inside]
    exact covered bn below

end

end Nodes

/-- The number of entries that fill a block of a directory. -/
def DPB : Nat := BSIZE / DIRENT

section Made

variable [DecidableEq Pid] {files : List HostFile} {s : State} {N : Nat → Node}
  {own : Nat → Owner Pid}

/-- A root directory that fills its last block gets a size with a block that it
does not have. -/
theorem Made.not_wellFormed (made : Made files s N own) (full : (files.length + 2) % DPB = 0) :
    ¬ WellFormed s := by
  intro formed
  have rootFields := made.dinode ROOTINO (by decide)
  have more := made.inodes
  have number := made.freeinode
  let bn := DIRENT * (files.length + 2) / BSIZE
  have here : bn * BSIZE = DIRENT * (files.length + 2) := by
    unfold bn DIRENT BSIZE
    unfold DPB BSIZE DIRENT at full
    omega
  have inside : bn < MAXFILE := by
    unfold bn DIRENT BSIZE MAXFILE NDIRECT NINDIRECT BSIZE
    unfold NINODES at more
    omega
  have root := formed ROOTINO (by decide) (by unfold ROOTINO; omega)
  refine root.covered bn ?_ ?_
  · rw [rootFields]
    show bn * BSIZE < (N ROOTINO).size
    rw [made.rootSize, roundedSize]
    exact Nat.mul_lt_mul_of_pos_right (Nat.lt_succ_self _) (by decide)
  · rw [rootFields, addrOf_eq made.blocks made.rootTight.stable inside]
    by_contra used
    have := (made.rootTight.slots bn).mp used
    omega

theorem Made.wellFormed (made : Made files s N own) (partly : (files.length + 2) % DPB ≠ 0) :
    WellFormed s := by
  intro i positive bound
  have more := made.inodes
  have number := made.freeinode
  have small : i < NINODES := by omega
  by_cases same : i = ROOTINO
  · subst same
    refine wellFormedInode_of_node made.blocks made.rootTight.stable small
      (made.dinode ROOTINO small) ?_ ?_
    · rw [made.rootSize, roundedSize]
      unfold DIRENT BSIZE MAXFILE NDIRECT NINDIRECT BSIZE
      unfold NINODES at more
      omega
    · intro bn below
      refine (made.rootTight.slots bn).mpr ?_
      rw [made.rootSize, roundedSize] at below
      unfold DPB BSIZE DIRENT at *
      omega
  · have tight := made.tight i same
    exact wellFormedInode_of_node made.blocks tight.stable small (made.dinode i small)
      tight.size_le tight.covered

end Made

/-- **An image that `mkfs` has finished is well-formed exactly when its files are
fewer than `NINODES - 1` and the root directory does not end at the end of a
block.** -/
theorem wellFormed_iff {files : List HostFile} {s : State} (done : main files = some s) :
    WellFormed s ↔ files.length < NINODES - 1 ∧ (files.length + 2) % DPB ≠ 0 := by
  by_cases more : files.length + 2 ≤ NINODES
  · rcases main_spec () files more with ⟨failed, -⟩ | ⟨t, N, own, succeeded, made⟩
    · rw [failed] at done
      cases done
    · rw [succeeded] at done
      cases done
      rw [and_iff_right (by omega)]
      exact ⟨fun formed full => made.not_wellFormed full formed, made.wellFormed⟩
  · refine iff_of_false (fun formed => ?_) (fun both => absurd both.1 (by omega))
    have number := freeinode_main done
    have last := (formed (files.length + 1) (by omega) (by omega)).inum
    have : sb.ninodes = NINODES := rfl
    omega

def letter (k : Nat) : UInt8 := UInt8.ofNat (97 + k % 26)

theorem toNat_letter (k : Nat) : (letter k).toNat = 97 + k % 26 := by
  rw [letter, UInt8.toNat_ofNat']
  omega

theorem letter_ne (k : Nat) {c : UInt8} (small : c.toNat < 97) : c ≠ letter k := by
  rintro rfl
  rw [toNat_letter] at small
  omega

/-- An empty file with a name of two letters. -/
def emptyFile (k : Nat) : HostFile where
  path := [letter k, letter (k / 26)]
  reads := []
  string := by simp [letter_ne k (c := 0) (by decide), letter_ne (k / 26) (c := 0) (by decide)]
  sizes := fun _ mem => absurd mem List.not_mem_nil

theorem shortname_emptyFile (k : Nat) : shortname (emptyFile k).path = some (emptyFile k).path := by
  have long : ¬ userDir <+: (emptyFile k).path := fun is_prefix =>
    absurd (List.IsPrefix.length_le is_prefix) (by simp [emptyFile, userDir])
  have flat : slash ∉ (emptyFile k).path := by
    simp [emptyFile, letter_ne k (c := slash) (by decide),
      letter_ne (k / 26) (c := slash) (by decide)]
  have plain : (emptyFile k).path.head? ≠ some underscore := by
    simpa [emptyFile] using (letter_ne k (c := underscore) (by decide)).symm
  rw [shortname, if_neg long, if_neg flat, if_neg plain]
  rfl

theorem acceptable_emptyFiles {n : Nat} (room : nmeta + blocksOf (DIRENT * (n + 2)) ≤ FSSIZE) :
    Acceptable ((List.range n).map emptyFile) := by
  have empty : blocksOf 0 = 0 := by decide
  refine ⟨?_, ?_⟩
  · intro f mem
    obtain ⟨k, -, rfl⟩ := List.mem_map.mp mem
    exact ⟨by rw [shortname_emptyFile]; simp, Nat.zero_le _⟩
  · simpa [total, Function.comp_def, emptyFile, HostFile.bytes, empty] using room

/-- One empty file makes a well-formed image. -/
theorem wellFormed_iff_one : ∃ s, main ((List.range 1).map emptyFile) = some s ∧ WellFormed s := by
  rcases main_spec () ((List.range 1).map emptyFile) (by decide) with
    ⟨-, unacceptable⟩ | ⟨s, _, _, done, -⟩
  · exact absurd (acceptable_emptyFiles (by decide)) unacceptable
  · exact ⟨s, done, (wellFormed_iff done).mpr (by decide)⟩

/-- **With 62 empty files the root directory fills one block, and `mkfs` gives it
the size of two.** -/
theorem full_root_not_wellFormed :
    ∃ s, main ((List.range 62).map emptyFile) = some s ∧ ¬ WellFormed s := by
  rcases main_spec () ((List.range 62).map emptyFile) (by decide) with
    ⟨-, unacceptable⟩ | ⟨s, _, _, done, made⟩
  · exact absurd (acceptable_emptyFiles (by decide)) unacceptable
  · exact ⟨s, done, made.not_wellFormed (by decide)⟩

end Xv6.Mkfs
