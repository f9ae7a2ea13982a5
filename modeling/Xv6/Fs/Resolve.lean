import Xv6.Fs.Faults

/-!
# Path resolution

A path is the list of its elements, and it leads from an inode to the one that is found by
looking the elements up, one after the other (`follow`, `followParent`). When no other process
is in a call, `namex` finds that inode, and keeps one reference to it and no other.
-/

namespace Xv6.Fs

open Function Prog

/-! ## Paths -/

/-- The elements of a path: the longest runs of bytes that are not slashes, cut to `DIRSIZ`. -/
def elements (path : List UInt8) : List (List UInt8) :=
  ((path.splitOn slash).filter (· ≠ [])).map (List.take DIRSIZ)

theorem elements_slash (path : List UInt8) : elements (slash :: path) = elements path := by
  have split : (slash :: path).splitOn slash = [] :: path.splitOn slash :=
    List.splitOnP_append_cons [] path (beq_self_eq_true slash)
  rw [elements, split]
  rfl

theorem elements_skip (path : List UInt8) :
    elements (path.dropWhile (· = slash)) = elements path := by
  induction path with
  | nil => rfl
  | cons byte path ih =>
    by_cases same : byte = slash
    · rw [same, List.dropWhile_cons_of_pos (by simp), ih, elements_slash]
    · rw [List.dropWhile_cons_of_neg (by simpa using same)]

variable {path : List UInt8}

/-- A path that does not begin with a slash begins with an element. -/
theorem elements_run (nonempty : path ≠ []) (head : path.head? ≠ some slash) :
    elements path =
      (path.takeWhile (· ≠ slash)).take DIRSIZ :: elements (path.dropWhile (· ≠ slash)) := by
  have run : path.takeWhile (· ≠ slash) ≠ [] := by
    cases path with
    | nil => exact absurd rfl nonempty
    | cons byte rest =>
      have other : byte ≠ slash := fun same => head (by rw [same]; rfl)
      rw [List.takeWhile_cons_of_pos (by simpa using other)]
      nofun
  have clean : ∀ byte ∈ path.takeWhile (· ≠ slash), (byte == slash) = false := by
    intro byte inside
    simpa using List.all_eq_true.mp List.all_takeWhile byte inside
  conv_lhs => rw [← List.takeWhile_append_dropWhile (p := (· ≠ slash)) (l := path)]
  generalize path.takeWhile (· ≠ slash) = first at run clean
  cases rest : path.dropWhile (· ≠ slash) with
  | nil =>
    have split : first.splitOn slash = [first] := List.splitOnP_eq_singleton clean
    simp [elements, split, run]
  | cons byte rest' =>
    have here : byte = slash := by
      have stop := List.head?_dropWhile_not (· ≠ slash) path
      rw [rest] at stop
      simpa using stop
    have split : (first ++ slash :: rest').splitOn slash = [first] ++ rest'.splitOn slash := by
      have whole : first.splitOn slash = [first] := List.splitOnP_eq_singleton clean
      rw [← whole]
      exact List.splitOnP_append_cons first rest' (beq_self_eq_true slash)
    rw [here, elements_slash, elements, split, elements]
    simp [run]

theorem elements_eq_nil (skipped : path.head? ≠ some slash) : elements path = [] ↔ path = [] := by
  constructor
  · intro none
    by_contra nonempty
    rw [elements_run nonempty skipped] at none
    cases none
  · rintro rfl
    rfl

theorem head_skip (path : List UInt8) : (path.dropWhile (· = slash)).head? ≠ some slash := by
  intro same
  have stop := List.head?_dropWhile_not (· = slash) path
  rw [same] at stop
  simp at stop

theorem skipelem_elements (path : List UInt8) : (skipelem path = none ∧ elements path = []) ∨
    ∃ name rest, skipelem path = some (name, rest) ∧ elements path = name :: elements rest ∧
      (rest = [] ↔ elements rest = []) ∧ rest.length < path.length := by
  unfold skipelem
  have head := head_skip path
  have same := elements_skip path
  have shorter : (path.dropWhile (· = slash)).length ≤ path.length :=
    (List.dropWhile_suffix _).length_le
  generalize path.dropWhile (· = slash) = skipped at head same shorter
  by_cases none : skipped = []
  · left
    rw [none] at same
    exact ⟨if_pos none, same.symm⟩
  · right
    refine ⟨_, _, if_neg none, ?_, ?_, ?_⟩
    · rw [← same, elements_run none head, elements_skip]
    · rw [elements_eq_nil (head_skip _)]
    · refine Nat.lt_of_lt_of_le ?_ shorter
      refine Nat.lt_of_le_of_lt (List.dropWhile_suffix _).length_le ?_
      cases skipped with
      | nil => exact absurd rfl none
      | cons byte rest =>
        have other : byte ≠ slash := fun same => head (by rw [same]; rfl)
        rw [List.dropWhile_cons_of_pos (by simpa using other)]
        exact Nat.lt_succ_of_le (List.dropWhile_suffix _).length_le

/-! ## Where a path leads -/

/-- The inode number that a directory has for a name. -/
def Node.lookup (n : Node) (name : List UInt8) : Option Nat :=
  ((List.range n.count).find? fun k =>
    (n.dirent k).inum ≠ 0 ∧ key DIRSIZ name = key DIRSIZ (n.dirent k).name).map fun k =>
      (n.dirent k).inum

section
variable (sb : Super) (disk : Nat → Block) {i : Nat}

/-- The inode that names lead to. -/
def follow : Nat → List (List UInt8) → Option Nat
  | i, [] => some i
  | i, name :: names =>
    if (dinodeAt sb disk i).type = T_DIR then
      ((nodeAt sb disk i).lookup name).bind fun next => follow next names
    else none

/-- The directory that all names but the last one lead to, and the last name. -/
def followParent (i : Nat) (names : List (List UInt8)) : Option (Nat × List UInt8) :=
  names.getLast?.bind fun last =>
    ((follow sb disk i names.dropLast).filter fun dir => (dinodeAt sb disk dir).type = T_DIR).map
      fun dir => (dir, last)

/-- What `namex` looks for. -/
def target (parent : Bool) (i : Nat) (names : List (List UInt8)) : Option (Nat × List UInt8) :=
  if parent then followParent sb disk i names else (follow sb disk i names).map fun j => (j, [])

theorem target_nil (parent : Bool) (i : Nat) :
    target sb disk parent i [] = if parent then none else some (i, []) := by
  cases parent <;> rfl

theorem target_notDir (type : (dinodeAt sb disk i).type ≠ T_DIR) (parent : Bool)
    (name : List UInt8) (names : List (List UInt8)) :
    target sb disk parent i (name :: names) = none := by
  cases parent with
  | false => simp [target, follow, type]
  | true => cases names <;> simp [target, followParent, follow, type]

section

variable (type : (dinodeAt sb disk i).type = T_DIR) (name : List UInt8)
include type name

theorem target_last : target sb disk true i [name] = some (i, name) := by
  simp [target, followParent, follow, type]

theorem target_next {names : List (List UInt8)} (more : parent = true → names ≠ []) :
    target sb disk parent i (name :: names) =
      ((nodeAt sb disk i).lookup name).bind fun next => target sb disk parent next names := by
  cases parent with
  | false =>
    simp only [target, follow, type, if_true]
    cases (nodeAt sb disk i).lookup name <;> rfl
  | true =>
    cases names with
    | nil => exact absurd rfl (more rfl)
    | cons second rest =>
      simp only [target, followParent, List.getLast?_cons_cons, List.dropLast_cons_cons, follow,
        type, if_true]
      cases (nodeAt sb disk i).lookup name with
      | none => cases (second :: rest).getLast? <;> rfl
      | some next => rfl

end

end

/-! ## Well-formed file systems -/

variable {Pid : Type} {sb : Super} {p : Pid} {s t u : State Pid}
  {f : Inode Pid → Inode Pid} {n : Node}

/-- An inode that is in use, and is not freed when the last reference of a call to it goes. -/
structure Alive (sb : Super) (s : State Pid) (i : Nat) : Prop where
  bound : i < sb.ninodes
  type : (dinodeAt sb s.disk i).type ≠ 0
  kept : (dinodeAt sb s.disk i).nlink ≠ 0 ∨ ∃ e, 0 < (s.itable e).ref ∧ (s.itable e).inum = i

/-- A directory with whole entries, without holes, that names inodes in use. -/
structure GoodDir (sb : Super) (s : State Pid) (n : Node) : Prop where
  aligned : n.size % DIRENT = 0
  covered : n.Covered n.size
  size_le : n.size ≤ MAXFILE * BSIZE
  names : ∀ k < n.count, (n.dirent k).inum ≠ 0 → Alive sb s (n.dirent k).inum

/-- The table of inodes: one entry for each inode, and copies of the inodes of the disk. -/
structure GoodTable (sb : Super) (s : State Pid) : Prop where
  dev : ∀ e, 0 < (s.itable e).ref → (s.itable e).dev = ROOTDEV
  copy : ∀ e, 0 < (s.itable e).ref → (s.itable e).valid = true →
    (s.itable e).d = dinodeAt sb s.disk (s.itable e).inum
  distinct : ∀ e f, 0 < (s.itable e).ref → 0 < (s.itable f).ref →
    (s.itable e).inum = (s.itable f).inum → e = f

/-- A file system with well-formed directories, and no inode locked. -/
structure WellFormed (sb : Super) (s : State Pid) : Prop where
  table : GoodTable sb s
  unlocked : ∀ e, (s.itable e).lock = none
  root : Alive sb s ROOTINO
  opened : ∀ e, 0 < (s.itable e).ref → Alive sb s (s.itable e).inum
  dirs : ∀ i < sb.ninodes, (dinodeAt sb s.disk i).type = T_DIR → GoodDir sb s (nodeAt sb s.disk i)

/-- The state is as before, but for references to entries of the table that there are more. -/
structure Holds (sb : Super) (p : Pid) (s t : State Pid) (held : Option (Fin NINODE))
    (more : Fin NINODE → Nat) : Prop where
  disk : t.disk = s.disk
  procs : t.procs = s.procs
  refs : ∀ a, (t.itable a).ref = (s.itable a).ref + more a
  inums : ∀ a, 0 < (s.itable a).ref → (t.itable a).inum = (s.itable a).inum
  locks : ∀ a, (t.itable a).lock = if held = some a then some p else none
  table : GoodTable sb t

/-- One reference. -/
def single (e : Fin NINODE) : Fin NINODE → Nat := fun a => if a = e then 1 else 0

theorem WellFormed.holds (formed : WellFormed sb s) : Holds sb p s s none 0 :=
  ⟨rfl, rfl, fun _ => rfl, fun _ _ => rfl, formed.unlocked, formed.table⟩

/-! ## One step -/

variable {held : Option (Fin NINODE)} {more : Fin NINODE → Nat} {e : Fin NINODE}

theorem Holds.set {held' : Option (Fin NINODE)}
    {more' : Fin NINODE → Nat} (holds : Holds sb p s t held more)
    (refs : (f (t.itable e)).ref = (s.itable e).ref + more' e)
    (others : ∀ a, a ≠ e → more' a = more a)
    (inum : 0 < (s.itable e).ref → (f (t.itable e)).inum = (t.itable e).inum)
    (lock : (f (t.itable e)).lock = if held' = some e then some p else none)
    (apart : ∀ a, a ≠ e → (held' = some a ↔ held = some a))
    (dev : 0 < (f (t.itable e)).ref → (f (t.itable e)).dev = ROOTDEV)
    (copy : 0 < (f (t.itable e)).ref → (f (t.itable e)).valid = true →
      (f (t.itable e)).d = dinodeAt sb t.disk (f (t.itable e)).inum)
    (distinct : 0 < (f (t.itable e)).ref → ∀ a, a ≠ e → 0 < (t.itable a).ref →
      (t.itable a).inum ≠ (f (t.itable e)).inum) : Holds sb p s (t.setInode e f) held' more' := by
  have here : (t.setInode e f).itable e = f (t.itable e) := update_self ..
  have away : ∀ a, a ≠ e → (t.setInode e f).itable a = t.itable a := fun a other =>
    update_of_ne other ..
  refine ⟨holds.disk, holds.procs, fun a => ?_, fun a used => ?_, fun a => ?_,
    fun a used => ?_, fun a used valid => ?_, fun a b usedA usedB same => ?_⟩
  · by_cases equal : a = e
    · rw [equal, here, refs]
    · rw [away a equal, holds.refs, others a equal]
  · by_cases equal : a = e
    · subst equal
      rw [here, inum used, holds.inums a used]
    · rw [away a equal, holds.inums a used]
  · by_cases equal : a = e
    · rw [equal, here, lock]
    · rw [away a equal, holds.locks]
      simp only [apart a equal]
  · by_cases equal : a = e
    · rw [equal, here] at used ⊢
      exact dev used
    · rw [away a equal] at used ⊢
      exact holds.table.dev a used
  · by_cases equal : a = e
    · rw [equal, here] at used valid ⊢
      exact copy used valid
    · rw [away a equal] at used valid ⊢
      exact holds.table.copy a used valid
  · by_cases first : a = e
    · by_cases second : b = e
      · rw [first, second]
      · rw [first, here] at usedA same
        rw [away b second] at usedB same
        exact absurd same.symm (distinct usedA b second usedB)
    · by_cases second : b = e
      · rw [second, here] at usedB same
        rw [away a first] at usedA same
        exact absurd same (distinct usedB a first usedA)
      · rw [away a first] at usedA same
        rw [away b second] at usedB same
        exact holds.table.distinct a b usedA usedB same

theorem inum_setInode (same : (f (t.itable e)).inum = (t.itable e).inum)
    (a : Fin NINODE) : ((t.setInode e f).itable a).inum = (t.itable a).inum := by
  by_cases equal : a = e
  · rw [equal, ← same]
    exact congrArg Inode.inum (update_self ..)
  · exact congrArg Inode.inum (update_of_ne equal ..)

variable [DecidableEq Pid] [Fintype Pid]

section

variable (holds : Holds sb p s t held more)
include holds

theorem Holds.apart (used : 0 < (t.itable e).ref) (a : Fin NINODE)
    (other : a ≠ e) (usedA : 0 < (t.itable a).ref) : (t.itable a).inum ≠ (t.itable e).inum :=
  fun same => other (holds.table.distinct a e usedA used same)

theorem Holds.dup (used : 0 < (t.itable e).ref) :
    Holds sb p s (t.setInode e fun ip => { ip with ref := ip.ref + 1 }) held (more + single e) := by
  refine holds.set ?_ (fun a other => ?_) (fun _ => rfl) (holds.locks e) (fun _ _ => .rfl)
    (fun _ => holds.table.dev e used) (fun _ => holds.table.copy e used) fun _ => holds.apart used
  · show (t.itable e).ref + 1 = _
    rw [holds.refs, Pi.add_apply, single, if_pos rfl, Nat.add_assoc]
  · rw [Pi.add_apply, single, if_neg other, Nat.add_zero]

/-- `iget` gives one more reference, unless the table is full. -/
theorem Holds.iget (i : Nat) :
    ((iget ROOTDEV i : Kernel Pid _).run t = .panic .igetNoInodes ∧ ∀ a, (t.itable a).ref ≠ 0) ∨
    ∃ u e, (iget ROOTDEV i : Kernel Pid _).run t = .ok u e ∧ Holds sb p s u held (more + single e) ∧
      (u.itable e).inum = i ∧ ∀ a, 0 < (t.itable a).ref →
        (u.itable a).inum = (t.itable a).inum := by
  unfold Xv6.Fs.iget
  rw [run_atomic]
  unfold findInode
  cases cached : (List.finRange NINODE).find? fun e => decide
      (0 < (t.itable e).ref ∧ (t.itable e).dev = ROOTDEV ∧ (t.itable e).inum = i) with
  | some e =>
    have found := List.find?_some cached
    simp only [decide_eq_true_eq] at found
    refine .inr ⟨_, e, rfl, holds.dup found.1, ?_, fun a _ => inum_setInode rfl a⟩
    rw [inum_setInode rfl, found.2.2]
  | none =>
    have absent : ∀ a, 0 < (t.itable a).ref → (t.itable a).inum ≠ i := by
      intro a used same
      have skipped := List.find?_eq_none.mp cached a (List.mem_finRange a)
      exact skipped (by simpa using ⟨used, holds.table.dev a used, same⟩)
    cases empty : (List.finRange NINODE).find? fun e => decide ((t.itable e).ref = 0) with
    | none =>
      refine .inl ⟨rfl, fun a zero => ?_⟩
      exact List.find?_eq_none.mp empty a (List.mem_finRange a) (by simpa using zero)
    | some e =>
      have free := List.find?_some empty
      simp only [decide_eq_true_eq] at free
      have before := holds.refs e
      rw [free] at before
      refine .inr ⟨_, e, rfl, holds.set ?_ (fun a other => ?_) (fun used => ?_) (holds.locks e)
        (fun _ _ => .rfl) (fun _ => rfl) (fun _ => nofun) (fun _ a _ used => absent a used), ?_,
        fun a used => ?_⟩
      · show 1 = _
        rw [Pi.add_apply, single, if_pos rfl]
        omega
      · rw [Pi.add_apply, single, if_neg other, Nat.add_zero]
      · omega
      · simp [State.setInode]
      · have other : a ≠ e := fun same => by rw [same] at used; omega
        simp [State.setInode, other]

end

theorem Holds.ilock (holds : Holds sb p s t none more) (used : 0 < (t.itable e).ref)
    (type : (dinodeAt sb s.disk (t.itable e).inum).type ≠ 0) :
    ∃ u, (ilock sb p e).run t = .ok u () ∧ Holds sb p s u (some e) more ∧
      (u.itable e).inum = (t.itable e).inum ∧
      (u.itable e).d = dinodeAt sb s.disk (t.itable e).inum := by
  have lockedRun : (acquireInode p e).run t =
      .ok (t.setInode e fun ip => { ip with lock := some p }) () := by
    unfold acquireInode
    rw [run_atomic, if_neg (by omega), if_pos (by simpa using holds.locks e)]
  have locked : Holds sb p s (t.setInode e fun ip => { ip with lock := some p }) (some e) more := by
    refine holds.set (holds.refs e) (fun _ _ => rfl) (fun _ => rfl) (if_pos rfl).symm
      (fun a other => ?_) (fun _ => holds.table.dev e used) (fun _ => holds.table.copy e used)
      fun _ => holds.apart used
    simpa using fun same => other same.symm
  unfold Xv6.Fs.ilock
  rw [run_then lockedRun]
  have here : (t.setInode e fun ip => { ip with lock := some p }).itable e =
      { t.itable e with lock := some p } := update_self ..
  generalize t.setInode e (fun ip => { ip with lock := some p }) = t₁ at locked here
  have inum : (t₁.itable e).inum = (t.itable e).inum := by rw [here]
  have used₁ : 0 < (t₁.itable e).ref := by rw [here]; exact used
  unfold loadInode
  rw [run_atomic]
  by_cases valid : (t₁.itable e).valid = true
  · rw [if_pos valid]
    exact ⟨t₁, rfl, locked, inum, by rw [locked.table.copy e used₁ valid, locked.disk, inum]⟩
  · rw [if_neg valid]
    simp only [locked.disk, inum]
    rw [if_neg type]
    refine ⟨_, rfl, locked.set (locked.refs e) (fun _ _ => rfl) (fun _ => rfl) (locked.locks e)
      (fun _ _ => .rfl) (fun _ => locked.table.dev e used₁) (fun _ _ => ?_)
        (fun _ => locked.apart used₁),
      ?_, ?_⟩
    · rw [locked.disk, inum]
    · simp [State.setInode, inum]
    · simp [State.setInode]

theorem Holds.iunlock (holds : Holds sb p s t (some e) more) (used : 0 < (t.itable e).ref) :
    ∃ u, (iunlock p e).run t = .ok u () ∧ Holds sb p s u none more ∧
      ∀ a, (u.itable a).inum = (t.itable a).inum := by
  have mine : (t.itable e).lock = some p := by rw [holds.locks, if_pos rfl]
  unfold Xv6.Fs.iunlock
  rw [run_atomic, if_neg (by rw [mine]; simp; omega)]
  refine ⟨_, rfl, holds.set (holds.refs e) (fun _ _ => rfl) (fun _ => rfl) rfl (fun a other => ?_)
    (fun _ => holds.table.dev e used) (fun _ => holds.table.copy e used) fun _ => holds.apart used,
    inum_setInode rfl⟩
  simpa using fun same => other same.symm

/-- `iput` of an inode that is in use gives a reference back. -/
theorem Holds.iput (holds : Holds sb p s t none (more + single e))
    (alive : Alive sb s (t.itable e).inum) :
    ∃ u, (iput sb p e).run t = .ok u () ∧ Holds sb p s u none more ∧
      ∀ a, (u.itable a).inum = (t.itable a).inum := by
  have count := holds.refs e
  rw [Pi.add_apply, single, if_pos rfl] at count
  have used : 0 < (t.itable e).ref := by omega
  have kept : ¬ ((t.itable e).ref = 1 ∧ (t.itable e).valid = true ∧ (t.itable e).d.nlink = 0) := by
    rintro ⟨last, valid, unlinked⟩
    rw [holds.table.copy e used valid, holds.disk] at unlinked
    rcases alive.kept with linked | ⟨a, usedA, same⟩
    · exact linked unlinked
    · -- the inode was in the table before, and it has one entry
      have entry : a = e := holds.table.distinct a e (by rw [holds.refs]; omega) used
        (by rw [holds.inums a usedA, same])
      rw [entry] at usedA
      omega
  have test : (iputTest p e).run t =
      .ok (t.setInode e fun ip => { ip with ref := ip.ref - 1 }) false := by
    unfold iputTest
    rw [run_atomic]
    simp only
    rw [if_neg kept]
  unfold Xv6.Fs.iput
  rw [run_then test]
  refine ⟨_, rfl, holds.set ?_ (fun a other => ?_) (fun _ => rfl) (holds.locks e) (fun _ _ => .rfl)
    (fun _ => holds.table.dev e used) (fun _ => holds.table.copy e used)
      (fun _ => holds.apart used),
    inum_setInode rfl⟩
  · show (t.itable e).ref - 1 = _
    omega
  · rw [Pi.add_apply, single, if_neg other, Nat.add_zero]

theorem Holds.iunlockput (holds : Holds sb p s t (some e) (more + single e))
    (alive : Alive sb s (t.itable e).inum) :
    ∃ u, (iunlockput sb p e).run t = .ok u () ∧ Holds sb p s u none more ∧
      ∀ a, (u.itable a).inum = (t.itable a).inum := by
  have count := holds.refs e
  rw [Pi.add_apply, single, if_pos rfl] at count
  obtain ⟨t₁, first, unlocked, inums₁⟩ := holds.iunlock (by omega)
  rw [← inums₁] at alive
  obtain ⟨t₂, second, after, inums₂⟩ := unlocked.iput alive
  unfold Xv6.Fs.iunlockput
  rw [run_then first]
  exact ⟨t₂, second, after, fun a => (inums₂ a).trans (inums₁ a)⟩

theorem Holds.noteHop (holds : Holds sb p s t held more) (dp ip : Fin NINODE) (name : List UInt8) :
    ∃ u, (noteHop sb dp ip name).run t = .ok u () ∧ Holds sb p s u held more ∧
      u.itable = t.itable :=
  ⟨_, rfl, ⟨holds.disk, holds.procs, holds.refs, holds.inums, holds.locks,
    ⟨holds.table.dev, holds.table.copy, holds.table.distinct⟩⟩, rfl⟩

/-! ## Directories -/

theorem run_readDirent (stands : StandsFor t e n) {k : Nat} (inside : k < n.count)
    (why : Panic) : (readDirent sb p e why k).run t = .ok t (n.dirent k) := by
  have size_le := stands.readable.size_le
  have limit := maxfile_lt
  have fits : DIRENT * k + DIRENT ≤ n.size := by
    unfold Node.count at inside
    unfold DIRENT at *
    omega
  have len : readLen n.content.length (DIRENT * k) DIRENT = DIRENT := by
    have wrap : (DIRENT * k + DIRENT) % 2 ^ 32 = DIRENT * k + DIRENT := Nat.mod_eq_of_lt (by omega)
    unfold readLen
    rw [n.length_content, wrap, if_neg (by omega), if_neg (by omega)]
  have read : (readi sb p e (fun _ _ => true) (DIRENT * k) DIRENT).run t = _ :=
    stands.reads (DIRENT * k) DIRENT (by decide)
  rw [len, Node.take_drop_content fits] at read
  unfold readDirent
  rw [run_then read]
  simp only [if_true]
  rfl

/-- `dirlookup` finds what the directory has for the name, and calls `iget` for it. -/
theorem run_dirlookup (sb : Super) (p : Pid) (stands : StandsFor t e n) (type : n.d.type = T_DIR)
    (aligned : n.size % DIRENT = 0) (dev : (t.itable e).dev = ROOTDEV) (name : List UInt8) :
    (n.lookup name = none ∧ (dirlookup sb p e name).run t = .ok t none) ∨
    ∃ k < n.count, (n.dirent k).inum ≠ 0 ∧ n.lookup name = some (n.dirent k).inum ∧
      (dirlookup sb p e name).run t =
        ((iget ROOTDEV (n.dirent k).inum : Kernel Pid _) >>= fun next =>
          pure (some (next, k))).run t := by
  have search : (first (List.range (Xv6.Fs.slots (t.itable e).d.size.toNat))
      (dirlookupAt sb p e name)).run t = .ok t
        (((List.range n.count).find? fun k => decide ((n.dirent k).inum ≠ 0 ∧
          key DIRSIZ name = key DIRSIZ (n.dirent k).name)).map
            fun k => ((n.dirent k).inum, k)) := by
    rw [stands.fields, show Xv6.Fs.slots n.d.size.toNat = n.count from Node.slots_size aligned]
    refine run_find _ _ fun k inside => ?_
    unfold dirlookupAt
    rw [run_then (run_readDirent stands (List.mem_range.mp inside) _)]
    by_cases zero : (n.dirent k).inum = 0
    · rw [if_pos zero, if_neg fun both => both.1 zero]
      rfl
    · rw [if_neg zero]
      by_cases same : namecmp name (n.dirent k).name = 0
      · rw [if_pos same, if_pos ⟨zero, strncmp_eq_zero.mp same⟩]
        rfl
      · rw [if_neg same, if_neg fun both => same (strncmp_eq_zero.mpr both.2)]
        rfl
  unfold dirlookup Node.lookup
  rw [run_then run_getInode, if_neg (by rw [stands.fields, type]; simp), run_then search]
  cases found : (List.range n.count).find? fun k => decide ((n.dirent k).inum ≠ 0 ∧
      key DIRSIZ name = key DIRSIZ (n.dirent k).name) with
  | none => exact .inl ⟨rfl, rfl⟩
  | some k =>
    have binds := List.find?_some found
    simp only [decide_eq_true_eq] at binds
    refine .inr ⟨k, List.mem_range.mp (List.mem_of_find?_eq_some found), binds.1, rfl, ?_⟩
    simp only [Option.map_some, dev]

/-! ## The walk -/

/-- At most one entry of the table is free. -/
def Crowded (s : State Pid) : Prop :=
  ∀ a b, (s.itable a).ref = 0 → (s.itable b).ref = 0 → a = b

/-- `namex` ends with the inode it looks for and one reference, or with none; or it panics, with
at most one entry of the table free. -/
def Resolves (sb : Super) (p : Pid) (s : State Pid) (goal : Option (Nat × List UInt8))
    (outcome : Outcome (State Pid) Panic (Option (Fin NINODE × List UInt8))) : Prop :=
  (outcome = .panic .igetNoInodes ∧ Crowded s) ∨
  ∃ u found, outcome = .ok u found ∧
    match found with
    | some (e, name) => Holds sb p s u none (single e) ∧ goal = some ((u.itable e).inum, name)
    | none => Holds sb p s u none 0 ∧ goal = none

theorem run_namexEnd (holds : Holds sb p s t none (single e)) (alive : Alive sb s (t.itable e).inum)
    (parent : Bool) :
    Resolves sb p s (target sb s.disk parent (t.itable e).inum [])
      ((namexEnd sb p parent e).run t) := by
  unfold namexEnd
  rw [target_nil]
  cases parent with
  | false => exact .inr ⟨t, _, rfl, holds, rfl⟩
  | true =>
    rw [← zero_add (single e)] at holds
    obtain ⟨u, put, after, -⟩ := holds.iput alive
    simp only [if_true]
    rw [run_then put]
    exact .inr ⟨u, none, rfl, after, rfl⟩

/-- The loop of `namex`. By induction on the fuel: each pass takes an element. -/
theorem run_namexLoop (formed : WellFormed sb s) (parent : Bool) (fuel : Nat) (path : List UInt8)
    (enough : path.length ≤ fuel) (holds : Holds sb p s t none (single e))
    (alive : Alive sb s (t.itable e).inum) :
    Resolves sb p s (target sb s.disk parent (t.itable e).inum (elements path))
      ((namexLoop sb p parent fuel path e).run t) := by
  induction fuel generalizing path t e with
  | zero =>
    obtain rfl : path = [] := List.eq_nil_of_length_eq_zero (by omega)
    exact run_namexEnd holds alive parent
  | succ fuel ih =>
    unfold namexLoop
    obtain ⟨skip, none⟩ | ⟨name, rest, skip, split, last, shorter⟩ := skipelem_elements path
    · rw [skip, none]
      exact run_namexEnd holds alive parent
    · rw [skip, split]
      have count := holds.refs e
      rw [single, if_pos rfl] at count
      obtain ⟨t₁, locked, holds₁, inum, fields⟩ := holds.ilock (by omega) alive.type
      have alive₁ : Alive sb s (t₁.itable e).inum := by rw [inum]; exact alive
      simp only
      rw [run_then locked, run_then run_getInode, fields]
      by_cases type : (dinodeAt sb s.disk (t.itable e).inum).type = T_DIR
      · rw [if_neg (not_not.mpr type)]
        by_cases stop : parent ∧ rest = []
        · -- stop one level early
          obtain ⟨t₂, unlocked, after, inums⟩ := holds₁.iunlock (by rw [holds₁.refs]; simp [single])
          rw [if_pos stop, run_then unlocked, last.mp stop.2, stop.1, target_last _ _ type]
          exact .inr ⟨t₂, _, rfl, after, by rw [inums, inum]⟩
        · rw [if_neg stop, target_next _ _ type name fun isParent empty =>
            stop ⟨isParent, last.mpr empty⟩]
          have good := formed.dirs _ alive.bound type
          have stands : StandsFor t₁ e (nodeAt sb s.disk (t.itable e).inum) :=
            ⟨⟨nodeAt_stable .., good.covered, good.size_le⟩, fields,
              fun _ _ => by rw [holds₁.disk]; rfl⟩
          rw [← zero_add (single e)] at holds₁
          obtain ⟨absent, looked⟩ | ⟨k, inside, used, present, looked⟩ :=
            run_dirlookup sb p stands type good.aligned
              (holds₁.table.dev e (by rw [holds₁.refs]; simp [single])) name
          · obtain ⟨t₂, put, after, -⟩ := holds₁.iunlockput alive₁
            rw [run_then looked, absent]
            simp only
            rw [run_then put]
            exact .inr ⟨t₂, none, rfl, after, rfl⟩
          · rw [present]
            obtain ⟨stopped, full⟩ | ⟨t₂, next, got, holds₂, number, same⟩ :=
              holds₁.iget ((nodeAt sb s.disk (t.itable e).inum).dirent k).inum
            · -- only the entry of this directory may have been free
              rw [run_panic (looked.trans (run_panic stopped))]
              refine .inl ⟨rfl, fun a b freeA freeB => ?_⟩
              have only : ∀ a, (s.itable a).ref = 0 → a = e := by
                intro a free
                by_contra other
                have := full a
                rw [holds₁.refs, free] at this
                simp [single, other] at this
              rw [only a freeA, only b freeB]
            · rw [run_then (looked.trans (run_then got))]
              obtain ⟨t₃, noted, holds₃, table⟩ := holds₂.noteHop e next name
              have here : (t₃.itable e).inum = (t.itable e).inum := by
                rw [table, same e (by rw [holds₁.refs]; simp [single]), inum]
              rw [add_right_comm] at holds₃
              obtain ⟨t₄, put, holds₄, inums⟩ := holds₃.iunlockput (by rw [here]; exact alive)
              rw [zero_add] at holds₄
              have there : (t₄.itable next).inum =
                  ((nodeAt sb s.disk (t.itable e).inum).dirent k).inum := by
                rw [inums, table, number]
              simp only
              rw [run_then noted, run_then put, Option.bind_some, ← there]
              refine ih rest (by omega) holds₄ ?_
              rw [there]
              exact good.names k inside used
      · obtain ⟨t₂, put, after, -⟩ := (show Holds sb p s t₁ (some e) (0 + single e) by
          rw [zero_add]; exact holds₁).iunlockput alive₁
        rw [if_pos type, run_then put, target_notDir _ _ type]
        exact .inr ⟨t₂, none, rfl, after, rfl⟩

/-- Where a path begins. -/
def startOf (s : State Pid) (p : Pid) (path : List UInt8) : Option Nat :=
  if path.head? = some slash then some ROOTINO
  else (s.procs p).cwd.map fun e => (s.itable e).inum

theorem run_namex (formed : WellFormed sb s) {c : Fin NINODE} (cwd : (s.procs p).cwd = some c)
    (opened : 0 < (s.itable c).ref) (parent : Bool) (path : List UInt8) :
    Resolves sb p s ((startOf s p path).bind fun i => target sb s.disk parent i (elements path))
      ((namex sb p parent path).run s) := by
  have holds := formed.holds (p := p)
  unfold namex startOf
  by_cases absolute : path.head? = some slash
  · rw [if_pos absolute, if_pos absolute]
    obtain ⟨stopped, full⟩ | ⟨t, e, got, holds₁, number, -⟩ := holds.iget ROOTINO
    · rw [run_panic stopped]
      exact .inl ⟨rfl, fun a _ free => absurd free (full a)⟩
    · rw [zero_add] at holds₁
      rw [run_then got, Option.bind_some, ← number]
      exact run_namexLoop formed parent _ path le_rfl holds₁ (by rw [number]; exact formed.root)
  · rw [if_neg absolute, if_neg absolute, cwd]
    have dup := holds.dup opened
    rw [zero_add] at dup
    have started : (dupCwd p).run s =
        .ok (s.setInode c fun ip => { ip with ref := ip.ref + 1 }) c := by
      unfold dupCwd
      rw [run_then (show (myproc p).run s = .ok s (s.procs p) from rfl), cwd]
      rfl
    have number :=
      inum_setInode (t := s) (e := c) (f := fun ip => { ip with ref := ip.ref + 1 }) rfl c
    rw [run_then started, Option.map_some, Option.bind_some, ← number]
    exact run_namexLoop formed parent _ path le_rfl dup
      (by rw [number]; exact formed.opened c opened)

/-- **Path resolution.** `namei` finds what the elements of the path lead to, and `nameiparent`
the directory before the last one. -/
theorem path_resolution (formed : WellFormed sb s) {c : Fin NINODE} (cwd : (s.procs p).cwd = some c)
    (opened : 0 < (s.itable c).ref) (path : List UInt8) :
    (((namei sb p path).run s = .panic .igetNoInodes ∧ Crowded s) ∨
      ∃ u found, (namei sb p path).run s = .ok u found ∧
        ((startOf s p path).bind fun i => follow sb s.disk i (elements path)) =
          found.map (fun e => (u.itable e).inum) ∧
        Holds sb p s u none (found.elim 0 single)) ∧
    (((nameiparent sb p path).run s = .panic .igetNoInodes ∧ Crowded s) ∨
      ∃ u found, (nameiparent sb p path).run s = .ok u found ∧
        ((startOf s p path).bind fun i => followParent sb s.disk i (elements path)) =
          found.map (fun result => ((u.itable result.1).inum, result.2)) ∧
        Holds sb p s u none (found.elim 0 fun result => single result.1)) := by
  constructor
  · unfold namei
    obtain ⟨stopped, crowded⟩ | ⟨u, found, ran, after⟩ := run_namex formed cwd opened false path
    · exact .inl ⟨Prog.run_panic stopped, crowded⟩
    · refine .inr ⟨u, found.map Prod.fst, Prog.run_then ran, ?_⟩
      have goal : ((startOf s p path).bind fun i => target sb s.disk false i (elements path)) =
          ((startOf s p path).bind fun i => follow sb s.disk i (elements path)).map
            fun j => (j, ([] : List UInt8)) := by
        cases startOf s p path <;> rfl
      rw [goal] at after
      match found, after with
      | none, ⟨holds, absent⟩ => exact ⟨Option.map_eq_none_iff.mp absent, holds⟩
      | some (e, name), ⟨holds, present⟩ =>
        obtain ⟨j, reached, same⟩ := Option.map_eq_some_iff.mp present
        rw [reached, (Prod.mk.inj same).1]
        exact ⟨rfl, holds⟩
  · obtain ⟨stopped, crowded⟩ | ⟨u, found, ran, after⟩ := run_namex formed cwd opened true path
    · exact .inl ⟨stopped, crowded⟩
    · refine .inr ⟨u, found, ran, ?_⟩
      match found, after with
      | none, ⟨holds, absent⟩ => exact ⟨absent, holds⟩
      | some (e, name), ⟨holds, present⟩ => exact ⟨present, holds⟩

/-! ## A full table -/

def nested : Super :=
  ⟨9, 52, 1, 5, small.start_pos, by decide, by decide, by decide, by decide, by decide⟩

/-- The directories `/` and `/a`, and files. -/
def nestedInode : Nat → Dinode
  | 0 => .zero
  | 1 => ⟨T_DIR, 0, 0, 1, 48, fun k => if k = 0 then 6 else 0⟩
  | 2 => ⟨T_DIR, 0, 0, 1, 48, fun k => if k = 0 then 7 else 0⟩
  | _ => { Dinode.zero with type := T_FILE, nlink := 1 }

/-- `.`, `..` and `a`, and in `/a` the file `b`. -/
def nestedEntries (b : Nat) : List (Nat × List UInt8) :=
  if b = 6 then [(1, [46]), (1, [46, 46]), (2, [97])] else [(2, [46]), (1, [46, 46]), (51, [98])]

def nestedDisk (b : Nat) : Block := Bytes.ofFn fun i =>
  if b < 6 then (nestedInode (IPB * (b - 1) + i / DINODE)).toBytes.getD (i % DINODE) 0
  else ((nestedEntries b).flatMap fun e => (Dirent.mk e.1 (strncpy DIRSIZ e.2)).toBytes).getD i 0

/-- All inodes but the last one may be open, the first of them is the root. -/
def nestedState (refs : Fin NINODE → Nat) : State Unit where
  disk := nestedDisk
  itable := fun e => ⟨ROOTDEV, e + 1, refs e, none, false, Dinode.zero⟩
  ftable := fun _ => ⟨0, .none, false, false, 0, 0, 0⟩
  procs := fun _ => ⟨.runnable, some 0, fun _ => none⟩
  building := fun _ => none
  events := []
  outstanding := 0
  logged := fun _ => []

theorem nested_inodes : ∀ i < 52,
    (0 < i → (dinodeAt nested nestedDisk i).type ≠ 0 ∧ (dinodeAt nested nestedDisk i).nlink ≠ 0) ∧
    ((dinodeAt nested nestedDisk i).type = T_DIR → i ∈ [1, 2]) := by decide +kernel

theorem nested_formed (refs : Fin NINODE → Nat) : WellFormed nested (nestedState refs) := by
  have alive : ∀ i, 0 < i → i < 52 → Alive nested (nestedState refs) i := fun i pos small =>
    ⟨small, ((nested_inodes i small).1 pos).1, .inl ((nested_inodes i small).1 pos).2⟩
  have entry : ∀ e : Fin NINODE, e.val + 1 < 52 := fun e => by
    have := e.isLt
    unfold NINODE at this
    omega
  -- the two directories
  have dirs : ∀ i ∈ [1, 2], (nodeAt nested nestedDisk i).size = 48 ∧
      (nodeAt nested nestedDisk i).slots (posOf 0) ≠ 0 ∧
      ∀ k < 3, 0 < ((nodeAt nested nestedDisk i).dirent k).inum ∧
        ((nodeAt nested nestedDisk i).dirent k).inum < 52 := by decide +kernel
  refine ⟨⟨fun _ _ => rfl, fun _ _ valid => absurd valid Bool.false_ne_true,
    fun e f _ _ same => ?_⟩, fun _ => rfl, alive _ (by decide) (by decide), fun e _ => alive _ (Nat.succ_pos _) (entry e),
    fun i small type => ?_⟩
  · exact Fin.ext (Nat.add_right_cancel same)
  · obtain ⟨size, slot, names⟩ := dirs i ((nested_inodes i small).2 type)
    have disk : (nestedState refs).disk = nestedDisk := rfl
    refine ⟨by rw [disk, size]; rfl, fun bn below => ?_, by rw [disk, size]; decide, ?_⟩
    · rw [disk, size] at below
      obtain rfl : bn = 0 := by
        unfold BSIZE at below
        omega
      exact slot
    · intro k inside _
      rw [disk, Node.count, size] at inside
      obtain ⟨pos, small⟩ := names k inside
      exact alive _ pos small

/-- The path of the file. -/
def nestedPath : List UInt8 := [slash, 97, slash, 98]

theorem path_resolution_nested :
    (∃ u e, (namei nested () nestedPath).run (nestedState (single 0)) = .ok u (some e) ∧
      (u.itable e).inum = 51 ∧ Holds nested () (nestedState (single 0)) u none (single e)) ∧
    ∃ u e, (nameiparent nested () nestedPath).run (nestedState (single 0)) = .ok u (some (e, [98])) ∧
      (u.itable e).inum = 2 ∧ Holds nested () (nestedState (single 0)) u none (single e) := by
  have spare : ¬ Crowded (nestedState (single 0)) := fun crowded =>
    absurd (crowded 1 2 rfl rfl) (by decide)
  have found := path_resolution (nested_formed (single 0)) (p := ()) (c := 0) rfl (by decide)
    nestedPath
  obtain ⟨u, file, ran, goal, holds⟩ := found.1.resolve_left fun stopped => spare stopped.2
  obtain ⟨u', dir, ran', goal', holds'⟩ := found.2.resolve_left fun stopped => spare stopped.2
  have leads : (startOf (nestedState (single 0)) () nestedPath).bind (fun i =>
      follow nested nestedDisk i (elements nestedPath)) = some 51 := by decide +kernel
  have leads' : (startOf (nestedState (single 0)) () nestedPath).bind (fun i =>
      followParent nested nestedDisk i (elements nestedPath)) = some (2, [98]) := by decide +kernel
  obtain ⟨e, rfl, inum⟩ := Option.map_eq_some_iff.mp (goal.symm.trans leads)
  obtain ⟨⟨e', name⟩, rfl, same⟩ := Option.map_eq_some_iff.mp (goal'.symm.trans leads')
  obtain ⟨inum', rfl⟩ := Prod.mk.inj same
  exact ⟨⟨u, e, ran, inum, holds⟩, u', e', ran', inum', holds'⟩

/-- The table is full, with the root in it, and the file cannot be found. -/
theorem namei_full : WellFormed nested (nestedState fun _ => 1) ∧
    ((startOf (nestedState fun _ => 1) () nestedPath).bind fun i =>
      follow nested nestedDisk i (elements nestedPath)) = some 51 ∧
    (namei nested () nestedPath).run (nestedState fun _ => 1) = .panic .igetNoInodes := by
  refine ⟨nested_formed _, by decide +kernel, ?_⟩
  obtain ⟨stopped, -⟩ | ⟨u, found, ran, after⟩ :=
    run_namex (nested_formed fun _ => 1) (p := ()) (c := 0) rfl (by decide) false nestedPath
  · exact Prog.run_panic stopped
  · -- the file is not in the table, and no entry takes another inode
    have leads : (startOf (nestedState fun _ => 1) () nestedPath).bind (fun i =>
        target nested nestedDisk false i (elements nestedPath)) = some (51, []) := by decide +kernel
    match found, after with
    | none, ⟨_, absent⟩ => exact absurd (leads.symm.trans absent) (by simp)
    | some (e, name), ⟨holds, present⟩ =>
      have inum := (Prod.mk.inj (Option.some.inj (present.symm.trans leads))).1
      rw [holds.inums e Nat.one_pos] at inum
      have := e.isLt
      unfold NINODE at this
      change e.val + 1 = 51 at inum
      omega

end Xv6.Fs
