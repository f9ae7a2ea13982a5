import Xv6.Fs.Reach

/-!
# The file system between calls

During a call blocks are on their way to an inode, and counts run ahead of the references
that can be seen. Between calls nothing is left of that.
-/

namespace Xv6.Fs

open Prog Local

variable {Pid : Type} [DecidableEq Pid] [Fintype Pid] {sb : Super} {disk : Nat → Block} {i : Nat}
  {N : Nat → Node} {own : Nat → Owner Pid} {gs : Pid → Local Pid}

/-! ## Nodes that are on the disk -/

section OnDisk

variable {loose : Pid → Nat → Option Block} (blocks : Blocks sb disk loose N own)
include blocks

section Node

variable (good : (N i).Good sb) (fields : dinodeAt sb disk i = (N i).d)
include good fields

theorem byte_nodeAt {off : Nat} (inside : off < (N i).size) :
    (nodeAt sb disk i).byte off = (N i).byte off := by
  obtain ⟨-, used⟩ := good.readable.block inside
  show (disk ((nodeAt sb disk i).slots _)).get _ = _
  rw [slots_nodeAt blocks good.stable fields, blocks.content i _ used]
  rfl

theorem bytes_nodeAt {off len : Nat} (inside : off + len ≤ (N i).size) :
    (nodeAt sb disk i).bytes off len = (N i).bytes off len :=
  Node.bytes_congr fun _ less => byte_nodeAt blocks good fields (by omega)

theorem good_nodeAt : (nodeAt sb disk i).Good sb := by
  have size : (nodeAt sb disk i).size = (N i).size :=
    congrArg (fun d : Dinode => d.size.toNat) fields
  have readable : (nodeAt sb disk i).Readable := by
    refine ⟨nodeAt_stable sb disk i, fun bn below => ?_, size ▸ good.size_le⟩
    rw [slots_nodeAt blocks good.stable fields]
    exact good.covered bn (size ▸ below)
  refine ⟨readable.stable, readable.covered, readable.size_le, fun free pos => ?_, fun isDir => ?_⟩
  · rw [slots_nodeAt blocks good.stable fields]
    exact good.empty (fields ▸ free) pos
  · have same : Unslotted (N i) (nodeAt sb disk i) :=
      ⟨fields.trans (by rw [← fields]; rfl), size, readable,
        fun _ inside => byte_nodeAt blocks good fields inside⟩
    exact same.isDir (good.dir (fields ▸ isDir))

end Node

/-- **When every node is on the disk and no block is on its way to one, the image is
consistent.** -/
theorem consistent_of_blocks
    (nodes : ∀ i < sb.ninodes, dinodeAt sb disk i = (N i).d ∧ (N i).Good sb)
    (settled : ∀ p b, loose p b = none) : Consistent sb disk := by
  have good : ∀ i < sb.ninodes, (nodeAt sb disk i).Good sb := fun i bound =>
    good_nodeAt blocks (nodes i bound).2 (nodes i bound).1
  have slots : ∀ i < sb.ninodes, ∀ pos, (nodeAt sb disk i).slots pos = (N i).slots pos :=
    fun i bound => slots_nodeAt blocks (nodes i bound).2.stable (nodes i bound).1
  refine ⟨fun i bound => ⟨(good i bound).size_le, (good i bound).covered⟩,
    fun i bound => (good i bound).empty, fun i bound => (good i bound).dir, ?_, ?_, ?_⟩
  · intro i bound pos used
    rw [slots i bound] at used ⊢
    exact blocks.data_of_node (blocks.owner used)
  · intro i bound j bound' pos pos' used same
    rw [slots i bound] at used same
    rw [slots j bound'] at same
    have owner := blocks.owner used
    rw [same, blocks.owner (same ▸ used)] at owner
    cases owner
    exact ⟨rfl, rfl⟩
  · intro b small
    rw [← Bool.not_eq_false, blocks.free b small]
    constructor
    · intro taken
      cases owner : own b with
      | reserved => exact .inl ((blocks.reserved b).mp owner)
      | free => exact absurd owner taken
      | node i pos =>
        obtain ⟨here, nonzero⟩ := (blocks.node b i pos).mp owner
        have bound := blocks.bound i pos (here ▸ nonzero)
        exact .inr ⟨i, bound, pos, (slots i bound pos).trans here⟩
      -- no block is in anybody's hands
      | loose p => exact absurd (settled p b) ((blocks.carried b p).mp owner)
    · rintro (reserved | ⟨i, bound, pos, here⟩) free
      · exact reserved (blocks.data_of_free free)
      · have data := blocks.data_of_free free
        rw [slots i bound] at here
        have owner := (blocks.node b i pos).mpr ⟨here, data.pos⟩
        rw [free] at owner
        cases owner

end OnDisk

/-! ## Runs -/

section Runs

variable {p : Pid} {root : Fin NINODE} {s₀ : State Pid} (boot : Boot sb p root s₀)
  {labels : List (Machine.Label Pid (Call Pid))} {s : KernelState Pid}
  (run : UndisturbedRun sb s₀ labels s)
include boot run

theorem core_at_any_time : ∃ gs N own, Core sb s.shared gs N own := by
  obtain ⟨gs, sound⟩ := sound_of_undisturbed boot run
  obtain ⟨N, own, core, -⟩ := sound.inv
  exact ⟨gs, N, own, core⟩

/-- **Whenever no call is in progress the image is consistent again**, whatever calls
have run, one after the other or mixed, and wherever they have failed. -/
theorem image_between_calls (calm : ∀ q, s.thread q = none) : Consistent sb s.shared.disk := by
  obtain ⟨N, own, core⟩ := core_between_calls boot run calm
  exact consistent_of_blocks core.blocks
    (fun i bound => core.pool i bound fun ⟨_, _, _, viewed, _⟩ => nomatch viewed) fun _ _ => rfl

/-- **Whenever no call is in progress the counts are exact**: an inode is referred to by
current directories and open files, and an open file by descriptors. No inode is locked
or being built, and no transaction is open. -/
theorem counts_between_calls (calm : ∀ q, s.thread q = none) :
    (∀ e, ((s.shared.itable e).ref : Int) =
      ∑ q, cwdRef (s.shared.procs q) e + ∑ f, fileRef (s.shared.ftable f) e) ∧
    (∀ f, ((s.shared.ftable f).ref : Int) = ∑ q, slotRef (s.shared.procs q) f) ∧
    (∀ q fd f, (s.shared.procs q).ofile fd = some f → (s.shared.ftable f).type ≠ .none) ∧
    (∀ e, (s.shared.itable e).lock = none) ∧ (∀ i, s.shared.building i = none) ∧
    s.shared.outstanding = 0 := by
  obtain ⟨N, own, core⟩ := core_between_calls boot run calm
  refine ⟨fun e => ?_, fun f => ?_, fun q => core.files.opened q rfl, fun e => ?_, fun i => ?_, ?_⟩
  · simpa only [share, idle, add_zero] using core.refs.count e
  · simpa only [slotShare, idle, add_zero] using core.files.count f
  · by_contra locked
    obtain ⟨q, holder⟩ := Option.ne_none_iff_exists'.mp locked
    exact (core.table.locked q e).mp holder rfl
  · by_contra building
    obtain ⟨q, maker⟩ := Option.ne_none_iff_exists'.mp building
    cases (core.shape.maker i q).mp maker
  · simpa [idle] using core.trans

/-- **An inode that nobody has locked is whole at any time**, also in the middle of
calls: its blocks are data blocks that are marked in the free map, each at one place,
and of no other such inode. -/
theorem unlocked_inodes (bound : i < sb.ninodes) (unlocked : s.shared.Unlocked i) :
    (nodeAt sb s.shared.disk i).Good sb ∧
    ∀ pos, (nodeAt sb s.shared.disk i).slots pos ≠ 0 →
      sb.Data ((nodeAt sb s.shared.disk i).slots pos) ∧
      used sb s.shared.disk ((nodeAt sb s.shared.disk i).slots pos) = true ∧
      ∀ j < sb.ninodes, s.shared.Unlocked j → ∀ pos', (nodeAt sb s.shared.disk i).slots pos =
        (nodeAt sb s.shared.disk j).slots pos' → i = j ∧ pos = pos' := by
  obtain ⟨gs, N, own, core⟩ := core_at_any_time boot run
  have pool : ∀ j < sb.ninodes, s.shared.Unlocked j → _ := fun j bound unlocked =>
    core.pool j bound (not_held_of_unlocked core unlocked)
  obtain ⟨fields, good⟩ := pool i bound unlocked
  refine ⟨good_nodeAt core.blocks good fields, fun pos there => ?_⟩
  rw [slots_nodeAt core.blocks good.stable fields] at there ⊢
  have owner := core.blocks.owner there
  have data := core.blocks.data_of_node owner
  refine ⟨data, ?_, fun j bound' unlocked' pos' same => ?_⟩
  · rw [← Bool.not_eq_false, core.blocks.free _ data.2, owner]
    nofun
  · obtain ⟨fields', good'⟩ := pool j bound' unlocked'
    rw [slots_nodeAt core.blocks good'.stable fields'] at same
    rw [same, core.blocks.owner (same ▸ there)] at owner
    cases owner
    exact ⟨rfl, rfl⟩

/-- **The tables agree with the disk at any time**, also in the middle of calls: an inode
has one entry in the table at most, and an entry that is read and not locked has the
fields on the disk, of an inode that is allocated. An open file is counted, its inode is
in the table, and while nobody has locked it, it is allocated, and no directory if the
file can be written. -/
theorem tables_at_any_time :
    (∀ e e', 0 < (s.shared.itable e).ref → 0 < (s.shared.itable e').ref →
      (s.shared.itable e).inum = (s.shared.itable e').inum → e = e') ∧
    (∀ e, 0 < (s.shared.itable e).ref → (s.shared.itable e).lock = none →
      (s.shared.itable e).valid = true → (s.shared.itable e).d.type ≠ 0 ∧
      (s.shared.itable e).d = dinodeAt sb s.shared.disk (s.shared.itable e).inum) ∧
    ∀ f, (s.shared.ftable f).type ≠ .none → 0 < (s.shared.ftable f).ref ∧
      0 < (s.shared.itable (s.shared.ftable f).ip).ref ∧
      ((s.shared.itable (s.shared.ftable f).ip).lock = none →
        let d := dinodeAt sb s.shared.disk (s.shared.itable (s.shared.ftable f).ip).inum
        d.type ≠ 0 ∧ ((s.shared.ftable f).writable = true → d.type ≠ T_DIR)) := by
  obtain ⟨gs, N, own, core⟩ := core_at_any_time boot run
  have fields : ∀ e, 0 < (s.shared.itable e).ref → (s.shared.itable e).lock = none →
      dinodeAt sb s.shared.disk (s.shared.itable e).inum = (N (s.shared.itable e).inum).d :=
    fun e counted unlocked => (core.pool _ (core.table.entry e counted).2.2
      (core.not_held counted unlocked)).1
  refine ⟨core.table.unique, fun e counted unlocked valid => ?_, fun f opened => ?_⟩
  · obtain ⟨same, allocated⟩ := core.table.rest e counted unlocked valid
    exact ⟨allocated, same.trans (fields e counted unlocked).symm⟩
  · have counted := core.refs.ref_pos_of_file (if_pos ⟨opened, rfl⟩)
    refine ⟨Nat.pos_of_ne_zero fun closed => opened (core.files.closed f closed), counted,
      fun unlocked => ?_⟩
    rw [fields _ counted unlocked]
    exact core.files.kind f opened

/-- **The calls panic in five ways only**: the table of inodes is full, or a call has come to an
inode or to an entry that another call has changed. -/
theorem reachable_panics : s.panicked ∈ [none, some Panic.igetNoInodes, some .ilockNoType,
    some .dirlookupNotDir, some .unlinkNlink, some .unlinkWritei] := by
  obtain ⟨gs, sound⟩ := sound_of_undisturbed boot run
  cases panicked : s.panicked with
  | none => exact List.mem_cons_self
  | some why =>
    rcases sound.calm why panicked with rfl | rfl | rfl | rfl | rfl <;> decide

end Runs

/-! The session of `Xv6.Fs.Reach`: at the `fork`, in the middle of an `unlink`, and at its end. -/

theorem undisturbed_reached (labels : Session)
    (ran : (labels.foldlM nextAlone (Machine.initial smallState)).isSome = true) :
    UndisturbedRun small smallState labels (reached labels) :=
  undisturbed_of_sequence small_boot (run_reached labels ran)

theorem image_between_calls_session :
    (dinodeAt small (reached session).shared.disk ROOTINO).size = 16 ∧
      (dinodeAt small (reached session).shared.disk 2).type = T_DIR ∧
      Consistent small (reached session).shared.disk :=
  ⟨by decide +kernel, by decide +kernel,
    image_between_calls small_boot (undisturbed_reached session (by decide +kernel)) fun q =>
      Option.isNone_iff_eq_none.mp (by revert q; decide +kernel)⟩

/-- The root is the current directory of two processes, the inode is in an open file, and the
file is at three descriptors. -/
theorem counts_between_calls_forked :
    (2 : Int) = ∑ q, cwdRef ((reached forked).shared.procs q) 0 +
      ∑ f, fileRef ((reached forked).shared.ftable f) 0 ∧
    (1 : Int) = ∑ q, cwdRef ((reached forked).shared.procs q) 1 +
      ∑ f, fileRef ((reached forked).shared.ftable f) 1 ∧
    (3 : Int) = ∑ q, slotRef ((reached forked).shared.procs q) 0 ∧
    ((reached forked).shared.ftable 0).type ≠ .none := by
  obtain ⟨inodes, files, opened, -⟩ := counts_between_calls small_boot
    (undisturbed_reached forked (by decide +kernel)) fun q =>
      Option.isNone_iff_eq_none.mp (by revert q; decide +kernel)
  have counts : ((reached forked).shared.itable 0).ref = 2 ∧
      ((reached forked).shared.itable 1).ref = 1 ∧ ((reached forked).shared.ftable 0).ref = 3 ∧
      ((reached forked).shared.procs 1).ofile 0 = some 0 := by decide +kernel
  obtain ⟨root, file, slots, fd⟩ := counts
  refine ⟨?_, ?_, ?_, opened 1 0 0 fd⟩
  · rw [← inodes, root]
    rfl
  · rw [← inodes, file]
    rfl
  · rw [← files, slots]
    rfl

/-- The root is locked, and the file with two blocks is not. -/
def unlinking : Session := forked ++ begins 0 (.sysUnlink (some [slash, 97])) 12

theorem unlocked_inodes_unlinking :
    ((reached unlinking).shared.itable 0).lock = some 0 ∧
      (nodeAt small (reached unlinking).shared.disk 2).slots 1 = 5 ∧ small.Data 5 ∧
      used small (reached unlinking).shared.disk 5 = true := by
  have here : ((reached unlinking).shared.itable 0).lock = some 0 ∧
      (nodeAt small (reached unlinking).shared.disk 2).slots 1 = 5 ∧
      ∀ e, ((reached unlinking).shared.itable e).inum = 2 →
        ((reached unlinking).shared.itable e).lock = none := by decide +kernel
  obtain ⟨-, slots⟩ := unlocked_inodes small_boot
    (undisturbed_reached unlinking (by decide +kernel)) (show 2 < 4 by decide) here.2.2
  obtain ⟨data, used, -⟩ := slots 1 (by rw [here.2.1]; decide)
  rw [here.2.1] at data used
  exact ⟨here.1, here.2.1, data, used⟩

theorem tables_at_any_time_unlinking :
    ((reached unlinking).thread 0).isSome = true ∧
      (∀ e, 0 < ((reached unlinking).shared.itable e).ref →
        ((reached unlinking).shared.itable e).inum = 2 → e = 1) ∧
      ((reached unlinking).shared.itable 1).d = dinodeAt small (reached unlinking).shared.disk 2 ∧
      (dinodeAt small (reached unlinking).shared.disk 2).type ≠ T_DIR := by
  obtain ⟨once, agree, files⟩ := tables_at_any_time small_boot
    (undisturbed_reached unlinking (by decide +kernel))
  have here : 0 < ((reached unlinking).shared.itable 1).ref ∧
      ((reached unlinking).shared.itable 1).lock = none ∧
      ((reached unlinking).shared.itable 1).valid = true ∧
      ((reached unlinking).shared.itable 1).inum = 2 ∧
      ((reached unlinking).shared.ftable 0).type ≠ .none ∧
      ((reached unlinking).shared.ftable 0).ip = 1 ∧
      ((reached unlinking).shared.ftable 0).writable = true := by decide +kernel
  obtain ⟨counted, unlocked, valid, inum, used, ip, writable⟩ := here
  have fields := (agree 1 counted unlocked valid).2
  obtain ⟨-, -, kind⟩ := files 0 used
  rw [ip, inum] at kind
  rw [inum] at fields
  exact ⟨by decide +kernel, fun e positive same => once e 1 positive counted (same.trans inum.symm),
    fields, (kind unlocked).2 writable⟩

theorem reachable_panics_session :
    (dinodeAt small (reached session).shared.disk 2).type = T_DIR ∧
    (reached session).panicked ∈ [none, some .igetNoInodes, some .ilockNoType,
      some .dirlookupNotDir, some .unlinkNlink, some .unlinkWritei] :=
  ⟨by decide +kernel, reachable_panics small_boot (undisturbed_reached session (by decide +kernel))⟩

end Xv6.Fs
