import Xv6.Fs.NameCalls

/-!
# The states that the kernel reaches

The kernel starts with a consistent image: every block number of an inode is of a
data block, occurs once and is marked in the free map, and no file has a hole. The
first process is in the root directory.

The invariant holds along the runs in which nobody gets hold of an inode that another
process is building, and so along all runs in which one call follows the other.
-/

namespace Xv6.Fs

open Prog

open Local

variable {Pid : Type} {sb : Super} {disk : Nat → Block} {i : Nat}
  {N : Nat → Node} {own : Nat → Owner Pid} {gs : Pid → Local Pid} {k : Nat}
  {labels : List (Machine.Label Pid (Call Pid))} {label : Machine.Label Pid (Call Pid)}

/-! ## Inodes as the disk has them -/

/-- The block number at a position of an inode: those among its fields, then those
in its indirect block. -/
def addrAt (disk : Nat → Block) (d : Dinode) (pos : Nat) : Nat :=
  if first : pos < NDIRECT + 1 then (d.addrs ⟨pos, first⟩).toNat
  else if pos - (NDIRECT + 1) < NINDIRECT ∧ d.addrs INDIRECT ≠ 0 then
    entryOf (disk (d.addrs INDIRECT).toNat) (pos - (NDIRECT + 1))
  else 0

/-- An inode with its blocks, as the disk has them. -/
def nodeAt (sb : Super) (disk : Nat → Block) (i : Nat) : Node where
  d := dinodeAt sb disk i
  slots := addrAt disk (dinodeAt sb disk i)
  data := fun pos => disk (addrAt disk (dinodeAt sb disk i) pos)

theorem addrAt_direct (disk : Nat → Block) (d : Dinode) (i : Fin (NDIRECT + 1)) :
    addrAt disk d i = (d.addrs i).toNat := dif_pos i.2

theorem addrAt_entry (d : Dinode) (bound : k < NINDIRECT) : addrAt disk d (NDIRECT + 1 + k) =
      if d.addrs INDIRECT = 0 then 0 else entryOf (disk (d.addrs INDIRECT).toNat) k := by
  unfold addrAt
  rw [dif_neg (by omega), Nat.add_sub_cancel_left]
  by_cases zero : d.addrs INDIRECT = 0
  · rw [if_pos zero, if_neg fun both => both.2 zero]
  · rw [if_neg zero, if_pos ⟨bound, zero⟩]

theorem addrAt_past (d : Dinode) {pos : Nat} (past : NDIRECT + 1 + NINDIRECT ≤ pos) :
    addrAt disk d pos = 0 := by
  unfold addrAt
  rw [dif_neg (by omega), if_neg fun both => absurd both.1 (by omega)]

theorem toNat_eq_zero {x : UInt32} : x.toNat = 0 ↔ x = 0 :=
  ⟨fun zero => UInt32.toNat_inj.mp zero, fun zero => zero ▸ rfl⟩

theorem nodeAt_stable (sb : Super) (disk : Nat → Block) (i : Nat) : (nodeAt sb disk i).Stable := by
  refine ⟨addrAt_direct _ _, fun k bound => ?_, fun pos past => addrAt_past _ past⟩
  have indirect := addrAt_direct disk (dinodeAt sb disk i) INDIRECT
  show addrAt disk _ (NDIRECT + 1 + k) = if addrAt disk _ NDIRECT = 0 then 0 else
    entryOf (disk (addrAt disk _ NDIRECT)) k
  rw [addrAt_entry _ bound, show addrAt disk (dinodeAt sb disk i) NDIRECT = _ from indirect]
  simp only [toNat_eq_zero]

theorem addrAt_eq_slots {n : Node} (stable : n.Stable)
    (indirect : n.slots NDIRECT ≠ 0 → disk (n.slots NDIRECT) = n.data NDIRECT) (pos : Nat) :
    addrAt disk n.d pos = n.slots pos := by
  by_cases first : pos < NDIRECT + 1
  · exact (addrAt_direct _ _ ⟨pos, first⟩).trans (stable.addrs ⟨pos, first⟩).symm
  · by_cases inside : pos < NDIRECT + 1 + NINDIRECT
    · obtain ⟨k, rfl⟩ := Nat.exists_eq_add_of_le (Nat.le_of_not_lt first)
      have bound : k < NINDIRECT := by omega
      have slot : n.slots NDIRECT = (n.d.addrs INDIRECT).toNat := stable.addrs INDIRECT
      rw [addrAt_entry _ bound, stable.entries k bound]
      by_cases zero : n.d.addrs INDIRECT = 0
      · rw [if_pos zero, if_pos (slot.trans (toNat_eq_zero.mpr zero))]
      · have used : n.slots NDIRECT ≠ 0 :=
          fun none => zero (toNat_eq_zero.mp (slot.symm.trans none))
        rw [if_neg zero, if_neg used, ← slot, indirect used]
    · rw [addrAt_past _ (by omega), stable.past pos (by omega)]

theorem slots_nodeAt {loose : Pid → Nat → Option Block}
    (blocks : Blocks sb disk loose N own) (stable : (N i).Stable)
    (fields : dinodeAt sb disk i = (N i).d) (pos : Nat) :
    (nodeAt sb disk i).slots pos = (N i).slots pos := by
  show addrAt disk (dinodeAt sb disk i) pos = _
  rw [fields]
  exact addrAt_eq_slots stable (blocks.content i NDIRECT) pos

/-- An inode without holes: its size is one that a file can have, and every block
below the size has a number. -/
structure HoleFree (sb : Super) (disk : Nat → Block) (i : Nat) : Prop where
  size_le : (nodeAt sb disk i).size ≤ MAXFILE * BSIZE
  covered : ∀ bn, bn * BSIZE < (nodeAt sb disk i).size → (nodeAt sb disk i).slots (posOf bn) ≠ 0

/-- An image on which the kernel can start. -/
structure Consistent (sb : Super) (disk : Nat → Block) : Prop where
  holeFree : ∀ i < sb.ninodes, HoleFree sb disk i
  empty : ∀ i < sb.ninodes, (dinodeAt sb disk i).type = 0 → ∀ pos, (nodeAt sb disk i).slots pos = 0
  dir : ∀ i < sb.ninodes, (dinodeAt sb disk i).type = T_DIR → (nodeAt sb disk i).IsDir sb
  data : ∀ i < sb.ninodes, ∀ pos, (nodeAt sb disk i).slots pos ≠ 0 →
    sb.Data ((nodeAt sb disk i).slots pos)
  once : ∀ i < sb.ninodes, ∀ j < sb.ninodes, ∀ pos pos', (nodeAt sb disk i).slots pos ≠ 0 →
    (nodeAt sb disk i).slots pos = (nodeAt sb disk j).slots pos' → i = j ∧ pos = pos'
  map : ∀ b < sb.size, used sb disk b = true ↔
    ¬ sb.Data b ∨ ∃ i < sb.ninodes, ∃ pos, (nodeAt sb disk i).slots pos = b

namespace Consistent

variable (consistent : Consistent sb disk)
include consistent

theorem good (bound : i < sb.ninodes) : (nodeAt sb disk i).Good sb :=
  ⟨nodeAt_stable sb disk i, (consistent.holeFree i bound).covered,
    (consistent.holeFree i bound).size_le, consistent.empty i bound, consistent.dir i bound⟩

open Classical in
theorem exists_blocks : ∃ (N : Nat → Node) (own : Nat → Owner Pid),
    Blocks sb disk (fun _ _ => none) N own ∧ ∀ i < sb.ninodes, N i = nodeAt sb disk i := by
  let N : Nat → Node := fun i => if i < sb.ninodes then nodeAt sb disk i else
    ⟨Dinode.zero, fun _ => 0, fun _ => Bytes.zero BSIZE⟩
  have inside : ∀ i < sb.ninodes, N i = nodeAt sb disk i := fun i bound => if_pos bound
  have bound : ∀ i pos, (N i).slots pos ≠ 0 → i < sb.ninodes := by
    intro i pos used
    by_contra past
    exact used (by simp only [N, if_neg past])
  have once : ∀ i pos j pos', (N i).slots pos ≠ 0 → (N i).slots pos = (N j).slots pos' →
      i = j ∧ pos = pos' := by
    intro i pos j pos' used same
    have first := bound i pos used
    have second := bound j pos' (same ▸ used)
    rw [inside i first] at used same
    rw [inside j second] at same
    exact consistent.once i first j second pos pos' used same
  let own : Nat → Owner Pid := fun b =>
    if ¬ sb.Data b then .reserved
    else if there : ∃ place : Nat × Nat, (N place.1).slots place.2 = b then
      .node there.choose.1 there.choose.2
    else .free
  have owner : ∀ i pos, (N i).slots pos ≠ 0 → own ((N i).slots pos) = .node i pos := by
    intro i pos used
    have small := bound i pos used
    have data : sb.Data ((N i).slots pos) := by
      rw [inside i small] at used ⊢
      exact consistent.data i small pos used
    have there : ∃ place : Nat × Nat, (N place.1).slots place.2 = (N i).slots pos := ⟨(i, pos), rfl⟩
    simp only [own, if_neg (not_not.mpr data), dif_pos there]
    obtain ⟨first, second⟩ := once i pos _ _ used there.choose_spec.symm
    rw [← first, ← second]
  refine ⟨N, own, ⟨?_, ?_, ?_, ?_, nofun, ?_, bound⟩, inside⟩
  · intro b
    simp only [own]
    split
    next reserved => simp [reserved]
    next data =>
      simp only [not_not] at data
      split <;> simp [data]
  · intro b small
    have map := consistent.map b small
    simp only [own]
    split
    next reserved => simp [map.mpr (.inl reserved)]
    next data =>
      simp only [not_not] at data
      split
      next there =>
        obtain ⟨⟨i, pos⟩, here⟩ := there
        have nonzero : (N i).slots pos ≠ 0 := by
          rw [here]
          exact data.pos
        have small' := bound i pos nonzero
        rw [inside i small'] at here
        simp [map.mpr (.inr ⟨i, small', pos, here⟩)]
      next absent =>
        simp only [iff_true, ← Bool.not_eq_true, map]
        rintro (reserved | ⟨i, small', pos, here⟩)
        · exact reserved data
        · exact absent ⟨(i, pos), by rw [inside i small']; exact here⟩
  · intro b i pos
    constructor
    · intro owned
      simp only [own] at owned
      split at owned
      next => cases owned
      next data =>
        simp only [not_not] at data
        split at owned
        next there =>
          cases owned
          exact ⟨there.choose_spec, data.pos⟩
        next => cases owned
    · rintro ⟨rfl, nonzero⟩
      exact owner i pos nonzero
  · intro b p
    simp only [own]
    split
    · simp
    · split <;> simp
  · intro i pos nonzero
    have small := bound i pos nonzero
    rw [inside i small]
    rfl

end Consistent

/-! ## The first state -/

variable [DecidableEq Pid] [Fintype Pid]

/-- The kernel starts with a consistent image and one process, which is in the root directory and
has no open files. -/
structure Boot (sb : Super) (p : Pid) (root : Fin NINODE) (s : State Pid) : Prop where
  image : Consistent sb s.disk
  entry : (s.itable root).dev = ROOTDEV ∧ (s.itable root).inum = ROOTINO ∧
    (s.itable root).ref = 1 ∧ (s.itable root).valid = false
  others : ∀ e, e ≠ root → (s.itable e).ref = 0
  unlocked : ∀ e, (s.itable e).lock = none
  files : ∀ i, (s.ftable i).ref = 0 ∧ (s.ftable i).type = .none
  first : s.procs p = ⟨.runnable, some root, fun _ => none⟩
  unused : ∀ q, q ≠ p → s.procs q = ⟨.unused, none, fun _ => none⟩
  building : ∀ i, s.building i = none
  outstanding : s.outstanding = 0

namespace Boot

variable {p : Pid} {root : Fin NINODE} {s : State Pid} (boot : Boot sb p root s)
include boot

theorem slotRef_eq_zero (q : Pid) (i : Fin NFILE) : slotRef (s.procs q) i = 0 := by
  have none : ∀ fd, (s.procs q).ofile fd = none := by
    intro fd
    by_cases here : q = p
    · rw [here, boot.first]
    · rw [boot.unused q here]
  unfold slotRef
  simp [none]

theorem fileRef_eq_zero (i : Fin NFILE) (e : Fin NINODE) : fileRef (s.ftable i) e = 0 :=
  fileRef_of_none (boot.files i).2 e

theorem cwdRef_eq (q : Pid) (e : Fin NINODE) :
    cwdRef (s.procs q) e = if q = p ∧ e = root then 1 else 0 := by
  unfold cwdRef
  by_cases here : q = p
  · rw [here, boot.first]
    simp [eq_comm]
  · rw [boot.unused q here]
    simp [here]

theorem ref_eq (e : Fin NINODE) : (s.itable e).ref = if e = root then 1 else 0 := by
  split
  next here => rw [here, boot.entry.2.2.1]
  next other => exact boot.others e other

theorem eq_root {e : Fin NINODE} (used : 0 < (s.itable e).ref) : e = root := by
  by_contra other
  rw [boot.others e other] at used
  exact absurd used (Nat.lt_irrefl 0)

/-- **The invariant holds at the beginning**, with nothing in the hands of anybody. -/
theorem core : ∃ (N : Nat → Node) (own : Nat → Owner Pid),
    Core sb s (fun _ => idle) N own := by
  obtain ⟨N, own, blocks, inside⟩ : ∃ (N : Nat → Node) (own : Nat → Owner Pid),
      Blocks sb s.disk (fun _ _ => none) N own ∧ ∀ i < sb.ninodes, N i = nodeAt sb s.disk i :=
    boot.image.exists_blocks
  refine ⟨N, own, ?_⟩
  constructor
  case blocks => exact blocks
  case pool =>
    intro i bound _
    rw [inside i bound]
    exact ⟨rfl, boot.image.good bound⟩
  case table =>
    refine ⟨?_, by rintro _ _ _ ⟨⟩, ?_, ?_, ?_⟩
    · intro q e
      rw [boot.unlocked e]
      simp [idle]
    · intro e used
      rw [boot.eq_root used, boot.entry.1, boot.entry.2.1]
      exact ⟨rfl, by decide, sb.root_fits⟩
    · intro e e' used used' _
      rw [boot.eq_root used, boot.eq_root used']
    · intro e used _ valid
      rw [boot.eq_root used, boot.entry.2.2.2] at valid
      cases valid
  case refs =>
    refine ⟨?_, ?_, ?_, by intros; contradiction, by intros; contradiction⟩
    · intro e
      simp only [share, idle, add_zero, boot.cwdRef_eq, boot.fileRef_eq_zero,
        Finset.sum_const_zero, boot.ref_eq]
      by_cases here : e = root
      · rw [Finset.sum_eq_single p (fun q _ other => if_neg fun both => other both.1)
          (fun absent => absurd (Finset.mem_univ p) absent)]
        simp [here]
      · simp [here]
    · intro q e
      simp only [share, idle, add_zero, boot.cwdRef_eq]
      split <;> omega
    · intro q e viewed
      exact absurd rfl viewed
  case files =>
    refine ⟨?_, ?_, fun i _ => (boot.files i).2, by intros; contradiction, ?_, ?_, ?_, ?_⟩
    · intro i
      simp [slotShare, idle, boot.slotRef_eq_zero, (boot.files i).1]
    · intro q i
      simp [slotShare, idle, boot.slotRef_eq_zero]
    · intro i opened
      exact absurd (boot.files i).2 opened
    · intro i _ q q' some
      simp [slotShare, idle, boot.slotRef_eq_zero] at some
    · intro q _ fd i there
      by_cases here : q = p
      · rw [here, boot.first] at there
        cases there
      · rw [boot.unused q here] at there
        cases there
    · intro q _ i
      simp [slotShare, idle]
  case procs =>
    refine ⟨by intros; contradiction, by intros; contradiction, by intros; contradiction, ?_, ?_⟩
    · intro q unused
      by_cases here : q = p
      · rw [here, boot.first] at unused
        cases unused
      · rw [boot.unused q here]
        exact ⟨rfl, fun _ => rfl⟩
    · intro q _ runs
      by_cases here : q = p
      · rw [here, boot.first]
        simp
      · rw [boot.unused q here] at runs
        cases runs
  case shape =>
    refine ⟨?_, ?_, by rintro _ _ _ ⟨⟩, by rintro _ _ _ ⟨⟩⟩
    · intro i q
      simp [boot.building i, idle]
    · intro i _ some
      exact absurd (boot.building i) some
  case carried =>
    intro q b some
    exact absurd rfl some
  case active =>
    intro q e some
    exact absurd rfl some
  case trans =>
    rw [boot.outstanding]
    simp [idle]

end Boot

/-! ## Runs -/

/-- What the proofs about runs allow: a full inode table, and the panics because of what another
process has done. -/
def tolerant : Setting Pid where
  allowed := fun _ why => why = .igetNoInodes ∨ why = .ilockNoType ∨ why = .dirlookupNotDir ∨
    why = .unlinkNlink ∨ why = .unlinkWritei
  waits := fun _ => True
  assumed := Keeps
  keeps := fun _ _ _ kept => kept

theorem tolerant_lenient : Lenient (tolerant : Setting Pid) where
  waits := trivial
  noInodes := fun _ => .inl rfl
  noType := .inr (.inl rfl)
  notDir := .inr (.inr (.inl rfl))
  nlink := .inr (.inr (.inr (.inl rfl)))
  writei := .inr (.inr (.inr (.inr rfl)))

abbrev KernelState (Pid : Type) := Machine.State (State Pid) Panic Pid (Result Pid)

/-- A call starts only when no other call is going on. -/
def OneAtATime (s : KernelState Pid) (label : Machine.Label Pid (Call Pid)) : Prop :=
  ∀ p call, label = .start p call → ∀ q, s.thread q = none

/-- A step does not get hold of an inode that another process is building. -/
def Undisturbed (s : KernelState Pid) (label : Machine.Label Pid (Call Pid))
    (t : KernelState Pid) : Prop :=
  ∀ p, label = .step p → Keeps p s.shared t.shared

/-- The runs from `s₀` that are not disturbed. -/
abbrev UndisturbedRun (sb : Super) (s₀ : State Pid) :
    List (Machine.Label Pid (Call Pid)) → KernelState Pid → Prop :=
  Run (fun s label t => (kernel sb).Step s label t ∧ Undisturbed s label t) (Machine.initial s₀)

/-- The runs from `s₀` in which one call follows the other. -/
abbrev Sequence (sb : Super) (s₀ : State Pid) :
    List (Machine.Label Pid (Call Pid)) → KernelState Pid → Prop :=
  Run (fun s label t => (kernel sb).Step s label t ∧ OneAtATime s label) (Machine.initial s₀)

def Alone (s : KernelState Pid) : Prop := ∀ p q, s.thread p ≠ none → s.thread q ≠ none → p = q

variable {s t : KernelState Pid}

theorem Alone.step (alone : Alone s)
    (one : (kernel sb).Step s label t) (calls : OneAtATime s label) : Alone t := by
  have update : ∀ (p : Pid) (prog : Option (Prog (State Pid) Panic (Result Pid))),
      (∀ q, q ≠ p → s.thread q ≠ none → prog ≠ none → False) →
      ∀ q q', Function.update s.thread p prog q ≠ none →
        Function.update s.thread p prog q' ≠ none → q = q' := by
    intro p prog apart q q' first second
    by_cases here : q = p <;> by_cases here' : q' = p
    · rw [here, here']
    · rw [Function.update_of_ne here'] at second
      rw [here, Function.update_self] at first
      exact (apart q' here' second first).elim
    · rw [Function.update_of_ne here] at first
      rw [here', Function.update_self] at second
      exact (apart q here first second).elim
    · rw [Function.update_of_ne here] at first
      rw [Function.update_of_ne here'] at second
      exact alone q q' first second
  cases one.effect with
  | @start p call calm free ready =>
    exact update p _ fun q _ busy _ => busy (calls p call rfl q)
  | @step p β step rest t value calm busy done =>
    exact update p _ fun q other busy' _ => other (alone q p busy' (by rw [busy]; nofun))
  | panic => exact alone
  | @finish p value calm done => exact update p _ fun _ _ _ some => some rfl

theorem Alone.undisturbed (alone : Alone s)
    (sound : (theory sb tolerant).Sound Local.idle s gs)
    (one : (kernel sb).Step s label t) : Undisturbed s label t := by
  rintro p rfl e -
  obtain ⟨N, own, core, -⟩ := sound.inv
  cases built : s.shared.building (s.shared.itable e).inum with
  | none => exact .inl rfl
  | some q =>
    refine .inr (congrArg some ?_)
    have making := (core.shape.maker _ q).mp built
    have busy : s.thread p ≠ none := by
      cases one.effect with
      | step _ busy _ => rw [busy]; nofun
      | panic _ busy _ => rw [busy]; nofun
    by_contra other
    have idle : s.thread q = none := by
      by_contra busy'
      exact other (alone q p busy' busy)
    rw [sound.resting q idle] at making
    cases making

section Runs

variable {p : Pid} {root : Fin NINODE} {s₀ : State Pid} (boot : Boot sb p root s₀)
include boot

/-- **The invariant holds along every run that is not disturbed.** -/
theorem sound_of_undisturbed (run : UndisturbedRun sb s₀ labels s) :
    ∃ gs, (theory sb tolerant).Sound idle s gs := by
  obtain ⟨N, own, core⟩ := boot.core
  exact Theory.sound (covers tolerant_lenient) ⟨N, own, core, nofun⟩ run

/-- **The invariant holds when one call follows the other.** -/
theorem sound_of_sequence (run : Sequence sb s₀ labels s) :
    Alone s ∧ ∃ gs, (theory sb tolerant).Sound idle s gs := by
  obtain ⟨N, own, core⟩ := boot.core
  refine run.invariant (fun s => Alone s ∧ ∃ gs,
    (theory sb tolerant).Sound idle s gs) ?_ ?_
  · rintro s label t ⟨alone, gs, sound⟩ ⟨one, calls⟩
    exact ⟨alone.step one calls,
      sound.step (covers tolerant_lenient) one (alone.undisturbed sound one)⟩
  · exact ⟨fun _ _ busy => absurd rfl busy, fun _ => idle, ⟨N, own, core, nofun⟩,
      fun _ _ => rfl, nofun, nofun⟩

theorem undisturbed_of_sequence (run : Sequence sb s₀ labels s) :
    UndisturbedRun sb s₀ labels s := by
  induction run with
  | refl => exact .refl
  | tail earlier one ih =>
    obtain ⟨alone, gs, sound⟩ := sound_of_sequence boot earlier
    exact ih.tail ⟨one.1, alone.undisturbed sound one.1⟩

/-- Between calls nobody has anything in hand. -/
theorem core_between_calls (run : UndisturbedRun sb s₀ labels s) (calm : ∀ q, s.thread q = none) :
    ∃ N own, Core sb s.shared (fun _ => idle) N own := by
  obtain ⟨gs, sound⟩ := sound_of_undisturbed boot run
  obtain ⟨N, own, core, -⟩ := sound.inv
  obtain rfl : gs = fun _ => idle := funext fun q => sound.resting q (calm q)
  exact ⟨N, own, core⟩

end Runs

/-! ## Reading -/

section Reading

variable {p : Pid} {e : Fin NINODE} {s : State Pid} {n : Nat}

theorem run_getInode : (getInode e).run s = .ok s (s.itable e) := rfl

theorem run_readBlock (b : Nat) : (readBlock b : Kernel Pid Block).run s = .ok s (s.disk b) := rfl

theorem run_bmapDirect {i : Fin (NDIRECT + 1)} (used : addrAt s.disk (s.itable e).d i ≠ 0) :
    (bmapDirect sb p e i).run s = .ok s (addrAt s.disk (s.itable e).d i) := by
  rw [addrAt_direct] at used ⊢
  have nonzero : (s.itable e).d.addrs i ≠ 0 := fun zero => used (toNat_eq_zero.mpr zero)
  refine (run_then run_getInode).trans ?_
  rw [if_neg nonzero]
  rfl

theorem run_bmapEntry {ind : Nat} (used : entryOf (s.disk ind) k ≠ 0) :
    (bmapEntry sb p ind k).run s = .ok s (entryOf (s.disk ind) k) := by
  refine (run_then (run_readBlock ind)).trans ?_
  rw [if_neg used]
  rfl

theorem run_bmap {bn : Nat} (bound : bn < MAXFILE)
    (used : addrAt s.disk (s.itable e).d (posOf bn) ≠ 0) :
    (bmap sb p e bn).run s = .ok s (addrAt s.disk (s.itable e).d (posOf bn)) := by
  unfold bmap
  split
  next first =>
    rw [Node.posOf_direct first] at used ⊢
    exact run_bmapDirect (i := ⟨bn, Nat.lt_succ_of_lt first⟩) used
  next past =>
    have inside : bn - NDIRECT < NINDIRECT := by
      unfold MAXFILE at bound
      omega
    rw [if_pos inside]
    rw [Node.posOf_indirect past, addrAt_entry _ inside] at used ⊢
    have nonzero : (s.itable e).d.addrs INDIRECT ≠ 0 := fun zero => used (if_pos zero)
    rw [if_neg nonzero] at used ⊢
    have indirect : addrAt s.disk (s.itable e).d INDIRECT =
        ((s.itable e).d.addrs INDIRECT).toNat := addrAt_direct ..
    have present : addrAt s.disk (s.itable e).d INDIRECT ≠ 0 := by
      rw [indirect]
      exact fun zero => nonzero (toNat_eq_zero.mp zero)
    refine (run_then (run_bmapDirect present)).trans ?_
    rw [if_neg present, indirect]
    exact run_bmapEntry used

theorem run_readiLoop {dst : Nat → Nat → Bool} {size : Nat}
    (covered : ∀ bn, bn * BSIZE < size → bn < MAXFILE ∧ addrAt s.disk (s.itable e).d (posOf bn) ≠ 0)
    (fuel off tot : Nat) (got : List UInt8) (inside : off + (n - tot) ≤ size) :
    ∃ r, (readiLoop sb p e dst n fuel off tot got).run s = .ok s r := by
  induction fuel generalizing off tot got with
  | zero => exact ⟨_, rfl⟩
  | succ fuel ih =>
    unfold readiLoop
    split
    next more =>
      have below : off / BSIZE * BSIZE < size := by
        have := Nat.div_mul_le_self off BSIZE
        omega
      obtain ⟨bound, used⟩ := covered _ below
      rw [run_then (run_bmap bound used), if_neg used, run_then (run_readBlock _)]
      simp only
      split
      next => exact ih _ _ _ (by omega)
      next => exact ⟨_, rfl⟩
    next => exact ⟨_, rfl⟩

/-- **`readi` changes nothing** where there are no holes: it finds every block that
it reads. -/
theorem run_readi (size_le : (s.itable e).d.size.toNat ≤ MAXFILE * BSIZE)
    (covered : ∀ bn, bn * BSIZE < (s.itable e).d.size.toNat →
      addrAt s.disk (s.itable e).d (posOf bn) ≠ 0)
    (dst : Nat → Nat → Bool) {off : Nat} (small : n < 2 ^ 32) :
    ∃ r, (readi sb p e dst off n).run s = .ok s r := by
  have inside : ∀ bn, bn * BSIZE < (s.itable e).d.size.toNat → bn < MAXFILE ∧
      addrAt s.disk (s.itable e).d (posOf bn) ≠ 0 := by
    intro bn below
    refine ⟨?_, covered bn below⟩
    unfold MAXFILE NDIRECT NINDIRECT BSIZE at *
    omega
  unfold readi
  rw [run_then run_getInode]
  simp only
  split
  next => exact ⟨_, rfl⟩
  next within =>
    have fits : ∀ n', n' = (if (s.itable e).d.size.toNat < (off + n) % 2 ^ 32 then
        (s.itable e).d.size.toNat - off else n) →
        off + (n' - 0) ≤ (s.itable e).d.size.toNat := by
      intro n' same
      split at same <;> omega
    obtain ⟨r, done⟩ : ∃ r, (readiLoop sb p e dst _ _ off 0 []).run s = .ok s r :=
      run_readiLoop inside _ off 0 [] (fits _ rfl)
    rw [run_then done]
    split
    · exact ⟨_, rfl⟩
    · exact ⟨_, rfl⟩

end Reading

/-- What the invariant says of an inode that nobody has locked. -/
theorem holeFree_of_core {s : State Pid} (core : Core sb s gs N own) (bound : i < sb.ninodes)
    (free : ¬ Held (fun q => (gs q).view) i) : HoleFree sb s.disk i := by
  obtain ⟨fields, good⟩ := core.pool i bound free
  have size : (nodeAt sb s.disk i).size = (N i).size :=
    congrArg (fun d : Dinode => d.size.toNat) fields
  refine ⟨?_, fun bn below => ?_⟩
  · rw [size]
    exact good.size_le
  · rw [slots_nodeAt core.blocks good.stable fields]
    rw [size] at below
    exact good.covered bn below

/-- No process has locked the inode. -/
def State.Unlocked (s : State Pid) (i : Nat) : Prop :=
  ∀ e, (s.itable e).inum = i → (s.itable e).lock = none

theorem not_held_of_unlocked {s : State Pid} (core : Core sb s gs N own) (unlocked : s.Unlocked i) :
    ¬ Held (fun q => (gs q).view) i := by
  rintro ⟨q, e, v, viewed, -, rfl⟩
  have lock := core.lock viewed
  rw [unlocked e (core.agrees viewed).inum] at lock
  cases lock

/-- **Files never have holes, so reads never allocate**, whatever calls follow each other from a
consistent image. -/
theorem files_without_holes {p : Pid} {root : Fin NINODE} {s₀ : State Pid}
    (boot : Boot sb p root s₀) (run : Sequence sb s₀ labels s) :
    (∀ i < sb.ninodes, s.shared.Unlocked i → HoleFree sb s.shared.disk i) ∧
    (∀ q, s.thread q = none → ∀ e, (s.shared.itable e).lock ≠ some q) ∧
    (∀ e, 0 < (s.shared.itable e).ref → (s.shared.itable e).lock = none →
      (s.shared.itable e).valid = true → ∀ q dst off n, n < 2 ^ 32 →
      ∃ r, (readi sb q e dst off n).run s.shared = .ok s.shared r) ∧
    ∀ why ∈ [Panic.bmapOutOfRange, .logWriteOutside, .dirlookupRead, .dirlinkRead,
      .isdiremptyReadi], s.panicked ≠ some why := by
  obtain ⟨-, gs, sound⟩ := sound_of_sequence boot run
  obtain ⟨N, own, core, -⟩ := sound.inv
  refine ⟨?_, ?_, ?_, ?_⟩
  · intro i bound unlocked
    exact holeFree_of_core core bound (not_held_of_unlocked core unlocked)
  · intro q idle e locked
    have viewed := (core.table.locked q e).mp locked
    simp only [sound.resting q idle] at viewed
    exact viewed rfl
  · intro e used unlocked valid q dst off n small
    obtain ⟨-, -, bound⟩ := core.table.entry e used
    have free := core.not_held used unlocked
    have holeFree := holeFree_of_core core bound free
    obtain ⟨fields, -⟩ := core.pool _ bound free
    have here : (s.shared.itable e).d = dinodeAt sb s.shared.disk (s.shared.itable e).inum :=
      (core.table.rest e used unlocked valid).1.trans fields.symm
    refine run_readi ?_ ?_ dst small
    · rw [here]
      exact holeFree.size_le
    · rw [here]
      exact holeFree.covered
  · intro why mem stopped
    have allowed := sound.calm why stopped
    revert mem allowed
    cases why <;> simp [theory, tolerant]

/-! A small image whose root is an empty directory, and a session of two processes on it. -/

abbrev Session := List (Machine.Label (Fin 2) (Call (Fin 2)))

def small : Super :=
  ⟨12, 4, 1, 2, by decide, by decide, by decide, by decide, by decide, by decide⟩

def smallDisk : Nat → Block :=
  Function.update (Function.update (fun _ => Bytes.zero BSIZE) 2
    (setBit (setBit (setBit (Bytes.zero BSIZE) 0) 1) 2)) 1
    (setDinode (Bytes.zero BSIZE) 1 { Dinode.zero with type := T_DIR, nlink := 1 })

def smallState : State (Fin 2) where
  disk := smallDisk
  itable := fun e => ⟨ROOTDEV, ROOTINO, if e = 0 then 1 else 0, none, false, Dinode.zero⟩
  ftable := fun _ => ⟨0, .none, false, false, 0, 0, 0⟩
  procs := fun q =>
    if q = 0 then ⟨.runnable, some 0, fun _ => none⟩ else ⟨.unused, none, fun _ => none⟩
  building := fun _ => none
  events := []
  outstanding := 0
  logged := fun _ => []

theorem addrAt_zero (disk : Nat → Block) (pos : Nat) : addrAt disk Dinode.zero pos = 0 := by
  unfold addrAt
  split
  · rfl
  · exact if_neg fun both => both.2 rfl

/-- An image without blocks of inodes: only the map has to be right. -/
theorem Consistent.of_blank {sb : Super} {disk : Nat → Block}
    (fields : ∀ i < sb.ninodes, (dinodeAt sb disk i).addrs = Dinode.zero.addrs ∧
      (dinodeAt sb disk i).size = 0)
    (map : ∀ b < sb.size, used sb disk b = true ↔ ¬ sb.Data b) : Consistent sb disk := by
  have slots : ∀ i < sb.ninodes, ∀ pos, (nodeAt sb disk i).slots pos = 0 := by
    intro i bound pos
    have zero := addrAt_zero disk pos
    show addrAt disk (dinodeAt sb disk i) pos = 0
    unfold addrAt at zero ⊢
    rwa [(fields i bound).1]
  have size : ∀ i < sb.ninodes, (nodeAt sb disk i).size = 0 := by
    intro i bound
    show (dinodeAt sb disk i).size.toNat = 0
    rw [(fields i bound).2]
    rfl
  refine ⟨fun i bound => ⟨?_, ?_⟩, fun i bound _ => slots i bound, ?_, ?_, ?_, ?_⟩
  · rw [size i bound]
    exact Nat.zero_le _
  · rw [size i bound]
    intro bn below
    exact absurd below (Nat.not_lt_zero _)
  · intro i bound _
    have none : ∀ k, ¬ k < (nodeAt sb disk i).count := by
      rw [Node.count, size i bound]
      exact fun k => Nat.not_lt_zero k
    exact ⟨by rw [size i bound]; rfl, fun k less => absurd less (none k),
      fun j less => absurd less (none j)⟩
  · intro i bound pos used
    exact absurd (slots i bound pos) used
  · intro i bound _ _ pos _ used
    exact absurd (slots i bound pos) used
  · intro b bound
    rw [map b bound]
    refine ⟨.inl, fun either => either.elim id ?_⟩
    rintro ⟨i, boundI, pos, rfl⟩ data
    rw [slots i boundI pos] at data
    exact absurd data.1 (Nat.not_le.mpr (Nat.succ_pos _))

theorem small_consistent : Consistent small smallDisk := by
  refine .of_blank ?_ ?_
  · have fields : ∀ i < 4, (dinodeAt small smallDisk i).addrs = Dinode.zero.addrs ∧
        (dinodeAt small smallDisk i).size = 0 := by decide +kernel
    exact fields
  · have map : ∀ b < 12, used small smallDisk b = true ↔ ¬ (3 ≤ b ∧ b < 12) := by decide +kernel
    exact map

theorem small_boot : Boot small 0 0 smallState where
  image := small_consistent
  entry := ⟨rfl, rfl, rfl, rfl⟩
  others := fun _ other => if_neg other
  unlocked := fun _ => rfl
  files := fun _ => ⟨rfl, rfl⟩
  first := rfl
  unused := fun _ other => if_neg other
  building := fun _ => rfl
  outstanding := rfl

/-- A step, if it does not start a call during another one. -/
def nextAlone (s : KernelState (Fin 2)) (label : Machine.Label (Fin 2) (Call (Fin 2))) :
    Option (KernelState (Fin 2)) :=
  match label with
  | .start .. => if ∀ q, (s.thread q).isNone then (kernel small).next s label else none
  | _ => (kernel small).next s label

/-- A call and its first steps. -/
def begins (p : Fin 2) (call : Call (Fin 2)) (steps : Nat) : Session :=
  .start p call :: List.replicate steps (.step p)

/-- A call to its end. -/
def makes (p : Fin 2) (call : Call (Fin 2)) (steps : Nat) : Session :=
  begins p call steps ++ [.finish p]

/-- The state that a session leads to. -/
def reached (labels : Session) : KernelState (Fin 2) :=
  (labels.foldlM nextAlone (Machine.initial smallState)).getD (Machine.initial smallState)

theorem run_reached (labels : Session)
    (ran : (labels.foldlM nextAlone (Machine.initial smallState)).isSome = true) :
    Sequence small smallState labels (reached labels) := by
  obtain ⟨t, ended⟩ := Option.isSome_iff_exists.mp ran
  rw [reached, ended]
  refine (Run.of_execute ended).mono fun {s label t} one => ?_
  cases label with
  | start p call =>
    simp only [nextAlone] at one
    split at one
    next free => exact ⟨one, fun _ _ _ q => Option.isNone_iff_eq_none.mp (free q)⟩
    next => cases one
  | step | finish => exact ⟨one, nofun⟩

/-- The file `/a`, open with these mode bits. -/
def opened (omode : UInt32) : Session :=
  makes 0 (.sysOpen (some [slash, 97]) (O_CREATE ||| omode)) 40

/-- Sevens, which can be read. -/
def sevens : Source := ⟨fun _ => 7, fun _ _ => none⟩

/-- The file has two blocks. -/
def written : Session :=
  opened O_RDWR ++ makes 0 (.sysWrite 0 sevens 1500 none) 23

/-- Two processes share the file, at three descriptors. -/
def forked : Session :=
  written ++ makes 0 (.sysDup 0) 3 ++ makes 0 (.fork (some 1)) 6 ++ makes 0 (.sysClose 0) 3

/-- The file is truncated, written again, unlinked and freed, and a directory is made. -/
def session : Session :=
  forked ++ makes 1 (.sysOpen (some [slash, 97]) (O_TRUNC ||| O_RDWR)) 41 ++
    makes 1 (.sysWrite 2 sevens 2 none) 18 ++ makes 0 (.sysUnlink (some [slash, 97])) 30 ++
    makes 1 .exit 31 ++ makes 0 (.sysClose 1) 28 ++ makes 0 (.sysMkdir (some [slash, 97])) 68

theorem files_without_holes_session :
    ((dinodeAt small (reached written).shared.disk 2).size = 1500 ∧
      HoleFree small (reached written).shared.disk 2 ∧
      ∃ r, (readi small 0 1 (fun _ _ => true) 0 1500).run (reached written).shared =
        .ok (reached written).shared r) ∧
    (dinodeAt small (reached session).shared.disk 2).size = 32 ∧
      HoleFree small (reached session).shared.disk 2 ∧
      HoleFree small (reached session).shared.disk ROOTINO := by
  have first := files_without_holes small_boot (run_reached written (by decide +kernel))
  have last := files_without_holes small_boot (run_reached session (by decide +kernel))
  have free : ∀ e, ((reached written).shared.itable e).lock = none ∧
      ((reached session).shared.itable e).lock = none := by decide +kernel
  exact ⟨⟨by decide +kernel, first.1 2 (by decide) fun e _ => (free e).1,
    first.2.2.1 1 (by decide +kernel) (free 1).1 (by decide +kernel) _ _ _ _ (by decide)⟩,
    by decide +kernel, last.1 2 (by decide) fun e _ => (free e).2,
    last.1 ROOTINO (by decide) fun e _ => (free e).2⟩

end Xv6.Fs
