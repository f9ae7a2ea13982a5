import Mathlib.Algebra.Order.BigOperators.Group.Finset
import Mathlib.Data.Fintype.BigOperators
import Xv6.Fs.State

/-!
# The inode table

The protocol of `iget`, `idup`, `ilock`, `iunlock`, `iput`, `ialloc` and `iupdate`
alone, for any number of processes. A step is a section under `itable.lock`, under
the sleep-lock of an inode or under that of a buffer. The callers keep to the rules
that `fs.c` gives: they use entries to which they have references, change the fields
of inodes that they have locked, call `iupdate` after that, and drop their last
reference to an inode only when they have unlocked it.
-/

namespace Xv6.Itable

open Function

open Xv6.Fs (NINODE Dinode Inode)

/-! ## The model -/

/-- Where a process is in a call. -/
inductive Phase where
  | idle
  | scan (dev : Nat) (type : Int16) (inum : Nat)
  | found (dev inum : Nat)
  | load (e : Fin NINODE)
  | dirty (e : Fin NINODE)
  -- `iput` has the sleep-lock of an inode that it frees, and calls `itrunc`
  | itrunc (e : Fin NINODE)
  | truncated (e : Fin NINODE)
  | retype (e : Fin NINODE)
  | freed (e : Fin NINODE)
  | invalid (e : Fin NINODE)
  | release (e : Fin NINODE)
  | drop (e : Fin NINODE)
  deriving DecidableEq

/-- A process: its references and where it is. -/
structure Proc where
  refs : Fin NINODE → Nat
  phase : Phase

/-- The inodes on the disk, by device and number, the table and the processes. -/
structure State (Pid : Type) where
  disk : Nat → Nat → Dinode
  itable : Fin NINODE → Inode Pid
  proc : Pid → Proc

inductive Act (Pid : Type) where
  | iget (p : Pid) (dev inum : Nat)
  | idup (p : Pid) (e : Fin NINODE)
  | ilock (p : Pid) (e : Fin NINODE)
  | iunlock (p : Pid) (e : Fin NINODE)
  -- a change of the fields of a locked inode, to be followed by `iupdate`
  | change (p : Pid) (e : Fin NINODE) (f : Dinode → Dinode)
  | iput (p : Pid) (e : Fin NINODE)
  | ialloc (p : Pid) (dev : Nat) (type : Int16)
  | step (p : Pid)

variable {Pid : Type} [DecidableEq Pid] {e : Fin NINODE} {p : Pid} {dev inum : Nat} {d : Dinode}
  {dev' inum' : Nat} {act : Act Pid}

namespace State

/-- A section that changes one entry, and the process itself. -/
def put (s : State Pid) (e : Fin NINODE) (ip : Inode Pid) (p : Pid) (refs : Nat) (phase : Phase) :
    State Pid :=
  { s with
    itable := Function.update s.itable e ip
    proc := Function.update s.proc p ⟨Function.update (s.proc p).refs e refs, phase⟩ }

def go (s : State Pid) (p : Pid) (phase : Phase) : State Pid :=
  { s with proc := Function.update s.proc p { s.proc p with phase := phase } }

def write (s : State Pid) (dev inum : Nat) (d : Dinode) : State Pid :=
  { s with disk := Function.update s.disk dev (Function.update (s.disk dev) inum d) }

/-- The entry of an inode. -/
def lookup (s : State Pid) (dev inum : Nat) : Option (Fin NINODE) :=
  (List.finRange NINODE).find? fun e =>
    0 < (s.itable e).ref ∧ (s.itable e).dev = dev ∧ (s.itable e).inum = inum

/-- An entry that is not used. -/
def empty (s : State Pid) : Option (Fin NINODE) :=
  (List.finRange NINODE).find? fun e => (s.itable e).ref = 0

/-- `iget`. Without an empty entry it panics. -/
def iget (s : State Pid) (p : Pid) (dev inum : Nat) : Option (State Pid) :=
  match s.lookup dev inum with
  | some e =>
    some (s.put e { s.itable e with ref := (s.itable e).ref + 1 } p ((s.proc p).refs e + 1) .idle)
  | none =>
    match s.empty with
    | some e =>
      some (s.put e { s.itable e with dev := dev, inum := inum, ref := 1, valid := false } p
        ((s.proc p).refs e + 1) .idle)
    | none => none

/-- `iput`, up to the end of the first section under `itable.lock`. `none` is a wait
for the sleep-lock with `itable.lock` held. -/
def iput (s : State Pid) (p : Pid) (e : Fin NINODE) : Option (State Pid) :=
  let ip := s.itable e
  if ip.ref = 1 ∧ ip.valid = true ∧ ip.d.nlink = 0 then
    if ip.lock = none then
      some (s.put e { ip with lock := some p } p ((s.proc p).refs e) (.itrunc e))
    else none
  else some (s.put e { ip with ref := ip.ref - 1 } p ((s.proc p).refs e - 1) .idle)

/-- The next section of a call. -/
def step (ninodes : Nat) (s : State Pid) (p : Pid) : Option (State Pid) :=
  let same (e : Fin NINODE) (ip : Inode Pid) (phase : Phase) : State Pid :=
    s.put e ip p ((s.proc p).refs e) phase
  match (s.proc p).phase with
  | .idle => none
  | .scan dev type inum =>
    if inum < ninodes then
      if (s.disk dev inum).type = 0 then
        some ((s.write dev inum { Dinode.zero with type := type }).go p (.found dev inum))
      else some (s.go p (.scan dev type (inum + 1)))
    else some (s.go p .idle)
  | .found dev inum => s.iget p dev inum
  | .load e =>
    let ip := s.itable e
    if ip.valid then some (s.go p .idle)
    else if (s.disk ip.dev ip.inum).type = 0 then none
    else some (same e { ip with d := s.disk ip.dev ip.inum, valid := true } .idle)
  | .dirty e =>
    some ((s.write (s.itable e).dev (s.itable e).inum (s.itable e).d).go p .idle)
  | .itrunc e =>
    some (same e { s.itable e with d := { (s.itable e).d with size := 0, addrs := fun _ => 0 } }
      (.truncated e))
  | .truncated e =>
    some ((s.write (s.itable e).dev (s.itable e).inum (s.itable e).d).go p (.retype e))
  | .retype e =>
    some (same e { s.itable e with d := { (s.itable e).d with type := 0 } } (.freed e))
  | .freed e =>
    some ((s.write (s.itable e).dev (s.itable e).inum (s.itable e).d).go p (.invalid e))
  | .invalid e => some (same e { s.itable e with valid := false } (.release e))
  | .release e => some (same e { s.itable e with lock := none } (.drop e))
  | .drop e =>
    some (s.put e { s.itable e with ref := (s.itable e).ref - 1 } p ((s.proc p).refs e - 1) .idle)

end State

/-- What a process may do. -/
def Allowed (s : State Pid) : Act Pid → Prop
  | .iget p _ _ => (s.proc p).phase = .idle
  | .idup p e => (s.proc p).phase = .idle ∧ 1 ≤ (s.proc p).refs e
  | .ilock p e => (s.proc p).phase = .idle ∧ 1 ≤ (s.proc p).refs e
  | .iunlock p e => (s.proc p).phase = .idle ∧ (s.itable e).lock = some p
  | .change p e f => (s.proc p).phase = .idle ∧ (s.itable e).lock = some p ∧
      ∀ d, (f d).type = d.type
  | .iput p e => (s.proc p).phase = .idle ∧ 1 ≤ (s.proc p).refs e ∧
      ((s.itable e).lock = some p → 2 ≤ (s.proc p).refs e)
  | .ialloc p _ type => (s.proc p).phase = .idle ∧ type ≠ 0
  | .step _ => True

/-- A step, for a file system with that many inodes. -/
def next (ninodes : Nat) (s : State Pid) : Act Pid → Option (State Pid)
  | .iget p dev inum => s.iget p dev inum
  | .idup p e =>
    some (s.put e { s.itable e with ref := (s.itable e).ref + 1 } p ((s.proc p).refs e + 1) .idle)
  | .ilock p e =>
    if (s.itable e).lock = none then
      some (s.put e { s.itable e with lock := some p } p ((s.proc p).refs e) (.load e))
    else none
  | .iunlock p e =>
    some (s.put e { s.itable e with lock := none } p ((s.proc p).refs e) .idle)
  | .change p e f =>
    some (s.put e { s.itable e with d := f (s.itable e).d } p ((s.proc p).refs e) (.dirty e))
  | .iput p e => s.iput p e
  | .ialloc p dev type => some (s.go p (.scan dev type 1))
  | .step p => s.step ninodes p

def Step (ninodes : Nat) (s : State Pid) (act : Act Pid) (t : State Pid) : Prop :=
  Allowed s act ∧ next ninodes s act = some t

/-- The table before the first call. -/
structure Init (s : State Pid) : Prop where
  ref : ∀ e, (s.itable e).ref = 0
  lock : ∀ e, (s.itable e).lock = none
  refs : ∀ p e, (s.proc p).refs e = 0
  phase : ∀ p, (s.proc p).phase = .idle

/-! ## The invariant -/

/-- The fields in memory are those on the disk, of an inode that is allocated. -/
def Clean (disk mem : Dinode) : Prop := mem = disk ∧ mem.type ≠ 0

/-- What holds of the fields of a valid entry, for the process that has locked it. -/
def Phase.Fits (phase : Phase) (e : Fin NINODE) (disk mem : Dinode) : Prop :=
  match phase with
  | .dirty e' | .truncated e' =>
    if e' = e then disk.type = mem.type ∧ mem.type ≠ 0 else Clean disk mem
  | .freed e' => if e' = e then disk.type ≠ 0 ∧ mem.type = 0 else Clean disk mem
  | .invalid e' => if e' = e then True else Clean disk mem
  | _ => Clean disk mem

/-- What a process knows of the entry it works on. -/
def Phase.Knows (phase : Phase) (p : Pid) (itable : Fin NINODE → Inode Pid)
    (refs : Fin NINODE → Nat) : Prop :=
  match phase with
  | .idle | .scan .. | .found .. => True
  | .load e | .dirty e | .itrunc e | .truncated e | .retype e | .freed e | .invalid e =>
    (itable e).lock = some p
  | .release e => (itable e).lock = some p ∧ (itable e).valid = false
  | .drop e => (itable e).lock ≠ some p ∧ 1 ≤ refs e

/-- The entry that a process works on. -/
def Phase.entry : Phase → Option (Fin NINODE)
  | .idle | .scan .. | .found .. => none
  | .load e | .dirty e | .itrunc e | .truncated e | .retype e | .freed e | .invalid e | .release e
  | .drop e => some e

/-- The phase of the process that has locked an entry. -/
def State.holding (s : State Pid) (e : Fin NINODE) : Phase :=
  match (s.itable e).lock with
  | some p => (s.proc p).phase
  | none => .idle

structure Inv [Fintype Pid] (s : State Pid) : Prop where
  unique : ∀ e e', 0 < (s.itable e).ref → 0 < (s.itable e').ref →
    (s.itable e).dev = (s.itable e').dev → (s.itable e).inum = (s.itable e').inum → e = e'
  count : ∀ e, (s.itable e).ref = ∑ p, (s.proc p).refs e
  holder : ∀ e p, (s.itable e).lock = some p → 1 ≤ (s.proc p).refs e
  valid : ∀ e p, (s.itable e).lock = some p → (s.proc p).phase ≠ .load e →
    (s.proc p).phase ≠ .release e → (s.itable e).valid = true
  fits : ∀ e, 0 < (s.itable e).ref → (s.itable e).valid = true →
    (s.holding e).Fits e (s.disk (s.itable e).dev (s.itable e).inum) (s.itable e).d
  knows : ∀ p, (s.proc p).phase.Knows p s.itable (s.proc p).refs

variable {phase : Phase}

theorem Phase.fits_of_other {disk mem : Dinode}
    (other : phase.entry ≠ some e) : phase.Fits e disk mem ↔ Clean disk mem := by
  cases phase <;> simp_all [Phase.Fits, Phase.entry]

variable [Fintype Pid] {s t : State Pid} {ninodes : Nat}

namespace Inv

section

variable (inv : Inv s) {refs : Nat}
include inv

theorem refs_le (p : Pid) (e : Fin NINODE) : (s.proc p).refs e ≤ (s.itable e).ref := by
  rw [inv.count e]
  exact Finset.single_le_sum (f := fun p => (s.proc p).refs e) (fun _ _ => Nat.zero_le _)
    (Finset.mem_univ p)

theorem ref_pos (holds : 1 ≤ (s.proc p).refs e) : 0 < (s.itable e).ref :=
  holds.trans (inv.refs_le p e)

/-- With a single reference, the entry can only be locked by the process that has it. -/
theorem lock_of_ref_one (holds : 1 ≤ (s.proc p).refs e) (one : (s.itable e).ref = 1)
    (mine : (s.itable e).lock ≠ some p) : (s.itable e).lock = none := by
  cases lock : (s.itable e).lock with
  | none => rfl
  | some q =>
    have other : p ≠ q := fun same => mine (same ▸ lock)
    have both : (s.proc p).refs e + (s.proc q).refs e ≤ ∑ r, (s.proc r).refs e := by
      rw [← Finset.sum_pair (f := fun r => (s.proc r).refs e) other]
      exact Finset.sum_le_sum_of_subset (Finset.subset_univ _)
    have := inv.holder e q lock
    have := inv.count e
    omega

/-- A step that changes one entry, one process, and maybe the disk. -/
theorem put {ip : Inode Pid} (disk' : Nat → Nat → Dinode)
    (disk : ∀ e', e' ≠ e → 0 < (s.itable e').ref → (s.itable e').valid = true →
      (s.holding e').Fits e' (s.disk (s.itable e').dev (s.itable e').inum) (s.itable e').d →
      (s.holding e').Fits e' (disk' (s.itable e').dev (s.itable e').inum) (s.itable e').d)
    (old : ∀ e', e' ≠ e → (s.proc p).phase.entry ≠ some e')
    (new : ∀ e', e' ≠ e → phase.entry ≠ some e')
    (key : 0 < ip.ref → ∀ e', e' ≠ e → 0 < (s.itable e').ref →
      ¬ (ip.dev = (s.itable e').dev ∧ ip.inum = (s.itable e').inum))
    (count : ip.ref + (s.proc p).refs e = (s.itable e).ref + refs)
    (lock : ip.lock = (s.itable e).lock ∨ (ip.lock = some p ∧ (s.itable e).lock = none) ∨
      (ip.lock = none ∧ (s.itable e).lock = some p))
    (holder : ip.lock = some p → 1 ≤ refs)
    (others : ∀ q, q ≠ p → (s.itable e).lock = some q → ip.valid = (s.itable e).valid)
    (mine : ip.lock = some p → phase ≠ .load e → phase ≠ .release e → ip.valid = true)
    (fits : 0 < ip.ref → ip.valid = true → (match ip.lock with
        | some q => if q = p then phase else (s.proc q).phase
        | none => .idle).Fits e (disk' ip.dev ip.inum) ip.d)
    (knows : phase.Knows p (update s.itable e ip) (update (s.proc p).refs e refs)) :
    Inv { (s.put e ip p refs phase) with disk := disk' } := by
  have lock_other : ∀ q, q ≠ p → (ip.lock = some q ↔ (s.itable e).lock = some q) := by
    intro q other
    rcases lock with same | ⟨taken, free⟩ | ⟨free, taken⟩
    · rw [same]
    · simp [taken, free, Ne.symm other]
    · simp [taken, free, Ne.symm other]
  constructor
  case unique =>
    intro a b usedA usedB dev inum
    by_contra differ
    by_cases atA : a = e
    · subst atA
      have atB : b ≠ a := Ne.symm differ
      simp only [State.put, update_self, update_of_ne atB] at usedA usedB dev inum
      exact key usedA b atB usedB ⟨dev, inum⟩
    · by_cases atB : b = e
      · subst atB
        simp only [State.put, update_self, update_of_ne atA] at usedA usedB dev inum
        exact key usedB a atA usedA ⟨dev.symm, inum.symm⟩
      · simp only [State.put, update_of_ne atA, update_of_ne atB] at usedA usedB dev inum
        exact differ (inv.unique a b usedA usedB dev inum)
  case count =>
    intro a
    have sums : ∑ q, ((s.put e ip p refs phase).proc q).refs a + (s.proc p).refs a =
        ∑ q, (s.proc q).refs a + (update (s.proc p).refs e refs) a := by
      rw [← Finset.add_sum_erase _ _ (Finset.mem_univ p),
        ← Finset.add_sum_erase Finset.univ (fun q => (s.proc q).refs a) (Finset.mem_univ p)]
      have rest : ∑ q ∈ Finset.univ.erase p, ((s.put e ip p refs phase).proc q).refs a =
          ∑ q ∈ Finset.univ.erase p, (s.proc q).refs a := by
        refine Finset.sum_congr rfl fun q other => ?_
        simp only [State.put, update_of_ne (Finset.ne_of_mem_erase other)]
      rw [rest]
      simp only [State.put, update_self]
      omega
    have before := inv.count a
    by_cases at_ : a = e
    · subst at_
      simp only [State.put, update_self] at sums ⊢
      omega
    · simp only [State.put, update_of_ne at_] at sums ⊢
      omega
  case holder =>
    intro a q locked
    by_cases at_ : a = e
    · subst at_
      simp only [State.put, update_self] at locked ⊢
      by_cases who : q = p
      · subst who
        simpa using holder locked
      · simp only [update_of_ne who]
        exact inv.holder a q ((lock_other q who).1 locked)
    · simp only [State.put, update_of_ne at_] at locked ⊢
      by_cases who : q = p
      · subst who
        simpa [update_of_ne at_] using inv.holder a q locked
      · simpa [update_of_ne who] using inv.holder a q locked
  case valid =>
    intro a q locked notLoad notRelease
    by_cases at_ : a = e
    · subst at_
      simp only [State.put, update_self] at locked ⊢
      by_cases who : q = p
      · subst who
        simp only [State.put, update_self] at notLoad notRelease
        exact mine locked notLoad notRelease
      · simp only [State.put, update_of_ne who] at notLoad notRelease
        have before := (lock_other q who).1 locked
        rw [others q who before]
        exact inv.valid a q before notLoad notRelease
    · simp only [State.put, update_of_ne at_] at locked ⊢
      by_cases who : q = p
      · subst who
        refine inv.valid a q locked (fun h => old a at_ ?_) (fun h => old a at_ ?_)
        · rw [h, Phase.entry]
        · rw [h, Phase.entry]
      · simp only [State.put, update_of_ne who] at notLoad notRelease
        exact inv.valid a q locked notLoad notRelease
  case fits =>
    intro a used valid
    by_cases at_ : a = e
    · subst at_
      simp only [State.put, update_self] at used valid
      have goal := fits used valid
      simp only [State.holding, State.put, update_self]
      cases held : ip.lock with
      | none => simpa [held] using goal
      | some q =>
        rw [held] at goal
        by_cases who : q = p
        · subst who
          simpa using goal
        · simpa [update_of_ne who, who] using goal
    · simp only [State.put, update_of_ne at_] at used valid
      have goal := disk a at_ used valid (inv.fits a used valid)
      simp only [State.holding, State.put, update_of_ne at_] at goal ⊢
      cases held : (s.itable a).lock with
      | none => simpa [held] using goal
      | some q =>
        rw [held] at goal
        by_cases who : q = p
        · subst who
          simp only [update_self]
          exact (Phase.fits_of_other (new a at_)).2 ((Phase.fits_of_other (old a at_)).1 goal)
        · simpa [update_of_ne who] using goal
  case knows =>
    intro q
    by_cases who : q = p
    · subst who
      simpa [State.put] using knows
    · simp only [State.put, update_of_ne who]
      have before := inv.knows q
      have locks : ∀ a, ((update s.itable e ip) a).lock = some q ↔ (s.itable a).lock = some q := by
        intro a
        by_cases at_ : a = e
        · subst at_
          simpa using lock_other q who
        · simp [update_of_ne at_]
      have valids : ∀ a, (s.itable a).lock = some q →
          ((update s.itable e ip) a).valid = (s.itable a).valid := by
        intro a locked
        by_cases at_ : a = e
        · subst at_
          simpa using others q who locked
        · simp [update_of_ne at_]
      cases phaseEq : (s.proc q).phase <;> rw [phaseEq] at before <;>
        simp only [Phase.Knows, ne_eq, locks] at before ⊢ <;> try exact before
      exact ⟨before.1, (valids _ before.1).trans before.2⟩

theorem key (used : 0 < (s.itable e).ref) (e' : Fin NINODE)
    (other : e' ≠ e) (used' : 0 < (s.itable e').ref) :
    ¬ ((s.itable e).dev = (s.itable e').dev ∧ (s.itable e).inum = (s.itable e').inum) :=
  fun same => other (inv.unique e e' used used' same.1 same.2).symm

theorem put_ref {ref : Nat} (used : 0 < (s.itable e).ref)
    (old : ∀ e', e' ≠ e → (s.proc p).phase.entry ≠ some e')
    (calm : (s.itable e).lock = some p → (s.proc p).phase = .idle ∨ ∃ dev inum,
      (s.proc p).phase = .found dev inum)
    (count : ref + (s.proc p).refs e = (s.itable e).ref + refs)
    (holder : (s.itable e).lock = some p → 1 ≤ refs) :
    Inv (s.put e { s.itable e with ref := ref } p refs .idle) := by
  refine inv.put s.disk (fun _ _ _ _ fits => fits) old (by simp [Phase.entry])
    (fun _ => inv.key used) count (Or.inl rfl) holder (fun _ _ _ => rfl) ?_ ?_ trivial
  · intro locked _ _
    have notLoad : (s.proc p).phase ≠ .load e := by
      rcases calm locked with h | ⟨_, _, h⟩ <;> simp [h]
    have notRelease : (s.proc p).phase ≠ .release e := by
      rcases calm locked with h | ⟨_, _, h⟩ <;> simp [h]
    exact inv.valid e p locked notLoad notRelease
  · intro _ valid
    have before := inv.fits e used valid
    simp only [State.holding] at before ⊢
    cases locked : (s.itable e).lock with
    | none => simpa [locked] using before
    | some q =>
      rw [locked] at before
      by_cases who : q = p
      · subst who
        rcases calm locked with h | ⟨_, _, h⟩ <;>
          simpa [h, Phase.Fits] using before
      · simpa [who] using before

/-- A process works on an entry that it has locked, in memory or on the disk. -/
theorem put_locked {valid : Bool} (disk' : Nat → Nat → Dinode) (locked : (s.itable e).lock = some p)
    (old : ∀ e', e' ≠ e → (s.proc p).phase.entry ≠ some e')
    (disk : ∀ dev inum, ¬ ((s.itable e).dev = dev ∧ (s.itable e).inum = inum) →
      disk' dev inum = s.disk dev inum)
    (new : ∀ e', e' ≠ e → phase.entry ≠ some e')
    (mine : phase ≠ .load e → phase ≠ .release e → valid = true)
    (fits : valid = true → phase.Fits e (disk' (s.itable e).dev (s.itable e).inum) d)
    (knows : phase.entry = none ∨ (phase.entry = some e ∧ phase ≠ .drop e ∧
      (phase = .release e → valid = false))) :
    Inv { (s.put e { s.itable e with d := d, valid := valid } p ((s.proc p).refs e) phase) with
      disk := disk' } := by
  have used := inv.ref_pos (inv.holder e p locked)
  refine inv.put disk' ?_ old new (fun _ => inv.key used) rfl (Or.inl rfl)
    (fun _ => inv.holder e p locked) ?_ (fun _ => mine) ?_ ?_
  · intro e' other used' _ before
    rw [disk _ _ (inv.key used e' other used')]
    exact before
  · intro q other taken
    simp [locked, Ne.symm other] at taken
  · intro _ ok
    simpa [locked] using fits ok
  · cases phase <;> simp [Phase.Knows, Phase.entry, locked] at knows ⊢ <;>
      first
        | (subst knows; simp)
        | (obtain ⟨rfl, h⟩ := knows; simp [h])

theorem put_take (idle : (s.proc p).phase = .idle) (holds : 1 ≤ (s.proc p).refs e)
    (free : (s.itable e).lock = none)
    (plain : phase = .load e ∨ (phase = .itrunc e ∧ (s.itable e).valid = true)) :
    Inv (s.put e { s.itable e with lock := some p } p ((s.proc p).refs e) phase) := by
  have used := inv.ref_pos holds
  refine inv.put s.disk (fun _ _ _ _ fits => fits) (by simp [idle, Phase.entry]) ?_
    (fun _ => inv.key used) rfl (Or.inr (Or.inl ⟨rfl, free⟩)) (fun _ => holds)
    (fun _ _ _ => rfl) ?_ ?_ ?_
  · intro e' other
    rcases plain with rfl | ⟨rfl, _⟩ <;> simp [Phase.entry, Ne.symm other]
  · intro _ notLoad _
    exact (plain.resolve_left notLoad).2
  · intro _ valid
    have clean := inv.fits e used valid
    simp only [State.holding, free] at clean
    rcases plain with rfl | ⟨rfl, _⟩ <;> simpa [Phase.Fits] using clean
  · rcases plain with rfl | ⟨rfl, _⟩ <;> simp [Phase.Knows]

theorem put_release (locked : (s.itable e).lock = some p)
    (plain : ((s.proc p).phase = .idle ∧ phase = .idle) ∨
      ((s.proc p).phase = .release e ∧ phase = .drop e)) :
    Inv (s.put e { s.itable e with lock := none } p ((s.proc p).refs e) phase) := by
  have holds := inv.holder e p locked
  have used := inv.ref_pos holds
  refine inv.put s.disk (fun _ _ _ _ fits => fits) ?_ ?_ (fun _ => inv.key used) rfl
    (Or.inr (Or.inr ⟨rfl, locked⟩)) (by simp) (fun _ _ _ => rfl) (by simp) ?_ ?_
  · intro e' other
    rcases plain with ⟨h, _⟩ | ⟨h, _⟩ <;> simp [h, Phase.entry, Ne.symm other]
  · intro e' other
    rcases plain with ⟨_, rfl⟩ | ⟨_, rfl⟩ <;> simp [Phase.entry, Ne.symm other]
  · intro _ valid
    have clean := inv.fits e used valid
    simp only [State.holding, locked] at clean
    rcases plain with ⟨h, _⟩ | ⟨h, _⟩ <;> simpa [h, Phase.Fits] using clean
  · rcases plain with ⟨_, rfl⟩ | ⟨_, rfl⟩ <;> simp [Phase.Knows, holds]

theorem go_scan (disk' : Nat → Nat → Dinode)
    (old : (s.proc p).phase.entry = none) (new : phase.entry = none)
    (disk : ∀ dev inum, (s.disk dev inum).type ≠ 0 → disk' dev inum = s.disk dev inum) :
    Inv { (s.go p phase) with disk := disk' } := by
  -- a valid entry has an inode that is not free, or `iput` is about to clear it
  have fits : ∀ e, 0 < (s.itable e).ref → (s.itable e).valid = true →
      (s.holding e).Fits e (s.disk (s.itable e).dev (s.itable e).inum) (s.itable e).d →
      (s.holding e).Fits e (disk' (s.itable e).dev (s.itable e).inum) (s.itable e).d := by
    intro e _ _ before
    by_cases gone : s.holding e = .invalid e
    · simp [gone, Phase.Fits]
    · have typed : (s.disk (s.itable e).dev (s.itable e).inum).type ≠ 0 := by
        revert before gone
        cases s.holding e <;> simp only [Phase.Fits, Clean] <;> grind
      rw [disk _ _ typed]
      exact before
  have same : s.go p phase = s.put 0 (s.itable 0) p ((s.proc p).refs 0) phase := by
    simp [State.go, State.put]
  rw [same]
  refine inv.put disk' (fun e _ => fits e) (by simp [old]) (by simp [new]) ?_ rfl (Or.inl rfl)
    (inv.holder 0 p) (fun _ _ _ => rfl) ?_ ?_ ?_
  · exact fun used => inv.key used
  · intro locked _ _
    refine inv.valid 0 p locked ?_ ?_ <;>
      · intro h
        simp [h, Phase.entry] at old
  · intro used valid
    have now := fits 0 used valid (inv.fits 0 used valid)
    simp only [State.holding] at now
    cases locked : (s.itable 0).lock with
    | none => simpa [locked] using now
    | some q =>
      rw [locked] at now
      by_cases who : q = p
      · subst who
        simp only [if_pos]
        exact (Phase.fits_of_other (by simp [new])).2 ((Phase.fits_of_other (by simp [old])).1 now)
      · simpa [who] using now
  · revert new
    cases phase <;> simp [Phase.entry, Phase.Knows]

theorem put_recycle (old : (s.proc p).phase.entry = none) (free : (s.itable e).ref = 0)
    (absent : ∀ e', 0 < (s.itable e').ref →
      ¬ (dev = (s.itable e').dev ∧ inum = (s.itable e').inum)) :
    Inv (s.put e { s.itable e with dev := dev, inum := inum, ref := 1, valid := false } p
      ((s.proc p).refs e + 1) .idle) := by
  have unlocked : ∀ q, (s.itable e).lock ≠ some q := by
    intro q locked
    have := inv.ref_pos (inv.holder e q locked)
    omega
  refine inv.put s.disk (fun _ _ _ _ fits => fits) (by simp [old])
    (by simp [Phase.entry]) (fun _ e' _ => absent e') ?_ (Or.inl rfl) (fun _ => by omega)
    (fun q _ locked => (unlocked q locked).elim) (fun locked => (unlocked p locked).elim)
    (by simp) trivial
  simp only [free]
  omega

end

end Inv

theorem lookup_some (found : s.lookup dev inum = some e) :
    0 < (s.itable e).ref ∧ (s.itable e).dev = dev ∧ (s.itable e).inum = inum := by
  simpa using List.find?_some found

theorem lookup_none (absent : s.lookup dev inum = none) (e : Fin NINODE)
    (used : 0 < (s.itable e).ref) : ¬ (dev = (s.itable e).dev ∧ inum = (s.itable e).inum) := by
  rintro ⟨rfl, rfl⟩
  have := List.find?_eq_none.1 absent e (List.mem_finRange e)
  simp [used] at this

/-! ## A step -/

theorem Inv.iget (inv : Inv s)
    (calm : (s.proc p).phase = .idle ∨ ∃ dev inum, (s.proc p).phase = .found dev inum)
    (done : s.iget p dev inum = some t) : Inv t := by
  have old : (s.proc p).phase.entry = none := by
    rcases calm with h | ⟨_, _, h⟩ <;> simp [h, Phase.entry]
  unfold State.iget at done
  split at done
  case h_1 e found =>
    cases done
    refine inv.put_ref (lookup_some found).1 (by simp [old]) (fun _ => calm) (by omega) ?_
    exact fun _ => by omega
  case h_2 absent =>
    split at done
    case h_1 e free =>
      cases done
      exact inv.put_recycle old (by simpa using List.find?_some free) (lookup_none absent)
    case h_2 => cases done

theorem Inv.iput (inv : Inv s) (idle : (s.proc p).phase = .idle) (holds : 1 ≤ (s.proc p).refs e)
    (spare : (s.itable e).lock = some p → 2 ≤ (s.proc p).refs e)
    (done : s.iput p e = some t) : Inv t := by
  simp only [State.iput] at done
  split at done
  case isTrue last =>
    split at done
    case isTrue free =>
      cases done
      exact inv.put_take idle holds free (Or.inr ⟨rfl, last.2.1⟩)
    case isFalse => cases done
  case isFalse =>
    cases done
    have used := inv.ref_pos holds
    refine inv.put_ref used (by simp [idle, Phase.entry]) (fun _ => Or.inl idle) (by omega) ?_
    exact fun locked => by have := spare locked; omega

theorem go_eq (s : State Pid) (disk' : Nat → Nat → Dinode) (e : Fin NINODE) (p : Pid)
    (phase : Phase) :
    { (s.go p phase) with disk := disk' } =
      { (s.put e { s.itable e with d := (s.itable e).d, valid := (s.itable e).valid } p
        ((s.proc p).refs e) phase) with disk := disk' } := by
  simp [State.go, State.put]

theorem write_go_eq (s : State Pid) (dev inum : Nat) (d : Dinode) (p : Pid) (phase : Phase) :
    (s.write dev inum d).go p phase =
      { (s.go p phase) with disk := (s.write dev inum d).disk } := rfl

theorem write_other (s : State Pid) (other : ¬ (dev = dev' ∧ inum = inum')) :
    (s.write dev inum d).disk dev' inum' = s.disk dev' inum' := by
  simp only [State.write, update_apply]
  grind

@[simp] theorem write_same (s : State Pid) (dev inum : Nat) (d : Dinode) :
    (s.write dev inum d).disk dev inum = d := by
  simp [State.write]

/-- What a process knows of the entry that it works on, and has locked. -/
theorem Inv.mine (inv : Inv s) (at_ : (s.proc p).phase = phase) (entry : phase.entry = some e)
    (notLoad : phase ≠ .load e := by simp) (notRelease : phase ≠ .release e := by simp)
    (notDrop : phase ≠ .drop e := by simp) :
    (s.itable e).lock = some p ∧ (s.itable e).valid = true ∧
      phase.Fits e (s.disk (s.itable e).dev (s.itable e).inum) (s.itable e).d := by
  have knows := inv.knows p
  have locked : (s.itable e).lock = some p := by
    rw [at_] at knows
    revert entry notRelease notDrop knows
    cases phase <;> simp only [Phase.entry, Phase.Knows] <;> grind
  have valid := inv.valid e p locked (at_ ▸ notLoad) (at_ ▸ notRelease)
  have fits := inv.fits e (inv.ref_pos (inv.holder e p locked)) valid
  simp only [State.holding, locked, at_] at fits
  exact ⟨locked, valid, fits⟩

theorem Inv.next_section (inv : Inv s) (done : s.step ninodes p = some t) : Inv t := by
  have knows := inv.knows p
  have old_of : ∀ {e : Fin NINODE} {phase : Phase}, (s.proc p).phase = phase →
      phase.entry = some e → ∀ e', e' ≠ e → (s.proc p).phase.entry ≠ some e' := by
    intro e phase at_ entry e' other
    rw [at_, entry]
    simpa using Ne.symm other
  simp only [State.step] at done
  split at done
  case h_1 => cases done
  case h_2 dev type inum phase =>
    have old : (s.proc p).phase.entry = none := by rw [phase, Phase.entry]
    split at done
    · split at done
      · rename_i free
        cases done
        rw [write_go_eq]
        refine inv.go_scan _ old rfl fun dev' inum' typed => write_other s ?_
        rintro ⟨rfl, rfl⟩
        exact typed free
      · cases done
        exact inv.go_scan s.disk old rfl fun _ _ _ => rfl
    · cases done
      exact inv.go_scan s.disk old rfl fun _ _ _ => rfl
  case h_3 dev inum phase => exact inv.iget (Or.inr ⟨_, _, phase⟩) done
  case h_4 e phase =>
    rw [phase] at knows
    have old := old_of phase rfl
    split at done
    case isTrue valid =>
      cases done
      have fits := inv.fits e (inv.ref_pos (inv.holder e p knows)) valid
      simp only [State.holding, show (s.itable e).lock = some p from knows, phase] at fits
      rw [show s.go p .idle = { (s.go p .idle) with disk := s.disk } from rfl, go_eq s s.disk e]
      exact inv.put_locked _ knows old (fun _ _ _ => rfl) (by simp [Phase.entry])
        (fun _ _ => valid) (fun _ => fits) (Or.inl rfl)
    case isFalse =>
      split at done
      case isTrue => cases done
      case isFalse typed =>
        cases done
        exact inv.put_locked s.disk knows old (fun _ _ _ => rfl) (by simp [Phase.entry])
          (fun _ _ => rfl) (fun _ => ⟨rfl, typed⟩) (Or.inl rfl)
  case h_5 e phase =>
    obtain ⟨locked, valid, fits⟩ := inv.mine phase rfl
    simp only [Phase.Fits, if_pos] at fits
    cases done
    rw [write_go_eq, go_eq s _ e]
    exact inv.put_locked _ locked (old_of phase rfl) (fun _ _ => write_other s)
      (by simp [Phase.entry])
      (fun _ _ => valid) (fun _ => by simpa [Phase.Fits, Clean] using fits.2) (Or.inl rfl)
  case h_6 e phase | h_8 e phase =>
    obtain ⟨locked, valid, fits⟩ := inv.mine phase rfl
    cases done
    refine inv.put_locked s.disk locked (old_of phase rfl) (fun _ _ _ => rfl)
      (by simp [Phase.entry, eq_comm]) (fun _ _ => valid) (fun _ => ?_)
      (Or.inr (by simp [Phase.entry]))
    obtain ⟨same, typed⟩ := fits
    simpa [Phase.Fits, ← same] using typed
  case h_7 e phase =>
    obtain ⟨locked, valid, fits⟩ := inv.mine phase rfl
    simp only [Phase.Fits, if_pos] at fits
    cases done
    rw [write_go_eq, go_eq s _ e]
    exact inv.put_locked _ locked (old_of phase rfl) (fun _ _ => write_other s)
      (by simp [Phase.entry, eq_comm]) (fun _ _ => valid)
      (fun _ => by simpa [Phase.Fits, Clean] using fits.2) (Or.inr (by simp [Phase.entry]))
  case h_9 e phase =>
    obtain ⟨locked, valid, fits⟩ := inv.mine phase rfl
    cases done
    rw [write_go_eq, go_eq s _ e]
    exact inv.put_locked _ locked (old_of phase rfl) (fun _ _ => write_other s)
      (by simp [Phase.entry, eq_comm]) (fun _ _ => valid)
      (fun _ => by simp [Phase.Fits]) (Or.inr (by simp [Phase.entry]))
  case h_10 e phase =>
    obtain ⟨locked, valid, fits⟩ := inv.mine phase rfl
    cases done
    exact inv.put_locked s.disk locked (old_of phase rfl) (fun _ _ _ => rfl)
      (by simp [Phase.entry, eq_comm]) (by simp) (by simp) (Or.inr (by simp [Phase.entry]))
  case h_11 e phase =>
    rw [phase] at knows
    cases done
    exact inv.put_release knows.1 (Or.inr ⟨phase, rfl⟩)
  case h_12 e phase =>
    rw [phase] at knows
    obtain ⟨unlocked, holds⟩ := knows
    have used := inv.ref_pos holds
    cases done
    exact inv.put_ref used (old_of phase rfl) (fun locked => (unlocked locked).elim) (by omega)
      (fun locked => (unlocked locked).elim)

theorem Inv.step (inv : Inv s) (one : Step ninodes s act t) : Inv t := by
  obtain ⟨allowed, done⟩ := one
  cases act with
  | iget p dev inum => exact inv.iget (Or.inl allowed) done
  | idup p e =>
    obtain ⟨idle, holds⟩ := allowed
    cases done
    exact inv.put_ref (inv.ref_pos holds) (by simp [idle, Phase.entry]) (fun _ => Or.inl idle)
      (by omega) (fun _ => by omega)
  | ilock p e =>
    obtain ⟨idle, holds⟩ := allowed
    simp only [next] at done
    split at done
    case isTrue free =>
      cases done
      exact inv.put_take idle holds free (Or.inl rfl)
    case isFalse => cases done
  | iunlock p e =>
    obtain ⟨idle, locked⟩ := allowed
    cases done
    exact inv.put_release locked (Or.inl ⟨idle, rfl⟩)
  | change p e f =>
    obtain ⟨idle, locked, keeps⟩ := allowed
    have valid := inv.valid e p locked (by simp [idle]) (by simp [idle])
    have fits := inv.fits e (inv.ref_pos (inv.holder e p locked)) valid
    simp only [State.holding, locked, idle] at fits
    obtain ⟨same, typed⟩ := fits
    cases done
    refine inv.put_locked s.disk locked (by simp [idle, Phase.entry]) (fun _ _ _ => rfl)
      (by simp [Phase.entry, eq_comm]) (fun _ _ => valid) (fun _ => ?_)
      (Or.inr (by simp [Phase.entry]))
    simpa [Phase.Fits, ← same, keeps] using typed
  | iput p e => exact inv.iput allowed.1 allowed.2.1 allowed.2.2 done
  | ialloc p dev type =>
    cases done
    exact inv.go_scan s.disk (by rw [allowed.1, Phase.entry]) rfl fun _ _ _ => rfl
  | step p => exact inv.next_section done

theorem Init.inv (init : Init s) : Inv s where
  unique e _ used := absurd used (by simp [init.ref e])
  count e := by simp [init.ref e, init.refs]
  holder e p locked := absurd locked (by simp [init.lock e])
  valid e p locked := absurd locked (by simp [init.lock e])
  fits e used := absurd used (by simp [init.ref e])
  knows p := by simp [init.phase p, Phase.Knows]

theorem Init.run (init : Init s) {acts : List (Act Pid)} (run : Run (Step ninodes) s acts t) :
    Inv t :=
  run.invariant Inv (fun inv one => inv.step one) init.inv

/-! ## The types of inodes -/

theorem write_type
    (changed : ((s.write dev inum d).disk dev' inum').type ≠ (s.disk dev' inum').type) :
    (dev = dev' ∧ inum = inum') ∧ d.type ≠ (s.disk dev inum).type := by
  have at_ : dev = dev' ∧ inum = inum' := by
    by_contra other
    exact changed (by rw [write_other s other])
  obtain ⟨rfl, rfl⟩ := at_
  exact ⟨⟨rfl, rfl⟩, by simpa using changed⟩

theorem iget_disk (done : s.iget p dev inum = some t) : t.disk = s.disk := by
  unfold State.iget at done
  split at done
  · cases done
    rfl
  · split at done
    · cases done
      rfl
    · cases done

/-- An inode on the disk gets another type only when `ialloc` takes it and when `iput`
frees it. -/
theorem Inv.type_change (inv : Inv s) (one : Step ninodes s act t)
    (changed : (t.disk dev inum).type ≠ (s.disk dev inum).type) :
    ∃ p, act = .step p ∧
      ((∃ type, (s.proc p).phase = .scan dev type inum ∧ (s.disk dev inum).type = 0) ∨
        ∃ e, (s.proc p).phase = .freed e ∧ (s.itable e).lock = some p ∧
          (s.itable e).dev = dev ∧ (s.itable e).inum = inum ∧ (t.disk dev inum).type = 0) := by
  obtain ⟨-, done⟩ := one
  cases act with
  | iget p _ _ => exact absurd (by rw [iget_disk done]) changed
  | idup | iunlock | change | ialloc =>
    cases done
    exact absurd rfl changed
  | ilock =>
    simp only [next] at done
    split at done <;> cases done
    exact absurd rfl changed
  | iput =>
    simp only [next, State.iput] at done
    split at done
    · split at done <;> cases done
      exact absurd rfl changed
    · cases done
      exact absurd rfl changed
  | step p =>
    refine ⟨p, rfl, ?_⟩
    simp only [next, State.step] at done
    split at done
    case h_1 => cases done
    case h_2 dev' type inum' phase =>
      split at done
      · split at done
        · rename_i free
          cases done
          obtain ⟨⟨rfl, rfl⟩, -⟩ := write_type changed
          exact Or.inl ⟨type, phase, free⟩
        · cases done
          exact absurd rfl changed
      · cases done
        exact absurd rfl changed
    case h_3 => exact absurd (by rw [iget_disk done]) changed
    case h_4 =>
      split at done
      · cases done
        exact absurd rfl changed
      · split at done <;> cases done
        exact absurd rfl changed
    case h_5 e phase | h_7 e phase =>
      obtain ⟨-, -, fits⟩ := inv.mine phase rfl
      simp only [Phase.Fits, if_pos] at fits
      cases done
      obtain ⟨-, differs⟩ := write_type changed
      exact absurd fits.1.symm differs
    case h_9 e phase =>
      obtain ⟨locked, -, fits⟩ := inv.mine phase rfl
      simp only [Phase.Fits, if_pos] at fits
      cases done
      obtain ⟨⟨rfl, rfl⟩, -⟩ := write_type changed
      refine Or.inr ⟨e, phase, locked, rfl, rfl, ?_⟩
      rw [write_go_eq, write_same]
      exact fits.2
    all_goals
      cases done
      exact absurd rfl changed

/-- `iput` begins to free an inode only when nobody else has a reference to it. -/
theorem Inv.iput_frees (inv : Inv s)
    (one : Step ninodes s (.iput p e) t) (frees : (t.proc p).phase = .itrunc e) :
    (s.itable e).d.nlink = 0 ∧ ∀ q, q ≠ p → (s.proc q).refs e = 0 := by
  obtain ⟨⟨-, holds, -⟩, done⟩ := one
  simp only [next, State.iput] at done
  split at done
  case isFalse =>
    cases done
    simp [State.put] at frees
  case isTrue last =>
    refine ⟨last.2.2, fun q other => ?_⟩
    have both : (s.proc p).refs e + (s.proc q).refs e ≤ ∑ r, (s.proc r).refs e := by
      rw [← Finset.sum_pair (f := fun r => (s.proc r).refs e) (Ne.symm other)]
      exact Finset.sum_le_sum_of_subset (Finset.subset_univ _)
    have := inv.count e
    omega

/-! ## The protocol -/

/-- What the table guarantees in a state, and about the next step. -/
structure Protocol (ninodes : Nat) (s : State Pid) : Prop where
  -- an inode has at most one entry
  unique : ∀ e e', 0 < (s.itable e).ref → 0 < (s.itable e').ref →
    (s.itable e).dev = (s.itable e').dev → (s.itable e).inum = (s.itable e').inum → e = e'
  ref : ∀ e, (s.itable e).ref = ∑ p, (s.proc p).refs e -- `ref` counts the references
  -- a process that has locked an inode has a reference
  holder : ∀ e p, (s.itable e).lock = some p → 1 ≤ (s.proc p).refs e
  -- `iput` of the last reference does not wait for the sleep-lock
  iput : ∀ p e, Allowed s (.iput p e) → (next ninodes s (.iput p e)).isSome
  -- an entry that is valid and not locked has the fields of the inode on the disk
  unlocked : ∀ e, 0 < (s.itable e).ref → (s.itable e).valid = true → (s.itable e).lock = none →
    (s.itable e).d = s.disk (s.itable e).dev (s.itable e).inum
  -- so does one that a process has locked with `ilock` and not changed; the inode is not free
  locked : ∀ e p, (s.itable e).lock = some p → (s.proc p).phase = .idle →
    (s.itable e).valid = true ∧ (s.itable e).d = s.disk (s.itable e).dev (s.itable e).inum ∧
      (s.itable e).d.type ≠ 0
  -- the type of an inode changes when `ialloc` takes a free inode, and when the process that has
  -- locked it to free it sets it to zero
  type : ∀ act t dev inum, Step ninodes s act t → (t.disk dev inum).type ≠ (s.disk dev inum).type →
    ∃ p, act = .step p ∧
      ((∃ type, (s.proc p).phase = .scan dev type inum ∧ (s.disk dev inum).type = 0) ∨
        ∃ e, (s.proc p).phase = .freed e ∧ (s.itable e).lock = some p ∧
          (s.itable e).dev = dev ∧ (s.itable e).inum = inum ∧ (t.disk dev inum).type = 0)
  -- and a process begins to free an inode when it has no links and nobody else has a reference
  frees : ∀ p e t, Step ninodes s (.iput p e) t → (t.proc p).phase = .itrunc e →
    (s.itable e).d.nlink = 0 ∧ ∀ q, q ≠ p → (s.proc q).refs e = 0

/-- **The inode table keeps its protocol in every interleaving.** -/
theorem itable_protocol {acts : List (Act Pid)} (init : Init s)
    (run : Run (Step ninodes) s acts t) : Protocol ninodes t := by
  have inv := init.run run
  refine ⟨inv.unique, inv.count, inv.holder, ?_, ?_, ?_, fun _ _ _ _ one => inv.type_change one,
    fun _ _ _ one => inv.iput_frees one⟩
  · intro p e allowed
    obtain ⟨-, holds, spare⟩ := allowed
    simp only [next, State.iput]
    split
    case isFalse => rfl
    case isTrue last =>
      have mine : (t.itable e).lock ≠ some p := by
        intro locked
        have := spare locked
        have := inv.refs_le p e
        omega
      rw [if_pos (inv.lock_of_ref_one holds last.1 mine)]
      rfl
  · intro e used valid free
    have fits := inv.fits e used valid
    simp only [State.holding, free] at fits
    exact fits.1
  · intro e p locked idle
    have valid := inv.valid e p locked (by simp [idle]) (by simp [idle])
    have fits := inv.fits e (inv.ref_pos (inv.holder e p locked)) valid
    simp only [State.holding, locked, idle] at fits
    exact ⟨valid, fits.1, fits.2⟩

/-! ## Two processes -/

/-- Two processes, and a disk of free inodes. -/
def blank : State Bool where
  disk _ _ := .zero
  itable _ := { dev := 0, inum := 0, ref := 0, lock := none, valid := false, d := .zero }
  proc _ := { refs := fun _ => 0, phase := .idle }

theorem blank_init : Init blank := ⟨fun _ => rfl, fun _ => rfl, fun _ _ => rfl, fun _ => rfl⟩

/-- One process has a reference to an inode that is free, the other calls `ialloc`. -/
def crossing : List (Act Bool) := [.iget false 1 1, .ialloc true 1 2]

theorem crossing_run : ∃ t, Run (Step 200) blank crossing t ∧
    (t.proc false).refs 0 = 1 ∧ (t.itable 0).dev = 1 ∧ (t.itable 0).inum = 1 ∧
    (t.itable 0).ref = 1 ∧ (t.proc false).phase = .idle ∧
    (t.proc true).phase = .scan 1 2 1 ∧ (t.disk 1 1).type = 0 := by
  refine ⟨_, (Run.single ⟨rfl, rfl⟩).tail ⟨⟨rfl, by decide⟩, rfl⟩, ?_⟩
  decide

/-- The new inode is locked and unlocked, and freed with the last reference. -/
def freeing : List (Act Bool) :=
  [.step true, .step true, .ilock true 0, .step true, .iunlock true 0, .iput false 0,
    .iput true 0] ++ List.replicate 7 (.step true)

theorem itable_protocol_freeing : ∃ t, Run (Step 200) blank (crossing ++ freeing) t ∧
    (∀ e, (t.itable e).ref = 0) ∧ (t.disk 1 1).type = 0 ∧ Protocol 200 t := by
  have run : ∃ t, Run (Step 200) blank (crossing ++ freeing) t ∧
      (∀ e, (t.itable e).ref = 0) ∧ (t.disk 1 1).type = 0 := by
    refine ⟨_, .cons ⟨rfl, rfl⟩ <| .cons ⟨⟨rfl, by decide⟩, rfl⟩ <| .cons ⟨trivial, rfl⟩ <|
      .cons ⟨trivial, rfl⟩ <| .cons ⟨⟨rfl, by decide⟩, rfl⟩ <| .cons ⟨trivial, rfl⟩ <|
      .cons ⟨⟨rfl, rfl⟩, rfl⟩ <| .cons ⟨⟨rfl, by decide, nofun⟩, rfl⟩ <|
      .cons ⟨⟨rfl, by decide, nofun⟩, rfl⟩ <| .cons ⟨trivial, rfl⟩ <| .cons ⟨trivial, rfl⟩ <|
      .cons ⟨trivial, rfl⟩ <| .cons ⟨trivial, rfl⟩ <| .cons ⟨trivial, rfl⟩ <|
      .cons ⟨trivial, rfl⟩ <| .cons ⟨trivial, rfl⟩ .refl, ?_⟩
    decide
  obtain ⟨t, run, unused, free⟩ := run
  exact ⟨t, run, unused, free, itable_protocol blank_init run⟩

/-- The type of an inode changes although another process has a reference, and nobody
frees it. -/
theorem type_changes_with_reference : ∃ t u, Run (Step 200) blank crossing t ∧
    Step 200 t (.step true) u ∧ 1 ≤ (t.proc false).refs 0 ∧
    (t.itable 0).dev = 1 ∧ (t.itable 0).inum = 1 ∧ (∀ p, (t.proc p).phase.entry = none) ∧
    (u.disk 1 1).type ≠ (t.disk 1 1).type := by
  obtain ⟨t, run, refs, dev, inum, -, idle, scan, free⟩ := crossing_run
  refine ⟨t, _, run, ⟨trivial, by simp only [next, State.step, scan, free]; rfl⟩, by omega, dev,
    inum, ?_, ?_⟩
  · intro p
    cases p
    · rw [idle, Phase.entry]
    · rw [scan, Phase.entry]
  · rw [write_go_eq, write_same, free]
    decide

end Xv6.Itable
