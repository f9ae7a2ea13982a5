import Xv6.Fs.Counts

/-!
# Open files and processes

The rules for the steps on the table of open files and on what a process has of
it. A reference to an inode belongs to the process while a file is being opened
or closed, and to the open file in between.
-/

namespace Xv6.Fs

open Function Local State

variable {Pid : Type} [DecidableEq Pid] [Fintype Pid] {sb : Super} {C : Setting Pid} {p : Pid}
  {l : Local Pid} {w : Option World} {e : Fin NINODE} {v : View} {s : State Pid}
  {gs : Pid → Local Pid} {N : Nat → Node} {own : Nat → Owner Pid} {i : Fin NFILE} {f g : File}
  {pr : Proc} {k : Int} {x : Option File}

theorem File.Same.refl (f : File) : f.Same f := ⟨rfl, rfl, rfl, rfl, rfl⟩

theorem File.Same.trans {h : File} (first : f.Same g) (second : g.Same h) : f.Same h :=
  ⟨first.type.trans second.type, first.readable.trans second.readable,
    first.writable.trans second.writable, first.ip.trans second.ip, first.major.trans second.major⟩

theorem File.Same.fileRef_eq (same : f.Same g) (e : Fin NINODE) : fileRef f e = fileRef g e := by
  unfold fileRef
  rw [same.type, same.ip]

theorem fileRef_of_none (type : f.type = .none) (e : Fin NINODE) : fileRef f e = 0 :=
  if_neg fun both => both.1 type

/-! ## The process itself -/

/-- The ghost value of a process whose slot changes: what it has in all stays the same. -/
def Local.reproc (l : Local Pid) (pr pr' : Proc) : Local Pid :=
  { l with
    proc := some pr'
    refs := fun e => l.refs e + cwdRef pr e - cwdRef pr' e
    files := fun i => l.files i + slotRef pr i - slotRef pr' i }

/-- The process table, when a process changes its own slot. -/
theorem Procs.reproc {procs : Pid → Proc} {proc : Pid → Option Proc}
    {child : Pid → Option (Pid × Proc)} {pr' : Proc} {now : Option Proc}
    (old : Procs procs proc child) (mine : proc p = some pr)
    (own : ∀ known, now = some known → pr' = known ∧ known.state = .runnable)
    (unused : pr'.state = .unused → pr'.cwd = none ∧ ∀ fd, pr'.ofile fd = none)
    (home : now = none → pr'.state = .runnable → pr'.cwd ≠ none) :
    Procs (update procs p pr') (update proc p now) child := by
  refine ⟨?_, ?_, old.single, ?_, ?_⟩
  · intro q prq known
    by_cases me : q = p
    · subst me
      rw [update_self] at known ⊢
      exact own prq known
    · rw [update_of_ne me] at known ⊢
      exact old.own q prq known
  · intro p' q prq known
    have young := old.young p' q prq known
    have other : q ≠ p := by
      rintro rfl
      obtain ⟨here, runs⟩ := old.own q pr mine
      rw [← young.1, here, runs] at young
      cases young.2
    rwa [update_of_ne other]
  · intro q state
    by_cases me : q = p
    · subst me
      rw [update_self] at state ⊢
      exact unused state
    · rw [update_of_ne me] at state ⊢
      exact old.unused q state
  · intro q idle state
    by_cases me : q = p
    · subst me
      rw [update_self] at idle state ⊢
      exact home idle state
    · rw [update_of_ne me] at idle state ⊢
      exact old.home q idle state

/-- **A process changes its own slot**, with the references in its hands. -/
theorem Core.reproc (core : Core sb s gs N own) (pr' : Proc)
    (proc : (gs p).proc = some pr) (state : pr'.state = .runnable) :
    Core sb (s.setProc p fun _ => pr') (update gs p ((gs p).reproc pr pr')) N
      own := by
  obtain ⟨here, runnable⟩ := core.procs.own p pr proc
  have inodes : share (s.setProc p fun _ => pr').procs
      (fun q => (update gs p ((gs p).reproc pr pr') q).refs) =
      share s.procs fun q => (gs q).refs := by
    funext q e
    unfold share
    by_cases me : q = p
    · subst me
      simp only [procs_self, update_self, Local.reproc, here]
      ring
    · simp only [procs_ne me, update_of_ne me]
  have slots : slotShare (s.setProc p fun _ => pr').procs
      (fun q => (update gs p ((gs p).reproc pr pr') q).files) =
      slotShare s.procs fun q => (gs q).files := by
    funext q i
    unfold slotShare
    by_cases me : q = p
    · subst me
      simp only [procs_self, update_self, Local.reproc, here]
      ring
    · simp only [procs_ne me, update_of_ne me]
  have procs : ∀ q, (update gs p ((gs p).reproc pr pr') q).proc =
      if q = p then some pr' else (gs q).proc := by
    intro q
    by_cases me : q = p
    · subst me
      simp [Local.reproc]
    · rw [update_of_ne me, if_neg me]
  have busy : ∀ q, (update gs p ((gs p).reproc pr pr') q).proc = none →
      (gs q).proc = none ∧ q ≠ p := by
    intro q idle
    rw [procs] at idle
    split at idle
    next => cases idle
    next other => exact ⟨idle, other⟩
  have known : ∀ q, (update gs p ((gs p).reproc pr pr') q).proc ≠ none →
      (gs q).proc ≠ none := by
    intro q some
    rw [procs] at some
    split at some
    next me => simp [me, proc]
    next => exact some
  have num : (fun q => (update gs p ((gs p).reproc pr pr') q).num) =
      fun q => (gs q).num := proj_same Local.num rfl
  have file : (fun q => (update gs p ((gs p).reproc pr pr') q).file) =
      fun q => (gs q).file := proj_same Local.file rfl
  have child : (fun q => (update gs p ((gs p).reproc pr pr') q).child) =
      fun q => (gs q).child := proj_same Local.child rfl
  refine core.recount rfl rfl rfl rfl rfl rfl (core.active p) core.table ?_ ?_ ?_
    (core.trans_same rfl rfl)
  · rw [inodes, slots, num]
    exact ⟨core.refs.count, core.refs.nonneg, core.refs.holder,
      fun q e j some => core.refs.num q e j (known q some), core.refs.sole⟩
  · rw [slots, file]
    refine ⟨core.files.count, core.files.nonneg, core.files.closed,
      fun q i f some => core.files.same q i f (known q some), core.files.kind, core.files.single,
      ?_, ?_⟩
    · intro q idle
      obtain ⟨idle, other⟩ := busy q idle
      rw [procs_ne other]
      exact core.files.opened q idle
    · intro q idle
      obtain ⟨idle, other⟩ := busy q idle
      rw [procs_ne other]
      exact core.files.resting q idle
  · rw [child, proj_update Local.proc]
    refine core.procs.reproc proc ?_ (fun unused => ?_) nofun
    · rintro _ ⟨⟩
      exact ⟨rfl, state⟩
    · rw [state] at unused
      cases unused

section

variable (proc : l.proc = some pr)
include proc

theorem safe_myproc :
    Safe sb C p (myproc p) l w fun found l' w' => found = pr ∧ l' = l ∧ w' = w := by
  refine safe_read fun s gs N own mine core known => ⟨_, rfl, ?_⟩
  subst mine
  exact (core.procs.own p pr proc).1

section

variable (runs : pr.state = .runnable)
include runs

theorem safe_setCwd (cwd : Option (Fin NINODE)) :
    Safe sb C p (setCwd p cwd) l w fun _ l' w' =>
      l' = l.reproc pr { pr with cwd := cwd } ∧ w' = w := by
  refine safe_ghost fun s gs N own mine core => ?_
  subst mine
  have here := (core.procs.own p pr proc).1
  have after := core.reproc { pr with cwd := cwd } proc runs
  refine ⟨(gs p).reproc pr { pr with cwd := cwd }, rfl, rfl, ?_, rfl⟩
  simpa only [setProc, here] using after

theorem safe_setOfile (fd : Fin NOFILE) (file : Option (Fin NFILE)) :
    Safe sb C p (setOfile p fd file) l w fun _ l' w' =>
      l' = l.reproc pr { pr with ofile := update pr.ofile fd file } ∧ w' = w := by
  refine safe_ghost fun s gs N own mine core => ?_
  subst mine
  have here := (core.procs.own p pr proc).1
  have after := core.reproc { pr with ofile := update pr.ofile fd file } proc runs
  refine ⟨(gs p).reproc pr { pr with ofile := update pr.ofile fd file }, rfl, rfl, ?_,
    rfl⟩
  simpa only [setProc, here] using after

theorem safe_fdalloc :
    Safe sb C p (fdalloc p i) l w fun found l' w' =>
      (match found with
      | some fd => pr.ofile fd = none ∧
          l' = l.reproc pr { pr with ofile := update pr.ofile fd (some i) }
      | none => l' = l) ∧ w' = w := by
  refine safe_ghost fun s gs N own mine core => ?_
  subst mine
  have here := (core.procs.own p pr proc).1
  simp only [here]
  cases found : (List.finRange NOFILE).find? fun fd => pr.ofile fd = none with
  | none =>
    refine ⟨gs p, rfl, rfl, ?_, rfl⟩
    rw [update_eq_self]
    exact core
  | some fd =>
    have after := core.reproc { pr with ofile := update pr.ofile fd (some i) } proc runs
    refine ⟨(gs p).reproc pr { pr with ofile := update pr.ofile fd (some i) }, rfl,
      rfl, ?_, by simpa using List.find?_some found, rfl⟩
    simpa only [setProc, here] using after

end

end

/-! ## The table of open files -/

theorem share_update (procs : Pid → Proc) (refs : Pid → Fin NINODE → Int) (r : Fin NINODE → Int) :
    share procs (update refs p r) = update (share procs refs) p fun e => cwdRef (procs p) e + r e :=
  funext fun q => apply_update (fun q r e => cwdRef (procs q) e + r e) refs p r q

theorem slotShare_update (procs : Pid → Proc) (files : Pid → Fin NFILE → Int)
    (r : Fin NFILE → Int) : slotShare procs (update files p r) =
      update (slotShare procs files) p fun j => slotRef (procs p) j + r j :=
  funext fun q => apply_update (fun q r j => slotRef (procs q) j + r j) files p r q

section

variable {itable : Fin NINODE → Inode Pid} {ftable : Fin NFILE → File} {proc : Pid → Option Proc}
  {inodes : Pid → Fin NINODE → Int} {files : Pid → Fin NFILE → Int} {b : Fin NFILE → Int}

/-- The inodes' counts, when `p` changes the open file `i` and takes or leaves its reference. -/
theorem Refs.refile {view : Pid → Fin NINODE → Option View} {num : Pid → Fin NINODE → Option Nat}
    {a : Fin NINODE → Int} {known : Fin NINODE → Option Nat}
    (refs : Refs itable ftable inodes files view proc num)
    (mine : ∀ e, a e = inodes p e + fileRef (ftable i) e - fileRef f e) (nonneg : ∀ e, 0 ≤ a e)
    (holder : ∀ e, view p e ≠ none →
      1 ≤ a e ∨ ∃ j, 1 ≤ b j ∧ fileRef (update ftable i f j) e = 1)
    (others : ∀ q, q ≠ p → 1 ≤ files q i → f.Same (ftable i))
    (knows : ∀ e n, known e = some n → num p e = some n ∧ a e ≤ inodes p e)
    (sole : ∀ q e v, view q e = some v → v.sole = true → fileRef f e = 0) :
    Refs itable (update ftable i f) (update inodes p a) (update files p b) view proc
      (update num p known) := by
  constructor
  case count =>
    intro e
    have shares : ∑ q, update inodes p a q e =
        ∑ q, inodes q e + (fileRef (ftable i) e - fileRef f e) := by
      refine sum_shift p ?_ fun q other => by rw [update_of_ne other]
      rw [update_self, mine]
      ring
    have opened : ∑ j, fileRef (update ftable i f j) e =
        ∑ j, fileRef (ftable j) e + (fileRef f e - fileRef (ftable i) e) := by
      refine sum_shift i ?_ fun j other => by rw [update_of_ne other]
      rw [update_self]
      ring
    rw [refs.count, shares, opened]
    ring
  case nonneg =>
    exact (forall_update_iff inodes fun _ share => ∀ e, 0 ≤ share e).mpr
      ⟨nonneg, fun q _ => refs.nonneg q⟩
  case holder =>
    intro q e viewed
    by_cases me : q = p
    · subst me
      simp only [update_self]
      exact holder e viewed
    · simp only [update_of_ne me]
      refine (refs.holder q e viewed).imp_right ?_
      rintro ⟨j, some, here⟩
      refine ⟨j, some, ?_⟩
      by_cases equal : j = i
      · subst equal
        rwa [update_self, (others q me some).fileRef_eq]
      · rwa [update_of_ne equal]
  case num =>
    intro q e n some knew share
    by_cases me : q = p
    · subst me
      rw [update_self] at knew share
      obtain ⟨before, le⟩ := knows e n knew
      exact refs.num q e n some before (share.trans le)
    · rw [update_of_ne me] at knew share
      exact refs.num q e n some knew share
  case sole =>
    intro q e v viewed isSole
    exact (forall_update_iff ftable fun _ f => fileRef f e = 0).mpr
      ⟨sole q e v viewed isSole, fun j _ => refs.sole q e v viewed isSole j⟩

/-- The open files, when `p` changes the file `i` and has `b` references to the files then. -/
theorem Files.refile {procs : Pid → Proc} {file : Pid → Fin NFILE → Option File}
    {known : Fin NFILE → Option File} (old : Files procs itable ftable files proc file N)
    (busy : proc p ≠ none) (elsewhere : ∀ j, j ≠ i → b j = files p j)
    (here : b i = files p i + k) (ref : (f.ref : Int) = (ftable i).ref + k) (nonneg : 0 ≤ b i)
    (knows : ∀ j g, known j = some g → (j = i ∧ f.Same g) ∨ (j ≠ i ∧ file p j = some g))
    (others : ∀ q, q ≠ p → 1 ≤ files q i → f.Same (ftable i))
    (closed : f.ref = 0 → f.type = .none)
    (kind : f.type ≠ .none → (N (itable f.ip).inum).d.type ≠ 0 ∧
      (f.writable = true → (N (itable f.ip).inum).d.type ≠ T_DIR))
    (alone : f.type = .none → ∀ q, q ≠ p → files q i ≤ 0) :
    Files procs itable (update ftable i f) (update files p b) proc (update file p known) N := by
  have away : ∀ q j, j ≠ i → update files p b q j = files q j := by
    intro q j other
    by_cases me : q = p
    · rw [me, update_self, elsewhere j other]
    · rw [update_of_ne me]
  constructor
  case count =>
    intro j
    by_cases same : j = i
    · subst same
      rw [update_self, ref, old.count]
      refine (sum_shift p ?_ fun q other => by rw [update_of_ne other]).symm
      rw [update_self, here]
    · rw [update_of_ne same, old.count]
      exact Finset.sum_congr rfl fun q _ => (away q j same).symm
  case nonneg =>
    refine (forall_update_iff files fun _ share => ∀ j, 0 ≤ share j).mpr
      ⟨fun j => ?_, fun q _ => old.nonneg q⟩
    by_cases same : j = i
    · rwa [same]
    · rw [elsewhere j same]
      exact old.nonneg p j
  case closed =>
    exact (forall_update_iff ftable fun _ f => f.ref = 0 → f.type = .none).mpr
      ⟨closed, fun j _ => old.closed j⟩
  case same =>
    intro q j g some knew share
    by_cases me : q = p
    · subst me
      rw [update_self] at knew
      rcases knows j g knew with ⟨rfl, same⟩ | ⟨other, before⟩
      · rwa [update_self]
      · rw [away q j other] at share
        rw [update_of_ne other]
        exact old.same q j g some before share
    · rw [update_of_ne me] at knew share
      have before := old.same q j g some knew share
      by_cases same : j = i
      · subst same
        rw [update_self]
        exact (others q me share).trans before
      · rwa [update_of_ne same]
  case kind =>
    exact (forall_update_iff ftable fun _ f => f.type ≠ .none →
      (N (itable f.ip).inum).d.type ≠ 0 ∧
        (f.writable = true → (N (itable f.ip).inum).d.type ≠ T_DIR)).mpr
      ⟨kind, fun j _ => old.kind j⟩
  case single =>
    intro j type q q' share share'
    by_cases same : j = i
    · subst same
      rw [update_self] at type
      have only : ∀ q, 1 ≤ update files p b q j → q = p := by
        intro q share
        by_contra other
        rw [update_of_ne other] at share
        exact absurd (alone type q other) (by omega)
      rw [only q share, only q' share']
    · rw [away _ j same] at share share'
      rw [update_of_ne same] at type
      exact old.single j type q q' share share'
  case opened =>
    intro q idle fd j slot
    by_cases same : j = i
    · subst same
      rw [update_self]
      intro type
      have none := alone type q (by rintro rfl; exact busy idle)
      have some : 0 < (List.finRange NOFILE).countP fun fd => (procs q).ofile fd = some j :=
        List.countP_pos_iff.mpr ⟨fd, List.mem_finRange fd, decide_eq_true slot⟩
      rw [old.resting q idle, slotRef] at none
      omega
    · rw [update_of_ne same]
      exact old.opened q idle fd j slot
  case resting =>
    intro q idle
    rw [update_of_ne (by rintro rfl; exact busy idle)]
    exact old.resting q idle

end

section

variable (core : Core sb s gs N own)
include core

/-- **An open file changes** by a process that has a reference to it, and takes or
leaves the reference to the inode. -/
theorem Core.refile {l' : Local Pid} {f' : File}
    (view : l'.view = (gs p).view) (loose : l'.loose = (gs p).loose)
    (making : l'.making = (gs p).making) (fresh : l'.fresh = (gs p).fresh)
    (running : l'.running = (gs p).running) (op : l'.op = (gs p).op)
    (proc : l'.proc = (gs p).proc) (child : l'.child = (gs p).child) (busy : (gs p).proc ≠ none)
    (files : l'.files = update (gs p).files i ((gs p).files i + k))
    (refs : ∀ e, l'.refs e = (gs p).refs e + fileRef (s.ftable i) e - fileRef f' e)
    (ref : (f'.ref : Int) = (s.ftable i).ref + k)
    (nonneg : 0 ≤ slotShare s.procs (fun q => (gs q).files) p i + k)
    (shares : ∀ e, 0 ≤ share s.procs (fun q => (gs q).refs) p e +
      fileRef (s.ftable i) e - fileRef f' e)
    (num : ∀ e j, l'.num e = some j →
      (gs p).num e = some j ∧ fileRef (s.ftable i) e ≤ fileRef f' e)
    (file : ∀ j g, l'.file j = some g → (j = i ∧ f'.Same g) ∨ (j ≠ i ∧ (gs p).file j = some g))
    (holder : ∀ e, (gs p).view e ≠ none →
      1 ≤ share s.procs (fun q => (gs q).refs) p e + fileRef (s.ftable i) e - fileRef f' e ∨
      (0 ≤ k ∧ f'.Same (s.ftable i)) ∨
      (fileRef f' e = 1 ∧ 1 ≤ slotShare s.procs (fun q => (gs q).files) p i + k))
    (others : ∀ q, q ≠ p → 1 ≤ slotShare s.procs (fun q => (gs q).files) q i →
      f'.Same (s.ftable i))
    (closed : f'.ref = 0 → f'.type = .none)
    (kind : f'.type ≠ .none → (N (s.itable f'.ip).inum).d.type ≠ 0 ∧
      (f'.writable = true → (N (s.itable f'.ip).inum).d.type ≠ T_DIR))
    (sole : ∀ q e v, (gs q).view e = some v → v.sole = true → fileRef f' e = 0)
    (alone : f'.type = .none → ∀ q, q ≠ p → slotShare s.procs (fun q => (gs q).files) q i ≤ 0) :
    Core sb (s.setFile i fun _ => f') (update gs p l') N own := by
  have inodes : ∀ e, cwdRef (s.procs p) e + l'.refs e =
      share s.procs (fun q => (gs q).refs) p e + fileRef (s.ftable i) e - fileRef f' e := by
    intro e
    rw [refs, share]
    ring
  have slots : slotRef (s.procs p) i + l'.files i =
      slotShare s.procs (fun q => (gs q).files) p i + k := by
    rw [files, update_self, slotShare]
    ring
  have elsewhere : ∀ j, j ≠ i → slotRef (s.procs p) j + l'.files j =
      slotShare s.procs (fun q => (gs q).files) p j := by
    intro j other
    rw [files, update_of_ne other, slotShare]
  have procs := proj_same Local.proc proc
  refine core.recount rfl rfl view loose making fresh
    (fun e viewed => running ▸ core.active p e viewed) core.table ?_ ?_ ?_ (core.trans_same op rfl)
  · rw [procs, proj_update Local.refs, proj_update Local.files, proj_update Local.num,
      share_update, slotShare_update]
    refine core.refs.refile inodes (fun e => (inodes e).symm ▸ shares e) (fun e viewed => ?_) others
      (fun e n knew => ?_) sole
    · rcases holder e viewed with some | ⟨more, same⟩ | ⟨here, some⟩
      · exact .inl ((inodes e).symm ▸ some)
      · refine (core.refs.holder p e viewed).imp (fun some => ?_) ?_
        · refine some.trans_eq (Eq.symm ((inodes e).trans ?_))
          rw [same.fileRef_eq, Int.add_sub_cancel]
        rintro ⟨j, some, here⟩
        by_cases equal : j = i
        · subst equal
          refine ⟨j, slots ▸ le_add_of_le_of_nonneg some more, ?_⟩
          rwa [update_self, same.fileRef_eq]
        · refine ⟨j, elsewhere j equal ▸ some, ?_⟩
          rwa [update_of_ne equal]
      · refine .inr ⟨i, slots.symm ▸ some, ?_⟩
        rwa [update_self]
    · obtain ⟨before, le⟩ := num e n knew
      exact ⟨before, (inodes e).trans_le (by omega)⟩
  · rw [procs, proj_update Local.files, proj_update Local.file, slotShare_update]
    exact core.files.refile busy elsewhere slots ref (slots.symm ▸ nonneg) file others closed kind
      alone
  · rw [procs, proj_same Local.child child]
    exact core.procs

/-- A process takes or drops references to an open file, and knows it. -/
def Local.addFile (l : Local Pid) (i : Fin NFILE) (k : Int) (f : Option File) : Local Pid :=
  { l with files := Function.update l.files i (l.files i + k), file := Function.update l.file i f }

theorem Core.slotShare_le : slotShare s.procs (fun q => (gs q).files) p i ≤ (s.ftable i).ref := by
  rw [core.files.count i]
  exact Finset.single_le_sum (f := fun q => slotShare s.procs (fun q => (gs q).files) q i)
    (fun q _ => core.files.nonneg q i) (Finset.mem_univ p)

theorem Core.only_sharer (one : (s.ftable i).ref ≤ 1)
    (mine : 1 ≤ slotShare s.procs (fun q => (gs q).files) p i) {q : Pid} (other : q ≠ p) :
    slotShare s.procs (fun q => (gs q).files) q i ≤ 0 := by
  have total := core.files.count i
  have both : slotShare s.procs (fun q => (gs q).files) q i +
      slotShare s.procs (fun q => (gs q).files) p i ≤
      ∑ q, slotShare s.procs (fun q => (gs q).files) q i :=
    Finset.add_le_sum (fun q _ => core.files.nonneg q i) (Finset.mem_univ q) (Finset.mem_univ p)
      other
  omega

theorem Core.file_ref_pos
    (mine : 1 ≤ slotShare s.procs (fun q => (gs q).files) p i) : 1 ≤ (s.ftable i).ref := by
  have := core.slotShare_le (p := p) (i := i)
  omega

end

/-- The knowledge of open files after a change of one of them. -/
theorem file_update (same : ∀ g, x = some g → f.Same g)
    (j : Fin NFILE) (g : File) (known : update l.file i x j = some g) :
    (j = i ∧ f.Same g) ∨ (j ≠ i ∧ l.file j = some g) := by
  by_cases here : j = i
  · subst here
    rw [update_self] at known
    exact .inl ⟨rfl, same g known⟩
  · rw [update_of_ne here] at known
    exact .inr ⟨here, known⟩

/-- A change of an open file that leaves all but the offset and the count. -/
theorem Core.refile_same (core : Core sb s gs N own) (f' : File)
    (busy : (gs p).proc ≠ none) (same : f'.Same (s.ftable i))
    (ref : (f'.ref : Int) = (s.ftable i).ref + k)
    (nonneg : 0 ≤ slotShare s.procs (fun q => (gs q).files) p i + k)
    (known : ∀ g, x = some g → f'.Same g)
    (proper : 0 ≤ k ∨ ∀ e, (gs p).view e ≠ none →
      1 ≤ share s.procs (fun q => (gs q).refs) p e)
    (closed : f'.ref = 0 → f'.type = .none)
    (alone : f'.type = .none → ∀ q, q ≠ p → slotShare s.procs (fun q => (gs q).files) q i ≤ 0) :
    Core sb (s.setFile i fun _ => f') (update gs p ((gs p).addFile i k x)) N own := by
  refine core.refile rfl rfl rfl rfl rfl rfl rfl rfl busy rfl ?_ ref nonneg ?_ ?_
    (file_update known) ?_ (fun _ _ _ => same) closed ?_ ?_ alone
  · intro e
    rw [same.fileRef_eq]
    show (gs p).refs e = _
    ring
  · intro e
    rw [same.fileRef_eq]
    have := core.refs.nonneg p e
    omega
  · intro e j num
    exact ⟨num, (same.fileRef_eq e).ge⟩
  · intro e viewed
    rcases proper with more | proper
    · exact .inr (.inl ⟨more, same⟩)
    · refine .inl ?_
      rw [same.fileRef_eq]
      have := proper e viewed
      omega
  · intro opened
    rw [same.type] at opened
    rw [same.ip, same.writable]
    exact core.files.kind i opened
  · intro q e v viewed isSole
    rw [same.fileRef_eq]
    exact core.refs.sole q e v viewed isSole i

theorem safe_filealloc (busy : l.proc ≠ none) : Safe sb C p filealloc l w fun found l' w' =>
      (match found with
      | some i => ¬ l.OwnFile i ∧ l'.OwnFile i ∧ ∃ f, f.type = .none ∧ l' = l.addFile i 1 (some f)
      | none => l' = l) ∧ w' = w := by
  refine safe_ghost fun s gs N own mine core => ?_
  subst mine
  cases found : (List.finRange NFILE).find? fun i => (s.ftable i).ref = 0 with
  | none =>
    refine ⟨gs p, rfl, rfl, ?_, rfl⟩
    rw [update_eq_self]
    exact core
  | some i =>
    have free : (s.ftable i).ref = 0 := by simpa using List.find?_some found
    have type := core.files.closed i free
    have unshared : ∀ q, slotShare s.procs (fun q => (gs q).files) q i = 0 := by
      intro q
      have nonneg := core.files.nonneg q i
      by_contra some
      have := core.file_ref_pos (p := q) (i := i) (by omega)
      omega
    have after := core.refile_same (p := p) (i := i) (k := 1) (x := some (s.ftable i))
      { s.ftable i with ref := 1 } busy ⟨rfl, rfl, rfl, rfl, rfl⟩ (by simp [free])
      (by rw [unshared]; omega) (by rintro _ ⟨⟩; exact ⟨rfl, rfl, rfl, rfl, rfl⟩)
      (.inl (by omega)) nofun (fun _ q _ => (unshared q).le)
    obtain ⟨pr, proc⟩ := Option.ne_none_iff_exists'.mp busy
    refine ⟨(gs p).addFile i 1 (some (s.ftable i)), rfl, rfl, after, ?_, ⟨pr, proc, ?_⟩, _,
      type, rfl⟩
    · intro mine
      have := core.own_slot mine
      have := unshared p
      omega
    have none := unshared p
    have none : slotRef pr i + (gs p).files i = 0 := by
      rw [← (core.procs.own p pr proc).1]
      exact none
    simp only [addFile, update_self]
    omega

section

variable (has : l.OwnFile i) (known : l.file i = some f)
include has known

theorem safe_filedup (opened : f.type ≠ .none) :
    Safe sb C p (filedup i) l w fun _ l' w' => l' = l.addFile i 1 (some f) ∧ w' = w := by
  refine safe_ghost fun s gs N own mine core => ?_
  subst mine
  have mine := core.own_slot has
  have positive := core.file_ref_pos mine
  have same := core.file_same known has
  obtain ⟨pr, proc, -⟩ := id has
  simp only [if_neg (show ¬ (s.ftable i).ref < 1 by omega)]
  have after := core.refile_same (p := p) (i := i) (k := 1) (x := some f)
    { s.ftable i with ref := (s.ftable i).ref + 1 } (by simp [proc])
    ⟨rfl, rfl, rfl, rfl, rfl⟩ (by simp) (by omega)
    (by rintro _ ⟨⟩; exact ⟨same.type, same.readable, same.writable, same.ip, same.major⟩)
    (.inl (by omega)) (fun zero => absurd zero (Nat.succ_ne_zero _))
    (fun type => absurd (same.type.symm.trans type) opened)
  exact ⟨(gs p).addFile i 1 (some f), rfl, rfl, after, rfl⟩

theorem safe_setOffset (opened : f.type ≠ .none) (off : File → Nat) :
    Safe sb C p (setFile i fun f => { f with off := off f }) l w fun _ l' w' =>
      l' = l ∧ w' = w := by
  refine safe_ghost fun s gs N own mine core => ?_
  subst mine
  have mine := core.own_slot has
  have positive := core.file_ref_pos mine
  have same := core.file_same known has
  obtain ⟨pr, proc, -⟩ := id has
  have after := core.refile_same (p := p) (i := i) (k := 0) (x := (gs p).file i)
    { s.ftable i with off := off (s.ftable i) } (by simp [proc])
    ⟨rfl, rfl, rfl, rfl, rfl⟩ (by simp) (by omega)
    (by
      rw [known]
      rintro _ ⟨⟩
      exact ⟨same.type, same.readable, same.writable, same.ip, same.major⟩)
    (.inl le_rfl) (fun zero => absurd zero (show (s.ftable i).ref ≠ 0 by omega))
    (fun type => absurd (same.type.symm.trans type) opened)
  have self : (gs p).addFile i 0 ((gs p).file i) = gs p := by
    simp [addFile]
  rw [self] at after
  exact ⟨gs p, rfl, rfl, after, rfl⟩

theorem safe_getFile :
    Safe sb C p (getFile i) l w fun found l' w' => found.Same f ∧ l' = l ∧ w' = w := by
  refine safe_read fun s gs N own mine core _ => ⟨_, rfl, ?_⟩
  subst mine
  exact core.file_same known has

/-- The section of `fileclose` under the lock of the table. -/
theorem safe_filecloseTest (proper : ∀ e, l.view e ≠ none → l.Own e) :
    Safe sb C p (filecloseTest i) l w fun last l' w' =>
      (match last with
      | none => l' = l.addFile i (-1) (some f)
      | some g => g.Same f ∧ ¬ (l.addFile i (-1) none).OwnFile i ∧
          ((f.type = .none ∧ l' = l.addFile i (-1) none) ∨
          (f.type ≠ .none ∧
            l' = (((l.addFile i (-1) none).addRef f.ip 1).setNum f.ip none)))) ∧ w' = w := by
  refine safe_ghost fun s gs N own mine core => ?_
  subst mine
  have mine := core.own_slot has
  have positive := core.file_ref_pos mine
  have same := core.file_same known has
  have owned : ∀ e, (gs p).view e ≠ none → 1 ≤ share s.procs (fun q => (gs q).refs) p e :=
    fun e viewed => core.own_share (proper e viewed)
  obtain ⟨pr, proc, -⟩ := id has
  simp only [if_neg (show ¬ (s.ftable i).ref < 1 by omega)]
  by_cases more : 1 < (s.ftable i).ref
  · simp only [if_pos more]
    have after := core.refile_same (p := p) (i := i) (k := -1) (x := some f)
      { s.ftable i with ref := (s.ftable i).ref - 1 } (by simp [proc])
      ⟨rfl, rfl, rfl, rfl, rfl⟩ (by simp; omega) (by omega)
      (by rintro _ ⟨⟩; exact ⟨same.type, same.readable, same.writable, same.ip, same.major⟩)
      (.inr owned) (fun zero => absurd zero (show (s.ftable i).ref - 1 ≠ 0 by omega)) ?_
    · exact ⟨(gs p).addFile i (-1) (some f), rfl, rfl, after, rfl⟩
    · intro type q other
      by_contra some
      exact other (core.files.single i type q p (by omega) mine)
  · simp only [if_neg more]
    have alone : ∀ q, q ≠ p → slotShare s.procs (fun q => (gs q).files) q i ≤ 0 :=
      fun q other => core.only_sharer (by omega) mine other
    have last : ¬ ((gs p).addFile i (-1) none).OwnFile i := by
      rintro ⟨pr', proc', some⟩
      have whole := core.slotShare_le (p := p) (i := i)
      simp only [slotShare, (core.procs.own p pr' proc').1] at whole
      simp only [addFile, update_self] at some
      omega
    by_cases type : f.type = .none
    · have closed := same.type.trans type
      have after := core.refile_same (p := p) (i := i) (k := -1) (x := none)
        { s.ftable i with ref := 0, type := .none } (by simp [proc])
        ⟨closed.symm, rfl, rfl, rfl, rfl⟩ (by simp; omega) (by omega) nofun (.inr owned)
        (fun _ => rfl) (fun _ => alone)
      exact ⟨(gs p).addFile i (-1) none, rfl, rfl, after, same, last, .inl ⟨type, rfl⟩⟩
    · have opened : (s.ftable i).type ≠ .none := by
        rw [same.type]
        exact type
      have ref : ∀ e, fileRef (s.ftable i) e = if e = f.ip then 1 else 0 := by
        intro e
        unfold fileRef
        rw [same.ip]
        by_cases here : f.ip = e
        · rw [if_pos ⟨opened, here⟩, if_pos here.symm]
        · rw [if_neg fun both => here both.2, if_neg fun equal => here equal.symm]
      have gone : ∀ e, fileRef ({ s.ftable i with ref := 0, type := .none } : File) e = 0 :=
        fun e => fileRef_of_none rfl e
      refine ⟨((((gs p).addFile i (-1) none).addRef f.ip 1).setNum f.ip none), rfl, rfl, ?_,
        same, last, .inr ⟨type, rfl⟩⟩
      refine core.refile (k := -1) rfl rfl rfl rfl rfl rfl rfl rfl (by simp [proc]) rfl ?_
        (by simp; omega) (by omega) ?_ ?_ (file_update nofun) ?_ ?_ (fun _ => rfl)
        (fun impossible => absurd rfl impossible) (fun _ e _ _ _ => gone e) (fun _ => alone)
      · intro e
        rw [gone, ref]
        simp only [setNum, addRef, addFile]
        by_cases here : e = f.ip
        · subst here
          simp
        · simp [here]
      · intro e
        rw [gone, ref]
        have := core.refs.nonneg p e
        split <;> omega
      · intro e j num
        simp only [setNum, addRef, addFile] at num
        by_cases here : e = f.ip
        · subst here
          simp at num
        · rw [update_of_ne here] at num
          rw [gone, ref, if_neg here]
          exact ⟨num, le_rfl⟩
      · intro e viewed
        refine .inl ?_
        rw [gone, ref]
        have := owned e viewed
        split <;> omega
      · intro q other some
        have := alone q other
        omega

/-- `sys_open` fills in the file it has allocated. The reference to the inode goes
to the file. -/
theorem safe_setOpened
    (unopened : f.type = .none) (viewed : l.view e = some v) (sole : v.sole = false)
    (owned : v.owned = true) (type : v.node.d.type ≠ 0) (owns : l.Own e)
    (proper : ∀ e', l.view e' ≠ none → e' = e) {change : File → File}
    (makes : ∀ h : File, h.Same f → (change h).Same g ∧ (change h).ref = h.ref) (ip : g.ip = e)
    (opened : g.type ≠ .none) (writable : g.writable = true → v.node.d.type ≠ T_DIR) :
    Safe sb C p (setFile i change) l w fun _ l' w' =>
      l' = (l.addFile i 0 (some g)).addRef e (-1) ∧ w' = w := by
  refine safe_ghost fun s gs N own mine core => ?_
  subst mine
  have mine := core.own_slot has
  have positive := core.file_ref_pos mine
  have same := core.file_same known has
  have agrees := core.agrees viewed
  have made := (makes (s.ftable i) same).1
  have none := same.type.trans unopened
  obtain ⟨pr, proc, -⟩ := id has
  have ref : ∀ e', fileRef (change (s.ftable i)) e' = if e' = e then 1 else 0 := by
    intro e'
    rw [made.fileRef_eq]
    unfold fileRef
    rw [ip]
    by_cases here : e = e'
    · rw [if_pos ⟨opened, here⟩, if_pos here.symm]
    · rw [if_neg fun both => here both.2, if_neg fun equal => here equal.symm]
  have zero : ∀ e', fileRef (s.ftable i) e' = 0 := fun e' => fileRef_of_none none e'
  have alone : ∀ q, q ≠ p → slotShare s.procs (fun q => (gs q).files) q i ≤ 0 := by
    intro q other
    by_contra some
    exact other (core.files.single i none q p (by omega) mine)
  have share := core.own_share owns
  refine ⟨((gs p).addFile i 0 (some g)).addRef e (-1), rfl, rfl, ?_, rfl⟩
  have after : Core sb (s.setFile i fun _ => change (s.ftable i))
      (update gs p (((gs p).addFile i 0 (some g)).addRef e (-1))) N own := by
    refine core.refile (k := 0) rfl rfl rfl rfl rfl rfl rfl rfl (by simp [proc]) rfl ?_
      (by rw [(makes _ same).2]; simp) (by omega) ?_ ?_
      (file_update (by rintro _ ⟨⟩; exact made)) ?_ ?_ ?_ ?_ ?_ ?_
    · intro e'
      rw [zero, ref]
      simp only [addRef, addFile]
      by_cases here : e' = e
      · subst here
        simp
        ring
      · simp [here]
    · intro e'
      rw [zero, ref]
      have := core.refs.nonneg p e'
      by_cases here : e' = e
      · subst here
        rw [if_pos rfl]
        omega
      · rw [if_neg here]
        omega
    · intro e' j num
      rw [zero]
      exact ⟨num, fileRef_nonneg _ e'⟩
    · intro e' viewed'
      obtain rfl := proper e' viewed'
      refine .inr (.inr ⟨?_, by omega⟩)
      rw [ref, if_pos rfl]
    · intro q other some
      have := alone q other
      omega
    · intro closed
      rw [(makes _ same).2] at closed
      omega
    · intro _
      rw [made.ip, ip, agrees.inum, agrees.node owned, made.writable]
      exact ⟨type, writable⟩
    · intro q e' v' viewed' isSole
      rw [ref]
      split
      next here =>
        subst here
        have first := core.lock viewed
        have second := core.lock viewed'
        rw [first] at second
        cases second
        rw [viewed] at viewed'
        cases viewed'
        rw [sole] at isSole
        cases isSole
      next => rfl
    · intro type
      rw [made.type] at type
      exact absurd type opened
  exact after

end

end Xv6.Fs
