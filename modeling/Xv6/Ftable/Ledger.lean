import Xv6.Ftable.Basic

/-!
# The ledger of open files

What the kernel owes. Every process owns some references to files: its descriptors, and
the files that a call of it has in its hands. `f->ref` is the sum over the processes
(`Counts`). Every reference to an inode or to an end of a pipe has one holder, a file, a
working directory or a call, until it is dropped (`Ledger`).
-/

namespace Xv6.Ftable

open Function Op

open Fs (NFILE NOFILE)

variable {ι π : Type} {n : Nat} {s t : State ι π n} {p : Fin n}

/-! ## Who has what -/

namespace Op

/-- The references to a file that a call has, apart from the descriptors. -/
def credit (f : Fin NFILE) : Op ι π n → Nat
  | .openFd _ _ g | .pipeSecond g | .pipeFd1 _ g _ | .fileclose g => if g = f then 1 else 0
  | .pipeMem g0 g1 | .pipeFd0 g0 g1 => (if g0 = f then 1 else 0) + if g1 = f then 1 else 0
  | _ => 0

/-- The files that a call has from `filealloc` and has not filled in. -/
def fresh (f : Fin NFILE) : Op ι π n → Nat
  | .openFd _ _ g | .openFill _ _ g | .pipeSecond g => if g = f then 1 else 0
  | .pipeMem g0 g1 => (if g0 = f then 1 else 0) + if g1 = f then 1 else 0
  | _ => 0

/-- The numbered references that a call has. -/
def serials (k : Nat) : Op ι π n → Nat
  | .openAlloc _ held | .openFd _ held _ | .openFill _ held _ | .iput held =>
    if held.serial = k then 1 else 0
  | .pipeclose _ _ serial => if serial = k then 1 else 0
  | _ => 0

/-- The descriptors without those that the call takes back, or has not paid for. -/
def after : Op ι π n → (Fin NOFILE → Option (Fin NFILE)) → Fin NOFILE → Option (Fin NFILE)
  | .clear fd _, ofile => update ofile fd none
  | .filedup _ new _, ofile => update ofile new none
  | _, ofile => ofile

/-- The slot that `fork` fills. -/
def child : Op ι π n → Option (Fin n)
  | .forkMem np | .forkFd np _ | .forkCwd np | .forkRun np => some np
  | _ => none

/-- How far `fork` has filled it. -/
def Builds (np : Proc ι π n) : Op ι π n → Prop
  | .forkMem _ => (∀ fd, np.ofile fd = none) ∧ np.cwd = none
  | .forkFd _ i => (∀ fd : Fin NOFILE, i ≤ fd.val → np.ofile fd = none) ∧ np.cwd = none
  | .forkCwd _ => np.cwd = none
  | .forkRun _ => np.cwd.isSome
  | _ => True

/-- A call has the reference that it says. -/
def Agrees (refs : List (Target ι π)) : Op ι π n → Prop
  | .openAlloc _ held | .openFd _ held _ | .openFill _ held _ | .iput held =>
    refs[held.serial]? = some (.inode held.ip)
  | .pipeclose pi writable serial => refs[serial]? = some (.pipe pi writable)
  | _ => True

/-- Nothing comes after it in a call, except what it adds itself. -/
def last : Op ι π n → Bool
  | .clear .. | .fileclose .. | .pipeclose .. | .iput .. => false
  | _ => true

/-- What is known of the descriptors and of `p->cwd`. -/
def Fits (cwd : Option (Held ι)) (ofile : Fin NOFILE → Option (Fin NFILE)) : Op ι π n → Prop
  | .clear fd f => ofile fd = some f
  | .fileclose .. | .pipeclose .. | .iput .. => True
  | .openFill _ _ f => cwd.isSome ∧ ∃ fd, ofile fd = some f
  | .pipeFd1 f0 _ fd0 => cwd.isSome ∧ ofile fd0 = some f0
  | .pipeCopy f0 f1 fd0 fd1 => cwd.isSome ∧ ofile fd0 = some f0 ∧ ofile fd1 = some f1 ∧ fd0 ≠ fd1
  | .dupFd fd f => cwd.isSome ∧ ofile fd = some f
  | .filedup fd new f => cwd.isSome ∧ ofile fd = some f ∧ ofile new = some f ∧ fd ≠ new
  | .exitFd i => cwd.isSome ∧ ∀ fd : Fin NOFILE, fd.val < i → ofile fd = none
  | .exitCwd => cwd.isSome ∧ ∀ fd, ofile fd = none
  | .exitZombie => cwd = none ∧ ∀ fd, ofile fd = none
  | _ => cwd.isSome

end Op

/-- The rest of a call can be done. -/
def Valid (cwd : Option (Held ι)) : (Fin NOFILE → Option (Fin NFILE)) → List (Op ι π n) → Prop
  | _, [] => cwd.isSome
  | ofile, op :: rest => op.Fits cwd ofile ∧ (op.last = true → rest = []) ∧
      (op.last = false → Valid cwd (op.after ofile) rest)

/-- The descriptors that count. -/
def kept (ofile : Fin NOFILE → Option (Fin NFILE)) (code : List (Op ι π n)) :
    Fin NOFILE → Option (Fin NFILE) :=
  code.foldl (fun ofile op => op.after ofile) ofile

namespace Proc

def owns (f : Fin NFILE) (P : Proc ι π n) : Nat :=
  tally (kept P.ofile P.code) f + (P.code.map (Op.credit f)).sum

def fresh (f : Fin NFILE) (P : Proc ι π n) : Nat := (P.code.map (Op.fresh f)).sum

def holds (k : Nat) (P : Proc ι π n) : Nat :=
  (if P.cwd.map Held.serial = some k then 1 else 0) + (P.code.map (Op.serials k)).sum

/-- A slot of the process table is in order. -/
def Ok (P : Proc ι π n) : Prop :=
  match P.status with
  | .live => Valid P.cwd P.ofile P.code
  | .used => P.code = []
  | .unused | .zombie => (∀ fd, P.ofile fd = none) ∧ P.cwd = none ∧ P.code = []

end Proc

def File.holds (k : Nat) (file : File ι π) : Nat :=
  if file.type ≠ .none ∧ file.serial = k then 1 else 0

/-- What an open file is about. -/
def File.target (file : File ι π) : Option (Target ι π) :=
  match file.type with
  | .none => none
  | .pipe => file.pipe.map fun pi => .pipe pi file.writable
  | .inode | .device => file.ip.map .inode

def File.Agrees (refs : List (Target ι π)) (file : File ι π) : Prop :=
  ∃ target, file.target = some target ∧ refs[file.serial]? = some target

/-- `f->ref` counts the references to `f`. -/
structure Counts (s : State ι π n) : Prop where
  refs : ∀ f, (s.file f).ref = ∑ p, (s.proc p).owns f
  closed : ∀ f, (s.file f).ref = 0 → (s.file f).type = .none
  once : ∀ f, ∑ p, (s.proc p).fresh f ≤ 1
  blank : ∀ f, 0 < ∑ p, (s.proc p).fresh f → (s.file f).type = .none

/-- A reference has one holder, or it has been dropped. -/
structure Ledger (s : State ι π n) : Prop where
  linear : ∀ k, ∑ f, (s.file f).holds k + ∑ p, (s.proc p).holds k + (s.dropped k).length =
    if k < s.refs.length then 1 else 0
  files : ∀ f, (s.file f).type ≠ .none → (s.file f).Agrees s.refs
  cwds : ∀ p held, (s.proc p).cwd = some held → s.refs[held.serial]? = some (.inode held.ip)
  ops : ∀ p, ∀ op ∈ (s.proc p).code, op.Agrees s.refs
  drops : ∀ k, ∀ x ∈ s.dropped k, s.refs[k]? = some x

structure Pages (s : State ι π n) : Prop where
  live : ∀ k pi writable, s.refs[k]? = some (.pipe pi writable) → s.dropped k = [] →
    ∃ pipe, s.pipes pi = some pipe ∧ pipe.number writable = k
  ends : ∀ pi pipe, s.pipes pi = some pipe → ∀ writable,
    s.refs[pipe.number writable]? = some (.pipe pi writable) ∧
      (pipe.isOpen writable = true ↔ s.dropped (pipe.number writable) = [])
  alive : ∀ pi pipe, s.pipes pi = some pipe →
    (pipe.readopen = true ∨ pipe.writeopen = true) ∧ s.freed pipe.serial = 0
  past : ∀ k pi, s.refs[k]? = some (.pipe pi false) →
    (∃ pipe, s.pipes pi = some pipe ∧ pipe.serial = k) ∨
    s.freed k = 1 ∧ s.refs[k + 1]? = some (.pipe pi true) ∧ s.dropped k ≠ [] ∧
      s.dropped (k + 1) ≠ []
  later : ∀ k, s.refs.length ≤ k → s.freed k = 0

structure Procs (s : State ι π n) : Prop where
  ok : ∀ p, (s.proc p).Ok
  builds : ∀ p np, ∀ op ∈ (s.proc p).code, op.child = some np →
    (s.proc np).status = .used ∧ op.Builds (s.proc np)
  unique : ∀ p q np, ∀ op ∈ (s.proc p).code, ∀ op' ∈ (s.proc q).code, op.child = some np →
    op'.child = some np → p = q

structure Sound (s : State ι π n) : Prop where
  counts : Counts s
  ledger : Ledger s
  pages : Pages s
  procs : Procs s
  panic : s.panic = false

/-! ## Codes -/

section

variable (ofile : Fin NOFILE → Option (Fin NFILE))
include ofile

@[simp]
theorem kept_nil : kept ofile ([] : List (Op ι π n)) = ofile := rfl

@[simp]
theorem kept_cons (op : Op ι π n)
    (rest : List (Op ι π n)) : kept ofile (op :: rest) = kept (op.after ofile) rest := rfl

end

theorem Valid.fresh_le {cwd : Option (Held ι)} (f : Fin NFILE) :
    ∀ (code : List (Op ι π n)) (ofile : Fin NOFILE → Option (Fin NFILE)), Valid cwd ofile code →
      (code.map (fresh f)).sum ≤ tally (kept ofile code) f + (code.map (credit f)).sum
  | [], _, _ => Nat.zero_le _
  | op :: rest, ofile, ⟨fits, ends, goes⟩ => by
      cases kind : op.last with
      | false =>
        have ih := fresh_le f rest (op.after ofile) (goes kind)
        have none : op.fresh f = 0 := by cases op <;> first | rfl | cases kind
        simp only [List.map_cons, List.sum_cons, kept_cons, none]
        omega
      | true =>
        obtain rfl := ends kind
        simp only [List.map_cons, List.map_nil, List.sum_cons, List.sum_nil, kept_cons, kept_nil]
        cases op with
        | openFill mode held g =>
          obtain ⟨-, fd, here⟩ := fits
          by_cases same : g = f
          · subst same
            have := tally_pos here
            simp only [fresh, after, if_true]
            omega
          · simp [fresh, same]
        | _ => simp [fresh, credit]

theorem Proc.Ok.fresh_le {P : Proc ι π n} (ok : P.Ok) (f : Fin NFILE) : P.fresh f ≤ P.owns f := by
  unfold Proc.Ok at ok
  unfold Proc.fresh Proc.owns
  split at ok
  · exact Valid.fresh_le f _ _ ok
  · simp [ok]
  · simp [ok.2.2]
  · simp [ok.2.2]

/-! ## One entry changes -/

section Change

variable {P' : Proc ι π n} {refs more : List (Target ι π)}

theorem Counts.change (counts : Counts s) (f : Fin NFILE) (file' : File ι π)
    (files : t.file = update s.file f file') (procs : t.proc = update s.proc p P')
    (owns : ∀ g, P'.owns g + (if g = f then (s.file f).ref else 0) =
      (s.proc p).owns g + if g = f then file'.ref else 0)
    (closed : file'.ref = 0 → file'.type = .none)
    (fresh : ∀ g, P'.fresh g ≤ (s.proc p).fresh g ∨ g = f ∧ P'.fresh g ≤ 1 ∧
      ∑ q, (s.proc q).fresh g = 0)
    (blank : file'.type ≠ .none → file'.type = (s.file f).type ∧ P'.fresh f ≤ (s.proc p).fresh f ∨
      P'.fresh f < (s.proc p).fresh f) : Counts t := by
  have file : ∀ g, t.file g = if g = f then file' else s.file g := by
    rw [files]
    exact fun g => update_apply ..
  have owned : ∀ g, ∑ q, (t.proc q).owns g + (s.proc p).owns g =
      ∑ q, (s.proc q).owns g + P'.owns g := by
    rw [procs]
    exact fun g => sum_update s.proc (Proc.owns g) p P'
  have news : ∀ g, ∑ q, (t.proc q).fresh g + (s.proc p).fresh g =
      ∑ q, (s.proc q).fresh g + P'.fresh g := by
    rw [procs]
    exact fun g => sum_update s.proc (Proc.fresh g) p P'
  have part : ∀ g, (s.proc p).fresh g ≤ ∑ q, (s.proc q).fresh g :=
    fun g => le_sum s.proc (Proc.fresh g) p
  refine ⟨fun g => ?_, fun g none => ?_, fun g => ?_, fun g some => ?_⟩
  · have total := counts.refs g
    have balance := owned g
    have change := owns g
    rw [file]
    split
    next same =>
      subst same
      simp only [if_true] at change
      omega
    next other =>
      simp only [if_neg other] at change
      omega
  · rw [file] at none ⊢
    split
    next same => exact closed (by rw [if_pos same] at none; exact none)
    next other => exact counts.closed g (by rw [if_neg other] at none; exact none)
  · have := news g
    have := part g
    have := counts.once g
    rcases fresh g with less | ⟨-, one, zero⟩ <;> omega
  · have balance := news g
    have bound := part g
    have once := counts.once g
    rw [file]
    split
    next same =>
      subst same
      by_contra typed
      rcases blank typed with ⟨kept, less⟩ | less
      · exact typed (kept.trans (counts.blank g (by omega)))
      · omega
    next other =>
      refine counts.blank g ?_
      rcases fresh g with less | ⟨same, -⟩
      · omega
      · exact absurd same other

theorem Counts.still (counts : Counts s) (files : t.file = s.file)
    (procs : t.proc = update s.proc p P') (owns : ∀ g, P'.owns g = (s.proc p).owns g)
    (fresh : ∀ g, P'.fresh g ≤ (s.proc p).fresh g) : Counts t := by
  refine counts.change 0 (s.file 0) (by rw [files, update_eq_self]) procs
    (fun g => by rw [owns]) (counts.closed 0) (fun g => .inl (fresh g)) fun _ => .inl ⟨rfl, fresh 0⟩

theorem Op.Agrees.mono {op : Op ι π n} (agrees : op.Agrees refs) : op.Agrees (refs ++ more) := by
  cases op <;> first
    | trivial
    | exact List.getElem?_append_left (List.getElem?_eq_some_iff.mp agrees).1 |>.trans agrees

theorem getElem?_mono {k : Nat} {x : Target ι π}
    (there : refs[k]? = some x) : (refs ++ more)[k]? = some x :=
  (List.getElem?_append_left (List.getElem?_eq_some_iff.mp there).1).trans there

theorem Ledger.change (ledger : Ledger s) (f : Fin NFILE) (file' : File ι π)
    (more : List (Target ι π)) (files : t.file = update s.file f file')
    (procs : t.proc = update s.proc p P') (refs : t.refs = s.refs ++ more)
    (balance : ∀ k, file'.holds k + P'.holds k + (t.dropped k).length +
        (if k < s.refs.length then 1 else 0) =
      (s.file f).holds k + (s.proc p).holds k + (s.dropped k).length +
        if k < t.refs.length then 1 else 0)
    (file : file'.type ≠ .none → file'.Agrees t.refs)
    (cwd : ∀ held, P'.cwd = some held → t.refs[held.serial]? = some (.inode held.ip))
    (ops : ∀ op ∈ P'.code, op.Agrees t.refs)
    (drops : ∀ k, ∀ x ∈ t.dropped k, x ∈ s.dropped k ∨ t.refs[k]? = some x) : Ledger t := by
  have placed : ∀ q, t.proc q = if q = p then P' else s.proc q := by
    rw [procs]
    exact fun q => update_apply ..
  refine ⟨fun k => ?_, fun g typed => ?_, fun q held => ?_, fun q op mem => ?_,
    fun k x mem => ?_⟩
  · have filed : ∑ g, (t.file g).holds k + (s.file f).holds k =
        ∑ g, (s.file g).holds k + file'.holds k := by
      rw [files]
      exact sum_update s.file (File.holds k) f file'
    have processes : ∑ q, (t.proc q).holds k + (s.proc p).holds k =
        ∑ q, (s.proc q).holds k + P'.holds k := by
      rw [procs]
      exact sum_update s.proc (Proc.holds k) p P'
    have total := ledger.linear k
    have change := balance k
    omega
  · have filed : t.file g = if g = f then file' else s.file g := by
      rw [files]
      exact update_apply ..
    rw [filed] at typed ⊢
    split
    next same => exact file (by rw [if_pos same] at typed; exact typed)
    next other =>
      obtain ⟨target, is, there⟩ := ledger.files g (by rw [if_neg other] at typed; exact typed)
      exact ⟨target, is, by rw [refs]; exact getElem?_mono there⟩
  · rw [placed]
    split
    · exact cwd held
    · intro here
      rw [refs]
      exact getElem?_mono (ledger.cwds q held here)
  · rw [placed] at mem
    split at mem
    · exact ops op mem
    · rw [refs]
      exact (ledger.ops q op mem).mono
  · rcases drops k x mem with old | new
    · rw [refs]
      exact getElem?_mono (ledger.drops k x old)
    · exact new

theorem Ledger.still (ledger : Ledger s) (files : t.file = s.file)
    (procs : t.proc = update s.proc p P') (refs : t.refs = s.refs)
    (dropped : t.dropped = s.dropped) (cwd : P'.cwd = (s.proc p).cwd)
    (holds : ∀ k, (P'.code.map (serials k)).sum = ((s.proc p).code.map (serials k)).sum)
    (ops : ∀ op ∈ P'.code, op.Agrees s.refs) : Ledger t := by
  refine ledger.change 0 (s.file 0) []
    (by rw [files, update_eq_self]) procs (by rw [refs, List.append_nil]) (fun k => ?_)
    (fun typed => ?_) (fun held here => ?_) (fun op mem => ?_) fun k x mem => ?_
  · rw [dropped, refs, Proc.holds, Proc.holds, cwd, holds]
  · rw [refs]; exact ledger.files 0 typed
  · rw [refs]; exact ledger.cwds p held (cwd ▸ here)
  · rw [refs]; exact ops op mem
  · rw [dropped] at mem; exact .inl mem

theorem Procs.change (procs : Procs s) (table : t.proc = update s.proc p P')
    (done : (s.proc p).status ≠ .used) (ok : P'.Ok)
    (children : ∀ op ∈ P'.code, ∀ np, op.child = some np →
      (s.proc np).status = .used ∧ op.Builds (s.proc np) ∧
        ∃ op' ∈ (s.proc p).code, op'.child = some np) : Procs t := by
  have placed : ∀ q, t.proc q = if q = p then P' else s.proc q := by
    rw [table]
    exact fun q => update_apply ..
  have stays : ∀ np, (s.proc np).status = .used → t.proc np = s.proc np := by
    intro np used
    rw [placed, if_neg]
    rintro rfl
    exact done used
  have before : ∀ q np, ∀ op ∈ (t.proc q).code, op.child = some np →
      ∃ op' ∈ (s.proc q).code, op'.child = some np := by
    intro q np op mem is
    rw [placed] at mem
    split at mem
    next same => rw [same]; exact (children op mem np is).2.2
    · exact ⟨op, mem, is⟩
  refine ⟨fun q => ?_, fun q np op mem is => ?_, fun q r np op mem op' member' is is' => ?_⟩
  · rw [placed]
    split
    · exact ok
    · exact procs.ok q
  · have old : (s.proc np).status = .used ∧ op.Builds (s.proc np) := by
      rw [placed] at mem
      split at mem
      · exact ⟨(children op mem np is).1, (children op mem np is).2.1⟩
      · exact procs.builds q np op mem is
    rw [stays np old.1]
    exact old
  · obtain ⟨a, hereA, isA⟩ := before q np op mem is
    obtain ⟨b, hereB, isB⟩ := before r np op' member' is'
    exact procs.unique q r np a hereA b hereB isA isB

theorem Pages.still (pages : Pages s) (refs : t.refs = s.refs) (dropped : t.dropped = s.dropped)
    (pipes : t.pipes = s.pipes) (freed : t.freed = s.freed) : Pages t := by
  constructor
  · rw [refs, dropped, pipes]; exact pages.live
  · rw [refs, dropped, pipes]; exact pages.ends
  · rw [freed, pipes]; exact pages.alive
  · rw [refs, dropped, pipes, freed]; exact pages.past
  · rw [refs, freed]; exact pages.later

end Change

end Xv6.Ftable
