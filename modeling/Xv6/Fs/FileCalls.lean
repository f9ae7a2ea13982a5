import Xv6.Fs.Create

/-!
# The system calls on descriptors

The calls begin and end with nothing in the hands of the process: no lock, no
reference beyond those of its descriptors and its directory, no transaction. Here
are the calls that work on open files, and `fork`.
-/

namespace Xv6.Fs

open Function Local

variable {Pid : Type} [DecidableEq Pid] [Fintype Pid] {sb : Super} {C : Setting Pid} {p : Pid}
  {l : Local Pid} {e : Fin NINODE} {v : View} {i : Fin NFILE} {pr : Proc} {f : File}
  {fd : Fin NOFILE} {w : Option World}

/-! ## The end of a call -/

/-- A process at the end of a call, or after `exit`. -/
def Ended (l : Local Pid) (w : Option World) : Prop :=
  w = none ∧ ((∃ pr, l.Clean ∧ l.Settled pr) ∨ l = Local.idle)

theorem Ended.done (ended : Ended l w) : (theory sb C).Done idle p l w := by
  obtain ⟨rfl, ⟨pr, clean, settled⟩ | rfl⟩ := ended
  · exact done_of_clean clean settled
  · intro s gs own inv
    rw [← own, update_eq_self]
    exact inv

theorem Ended.of_clean (clean : l.Clean) (settled : l.Settled pr) : Ended l none :=
  ⟨rfl, .inl ⟨pr, clean, settled⟩⟩

/-- The process in a transaction. -/
abbrev Local.begun (l : Local Pid) : Local Pid := { l with op := true }

/-- A process in a transaction that has nothing else in its hands. -/
def Local.Over (l : Local Pid) : Prop := l.op = true ∧ ({ l with op := false } : Local Pid).Clean

theorem safe_end (isOver : l.Over) (settled : l.Settled pr) (r : Result Pid) :
    Safe sb C p (endOp >>= fun _ => pure r) l none fun _ => Ended := by
  refine .after (safe_endOp isOver.1) fun _ => ?_
  exact .pure (.of_clean isOver.2 { settled with })

theorem Local.Settled.busy (settled : l.Settled pr) : l.proc ≠ none := by
  rw [settled.proc]
  nofun

theorem Local.own_of_fd (proc : l.proc = some pr)
    (there : pr.ofile fd = some i) (files : 0 ≤ l.files i) : l.OwnFile i := by
  refine ⟨pr, proc, ?_⟩
  have some : 0 < (List.finRange NOFILE).countP fun fd => pr.ofile fd = some i :=
    List.countP_pos_iff.mpr ⟨fd, List.mem_finRange fd, decide_eq_true there⟩
  unfold slotRef
  omega

/-! ## Descriptors -/

theorem safe_argfd (settled : l.Settled pr) (fd : Int) :
    Safe sb C p (argfd p fd) l w fun found l' w' =>
      (∀ fd i, found = some (fd, i) → pr.ofile fd = some i) ∧ l' = l ∧ w' = w := by
  refine .seq (safe_myproc settled.proc) ?_
  rintro _ _ _ ⟨rfl, rfl, rfl⟩
  split
  next bound =>
    refine .pure ⟨?_, rfl, rfl⟩
    intro fd' i here
    obtain ⟨j, there, same⟩ := Option.map_eq_some_iff.mp here
    cases same
    exact there
  next => exact .pure ⟨by simp, rfl, rfl⟩

/-- A call on a descriptor: the file is open, and the process has a reference to it. -/
theorem safe_onFile (clean : l.Clean) (settled : l.Settled pr) (fd : Int)
    {next : Fin NOFILE → Fin NFILE → Kernel Pid (Result Pid)}
    (calls : ∀ fd i f, pr.ofile fd = some i → l.file i = some f → f.type ≠ .none → l.OwnFile i →
      Safe sb C p (next fd i) l none fun _ => Ended) :
    Safe sb C p (argfd p fd >>= fun found => match found with
      | none => pure failed
      | some (fd, i) => next fd i) l none fun _ => Ended := by
  refine .seq (safe_argfd settled fd) ?_
  rintro found l w ⟨there, rfl, rfl⟩
  cases found with
  | none => exact .pure (.of_clean clean settled)
  | some result =>
    obtain ⟨fd, i⟩ := result
    have here := there fd i rfl
    obtain ⟨f, known, opened⟩ := settled.opened fd i here
    exact calls fd i f here known opened (own_of_fd settled.proc here (by rw [clean.files i]))

theorem safe_sysDup (clean : l.Clean) (settled : l.Settled pr) (fd : Int) :
    Safe sb C p (sysDup p fd) l none fun _ => Ended := by
  refine safe_onFile clean settled fd fun fd i f here known opened owns => ?_
  refine .seq (safe_fdalloc settled.proc settled.runs) ?_
  rintro found _ w ⟨after, rfl⟩
  cases found with
  | none =>
    obtain rfl := after
    exact .pure (.of_clean clean settled)
  | some fd' =>
    obtain ⟨free, rfl⟩ := after
    have counts := slotRef_update free i
    have owns' : (l.reproc pr { pr with
        ofile := update pr.ofile fd' (some i) }).OwnFile i := by
      obtain ⟨pr', proc, some⟩ := owns
      obtain rfl : pr' = pr := by
        rw [settled.proc] at proc
        exact (Option.some.inj proc).symm
      refine ⟨_, rfl, ?_⟩
      simp only [reproc]
      omega
    refine .after (safe_filedup owns' known opened) fun _ => ?_
    refine .pure ⟨rfl, .inl ⟨{ pr with ofile := update pr.ofile fd' (some i) }, ?_, ?_⟩⟩
    · refine { clean with refs := ?_, files := ?_ }
      · intro x
        simp only [addFile, reproc, cwdRef, clean.refs x]
        omega
      · intro j
        simp only [addFile, reproc]
        by_cases same : j = i
        · subst same
          rw [update_self, clean.files, counts, if_pos rfl]
          omega
        · rw [update_of_ne same, clean.files, counts, if_neg same]
          omega
    · refine ⟨rfl, settled.runs, settled.home, ?_⟩
      intro fd₁ j there
      simp only [addFile, reproc]
      by_cases same : j = i
      · subst same
        exact ⟨f, update_self .., opened⟩
      · rw [update_of_ne same]
        refine settled.opened fd₁ j ?_
        by_cases equal : fd₁ = fd'
        · subst equal
          simp only [update_self, Option.some.injEq] at there
          exact absurd there.symm same
        · simpa only [update_of_ne equal] using there

/-! ## Reading and writing -/

section

variable (lenient : Lenient C)
include lenient

/-- `filestat`, `fileread` and `filewrite` lock the inode of the file. -/
theorem safe_lockFile (running : l.running = true)
    (fresh : l.fresh = none) (owns : l.OwnFile i) (known : l.file i = some f)
    (opened : f.type ≠ .none) :
    Safe sb C p (ilock sb p f.ip) l none fun _ l' w' => w' = none ∧
      l.view f.ip = none ∧ ∃ v, l' = l.setView f.ip v ∧ Locked sb l none f.ip v := by
  refine (safe_ilock (.inr ⟨i, f, known, owns, opened, rfl⟩) (.inl lenient.waits) running
    (.inl lenient.waits) (.inl lenient.noType)).mono ?_
  rintro _ _ _ ⟨rfl, unviewed, v, -, rfl, locked⟩
  exact ⟨rfl, unviewed, v, lock_eq fresh, locked⟩

section

variable (clean : l.Clean)
include clean

theorem safe_sysFstat (settled : l.Settled pr) (fd : Int) (copied : Bool) :
    Safe sb C p (sysFstat sb p fd copied) l none fun _ => Ended := by
  refine safe_onFile clean settled fd fun fd i f here known opened owns => ?_
  refine .seq (safe_getFile owns known) ?_
  rintro found l w ⟨same, rfl, rfl⟩
  rw [same.ip, same.type, if_neg opened]
  refine .seq (safe_lockFile lenient clean.running clean.fresh owns known opened) ?_
  rintro _ _ _ ⟨rfl, unviewed, v, rfl, locked⟩
  refine .seq (safe_getInode view_set) ?_
  rintro ip _ _ ⟨-, rfl, rfl⟩
  refine .after (safe_iunlock view_set locked.settled clean.loose) fun _ => ?_
  rw [unview_setView unviewed]
  split
  · exact .pure (.of_clean clean settled)
  · exact .pure (.of_clean clean settled)

theorem safe_sysRead (settled : l.Settled pr) (fd : Int)
    (dst : Nat → Nat → Bool) (n : Int) (device : Option Int) :
    Safe sb C p (sysRead sb p fd dst n device) l none fun _ => Ended := by
  refine safe_onFile clean settled fd fun fd i f here known opened owns => ?_
  refine .seq (safe_getFile owns known) ?_
  rintro found l w ⟨same, rfl, rfl⟩
  split
  next => exact .pure (.of_clean clean settled)
  next =>
    rw [same.type]
    cases kind : f.type with
    | none => exact absurd kind opened
    | device =>
      simp only
      split
      · exact .pure (.of_clean clean settled)
      · exact .pure (.of_clean clean settled)
    | inode =>
      simp only
      rw [same.ip]
      refine .seq (safe_lockFile lenient clean.running clean.fresh owns known opened) ?_
      rintro _ _ _ ⟨rfl, unviewed, v, rfl, locked⟩
      refine .seq (safe_getFile (l := l.setView f.ip v) owns known) ?_
      rintro again _ _ ⟨same', rfl, rfl⟩
      rw [same'.ip]
      refine .seq (safe_readi view_set locked.owned
        locked.good.readable dst (by omega)) ?_
      rintro ⟨r, bytes⟩ _ _ ⟨⟨rfl, rfl⟩, -⟩
      simp only
      have unlock : Safe sb C p
          (iunlock p f.ip >>= fun _ => pure (Result.data r bytes : Result Pid)) (l.setView f.ip v)
              none
          fun _ => Ended := by
        refine .seq (safe_iunlock view_set locked.settled clean.loose) ?_
        rintro _ _ _ ⟨rfl, rfl⟩
        rw [unview_setView unviewed]
        exact .pure (.of_clean clean settled)
      split
      next =>
        refine .after (safe_setOffset (l := l.setView f.ip v) owns known opened _) fun _ => ?_
        exact unlock
      next => exact unlock

section

variable (owns : l.OwnFile i) (known : l.file i = some f) (opened : f.type ≠ .none)
  (writable : f.writable = true) (src : Source)
include owns known opened writable src

theorem safe_filewriteChunk {n1 : Nat} (small : n1 < 2 ^ 32) :
    Safe sb C p (filewriteChunk sb p i src n1) l none fun _ l' w' =>
      l' = l ∧ w' = none := by
  refine .after (safe_beginOp clean.op) fun _ => ?_
  refine .seq (safe_getFile (l := { l with op := true }) owns known) ?_
  rintro found _ _ ⟨same, rfl, rfl⟩
  rw [same.ip]
  refine .seq (safe_lockFile (l := { l with op := true }) lenient clean.running
    clean.fresh owns known opened) ?_
  rintro _ _ _ ⟨rfl, unviewed, v, rfl, locked⟩
  refine .seq (safe_getFile (l := l.begun.setView f.ip v) owns known) ?_
  rintro again _ _ ⟨same', rfl, rfl⟩
  rw [same'.ip]
  have unlock : ∀ (v' : View) (r : Int), Settled sb v' → Safe sb C p
      (iunlock p f.ip >>= fun _ => endOp >>= fun _ => pure r)
      (l.begun.setView f.ip v') none
      fun _ l' w' => l' = l ∧ w' = none := by
    intro v' r settled
    refine .after (safe_iunlock view_set settled clean.loose) fun _ => ?_
    rw [unview_setView unviewed]
    refine .after (safe_endOp rfl) fun _ => ?_
    refine .pure ⟨?_, rfl⟩
    rw [← clean.op]
  have finish : ∀ (v' : View) (r : Int), Settled sb v' → Safe sb C p
      (if 0 < r then setFile i (fun f => { f with off := (f.off + r.toNat) % 2 ^ 32 }) >>= fun _ =>
          iunlock p f.ip >>= fun _ => endOp >>= fun _ => pure r
        else iunlock p f.ip >>= fun _ => endOp >>= fun _ => pure r)
      (l.begun.setView f.ip v') none
      fun _ l' w' => l' = l ∧ w' = none := by
    intro v' r settled
    split
    next =>
      refine .after (safe_setOffset (l := l.begun.setView f.ip v') owns known opened _) fun _ => ?_
      exact unlock v' r settled
    next => exact unlock v' r settled
  refine .seq (safe_writei view_set locked.owned rfl
    locked.good.readable locked.type src small) ?_
  rintro r _ _ (⟨-, -, rfl, rfl⟩ | ⟨-, tot, -, -, n', F, rfl, rfl, written, -⟩)
  · exact finish v r locked.settled
  · rw [setView_twice]
    refine finish _ r ⟨locked.owned, rfl, ?_⟩
    have type : n'.d.type = v.node.d.type := by rw [written.fields]
    refine written.readable.good (by rw [type]; exact locked.type) fun dir => ?_
    exact absurd (type.symm.trans dir) (locked.file i f known owns opened rfl writable)

theorem safe_filewriteLoop (n fuel done : Nat) :
    Safe sb C p (filewriteLoop sb p i src n fuel done) l none fun _ l' w' =>
      l' = l ∧ w' = none := by
  induction fuel generalizing done with
  | zero => exact .pure ⟨rfl, rfl⟩
  | succ fuel ih =>
    unfold filewriteLoop
    split
    next =>
      have small : min (n - done) maxWrite < 2 ^ 32 :=
        (Nat.min_le_right ..).trans_lt (by decide)
      refine .seq (safe_filewriteChunk lenient clean owns known opened writable
        (src.drop done) small) ?_
      rintro r _ _ ⟨rfl, rfl⟩
      split
      next => exact ih _
      next => exact .pure ⟨rfl, rfl⟩
    next => exact .pure ⟨rfl, rfl⟩

end

theorem safe_sysWrite (settled : l.Settled pr) (fd : Int)
    (src : Source) (n : Int) (device : Option Int) :
    Safe sb C p (sysWrite sb p fd src n device) l none fun _ => Ended := by
  refine safe_onFile clean settled fd fun fd i f here known opened owns => ?_
  refine .seq (safe_getFile owns known) ?_
  rintro found l w ⟨same, rfl, rfl⟩
  split
  next => exact .pure (.of_clean clean settled)
  next writable =>
    rw [same.writable, Bool.not_eq_false] at writable
    rw [same.type]
    cases kind : f.type with
    | none => exact absurd kind opened
    | device =>
      simp only
      split
      · exact .pure (.of_clean clean settled)
      · exact .pure (.of_clean clean settled)
    | inode =>
      simp only
      refine .seq (safe_filewriteLoop lenient clean owns known opened writable src _ _ _) ?_
      rintro done _ _ ⟨rfl, rfl⟩
      split
      · exact .pure (.of_clean clean settled)
      · exact .pure (.of_clean clean settled)

end

end

/-! ## Closing -/

theorem safe_fileclose_unopened (owns : l.OwnFile i) (known : l.file i = some f)
    (unopened : f.type = .none) (proper : ∀ e, l.view e ≠ none → l.Own e) :
    Safe sb C p (fileclose sb p i) l none fun _ l' w' => w' = none ∧
      ∃ x, l' = l.addFile i (-1) x := by
  refine .seq (safe_filecloseTest owns known proper) ?_
  rintro last _ _ ⟨after, rfl⟩
  cases last with
  | none => exact .pure ⟨rfl, some f, after⟩
  | some g =>
    obtain ⟨same, -, ⟨-, rfl⟩ | ⟨opened, -⟩⟩ := after
    · simp only
      rw [if_pos (same.type.trans unopened)]
      exact .pure ⟨rfl, none, rfl⟩
    · exact absurd unopened opened

theorem safe_fileclose (outside : l.op = false) (views : ∀ e, l.view e = none)
    (loose : ∀ b, l.loose b = none) (fresh : l.fresh = none) (making : l.making = none)
    (running : l.running = true) (nonneg : ∀ e, 0 ≤ l.refs e) (owns : l.OwnFile i)
    (known : l.file i = some f) (opened : f.type ≠ .none) :
    Safe sb C p (fileclose sb p i) l none fun _ l' w' => w' = none ∧
      ∃ x num, (x = some f ∨ ¬ (l.addFile i (-1) none).OwnFile i) ∧
        l' = { l.addFile i (-1) x with num := num } := by
  refine .seq (safe_filecloseTest owns known fun e viewed => absurd (views e) viewed) ?_
  rintro last _ _ ⟨after, rfl⟩
  cases last with
  | none => exact .pure ⟨rfl, some f, l.num, .inl rfl, after⟩
  | some g =>
    obtain ⟨same, unowned, ⟨unopened, -⟩ | ⟨-, rfl⟩⟩ := after
    · exact absurd unopened opened
    · simp only
      rw [if_neg (by rw [same.type]; exact opened), same.ip]
      refine .after (safe_beginOp outside) fun _ => ?_
      obtain ⟨pr, proc, -⟩ := owns
      have has : ({ ((l.addFile i (-1) none).addRef f.ip 1).setNum f.ip none with
          op := true } : Local Pid).Own f.ip := by
        refine ⟨pr, proc, ?_⟩
        have := nonneg f.ip
        simp only [setNum, addRef, addFile, update_self]
        unfold cwdRef
        split <;> omega
      refine .seq (safe_iput_walks ⟨views, rfl, running, loose, fresh, making, ?_⟩ has) ?_
      · show l.proc ≠ none
        rw [proc]
        simp
      rintro _ _ _ ⟨rfl, rfl⟩
      refine (safe_endOp rfl).mono ?_
      rintro _ _ _ ⟨rfl, rfl⟩
      refine ⟨rfl, none, update l.num f.ip none, .inr unowned, ?_⟩
      rw [addRef_eq_move]
      simp only [move, setNum, addFile, ← outside]
      congr 1
      funext x
      ring

/-- A descriptor is given up: the reference to the file is in the hand. -/
theorem slotRef_clear (there : pr.ofile fd = some i) (j : Fin NFILE) :
    slotRef pr j = slotRef { pr with ofile := update pr.ofile fd none } j +
      if j = i then 1 else 0 := by
  have free : ({ pr with ofile := update pr.ofile fd none } : Proc).ofile fd = none :=
    update_self ..
  have back := slotRef_update free i j
  rw [← back]
  congr 2
  rw [update_idem, ← there, update_eq_self]

/-- A process that has closed a descriptor, whether the file or the slot went first. -/
theorem closed_of (l' : Local Pid) {x : Option File}
    (clean : l.Clean) (settled : l.Settled pr) (opened : f.type ≠ .none)
    (kept : x = some f ∨ ¬ 1 ≤ slotRef { pr with ofile := update pr.ofile fd none } i)
    (refs : ∀ e, l'.refs e = 0) (files : ∀ j, l'.files j = 0)
    (same : l' = { l with
      proc := some { pr with ofile := update pr.ofile fd none }
      refs := l'.refs
      files := l'.files
      file := update l.file i x
      num := l'.num }) : l'.Clean ∧ l'.Settled { pr with ofile := update pr.ofile fd none } := by
  rw [same]
  refine ⟨{ clean with refs := refs, files := files }, rfl, settled.runs, settled.home, ?_⟩
  intro fd' j here
  by_cases equal : j = i
  · subst equal
    rcases kept with rfl | unowned
    · exact ⟨f, update_self .., opened⟩
    · obtain ⟨pr', proc, some⟩ := own_of_fd (l := { l with
        proc := some { pr with ofile := update pr.ofile fd none } }) rfl here
        (by rw [clean.files j])
      cases proc
      simp only [clean.files j] at some
      exact absurd (by omega) unowned
  · have old : pr.ofile fd' = some j := by
      by_cases equal' : fd' = fd
      · subst equal'
        simp at here
      · simpa only [update_of_ne equal'] using here
    show ∃ f, update l.file i x j = some f ∧ _
    rw [update_of_ne equal]
    exact settled.opened fd' j old

section

variable (clean : l.Clean) (settled : l.Settled pr)
include clean settled

theorem safe_sysClose (fd : Int) : Safe sb C p (sysClose sb p fd) l none fun _ => Ended := by
  refine safe_onFile clean settled fd fun fd i f here known opened owns => ?_
  refine .after (safe_setOfile settled.proc settled.runs fd none) fun _ => ?_
  have counts := slotRef_clear here
  have owns' : (l.reproc pr { pr with ofile := update pr.ofile fd none }).OwnFile i := by
    refine ⟨_, rfl, ?_⟩
    obtain ⟨pr', proc, some⟩ := owns
    obtain rfl : pr' = pr := by
      rw [settled.proc] at proc
      exact (Option.some.inj proc).symm
    simp only [reproc]
    omega
  refine .seq (safe_fileclose clean.op clean.view clean.loose clean.fresh clean.making
    clean.running ?_ owns' known opened) ?_
  · intro e
    simp only [reproc, cwdRef, clean.refs e]
    omega
  rintro _ _ _ ⟨rfl, x, num, kept, rfl⟩
  have gone : x = some f ∨ ¬ 1 ≤ slotRef { pr with ofile := update pr.ofile fd none } i := by
    refine kept.imp_right fun unowned some => unowned ⟨_, rfl, ?_⟩
    have := counts i
    simp only [addFile, reproc, update_self, clean.files, if_true] at *
    omega
  have closed := closed_of (f := f)
    { (l.reproc pr { pr with ofile := update pr.ofile fd none }).addFile i (-1) x with
      num := num } clean settled opened gone ?_ ?_ rfl
  · exact .pure (.of_clean closed.1 closed.2)
  · intro e
    simp only [addFile, reproc, cwdRef, clean.refs e]
    omega
  · intro j
    have := counts j
    simp only [addFile, reproc]
    by_cases equal : j = i
    · subst equal
      rw [update_self, clean.files]
      rw [if_pos rfl] at this
      omega
    · rw [update_of_ne equal, clean.files]
      rw [if_neg equal] at this
      omega

/-! ## `fork` and `exit` -/

theorem safe_fork (child : Option Pid) : Safe sb C p (fork p child) l none fun _ => Ended := by
  cases child with
  | none => exact .pure (.of_clean clean settled)
  | some child =>
    refine .seq (safe_allocproc child) ?_
    rintro found _ _ ⟨⟨rfl, young, state, cwd, ofile, rfl⟩ | ⟨rfl, rfl⟩, rfl⟩
    · rw [if_pos rfl]
      refine .seq (safe_myproc (l := { l with child := some (child, young) }) settled.proc) ?_
      rintro proc _ _ ⟨same, rfl, rfl⟩
      subst same
      have others : ∀ young' : Proc, (∀ fd j, young'.ofile fd = some j → proc.ofile fd = some j) →
          ∀ fd j, young'.ofile fd = some j → ∃ g,
            ({ l with child := some (child, young') } : Local Pid).OwnFile j ∧
            l.file j = some g ∧ g.type ≠ .none := by
        intro young' files fd j here
        obtain ⟨g, known, opened⟩ := settled.opened fd j (files fd j here)
        exact ⟨g, own_of_fd (l := l) settled.proc (files fd j here)
          (by rw [clean.files j]), known, opened⟩
      refine .seq (show Safe sb C p _ _ _ (fun _ l' w' => w' = none ∧ ∃ young' : Proc,
        l' = { l with child := some (child, young') } ∧ young'.cwd = none ∧
        ∀ fd j, young'.ofile fd = some j → proc.ofile fd = some j) from ?_) ?_
      · refine (Theory.Safe.forEach (fun rest l' w' => rest.Nodup ∧ w' = none ∧
          ∃ young' : Proc, l' = { l with child := some (child, young') } ∧ young'.cwd = none ∧
          (∀ fd ∈ rest, young'.ofile fd = none) ∧
          ∀ fd j, young'.ofile fd = some j → proc.ofile fd = some j)
          ⟨List.nodup_finRange _, rfl, young, rfl, cwd, fun fd _ => ofile fd,
            fun fd j here => by rw [ofile] at here; cases here⟩ ?_).mono ?_
        · rintro fd rest _ _ ⟨nodup, rfl, young', rfl, cwd', free, files⟩
          have free' := free fd (List.mem_cons_self ..)
          unfold forkFiles
          cases here : proc.ofile fd with
          | none =>
            exact .pure ⟨nodup.of_cons, rfl, young', rfl, cwd',
              fun g mem => free g (List.mem_cons_of_mem _ mem), files⟩
          | some i =>
            obtain ⟨f, known, opened⟩ := settled.opened fd i here
            have owns : l.OwnFile i :=
              own_of_fd settled.proc here (by rw [clean.files i])
            refine (safe_forkFile (l := { l with child := some (child, young') }) rfl
              (others young' files) free' owns known opened).mono ?_
            rintro _ _ _ ⟨rfl, rfl⟩
            refine ⟨nodup.of_cons, rfl, _, rfl, cwd', ?_, ?_⟩
            · intro g mem
              have apart : g ≠ fd := by
                rintro rfl
                exact (List.nodup_cons.mp nodup).1 mem
              simp only [update_of_ne apart]
              exact free g (List.mem_cons_of_mem _ mem)
            · intro g j there
              by_cases equal : g = fd
              · subst equal
                simp only [update_self] at there
                exact here.trans there
              · simp only [update_of_ne equal] at there
                exact files g j there
        · rintro _ _ _ ⟨-, rfl, young', rfl, cwd', -, files⟩
          exact ⟨rfl, young', rfl, cwd', files⟩
      · rintro _ _ _ ⟨rfl, young', rfl, cwd', files⟩
        obtain ⟨e, home⟩ := Option.ne_none_iff_exists'.mp settled.home
        rw [home]
        have has : l.Own e := by
          refine ⟨proc, settled.proc, ?_⟩
          unfold cwdRef
          rw [if_pos home, clean.refs e]
          omega
        refine .after (safe_forkCwd (l := { l with child := some (child, young') }) rfl
          (others young' files) cwd' has) fun _ => ?_
        refine .after (safe_setRunnable (l := { l with
          child := some (child, { young' with cwd := some e }) }) rfl
          (others { young' with cwd := some e } files) (by simp)) fun _ => ?_
        have back : ({ l with child := none } : Local Pid) = l := by
          rw [← clean.child]
        refine .pure ⟨rfl, .inl ⟨proc, ?_, ?_⟩⟩
        · exact back.symm ▸ clean
        · exact back.symm ▸ settled
    · rw [if_neg Bool.false_ne_true]
      exact .pure (.of_clean clean settled)

theorem safe_exitFile (fd : Fin NOFILE) :
    Safe sb C p (exitFile sb p fd) l none fun _ l' w' => w' = none ∧ l'.Clean ∧
      l'.Settled { pr with ofile := update pr.ofile fd none } := by
  refine .seq (safe_myproc settled.proc) ?_
  rintro proc l w ⟨rfl, rfl, rfl⟩
  cases here : proc.ofile fd with
  | none =>
    have same : ({ proc with ofile := update proc.ofile fd none } : Proc) = proc := by
      rw [← here, update_eq_self]
    exact .pure ⟨rfl, clean, same.symm ▸ settled⟩
  | some i =>
    obtain ⟨f, known, opened⟩ := settled.opened fd i here
    have owns : l.OwnFile i := own_of_fd settled.proc here (by rw [clean.files i])
    have counts := slotRef_clear here
    refine .seq (safe_fileclose clean.op clean.view clean.loose clean.fresh
      clean.making clean.running (fun e => (clean.refs e).ge) owns known opened) ?_
    rintro _ _ _ ⟨rfl, x, num, kept, rfl⟩
    have gone : x = some f ∨ ¬ 1 ≤ slotRef { proc with ofile := update proc.ofile fd none } i := by
      refine kept.imp_right fun unowned some => unowned ⟨proc, settled.proc, ?_⟩
      have := counts i
      rw [if_pos rfl] at this
      simp only [addFile, update_self, clean.files]
      omega
    refine (safe_setOfile (l := { l.addFile i (-1) x with num := num }) settled.proc
      settled.runs fd none).mono ?_
    rintro _ _ _ ⟨rfl, rfl⟩
    refine ⟨rfl, closed_of (f := f) _ clean settled opened gone ?_ ?_ rfl⟩
    · intro e
      simp only [addFile, reproc, cwdRef, clean.refs e]
      omega
    · intro j
      have := counts j
      simp only [addFile, reproc]
      by_cases equal : j = i
      · subst equal
        rw [update_self, clean.files]
        rw [if_pos rfl] at this
        omega
      · rw [update_of_ne equal, clean.files]
        rw [if_neg equal] at this
        omega

end

theorem cwdRef_eq_one (home : pr.cwd = some e) (x : Fin NINODE) : cwdRef pr x = one e x := by
  unfold cwdRef one
  rw [home]
  by_cases here : x = e
  · rw [if_pos here, if_pos (congrArg some here.symm)]
  · rw [if_neg here, if_neg fun same => here (Option.some.inj same).symm]

theorem safe_putCwd (walks : l.Walks) (settled : l.Settled pr) (nonneg : ∀ x, 0 ≤ l.refs x) :
    Safe sb C p (putCwd sb p) l none fun _ l' w' => w' = none ∧
      ∃ e, pr.cwd = some e ∧ l' = l.move (fun x => - one e x) l.num := by
  refine .seq (safe_myproc settled.proc) ?_
  rintro proc l w ⟨rfl, rfl, rfl⟩
  obtain ⟨e, home⟩ := Option.ne_none_iff_exists'.mp settled.home
  rw [home]
  have has : l.Own e := by
    refine ⟨proc, settled.proc, ?_⟩
    have := nonneg e
    unfold cwdRef
    rw [if_pos home]
    omega
  refine (safe_iput_walks walks has).mono ?_
  rintro _ _ _ ⟨rfl, rfl⟩
  exact ⟨rfl, e, rfl, rfl⟩

theorem Local.Clean.walks (clean : l.Clean) (busy : l.proc ≠ none) : l.begun.Walks :=
  ⟨clean.view, rfl, clean.running, clean.loose, clean.fresh, clean.making, busy⟩

theorem Local.Settled.inOp (settled : l.Settled pr) (op : Bool) :
    ({ l with op := op } : Local Pid).Settled pr :=
  { settled with }

theorem safe_exit (clean : l.Clean) (settled : l.Settled pr) :
    Safe sb C p (exit sb p) l none fun _ => Ended := by
  refine .seq (show Safe sb C p _ _ _ (fun _ l' w' => w' = none ∧ l'.Clean ∧
    ∃ pr', l'.Settled pr' ∧ ∀ fd, pr'.ofile fd = none) from ?_) ?_
  · refine (Theory.Safe.forEach (fun rest l' w' => w' = none ∧ l'.Clean ∧ ∃ pr', l'.Settled pr' ∧
      ∀ fd, fd ∉ rest → pr'.ofile fd = none)
      ⟨rfl, clean, pr, settled, fun fd absent => absurd (List.mem_finRange fd) absent⟩ ?_).mono ?_
    · rintro fd rest _ _ ⟨rfl, clean', pr', settled', closed⟩
      refine (safe_exitFile clean' settled' fd).mono ?_
      rintro _ _ _ ⟨rfl, clean'', settled''⟩
      refine ⟨rfl, clean'', _, settled'', fun g absent => ?_⟩
      by_cases equal : g = fd
      · subst equal
        exact update_self ..
      · show update pr'.ofile fd none g = none
        rw [update_of_ne equal]
        exact closed g (by simp [equal, absent])
    · rintro _ _ _ ⟨rfl, clean', pr', settled', closed⟩
      exact ⟨rfl, clean', pr', settled', fun fd => closed fd (List.not_mem_nil)⟩
  · rintro _ l _ ⟨rfl, clean, pr, settled, closed⟩
    refine .after (safe_beginOp clean.op) fun _ => ?_
    refine .seq (safe_putCwd (clean.walks settled.busy) (settled.inOp true)
      fun x => (clean.refs x).ge) ?_
    rintro _ _ _ ⟨rfl, e, home, rfl⟩
    refine .after (safe_endOp rfl) fun _ => ?_
    refine .after (safe_setCwd (l := { l.begun.move
      (fun x => - one e x) l.num with op := false }) settled.proc settled.runs none) fun _ => ?_
    refine .seq (safe_setUnused ?_ (show _ = some { pr with cwd := none } from rfl) rfl closed) ?_
    · refine { clean with refs := ?_, files := ?_, op := rfl }
      · intro x
        have before : cwdRef pr x = one e x := cwdRef_eq_one home x
        have after : cwdRef { pr with cwd := none } x = 0 := if_neg nofun
        simp only [reproc, move, clean.refs x, before, after]
        omega
      · intro j
        have : slotRef { pr with cwd := none } j = slotRef pr j := rfl
        simp only [reproc, move, clean.files j, this]
        omega
    · rintro _ _ _ ⟨rfl, rfl⟩
      exact .pure ⟨rfl, .inr rfl⟩

end Xv6.Fs
