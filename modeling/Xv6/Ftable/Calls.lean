import Xv6.Ftable.Pages

/-!
# `fork`, `exit` and whole runs

`fork` fills a slot of the process table that nobody else fills, and `exit` empties its own.
With the other steps, every run keeps the ledger (`Sound.run`).
-/

namespace Xv6.Ftable

open List (map_cons map_nil mem_cons_self mem_singleton sum_cons sum_nil)

open Function

open Fs (NFILE NOFILE)

variable {ι π : Type} {n : Nat} {s t : State ι π n} {p np : Fin n} {op : Op ι π n}
  {rest : List (Op ι π n)}

/-! ## `fork` -/

theorem Procs.build (procs : Procs s) {N' P' : Proc ι π n} (live : (s.proc p).status = .live)
    (table : t.proc = update (update s.proc np N') p P')
    (alone : ∀ q, q ≠ p → ∀ x ∈ (s.proc q).code, x.child ≠ some np) (ok : P'.Ok) (okN : N'.Ok)
    (idle : N'.code = [])
    (children : ∀ x ∈ P'.code, ∀ c, x.child = some c → c = np ∧ N'.status = .used ∧ x.Builds N')
    (other : np ≠ p) : Procs t := by
  have placed : ∀ q, t.proc q = if q = p then P' else if q = np then N' else s.proc q := by
    intro q
    rw [table, update_apply, update_apply]
  have elsewhere : ∀ q c, q ≠ p → ∀ x ∈ (t.proc q).code, x.child = some c →
      x ∈ (s.proc q).code ∧ c ≠ np := by
    intro q c away x member is
    rw [placed, if_neg away] at member
    split at member
    · rw [idle] at member
      cases member
    · refine ⟨member, ?_⟩
      rintro rfl
      exact alone q away x member is
  refine ⟨fun q => ?_, fun q c x member is => ?_, fun q r c x member y member' is is' => ?_⟩
  · rw [placed]
    split
    · exact ok
    · split
      · exact okN
      · exact procs.ok q
  · by_cases mine : q = p
    · rw [placed, if_pos mine] at member
      obtain ⟨rfl, used, builds⟩ := children x member c is
      rw [placed, if_neg other, if_pos rfl]
      exact ⟨used, builds⟩
    · obtain ⟨old, apart⟩ := elsewhere q c mine x member is
      have builds := procs.builds q c x old is
      have running : c ≠ p := by
        rintro rfl
        rw [live] at builds
        cases builds.1
      rw [placed, if_neg running, if_neg apart]
      exact builds
  · by_cases mine : q = p <;> by_cases mine' : r = p
    · exact mine.trans mine'.symm
    · rw [placed, if_pos mine] at member
      exact absurd (children x member c is).1 (elsewhere r c mine' y member' is').2
    · rw [placed, if_pos mine'] at member'
      exact absurd (children y member' c is').1 (elsewhere q c mine x member is).2
    · exact procs.unique q r c x (elsewhere q c mine x member is).1 y
        (elsewhere r c mine' y member' is').1 is is'

theorem Procs.alone (procs : Procs s) (here : (s.proc p).code = op :: rest)
    (child : op.child = some np) : ∀ q, q ≠ p → ∀ x ∈ (s.proc q).code, x.child ≠ some np :=
  fun q other x member is => other
    (procs.unique q p np x member op (by rw [here]; exact mem_cons_self) is child)

theorem Procs.idle (procs : Procs s) (used : (s.proc np).status = .used) :
    (s.proc np).code = [] := by
  have ok := procs.ok np
  unfold Proc.Ok at ok
  rw [used] at ok
  exact ok

theorem State.setCode_setProc (s : State ι π n) (N' : Proc ι π n) (code : List (Op ι π n))
    (other : np ≠ p) : ((s.setProc np N').setCode p code).proc =
      update (update s.proc np N') p { s.proc p with code } := by
  simp only [State.setCode, State.setProc, update_of_ne other.symm]

section

variable (sound : Sound s) {f : Fin NFILE}
include sound

section

variable (live : (s.proc p).status = .live)
include live

theorem Sound.restate (here : (s.proc p).code = op :: rest) (ends : op.last = true)
    (after : op.after (s.proc p).ofile = (s.proc p).ofile) (credit : ∀ g, op.credit g = 0)
    (serials : ∀ k, op.serials k = 0) (other : np ≠ p)
    (alone : ∀ q, q ≠ p → ∀ x ∈ (s.proc q).code, x.child ≠ some np)
    (idle : (s.proc np).code = []) {status : Status} (code : List (Op ι π n))
    (ok : Proc.Ok { s.proc np with status }) (valid : Valid (s.proc p).cwd (s.proc p).ofile code)
    (plain : ∀ x ∈ code, x.after (s.proc p).ofile = (s.proc p).ofile ∧ x.Agrees s.refs ∧
      (∀ g, x.credit g = 0 ∧ x.fresh g = 0) ∧ ∀ k, x.serials k = 0)
    (short : code = [] ∨ ∃ x, code = [x] ∧ x.child = some np ∧ status = .used ∧
      x.Builds { s.proc np with status }) : Sound ((s.setStatus np status).setCode p code) := by
  obtain rfl := (sound.fits live here).2.1 ends
  have table := s.setCode_setProc { s.proc np with status } code other
  have middle : (s.setStatus np status).proc p = s.proc p := update_of_ne other.symm ..
  have owns : ∀ g, Proc.owns g { s.proc p with code } = (s.proc p).owns g := by
    intro g
    rw [Proc.owns_eq here, after, credit]
    rcases short with rfl | ⟨x, rfl, -⟩
    · rfl
    · obtain ⟨same, -, none, -⟩ := plain x mem_cons_self
      change tally (x.after (s.proc p).ofile) g + (x.credit g + 0) = _
      rw [same, (none g).1]
      rfl
  have fresh : ∀ g, Proc.fresh g { s.proc p with code } = 0 := by
    intro g
    rcases short with rfl | ⟨x, rfl, -⟩
    · rfl
    · change x.fresh g + 0 = 0
      rw [((plain x mem_cons_self).2.2.1 g).2]
  have held : ∀ k, (code.map (Op.serials k)).sum = ((s.proc p).code.map (Op.serials k)).sum := by
    intro k
    rw [here]
    simp only [map_cons, map_nil, sum_cons, sum_nil, serials]
    rcases short with rfl | ⟨x, rfl, -⟩
    · rfl
    · change x.serials k + 0 = 0
      rw [(plain x mem_cons_self).2.2.2 k]
  refine ⟨?_, ?_, ?_, ?_, sound.panic⟩
  · have counts : Counts (s.setStatus np status) :=
      sound.counts.still rfl rfl (fun _ => rfl) fun _ => Nat.le_refl _
    refine counts.still rfl table (fun g => ?_) fun g => ?_
    · rw [middle]; exact owns g
    · rw [fresh]; exact Nat.zero_le _
  · have ledger : Ledger (s.setStatus np status) :=
      sound.ledger.still rfl rfl rfl rfl rfl (fun _ => rfl) (sound.ledger.ops np)
    refine ledger.still rfl table rfl rfl (by rw [middle]) (fun k => ?_)
      fun x member => (plain x member).2.1
    rw [middle]
    exact held k
  · exact sound.pages.still rfl rfl rfl rfl
  · refine sound.procs.build live table alone (Proc.ok_of_valid live valid) ok idle
      (fun x member c is => ?_) other
    rcases short with rfl | ⟨y, rfl, child, used, builds⟩
    · cases member
    · rw [mem_singleton] at member
      subst member
      rw [child] at is
      cases is
      exact ⟨rfl, used, builds⟩

/-- The loop over the descriptors in `fork` takes a reference for the child. -/
theorem Sound.forkFd (fd : Fin NOFILE) (here : (s.proc p).code = .forkFd np fd.val :: rest)
    (mine : (s.proc p).ofile fd = some f) :
    ¬ (s.file f).ref < 1 ∧
      Sound (((s.setRef f ((s.file f).ref + 1)).setOfile np fd (some f)).setCode p
        (.forkFd np (fd.val + 1) :: rest)) := by
  obtain ⟨some, ends, -⟩ := sound.fits live here
  obtain rfl := ends rfl
  obtain ⟨used, empty, cwd⟩ := sound.procs.builds p np _ (by rw [here]; exact mem_cons_self) rfl
  have idle := sound.procs.idle used
  have other : np ≠ p := by
    rintro rfl
    rw [live] at used
    cases used
  let N' : Proc ι π n := { s.proc np with ofile := update (s.proc np).ofile fd (Option.some f) }
  let middle : State ι π n := (s.setRef f ((s.file f).ref + 1)).setProc np N'
  have middleProc : middle.proc p = s.proc p := update_of_ne other.symm ..
  have table := (s.setRef f ((s.file f).ref + 1)).setCode_setProc (p := p) N'
    [.forkFd np (fd.val + 1)] other
  constructor
  · have positive := tally_pos mine
    have bound := sound.counts.owns_le p f
    rw [Proc.owns_eq here] at bound
    change tally (s.proc p).ofile f + _ ≤ _ at bound
    omega
  refine ⟨?_, ?_, ?_, ?_, sound.panic⟩
  · have counts : Counts middle := by
      refine sound.counts.change f { s.file f with ref := (s.file f).ref + 1 } rfl rfl (fun g => ?_)
        (by simp) (fun g => .inl ?_) fun _ => .inl ⟨rfl, ?_⟩
      · simp only [Proc.owns, N', idle, kept_nil, tally_fill (empty fd (Nat.le_refl _)), map_nil,
          sum_nil]
        by_cases same : f = g
        · rw [if_pos same, if_pos same.symm, if_pos same.symm]
          omega
        · rw [if_neg same, if_neg (Ne.symm same), if_neg (Ne.symm same)]
          omega
      · exact Nat.le_refl _
      · exact Nat.le_refl _
    refine counts.still rfl table (fun g => ?_) fun g => Nat.zero_le _
    rw [middleProc, Proc.owns_eq here]
    rfl
  · have ledger : Ledger middle := by
      refine sound.ledger.change f { s.file f with ref := (s.file f).ref + 1 } [] rfl rfl
        (List.append_nil _).symm (fun k => rfl) (sound.ledger.files f)
        (fun held => sound.ledger.cwds np held) (sound.ledger.ops np) fun k x member => .inl member
    refine ledger.still rfl table rfl rfl (by rw [middleProc]; rfl) (fun k => ?_) ?_
    · rw [middleProc, here]
      rfl
    · simp [Op.Agrees]
  · exact sound.pages.still rfl rfl rfl rfl
  · refine sound.procs.build live table (sound.procs.alone here rfl)
      (Proc.ok_of_valid live ⟨some, fun _ => rfl, by simp [Op.last]⟩) ?_ idle ?_ other
    · unfold Proc.Ok
      rw [show N'.status = .used from used]
      exact idle
    · intro x member c is
      rw [mem_singleton] at member
      subst member
      cases is
      refine ⟨rfl, used, fun gd above => ?_, cwd⟩
      have apart : gd ≠ fd := by
        rintro rfl
        omega
      simp only [N', update_of_ne apart]
      exact empty gd (by omega)

theorem Sound.forkCwd (here : (s.proc p).code = .forkCwd np :: rest) :
    ∃ held, (s.proc p).cwd = some held ∧
      Sound (((s.issue (.inode held.ip)).setProc np { s.proc np with
        cwd := some ⟨held.ip, s.refs.length⟩ }).setCode p (.forkRun np :: rest)) := by
  obtain ⟨some, ends, -⟩ := sound.fits live here
  obtain rfl := ends rfl
  obtain ⟨used, empty⟩ := sound.procs.builds p np _ (by rw [here]; exact mem_cons_self) rfl
  have empty : (s.proc np).cwd = none := empty
  have idle := sound.procs.idle used
  have other : np ≠ p := by
    rintro rfl
    rw [live] at used
    cases used
  obtain ⟨held, cwd⟩ := Option.isSome_iff_exists.mp some
  refine ⟨held, cwd, ?_⟩
  let N' : Proc ι π n := { s.proc np with cwd := Option.some ⟨held.ip, s.refs.length⟩ }
  let middle : State ι π n := (s.issue (.inode held.ip)).setProc np N'
  have middleProc : middle.proc p = s.proc p := update_of_ne other.symm ..
  have table := (s.issue (.inode held.ip)).setCode_setProc (p := p) N' [.forkRun np] other
  have whole : middle.refs[s.refs.length]? = Option.some (.inode held.ip) :=
    getElem?_snoc.mpr (.inr ⟨rfl, rfl⟩)
  refine ⟨?_, ?_, ?_, ?_, sound.panic⟩
  · have counts : Counts middle := by
      refine sound.counts.still rfl rfl (fun g => ?_) fun g => Nat.le_refl _
      rfl
    refine counts.still rfl table (fun g => ?_) fun g => Nat.zero_le _
    rw [middleProc, Proc.owns_eq here]
    rfl
  · have ledger : Ledger middle := by
      refine sound.ledger.change 0 (s.file 0) [.inode held.ip] (update_eq_self ..).symm rfl rfl
        (fun k => ?_) (fun typed => ?_) (fun held' is => ?_) (fun x member => ?_)
        fun k x member => .inl member
      · have := issue_balance s.refs.length k
        simp only [Proc.holds, N', idle, empty, Option.map_some, Option.map_none, Option.some.injEq,
          map_nil, sum_nil, reduceCtorEq, if_false]
        change _ + _ + (s.dropped k).length + _ = _ + _ + _ +
          if k < (s.refs ++ [Target.inode held.ip]).length then 1 else 0
        rw [List.length_append, List.length_singleton]
        omega
      · obtain ⟨target, is, there⟩ := sound.ledger.files 0 typed
        exact ⟨target, is, getElem?_mono there⟩
      · cases is
        exact whole
      · exact (sound.ledger.ops np x member).mono
    refine ledger.still rfl table rfl rfl (by rw [middleProc]; rfl) (fun k => ?_) ?_
    · rw [middleProc, here]
      rfl
    · simp [Op.Agrees]
  · exact sound.pages.issue rfl rfl rfl rfl
  · refine sound.procs.build live table (sound.procs.alone here rfl)
      (Proc.ok_of_valid live ⟨some, fun _ => rfl, by simp [Op.last]⟩) ?_ idle ?_ other
    · unfold Proc.Ok
      rw [show N'.status = .used from used]
      exact idle
    · intro x member c is
      rw [mem_singleton] at member
      subst member
      cases is
      exact ⟨rfl, used, rfl⟩

/-! ## `exit` -/

theorem Sound.exitFd (fd : Fin NOFILE) (here : (s.proc p).code = .exitFd fd.val :: rest)
    (mine : (s.proc p).ofile fd = some f) :
    Sound (s.setCode p (.fileclose f :: .clear fd f :: .exitFd (fd.val + 1) :: rest)) := by
  obtain ⟨⟨some, before⟩, ends, -⟩ := sound.fits live here
  obtain rfl := ends rfl
  refine sound.recode live here _ _ (fun g => ?_) ?_ ?_ ?_ ?_ ?_
  · have := tally_clear mine g
    simp only [kept_cons, kept_nil, Op.after, Op.credit, map_cons, map_nil, sum_cons, sum_nil]
    omega
  · simp [Op.fresh]
  · simp [Op.serials]
  · simp [Op.Agrees]
  · refine ⟨trivial, by simp [Op.last], fun _ => ⟨mine, by simp [Op.last], fun _ =>
      ⟨⟨some, fun gd below => ?_⟩, fun _ => rfl, by simp [Op.last]⟩⟩⟩
    simp only [Op.after, update_apply]
    split
    · rfl
    next apart =>
      refine before gd ?_
      have : gd.val ≠ fd.val := fun same => apart (Fin.ext same)
      omega
  · simp [Op.child]

theorem Sound.skip (here : (s.proc p).code = op :: rest) (ends : op.last = true) (new : Op ι π n)
    (after : op.after (s.proc p).ofile = new.after (s.proc p).ofile)
    (credit : ∀ g, new.credit g = op.credit g) (fresh : ∀ g, new.fresh g = op.fresh g)
    (serials : ∀ k, new.serials k = op.serials k) (agrees : new.Agrees s.refs)
    (fits : new.Fits (s.proc p).cwd (s.proc p).ofile) (last : new.last = true)
    (child : ∀ np, new.child = some np → op.child = some np ∧ new.Builds (s.proc np)) :
    Sound (s.setCode p (new :: rest)) := by
  obtain rfl := (sound.fits live here).2.1 ends
  refine sound.recode live here _ _ (fun g => ?_) (fun g => ?_) (fun k => ?_) ?_
    ⟨fits, fun _ => rfl, by simp [last]⟩ fun x member np is => ?_
  · simp [after, credit]
  · simp [fresh]
  · simp [serials]
  · simpa using agrees
  · rw [mem_singleton] at member
    subst member
    exact .inr (child np is)

theorem Sound.exitZombie (here : (s.proc p).code = .exitZombie :: rest) :
    Sound ((s.setStatus p .zombie).setCode p rest) := by
  obtain ⟨⟨cwd, none⟩, ends, -⟩ := sound.fits live here
  obtain rfl := ends rfl
  have table : ((s.setStatus p .zombie).setCode p []).proc =
      update s.proc p { s.proc p with status := .zombie, code := [] } := by
    simp only [State.setCode, State.setStatus, State.setProc, update_self, update_idem]
  refine ⟨?_, ?_, sound.pages.still rfl rfl rfl rfl, ?_, sound.panic⟩
  · refine sound.counts.still rfl table (fun g => ?_) fun g => Nat.zero_le _
    rw [Proc.owns_eq here]
    rfl
  · refine sound.ledger.still rfl table rfl rfl rfl (fun k => ?_) (by simp)
    rw [here]
    rfl
  · refine sound.procs.change table (by simp [live]) ?_ (by simp)
    unfold Proc.Ok
    exact ⟨none, cwd, rfl⟩

/-! ## Every step -/

theorem Sound.perform [DecidableEq π] (here : (s.proc p).code = op :: rest) {answer : Answer π n}
    (done : perform s p answer rest op = some t) : Sound t := by
  have fits := (sound.fits live here).1
  have mem : op ∈ (s.proc p).code := by rw [here]; exact mem_cons_self
  have agrees := sound.ledger.ops p op mem
  cases op with
  | openAlloc mode held =>
    simp only [Ftable.perform] at done
    split at done <;> cases done
    · exact sound.openNone live here
    next found =>
      exact sound.alloc live here rfl (ref_of_filealloc found) (.openFd mode held _) rfl rfl
        (fun g => (Nat.zero_add _).symm) (fun g => (Nat.zero_add _).symm) (fun _ => rfl) agrees
        fits rfl rfl
  | openFd mode held f =>
    simp only [Ftable.perform] at done
    split at done <;> cases done
    · exact sound.openFull live here
    next found => exact sound.openFd live here (free_of_fdalloc found)
  | openFill mode held f =>
    cases done
    exact sound.fill live here
  | pipeFirst =>
    simp only [Ftable.perform] at done
    split at done <;> cases done
    · exact sound.finish live here rfl fits rfl (fun _ => rfl) fun _ => rfl
    next found =>
      exact sound.alloc live here rfl (ref_of_filealloc found) (.pipeSecond _) rfl rfl
        (fun g => (Nat.zero_add _).symm) (fun g => (Nat.zero_add _).symm) (fun _ => rfl) trivial
        fits rfl rfl
  | pipeSecond f0 =>
    simp only [Ftable.perform] at done
    split at done <;> cases done
    · exact sound.pipeNone live here
    next found =>
      exact sound.alloc live here rfl (ref_of_filealloc found) (.pipeMem f0 _) rfl rfl
        (fun g => rfl) (fun g => rfl) (fun _ => rfl) trivial fits rfl rfl
  | pipeMem f0 f1 =>
    simp only [Ftable.perform] at done
    split at done
    · cases done
      exact sound.pipeBad live here (.inl rfl)
    · split at done <;> cases done
      next free => exact sound.makePipe live here free
  | pipeFd0 f0 f1 =>
    simp only [Ftable.perform] at done
    split at done <;> cases done
    · exact sound.pipeBad live here (.inr rfl)
    next found => exact sound.pipeFd0 live here (free_of_fdalloc found)
  | pipeFd1 f0 f1 fd0 =>
    simp only [Ftable.perform] at done
    split at done <;> cases done
    · exact sound.pipeFull live here
    next found => exact sound.pipeFd1 live here (free_of_fdalloc found)
  | pipeCopy f0 f1 fd0 fd1 =>
    simp only [Ftable.perform] at done
    split at done <;> cases done
    · exact sound.finish live here rfl fits.1 rfl (fun _ => rfl) fun _ => rfl
    · exact sound.pipeFault live here
  | dupFd fd f =>
    simp only [Ftable.perform] at done
    split at done <;> cases done
    · exact sound.finish live here rfl fits.1 rfl (fun _ => rfl) fun _ => rfl
    next found => exact sound.dupFd live here (free_of_fdalloc found)
  | filedup fd new f =>
    obtain ⟨fine, after⟩ := sound.dup live here
    simp only [Ftable.perform, if_neg fine] at done
    cases done
    exact after
  | clear fd f =>
    cases done
    exact sound.clear live here
  | fileclose f =>
    have positive := sound.ref_pos here
    simp only [Ftable.perform, if_neg (show ¬ (s.file f).ref < 1 by omega)] at done
    split at done
    next more =>
      cases done
      exact sound.close live here more
    next one =>
      obtain ⟨ops, released, after⟩ := sound.closeLast live here one
      rw [released] at done
      cases done
      exact after
  | pipeclose pi w serial =>
    obtain ⟨pipe, found, after⟩ := sound.pipeclose live here
    simp only [Ftable.perform, found] at done
    split at done <;> cases done
    next closed =>
      refine after _ _ ?_ ?_
      · rw [if_pos closed]
        rfl
      · rw [if_pos closed, Pipe.serial_shut]
        rfl
    next still =>
      refine after _ _ ?_ ?_
      · rw [if_neg still]
        rfl
      · rw [if_neg still]
        rfl
  | iput held =>
    cases done
    exact sound.iput live here
  | forkAlloc =>
    simp only [Ftable.perform] at done
    split at done
    · cases done
      exact sound.finish live here rfl fits rfl (fun _ => rfl) fun _ => rfl
    next np slot =>
      split at done <;> cases done
      next unused =>
        have empty := sound.procs.ok np
        unfold Proc.Ok at empty
        rw [unused] at empty
        have other : np ≠ p := by
          rintro rfl
          rw [live] at unused
          cases unused
        obtain rfl := (sound.fits live here).2.1 rfl
        refine sound.restate live here rfl rfl (fun _ => rfl) (fun _ => rfl) other
          (fun q _ x member is => ?_) empty.2.2 [.forkMem np] empty.2.2
          ⟨fits, fun _ => rfl, by simp [Op.last]⟩
          ?_ (.inr ⟨_, rfl, rfl, rfl, empty.1, empty.2.1⟩)
        · have used := (sound.procs.builds q np x member is).1
          rw [unused] at used
          cases used
        · simp [Op.after, Op.Agrees, Op.credit, Op.fresh, Op.serials]
  | forkMem np =>
    obtain ⟨used, empty, cwd⟩ := sound.procs.builds p np _ mem rfl
    simp only [Ftable.perform] at done
    split at done <;> cases done
    · refine sound.skip live here rfl (.forkFd np 0) rfl (fun _ => rfl) (fun _ => rfl)
        (fun _ => rfl)
        trivial fits rfl ?_
      rintro _ ⟨⟩
      exact ⟨rfl, fun fd _ => empty fd, cwd⟩
    · have idle := sound.procs.idle used
      have other : np ≠ p := by
        rintro rfl
        rw [live] at used
        cases used
      obtain rfl := (sound.fits live here).2.1 rfl
      exact sound.restate live here rfl rfl (fun _ => rfl) (fun _ => rfl) other
        (sound.procs.alone here rfl) idle [] ⟨empty, cwd, idle⟩ fits (by simp) (.inl rfl)
  | forkFd np i =>
    obtain ⟨used, empty, cwd⟩ := sound.procs.builds p np _ mem rfl
    simp only [Ftable.perform] at done
    split at done
    next bound =>
      split at done
      · cases done
        refine sound.skip live here rfl (.forkFd np (i + 1)) rfl (fun _ => rfl) (fun _ => rfl)
          (fun _ => rfl) trivial fits rfl ?_
        rintro _ ⟨⟩
        exact ⟨rfl, fun fd above => empty fd (by omega), cwd⟩
      next f mine =>
        obtain ⟨fine, after⟩ := sound.forkFd live ⟨i, bound⟩ here mine
        rw [if_neg fine] at done
        cases done
        exact after
    · cases done
      refine sound.skip live here rfl (.forkCwd np) rfl (fun _ => rfl) (fun _ => rfl)
        (fun _ => rfl) trivial fits rfl ?_
      rintro _ ⟨⟩
      exact ⟨rfl, cwd⟩
  | forkCwd np =>
    obtain ⟨held, cwd, after⟩ := sound.forkCwd live here
    simp only [Ftable.perform, cwd] at done
    cases done
    exact after
  | forkRun np =>
    obtain ⟨used, cwd⟩ := sound.procs.builds p np _ mem rfl
    cases done
    have idle := sound.procs.idle used
    have other : np ≠ p := by
      rintro rfl
      rw [live] at used
      cases used
    obtain rfl := (sound.fits live here).2.1 rfl
    refine sound.restate live here rfl rfl (fun _ => rfl) (fun _ => rfl) other
      (sound.procs.alone here rfl) idle [] ?_ fits (by simp) (.inl rfl)
    refine Proc.ok_of_valid rfl ?_
    change Valid (s.proc np).cwd (s.proc np).ofile (s.proc np).code
    rw [idle]
    exact cwd
  | exitFd i =>
    obtain ⟨some, before⟩ := fits
    simp only [Ftable.perform] at done
    split at done
    next bound =>
      split at done <;> cases done
      next empty =>
        refine sound.skip live here rfl (.exitFd (i + 1)) rfl (fun _ => rfl) (fun _ => rfl)
          (fun _ => rfl) trivial ⟨some, fun fd below => ?_⟩ rfl (by simp [Op.child])
        by_cases last : fd.val = i
        · rw [show fd = ⟨i, bound⟩ from Fin.ext last]
          exact empty
        · exact before fd (by omega)
      next f mine => exact sound.exitFd live ⟨i, bound⟩ here mine
    next isOver =>
      cases done
      exact sound.skip live here rfl .exitCwd rfl (fun _ => rfl) (fun _ => rfl) (fun _ => rfl)
        trivial ⟨some, fun fd => before fd (by omega)⟩ rfl (by simp [Op.child])
  | exitCwd =>
    obtain ⟨held, cwd, after⟩ := sound.exitCwd live here
    simp only [Ftable.perform, cwd] at done
    cases done
    exact after
  | exitZombie =>
    cases done
    exact sound.exitZombie live here

end

end

end Xv6.Ftable
