import Xv6.Ftable.Ledger

/-!
# The steps of a call

Each step keeps the ledger. Most steps only move a reference within the process
(`Sound.recode`). The others take a file from the table or give it back, fill a file in,
drop a reference, or fill the slot of a child.
-/

namespace Xv6.Ftable

open Proc

open List (map_append map_cons map_nil mem_cons_of_mem mem_cons_self sum_append sum_cons sum_nil)

open Function State Op

open Fs (NFILE NOFILE)

variable {ι π : Type} {n : Nat} {s t : State ι π n} {p : Fin n} {op : Op ι π n}
  {rest : List (Op ι π n)} {fd : Fin NOFILE} {ofile : Fin NOFILE → Option (Fin NFILE)}
  {P : Proc ι π n} {mode : Mode} {held : Held ι} {new : Fin NOFILE}

theorem tally_fill (free : ofile fd = none) (f g : Fin NFILE) :
    tally (update ofile fd (some f)) g = tally ofile g + if f = g then 1 else 0 := by
  have := tally_update ofile fd (some f) g
  simpa [free] using this

theorem tally_clear {f : Fin NFILE} (here : ofile fd = some f) (g : Fin NFILE) :
    tally (update ofile fd none) g + (if f = g then 1 else 0) = tally ofile g := by
  have := tally_update ofile fd none g
  simpa [here] using this

theorem free_of_fdalloc (found : fdalloc ofile = some fd) : ofile fd = none := by
  simpa using List.find?_some found

theorem ref_of_filealloc {f : Fin NFILE} (found : s.filealloc = some f) : (s.file f).ref = 0 := by
  simpa using List.find?_some found

theorem Sound.valid (sound : Sound s) (live : (s.proc p).status = .live) :
    Valid (s.proc p).cwd (s.proc p).ofile (s.proc p).code := by
  have ok := sound.procs.ok p
  unfold Proc.Ok at ok
  rw [live] at ok
  exact ok

theorem Sound.fits (sound : Sound s) (live : (s.proc p).status = .live)
    (here : (s.proc p).code = op :: rest) :
    op.Fits (s.proc p).cwd (s.proc p).ofile ∧ (op.last = true → rest = []) ∧
      (op.last = false → Valid (s.proc p).cwd (op.after (s.proc p).ofile) rest) := by
  have valid := sound.valid live
  rw [here] at valid
  exact valid

theorem Proc.owns_eq (here : P.code = op :: rest) (f : Fin NFILE) :
    P.owns f = tally (kept (op.after P.ofile) rest) f +
      (op.credit f + (rest.map (credit f)).sum) := by
  simp only [Proc.owns, here, kept_cons, map_cons, sum_cons]

theorem Proc.fresh_eq (here : P.code = op :: rest) (f : Fin NFILE) :
    P.fresh f = op.fresh f + (rest.map (Op.fresh f)).sum := by
  simp only [Proc.fresh, here, map_cons, sum_cons]

/-- A process owns no more references to a file than there are. -/
theorem Counts.owns_le (counts : Counts s) (p : Fin n) (f : Fin NFILE) :
    (s.proc p).owns f ≤ (s.file f).ref := by
  rw [counts.refs f]
  exact le_sum s.proc (Proc.owns f) p

theorem Proc.ok_of_valid (live : P.status = .live) (valid : Valid P.cwd P.ofile P.code) : P.Ok := by
  unfold Proc.Ok
  rw [live]
  exact valid

theorem Sound.recode (sound : Sound s) (live : (s.proc p).status = .live)
    (here : (s.proc p).code = op :: rest) (ofile : Fin NOFILE → Option (Fin NFILE))
    (code : List (Op ι π n))
    (owns : ∀ g, tally (kept ofile code) g + (code.map (credit g)).sum =
      tally (kept (op.after (s.proc p).ofile) rest) g +
        (op.credit g + (rest.map (credit g)).sum))
    (fresh : ∀ g, (code.map (Op.fresh g)).sum ≤ op.fresh g + (rest.map (Op.fresh g)).sum)
    (serials : ∀ k, (code.map (Op.serials k)).sum = op.serials k + (rest.map (Op.serials k)).sum)
    (agrees : ∀ x ∈ code, x.Agrees s.refs) (valid : Valid (s.proc p).cwd ofile code)
    (children : ∀ x ∈ code, ∀ np, x.child = some np →
      x ∈ rest ∨ op.child = some np ∧ x.Builds (s.proc np)) :
    Sound (s.setProc p { s.proc p with ofile, code }) where
  counts := by
    refine sound.counts.still rfl rfl (fun g => ?_) fun g => ?_
    · rw [owns_eq here]
      exact owns g
    · rw [fresh_eq here]
      exact fresh g
  ledger := by
    refine sound.ledger.still rfl rfl rfl rfl rfl (fun k => ?_) agrees
    simp only [here, map_cons, sum_cons]
    exact serials k
  pages := sound.pages.still rfl rfl rfl rfl
  procs := by
    refine sound.procs.change rfl (by simp [live]) (ok_of_valid live valid) fun x mem np is => ?_
    rcases children x mem np is with old | ⟨was, builds⟩
    · have mine : x ∈ (s.proc p).code := by simp [here, old]
      obtain ⟨used, builds⟩ := sound.procs.builds p np x mine is
      exact ⟨used, builds, x, mine, is⟩
    · have mine : op ∈ (s.proc p).code := by simp [here]
      exact ⟨(sound.procs.builds p np op mine was).1, builds, op, mine, was⟩
  panic := sound.panic

theorem State.setCode_setOfile (s : State ι π n) (p : Fin n) (fd : Fin NOFILE)
    (f : Option (Fin NFILE)) (code : List (Op ι π n)) :
    (s.setOfile p fd f).setCode p code =
      s.setProc p { s.proc p with ofile := update (s.proc p).ofile fd f, code } := by
  simp only [State.setCode, State.setOfile, State.setProc, update_self, update_idem]

/-! ## Steps within the process -/

section Own

variable (sound : Sound s) (live : (s.proc p).status = .live) {f0 f1 : Fin NFILE} {fd0 : Fin NOFILE}
  {fd1 : Fin NOFILE}
include sound live

theorem Sound.openNone (here : (s.proc p).code = .openAlloc mode held :: rest) :
    Sound (s.setCode p (.iput held :: rest)) := by
  obtain ⟨fits, ends, -⟩ := sound.fits live here
  obtain rfl := ends rfl
  have agrees := sound.ledger.ops p _ (by rw [here]; exact mem_cons_self)
  refine sound.recode live here _ _ ?_ ?_ ?_ ?_ ?_ ?_
  · simp [after, credit]
  · simp [Op.fresh]
  · simp [serials]
  · simpa [Op.Agrees] using agrees
  · exact ⟨trivial, by simp, fun _ => fits⟩
  · simp [child]

theorem Sound.openFd {f : Fin NFILE} (here : (s.proc p).code = .openFd mode held f :: rest)
    (free : (s.proc p).ofile fd = none) :
    Sound ((s.setOfile p fd (some f)).setCode p (.openFill mode held f :: rest)) := by
  obtain ⟨fits, ends, -⟩ := sound.fits live here
  obtain rfl := ends rfl
  have agrees := sound.ledger.ops p _ (by rw [here]; exact mem_cons_self)
  rw [setCode_setOfile]
  refine sound.recode live here _ _ (fun g => ?_) ?_ ?_ ?_ ?_ ?_
  · simp [after, credit, tally_fill free]
  · simp [Op.fresh]
  · simp [serials]
  · simpa [Op.Agrees] using agrees
  · exact ⟨⟨fits, fd, update_self ..⟩, fun _ => rfl, by rintro ⟨⟩⟩
  · simp [child]

theorem Sound.openFull {f : Fin NFILE} (here : (s.proc p).code = .openFd mode held f :: rest) :
    Sound (s.setCode p (.fileclose f :: .iput held :: rest)) := by
  obtain ⟨fits, ends, -⟩ := sound.fits live here
  obtain rfl := ends rfl
  have agrees := sound.ledger.ops p _ (by rw [here]; exact mem_cons_self)
  refine sound.recode live here _ _ ?_ ?_ ?_ ?_ ?_ ?_
  · simp [after, credit]
  · simp [Op.fresh]
  · simp [serials]
  · simpa [Op.Agrees] using agrees
  · exact ⟨trivial, by rintro ⟨⟩, fun _ => ⟨trivial, by rintro ⟨⟩, fun _ => fits⟩⟩
  · simp [child]

theorem Sound.finish (here : (s.proc p).code = op :: rest) (ends : op.last = true)
    (some : (s.proc p).cwd.isSome) (after : op.after (s.proc p).ofile = (s.proc p).ofile)
    (credit : ∀ g, op.credit g = 0) (serials : ∀ k, op.serials k = 0) :
      Sound (s.setCode p rest) := by
  obtain rfl := (sound.fits live here).2.1 ends
  refine sound.recode live here _ _ ?_ ?_ ?_ ?_ ?_ ?_
  · simp [after, credit]
  · simp
  · simp [serials]
  · simp
  · exact some
  · simp

theorem Sound.pipeNone (here : (s.proc p).code = .pipeSecond f0 :: rest) :
    Sound (s.setCode p (.fileclose f0 :: rest)) := by
  obtain ⟨fits, ends, -⟩ := sound.fits live here
  obtain rfl := ends rfl
  refine sound.recode live here _ _ ?_ ?_ ?_ ?_ ?_ ?_
  · simp [after, credit]
  · simp [Op.fresh]
  · simp [serials]
  · simp [Op.Agrees]
  · exact ⟨trivial, by simp, fun _ => fits⟩
  · simp [child]

/-- `kalloc` fails in `pipealloc`, or the first `fdalloc` in `sys_pipe`. -/
theorem Sound.pipeBad (here : (s.proc p).code = op :: rest)
    (is : op = .pipeMem f0 f1 ∨ op = .pipeFd0 f0 f1) :
    Sound (s.setCode p (.fileclose f0 :: .fileclose f1 :: rest)) := by
  obtain ⟨fits, ends, -⟩ := sound.fits live here
  rcases is with rfl | rfl <;>
    · obtain rfl := ends rfl
      refine sound.recode live here _ _ ?_ ?_ ?_ ?_ ?_ ?_
      · simp [after, credit]
      · simp [Op.fresh]
      · simp [serials]
      · simp [Op.Agrees]
      · exact ⟨trivial, by rintro ⟨⟩, fun _ => ⟨trivial, by rintro ⟨⟩, fun _ => fits⟩⟩
      · simp [child]

theorem Sound.pipeFd0
    (here : (s.proc p).code = .pipeFd0 f0 f1 :: rest) (free : (s.proc p).ofile fd0 = none) :
    Sound ((s.setOfile p fd0 (some f0)).setCode p (.pipeFd1 f0 f1 fd0 :: rest)) := by
  obtain ⟨fits, ends, -⟩ := sound.fits live here
  obtain rfl := ends rfl
  rw [setCode_setOfile]
  refine sound.recode live here _ _ (fun g => ?_) ?_ ?_ ?_ ?_ ?_
  · simp [after, credit, tally_fill free, Nat.add_assoc]
  · simp [Op.fresh]
  · simp [serials]
  · simp [Op.Agrees]
  · exact ⟨⟨fits, update_self ..⟩, fun _ => rfl, by rintro ⟨⟩⟩
  · simp [child]

section

variable (here : (s.proc p).code = .pipeFd1 f0 f1 fd0 :: rest)
include here

theorem Sound.pipeFd1 (free : (s.proc p).ofile fd1 = none) :
    Sound ((s.setOfile p fd1 (some f1)).setCode p (.pipeCopy f0 f1 fd0 fd1 :: rest)) := by
  obtain ⟨⟨some, first⟩, ends, -⟩ := sound.fits live here
  obtain rfl := ends rfl
  have apart : fd0 ≠ fd1 := by
    rintro rfl
    rw [free] at first
    cases first
  rw [setCode_setOfile]
  refine sound.recode live here _ _ (fun g => ?_) ?_ ?_ ?_ ?_ ?_
  · simp [after, credit, tally_fill free]
  · simp [Op.fresh]
  · simp [serials]
  · simp [Op.Agrees]
  · refine ⟨⟨some, ?_, update_self .., apart⟩, fun _ => rfl, by rintro ⟨⟩⟩
    rw [update_of_ne apart]
    exact first
  · simp [child]

theorem Sound.pipeFull :
    Sound (s.setCode p (.clear fd0 f0 :: .fileclose f0 :: .fileclose f1 :: rest)) := by
  obtain ⟨⟨some, first⟩, ends, -⟩ := sound.fits live here
  obtain rfl := ends rfl
  refine sound.recode live here _ _ (fun g => ?_) ?_ ?_ ?_ ?_ ?_
  · have := tally_clear first g
    simp only [kept_cons, kept_nil, after, credit, map_cons, map_nil, sum_cons, sum_nil]
    omega
  · simp [Op.fresh]
  · simp [serials]
  · simp [Op.Agrees]
  · exact ⟨first, by rintro ⟨⟩,
      fun _ => ⟨trivial, by rintro ⟨⟩, fun _ => ⟨trivial, by rintro ⟨⟩, fun _ => some⟩⟩⟩
  · simp [child]

end

theorem Sound.pipeFault (here : (s.proc p).code = .pipeCopy f0 f1 fd0 fd1 :: rest) :
    Sound (s.setCode p
      (.clear fd0 f0 :: .clear fd1 f1 :: .fileclose f0 :: .fileclose f1 :: rest)) := by
  obtain ⟨⟨some, first, second, apart⟩, ends, -⟩ := sound.fits live here
  obtain rfl := ends rfl
  have still : update (s.proc p).ofile fd0 none fd1 = Option.some f1 := by
    rw [update_of_ne apart.symm]
    exact second
  refine sound.recode live here _ _ (fun g => ?_) ?_ ?_ ?_ ?_ ?_
  · have := tally_clear first g
    have := tally_clear still g
    simp only [kept_cons, kept_nil, after, credit, map_cons, map_nil, sum_cons, sum_nil]
    omega
  · simp [Op.fresh]
  · simp [serials]
  · simp [Op.Agrees]
  · exact ⟨first, by rintro ⟨⟩, fun _ => ⟨still, by rintro ⟨⟩, fun _ =>
      ⟨trivial, by rintro ⟨⟩, fun _ => ⟨trivial, by rintro ⟨⟩, fun _ => some⟩⟩⟩⟩
  · simp [child]

/-- `fdalloc` in `sys_dup`. The reference for the new descriptor comes with `filedup`. -/
theorem Sound.dupFd {f : Fin NFILE}
    (here : (s.proc p).code = .dupFd fd f :: rest) (free : (s.proc p).ofile new = none) :
    Sound ((s.setOfile p new (some f)).setCode p (.filedup fd new f :: rest)) := by
  obtain ⟨⟨some, old⟩, ends, -⟩ := sound.fits live here
  obtain rfl := ends rfl
  have apart : fd ≠ new := by
    rintro rfl
    rw [free] at old
    cases old
  rw [setCode_setOfile]
  refine sound.recode live here _ _ (fun g => ?_) ?_ ?_ ?_ ?_ ?_
  · have back : update (update (s.proc p).ofile new (Option.some f)) new none =
        (s.proc p).ofile := by
      rw [update_idem, ← free, update_eq_self]
    simp [after, credit, back]
  · simp [Op.fresh]
  · simp [serials]
  · simp [Op.Agrees]
  · refine ⟨⟨some, ?_, update_self .., apart⟩, fun _ => rfl, by rintro ⟨⟩⟩
    rw [update_of_ne apart]
    exact old
  · simp [child]

theorem Sound.clear {f : Fin NFILE} (here : (s.proc p).code = .clear fd f :: rest) :
    Sound ((s.setOfile p fd none).setCode p rest) := by
  obtain ⟨-, -, goes⟩ := sound.fits live here
  rw [setCode_setOfile]
  refine sound.recode live here _ _ (fun g => ?_) (fun g => ?_) (fun k => ?_)
    (fun x mem => ?_) (goes rfl) fun x mem np is => ?_
  · simp [after, credit]
  · simp [Op.fresh]
  · simp [serials]
  · exact sound.ledger.ops p x (by rw [here]; exact mem_cons_of_mem _ mem)
  · exact .inl mem

end Own

/-! ## The table -/

section Table

variable (sound : Sound s) (live : (s.proc p).status = .live) {f : Fin NFILE}
include sound live

omit live in
/-- A file that nobody has a reference to is not being filled in. -/
theorem Sound.fresh_zero (free : (s.file f).ref = 0) : ∑ q, (s.proc q).fresh f = 0 := by
  have total := sound.counts.refs f
  have less : ∑ q, (s.proc q).fresh f ≤ ∑ q, (s.proc q).owns f :=
    Finset.sum_le_sum fun q _ => (sound.procs.ok q).fresh_le f
  omega

omit live in
/-- A step that changes one file and goes on in the call, with the same references. -/
theorem Sound.refile {file' : File ι π} {code : List (Op ι π n)}
    (counts : Counts ((s.setFile f file').setCode p code)) (live : (s.proc p).status = .live)
    (serials : ∀ k, file'.holds k + (code.map (Op.serials k)).sum =
      (s.file f).holds k + ((s.proc p).code.map (Op.serials k)).sum)
    (file : file'.type ≠ .none → file'.Agrees s.refs) (agrees : ∀ x ∈ code, x.Agrees s.refs)
    (valid : Valid (s.proc p).cwd (s.proc p).ofile code)
    (children : ∀ x ∈ code, x ∈ (s.proc p).code ∨ x.child = none) :
    Sound ((s.setFile f file').setCode p code) where
  counts := counts
  ledger := by
    refine sound.ledger.change f file' [] rfl rfl (List.append_nil _).symm (fun k => ?_) file
      (fun held => sound.ledger.cwds p held) agrees fun k x mem => .inl mem
    have := serials k
    simp only [Proc.holds]
    change _ + _ + (s.dropped k).length + _ = _ + _ + _ + if k < s.refs.length then 1 else 0
    change _ + ((if (s.proc p).cwd.map Held.serial = some k then 1 else 0) +
      (code.map (Op.serials k)).sum) + _ + _ = _
    omega
  pages := sound.pages.still rfl rfl rfl rfl
  procs := by
    refine sound.procs.change rfl (by simp [live])
      (Proc.ok_of_valid live valid) fun x mem np is => ?_
    rcases children x mem with mine | none
    · obtain ⟨used, builds⟩ := sound.procs.builds p np x mine is
      exact ⟨used, builds, x, mine, is⟩
    · rw [none] at is
      cases is
  panic := sound.panic

theorem Sound.alloc (here : (s.proc p).code = op :: rest) (ends : op.last = true)
    (free : (s.file f).ref = 0) (new : Op ι π n)
    (after : op.after (s.proc p).ofile = (s.proc p).ofile)
    (after' : new.after (s.proc p).ofile = (s.proc p).ofile)
    (credit : ∀ g, new.credit g = op.credit g + if f = g then 1 else 0)
    (fresh : ∀ g, new.fresh g = op.fresh g + if f = g then 1 else 0)
    (serials : ∀ k, new.serials k = op.serials k) (agrees : new.Agrees s.refs)
    (fits : new.Fits (s.proc p).cwd (s.proc p).ofile) (last : new.last = true)
    (child : new.child = none) : Sound ((s.setRef f 1).setCode p (new :: rest)) := by
  obtain rfl := (sound.fits live here).2.1 ends
  have zero := sound.fresh_zero free
  have part := le_sum s.proc (Proc.fresh f) p
  have untyped := sound.counts.closed f free
  refine sound.refile ?_ live ?_ (fun typed => absurd untyped typed) ?_
    ⟨fits, fun _ => rfl, by simp [last]⟩ ?_
  · refine sound.counts.change f { s.file f with ref := 1 } rfl rfl (fun g => ?_) (by simp)
      (fun g => ?_) fun typed => absurd untyped typed
    · have := credit g
      have value : Proc.owns g { s.proc p with code := [new] } =
          tally (new.after (s.proc p).ofile) g + (new.credit g + 0) := rfl
      change Proc.owns g { s.proc p with code := [new] } + _ = _
      rw [owns_eq here, value, after']
      simp only [kept_nil, after, free, map_nil, sum_nil]
      by_cases same : f = g
      · rw [if_pos same] at this
        rw [if_pos same.symm, if_pos same.symm]
        omega
      · rw [if_neg same] at this
        rw [if_neg (Ne.symm same), if_neg (Ne.symm same)]
        omega
    · have := fresh g
      have value : Proc.fresh g { s.proc p with code := [new] } = new.fresh g + 0 := rfl
      change Proc.fresh g { s.proc p with code := [new] } ≤ _ ∨ g = f ∧
        Proc.fresh g { s.proc p with code := [new] } ≤ 1 ∧ _
      rw [fresh_eq here, zero] at part
      rw [fresh_eq here, value]
      simp only [map_nil, sum_nil] at part ⊢
      by_cases same : f = g
      · subst same
        rw [if_pos rfl] at this
        refine .inr ⟨rfl, ?_, zero⟩
        omega
      · rw [if_neg same] at this
        exact .inl (by omega)
  · intro k
    have := serials k
    simp only [here, map_cons, map_nil, sum_cons, sum_nil, File.holds]
    omega
  · simpa using agrees
  · simp [child]

theorem Sound.reref (here : (s.proc p).code = op :: rest) {ref : Nat} (positive : 0 < ref)
    (owns : ∀ g, tally (kept (s.proc p).ofile rest) g + (rest.map (credit g)).sum +
        (if g = f then (s.file f).ref else 0) =
      tally (kept (op.after (s.proc p).ofile) rest) g +
        (op.credit g + (rest.map (credit g)).sum) + if g = f then ref else 0)
    (serials : ∀ k, op.serials k = 0) (valid : Valid (s.proc p).cwd (s.proc p).ofile rest) :
    Sound ((s.setRef f ref).setCode p rest) := by
  refine sound.refile ?_ live ?_ (fun typed => sound.ledger.files f typed) ?_ valid ?_
  · refine sound.counts.change f { s.file f with ref } rfl rfl (fun g => ?_)
      (fun zero => absurd zero (by simp; omega)) (fun g => .inl ?_) fun _ => .inl ⟨rfl, ?_⟩
    · rw [owns_eq here]
      exact owns g
    · rw [fresh_eq here]
      exact Nat.le_add_left ..
    · rw [fresh_eq here]
      exact Nat.le_add_left ..
  · intro k
    simp only [here, map_cons, sum_cons, serials, File.holds]
    omega
  · intro x mem
    exact sound.ledger.ops p x (by rw [here]; exact mem_cons_of_mem _ mem)
  · intro x mem
    exact .inl (by rw [here]; exact mem_cons_of_mem _ mem)

theorem Sound.dup (here : (s.proc p).code = .filedup fd new f :: rest) :
    ¬ (s.file f).ref < 1 ∧ Sound ((s.setRef f ((s.file f).ref + 1)).setCode p rest) := by
  obtain ⟨⟨some, old, copy, apart⟩, ends, -⟩ := sound.fits live here
  obtain rfl := ends rfl
  have still : update (s.proc p).ofile new none fd = Option.some f := by
    rw [update_of_ne apart]
    exact old
  constructor
  · have mine := sound.counts.owns_le p f
    have positive := tally_pos still
    rw [owns_eq here] at mine
    change tally (update _ _ _) f + _ ≤ _ at mine
    omega
  · refine sound.reref live here (Nat.succ_pos _) (fun g => ?_) (fun _ => rfl) some
    have := tally_clear copy g
    simp only [kept_nil, after, credit, map_nil, sum_nil]
    by_cases same : f = g
    · rw [if_pos same] at this
      rw [if_pos same.symm, if_pos same.symm]
      omega
    · rw [if_neg same] at this
      rw [if_neg (Ne.symm same), if_neg (Ne.symm same)]
      omega

section

variable (here : (s.proc p).code = .fileclose f :: rest)
include here

omit live in
theorem Sound.ref_pos : 0 < (s.file f).ref := by
  have mine := sound.counts.owns_le p f
  have credit : (Op.fileclose f : Op ι π n).credit f = 1 := if_pos rfl
  rw [Proc.owns_eq here] at mine
  omega

theorem Sound.close (more : (s.file f).ref - 1 > 0) :
    Sound ((s.setRef f ((s.file f).ref - 1)).setCode p rest) := by
  refine sound.reref live here more (fun g => ?_) (fun _ => rfl) ((sound.fits live here).2.2 rfl)
  simp only [after, credit]
  by_cases same : f = g
  · rw [if_pos same, if_pos same.symm, if_pos same.symm]
    omega
  · rw [if_neg same, if_neg (Ne.symm same), if_neg (Ne.symm same)]
    omega

end

omit live in
theorem Sound.release (f : Fin NFILE) : ∃ ops : List (Op ι π n), (s.file f).release = some ops ∧
      (∀ k, (ops.map (Op.serials k)).sum = (s.file f).holds k) ∧
      (∀ g, (ops.map (Op.credit g)).sum = 0 ∧ (ops.map (Op.fresh g)).sum = 0) ∧
      (∀ x ∈ ops, x.Agrees s.refs ∧ x.child = none ∧ x.last = false) ∧
      ∀ (cwd : Option (Held ι)) ofile rest, (∀ g, kept ofile (ops ++ rest) g = kept ofile rest g) ∧
        (Valid cwd ofile rest → Valid cwd ofile (ops ++ rest)) := by
  unfold File.release File.holds
  by_cases typed : (s.file f).type = .none
  · exact ⟨[], by rw [typed], by simp [typed], by simp, by simp, fun _ _ _ => ⟨fun _ => rfl, id⟩⟩
  · obtain ⟨target, is, there⟩ := sound.ledger.files f typed
    unfold File.target at is
    cases kind : (s.file f).type with
    | none => exact absurd kind typed
    | pipe =>
      simp only [kind, Option.map_eq_some_iff] at is
      obtain ⟨pi, has, rfl⟩ := is
      refine ⟨[.pipeclose pi (s.file f).writable (s.file f).serial], by simp [has], ?_, ?_, ?_, ?_⟩
      · simp [Op.serials]
      · simp [Op.credit, Op.fresh]
      · simpa [Op.Agrees, Op.child, Op.last] using there
      · exact fun _ _ _ => ⟨fun _ => rfl, fun valid => ⟨trivial, by rintro ⟨⟩, fun _ => valid⟩⟩
    | inode | device =>
      simp only [kind, Option.map_eq_some_iff] at is
      obtain ⟨ip, has, rfl⟩ := is
      refine ⟨[.iput ⟨ip, (s.file f).serial⟩], by simp [has], ?_, ?_, ?_, ?_⟩
      · simp [Op.serials]
      · simp [Op.credit, Op.fresh]
      · simpa [Op.Agrees, Op.child, Op.last] using there
      · exact fun _ _ _ => ⟨fun _ => rfl, fun valid => ⟨trivial, by rintro ⟨⟩, fun _ => valid⟩⟩

theorem Sound.closeLast (here : (s.proc p).code = .fileclose f :: rest)
    (one : ¬ (s.file f).ref - 1 > 0) :
    ∃ ops, (s.file f).release = some ops ∧
      Sound ((s.setFile f { s.file f with ref := 0, type := .none }).setCode p (ops ++ rest)) := by
  have positive := sound.ref_pos here
  obtain ⟨ops, done, serials, none, each, kept⟩ := sound.release f
  refine ⟨ops, done, sound.refile ?_ live (fun k => ?_) (fun typed => absurd rfl typed) ?_
    ((kept _ _ _).2 ((sound.fits live here).2.2 rfl)) ?_⟩
  · refine sound.counts.change f { s.file f with ref := 0, type := .none } rfl rfl (fun g => ?_)
      (fun _ => rfl) (fun g => .inl ?_) fun typed => absurd rfl typed
    · have same : Ftable.kept (s.proc p).ofile (ops ++ rest) = Ftable.kept (s.proc p).ofile rest :=
        funext (kept (s.proc p).cwd (s.proc p).ofile rest).1
      simp only [Proc.owns, here, kept_cons, map_cons, sum_cons, map_append,
        sum_append, (none g).1, after, credit]
      change tally (Ftable.kept (s.proc p).ofile (ops ++ rest)) g + _ + _ = _
      rw [same]
      by_cases eq : f = g
      · rw [if_pos eq, if_pos eq.symm, if_pos eq.symm]
        omega
      · rw [if_neg eq, if_neg (Ne.symm eq), if_neg (Ne.symm eq), Nat.zero_add]
    · simp only [Proc.fresh, here, map_cons, sum_cons, map_append, sum_append, (none g).2]
      omega
  · simp only [here, map_cons, sum_cons, map_append, sum_append, serials]
    simp [File.holds, Op.serials]
  · intro x mem
    rcases List.mem_append.mp mem with new | old
    · exact (each x new).1
    · exact sound.ledger.ops p x (by rw [here]; exact mem_cons_of_mem _ old)
  · intro x mem
    rcases List.mem_append.mp mem with new | old
    · exact .inr (each x new).2.1
    · exact .inl (by rw [here]; exact mem_cons_of_mem _ old)

theorem Sound.fill (here : (s.proc p).code = .openFill mode held f :: rest) :
    Sound ((s.setFile f { s.file f with
      type := if mode.device then .device else .inode
      ip := some held.ip
      readable := mode.readable
      writable := mode.writable
      serial := held.serial }).setCode p rest) := by
  obtain ⟨⟨some, fd, slot⟩, ends, -⟩ := sound.fits live here
  obtain rfl := ends rfl
  have agrees := sound.ledger.ops p _ (by rw [here]; exact mem_cons_self)
  have mine : 0 < (s.proc p).fresh f := by simp [Proc.fresh, here, Op.fresh]
  have untyped := sound.counts.blank f (Nat.lt_of_lt_of_le mine (le_sum s.proc (Proc.fresh f) p))
  have owned : 0 < (s.file f).ref := by
    refine Nat.lt_of_lt_of_le ?_ (sound.counts.owns_le p f)
    rw [owns_eq here]
    exact Nat.add_pos_left (tally_pos slot) _
  have typed : (if mode.device then FdType.device else .inode) ≠ .none := by split <;> simp
  refine sound.refile ?_ live (fun k => ?_) (fun _ => ?_) (by simp) some (by simp)
  · refine sound.counts.change f _ rfl rfl (fun g => ?_)
      (fun zero => absurd zero (Nat.pos_iff_ne_zero.mp owned)) (fun g => .inl ?_) fun _ => .inr ?_
    · rw [owns_eq here]
      rfl
    · exact Nat.zero_le _
    · exact mine
  · simp only [File.holds, here, map_cons, map_nil, sum_cons, sum_nil, serials, untyped]
    simp [typed]
  · refine ⟨.inode held.ip, ?_, agrees⟩
    unfold File.target
    cases mode.device <;> rfl

end Table

end Xv6.Ftable
