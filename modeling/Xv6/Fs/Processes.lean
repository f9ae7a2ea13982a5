import Xv6.Fs.OpenFiles

/-!
# Processes and transactions

The rules for `begin_op` and `end_op`, for the steps of `fork` on the child, and
for the beginning and the end of a call.
-/

namespace Xv6.Fs

open Function Local State

variable {Pid : Type} [DecidableEq Pid] [Fintype Pid] {sb : Super} {C : Setting Pid} {p : Pid}
  {l : Local Pid} {w : Option World} {e : Fin NINODE} {s t : State Pid}
  {gs : Pid → Local Pid} {N : Nat → Node} {own : Nat → Owner Pid} {i : Fin NFILE}
  {q child : Pid} {pr : Proc} {child' : Option (Pid × Proc)} {fd : Fin NOFILE}

/-! ## Transactions -/

/-- The invariant does not depend on the number of transactions in other ways. -/
theorem Core.retrans (core : Core sb s gs N own) (op : Bool) (disk : t.disk = s.disk)
    (itable : t.itable = s.itable) (ftable : t.ftable = s.ftable) (procs : t.procs = s.procs)
    (building : t.building = s.building)
    (trans : t.outstanding =
      ∑ q, if (update gs p { gs p with op := op } q).op then 1 else 0) :
    Core sb t (update gs p { gs p with op := op }) N own := by
  have same : ∀ {β : Type} (f : Local Pid → β), f { gs p with op := op } = f (gs p) →
      (fun q => f (update gs p { gs p with op := op } q)) =
        fun q => f (gs q) := fun f => proj_same f
  refine core.recount disk building rfl rfl rfl rfl (core.active p) ?_ ?_ ?_ ?_ trans
  · rw [itable]
    exact core.table
  · rw [itable, ftable, procs, same Local.refs rfl, same Local.files rfl, same Local.proc rfl,
      same Local.num rfl]
    exact core.refs
  · rw [itable, ftable, procs, same Local.files rfl, same Local.proc rfl, same Local.file rfl]
    exact core.files
  · rw [procs, same Local.proc rfl, same Local.child rfl]
    exact core.procs

theorem sum_op {f g : Pid → Bool} {k : Nat} (p : Pid) (here : (if g p then 1 else 0) + k =
    (if f p then 1 else 0 : Nat)) (others : ∀ q, q ≠ p → g q = f q) :
    (∑ q, if g q then 1 else 0) + k = ∑ q, if f q then 1 else 0 := by
  rw [← Finset.add_sum_erase _ (fun q => if g q then 1 else 0) (Finset.mem_univ p),
    ← Finset.add_sum_erase _ (fun q => if f q then 1 else 0) (Finset.mem_univ p), ← here,
    Finset.sum_congr rfl fun q mem => by rw [others q (Finset.ne_of_mem_erase mem)]]
  omega

theorem safe_beginOp (outside : l.op = false) :
    Safe sb C p (beginOp p) l w fun _ l' w' => l' = { l with op := true } ∧ w' = w := by
  refine safe_ghost fun s gs N own mine core => ?_
  subst mine
  refine ⟨{ gs p with op := true }, rfl, rfl, core.retrans true rfl rfl rfl rfl rfl ?_, rfl⟩
  show s.outstanding + 1 = _
  rw [core.trans]
  refine sum_op p ?_ fun q other => ?_
  · simp [outside]
  · rw [update_of_ne other]

theorem safe_endOp (inside : l.op = true) :
    Safe sb C p endOp l w fun _ l' w' => l' = { l with op := false } ∧ w' = w := by
  refine safe_ghost fun s gs N own mine core => ?_
  subst mine
  refine ⟨{ gs p with op := false }, rfl, rfl, core.retrans false rfl rfl rfl rfl rfl ?_, rfl⟩
  have sum : (∑ q, if (update gs p { gs p with op := false } q).op then 1 else 0) +
      1 = ∑ q, if (gs q).op then 1 else 0 := by
    refine sum_op p ?_ fun q other => ?_
    · simp [inside]
    · rw [update_of_ne other]
  show s.outstanding - 1 = _
  rw [core.trans, ← sum]
  omega

/-! ## The child of `fork` -/

/-- The slot of the child changes, and nothing else of the process table. -/
theorem Procs.rechild {procs : Pid → Proc} {proc : Pid → Option Proc}
    {child : Pid → Option (Pid × Proc)} {pr' : Proc}
    (old : Procs procs proc child) (idle : (procs q).state ≠ .runnable)
    (mine : ∀ q' pr, child' = some (q', pr) → q' = q ∧ pr = pr' ∧ pr'.state = .used)
    (others : ∀ p', p' ≠ p → ∀ pr, child p' ≠ some (q, pr))
    (unused : pr'.state ≠ .unused) (home : pr'.state = .runnable → pr'.cwd ≠ none) :
    Procs (update procs q pr') proc (update child p child') := by
  have busy : ∀ r pr, proc r = some pr → r ≠ q := by
    rintro r pr known rfl
    obtain ⟨rfl, runs⟩ := old.own r pr known
    exact idle runs
  have away : ∀ p' q' pr, p' ≠ p → child p' = some (q', pr) → q' ≠ q := by
    rintro p' _ pr other known rfl
    exact others p' other pr known
  refine ⟨?_, ?_, ?_, ?_, ?_⟩
  · intro r pr known
    rw [update_of_ne (busy r pr known)]
    exact old.own r pr known
  · intro p' q' pr known
    by_cases me : p' = p
    · subst me
      rw [update_self] at known
      obtain ⟨rfl, rfl, used⟩ := mine q' pr known
      rw [update_self]
      exact ⟨rfl, used⟩
    · rw [update_of_ne me] at known
      rw [update_of_ne (away p' q' pr me known)]
      exact old.young p' q' pr known
  · intro p₁ p₂ q' pr₁ pr₂ known₁ known₂
    by_cases me₁ : p₁ = p <;> by_cases me₂ : p₂ = p
    · exact me₁.trans me₂.symm
    · rw [me₁, update_self] at known₁
      rw [update_of_ne me₂] at known₂
      exact absurd (mine q' pr₁ known₁).1 (away p₂ q' pr₂ me₂ known₂)
    · rw [me₂, update_self] at known₂
      rw [update_of_ne me₁] at known₁
      exact absurd (mine q' pr₂ known₂).1 (away p₁ q' pr₁ me₁ known₁)
    · rw [update_of_ne me₁] at known₁
      rw [update_of_ne me₂] at known₂
      exact old.single p₁ p₂ q' pr₁ pr₂ known₁ known₂
  · intro r state
    by_cases here : r = q
    · rw [here, update_self] at state
      exact absurd state unused
    · rw [update_of_ne here] at state ⊢
      exact old.unused r state
  · intro r idle runs
    by_cases here : r = q
    · rw [here, update_self] at runs ⊢
      exact home runs
    · rw [update_of_ne here] at runs ⊢
      exact old.home r idle runs

theorem Core.idle_of_state (core : Core sb s gs N own)
    (idle : (s.procs q).state ≠ .runnable) : (gs q).proc = none := by
  by_contra busy
  obtain ⟨pr, proc⟩ := Option.ne_none_iff_exists'.mp busy
  obtain ⟨rfl, runs⟩ := core.procs.own q pr proc
  exact idle runs

/-- **The slot of the child changes**: it gets references, which are counted. -/
theorem Core.rechild (core : Core sb s gs N own) (pr' : Proc) (idle : (s.procs q).state ≠ .runnable)
    (disk : t.disk = s.disk) (building : t.building = s.building)
    (outstanding : t.outstanding = s.outstanding) (procs : t.procs = update s.procs q pr')
    (mine : ∀ q' pr, child' = some (q', pr) → q' = q ∧ pr = pr' ∧ pr'.state = .used)
    (others : ∀ p', p' ≠ p → ∀ pr, (gs p').child ≠ some (q, pr))
    (unused : pr'.state ≠ .unused) (home : pr'.state = .runnable → pr'.cwd ≠ none)
    (itable : ∀ e, ∃ r : Nat, t.itable e = { s.itable e with ref := r } ∧
      (0 < r → 0 < (s.itable e).ref) ∧
      (r : Int) = (s.itable e).ref + (cwdRef pr' e - cwdRef (s.procs q) e))
    (ftable : ∀ i, ∃ r : Nat, t.ftable i = { s.ftable i with ref := r } ∧
      (r = 0 → (s.ftable i).ref = 0) ∧
      (r : Int) = (s.ftable i).ref + (slotRef pr' i - slotRef (s.procs q) i))
    (cwd : ∀ e, cwdRef (s.procs q) e ≤ cwdRef pr' e)
    (slots : ∀ i, slotRef (s.procs q) i ≤ slotRef pr' i)
    (opened : ∀ i, (s.ftable i).type = .none → slotRef pr' i = slotRef (s.procs q) i)
    (ofile : ∀ fd i, pr'.ofile fd = some i → (s.ftable i).type ≠ .none) :
    Core sb t (update gs p { gs p with child := child' }) N own := by
  have same : ∀ {β : Type} (f : Local Pid → β), f { gs p with child := child' } = f (gs p) →
      (fun q => f (update gs p { gs p with child := child' } q)) =
        fun q => f (gs q) := fun f => proj_same f
  have resting := core.idle_of_state idle
  have inodes : ∀ r e, share t.procs (fun q => (gs q).refs) r e =
      share s.procs (fun q => (gs q).refs) r e +
        if r = q then cwdRef pr' e - cwdRef (s.procs q) e else 0 := by
    intro r e
    unfold share
    rw [procs]
    by_cases here : r = q
    · subst here
      rw [update_self, if_pos rfl]
      ring
    · rw [update_of_ne here, if_neg here, Int.add_zero]
  have files : ∀ r i, slotShare t.procs (fun q => (gs q).files) r i =
      slotShare s.procs (fun q => (gs q).files) r i +
        if r = q then slotRef pr' i - slotRef (s.procs q) i else 0 := by
    intro r i
    unfold slotShare
    rw [procs]
    by_cases here : r = q
    · subst here
      rw [update_self, if_pos rfl]
      ring
    · rw [update_of_ne here, if_neg here, Int.add_zero]
  have kept : ∀ i, (t.ftable i).Same (s.ftable i) := by
    intro i
    obtain ⟨r, new, -⟩ := ftable i
    rw [new]
    exact ⟨rfl, rfl, rfl, rfl, rfl⟩
  have inums : ∀ e, (t.itable e).inum = (s.itable e).inum := by
    intro e
    obtain ⟨r, new, -⟩ := itable e
    rw [new]
  refine core.recount disk building rfl rfl rfl rfl (core.active p) ?_ ?_ ?_ ?_
    (core.trans_same rfl outstanding)
  · refine core.table.reref fun e => ?_
    obtain ⟨r, new, pos, -⟩ := itable e
    exact ⟨r, new, pos⟩
  · rw [same Local.refs rfl, same Local.files rfl, same Local.proc rfl, same Local.num rfl]
    refine ⟨?_, ?_, ?_, ?_, ?_⟩
    · intro e
      obtain ⟨r, new, -, count⟩ := itable e
      have sum : ∑ r, share t.procs (fun q => (gs q).refs) r e =
          ∑ r, share s.procs (fun q => (gs q).refs) r e +
            (cwdRef pr' e - cwdRef (s.procs q) e) := by
        refine sum_shift q ?_ fun r other => ?_
        · rw [inodes, if_pos rfl]
        · rw [inodes, if_neg other, Int.add_zero]
      have refs : ∀ i, fileRef (t.ftable i) e = fileRef (s.ftable i) e :=
        fun i => (kept i).fileRef_eq e
      rw [new, sum]
      simp only [refs]
      rw [count, core.refs.count e]
      ring
    · intro r e
      rw [inodes]
      have := core.refs.nonneg r e
      have := cwd e
      split <;> omega
    · intro r e viewed
      refine (core.refs.holder r e viewed).imp (fun some => ?_) ?_
      · rw [inodes]
        have := cwd e
        split <;> omega
      · rintro ⟨j, some, here⟩
        refine ⟨j, ?_, ?_⟩
        · rw [files]
          have := slots j
          split <;> omega
        · rw [(kept j).fileRef_eq]
          exact here
    · intro r e j busy num some
      have other : r ≠ q := by
        rintro rfl
        exact busy resting
      rw [inodes, if_neg other, Int.add_zero] at some
      rw [inums]
      exact core.refs.num r e j busy num some
    · intro r e v viewed isSole j
      rw [(kept j).fileRef_eq]
      exact core.refs.sole r e v viewed isSole j
  · rw [same Local.files rfl, same Local.proc rfl, same Local.file rfl]
    refine ⟨?_, ?_, ?_, ?_, ?_, ?_, ?_, ?_⟩
    · intro j
      obtain ⟨r, new, -, count⟩ := ftable j
      have sum : ∑ r, slotShare t.procs (fun q => (gs q).files) r j =
          ∑ r, slotShare s.procs (fun q => (gs q).files) r j +
            (slotRef pr' j - slotRef (s.procs q) j) := by
        refine sum_shift q ?_ fun r other => ?_
        · rw [files, if_pos rfl]
        · rw [files, if_neg other, Int.add_zero]
      rw [new, sum]
      show (r : Int) = _
      rw [count, core.files.count j]
    · intro r j
      rw [files]
      have := core.files.nonneg r j
      have := slots j
      split <;> omega
    · intro j closed
      obtain ⟨r, new, zero, -⟩ := ftable j
      rw [(kept j).type]
      refine core.files.closed j (zero ?_)
      rw [new] at closed
      exact closed
    · intro r j g busy known some
      have other : r ≠ q := by
        rintro rfl
        exact busy resting
      rw [files, if_neg other, Int.add_zero] at some
      exact (kept j).trans (core.files.same r j g busy known some)
    · intro j opens
      rw [(kept j).type] at opens
      rw [(kept j).ip, (kept j).writable, inums]
      exact core.files.kind j opens
    · intro j type r r' some some'
      rw [(kept j).type] at type
      rw [files] at some some'
      have equal := opened j type
      refine core.files.single j type r r' ?_ ?_
      · split at some <;> omega
      · split at some' <;> omega
    · intro r free fd j here
      rw [(kept j).type]
      rw [procs] at here
      by_cases child : r = q
      · rw [child, update_self] at here
        exact ofile fd j here
      · rw [update_of_ne child] at here
        exact core.files.opened r free fd j here
    · intro r free j
      rw [files, procs]
      have old := core.files.resting r free j
      by_cases child : r = q
      · subst child
        rw [update_self, if_pos rfl, old]
        ring
      · rw [update_of_ne child, if_neg child, Int.add_zero]
        exact old
  · rw [same Local.proc rfl, procs]
    have children : (fun r => (update gs p { gs p with child := child' } r).child) =
        update (fun r => (gs r).child) p child' := proj_update Local.child gs p _
    rw [children]
    exact core.procs.rechild idle mine others unused home

theorem safe_allocproc (child : Pid) : Safe sb C p (allocproc child) l w fun found l' w' =>
      ((found = true ∧ ∃ pr : Proc, pr.state = .used ∧ pr.cwd = none ∧
        (∀ fd, pr.ofile fd = none) ∧ l' = { l with child := some (child, pr) }) ∨
      (found = false ∧ l' = l)) ∧ w' = w := by
  refine safe_ghost fun s gs N own mine core => ?_
  subst mine
  by_cases free : (s.procs child).state = .unused
  · simp only [if_pos free]
    obtain ⟨cwd, ofile⟩ := core.procs.unused child free
    refine ⟨{ gs p with child := some (child, { s.procs child with state := .used }) }, rfl,
      rfl, ?_,
      .inl ⟨trivial, { s.procs child with state := .used }, rfl, cwd, ofile, rfl⟩⟩
    have refs : ∀ e, cwdRef { s.procs child with state := .used } e = cwdRef (s.procs child) e :=
      fun _ => rfl
    have slots : ∀ i, slotRef { s.procs child with state := .used } i =
        slotRef (s.procs child) i := fun _ => rfl
    refine core.rechild (q := child) { s.procs child with state := .used }
      (by rw [free]; decide) rfl rfl rfl rfl ?_ ?_ nofun nofun ?_ ?_
      (fun _ => le_rfl) (fun _ => le_rfl) (fun _ _ => rfl) ?_
    · rintro q' pr ⟨⟩
      exact ⟨rfl, rfl, rfl⟩
    · intro p' _ pr known
      obtain ⟨rfl, used⟩ := core.procs.young p' child pr known
      rw [free] at used
      cases used
    · intro e
      exact ⟨(s.itable e).ref, rfl, id, by rw [refs]; ring⟩
    · intro i
      exact ⟨(s.ftable i).ref, rfl, id, by rw [slots]; ring⟩
    · intro fd i here
      rw [show ({ s.procs child with state := .used } : Proc).ofile fd = _ from ofile fd] at here
      cases here
  · simp only [if_neg free]
    refine ⟨gs p, rfl, rfl, ?_, .inr ⟨trivial, rfl⟩⟩
    rw [update_eq_self]
    exact core

theorem slotRef_update (free : pr.ofile fd = none) (i j : Fin NFILE) :
    slotRef { pr with ofile := update pr.ofile fd (some i) } j =
      slotRef pr j + if j = i then 1 else 0 := by
  have counts : ∀ fds : List (Fin NOFILE), fds.Nodup →
      fds.countP (fun g => update pr.ofile fd (some i) g = some j) =
        fds.countP (fun g => pr.ofile g = some j) + if fd ∈ fds ∧ j = i then 1 else 0 := by
    intro fds nodup
    induction fds with
    | nil => simp
    | cons g fds ih =>
      obtain ⟨fresh, nodup⟩ := List.nodup_cons.mp nodup
      rw [List.countP_cons, List.countP_cons, ih nodup]
      by_cases here : g = fd
      · subst here
        simp [free, fresh, eq_comm]
      · simp only [update_of_ne here, List.mem_cons, Ne.symm here, false_or]
        omega
  unfold slotRef
  rw [show ((List.finRange NOFILE).countP fun g =>
    ({ pr with ofile := update pr.ofile fd (some i) } : Proc).ofile g = some j) =
    (List.finRange NOFILE).countP (fun g => update pr.ofile fd (some i) g = some j)
    from rfl, counts _ (List.nodup_finRange NOFILE)]
  simp only [List.mem_finRange, true_and]
  split <;> simp

section

variable (young : l.child = some (child, pr))
  (others : ∀ fd j, pr.ofile fd = some j → ∃ g, l.OwnFile j ∧ l.file j = some g ∧ g.type ≠ .none)
include young others

omit young in
/-- The files that the child has already are open. -/
theorem Core.typed (core : Core sb s gs N own) (mine : l = gs p) (g : Fin NOFILE) (j : Fin NFILE)
    (there : pr.ofile g = some j) : (s.ftable j).type ≠ .none := by
  subst mine
  obtain ⟨h, own', known', type⟩ := others g j there
  rw [(core.file_same known' own').type]
  exact type

theorem safe_forkFile {f : File} (free : pr.ofile fd = none) (has : l.OwnFile i)
    (known : l.file i = some f) (opened : f.type ≠ .none) :
    Safe sb C p (forkFile child fd i) l w fun _ l' w' =>
      l' = { l with child := some (child,
        { pr with ofile := update pr.ofile fd (some i) }) } ∧ w' = w := by
  refine safe_ghost fun s gs N own mine core => ?_
  subst mine
  have mine := core.own_slot has
  have positive := core.file_ref_pos mine
  have same := core.file_same known has
  obtain ⟨here, used⟩ := core.procs.young p child pr young
  simp only [if_neg (show ¬ (s.ftable i).ref < 1 by omega)]
  refine ⟨{ gs p with child := some (child,
    { pr with ofile := update pr.ofile fd (some i) }) }, rfl, rfl, ?_, rfl⟩
  have slots := slotRef_update (i := i) free
  refine core.rechild (q := child) { pr with ofile := update pr.ofile fd (some i) }
    (by rw [here, used]; decide) rfl rfl rfl ?_ ?_ ?_ (by rw [used]; decide)
    (fun runs => by rw [used] at runs; cases runs) ?_ ?_ (fun e => by rw [here]; exact le_rfl) ?_ ?_
    ?_
  · simp only [setProc, State.setFile, here]
  · rintro q' pr' ⟨⟩
    exact ⟨rfl, rfl, used⟩
  · intro p' other pr' young'
    exact other (core.procs.single p' p child pr' pr young' young)
  · intro e
    refine ⟨(s.itable e).ref, rfl, id, ?_⟩
    rw [here]
    show _ = _ + (cwdRef pr e - cwdRef pr e)
    ring
  · intro j
    rw [slots j, here]
    by_cases equal : j = i
    · subst equal
      refine ⟨(s.ftable j).ref + 1, update_self .., fun zero => by omega, ?_⟩
      rw [if_pos rfl]
      push_cast
      ring
    · refine ⟨(s.ftable j).ref, update_of_ne equal .., id, ?_⟩
      rw [if_neg equal]
      ring
  · intro j
    rw [slots j, here]
    split <;> omega
  · intro j type
    rw [slots j, here, if_neg, Int.add_zero]
    rintro rfl
    exact opened (same.type.symm.trans type)
  · intro g j there
    replace there : update pr.ofile fd (some i) g = some j := there
    by_cases equal : g = fd
    · subst equal
      rw [update_self] at there
      cases there
      rw [same.type]
      exact opened
    · rw [update_of_ne equal] at there
      exact core.typed others rfl g j there

theorem safe_forkCwd (free : pr.cwd = none) (has : l.Own e) :
    Safe sb C p (forkCwd child e) l w fun _ l' w' =>
      l' = { l with child := some (child, { pr with cwd := some e }) } ∧ w' = w := by
  refine safe_ghost fun s gs N own mine core => ?_
  subst mine
  have mine := core.own_share has
  have positive := core.refs.ref_pos_of_share mine
  obtain ⟨here, used⟩ := core.procs.young p child pr young
  refine ⟨{ gs p with child := some (child, { pr with cwd := some e }) }, rfl, rfl, ?_, rfl⟩
  have refs : ∀ e', cwdRef { pr with cwd := some e } e' = if e' = e then 1 else 0 := by
    intro e'
    unfold cwdRef
    simp only [Option.some.injEq, eq_comm]
  have zero : ∀ e', cwdRef pr e' = 0 := by
    intro e'
    unfold cwdRef
    rw [free]
    rfl
  refine core.rechild (q := child) { pr with cwd := some e }
    (by rw [here, used]; decide) rfl rfl rfl ?_ ?_ ?_ (by rw [used]; decide)
    (fun runs => by rw [used] at runs; cases runs) ?_ ?_ ?_ (fun i => by rw [here]; exact le_rfl)
    (fun i _ => by rw [here]; rfl) ?_
  · simp only [setProc, setInode, here]
  · rintro q' pr' ⟨⟩
    exact ⟨rfl, rfl, used⟩
  · intro p' other pr' young'
    exact other (core.procs.single p' p child pr' pr young' young)
  · intro e'
    rw [refs, here, zero]
    by_cases equal : e' = e
    · subst equal
      refine ⟨(s.itable e').ref + 1, update_self .., fun _ => positive, ?_⟩
      rw [if_pos rfl]
      push_cast
      ring
    · refine ⟨(s.itable e').ref, update_of_ne equal .., id, ?_⟩
      rw [if_neg equal]
      ring
  · intro i
    refine ⟨(s.ftable i).ref, rfl, id, ?_⟩
    rw [here]
    show _ = _ + (slotRef pr i - slotRef pr i)
    ring
  · intro e'
    rw [refs, here, zero]
    split <;> omega
  · exact core.typed others rfl

theorem safe_setRunnable (home : pr.cwd ≠ none) :
    Safe sb C p (setProcState child .runnable) l w fun _ l' w' =>
      l' = { l with child := none } ∧ w' = w := by
  refine safe_ghost fun s gs N own mine core => ?_
  subst mine
  obtain ⟨here, used⟩ := core.procs.young p child pr young
  refine ⟨{ gs p with child := none }, rfl, rfl, ?_, rfl⟩
  refine core.rechild (q := child) { pr with state := .runnable }
    (by rw [here, used]; decide) rfl rfl rfl ?_ nofun ?_ nofun (fun _ => home) ?_ ?_
    (fun e => by rw [here]; exact le_rfl) (fun i => by rw [here]; exact le_rfl)
    (fun i _ => by rw [here]; rfl) ?_
  · simp only [setProc, here]
  · intro p' other pr' young'
    exact other (core.procs.single p' p child pr' pr young' young)
  · intro e
    refine ⟨(s.itable e).ref, rfl, id, ?_⟩
    rw [here]
    show _ = _ + (cwdRef pr e - cwdRef pr e)
    ring
  · intro i
    refine ⟨(s.ftable i).ref, rfl, id, ?_⟩
    rw [here]
    show _ = _ + (slotRef pr i - slotRef pr i)
    ring
  · exact core.typed others rfl

end

/-! ## The beginning and the end of a call -/

/-- A process in a call with nothing in its hands. -/
structure Local.Clean (l : Local Pid) : Prop where
  view : ∀ e, l.view e = none
  loose : ∀ b, l.loose b = none
  refs : ∀ e, l.refs e = 0
  files : ∀ i, l.files i = 0
  op : l.op = false
  child : l.child = none
  making : l.making = none
  fresh : l.fresh = none
  running : l.running = true

/-- What a process knows of its slot: it has a directory, and its files are open. -/
structure Local.Settled (l : Local Pid) (pr : Proc) : Prop where
  proc : l.proc = some pr
  runs : pr.state = .runnable
  home : pr.cwd ≠ none
  opened : ∀ fd i, pr.ofile fd = some i → ∃ f, l.file i = some f ∧ f.type ≠ .none

/-- The ghost value of a process that starts a call. -/
def Local.started (s : State Pid) (p : Pid) : Local Pid :=
  { (Local.idle : Local Pid) with
    running := true
    proc := some (s.procs p)
    num := fun e => some (s.itable e).inum
    file := fun i => some (s.ftable i) }

/-- **A process starts a call.** -/
theorem Core.start (core : Core sb s gs N own) (idle : gs p = Local.idle)
    (runs : (s.procs p).state = .runnable) :
    Core sb s (update gs p (started s p)) N own ∧
      (started s p).Clean ∧ (started s p).Settled (s.procs p) := by
  have same : ∀ {β : Type} (f : Local Pid → β), f (started s p) = f Local.idle →
      (fun q => f (update gs p (started s p) q)) = fun q => f (gs q) := by
    intro β f equal
    exact proj_same f (by rw [equal, idle])
  have proc : (gs p).proc = none := by rw [idle]; rfl
  have other : ∀ q, (update gs p (started s p) q).proc = none →
      q ≠ p ∧ (gs q).proc = none := by
    intro q none
    have apart : q ≠ p := by
      rintro rfl
      rw [update_self] at none
      cases none
    rw [update_of_ne apart] at none
    exact ⟨apart, none⟩
  refine ⟨?_, ⟨fun _ => rfl, fun _ => rfl, fun _ => rfl, fun _ => rfl, rfl, rfl, rfl, rfl, rfl⟩,
    rfl, runs, core.procs.home p proc runs, ?_⟩
  · have kept : ∀ {β : Type} (f : Local Pid → β), f (started s p) = f Local.idle →
        f (started s p) = f (gs p) := fun f equal => by rw [equal, idle]
    refine core.recount rfl rfl (kept Local.view rfl) (kept loose rfl) (kept making rfl)
      (kept fresh rfl) (fun _ _ => rfl) core.table ?_ ?_ ?_
      (core.trans_same (kept op rfl) rfl)
    · rw [same Local.refs rfl, same Local.files rfl]
      refine { core.refs with num := ?_ }
      intro q e j busy num some
      by_cases me : q = p
      · subst me
        rw [update_self] at num
        exact Option.some.inj num
      · rw [update_of_ne me] at busy num
        exact core.refs.num q e j busy num some
    · rw [same Local.files rfl]
      refine { core.files with same := ?_, opened := ?_, resting := ?_ }
      · intro q j f busy known some
        by_cases me : q = p
        · subst me
          rw [update_self] at known
          cases known
          exact .refl _
        · rw [update_of_ne me] at busy known
          exact core.files.same q j f busy known some
      · intro q none
        exact core.files.opened q (other q none).2
      · intro q none
        exact core.files.resting q (other q none).2
    · rw [same Local.child rfl]
      refine { core.procs with own := ?_, home := ?_ }
      · intro q pr known
        by_cases me : q = p
        · subst me
          rw [update_self] at known
          cases known
          exact ⟨rfl, runs⟩
        · rw [update_of_ne me] at known
          exact core.procs.own q pr known
      · intro q none
        exact core.procs.home q (other q none).2
  · intro fd j here
    exact ⟨_, rfl, core.files.opened p proc fd j here⟩

/-- **A process ends its call**, and may leave its slot to others. -/
theorem Core.rest (core : Core sb s gs N own) (pr' : Proc) (clean : (gs p).Clean)
    (proc : (gs p).proc = some pr) (cwd : pr'.cwd = pr.cwd) (ofile : pr'.ofile = pr.ofile)
    (unused : pr'.state = .unused → pr.cwd = none ∧ ∀ fd, pr.ofile fd = none)
    (home : pr'.state = .runnable → pr.cwd ≠ none)
    (opened : ∀ fd i, pr.ofile fd = some i → (s.ftable i).type ≠ .none) :
    Core sb (s.setProc p fun _ => pr') (update gs p idle) N own := by
  obtain ⟨here, runs⟩ := core.procs.own p pr proc
  have same : ∀ {β : Type} (f : Local Pid → β), f idle = f (gs p) →
      (fun q => f (update gs p idle q)) = fun q => f (gs q) :=
    fun f => proj_same f
  have view : (idle : Local Pid).view = (gs p).view :=
    funext fun e => (clean.view e).symm
  have loose : (idle : Local Pid).loose = (gs p).loose :=
    funext fun b => (clean.loose b).symm
  have refs : (idle : Local Pid).refs = (gs p).refs :=
    funext fun e => (clean.refs e).symm
  have files : (idle : Local Pid).files = (gs p).files :=
    funext fun i => (clean.files i).symm
  have procs : ∀ q, (s.setProc p fun _ => pr').procs q = if q = p then pr' else s.procs q := by
    intro q
    by_cases me : q = p
    · subst me
      rw [procs_self, if_pos rfl]
    · rw [procs_ne me, if_neg me]
  have cwds : ∀ q e, cwdRef ((s.setProc p fun _ => pr').procs q) e = cwdRef (s.procs q) e := by
    intro q e
    rw [procs]
    split
    next me =>
      unfold cwdRef
      rw [cwd, me, here]
    next => rfl
  have slots : ∀ q i, slotRef ((s.setProc p fun _ => pr').procs q) i = slotRef (s.procs q) i := by
    intro q i
    rw [procs]
    split
    next me =>
      unfold slotRef
      rw [ofile, me, here]
    next => rfl
  have inodes : share (s.setProc p fun _ => pr').procs (fun q => (gs q).refs) =
      share s.procs fun q => (gs q).refs := by
    funext q e
    unfold share
    rw [cwds]
  have shares : slotShare (s.setProc p fun _ => pr').procs (fun q => (gs q).files) =
      slotShare s.procs fun q => (gs q).files := by
    funext q i
    unfold slotShare
    rw [slots]
  have busy : ∀ q, (update gs p idle q).proc ≠ none → q ≠ p ∧ (gs q).proc ≠ none := by
    intro q some
    have apart : q ≠ p := by
      rintro rfl
      rw [update_self] at some
      exact some rfl
    rw [update_of_ne apart] at some
    exact ⟨apart, some⟩
  refine core.recount rfl rfl view loose clean.making.symm clean.fresh.symm
    (fun e viewed => absurd (clean.view e) viewed) core.table ?_ ?_ ?_
    (core.trans_same clean.op.symm rfl)
  · rw [same Local.refs refs, same Local.files files, inodes, shares]
    refine { core.refs with num := ?_ }
    intro q e j some num
    obtain ⟨apart, some⟩ := busy q some
    rw [update_of_ne apart] at num
    exact core.refs.num q e j some num
  · rw [same Local.files files, shares]
    refine { core.files with same := ?_, opened := ?_, resting := ?_ }
    · intro q j f some known
      obtain ⟨apart, some⟩ := busy q some
      rw [update_of_ne apart] at known
      exact core.files.same q j f some known
    · intro q none fd j there
      rw [procs] at there
      split at there
      next =>
        rw [ofile] at there
        exact opened fd j there
      next apart =>
        rw [update_of_ne apart] at none
        exact core.files.opened q none fd j there
    · intro q none j
      rw [slots]
      by_cases me : q = p
      · subst me
        unfold slotShare
        show slotRef (s.procs q) j + (gs q).files j = _
        rw [clean.files j, Int.add_zero]
      · rw [update_of_ne me] at none
        exact core.files.resting q none j
  · rw [same Local.child clean.child.symm, proj_update Local.proc]
    refine core.procs.reproc proc nofun ?_ fun _ => ?_
    · rw [cwd, ofile]
      exact unused
    · rw [cwd]
      exact home

theorem done_of_clean (clean : l.Clean) (settled : l.Settled pr) :
    (theory sb C).Done idle p l none := by
  rintro s gs rfl ⟨N, own, core, -⟩
  obtain ⟨here, -⟩ := core.procs.own p pr settled.proc
  refine ⟨N, own, ?_, nofun⟩
  have after := core.rest pr clean settled.proc rfl rfl
    (fun unused => by rw [settled.runs] at unused; cases unused) (fun _ => settled.home) ?_
  · have self : (s.setProc p fun _ => pr) = s := by
      unfold setProc
      rw [← here, update_eq_self]
    rwa [self] at after
  · intro fd i there
    obtain ⟨f, known, type⟩ := settled.opened fd i there
    have own : (gs p).OwnFile i := by
      refine ⟨pr, settled.proc, ?_⟩
      have some : 0 < (List.finRange NOFILE).countP fun fd => pr.ofile fd = some i :=
        List.countP_pos_iff.mpr ⟨fd, List.mem_finRange fd, decide_eq_true there⟩
      unfold slotRef
      rw [clean.files i]
      omega
    rw [(core.file_same known own).type]
    exact type

theorem safe_setUnused (clean : l.Clean) (proc : l.proc = some pr)
    (cwd : pr.cwd = none) (ofile : ∀ fd, pr.ofile fd = none) :
    Safe sb C p (setProcState p .unused) l none fun _ l' w' =>
      w' = none ∧ l' = idle := by
  refine safe_step fun s gs N own mine core known => ?_
  subst mine
  obtain ⟨here, -⟩ := core.procs.own p pr proc
  intro _
  have after := core.rest { pr with state := .unused } clean proc rfl rfl
    (fun _ => ⟨cwd, ofile⟩) nofun (fun fd i there => by rw [ofile] at there; cases there)
  refine ⟨idle, none, N, own, rfl, ?_, nofun, rfl, rfl⟩
  simpa only [setProc, here] using after

end Xv6.Fs
