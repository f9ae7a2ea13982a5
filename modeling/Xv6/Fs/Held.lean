import Mathlib.Algebra.Order.BigOperators.Group.Finset
import Xv6.Fs.Blocks

/-!
# A process changes an inode it has locked

`Core.modify` is the one place where the invariant is rebuilt after a change of
a locked inode, its blocks or the free map. The rules for the single steps
(`safe_getInode` to `safe_iupdate`) follow from it.
-/

namespace Xv6.Fs

open Function

variable {Pid : Type} [DecidableEq Pid] [Fintype Pid] {view : Pid → Fin NINODE → Option View}
  {itable : Fin NINODE → Inode Pid} {ftable : Fin NFILE → File} {inodes : Pid → Fin NINODE → Int}
  {files : Pid → Fin NFILE → Int} {proc : Pid → Option Proc} {num : Pid → Fin NINODE → Option Nat}

/-! ## Ghost values after an update -/

section Ghosts

variable {β : Type}

theorem proj_update (f : Local Pid → β) (gs : Pid → Local Pid) (p : Pid)
    (l : Local Pid) : (fun q => f (update gs p l q)) = update (fun q => f (gs q)) p (f l) :=
  funext fun q => Function.apply_update (fun _ => f) gs p l q

variable {gs : Pid → Local Pid} {p : Pid} {l : Local Pid} {e : Fin NINODE} {x : Option View}

theorem proj_same (f : Local Pid → β) (same : f l = f (gs p)) :
    (fun q => f (update gs p l q)) = fun q => f (gs q) := by
  rw [proj_update, same]
  exact update_eq_self p fun q => f (gs q)

theorem view_update (change : l.view = update (gs p).view e x) (q : Pid)
    (e' : Fin NINODE) : (update gs p l q).view e' =
      if q = p ∧ e' = e then x else (gs q).view e' := by
  by_cases me : q = p
  · subst me
    rw [update_self, change]
    by_cases here : e' = e
    · subst here
      simp
    · rw [update_of_ne here, if_neg fun both => here both.2]
  · rw [update_of_ne me, if_neg fun both => me both.1]

theorem held_update (change : l.view = update (gs p).view e x) (i : Nat) :
    Held (fun q => (update gs p l q).view) i ↔ (∃ v, x = some v ∧ v.owned = true ∧ v.inum = i) ∨
      ∃ q e' v, ¬ (q = p ∧ e' = e) ∧ (gs q).view e' = some v ∧ v.owned = true ∧ v.inum = i := by
  constructor
  · rintro ⟨q, e', v, viewed, owned, inum⟩
    have viewed := (view_update change q e').symm.trans viewed
    split at viewed
    next => exact .inl ⟨v, viewed, owned, inum⟩
    next away => exact .inr ⟨q, e', v, away, viewed, owned, inum⟩
  · rintro (⟨v, rfl, owned, inum⟩ | ⟨q, e', v, away, viewed, owned, inum⟩)
    · exact ⟨p, e, v, (view_update change p e).trans (if_pos ⟨rfl, rfl⟩), owned, inum⟩
    · exact ⟨q, e', v, (view_update change q e').trans ((if_neg away).trans viewed), owned, inum⟩

end Ghosts

namespace Local

/-- Another view of a locked inode. -/
def setView (l : Local Pid) (e : Fin NINODE) (v : View) : Local Pid :=
  { l with view := Function.update l.view e (some v) }

variable {l : Local Pid} {e e' : Fin NINODE} {v v' : View}

@[simp] theorem view_set : (l.setView e v).view e = some v := update_self ..

theorem view_ne (other : e' ≠ e) : (l.setView e v).view e' = l.view e' :=
  update_of_ne other ..

@[simp] theorem setView_twice : (l.setView e v).setView e v' = l.setView e v' := by
  simp [setView]

@[simp] theorem setView_self (viewed : l.view e = some v) : l.setView e v = l := by
  simp [setView, ← viewed]

@[simp] theorem making_setView : (l.setView e v).making = l.making := rfl

end Local

/-- Another set of free blocks in what is known. -/
def withFree (w : Option World) (free : Nat → Prop) : Option World :=
  w.map fun W => { W with free := free }

@[simp] theorem isSome_withFree (w : Option World) (free : Nat → Prop) :
    (withFree w free).isSome = w.isSome := by
  simp [withFree]

@[simp] theorem withFree_withFree (w : Option World) (free free' : Nat → Prop) :
    withFree (withFree w free) free' = withFree w free' := by
  cases w <;> rfl

/-! ## Facts from the invariant -/

theorem fileRef_nonneg (f : File) (e : Fin NINODE) : 0 ≤ fileRef f e := by
  unfold fileRef
  split <;> omega

section

variable (refs : Refs itable ftable inodes files view proc num)
include refs

theorem Refs.ref_pos_of_share {p : Pid} {e : Fin NINODE}
    (some : 1 ≤ inodes p e) : 0 < (itable e).ref := by
  have total := refs.count e
  have mine : inodes p e ≤ ∑ q, inodes q e :=
    Finset.single_le_sum (fun q _ => refs.nonneg q e) (Finset.mem_univ p)
  have others : 0 ≤ ∑ i, fileRef (ftable i) e :=
    Finset.sum_nonneg fun i _ => fileRef_nonneg _ e
  omega

theorem Refs.ref_pos_of_file {i : Fin NFILE} {e : Fin NINODE}
    (some : fileRef (ftable i) e = 1) : 0 < (itable e).ref := by
  have total := refs.count e
  have nonneg : ∀ j ∈ Finset.univ, 0 ≤ fileRef (ftable j) e :=
    fun j _ => fileRef_nonneg _ e
  have mine : fileRef (ftable i) e ≤ ∑ j, fileRef (ftable j) e :=
    Finset.single_le_sum nonneg (Finset.mem_univ i)
  have others : 0 ≤ ∑ q, inodes q e := Finset.sum_nonneg fun q _ => refs.nonneg q e
  omega

end

namespace Core

variable {sb : Super} {s : State Pid} {gs : Pid → Local Pid}
  {N : Nat → Node} {own : Nat → Owner Pid} {p q : Pid} {e e' : Fin NINODE} {v v' : View}

section

variable (core : Core sb s gs N own)
include core

theorem ref_pos (viewed : (gs p).view e ≠ none) : 0 < (s.itable e).ref := by
  rcases core.refs.holder p e viewed with mine | ⟨i, -, file⟩
  · exact core.refs.ref_pos_of_share mine
  · exact core.refs.ref_pos_of_file file

section

variable (viewed : (gs p).view e = some v)
include viewed

theorem agrees : Agrees sb s.disk N (s.itable e) v :=
  core.table.agrees p e v viewed

theorem pos : 0 < (s.itable e).ref :=
  core.ref_pos (p := p) (by simp [viewed])

theorem lock : (s.itable e).lock = some p :=
  (core.table.locked p e).mpr (by simp [viewed])

theorem fresh_ne (owned : v.owned = true) {P : Nat → Prop} (i : Nat) (m : Node)
    (fresh : (gs p).fresh = some (i, m)) :
    (gs p).fresh = some (i, m) ∧ (i = (s.itable e).inum → P i) := by
  refine ⟨fresh, fun same => ?_⟩
  have free := (core.shape.fresh p i m fresh).2.2
  exact absurd ⟨p, e, v, viewed, owned, by rw [same, (core.agrees viewed).inum]⟩ free

theorem inum_lt : 0 < v.inum ∧ v.inum < sb.ninodes := by
  have := core.table.entry e (core.pos viewed)
  rw [(core.agrees viewed).inum] at this
  exact this.2

theorem entry_unique
    (used : 0 < (s.itable e').ref) (same : (s.itable e').inum = v.inum) : e' = e := by
  refine core.table.unique e' e used (core.pos viewed) ?_
  rw [same, (core.agrees viewed).inum]

theorem view_unique
    (viewed' : (gs q).view e' = some v') (same : v'.inum = v.inum) : q = p ∧ e' = e := by
  have here : e' = e := by
    refine core.entry_unique viewed (core.pos viewed') ?_
    rw [(core.agrees viewed').inum, same]
  subst here
  have first := core.lock viewed
  have second := core.lock viewed'
  rw [first] at second
  cases second
  exact ⟨rfl, rfl⟩

end

theorem trans_pos (op : (gs p).op = true) : 0 < s.outstanding := by
  rw [core.trans]
  have mine : (if (gs p).op then 1 else 0) ≤ ∑ q, if (gs q).op then 1 else 0 :=
    Finset.single_le_sum (f := fun q => if (gs q).op then 1 else 0) (fun _ _ => Nat.zero_le _)
      (Finset.mem_univ p)
  rw [if_pos op] at mine
  exact mine

theorem maker_same {t : State Pid} {l : Local Pid} (building : t.building = s.building)
    (same : l.making = (gs p).making) (i : Nat) (q : Pid) :
    t.building i = some q ↔ (update gs p l q).making = some i := by
  rw [building, core.shape.maker i q]
  exact Eq.to_iff (congrArg (· = some i) (congrFun (proj_same Local.making same) q).symm)

theorem not_held (used : 0 < (s.itable e).ref) (unlocked : (s.itable e).lock = none) :
    ¬ Held (fun q => (gs q).view) (s.itable e).inum := by
  rintro ⟨q, e', v, viewed, -, same⟩
  have here : e = e' := core.entry_unique viewed used same.symm
  subst here
  have := core.lock viewed
  rw [unlocked] at this
  cases this

end

end Core

/-- A step on an entry that nobody else has locked: the entry becomes `ip`, its view `x` and the
node of its inode `n`. -/
structure Change (sb : Super) (s : State Pid) (gs : Pid → Local Pid)
    (N : Nat → Node) (p : Pid) (e : Fin NINODE) (t : State Pid) (l : Local Pid) (ip : Inode Pid)
    (x : Option View) (n : Node) : Prop where
  used : 0 < (s.itable e).ref
  unlocked : (s.itable e).lock = none ∨ (s.itable e).lock = some p
  view : l.view = Function.update (gs p).view e x := by rfl
  refs : l.refs = (gs p).refs := by rfl
  num : l.num = (gs p).num := by rfl
  files : l.files = (gs p).files := by rfl
  file : l.file = (gs p).file := by rfl
  op : l.op = (gs p).op := by rfl
  running : l.running = (gs p).running := by rfl
  proc : l.proc = (gs p).proc := by rfl
  child : l.child = (gs p).child := by rfl
  itable : t.itable = Function.update s.itable e ip := by rfl
  ref : ip.ref = (s.itable e).ref := by rfl
  inum : ip.inum = (s.itable e).inum := by rfl
  dev : ip.dev = (s.itable e).dev := by rfl
  lock : ip.lock = if x.isSome then some p else none := by rfl
  ftable : t.ftable = s.ftable := by rfl
  procs : t.procs = s.procs := by rfl
  outstanding : t.outstanding = s.outstanding := by rfl
  dinodes : ∀ i < sb.ninodes, i ≠ (s.itable e).inum →
    dinodeAt sb t.disk i = dinodeAt sb s.disk i := by
    intros; rfl
  agrees : ∀ v, x = some v → Agrees sb t.disk (Function.update N (s.itable e).inum n) ip v
  pool : (∀ v, x = some v → v.owned = false) →
    dinodeAt sb t.disk (s.itable e).inum = n.d ∧ n.Good sb
  rest : x = none → ip.valid = true → ip.d = n.d ∧ ip.d.type ≠ 0
  holder : x ≠ none → 1 ≤ share s.procs (fun q => (gs q).refs) p e ∨
    ∃ i, 1 ≤ slotShare s.procs (fun q => (gs q).files) p i ∧ fileRef (s.ftable i) e = 1
  type : n.d.type = (N (s.itable e).inum).d.type ∨ ∀ i, fileRef (s.ftable i) e = 0
  sole : ∀ v, x = some v → v.sole = true → ∀ i, fileRef (s.ftable i) e = 0
  fresh : ∀ i m, l.fresh = some (i, m) → (gs p).fresh = some (i, m) ∧
    (i = (s.itable e).inum → n = N i ∧ t.building = s.building ∧ ∀ v, x = some v → v.owned = false)
  building : ∀ i, i ≠ (s.itable e).inum → t.building i = s.building i := by intros; rfl
  maker : ∀ i q, t.building i = some q ↔ (Function.update gs p l q).making = some i
  real : t.building (s.itable e).inum ≠ none → (dinodeAt sb t.disk (s.itable e).inum).type ≠ 0
  mine : (s.building (s.itable e).inum = none ∨ s.building (s.itable e).inum = some p) ∨
    (n = N (s.itable e).inum ∧ t.building = s.building ∧ ∀ v, x = some v → v.owned = false)
  builder : ∀ v, x = some v → v.owned = true →
    t.building (s.itable e).inum = none ∨ t.building (s.itable e).inum = some p
  carried : ∀ b, l.loose b ≠ none → ∃ e', l.view e' ≠ none
  active : x ≠ none → l.running = true

namespace Change

variable {sb : Super} {s t : State Pid} {gs : Pid → Local Pid}
  {N : Nat → Node} {own own' : Nat → Owner Pid} {p : Pid} {e : Fin NINODE} {l : Local Pid}
  {ip : Inode Pid} {x : Option View} {n : Node} {W : World}

section

variable (change : Change sb s gs N p e t l ip x n)
include change

theorem apart (core : Core sb s gs N own) {q : Pid} {e' : Fin NINODE} {v : View}
    (away : ¬ (q = p ∧ e' = e)) (viewed : (gs q).view e' = some v) :
    v.inum ≠ (s.itable e).inum ∧ e' ≠ e := by
  have other : e' ≠ e := by
    rintro rfl
    have lock := (core.table.locked q e').mpr (by simp [viewed])
    rcases change.unlocked with free | mine
    · rw [free] at lock
      cases lock
    · rw [mine] at lock
      cases lock
      exact away ⟨rfl, rfl⟩
  exact ⟨fun same => other (core.entry_unique viewed change.used same.symm).symm, other⟩

theorem held_iff (core : Core sb s gs N own) {i : Nat} (other : i ≠ (s.itable e).inum) :
    Held (fun q => (update gs p l q).view) i ↔ Held (fun q => (gs q).view) i := by
  rw [held_update change.view]
  constructor
  · rintro (⟨v, rfl, -, inum⟩ | ⟨q, e', v, -, viewed, owned, inum⟩)
    · rw [← (change.agrees v rfl).inum, change.inum] at inum
      exact absurd inum.symm other
    · exact ⟨q, e', v, viewed, owned, inum⟩
  · rintro ⟨q, e', v, viewed, owned, inum⟩
    refine .inr ⟨q, e', v, ?_, viewed, owned, inum⟩
    rintro ⟨rfl, rfl⟩
    exact other (inum.symm.trans (core.agrees viewed).inum.symm)

theorem held_here (core : Core sb s gs N own) :
    Held (fun q => (update gs p l q).view) (s.itable e).inum ↔
      ∃ v, x = some v ∧ v.owned = true := by
  rw [held_update change.view]
  constructor
  · rintro (⟨v, here, owned, -⟩ | ⟨q, e', v, away, viewed, -, inum⟩)
    · exact ⟨v, here, owned⟩
    · exact absurd inum (change.apart core away viewed).1
  · rintro ⟨v, rfl, owned⟩
    exact .inl ⟨v, rfl, owned, (change.agrees v rfl).inum.symm.trans change.inum⟩

theorem not_owned (core : Core sb s gs N own)
    (free : ¬ Held (fun q => (update gs p l q).view) (s.itable e).inum) :
    ∀ v, x = some v → v.owned = false := by
  intro v here
  by_contra owned
  exact free ((change.held_here core).mpr ⟨v, here, by simpa using owned⟩)

theorem table (core : Core sb s gs N own) :
    Table sb t.disk t.itable (fun q => (update gs p l q).view)
      (update N (s.itable e).inum n) := by
  have views := view_update change.view
  have here : t.itable e = ip := by rw [change.itable, update_self]
  have others : ∀ e', e' ≠ e → t.itable e' = s.itable e' := by
    intro e' other
    rw [change.itable, update_of_ne other]
  have kept : ∀ e', (t.itable e').ref = (s.itable e').ref ∧
      (t.itable e').inum = (s.itable e').inum ∧ (t.itable e').dev = (s.itable e').dev := by
    intro e'
    by_cases same : e' = e
    · rw [same, here]
      exact ⟨change.ref, change.inum, change.dev⟩
    · rw [others e' same]
      exact ⟨rfl, rfl, rfl⟩
  refine ⟨?_, ?_, ?_, ?_, ?_⟩
  · intro q e'
    rw [views]
    by_cases same : e' = e
    · subst same
      rw [here, change.lock]
      by_cases me : q = p
      · subst me
        cases x <;> simp
      · have old := core.table.locked q e'
        have not : (s.itable e').lock ≠ some q := by
          rcases change.unlocked with free | mine
          · simp [free]
          · rw [mine]
            intro same
            exact me (Option.some.inj same).symm
        have gone : (gs q).view e' = none := by
          by_contra viewed
          exact not (old.mpr viewed)
        cases x <;> simp [me, gone, Ne.symm me]
    · rw [others e' same, if_neg fun both => same both.2]
      exact core.table.locked q e'
  · intro q e' v viewed
    rw [views] at viewed
    split at viewed
    next both =>
      obtain ⟨rfl, rfl⟩ := both
      rw [here]
      exact change.agrees v viewed
    next away =>
      obtain ⟨inum, other⟩ := change.apart core away viewed
      have old := core.agrees viewed
      rw [others e' other]
      refine { old with node := ?_, disk := ?_ }
      · intro owned
        rw [update_of_ne inum]
        exact old.node owned
      · intro owned
        rw [change.dinodes _ (core.inum_lt viewed).2 inum]
        exact old.disk owned
  · intro e' used
    rw [(kept e').1] at used
    rw [(kept e').2.1, (kept e').2.2]
    exact core.table.entry e' used
  · intro e₁ e₂ used₁ used₂ same
    rw [(kept e₁).1] at used₁
    rw [(kept e₂).1] at used₂
    rw [(kept e₁).2.1, (kept e₂).2.1] at same
    exact core.table.unique e₁ e₂ used₁ used₂ same
  · intro e' used unlocked valid
    by_cases same : e' = e
    · subst same
      rw [here] at unlocked valid ⊢
      have gone : x = none := by
        cases x with
        | none => rfl
        | some v => simp [change.lock] at unlocked
      rw [change.inum, update_self]
      exact change.rest gone valid
    · rw [others e' same] at used unlocked valid ⊢
      have inum : (s.itable e').inum ≠ (s.itable e).inum :=
        fun equal => same (core.table.unique e' e used change.used equal)
      rw [update_of_ne inum]
      exact core.table.rest e' used unlocked valid

theorem shape (core : Core sb s gs N own) :
    Shape sb t.disk t.building (fun q => (update gs p l q).view)
      (fun q => (update gs p l q).making)
      (fun q => (update gs p l q).fresh)
      (update N (s.itable e).inum n) := by
  have old := core.shape
  refine ⟨change.maker, ?_, ?_, ?_⟩
  · intro i bound
    by_cases same : i = (s.itable e).inum
    · subst same
      exact change.real
    · rw [change.building i same, change.dinodes i bound same]
      exact old.real i bound
  · intro q e' v viewed owned
    replace viewed := (view_update change.view q e').symm.trans viewed
    split at viewed
    next both =>
      obtain ⟨rfl, rfl⟩ := both
      rw [← (change.agrees v viewed).inum, change.inum]
      exact change.builder v viewed owned
    next away =>
      rw [change.building _ (change.apart core away viewed).1]
      exact old.builder q e' v viewed owned
  · intro q i m known
    have untouched : (gs q).fresh = some (i, m) ∧ (i = (s.itable e).inum →
        n = N i ∧ t.building = s.building ∧ ∀ v, x = some v → v.owned = false) := by
      by_cases me : q = p
      · subst me
        have known : l.fresh = some (i, m) := by simpa using known
        exact change.fresh i m known
      · have known : (gs q).fresh = some (i, m) := by
          simpa [update_of_ne me] using known
        refine ⟨known, ?_⟩
        rintro rfl
        have builds := (old.fresh q _ m known).1
        rcases change.mine with none | untouched
        · rw [builds] at none
          rcases none with none | mine
          · cases none
          · exact absurd (Option.some.inj mine) me
        · exact untouched
    obtain ⟨known, touched⟩ := untouched
    obtain ⟨builds, node, free⟩ := old.fresh q i m known
    by_cases same : i = (s.itable e).inum
    · obtain ⟨rfl, build, raw⟩ := touched same
      subst same
      rw [update_self, build, change.held_here core]
      refine ⟨builds, node, ?_⟩
      rintro ⟨v, here, owned⟩
      rw [raw v here] at owned
      cases owned
    · rw [change.held_iff core same, update_of_ne same, change.building i same]
      exact ⟨builds, node, free⟩

/-- **An entry and its inode change.** -/
theorem core (core : Core sb s gs N own)
    (blocks : Blocks sb t.disk (update (fun q => (gs q).loose) p l.loose)
      (update N (s.itable e).inum n) own') :
    Core sb t (update gs p l) (update N (s.itable e).inum n) own' := by
  have inums : ∀ e', (t.itable e').ref = (s.itable e').ref ∧
      (t.itable e').inum = (s.itable e').inum := by
    intro e'
    rw [change.itable]
    by_cases same : e' = e
    · rw [same, update_self]
      exact ⟨change.ref, change.inum⟩
    · rw [update_of_ne same]
      exact ⟨rfl, rfl⟩
  constructor
  case blocks =>
    rw [proj_update Local.loose]
    exact blocks
  case pool =>
    intro i bound free
    by_cases same : i = (s.itable e).inum
    · subst same
      rw [update_self]
      exact change.pool (change.not_owned core free)
    · rw [change.held_iff core same] at free
      rw [update_of_ne same, change.dinodes i bound same]
      exact core.pool i bound free
  case table => exact change.table core
  case refs =>
    rw [proj_same Local.refs change.refs, proj_same Local.files change.files,
      proj_same Local.num change.num, proj_same Local.proc change.proc, change.ftable, change.procs]
    refine ⟨?_, core.refs.nonneg, ?_, ?_, ?_⟩
    · intro e'
      rw [(inums e').1]
      exact core.refs.count e'
    · intro q e' viewed
      rw [view_update change.view] at viewed
      split at viewed
      next both =>
        obtain ⟨rfl, rfl⟩ := both
        exact change.holder viewed
      next => exact core.refs.holder q e' viewed
    · intro q e' inum busy known some
      rw [(inums e').2]
      exact core.refs.num q e' inum busy known some
    · intro q e' v viewed
      rw [view_update change.view] at viewed
      split at viewed
      next both =>
        obtain ⟨rfl, rfl⟩ := both
        exact change.sole v viewed
      next => exact core.refs.sole q e' v viewed
  case files =>
    rw [proj_same Local.files change.files, proj_same Local.file change.file,
      proj_same Local.proc change.proc, change.ftable, change.procs]
    refine { core.files with kind := ?_ }
    intro i opened
    rw [(inums _).2]
    have old := core.files.kind i opened
    have open_ref : 0 < (s.itable (s.ftable i).ip).ref :=
      core.refs.ref_pos_of_file (i := i) (if_pos ⟨opened, rfl⟩)
    by_cases same : (s.itable (s.ftable i).ip).inum = (s.itable e).inum
    · rcases change.type with kept | unopened
      · rw [same] at old ⊢
        rw [update_self, kept]
        exact old
      · have here := core.table.unique _ _ open_ref change.used same
        have := unopened i
        rw [fileRef, if_pos ⟨opened, here⟩] at this
        cases this
    · rw [update_of_ne same]
      exact old
  case procs =>
    rw [proj_same Local.proc change.proc, proj_same Local.child change.child, change.procs]
    exact core.procs
  case shape => exact change.shape core
  case carried =>
    intro q b carries
    by_cases me : q = p
    · subst me
      rw [update_self] at carries ⊢
      exact change.carried b carries
    · rw [update_of_ne me] at carries ⊢
      exact core.carried q b carries
  case active =>
    intro q e' viewed
    have old := core.active q e'
    rw [view_update change.view] at viewed
    by_cases me : q = p
    · subst me
      rw [update_self]
      split at viewed
      next => exact change.active viewed
      next => exact change.running ▸ old viewed
    · rw [update_of_ne me]
      rw [if_neg fun both => me both.1] at viewed
      exact old viewed
  case trans =>
    have ops := congrArg (fun op : Pid → Bool => ∑ q, if op q then 1 else 0)
      (proj_same Local.op change.op)
    rw [change.outstanding, core.trans]
    exact ops.symm

theorem known (core : Core sb s gs N own) {W' : World}
    (known : Known sb (fun q => (gs q).view) (fun q => (gs q).running) N own W)
    (nodes : ∀ i, i ≠ (s.itable e).inum → W'.node i = W.node i)
    (node : (∀ v, x = some v → v.owned = false) → W'.node (s.itable e).inum = n)
    (free : ∀ b, own' b = .free ↔ W'.free b) (quiet : W'.quiet → W.quiet) :
    Known sb (fun q => (update gs p l q).view)
      (fun q => (update gs p l q).running) (update N (s.itable e).inum n) own' W' := by
  refine ⟨?_, free, ?_⟩
  · intro i bound unheld
    by_cases same : i = (s.itable e).inum
    · subst same
      rw [update_self, node (change.not_owned core unheld)]
    · rw [change.held_iff core same] at unheld
      rw [update_of_ne same, nodes i same]
      exact known.node i bound unheld
  · intro isQuiet
    have same : (fun q => (update gs p l q).running) = fun q => (gs q).running :=
      proj_same Local.running change.running
    intro q q' first second
    exact known.alone (quiet isQuiet) q q' (congrFun same q ▸ first) (congrFun same q' ▸ second)

end

/-- What is known after a change of an inode that the process owns. -/
theorem known_held {v : View} {w : Option World}
    (change : Change sb s gs N p e t l ip (some v) n) (owned : v.owned = true)
    (core : Core sb s gs N own)
    (known : ∀ W, w = some W → Known sb (fun q => (gs q).view) (fun q => (gs q).running) N
    own W) (here : withFree w (fun b => own' b = .free) = some W) :
    Known sb (fun q => (update gs p l q).view)
      (fun q => (update gs p l q).running) (update N (s.itable e).inum n) own' W := by
  obtain ⟨W, rfl, rfl⟩ := Option.map_eq_some_iff.mp here
  have absurd : ¬ ∀ v', some v = some v' → v'.owned = false := by
    intro unowned
    rw [unowned v rfl] at owned
    cases owned
  exact change.known core (known W rfl) (fun _ _ => rfl) (fun unowned => (absurd unowned).elim)
    (fun _ => Iff.rfl) id

end Change

theorem withFree_known {sb : Super}
    {running : Pid → Bool} {N : Nat → Node} {own : Nat → Owner Pid} {w : Option World}
    (known : ∀ W, w = some W → Known sb view running N own W) :
    withFree w (fun b => own b = .free) = w := by
  cases w with
  | none => rfl
  | some W =>
    have free : (fun b => own b = .free) = W.free :=
      funext fun b => propext ((known W rfl).free b)
    rw [withFree, Option.map_some, free]

/-! ## Rules for steps -/

section Rules

variable {sb : Super} {C : Setting Pid} {p : Pid} {l : Local Pid} {w : Option World} {α : Type}
  {step : State Pid → Outcome (State Pid) Panic α}

/-- The rule for one step, with the nodes and the owners in view. -/
theorem safe_step {post : α → Local Pid → Option World → Prop}
    (safe : ∀ s gs N own, gs p = l → Core sb s gs N own →
      (∀ W, w = some W → Known sb (fun q => (gs q).view) (fun q => (gs q).running) N own W)
          →
      match step s with
      | .ok t value => C.assumed p s t → ∃ l' w' N' own', w'.isSome = w.isSome ∧
          Core sb t (update gs p l') N' own' ∧
          (∀ W, w' = some W → Known sb (fun q => (update gs p l' q).view)
              (fun q => (update gs p l' q).running) N' own' W) ∧
          post value l' w'
      | .block => C.waits w.isSome
      | .panic why => C.allowed w.isSome why) : Safe sb C p (Prog.atomic step) l w post := by
  refine .atomic fun s gs mine inv => ?_
  obtain ⟨N, own, core, known⟩ := inv
  have now := safe s gs N own mine core known
  cases taken : step s with
  | ok t value =>
    simp only [taken] at now ⊢
    intro assumed
    obtain ⟨l', w', N', own', same, core', known', after⟩ := now assumed
    exact ⟨l', w', same, ⟨N', own', core', known'⟩, after⟩
  | block =>
    simp only [taken] at now ⊢
    exact now
  | panic why =>
    simp only [taken] at now ⊢
    exact now

theorem safe_read {P : α → Prop} (reads : ∀ s gs N own, gs p = l → Core sb s gs N own →
      (∀ W, w = some W → Known sb (fun q => (gs q).view) (fun q => (gs q).running) N own W)
          →
      ∃ value, step s = .ok s value ∧ P value) :
    Safe sb C p (Prog.atomic step) l w fun value l' w' => P value ∧ l' = l ∧ w' = w := by
  refine safe_step fun s gs N own mine core known => ?_
  obtain ⟨value, taken, holds⟩ := reads s gs N own mine core known
  rw [taken]
  intro _
  refine ⟨l, w, N, own, rfl, ?_, ?_, holds, rfl, rfl⟩
  · rw [← mine, update_eq_self]
    exact core
  · rw [← mine, update_eq_self]
    exact known

variable {e : Fin NINODE} {v : View}

theorem change_held {s t : State Pid} {gs : Pid → Local Pid} {N : Nat → Node}
    {own : Nat → Owner Pid} {l' : Local Pid} {n : Node} (loose : Nat → Option Block)
    (core : Core sb s gs N own) (viewed : (gs p).view e = some v) (owned : v.owned = true)
    (new : l' = { (gs p).setView e { v with node := n } with loose := loose })
    (itable : t.itable = update s.itable e { s.itable e with d := n.d })
    (ftable : t.ftable = s.ftable) (procs : t.procs = s.procs) (building : t.building = s.building)
    (outstanding : t.outstanding = s.outstanding)
    (dinodes : ∀ i < sb.ninodes, dinodeAt sb t.disk i = dinodeAt sb s.disk i)
    (type : n.d.type = v.node.d.type ∨ v.sole = true) :
    Change sb s gs N p e t l' { s.itable e with d := n.d } (some { v with node := n }) n := by
  have agrees := core.agrees viewed
  have lock := core.lock viewed
  subst new
  refine
    { used := core.pos viewed
      unlocked := .inr lock
      itable := itable
      lock := lock
      ftable := ftable
      procs := procs
      outstanding := outstanding
      dinodes := fun i bound _ => dinodes i bound
      agrees := ?_
      pool := ?_
      rest := nofun
      holder := fun _ => core.refs.holder p e (by simp [viewed])
      type := ?_
      sole := ?_
      fresh := core.fresh_ne viewed owned
      building := fun _ _ => congrFun building _
      maker := core.maker_same building rfl
      real := ?_
      mine := ?_
      builder := ?_
      carried := fun _ _ => ⟨e, by simp [Local.setView]⟩
      active := fun _ => core.active p e (by simp [viewed]) }
  · rintro _ ⟨⟩
    refine ⟨agrees.inum, agrees.valid, fun _ => ⟨(agrees.mem owned).1, rfl⟩, fun _ => ?_, fun _ =>
        ?_⟩
    · rw [agrees.inum, update_self]
    · rw [dinodes _ (core.inum_lt viewed).2]
      exact agrees.disk owned
  · intro unowned
    have := unowned _ rfl
    rw [owned] at this
    cases this
  · rw [agrees.inum, agrees.node owned]
    exact type.imp_right (core.refs.sole p e v viewed)
  · rintro _ ⟨⟩
    exact core.refs.sole p e v viewed
  · rw [building, agrees.inum, dinodes _ (core.inum_lt viewed).2]
    exact core.shape.real _ (core.inum_lt viewed).2
  · rw [agrees.inum]
    exact .inl (core.shape.builder p e v viewed owned)
  · rintro _ ⟨⟩ -
    rw [building, agrees.inum]
    exact core.shape.builder p e v viewed owned

/-- A step changes only the disk and the on-disk fields of an entry, and not the inodes on the
disk. -/
structure Touch (sb : Super) (s t : State Pid) (e : Fin NINODE) (d : Dinode) : Prop where
  itable : t.itable = Function.update s.itable e { s.itable e with d := d }
  ftable : t.ftable = s.ftable
  procs : t.procs = s.procs
  building : t.building = s.building
  outstanding : t.outstanding = s.outstanding
  dinodes : ∀ i < sb.ninodes, dinodeAt sb t.disk i = dinodeAt sb s.disk i

/-- A step that changes a locked inode, its blocks and the free map. -/
theorem safe_held {step : State Pid → Outcome (State Pid) Panic Unit} {n : Node}
    {loose : Nat → Option Block} (viewed : l.view e = some v) (owned : v.owned = true)
    (type : n.d.type = v.node.d.type ∨ v.sole = true)
    (does : ∀ s looses N own, looses p = l.loose → Blocks sb s.disk looses N own →
      N v.inum = v.node → v.inum < sb.ninodes → (s.itable e).d = v.node.d →
      (l.op = true → 0 < s.outstanding) →
      ∃ t own', step s = .ok t () ∧ Touch sb s t e n.d ∧
        Blocks sb t.disk (update looses p loose) (update N v.inum n) own') :
    Safe sb C p (Prog.atomic step) l w fun _ l' w' =>
      l' = { l.setView e { v with node := n } with loose := loose } ∧ ∃ F, w' = withFree w F := by
  refine safe_step fun s gs N own mine core known => ?_
  subst mine
  have agrees := core.agrees viewed
  obtain ⟨t, own', taken, touch, blocks⟩ := does s (fun q => (gs q).loose) N own rfl
    core.blocks (agrees.node owned) (core.inum_lt viewed).2 (agrees.mem owned).2 core.trans_pos
  have change := change_held loose core viewed owned rfl touch.itable
    touch.ftable touch.procs touch.building touch.outstanding
    touch.dinodes type
  rw [taken]
  intro _
  refine ⟨_, withFree w fun b => own' b = .free, _, own', by simp,
    change.core core (by rw [agrees.inum]; exact blocks), ?_, rfl, _, rfl⟩
  exact fun W here => change.known_held owned core known here

/-- The same for a step that leaves the owners of all blocks. -/
theorem safe_held_keep {step : State Pid → Outcome (State Pid) Panic Unit} {n : Node}
    (viewed : l.view e = some v) (owned : v.owned = true)
    (type : n.d.type = v.node.d.type ∨ v.sole = true)
    (does : ∀ s (looses : Pid → Nat → Option Block) N own, looses p = l.loose →
      Blocks sb s.disk looses N own →
      N v.inum = v.node → v.inum < sb.ninodes → (s.itable e).d = v.node.d →
      (l.op = true → 0 < s.outstanding) →
      ∃ t, step s = .ok t () ∧ Touch sb s t e n.d ∧
        Blocks sb t.disk looses (update N v.inum n) own) :
    Safe sb C p (Prog.atomic step) l w fun _ l' w' =>
      l' = l.setView e { v with node := n } ∧ w' = w := by
  refine safe_step fun s gs N own mine core known => ?_
  subst mine
  have agrees := core.agrees viewed
  obtain ⟨t, taken, touch, blocks⟩ := does s (fun q => (gs q).loose) N own rfl
    core.blocks (agrees.node owned) (core.inum_lt viewed).2 (agrees.mem owned).2 core.trans_pos
  have change := change_held (gs p).loose core viewed owned rfl
    touch.itable touch.ftable touch.procs touch.building touch.outstanding
    touch.dinodes type
  rw [taken]
  intro _
  refine ⟨_, w, _, own, rfl, change.core core ?_, fun W here => ?_, rfl, rfl⟩
  · rw [agrees.inum, update_eq_self p fun q => (gs q).loose]
    exact blocks
  · rw [← withFree_known known] at here
    exact change.known_held owned core known here

end Rules

end Xv6.Fs
