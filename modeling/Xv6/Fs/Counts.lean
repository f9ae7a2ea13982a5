import Xv6.Fs.Locks

/-!
# Reference counts

The rules for the steps that count references to inodes. The nodes and the locks
stay as they are, so that the parts of the invariant about them carry over
(`Core.recount`); what is left is that the counts are still the sums of the
shares.
-/

namespace Xv6.Fs

open Finset (mem_univ)

open Function Local State

variable {k : Int} {disk : Nat → Block} {dev : Nat}

theorem sum_shift {ι : Type} [Fintype ι] [DecidableEq ι] {f g : ι → Int} (i : ι)
    (here : g i = f i + k) (others : ∀ j, j ≠ i → g j = f j) : ∑ j, g j = ∑ j, f j + k := by
  rw [← Finset.add_sum_erase _ g (mem_univ i), ← Finset.add_sum_erase _ f (mem_univ i),
    here, Finset.sum_congr rfl fun j mem => others j (Finset.ne_of_mem_erase mem)]
  ring

variable {Pid : Type} [DecidableEq Pid] [Fintype Pid] {sb : Super} {C : Setting Pid} {p : Pid}
  {l : Local Pid} {w : Option World} {e : Fin NINODE} {v : View} {s t : State Pid}
  {gs : Pid → Local Pid} {N : Nat → Node} {own : Nat → Owner Pid} {inum : Nat}
  {view : Pid → Fin NINODE → Option View}

/-- The rule for a step that keeps the nodes, their owners and the locks. -/
theorem safe_ghost {α : Type} {step : State Pid → Outcome (State Pid) Panic α}
    {post : α → Local Pid → Prop}
    (does : ∀ s gs N own, gs p = l → Core sb s gs N own →
      match step s with
      | .ok t value => ∃ l', l'.view = l.view ∧ l'.running = l.running ∧
          Core sb t (update gs p l') N own ∧ post value l'
      | .block => C.waits w.isSome
      | .panic why => C.allowed w.isSome why) :
    Safe sb C p (Prog.atomic step) l w fun value l' w' => post value l' ∧ w' = w := by
  refine safe_step fun s gs N own mine core known => ?_
  have now := does s gs N own mine core
  cases taken : step s with
  | block =>
    simp only [taken] at now ⊢
    exact now
  | panic why =>
    simp only [taken] at now ⊢
    exact now
  | ok t value =>
    simp only [taken] at now ⊢
    intro _
    obtain ⟨l', view, running, core', after⟩ := now
    subst mine
    refine ⟨l', w, N, own, rfl, core', fun W here => ?_, after, rfl⟩
    rw [proj_same Local.view view, proj_same Local.running running]
    exact known W here

variable {l' : Local Pid}

/-- The parts of the invariant about nodes and locks carry over. -/
theorem Core.recount (core : Core sb s gs N own) (disk : t.disk = s.disk)
    (building : t.building = s.building) (view : l'.view = (gs p).view)
    (loose : l'.loose = (gs p).loose) (making : l'.making = (gs p).making)
    (fresh : l'.fresh = (gs p).fresh) (active : ∀ e, (gs p).view e ≠ none → l'.running = true)
    (table : Table sb s.disk t.itable (fun q => (gs q).view) N)
    (refs : Refs t.itable t.ftable (share t.procs fun q => (update gs p l' q).refs)
      (slotShare t.procs fun q => (update gs p l' q).files)
      (fun q => (gs q).view) (fun q => (update gs p l' q).proc) (fun q => (update gs p l' q).num))
    (files : Files t.procs t.itable t.ftable
      (slotShare t.procs fun q => (update gs p l' q).files) (fun q => (update gs p l' q).proc)
      (fun q => (update gs p l' q).file) N)
    (procs : Procs t.procs (fun q => (update gs p l' q).proc) (fun q => (update gs p l' q).child))
    (trans : t.outstanding = ∑ q, if (update gs p l' q).op then 1 else 0) :
    Core sb t (update gs p l') N own := by
  have views := proj_same Local.view view
  have looses := proj_same Local.loose loose
  constructor
  case blocks =>
    rw [disk, looses]
    exact core.blocks
  case pool =>
    rw [disk, views]
    exact core.pool
  case table =>
    rw [disk, views]
    exact table
  case refs =>
    rw [views]
    exact refs
  case files => exact files
  case procs => exact procs
  case shape =>
    rw [views, disk, building, proj_same Local.making making, proj_same Local.fresh fresh]
    exact core.shape
  case carried =>
    intro q b carries
    have carries : (gs q).loose b ≠ none := congrFun (congrFun looses q) b ▸ carries
    have := core.carried q b carries
    rwa [← show (update gs p l' q).view = (gs q).view from congrFun views q] at this
  case active =>
    intro q e viewed
    have seen : (gs q).view e ≠ none := congrFun (congrFun views q) e ▸ viewed
    by_cases me : q = p
    · subst me
      rw [update_self]
      exact active e seen
    · rw [update_of_ne me]
      exact core.active q e seen
  case trans => exact trans

theorem Core.trans_same (core : Core sb s gs N own)
    (op : l'.op = (gs p).op) (outstanding : t.outstanding = s.outstanding) :
    t.outstanding = ∑ q, if (update gs p l' q).op then 1 else 0 := by
  have ops := congrArg (fun op : Pid → Bool => ∑ q, if op q then 1 else 0) (proj_same Local.op op)
  rw [outstanding, core.trans]
  exact ops.symm

/-! ## Entries of the inode table -/

theorem Table.reref {itable itable' : Fin NINODE → Inode Pid} (table : Table sb disk itable view N)
    (same : ∀ e, ∃ r, itable' e = { itable e with ref := r } ∧ (0 < r → 0 < (itable e).ref)) :
    Table sb disk itable' view N := by
  have fields : ∀ e, (itable' e).lock = (itable e).lock ∧ (itable' e).inum = (itable e).inum ∧
      (itable' e).dev = (itable e).dev ∧ (itable' e).valid = (itable e).valid ∧
      (itable' e).d = (itable e).d ∧ (0 < (itable' e).ref → 0 < (itable e).ref) := by
    intro e
    obtain ⟨r, new, pos⟩ := same e
    rw [new]
    exact ⟨rfl, rfl, rfl, rfl, rfl, pos⟩
  refine ⟨?_, ?_, ?_, ?_, ?_⟩
  · intro p e
    rw [(fields e).1]
    exact table.locked p e
  · intro p e v viewed
    obtain ⟨-, inum, -, valid, d, -⟩ := fields e
    have old := table.agrees p e v viewed
    exact ⟨inum.trans old.inum, valid.trans old.valid,
      fun owned => ⟨valid.trans (old.mem owned).1, d.trans (old.mem owned).2⟩, old.node, old.disk⟩
  · intro e used
    obtain ⟨-, inum, dev, -, -, pos⟩ := fields e
    rw [inum, dev]
    exact table.entry e (pos used)
  · intro e e' used used' equal
    obtain ⟨-, inum, -, -, -, pos⟩ := fields e
    obtain ⟨-, inum', -, -, -, pos'⟩ := fields e'
    rw [inum, inum'] at equal
    exact table.unique e e' (pos used) (pos' used') equal
  · intro e used unlocked valid
    obtain ⟨lock, inum, -, warm, d, pos⟩ := fields e
    rw [lock] at unlocked
    rw [warm] at valid
    rw [inum, d]
    exact table.rest e (pos used) unlocked valid

theorem setRef_itable (s : State Pid) (e : Fin NINODE) (r : Nat) (e' : Fin NINODE) :
    (s.setInode e fun ip => { ip with ref := r }).itable e' =
      { s.itable e' with ref := if e' = e then r else (s.itable e').ref } := by
  by_cases same : e' = e
  · subst same
    simp
  · rw [itable_setInode_of_ne same, if_neg same]

/-- The table after a change of the count of an entry in use. -/
theorem Core.reref (core : Core sb s gs N own) (r : Nat) (used : 0 < (s.itable e).ref) :
    Table sb s.disk (s.setInode e fun ip => { ip with ref := r }).itable
      (fun q => (gs q).view) N := by
  refine core.table.reref fun e' => ⟨_, setRef_itable s e r e', fun positive => ?_⟩
  split at positive
  next same => exact same ▸ used
  next => exact positive

/-- A process takes or drops references to an entry. -/
def Local.addRef (l : Local Pid) (e : Fin NINODE) (k : Int) : Local Pid :=
  { l with refs := Function.update l.refs e (l.refs e + k) }

/-- A process knows the number of the inode of an entry. -/
def Local.setNum (l : Local Pid) (e : Fin NINODE) (i : Option Nat) : Local Pid :=
  { l with num := Function.update l.num e i }

theorem share_addRef (procs : Pid → Proc)
    (refs : l'.refs = ((gs p).addRef e k).refs) (q : Pid) (e' : Fin NINODE) :
    share procs (fun q => (update gs p l' q).refs) q e' =
      share procs (fun q => (gs q).refs) q e' + if q = p ∧ e' = e then k else 0 := by
  unfold share
  by_cases me : q = p
  · subst me
    simp only [update_self, refs, addRef, true_and]
    by_cases here : e' = e
    · subst here
      rw [update_self, if_pos rfl]
      ring
    · rw [update_of_ne here, if_neg here, Int.add_zero]
  · simp only [update_of_ne me, me, false_and, if_false, Int.add_zero]

/-- **References to one entry are taken or dropped** by a process. -/
theorem Core.shift {r : Nat} {x : Option Nat} (core : Core sb s gs N own)
    (ref : (r : Int) = (s.itable e).ref + k)
    (table : Table sb s.disk (s.setInode e fun ip => { ip with ref := r }).itable
      (fun q => (gs q).view) N)
    (nonneg : 0 ≤ share s.procs (fun q => (gs q).refs) p e + k)
    (holder : (gs p).view e ≠ none → 1 ≤ share s.procs (fun q => (gs q).refs) p e + k)
    (num : ∀ i, (gs p).proc ≠ none → x = some i →
      1 ≤ share s.procs (fun q => (gs q).refs) p e + k → (s.itable e).inum = i) :
    Core sb (s.setInode e fun ip => { ip with ref := r })
      (update gs p (((gs p).addRef e k).setNum e x)) N own := by
  obtain ⟨l', new⟩ : ∃ l', l' = ((gs p).addRef e k).setNum e x := ⟨_, rfl⟩
  have same : l'.files = (gs p).files ∧ l'.file = (gs p).file ∧
      l'.proc = (gs p).proc ∧ l'.child = (gs p).child := by
    rw [new]
    exact ⟨rfl, rfl, rfl, rfl⟩
  obtain ⟨files, file, proc, child⟩ := same
  have refs : l'.refs = ((gs p).addRef e k).refs := by
    rw [new]
    rfl
  have shares := share_addRef s.procs refs
  have entries := setRef_itable s e r
  rw [← new]
  refine core.recount rfl rfl (by rw [new]; rfl) (by rw [new]; rfl) (by rw [new]; rfl)
    (by rw [new]; rfl) (by rw [new]; exact core.active p) table ?_ ?_ ?_
    (core.trans_same (by rw [new]; rfl) rfl)
  · rw [proj_same Local.files files, proj_same Local.proc proc]
    refine ⟨?_, ?_, ?_, ?_, core.refs.sole⟩
    · intro e'
      have old := core.refs.count e'
      have sums : ∑ q, share s.procs (fun q => (update gs p l' q).refs) q e' =
          ∑ q, share s.procs (fun q => (gs q).refs) q e' + if e' = e then k else 0 := by
        refine sum_shift p ?_ fun q other => ?_
        · simp only [shares, true_and]
        · rw [shares, if_neg fun both => other both.1, Int.add_zero]
      rw [entries]
      show _ = ∑ q, share s.procs (fun q => (update gs p l' q).refs) q e' +
        ∑ i, fileRef (s.ftable i) e'
      rw [sums]
      split
      next here =>
        subst here
        show (r : Int) = _
        rw [ref, old]
        ring
      next => rw [old, Int.add_zero]
    · intro q e'
      show 0 ≤ share s.procs _ q e'
      rw [shares]
      split
      next both =>
        obtain ⟨rfl, rfl⟩ := both
        exact nonneg
      next =>
        rw [Int.add_zero]
        exact core.refs.nonneg q e'
    · intro q e' viewed
      by_cases both : q = p ∧ e' = e
      · obtain ⟨rfl, rfl⟩ := both
        refine .inl ?_
        show 1 ≤ share s.procs _ q e'
        rw [shares, if_pos ⟨rfl, rfl⟩]
        exact holder viewed
      · refine (core.refs.holder q e' viewed).imp (fun mine => ?_) id
        show 1 ≤ share s.procs _ q e'
        rw [shares, if_neg both, Int.add_zero]
        exact mine
    · intro q e' i busy known some
      replace some : 1 ≤ share s.procs _ q e' := some
      rw [shares] at some
      simp only [entries]
      by_cases both : q = p ∧ e' = e
      · obtain ⟨rfl, rfl⟩ := both
        rw [if_pos ⟨rfl, rfl⟩] at some
        refine num i busy ?_ some
        simpa [new, setNum] using known
      · rw [if_neg both, Int.add_zero] at some
        refine core.refs.num q e' i busy ?_ some
        by_cases me : q = p
        · subst me
          have apart : e' ≠ e := fun here => both ⟨rfl, here⟩
          simpa [new, setNum, addRef, update_of_ne apart] using known
        · simpa only [update_of_ne me] using known
  · rw [proj_same Local.files files, proj_same Local.proc proc, proj_same Local.file file]
    refine { core.files with kind := ?_ }
    intro i opened
    simp only [entries]
    exact core.files.kind i opened
  · rw [proj_same Local.proc proc, proj_same Local.child child]
    exact core.procs

@[simp] theorem Local.setNum_self (l : Local Pid) : l.setNum e (l.num e) = l := by
  simp [Local.setNum]

theorem safe_idup (has : l.Own e) :
    Safe sb C p (idup e) l w fun _ l' w' => l' = l.addRef e 1 ∧ w' = w := by
  refine safe_ghost fun s gs N own mine core => ?_
  subst mine
  have mine := core.own_share has
  have used := core.refs.ref_pos_of_share mine
  have shifted := core.shift (p := p) (e := e) (k := 1) (r := (s.itable e).ref + 1)
    (x := (gs p).num e) (by omega) (core.reref _ used) (by omega) (fun _ => by omega)
    (fun i busy known _ => core.refs.num p e i busy known mine)
  have same : ((gs p).addRef e 1).setNum e ((gs p).num e) = (gs p).addRef e 1 :=
    setNum_self ((gs p).addRef e 1)
  rw [same] at shifted
  exact ⟨(gs p).addRef e 1, rfl, rfl, shifted, rfl⟩

/-- A reference is dropped that is not the last one of a locked entry. -/
theorem Core.drop (core : Core sb s gs N own) (has : (gs p).Own e)
    (more : (gs p).view e ≠ none → 2 ≤ share s.procs (fun q => (gs q).refs) p e) :
    Core sb (s.setInode e fun ip => { ip with ref := ip.ref - 1 })
      (update gs p ((gs p).addRef e (-1))) N own := by
  have mine := core.own_share has
  have used := core.refs.ref_pos_of_share mine
  have shifted := core.shift (p := p) (e := e) (k := -1) (r := (s.itable e).ref - 1)
    (x := (gs p).num e) (by omega) (core.reref _ used) (by omega)
    (fun viewed => by have := more viewed; omega)
    (fun i busy known _ => core.refs.num p e i busy known mine)
  have same : ((gs p).addRef e (-1)).setNum e ((gs p).num e) = (gs p).addRef e (-1) :=
    setNum_self ((gs p).addRef e (-1))
  rwa [same] at shifted

theorem safe_iputDrop (has : l.Own e) (unlocked : l.view e = none) :
    Safe sb C p (iputDrop e) l w fun _ l' w' => l' = l.addRef e (-1) ∧ w' = w := by
  refine safe_ghost fun s gs N own mine core => ?_
  subst mine
  exact ⟨(gs p).addRef e (-1), rfl, rfl, core.drop has fun viewed => absurd unlocked viewed,
    rfl⟩

/-! ## `iget` -/

theorem findInode_found {s : State Pid} (found : findInode s dev inum = some (e, true)) :
    0 < (s.itable e).ref ∧ (s.itable e).dev = dev ∧ (s.itable e).inum = inum := by
  unfold findInode at found
  split at found
  next e' here =>
    cases found
    have := List.find?_some here
    simpa using this
  next => simp at found

theorem findInode_fresh {s : State Pid} (found : findInode s dev inum = some (e, false)) :
    (s.itable e).ref = 0 ∧
      ∀ e', 0 < (s.itable e').ref → (s.itable e').dev = dev → (s.itable e').inum ≠ inum := by
  unfold findInode at found
  split at found
  next => simp at found
  next missing =>
    obtain ⟨e', here, same⟩ := Option.map_eq_some_iff.mp found
    cases same
    refine ⟨by simpa using List.find?_some here, fun e' used dev equal => ?_⟩
    have := List.find?_eq_none.mp missing e' (List.mem_finRange e')
    simp only [decide_eq_true_eq] at this
    exact this ⟨used, dev, equal⟩

/-- A free entry is not locked, and nobody has a share of it. -/
theorem Core.unused (core : Core sb s gs N own) (free : (s.itable e).ref = 0) :
    (∀ q, (gs q).view e = none) ∧ (∀ q, share s.procs (fun q => (gs q).refs) q e = 0) ∧
      ∀ i, fileRef (s.ftable i) e = 0 := by
  refine ⟨fun q => ?_, fun q => ?_, fun i => ?_⟩
  · by_contra viewed
    have := core.ref_pos viewed
    omega
  · have := core.refs.nonneg q e
    by_contra some
    have := core.refs.ref_pos_of_share (p := q) (e := e) (by omega)
    omega
  · by_contra some
    have one : fileRef (s.ftable i) e = 1 := by
      unfold fileRef at some ⊢
      split at some
      next here => exact if_pos here
      next => exact absurd rfl some
    have := core.refs.ref_pos_of_file one
    omega

theorem Table.enter
    (table : Table sb disk s.itable view N) (r : Nat) (dev : (s.itable e).dev = ROOTDEV)
    (bound : 0 < (s.itable e).inum ∧ (s.itable e).inum < sb.ninodes)
    (cold : (s.itable e).valid = false)
    (missing : ∀ e', e' ≠ e → 0 < (s.itable e').ref → (s.itable e').inum ≠ (s.itable e).inum) :
    Table sb disk (s.setInode e fun ip => { ip with ref := r }).itable view N := by
  have entries := setRef_itable s e r
  refine ⟨?_, ?_, ?_, ?_, ?_⟩
  · intro q e'
    simp only [entries]
    exact table.locked q e'
  · intro q e' v viewed
    simp only [entries]
    have old := table.agrees q e' v viewed
    exact { old with }
  · intro e' used
    simp only [entries] at used ⊢
    split at used
    next same => exact same ▸ ⟨dev, bound⟩
    next => exact table.entry e' used
  · intro e₁ e₂ used₁ used₂ equal
    simp only [entries] at used₁ used₂ equal
    by_cases here₁ : e₁ = e <;> by_cases here₂ : e₂ = e
    · exact here₁.trans here₂.symm
    · rw [if_neg here₂] at used₂
      rw [here₁] at equal
      exact absurd equal.symm (missing e₂ here₂ used₂)
    · rw [if_neg here₁] at used₁
      rw [here₂] at equal
      exact absurd equal (missing e₁ here₁ used₁)
    · rw [if_neg here₁] at used₁
      rw [if_neg here₂] at used₂
      exact table.unique e₁ e₂ used₁ used₂ equal
  · intro e' used unlocked valid
    simp only [entries] at used unlocked valid ⊢
    by_cases here : e' = e
    · rw [here, cold] at valid
      cases valid
    · rw [if_neg here] at used
      exact table.rest e' used unlocked valid

theorem Core.setup (core : Core sb s gs N own) (free : (s.itable e).ref = 0) (inum : Nat) :
    Core sb (s.setInode e fun ip =>
      { ip with dev := ROOTDEV, inum := inum, ref := 0, valid := false }) gs N own := by
  obtain ⟨views, -, files⟩ := core.unused free
  have kept : ∀ e', 0 < ((s.setInode e fun ip =>
      { ip with dev := ROOTDEV, inum := inum, ref := 0, valid := false }).itable e').ref →
      e' ≠ e := by
    rintro _ used rfl
    simp at used
  have same : ∀ e', e' ≠ e → (s.setInode e fun ip =>
      { ip with dev := ROOTDEV, inum := inum, ref := 0, valid := false }).itable e' =
      s.itable e' := fun e' other => itable_setInode_of_ne other _
  have opened : ∀ i, (s.ftable i).type ≠ .none → (s.ftable i).ip ≠ e := by
    intro i type here
    have := files i
    rw [fileRef, if_pos ⟨type, here⟩] at this
    cases this
  refine { core with table := ?_, refs := ?_, files := ?_ }
  · refine ⟨?_, ?_, ?_, ?_, ?_⟩
    · intro q e'
      by_cases here : e' = e
      · subst here
        rw [itable_setInode_self]
        exact core.table.locked q e'
      · rw [same e' here]
        exact core.table.locked q e'
    · intro q e' v viewed
      have other : e' ≠ e := by
        rintro rfl
        rw [views q] at viewed
        cases viewed
      rw [same e' other]
      exact core.table.agrees q e' v viewed
    · intro e' used
      have other := kept e' used
      rw [same e' other] at used ⊢
      exact core.table.entry e' used
    · intro e₁ e₂ used₁ used₂
      have other₁ := kept e₁ used₁
      have other₂ := kept e₂ used₂
      rw [same e₁ other₁] at used₁ ⊢
      rw [same e₂ other₂] at used₂ ⊢
      exact core.table.unique e₁ e₂ used₁ used₂
    · intro e' used
      have other := kept e' used
      rw [same e' other] at used ⊢
      exact core.table.rest e' used
  · refine { core.refs with count := ?_, num := ?_ }
    · intro e'
      refine Eq.trans ?_ (core.refs.count e')
      by_cases here : e' = e
      · subst here
        rw [itable_setInode_self, free]
      · rw [same e' here]
    · intro q e' i busy num some
      have other : e' ≠ e := by
        rintro rfl
        have none := (core.unused free).2.1 q
        have some : 1 ≤ share s.procs (fun q => (gs q).refs) q e' := some
        omega
      rw [same e' other]
      exact core.refs.num q e' i busy num some
  · refine { core.files with kind := ?_ }
    intro i type
    have kind := core.files.kind i type
    rwa [← same _ (opened i type)] at kind

theorem safe_iget (bound : 0 < inum ∧ inum < sb.ninodes) (busy : l.proc ≠ none)
    (full : C.allowed w.isSome .igetNoInodes) :
    Safe sb C p (iget ROOTDEV inum) l w fun e l' w' =>
      (l' = (l.addRef e 1).setNum e (some inum) ∧ l'.Own e) ∧ w' = w := by
  refine safe_ghost fun s gs N own mine core => ?_
  subst mine
  obtain ⟨pr, proc⟩ := Option.ne_none_iff_exists'.mp busy
  have owns : ∀ e, 0 ≤ share s.procs (fun q => (gs q).refs) p e →
      (((gs p).addRef e 1).setNum e (some inum)).Own e := by
    intro e nonneg
    refine ⟨pr, proc, ?_⟩
    have nonneg : 0 ≤ cwdRef pr e + (gs p).refs e := by
      rw [← (core.procs.own p pr proc).1]
      exact nonneg
    simp only [setNum, addRef, update_self]
    omega
  cases found : findInode s ROOTDEV inum with
  | none =>
    exact full
  | some result =>
    obtain ⟨e, there⟩ := result
    cases there with
    | true =>
      obtain ⟨used, -, same⟩ := findInode_found found
      have nonneg := core.refs.nonneg p e
      exact ⟨((gs p).addRef e 1).setNum e (some inum), rfl, rfl, core.shift (by omega)
          (core.reref _ used) (by omega)
        (fun _ => by omega) (fun i _ known _ => same.trans (Option.some.inj known)),
        rfl, owns e nonneg⟩
    | false =>
      obtain ⟨free, missing⟩ := findInode_fresh found
      have other : ∀ e', 0 < (s.itable e').ref → (s.itable e').inum ≠ inum :=
        fun e' used => missing e' used (core.table.entry e' used).1
      have set := core.setup free inum
      have nonneg := core.refs.nonneg p e
      have after := set.shift (p := p) (e := e) (k := 1) (r := 1) (x := some inum)
        (by simp) (set.table.enter 1 (by simp) (by simpa using bound) (by simp) ?_)
        (by have : 0 ≤ share s.procs (fun q => (gs q).refs) p e := nonneg
            show 0 ≤ share s.procs _ p e + 1
            omega)
        (fun _ => by
            have : 0 ≤ share s.procs (fun q => (gs q).refs) p e := nonneg
            show 1 ≤ share s.procs _ p e + 1
            omega)
        (fun i _ known _ => by simpa using known)
      · refine ⟨((gs p).addRef e 1).setNum e (some inum), rfl, rfl, ?_, rfl, owns e nonneg⟩
        simpa [setInode] using after
      · intro e' apart used
        rw [itable_setInode_of_ne apart] at used ⊢
        rw [itable_setInode_self]
        exact other e' used

/-! ## `iput` -/

theorem safe_iputTest (has : l.Own e) (running : l.running = true)
    (more : l.view e = none ∨ (l.addRef e (-1)).Own e) :
    Safe sb C p (iputTest p e) l w fun last l' w' => w' = w ∧
      ((last = false ∧ l' = l.addRef e (-1)) ∨
        (last = true ∧ l.view e = none ∧ ∃ v, v.sole = true ∧ v.node.d.nlink = 0 ∧
          (∀ e' v', l.view e' = some v' → v'.inum ≠ v.inum) ∧ l' = { l.setView e v with fresh :=
              none } ∧ Locked sb l w e v)) := by
  refine safe_step fun s gs N own mine core known => ?_
  subst mine
  have mine := core.own_share has
  have used := core.refs.ref_pos_of_share mine
  have enough : (gs p).view e ≠ none → 2 ≤ share s.procs (fun q => (gs q).refs) p e := by
    intro viewed
    obtain ⟨pr, proc, some⟩ := more.resolve_left viewed
    have total : share s.procs (fun q => (gs q).refs) p e = cwdRef pr e + (gs p).refs e := by
      rw [← (core.procs.own p pr proc).1]
      rfl
    simp only [addRef, update_self] at some
    omega
  by_cases last : (s.itable e).ref = 1 ∧ (s.itable e).valid = true ∧ (s.itable e).d.nlink = 0
  · simp only [if_pos last]
    obtain ⟨one, valid, nlink⟩ := last
    -- nobody else has a reference, so nobody has the lock
    have total := core.refs.count e
    have files_nonneg : 0 ≤ ∑ i, fileRef (s.ftable i) e :=
      Finset.sum_nonneg fun i _ => fileRef_nonneg _ e
    have shares : share s.procs (fun q => (gs q).refs) p e ≤
        ∑ q, share s.procs (fun q => (gs q).refs) q e :=
      Finset.single_le_sum (fun q _ => core.refs.nonneg q e) (mem_univ p)
    have unopened : ∀ i, fileRef (s.ftable i) e = 0 := by
      intro i
      have here : fileRef (s.ftable i) e ≤ ∑ j, fileRef (s.ftable j) e :=
        Finset.single_le_sum (f := fun j => fileRef (s.ftable j) e)
          (fun j _ => fileRef_nonneg _ e) (mem_univ i)
      have := fileRef_nonneg (s.ftable i) e
      omega
    have unlocked : (s.itable e).lock = none := by
      by_contra locked
      obtain ⟨q, lock⟩ := Option.ne_none_iff_exists'.mp locked
      have viewed := (core.table.locked q e).mp lock
      by_cases me : q = p
      · rw [me] at viewed
        have := enough viewed
        omega
      · rcases core.refs.holder q e viewed with other | ⟨i, -, file⟩
        · have both : share s.procs (fun q => (gs q).refs) q e +
              share s.procs (fun q => (gs q).refs) p e ≤
              ∑ q, share s.procs (fun q => (gs q).refs) q e :=
            Finset.add_le_sum (fun q _ => core.refs.nonneg q e) (mem_univ q)
              (mem_univ p) me
          omega
        · rw [unopened i] at file
          cases file
    simp only [if_pos unlocked]
    intro assumed
    have unheld := core.not_held used unlocked
    have kept : (s.itable e).valid = true →
        s.building (s.itable e).inum = none ∨ s.building (s.itable e).inum = some p := by
      intro valid
      refine C.keeps p s _ assumed e ⟨?_, ?_⟩
      · simp [valid]
      · simp [unlocked]
    have change := change_acquire core (.inl has) unlocked running true (fun _ => unopened) kept
    have rest := core.table.rest e used unlocked valid
    refine ⟨_, w, _, own, rfl, change.core core (core.blocks_same rfl rfl),
      fun W here => known_acquire change core used unheld known here, rfl, .inr ⟨trivial, ?_,
      ⟨(s.itable e).inum, (s.itable e).valid, (s.itable e).valid, true,
        (N (s.itable e).inum).d, N (s.itable e).inum⟩, rfl, ?_, ?_, ?_, ?_⟩⟩
    · by_contra viewed
      have := (core.table.locked p e).mpr viewed
      rw [unlocked] at this
      cases this
    · rw [← rest.1]
      exact nlink
    · intro e' v' viewed same
      have here := core.entry_unique viewed used same.symm
      subst here
      have := core.lock viewed
      rw [unlocked] at this
      cases this
    · simp [valid]
    · exact locked_of_pool core known used unheld (rest.1 ▸ rest.2) rfl valid rfl rfl
  · simp only [if_neg last]
    intro _
    refine ⟨(gs p).addRef e (-1), w, N, own, rfl, core.drop has enough, fun W here => ?_, rfl,
      .inl ⟨trivial, rfl⟩⟩
    rw [proj_same (l := (gs p).addRef e (-1)) Local.view rfl,
      proj_same (l := (gs p).addRef e (-1)) Local.running rfl]
    exact known W here

end Xv6.Fs
