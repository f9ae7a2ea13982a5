import Xv6.Fs.Processes

/-!
# Allocating and freeing inodes

`ialloc` makes an inode that the process is building until it has a link;
`iput` frees an inode whose last reference it drops if it has none.
-/

namespace Xv6.Fs

open Function Local

variable {Pid : Type} [DecidableEq Pid] [Fintype Pid] {sb : Super} {C : Setting Pid} {p : Pid}
  {l : Local Pid} {w : Option World} {e : Fin NINODE} {v : View} {s t : State Pid}
  {gs : Pid → Local Pid} {N : Nat → Node} {own : Nat → Owner Pid} {type : Int16} {i inum : Nat}
  {m : Option Nat}

/-! ## `ialloc` -/

/-- A node as `ialloc` makes it. -/
def Node.blank (type : Int16) (data : Nat → Block) : Node :=
  ⟨{ Dinode.zero with type := type }, fun _ => 0, data⟩

theorem Node.good_blank (type : Int16) (data : Nat → Block) : (Node.blank type data).Good sb :=
  Node.good_emptied sb ⟨{ Dinode.zero with type := type }, fun _ => 0, data⟩

theorem Core.not_held_of_free (core : Core sb s gs N own)
    (free : (dinodeAt sb s.disk i).type = 0) : ¬ Held (fun q => (gs q).view) i := by
  rintro ⟨q, e, v, viewed, owned, rfl⟩
  obtain ⟨disk, type⟩ := (core.agrees viewed).disk owned
  rw [← disk] at type
  exact type free

/-- **A free inode is allocated.** -/
theorem Core.alloc (core : Core sb s gs N own)
    (bound : inum < sb.ninodes) (free : (dinodeAt sb s.disk inum).type = 0) (typed : type ≠ 0)
    (making : (gs p).making = none) (disk : t.disk = putDinode sb s.disk inum
      { Dinode.zero with type := type })
    (itable : t.itable = s.itable) (ftable : t.ftable = s.ftable) (procs : t.procs = s.procs)
    (building : t.building = update s.building inum (some p))
    (outstanding : t.outstanding = s.outstanding) :
    Core sb t (update gs p { gs p with
      making := some inum, fresh := some (inum, .blank type (N inum).data) })
      (update N inum (.blank type (N inum).data)) own := by
  have unheld := core.not_held_of_free free
  have pool := core.pool inum bound unheld
  have zero : (N inum).d.type = 0 := by rw [← pool.1]; exact free
  have empty := pool.2.empty zero
  have unbuilt : s.building inum = none := by
    by_contra some
    exact core.shape.real inum bound some free
  have same : ∀ {β : Type} (f : Local Pid → β), f { gs p with
      making := some inum, fresh := some (inum, .blank type (N inum).data) } = f (gs p) →
      (fun q => f (update gs p { gs p with
        making := some inum, fresh := some (inum, .blank type (N inum).data) } q)) =
        fun q => f (gs q) := fun f => proj_same f
  have dinodes : ∀ i, i ≠ inum → dinodeAt sb t.disk i = dinodeAt sb s.disk i := by
    intro i other
    rw [disk]
    exact dinodeAt_putDinode_of_ne sb s.disk _ other
  have here : dinodeAt sb t.disk inum = { Dinode.zero with type := type } := by
    rw [disk]
    exact dinodeAt_putDinode_self sb s.disk _ _
  have owned_ne : ∀ q e v, (gs q).view e = some v → v.owned = true → v.inum ≠ inum := by
    rintro q e v viewed owned rfl
    exact unheld ⟨q, e, v, viewed, owned, rfl⟩
  constructor
  case blocks =>
    rw [same Local.loose rfl, disk]
    refine (core.blocks.putDinode bound _).congr (fun _ _ => rfl) (fun _ _ => rfl) ?_ ?_
    · intro i
      by_cases equal : i = inum
      · subst equal
        rw [update_self]
        funext pos
        exact (empty pos).symm
      · rw [update_of_ne equal]
    · intro i pos used
      by_cases equal : i = inum
      · subst equal
        exact absurd (empty pos) used
      · rw [update_of_ne equal]
  case pool =>
    rw [same Local.view rfl]
    intro i small free
    by_cases equal : i = inum
    · subst equal
      rw [update_self, here]
      exact ⟨rfl, Node.good_blank type _⟩
    · rw [update_of_ne equal, dinodes i equal]
      exact core.pool i small free
  case table =>
    rw [same Local.view rfl, itable]
    refine { core.table with agrees := ?_, rest := ?_ }
    · intro q e v viewed
      have old := core.agrees viewed
      refine { old with node := fun owned => ?_, disk := fun owned => ?_ }
      · rw [update_of_ne (owned_ne q e v viewed owned)]
        exact old.node owned
      · rw [dinodes _ (owned_ne q e v viewed owned)]
        exact old.disk owned
    · intro e used unlocked valid
      have old := core.table.rest e used unlocked valid
      have other : (s.itable e).inum ≠ inum := by
        intro equal
        rw [equal] at old
        rw [old.1] at old
        exact old.2 zero
      rw [update_of_ne other]
      exact old
  case refs =>
    rw [same Local.view rfl, same Local.refs rfl, same Local.files rfl, same Local.proc rfl,
      same Local.num rfl, itable, ftable, procs]
    exact core.refs
  case files =>
    rw [same Local.files rfl, same Local.proc rfl, same Local.file rfl, itable, ftable, procs]
    refine { core.files with kind := ?_ }
    intro i opened
    have old := core.files.kind i opened
    have other : (s.itable (s.ftable i).ip).inum ≠ inum := by
      intro equal
      rw [equal] at old
      exact old.1 zero
    rw [update_of_ne other]
    exact old
  case procs =>
    rw [same Local.proc rfl, same Local.child rfl, procs]
    exact core.procs
  case shape =>
    rw [same Local.view rfl, building]
    refine ⟨?_, ?_, ?_, ?_⟩
    · intro i q
      have old := core.shape.maker i q
      by_cases equal : i = inum
      · subst equal
        rw [update_self]
        by_cases me : q = p
        · subst me
          simp
        · rw [update_of_ne me, ← old, unbuilt]
          simp [Ne.symm me]
      · rw [update_of_ne equal, old]
        by_cases me : q = p
        · subst me
          rw [update_self, making]
          simp [Ne.symm equal]
        · rw [update_of_ne me]
    · intro i small some
      by_cases equal : i = inum
      · subst equal
        rw [here]
        exact typed
      · rw [update_of_ne equal] at some
        rw [dinodes i equal]
        exact core.shape.real i small some
    · intro q e v viewed owned
      rw [update_of_ne (owned_ne q e v viewed owned)]
      exact core.shape.builder q e v viewed owned
    · intro q i n fresh
      by_cases me : q = p
      · subst me
        rw [update_self] at fresh
        cases fresh
        rw [update_self, update_self]
        exact ⟨rfl, rfl, unheld⟩
      · rw [update_of_ne me] at fresh
        obtain ⟨builds, node, free⟩ := core.shape.fresh q i n fresh
        have other : i ≠ inum := by
          rintro rfl
          rw [unbuilt] at builds
          cases builds
        rw [update_of_ne other, update_of_ne other]
        exact ⟨builds, node, free⟩
  case carried =>
    intro q b
    by_cases me : q = p
    · subst me
      rw [update_self]
      exact core.carried q b
    · rw [update_of_ne me]
      exact core.carried q b
  case active =>
    intro q e
    by_cases me : q = p
    · subst me
      rw [update_self]
      exact core.active q e
    · rw [update_of_ne me]
      exact core.active q e
  case trans => exact core.trans_same rfl outstanding

theorem safe_iallocAt (bound : inum < sb.ninodes) (op : l.op = true)
    (typed : type ≠ 0) (making : l.making = none) :
    Safe sb C p (iallocAt sb p type inum) l w fun found l' w' =>
      match found with
      | some i => i = inum ∧ ∃ data, l' = { l with
          making := some inum, fresh := some (inum, .blank type data) } ∧
          w' = withNode w inum (.blank type data)
      | none => l' = l ∧ w' = w := by
  refine safe_step fun s gs N own mine core known => ?_
  subst mine
  by_cases free : (dinodeOf (s.disk (sb.iblock inum)) (inum % IPB)).type = 0
  · simp only [if_pos free, State.log_eq (core.trans_pos op)]
    intro _
    have after := core.alloc (p := p) (t := { s.write p (sb.iblock inum)
      (setDinode (s.disk (sb.iblock inum)) (inum % IPB) { Dinode.zero with type := type }) with
        building := update s.building inum (some p) })
      bound free typed making rfl rfl rfl rfl rfl rfl
    refine ⟨_, withNode w inum (.blank type (N inum).data), _, own, by simp, after, fun W here =>
        ?_,
      trivial, (N inum).data, rfl, rfl⟩
    obtain ⟨W, rfl, rfl⟩ := Option.map_eq_some_iff.mp here
    have old := known W rfl
    rw [proj_same (l := { gs p with making := some inum, fresh := some (inum, _) }) Local.view
      rfl, proj_same (l := { gs p with making := some inum, fresh := some (inum, _) })
      running rfl]
    refine ⟨fun i small free => ?_, old.free, old.alone⟩
    by_cases equal : i = inum
    · subst equal
      simp
    · rw [update_of_ne equal]
      show _ = update W.node inum _ i
      rw [update_of_ne equal]
      exact old.node i small free
  · simp only [if_neg free]
    intro _
    refine ⟨gs p, w, N, own, rfl, ?_, ?_, rfl, rfl⟩
    · rw [update_eq_self]
      exact core
    · rw [update_eq_self]
      exact known

theorem safe_ialloc (op : l.op = true) (typed : type ≠ 0) (busy : l.proc ≠ none)
    (making : l.making = none) (full : ∀ b, C.allowed b .igetNoInodes) :
    Safe sb C p (ialloc sb p ROOTDEV type) l w fun found l' w' =>
      (w = none → w' = none) ∧
      match found with
      | some e => l'.Own e ∧ ∃ inum data, l' = (({ l with
          making := some inum, fresh := some (inum, .blank type data) } : Local Pid).addRef e
            1).setNum e (some inum)
      | none => l' = l := by
  refine .seq (show Safe sb C p _ _ _ (fun found l' w' => (w = none → w' = none) ∧
    match found with
    | some inum => (0 < inum ∧ inum < sb.ninodes) ∧ ∃ data, l' = { l with
        making := some inum, fresh := some (inum, .blank type data) }
    | none => l' = l) from ?_) ?_
  · refine .first (fun rest l' w' => l' = l ∧ w' = w ∧
      ∀ i ∈ rest, 0 < i ∧ i < sb.ninodes) ⟨rfl, rfl, ?_⟩ ?_ ?_
    · intro i mem
      rw [List.mem_range'_1] at mem
      omega
    · rintro i rest _ _ ⟨rfl, rfl, inside⟩
      refine (safe_iallocAt (inside i List.mem_cons_self).2 op typed making).mono
        fun found l' w' after => ?_
      cases found with
      | some inum =>
        obtain ⟨rfl, data, rfl, rfl⟩ := after
        exact ⟨by rintro rfl; rfl, inside _ List.mem_cons_self, data, rfl⟩
      | none =>
        obtain ⟨rfl, rfl⟩ := after
        exact ⟨rfl, rfl, fun j mem => inside j (List.mem_cons_of_mem _ mem)⟩
    · rintro _ _ ⟨rfl, rfl, -⟩
      exact ⟨id, rfl⟩
  · rintro found l' w' ⟨none, after⟩
    cases found with
    | none => exact .pure ⟨none, after⟩
    | some inum =>
      obtain ⟨bound, data, rfl⟩ := after
      refine .seq (safe_iget bound busy (full _)) ?_
      rintro e _ _ ⟨⟨rfl, owns⟩, rfl⟩
      exact .pure ⟨none, owns, inum, data, rfl⟩

/-! ## History -/

theorem Core.note (core : Core sb s gs N own) (events : List Event) :
    Core sb { s with events := events } gs N own :=
  { core with }

theorem safe_noteHop (dp ip : Fin NINODE) (name : List UInt8) :
    Safe sb C p (noteHop sb dp ip name) l w fun _ l' w' => l' = l ∧ w' = w := by
  refine safe_ghost fun s gs N own mine core => ?_
  subst mine
  refine ⟨gs p, rfl, rfl, ?_, rfl⟩
  rw [update_eq_self]
  exact core.note _

theorem safe_noteBind (dp ip : Fin NINODE) (name : List UInt8) :
    Safe sb C p (noteBind dp ip name) l w fun _ l' w' => l' = l ∧ w' = w := by
  refine safe_ghost fun s gs N own mine core => ?_
  subst mine
  refine ⟨gs p, rfl, rfl, ?_, rfl⟩
  rw [update_eq_self]
  exact core.note _

theorem safe_finished (viewed : l.view e = some v) (owned : v.owned = true) :
    Safe sb C p (finished p v.inum) l w fun _ l' w' =>
      l' = { l with making := if l.making = some v.inum then none else l.making } ∧ w' = w := by
  refine safe_ghost fun s gs N own mine core => ?_
  subst mine
  have held : Held (fun q => (gs q).view) v.inum := ⟨p, e, v, viewed, owned, rfl⟩
  by_cases mine : s.building v.inum = some p
  · simp only [if_pos mine]
    refine ⟨{ gs p with
      making := if (gs p).making = some v.inum then none else (gs p).making }, rfl, rfl, ?_,
      rfl⟩
    have same : ∀ {β : Type} (f : Local Pid → β), f { gs p with
        making := if (gs p).making = some v.inum then none else (gs p).making } =
        f (gs p) → (fun q => f (update gs p { gs p with
        making := if (gs p).making = some v.inum then none else (gs p).making } q)) =
        fun q => f (gs q) := fun f => proj_same f
    have maker : ∀ i q, update s.building v.inum none i = some q ↔
        (update gs p { gs p with
          making := if (gs p).making = some v.inum then none else (gs p).making }
          q).making = some i :=
      core.maker_clear (t := { s with
            building := update s.building v.inum none }) viewed owned rfl rfl
    have kept : ∀ i, i ≠ v.inum → update s.building v.inum none i = s.building i :=
      fun i other => update_of_ne other ..
    constructor
    case blocks =>
      rw [same Local.loose rfl]
      exact core.blocks
    case pool =>
      rw [same Local.view rfl]
      exact core.pool
    case table =>
      rw [same Local.view rfl]
      exact core.table
    case refs =>
      rw [same Local.view rfl, same Local.refs rfl, same Local.files rfl, same Local.proc rfl,
        same Local.num rfl]
      exact core.refs
    case files =>
      rw [same Local.files rfl, same Local.proc rfl, same Local.file rfl]
      exact core.files
    case procs =>
      rw [same Local.proc rfl, same Local.child rfl]
      exact core.procs
    case shape =>
      rw [same Local.view rfl, same Local.fresh rfl]
      refine ⟨maker, ?_, ?_, ?_⟩
      · intro i bound
        show update s.building v.inum none i ≠ none → _
        by_cases other : i = v.inum
        · subst other
          simp
        · rw [kept i other]
          exact core.shape.real i bound
      · intro q e' v' viewed' owned'
        show update s.building v.inum none v'.inum = none ∨
          update s.building v.inum none v'.inum = some q
        by_cases other : v'.inum = v.inum
        · rw [other]
          simp
        · rw [kept _ other]
          exact core.shape.builder q e' v' viewed' owned'
      · intro q i n fresh
        obtain ⟨builds, node, free⟩ := core.shape.fresh q i n fresh
        have other : i ≠ v.inum := by
          rintro rfl
          exact free held
        show update s.building v.inum none i = some q ∧ _
        rw [kept i other]
        exact ⟨builds, node, free⟩
    case carried =>
      intro q b
      by_cases me : q = p
      · subst me
        rw [update_self]
        exact core.carried q b
      · rw [update_of_ne me]
        exact core.carried q b
    case active =>
      intro q e'
      by_cases me : q = p
      · subst me
        rw [update_self]
        exact core.active q e'
      · rw [update_of_ne me]
        exact core.active q e'
    case trans => exact core.trans_same rfl rfl
  · simp only [if_neg mine]
    have other : (gs p).making ≠ some v.inum :=
      fun making => mine ((core.shape.maker _ p).mpr making)
    refine ⟨gs p, rfl, rfl, ?_, ?_⟩
    · rw [update_eq_self]
      exact core
    · rw [if_neg other]

/-! ## `iput` -/

/-- What is known afterwards of the inodes with links, and of the others. -/
def Spares (w w' : Option World) : Prop :=
  (w = none → w' = none) ∧ ∀ W, w = some W → ∃ W', w' = some W' ∧ (W.quiet → W'.quiet) ∧
    ∀ i, (W.node i).d.nlink ≠ 0 → W'.node i = W.node i

theorem Spares.refl (w : Option World) : Spares w w :=
  ⟨id, fun W here => ⟨W, here, id, fun _ _ => rfl⟩⟩

theorem Spares.trans {w w' w'' : Option World} (first : Spares w w') (second : Spares w' w'') :
    Spares w w'' := by
  refine ⟨fun none => second.1 (first.1 none), fun W here => ?_⟩
  obtain ⟨W', here', quiet, nodes⟩ := first.2 W here
  obtain ⟨W'', here'', quiet', nodes'⟩ := second.2 W' here'
  refine ⟨W'', here'', fun now => quiet' (quiet now), fun i linked => ?_⟩
  have same := nodes i linked
  rw [nodes' i (by rw [same]; exact linked), same]

theorem Spares.free (w : Option World) (F : Nat → Prop) : Spares w (withFree w F) := by
  refine ⟨?_, ?_⟩
  · rintro rfl
    rfl
  · rintro W rfl
    exact ⟨{ W with free := F }, rfl, id, fun _ _ => rfl⟩

theorem Spares.node {n : Node}
    (unlinked : ∀ W, w = some W → (W.node i).d.nlink = 0 ∨ W.node i = n) :
    Spares w (withNode w i n) := by
  refine ⟨?_, ?_⟩
  · rintro rfl
    rfl
  · rintro W rfl
    refine ⟨{ W with node := update W.node i n }, rfl, id, fun j linked => ?_⟩
    by_cases here : j = i
    · subst here
      rcases unlinked W rfl with zero | same
      · exact absurd zero linked
      · show update W.node j n j = W.node j
        rw [update_self, same]
    · exact update_of_ne here ..

theorem Local.unview_setView (unviewed : l.view e = none) : (l.setView e v).unview e = l := by
  simp only [Local.unview, Local.setView, update_idem]
  rw [← unviewed, update_eq_self]

/-- What the process builds after it has freed an inode that it has not locked. -/
def Remade (l : Local Pid) (m : Option Nat) : Prop :=
  m = l.making ∨ (m = none ∧ ∀ e v, l.view e = some v → l.making ≠ some v.inum)

theorem Remade.eq_none (remade : Remade l m) (making : l.making = none) : m = none :=
  remade.elim (fun same => same.trans making) And.left

theorem Remade.eq_of_view (remade : Remade l m) (viewed : l.view e = some v)
    (making : l.making = some v.inum) : m = l.making :=
  remade.resolve_right fun other => other.2 e v viewed making

theorem safe_iput (has : l.Own e) (running : l.running = true) (op : l.op = true)
    (more : l.view e = none ∨ (l.addRef e (-1)).Own e) (clean : ∀ b, l.loose b = none)
    (fresh : l.fresh = none) :
    Safe sb C p (iput sb p e) l w fun _ l' w' => Spares w w' ∧
      ∃ m, l' = { l.addRef e (-1) with making := m } ∧ Remade l m := by
  refine .seq (safe_iputTest has running more) ?_
  rintro last _ _ ⟨rfl, ⟨rfl, rfl⟩ | ⟨rfl, unviewed, v, sole, nlink, apart, rfl, locked⟩⟩
  · exact .pure ⟨.refl _, l.making, rfl, .inl rfl⟩
  · have start : ({ l.setView e v with fresh := none } : Local Pid) = l.setView e v := by
      simp only [setView, ← fresh]
    rw [start, if_pos rfl]
    refine .seq (safe_itrunc view_set locked.owned op
      locked.good.stable locked.type) ?_
    rintro _ _ _ ⟨F, rfl, rfl⟩
    refine .after (safe_setDinodeMem
      (v := { v with disk := v.node.emptied.d, node := v.node.emptied }) (by simp) locked.owned
      (fun d => { d with type := 0 }) (.inr sole)) fun _ => ?_
    simp only [setView_twice]
    have good : (v.node.emptied.setD fun d => { d with type := 0 }).Good sb :=
      Node.good_emptied sb (v.node.setD fun d => { d with type := 0 })
    refine .after (safe_iupdateFree (v := { v with
      disk := v.node.emptied.d, node := v.node.emptied.setD fun d => { d with type := 0 } })
      view_set locked.owned op rfl good sole clean) fun _ => ?_
    simp only [setView_twice, making_setView]
    refine .after (safe_invalidate (e := e) (v := { v with
      owned := false, disk := (v.node.emptied.setD fun d => { d with type := 0 }).d,
      node := v.node.emptied.setD fun d => { d with type := 0 } }) (by simp [setView]) rfl
      clean) fun _ => ?_
    refine .next (safe_releaseInode view_set rfl rfl clean) fun _ => ?_
    have back : ∀ (v₁ v₂ : View) (m : Option Nat), unview (setView
        ({ l.setView e v₁ with making := m } : Local Pid) e v₂) e = { l with making := m } := by
      intro v₁ v₂ m
      simp only [unview, setView, update_idem]
      rw [← unviewed, update_eq_self]
    rw [back]
    refine (safe_iputDrop (l := { l with
      making := if l.making = some v.inum then none else l.making }) has unviewed).mono ?_
    rintro _ _ _ ⟨rfl, rfl⟩
    refine ⟨(Spares.free _ F).trans (.node fun W here => .inl ?_), _, rfl, ?_⟩
    · obtain ⟨W, rfl, rfl⟩ := Option.map_eq_some_iff.mp here
      show (W.node v.inum).d.nlink = 0
      rw [← locked.node W rfl]
      exact nlink
    · split
      next here =>
        refine .inr ⟨rfl, fun e' v' viewed making => apart e' v' viewed ?_⟩
        rw [here] at making
        exact (Option.some.inj making).symm
      next => exact .inl rfl

theorem safe_iunlockput (viewed : l.view e = some v) (settled : Settled sb v) (has : l.Own e)
    (running : l.running = true) (op : l.op = true) (clean : ∀ b, l.loose b = none)
    (fresh : l.fresh = none) :
    Safe sb C p (iunlockput sb p e) l w fun _ l' w' =>
      Spares (withNode w v.inum v.node) w' ∧
      ∃ m, l' = { (l.unview e).addRef e (-1) with making := m } ∧ Remade (l.unview e) m := by
  refine .after (safe_iunlock viewed settled clean) fun _ => ?_
  exact safe_iput (l := l.unview e) has running op (.inl (update_self ..)) clean fresh

end Xv6.Fs
