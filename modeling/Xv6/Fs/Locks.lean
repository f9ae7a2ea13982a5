import Xv6.Fs.ReadWrite

/-!
# Inode locks

`ilock` takes an inode out of the pool, and `iunlock` puts it back. In between
the process owns the node. `iput` ends this in another way for an inode that it
frees: the node goes back with the last `iupdate`, while the entry is still
locked.
-/

namespace Xv6.Fs

open Function

variable {Pid : Type} [DecidableEq Pid] [Fintype Pid] {l' : Local Pid} {x : Option View} {n : Node}
  {ip : Inode Pid} {W : World}

namespace Local

/-- The process has a reference of its own to the entry. -/
def Own (l : Local Pid) (e : Fin NINODE) : Prop :=
  ∃ pr, l.proc = some pr ∧ 1 ≤ cwdRef pr e + l.refs e

/-- The process has a reference to the open file. -/
def OwnFile (l : Local Pid) (i : Fin NFILE) : Prop :=
  ∃ pr, l.proc = some pr ∧ 1 ≤ slotRef pr i + l.files i

/-- The process has a reference to the entry, of its own or by an open file. -/
def Has (l : Local Pid) (e : Fin NINODE) : Prop :=
  l.Own e ∨ ∃ i f, l.file i = some f ∧ l.OwnFile i ∧ f.type ≠ .none ∧ f.ip = e

/-- The inode is no longer locked. -/
def unview (l : Local Pid) (e : Fin NINODE) : Local Pid :=
  { l with view := Function.update l.view e none }

end Local

/-- What is known of a node. -/
def withNode (w : Option World) (i : Nat) (n : Node) : Option World :=
  w.map fun W => { W with node := Function.update W.node i n }

@[simp] theorem isSome_withNode (w : Option World) (i : Nat) (n : Node) :
    (withNode w i n).isSome = w.isSome := by
  simp [withNode]

variable {sb : Super} {C : Setting Pid} {p : Pid} {l : Local Pid} {w : Option World}
  {e : Fin NINODE} {v : View} {s t : State Pid} {gs : Pid → Local Pid} {N : Nat → Node}
  {own : Nat → Owner Pid}

namespace Core

section

variable (core : Core sb s gs N own) {i : Nat}
include core

theorem own_num (num : (gs p).num e = some i) (has : (gs p).Own e) : (s.itable e).inum = i := by
  obtain ⟨pr, proc, some⟩ := has
  refine core.refs.num p e i ?_ num ?_
  · simp [proc]
  · unfold share
    rw [(core.procs.own p pr proc).1]
    exact some

theorem own_share (has : (gs p).Own e) : 1 ≤ share s.procs (fun q => (gs q).refs) p e := by
  obtain ⟨pr, proc, some⟩ := has
  unfold share
  rw [(core.procs.own p pr proc).1]
  exact some

theorem own_slot {i : Fin NFILE} (has : (gs p).OwnFile i) :
    1 ≤ slotShare s.procs (fun q => (gs q).files) p i := by
  obtain ⟨pr, proc, some⟩ := has
  unfold slotShare
  rw [(core.procs.own p pr proc).1]
  exact some

theorem file_same {i : Fin NFILE} {f : File} (known : (gs p).file i = some f)
    (has : (gs p).OwnFile i) : (s.ftable i).Same f :=
  core.files.same p i f (by obtain ⟨pr, proc, -⟩ := has; simp [proc]) known (core.own_slot has)

theorem holder (has : (gs p).Has e) : 1 ≤ share s.procs (fun q => (gs q).refs) p e ∨
      ∃ i, 1 ≤ slotShare s.procs (fun q => (gs q).files) p i ∧ fileRef (s.ftable i) e = 1 := by
  rcases has with mine | ⟨i, f, known, mine, opened, here⟩
  · exact .inl (core.own_share mine)
  · have same := core.file_same known mine
    refine .inr ⟨i, core.own_slot mine, if_pos ⟨?_, ?_⟩⟩
    · rw [same.type]
      exact opened
    · rw [same.ip]
      exact here

theorem used (has : (gs p).Has e) : 0 < (s.itable e).ref := by
  rcases core.holder has with mine | ⟨i, -, file⟩
  · exact core.refs.ref_pos_of_share mine
  · exact core.refs.ref_pos_of_file file

theorem not_held_of_view (viewed : (gs p).view e = some v)
    (unowned : v.owned = false) : ¬ Held (fun q => (gs q).view) (s.itable e).inum := by
  rintro ⟨q, e', v', viewed', owned, same⟩
  obtain ⟨rfl, rfl⟩ := core.view_unique viewed viewed' (same.trans (core.agrees viewed).inum)
  have viewed' : (gs q).view e' = some v' := viewed'
  rw [viewed] at viewed'
  cases viewed'
  rw [unowned] at owned
  cases owned

theorem blocks_same (loose : l'.loose = (gs p).loose) (node : n = N i) :
    Blocks sb s.disk (update (fun q => (gs q).loose) p l'.loose) (update N i n) own := by
  rw [node, update_eq_self, loose, update_eq_self p fun q => (gs q).loose]
  exact core.blocks

end

end Core

/-! ## Taking the lock -/

/-- What a process knows of an inode that it has just locked. -/
structure Locked (sb : Super) (l : Local Pid) (w : Option World) (e : Fin NINODE) (v : View) :
    Prop where
  owned : v.owned = true
  disk : v.disk = v.node.d
  good : v.node.Good sb
  type : v.node.d.type ≠ 0
  num : ∀ i, l.num e = some i → l.Own e → v.inum = i
  node : ∀ W, w = some W → v.node = W.node v.inum
  file : ∀ i f, l.file i = some f → l.OwnFile i → f.type ≠ .none → f.ip = e →
    f.writable = true → v.node.d.type ≠ T_DIR
  bound : 0 < v.inum ∧ v.inum < sb.ninodes
  fresh : ∀ i n, l.fresh = some (i, n) → v.inum = i → v.node = n

/-- A process may wait, or there is nobody to wait for. -/
def Patient (C : Setting Pid) (w : Option World) : Prop :=
  C.waits w.isSome ∨ ∃ W, w = some W ∧ W.quiet

/-- A process may find a free inode, or knows that it does not. -/
def Typed (C : Setting Pid) (l : Local Pid) (w : Option World) (e : Fin NINODE) : Prop :=
  C.allowed w.isSome .ilockNoType ∨
    ∃ W i, w = some W ∧ l.num e = some i ∧ l.Own e ∧ (W.node i).d.type ≠ 0

theorem locked_of_pool (core : Core sb s gs N own) (known : ∀ W, w = some W →
      Known sb (fun q => (gs q).view) (fun q => (gs q).running) N own W)
    (used : 0 < (s.itable e).ref) (free : ¬ Held (fun q => (gs q).view) (s.itable e).inum)
    (typed : (N (s.itable e).inum).d.type ≠ 0) (inum : v.inum = (s.itable e).inum) (owned : v.owned
        = true)
    (node : v.node = N (s.itable e).inum) (disk : v.disk = v.node.d) : Locked sb (gs p) w e v := by
  have bound := (core.table.entry e used).2.2
  refine ⟨owned, disk, ?_, ?_, ?_, ?_, ?_, ?_, ?_⟩
  · rw [node]
    exact (core.pool _ bound free).2
  · rw [node]
    exact typed
  · intro i num mine
    rw [inum]
    exact core.own_num num mine
  · intro W here
    rw [node, inum]
    exact (known W here).node _ bound free
  · intro i f file mine opened here writable
    have same := core.file_same file mine
    have kind := (core.files.kind i (by rw [same.type]; exact opened)).2
      (by rw [same.writable]; exact writable)
    rw [same.ip, here] at kind
    rw [node]
    exact kind
  · rw [inum]
    exact (core.table.entry e used).2
  · intro i n fresh same
    rw [node, ← inum, same]
    exact (core.shape.fresh p i n fresh).2.1

theorem change_acquire (core : Core sb s gs N own) (has : (gs p).Has e)
    (free : (s.itable e).lock = none) (running : (gs p).running = true) (sole : Bool)
    (unopened : sole = true → ∀ i, fileRef (s.ftable i) e = 0)
    (kept : (s.itable e).valid = true →
      s.building (s.itable e).inum = none ∨ s.building (s.itable e).inum = some p) :
    let v : View := ⟨(s.itable e).inum, (s.itable e).valid, (s.itable e).valid, sole,
      (N (s.itable e).inum).d, N (s.itable e).inum⟩
    Change sb s gs N p e (s.setInode e fun ip => { ip with lock := some p })
      { (gs p).setView e v with
        fresh := if (s.itable e).valid then none else (gs p).fresh }
      { s.itable e with lock := some p } (some v) (N (s.itable e).inum) := by
  have used := core.used has
  have bound := (core.table.entry e used).2.2
  have unheld := core.not_held used free
  have pool := core.pool _ bound unheld
  have rest := core.table.rest e used free
  refine
    { used := used
      unlocked := .inl free
      agrees := ?_
      pool := fun _ => pool
      rest := nofun
      holder := fun _ => core.holder has
      type := .inl rfl
      sole := ?_
      fresh := ?_
      maker := core.maker_same rfl rfl
      real := core.shape.real _ bound
      mine := ?_
      builder := ?_
      carried := fun _ _ => ⟨e, by simp⟩
      active := fun _ => running }
  · rintro _ ⟨⟩
    refine ⟨rfl, rfl, fun valid => ⟨valid, (rest valid).1⟩, fun _ => update_self ..,
      fun valid => ⟨pool.1, ?_⟩⟩
    rw [← (rest valid).1]
    exact (rest valid).2
  · rintro _ ⟨⟩
    exact unopened
  · intro i m known
    cases valid : (s.itable e).valid with
    | true => simp [valid] at known
    | false =>
      simp only [valid, Bool.false_eq_true, if_false] at known
      refine ⟨known, ?_⟩
      rintro rfl
      refine ⟨rfl, rfl, ?_⟩
      rintro _ ⟨⟩
      rfl
  · cases valid : (s.itable e).valid with
    | true => exact .inl (kept valid)
    | false =>
      refine .inr ⟨rfl, rfl, ?_⟩
      rintro _ ⟨⟩
      rfl
  · rintro _ ⟨⟩ valid
    exact kept valid

theorem known_acquire (change : Change sb s gs N p e t l' ip x (N (s.itable e).inum))
    (core : Core sb s gs N own) (used : 0 < (s.itable e).ref)
    (free : ¬ Held (fun q => (gs q).view) (s.itable e).inum)
    (known : ∀ W, w = some W →
    Known sb (fun q => (gs q).view) (fun q => (gs q).running) N own W) (here : w = some W) :
    Known sb (fun q => (update gs p l' q).view) (fun q => (update gs p l' q).running)
      (update N (s.itable e).inum (N (s.itable e).inum)) own W := by
  have old := known W here
  exact change.known core old (fun _ _ => rfl)
    (fun _ => (old.node _ (core.table.entry e used).2.2 free).symm) old.free id

/-- `acquiresleep` in `ilock`. The inode may be there already. -/
theorem safe_acquireInode (has : l.Has e) (unlocked : C.waits w.isSome ∨ l.view e = none)
    (running : l.running = true) (patient : Patient C w) :
    Safe sb C p (acquireInode p e) l w fun _ l' w' => w' = w ∧ l.view e = none ∧
      ∃ v, v.sole = false ∧ (∀ i, l.num e = some i → l.Own e → v.inum = i) ∧
        ((l' = { l.setView e v with fresh := none } ∧ v.valid = true ∧ Locked sb l w e v) ∨
          (l' = l.setView e v ∧ v.valid = false ∧ v.owned = false)) := by
  refine safe_step fun s gs N own mine core known => ?_
  subst mine
  have used := core.used has
  simp only [if_neg (show ¬ (s.itable e).ref < 1 by omega)]
  cases lock : (s.itable e).lock with
  | some q =>
    simp only [reduceCtorEq, if_false]
    refine patient.elim id ?_
    rintro ⟨W, here, quiet⟩
    have viewed := (core.table.locked q e).mp lock
    have same := (known W here).alone quiet q p (core.active q e viewed) running
    rw [same] at viewed
    exact unlocked.elim id fun none => absurd none viewed
  | none =>
    simp only [if_true]
    intro assumed
    have unheld := core.not_held used lock
    have kept : (s.itable e).valid = true →
        s.building (s.itable e).inum = none ∨ s.building (s.itable e).inum = some p := by
      intro valid
      refine C.keeps p s _ assumed e ⟨?_, ?_⟩
      · simp [valid]
      · simp [lock]
    have change := change_acquire core has lock running false nofun kept
    refine ⟨_, w, _, own, rfl, change.core core (core.blocks_same rfl rfl),
      fun W here => known_acquire change core used unheld known here, rfl, ?_,
      ⟨(s.itable e).inum, (s.itable e).valid, (s.itable e).valid, false,
        (N (s.itable e).inum).d, N (s.itable e).inum⟩, rfl, ?_, ?_⟩
    · by_contra viewed
      have := (core.table.locked p e).mpr viewed
      rw [lock] at this
      cases this
    · intro i num own
      exact core.own_num num own
    · cases valid : (s.itable e).valid with
      | true =>
        refine .inl ⟨?_, rfl, ?_⟩
        · simp
        · have rest := core.table.rest e used lock valid
          exact locked_of_pool core known used unheld (rest.1 ▸ rest.2) rfl rfl rfl
            rfl
      | false =>
        refine .inr ⟨?_, rfl, rfl⟩
        simp [Local.setView]

theorem safe_loadInode (viewed : l.view e = some v) (valid : v.valid = false)
    (unowned : v.owned = false) (typed : Typed C l w e) :
    Safe sb C p (loadInode sb e) l w fun _ l' w' => w' = w ∧
      ∃ v', v'.sole = v.sole ∧ v'.valid = true ∧
        l' = { l.setView e v' with fresh := none } ∧ Locked sb l w e v' := by
  refine safe_step fun s gs N own mine core known => ?_
  subst mine
  have agrees := core.agrees viewed
  have used := core.pos viewed
  have bound := (core.table.entry e used).2.2
  have lock := core.lock viewed
  have unheld := core.not_held_of_view viewed unowned
  have pool := core.pool _ bound unheld
  have cold : (s.itable e).valid = false := agrees.valid.trans valid
  simp only [cold, Bool.false_eq_true, if_false, pool.1]
  by_cases type : (N (s.itable e).inum).d.type = 0
  · rw [if_pos type]
    refine typed.elim id ?_
    rintro ⟨W, i, here, num, own, nonzero⟩
    rw [← core.own_num num own] at nonzero
    rw [← (known W here).node _ bound unheld] at nonzero
    exact absurd type nonzero
  · rw [if_neg type]
    intro assumed
    have kept := C.keeps p s _ assumed e ⟨by simp [lock], by simp [cold]⟩
    have change : Change sb s gs N p e
        (s.setInode e fun ip => { ip with d := (N (s.itable e).inum).d, valid := true })
        { (gs p).setView e ⟨(s.itable e).inum, true, true, v.sole, (N (s.itable e).inum).d,
            N (s.itable e).inum⟩ with fresh := none }
        { s.itable e with d := (N (s.itable e).inum).d, valid := true }
        (some ⟨(s.itable e).inum, true, true, v.sole, (N (s.itable e).inum).d,
          N (s.itable e).inum⟩) (N (s.itable e).inum) := by
      refine
        { used := used
          unlocked := .inr lock
          lock := lock
          agrees := ?_
          pool := fun _ => pool
          rest := nofun
          holder := fun _ => core.refs.holder p e (by simp [viewed])
          type := .inl rfl
          sole := ?_
          fresh := nofun
          maker := core.maker_same rfl rfl
          real := core.shape.real _ bound
          mine := .inl kept
          builder := fun _ _ _ => kept
          carried := fun _ _ => ⟨e, by simp⟩
          active := fun _ => core.active p e (by simp [viewed]) }
      · rintro _ ⟨⟩
        exact ⟨rfl, rfl, fun _ => ⟨rfl, rfl⟩, fun _ => update_self .., fun _ => ⟨pool.1, type⟩⟩
      · rintro _ ⟨⟩
        exact core.refs.sole p e v viewed
    refine ⟨_, w, _, own, rfl, change.core core (core.blocks_same rfl rfl),
      fun W here => known_acquire change core used unheld known here, rfl,
      ⟨(s.itable e).inum, true, true, v.sole, (N (s.itable e).inum).d, N (s.itable e).inum⟩,
      rfl, rfl, rfl, ?_⟩
    exact locked_of_pool core known used unheld type rfl rfl rfl rfl

theorem safe_loadInode_valid (viewed : l.view e = some v) (valid : v.valid = true) :
    Safe sb C p (loadInode sb e) l w fun _ l' w' => w' = w ∧ l' = l := by
  refine (safe_read (P := fun _ => True) fun s gs N own mine core known =>
    ⟨(), ?_, trivial⟩).mono fun _ _ _ same => same.2.symm
  subst mine
  rw [if_pos ((core.agrees viewed).valid.trans valid)]

theorem Locked.of_setView {v' : View} (locked : Locked sb (l.setView e v') w e v) :
    Locked sb l w e v :=
  { locked with }

theorem safe_ilock (has : l.Has e) (unlocked : C.waits w.isSome ∨ l.view e = none)
    (running : l.running = true) (patient : Patient C w) (typed : Typed C l w e) :
    Safe sb C p (ilock sb p e) l w fun _ l' w' => w' = w ∧ l.view e = none ∧
      ∃ v, v.sole = false ∧ l' = { l.setView e v with fresh := none } ∧ Locked sb l w e v := by
  refine .seq (safe_acquireInode has unlocked running patient) ?_
  rintro _ _ _ ⟨rfl, unviewed, v, sole, num, ⟨rfl, valid, locked⟩ | ⟨rfl, valid, unowned⟩⟩
  · refine (safe_loadInode_valid (l := { l.setView e v with fresh := none })
      (update_self ..) valid).mono ?_
    rintro _ _ _ ⟨rfl, rfl⟩
    exact ⟨rfl, unviewed, v, sole, rfl, locked⟩
  · refine (safe_loadInode Local.view_set valid unowned typed).mono ?_
    rintro _ _ _ ⟨rfl, v', sole', -, rfl, locked⟩
    exact ⟨rfl, unviewed, v', sole'.trans sole, by simp [Local.setView], locked.of_setView⟩

/-! ## Giving it back -/

theorem known_return (change : Change sb s gs N p e t l' ip x n) (core : Core sb s gs N own)
    (known : ∀ W, w = some W →
    Known sb (fun q => (gs q).view) (fun q => (gs q).running) N own W)
    (here : withNode w (s.itable e).inum n = some W) :
    Known sb (fun q => (update gs p l' q).view) (fun q => (update gs p l' q).running)
      (update N (s.itable e).inum n) own W := by
  obtain ⟨W, rfl, rfl⟩ := Option.map_eq_some_iff.mp here
  exact change.known core (known W rfl) (fun i other => update_of_ne other ..)
    (fun _ => update_self ..) (known W rfl).free id

/-- A node that can go back to the pool. -/
structure Settled (sb : Super) (v : View) : Prop where
  owned : v.owned = true
  disk : v.disk = v.node.d
  good : v.node.Good sb

theorem Locked.settled (locked : Locked sb l w e v) : Settled sb v :=
  ⟨locked.owned, locked.disk, locked.good⟩

theorem change_release (core : Core sb s gs N own) (viewed : (gs p).view e = some v)
    (settled : Settled sb v) (clean : ∀ b, (gs p).loose b = none) :
    Change sb s gs N p e (s.setInode e fun ip => { ip with lock := none })
      ((gs p).unview e) { s.itable e with lock := none } none v.node := by
  have agrees := core.agrees viewed
  have lock := core.lock viewed
  have owned := settled.owned
  have fields := agrees.mem owned
  have disk := agrees.disk owned
  have builder := core.shape.builder p e v viewed owned
  refine
    { used := core.pos viewed
      unlocked := .inr lock
      agrees := nofun
      pool := ?_
      rest := ?_
      holder := fun some => absurd rfl some
      type := ?_
      sole := nofun
      fresh := core.fresh_ne viewed owned
      maker := core.maker_same rfl rfl
      real := core.shape.real _ (agrees.inum ▸ (core.inum_lt viewed).2)
      mine := ?_
      builder := nofun
      carried := fun b carries => absurd (clean b) carries
      active := fun some => absurd rfl some }
  · intro _
    rw [agrees.inum, ← settled.disk]
    exact ⟨disk.1, settled.good⟩
  · intro _ _
    refine ⟨fields.2, ?_⟩
    show (s.itable e).d.type ≠ 0
    rw [fields.2, ← settled.disk]
    exact disk.2
  · rw [agrees.inum, agrees.node owned]
    exact .inl rfl
  · rw [agrees.inum]
    exact .inl builder

theorem safe_iunlock (viewed : l.view e = some v) (settled : Settled sb v)
    (clean : ∀ b, l.loose b = none) :
    Safe sb C p (iunlock p e) l w fun _ l' w' =>
      l' = l.unview e ∧ w' = withNode w v.inum v.node := by
  refine safe_step fun s gs N own mine core known => ?_
  subst mine
  have agrees := core.agrees viewed
  have lock := core.lock viewed
  have used := core.pos viewed
  have legal : ¬ ((s.itable e).lock ≠ some p ∨ (s.itable e).ref < 1) := by
    rintro (other | unused)
    · exact other lock
    · omega
  simp only [if_neg legal]
  intro _
  have change := change_release core viewed settled clean
  refine ⟨_, withNode w (s.itable e).inum v.node, _, own, by simp, change.core core ?_,
    fun W here => known_return change core known here, rfl, by rw [agrees.inum]⟩
  exact core.blocks_same rfl (by rw [agrees.inum, agrees.node settled.owned])

/-! ## An inode that is freed -/

/-- The fields of a `Change` that leaves the node in the pool. -/
theorem change_unowned (ip : Inode Pid)
    (core : Core sb s gs N own) (viewed : (gs p).view e = some v)
    (unowned : v.owned = false) (view : l' = { gs p with
      view := update (gs p).view e x })
    (clean : ∀ b, (gs p).loose b = none) (ref : ip.ref = (s.itable e).ref)
    (inum : ip.inum = (s.itable e).inum) (dev : ip.dev = (s.itable e).dev)
    (lock : ip.lock = if x.isSome then some p else none) (cold : ip.valid = false)
    (after : ∀ v', x = some v' → v'.inum = v.inum ∧ v'.valid = false ∧ v'.owned = false ∧
      v'.sole = v.sole) :
    Change sb s gs N p e { s with itable := update s.itable e ip } l' ip x
      (N (s.itable e).inum) := by
  have agrees := core.agrees viewed
  have locked := core.lock viewed
  have used := core.pos viewed
  have bound := (core.table.entry e used).2.2
  have unheld := core.not_held_of_view viewed unowned
  subst view
  refine
    { used := used
      unlocked := .inr locked
      ref := ref
      inum := inum
      dev := dev
      lock := lock
      agrees := ?_
      pool := fun _ => core.pool _ bound unheld
      rest := fun _ valid => ?_
      holder := fun _ => core.refs.holder p e (by simp [viewed])
      type := .inl rfl
      sole := ?_
      fresh := fun i m fresh => ⟨fresh, ?_⟩
      maker := core.maker_same rfl rfl
      real := core.shape.real _ bound
      mine := .inr ⟨rfl, rfl, fun v' here => (after v' here).2.2.1⟩
      builder := ?_
      carried := fun b carries => absurd (clean b) carries
      active := fun _ => core.active p e (by simp [viewed]) }
  · intro v' here
    obtain ⟨number, invalid, free, -⟩ := after v' here
    refine ⟨?_, cold.trans invalid.symm, ?_, ?_, ?_⟩
    · rw [inum, agrees.inum, number]
    all_goals
      intro owned
      rw [free] at owned
      cases owned
  · rw [cold] at valid
    cases valid
  · intro v' here sole
    rw [(after v' here).2.2.2] at sole
    exact core.refs.sole p e v viewed sole
  · rintro rfl
    exact ⟨rfl, rfl, fun v' here => (after v' here).2.2.1⟩
  · intro v' here owned
    rw [(after v' here).2.2.1] at owned
    cases owned

theorem Core.maker_clear (core : Core sb s gs N own)
    (viewed : (gs p).view e = some v) (owned : v.owned = true)
    (building : t.building = update s.building v.inum none)
    (making : l'.making =
      if (gs p).making = some v.inum then none else (gs p).making) (i : Nat) (q : Pid) :
    t.building i = some q ↔ (update gs p l' q).making = some i := by
  have old := core.shape.maker i q
  rw [building]
  by_cases here : i = v.inum
  · subst here
    rw [update_self]
    by_cases me : q = p
    · subst me
      rw [update_self, making]
      split <;> simp_all
    · rw [update_of_ne me, ← old]
      rcases core.shape.builder p e v viewed owned with none | mine
      · simp [none]
      · simp [mine, Ne.symm me]
  · rw [update_of_ne here, old]
    by_cases me : q = p
    · subst me
      rw [update_self, making]
      split
      next now => simp [now, Ne.symm here]
      next => rfl
    · rw [update_of_ne me]

section

variable (viewed : l.view e = some v)
include viewed

/-- The last `iupdate` of an inode that `iput` frees: the node goes back to the pool. -/
theorem safe_iupdateFree (owned : v.owned = true) (op : l.op = true)
    (type : v.node.d.type = 0) (good : v.node.Good sb) (sole : v.sole = true)
    (clean : ∀ b, l.loose b = none) :
    Safe sb C p (iupdate sb p e) l w fun _ l' w' =>
      l' = { l.setView e { v with owned := false, disk := v.node.d } with
        making := if l.making = some v.inum then none else l.making } ∧
        w' = withNode w v.inum v.node := by
  refine safe_step fun s gs N own mine core known => ?_
  subst mine
  have agrees := core.agrees viewed
  have lock := core.lock viewed
  have inum := (core.inum_lt viewed).2
  have fields := (agrees.mem owned).2
  have builder := core.shape.builder p e v viewed owned
  simp only [State.log_eq (core.trans_pos op), if_pos (fields ▸ type : (s.itable e).d.type = 0)]
  intro _
  have change : Change sb s gs N p e
      { s.write p (sb.iblock (s.itable e).inum) (setDinode (s.disk (sb.iblock (s.itable e).inum))
          ((s.itable e).inum % IPB) (s.itable e).d) with
        building := update s.building (s.itable e).inum none }
      { (gs p).setView e { v with owned := false, disk := v.node.d } with
        making := if (gs p).making = some v.inum then none else (gs p).making }
      (s.itable e) (some { v with owned := false, disk := v.node.d }) v.node := by
    refine
      { used := core.pos viewed
        unlocked := .inr lock
        itable := (update_eq_self e s.itable).symm
        lock := lock
        dinodes := fun i _ other => dinodeAt_putDinode_of_ne sb s.disk _ other
        agrees := ?_
        pool := ?_
        rest := nofun
        holder := fun _ => core.refs.holder p e (by simp [viewed])
        type := .inr (core.refs.sole p e v viewed sole)
        sole := fun _ _ _ => core.refs.sole p e v viewed sole
        fresh := core.fresh_ne viewed owned
        building := fun _ other => update_of_ne other ..
        maker := core.maker_clear viewed owned (by rw [agrees.inum]) rfl
        real := fun some => absurd (update_self ..) some
        mine := .inl (agrees.inum ▸ builder)
        builder := ?_
        carried := fun b carries => absurd (clean b) carries
        active := fun _ => core.active p e (by simp [viewed]) }
    · rintro _ ⟨⟩
      exact ⟨agrees.inum, agrees.valid, nofun, nofun, nofun⟩
    · intro _
      rw [← fields]
      exact ⟨dinodeAt_putDinode_self sb s.disk _ _, good⟩
    · rintro _ ⟨⟩ impossible
      cases impossible
  refine ⟨_, withNode w (s.itable e).inum v.node, _, own, by simp, change.core core ?_,
    fun W here => known_return change core known here, rfl, by rw [agrees.inum]⟩
  have same : update N (s.itable e).inum v.node = N := by
    rw [agrees.inum, ← agrees.node owned, update_eq_self]
  rw [same]
  show Blocks sb _ (update (fun q => (gs q).loose) p (gs p).loose) N own
  rw [update_eq_self p fun q => (gs q).loose]
  exact core.blocks.putDinode (agrees.inum ▸ inum) _

theorem safe_invalidate (unowned : v.owned = false) (clean : ∀ b, l.loose b = none) :
    Safe sb C p (invalidate e) l w fun _ l' w' =>
      l' = l.setView e { v with valid := false } ∧ w' = w := by
  refine safe_step fun s gs N own mine core known => ?_
  subst mine
  have used := core.pos viewed
  have lock := core.lock viewed
  intro _
  have change := change_unowned { s.itable e with valid := false }
    (x := some { v with valid := false }) core viewed unowned rfl clean rfl rfl rfl lock rfl
    (by rintro _ ⟨⟩; exact ⟨rfl, rfl, unowned, rfl⟩)
  have unheld := core.not_held_of_view viewed unowned
  refine ⟨_, w, _, own, rfl, change.core core (core.blocks_same rfl rfl),
    fun W here => known_acquire change core used unheld known here, rfl, rfl⟩

theorem safe_releaseInode (valid : v.valid = false)
    (unowned : v.owned = false) (clean : ∀ b, l.loose b = none) :
    Safe sb C p (releaseInode e) l w fun _ l' w' => w' = w ∧ l' = l.unview e := by
  refine safe_step fun s gs N own mine core known => ?_
  subst mine
  have used := core.pos viewed
  intro _
  have change := change_unowned { s.itable e with lock := none } (x := none) core viewed
    unowned rfl clean rfl rfl rfl rfl ((core.agrees viewed).valid.trans valid) nofun
  have unheld := core.not_held_of_view viewed unowned
  refine ⟨_, w, _, own, rfl, change.core core (core.blocks_same rfl rfl),
    fun W here => known_acquire change core used unheld known here, rfl, rfl⟩

end

end Xv6.Fs
