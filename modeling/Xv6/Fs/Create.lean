import Xv6.Fs.Paths

/-!
# `create`

`create` is safe: it comes back with the new inode locked and with one reference
to it, or with nothing. Between `ialloc` and the end the process builds the inode,
so that nobody else gets hold of it.
-/

namespace Xv6.Fs

open Function Local

variable {Pid : Type} [DecidableEq Pid] [Fintype Pid] {sb : Super} {C : Setting Pid} {p : Pid}
  {l : Local Pid} {e dp ip : Fin NINODE} {v vd : View} {inum : Nat} {type : Int16} {n : Node}
  {f : Dinode → Dinode} {num : Fin NINODE → Option Nat}

/-! ## Inodes that may be unlocked -/

/-- A locked inode that is allocated and may be unlocked. -/
structure Fine (sb : Super) (v : View) : Prop where
  settled : Settled sb v
  type : v.node.d.type ≠ 0
  bound : 0 < v.inum ∧ v.inum < sb.ninodes

theorem Locked.fine {w : Option World} (locked : Locked sb l w e v) : Fine sb v :=
  ⟨locked.settled, locked.type, locked.bound⟩

theorem Fine.searchable (fine : Fine sb v) : Searchable sb v :=
  ⟨fine.settled.owned, fine.settled.good.readable, fine.settled.good.dir⟩

/-- The view of the same inode, which has the same type. -/
structure View.Like (v v' : View) : Prop where
  inum : v.inum = v'.inum
  sole : v.sole = v'.sole
  type : v.node.d.type = v'.node.d.type

variable {v' : View}

theorem View.Like.trans {v'' : View} (first : v.Like v') (second : v'.Like v'') : v.Like v'' :=
  ⟨first.inum.trans second.inum, first.sole.trans second.sole, first.type.trans second.type⟩

/-- Only other fields than those of the content change. -/
structure Relabels (f : Dinode → Dinode) : Prop where
  type : ∀ d, (f d).type = d.type
  size : ∀ d, (f d).size = d.size
  addrs : ∀ d, (f d).addrs = d.addrs

theorem Node.Good.relabel (good : n.Good sb) (relabels : Relabels f) : (n.setD f).Good sb := by
  have size : (n.setD f).size = n.size := congrArg UInt32.toNat (relabels.size n.d)
  refine ⟨⟨?_, good.stable.entries, good.stable.past⟩, ?_, ?_, ?_, ?_⟩
  · intro i
    rw [Node.d_setD, relabels.addrs]
    exact good.stable.addrs i
  · rw [size]
    exact good.covered
  · rw [size]
    exact good.size_le
  · rw [Node.d_setD, relabels.type]
    exact good.empty
  · rw [Node.d_setD, relabels.type]
    intro dir
    have isDir := good.dir dir
    refine ⟨?_, ?_, ?_⟩
    · rw [size]
      exact isDir.aligned
    · unfold Node.count
      rw [size]
      exact isDir.inums
    · unfold Node.count
      rw [size]
      exact isDir.names

/-- A process in a transaction. -/
structure Local.Inside (l : Local Pid) : Prop where
  op : l.op = true
  running : l.running = true
  clean : ∀ b, l.loose b = none
  fresh : l.fresh = none
  busy : l.proc ≠ none

theorem Local.Walks.inside (walks : l.Walks) : l.Inside :=
  { walks with }

theorem Local.Inside.setView (inside : l.Inside) (e : Fin NINODE) (v : View) :
    (l.setView e v).Inside :=
  { inside with }

theorem Local.Inside.setNum (inside : l.Inside) (num : Fin NINODE → Option Nat) :
    ({ l with num := num } : Local Pid).Inside :=
  { inside with }

/-- The fields in memory change, and are written to the disk. -/
theorem safe_relabel {α : Type} {next : Unit → Kernel Pid α}
    {post : α → Local Pid → Option World → Prop} (viewed : l.view e = some v) (fine : Fine sb v)
    (op : l.op = true) (relabels : Relabels f)
    (rest : ∀ v', Fine sb v' → v'.Like v → Safe sb C p (next ()) (l.setView e v') none post) :
    Safe sb C p (setDinodeMem e f >>= fun _ => iupdate sb p e >>= next) l none post := by
  have owned := fine.settled.owned
  refine .after (safe_setDinodeMem viewed owned f (.inl (relabels.type _))) fun _ => ?_
  have type : (v.node.setD f).d.type ≠ 0 := by
    rw [Node.d_setD, relabels.type]
    exact fine.type
  refine .after (safe_iupdate view_set owned op type) fun _ => ?_
  rw [setView_twice]
  exact rest _ ⟨⟨owned, rfl, fine.settled.good.relabel relabels⟩, type, fine.bound⟩
    ⟨rfl, rfl, relabels.type _⟩

theorem key_strncpy_ne {name : List UInt8} (absent : ∀ k, ¬ n.Binds name k) {j : Nat}
    (inside : j < n.count) (used : (n.dirent j).inum ≠ 0) :
    key DIRSIZ (strncpy DIRSIZ name) ≠ key DIRSIZ (n.dirent j).name := by
  intro same
  refine absent j ⟨inside, used, ?_⟩
  rw [← same, key_strncpy]

theorem safe_link (lenient : Lenient C) (viewed : l.view e = some v) (fine : Fine sb v)
    (inside : l.Inside) (proper : ∀ e', l.view e' ≠ none → l.Own e')
    (still : ∀ m, Remade l m → m = l.making) (name : List UInt8) (bound : inum < sb.ninodes) :
    Safe sb C p (dirlink sb p e name inum) l none fun _ l' w' => w' = none ∧
      ∃ v' num, Fine sb v' ∧ v'.Like v ∧ l' = { l.setView e v' with num := num } := by
  have small : inum < 2 ^ 16 := bound.trans sb.ninodes_lt
  refine (safe_dirlink lenient viewed fine.searchable fine.type fine.settled.disk inside.op
    inside.running inside.busy inside.clean inside.fresh proper name bound small).mono ?_
  rintro r _ _ ⟨rfl, isDir, n, m, num, rfl, remade, result⟩
  obtain rfl := still m remade
  have after : n.d.type = v.node.d.type ∧ n.Readable ∧ n.IsDir sb := by
    rcases result with ⟨-, absent, k, le, -, free, slotted⟩ | ⟨-, unslotted⟩
    · refine ⟨by rw [slotted.fields], slotted.readable, slotted.isDir isDir le bound ?_⟩
      intro _ j less _ used
      exact key_strncpy_ne absent less used
    · exact ⟨by rw [unslotted.fields], unslotted.readable, unslotted.isDir isDir⟩
  obtain ⟨type, readable, dir⟩ := after
  have alloc : n.d.type ≠ 0 := by
    rw [type]
    exact fine.type
  exact ⟨rfl, { v with disk := n.d, node := n }, num, ⟨⟨fine.settled.owned, rfl, readable.good alloc
    fun _ => dir⟩, alloc, fine.bound⟩, ⟨rfl, rfl, type⟩, rfl⟩

/-! ## The new inode -/

/-- A process that builds an inode, which it has locked with the parent. -/
structure Building (sb : Super) (l : Local Pid) (dp ip : Fin NINODE) (vd v : View) : Prop where
  inside : l.Inside
  parent : l.view dp = some vd
  child : l.view ip = some v
  apart : ip ≠ dp
  fineParent : Fine sb vd
  fine : Fine sb v
  proper : ∀ e, l.view e ≠ none → l.Own e
  making : l.making = some v.inum

section

variable (building : Building sb l dp ip vd v)
include building

theorem Building.still : ∀ m, Remade l m → m = l.making :=
  fun _ remade => remade.eq_of_view building.child building.making

theorem Building.setChild (fine : Fine sb v') (like : v'.Like v) (num : Fin NINODE → Option Nat) :
    Building sb { l.setView ip v' with num := num } dp ip vd v' where
  inside := (building.inside.setView ip v').setNum num
  parent := (view_ne building.apart.symm).trans building.parent
  child := view_set
  apart := building.apart
  fineParent := building.fineParent
  fine := fine
  proper := by
    intro e viewed
    by_cases here : e = ip
    · subst here
      exact building.proper e (by simp [building.child])
    · exact building.proper e (by rwa [← view_ne (v := v') here])
  making := by
    rw [like.inum]
    exact building.making

theorem Building.setParent (fine : Fine sb v') (num : Fin NINODE → Option Nat) :
    Building sb { l.setView dp v' with num := num } dp ip v' v where
  inside := (building.inside.setView dp v').setNum num
  parent := view_set
  child := (view_ne building.apart).trans building.child
  apart := building.apart
  fineParent := fine
  fine := building.fine
  proper := by
    intro e viewed
    by_cases here : e = dp
    · subst here
      exact building.proper e (by simp [building.parent])
    · exact building.proper e (by rwa [← view_ne (v := v') here])
  making := building.making

end

/-- The two inodes have changed, and nothing else that matters. -/
def Local.Built (sb : Super) (l : Local Pid) (dp ip : Fin NINODE) (v : View)
    (l' : Local Pid) : Prop :=
  ∃ vd' v' num, v'.Like v ∧ Building sb l' dp ip vd' v' ∧
    l' = { (l.setView dp vd').setView ip v' with num := num }

section

variable (lenient : Lenient C) (building : Building sb l dp ip vd v) (name : List UInt8)
include lenient building name

theorem safe_linkChild (bound : inum < sb.ninodes) :
    Safe sb C p (dirlink sb p ip name inum) l none fun _ l' w' => w' = none ∧
      ∃ v' num, v'.Like v ∧ Building sb l' dp ip vd v' ∧
        l' = { l.setView ip v' with num := num } := by
  refine (safe_link lenient building.child building.fine building.inside building.proper
    building.still name bound).mono ?_
  rintro _ _ _ ⟨rfl, v', num, fine, like, rfl⟩
  exact ⟨rfl, v', num, like, building.setChild fine like num, rfl⟩

theorem safe_linkParent (bound : inum < sb.ninodes) :
    Safe sb C p (dirlink sb p dp name inum) l none fun _ l' w' => w' = none ∧
      ∃ v' num, Building sb l' dp ip v' v ∧ l' = { l.setView dp v' with num := num } := by
  refine (safe_link lenient building.parent building.fineParent building.inside building.proper
    building.still name bound).mono ?_
  rintro _ _ _ ⟨rfl, v', num, fine, -, rfl⟩
  exact ⟨rfl, v', num, building.setParent fine num, rfl⟩

theorem safe_createLinks (type : Int16) :
    Safe sb C p (createLinks sb p dp ip name type) l none fun _ l' w' =>
      w' = none ∧ l.Built sb dp ip v l' := by
  have last : ∀ {l' : Local Pid} {v' : View}, v'.Like v → Building sb l' dp ip vd v' →
      (∃ num, l' = { l.setView ip v' with num := num }) → ∀ {inum : Nat}, inum < sb.ninodes →
      Safe sb C p (dirlink sb p dp name inum >>= fun r => pure (decide (0 ≤ r))) l' none
        fun _ l' w' => w' = none ∧ l.Built sb dp ip v l' := by
    rintro _ v' like now ⟨num, rfl⟩ inum bound
    refine .seq (safe_linkParent lenient now name bound) ?_
    rintro _ _ _ ⟨rfl, vd', num', after, rfl⟩
    refine .pure ⟨rfl, vd', v', num', like, after, ?_⟩
    simp only [setView]
    rw [update_comm building.apart]
  refine .seq (safe_getInode building.parent) ?_
  rintro parent _ _ ⟨⟨above, -, -⟩, rfl, rfl⟩
  refine .seq (safe_getInode building.child) ?_
  rintro inode l w ⟨⟨here, -, -⟩, rfl, rfl⟩
  have boundChild : inode.inum < sb.ninodes := here ▸ building.fine.bound.2
  have boundParent : parent.inum < sb.ninodes := above ▸ building.fineParent.bound.2
  split
  next =>
    refine .seq (safe_linkChild lenient building dot boundChild) ?_
    rintro r l₁ _ ⟨rfl, v₁, num₁, like₁, building₁, rfl⟩
    have built₁ : l.Built sb dp ip v { l.setView ip v₁ with num := num₁ } :=
      ⟨vd, v₁, num₁, like₁, building₁, by rw [setView_self building.parent]⟩
    split
    next => exact .pure ⟨rfl, built₁⟩
    next =>
      refine .seq (safe_linkChild lenient building₁ dotdot boundParent) ?_
      rintro r l₂ _ ⟨rfl, v₂, num₂, like₂, building₂, rfl⟩
      have same : ({ ({ l.setView ip v₁ with num := num₁ } : Local Pid).setView ip v₂ with
          num := num₂ } : Local Pid) = { l.setView ip v₂ with num := num₂ } := by
        simp [setView]
      rw [same] at building₂ ⊢
      split
      next =>
        exact .pure ⟨rfl, vd, v₂, num₂, like₂.trans like₁, building₂,
          by rw [setView_self building.parent]⟩
      next => exact last (like₂.trans like₁) building₂ ⟨num₂, rfl⟩ boundChild
  next =>
    refine last ⟨rfl, rfl, rfl⟩ building ⟨l.num, ?_⟩ boundChild
    rw [setView_self building.child]

end

/-- A process that has just allocated an inode, with the parent locked. -/
structure Allocated (sb : Super) (l : Local Pid) (dp ip : Fin NINODE) (vd : View) (type : Int16) :
    Prop where
  op : l.op = true
  running : l.running = true
  clean : ∀ b, l.loose b = none
  busy : l.proc ≠ none
  parent : l.view dp = some vd
  fineParent : Fine sb vd
  only : ∀ e, l.view e ≠ none → e = dp
  ownParent : l.Own dp
  own : l.Own ip
  fresh : ∃ inum data, l.making = some inum ∧ l.fresh = some (inum, .blank type data) ∧
    l.num ip = some inum

theorem Allocated.building (allocated : Allocated sb l dp ip vd type)
    (unviewed : l.view ip = none) (locked : Locked sb l none ip v) :
    Building sb { l.setView ip v with fresh := none } dp ip vd v ∧ v.node.d.type = type := by
  obtain ⟨inum, data, making, fresh, num⟩ := allocated.fresh
  have number := locked.num inum num allocated.own
  have apart : ip ≠ dp := by
    rintro rfl
    rw [allocated.parent] at unviewed
    cases unviewed
  refine ⟨?_, by rw [locked.fresh inum _ fresh number]; rfl⟩
  exact
    { inside := { allocated with fresh := rfl }
      parent := (view_ne apart.symm).trans allocated.parent
      child := view_set
      apart := apart
      fineParent := allocated.fineParent
      fine := locked.fine
      proper := by
        intro e viewed
        by_cases here : e = ip
        · exact here ▸ allocated.own
        · have there : l.view e ≠ none := by rwa [← view_ne (v := v) here]
          exact allocated.only e there ▸ allocated.ownParent
      making := by
        rw [number]
        exact making }

/-- What `create` leaves to a process that has begun with an inode allocated. -/
def Created (sb : Super) (l : Local Pid) (dp ip : Fin NINODE) (type : Int16)
    (made : Option (Fin NINODE)) (l' : Local Pid) : Prop :=
  match made with
  | some e => e = ip ∧ ∃ v num, Fine sb v ∧ v.sole = false ∧ v.node.d.type = type ∧
      l' = (({ l.unview dp with making := none, fresh := none } : Local Pid).move
        (fun x => - one dp x) num).setView ip v
  | none => ∃ num, l' = ({ l.unview dp with making := none, fresh := none } : Local Pid).move
      (fun x => - one dp x - one ip x) num

variable {l₀ : Local Pid}

theorem safe_createDone (num : Fin NINODE → Option Nat)
    (building : Building sb l dp ip vd v) (here : inum = v.inum) (sole : v.sole = false)
    (typed : v.node.d.type = type)
    (same : l = { (l₀.setView dp vd).setView ip v with num := num, fresh := none }) :
    Safe sb C p (finished p inum >>= fun _ => iunlockput sb p dp >>= fun _ =>
      pure (some ip)) l none fun made l' w' => w' = none ∧ Created sb l₀ dp ip type made l' := by
  subst here
  refine .after (safe_finished building.child building.fine.settled.owned) fun _ => ?_
  rw [if_pos building.making]
  refine .seq (safe_iunlockput (l := { l with making := none }) building.parent
    building.fineParent.settled (building.proper dp (by simp [building.parent]))
    building.inside.running building.inside.op building.inside.clean building.inside.fresh) ?_
  rintro _ _ _ ⟨spares, m, rfl, remade⟩
  obtain rfl : m = none := remade.eq_none rfl
  refine .pure ⟨spares.1 rfl, rfl, v, num, building.fine, sole, typed, ?_⟩
  rw [addRef_eq_move, same]
  simp only [move, setView, unview]
  congr 1
  · rw [update_comm building.apart, update_idem]
  · funext x
    ring

theorem safe_createFail (num : Fin NINODE → Option Nat)
    (building : Building sb l dp ip vd v) (here : inum = v.inum) (unviewed : l₀.view ip = none)
    (same : l = { (l₀.setView dp vd).setView ip v with num := num, fresh := none }) :
    Safe sb C p (finished p inum >>= fun _ => iunlockput sb p ip >>= fun _ =>
      iunlockput sb p dp >>= fun _ => pure none) l none fun made l' w' =>
        w' = none ∧ Created sb l₀ dp ip type made l' := by
  subst here
  refine .after (safe_finished building.child building.fine.settled.owned) fun _ => ?_
  rw [if_pos building.making]
  refine .seq (safe_iunlockput (l := { l with making := none }) building.child
    building.fine.settled (building.proper ip (by simp [building.child]))
    building.inside.running building.inside.op building.inside.clean building.inside.fresh) ?_
  rintro _ _ _ ⟨spares, m, rfl, remade⟩
  obtain rfl : m = none := remade.eq_none rfl
  obtain rfl := spares.1 rfl
  have parent : (update l.view ip none) dp = some vd :=
    (update_of_ne building.apart.symm ..).trans building.parent
  have owns : ((l.unview ip).addRef ip (-1)).Own dp := by
    obtain ⟨pr, proc, some⟩ := building.proper dp (by simp [building.parent])
    refine ⟨pr, proc, ?_⟩
    rw [show ((l.unview ip).addRef ip (-1)).refs dp = l.refs dp from
      update_of_ne building.apart.symm ..]
    exact some
  refine .seq (safe_iunlockput (l := { (l.unview ip).addRef ip (-1) with
    making := none }) parent building.fineParent.settled owns building.inside.running
    building.inside.op building.inside.clean building.inside.fresh) ?_
  rintro _ _ _ ⟨spares, m, rfl, remade⟩
  obtain rfl : m = none := remade.eq_none rfl
  refine .pure ⟨spares.1 rfl, num, ?_⟩
  simp only [addRef_eq_move, same, move, setView, unview]
  congr 1
  · rw [update_idem, update_comm building.apart, update_idem,
      update_comm building.apart.symm, ← unviewed, update_eq_self]
  · funext x
    ring

theorem safe_createNew (lenient : Lenient C)
    (allocated : Allocated sb l dp ip vd type) (name : List UInt8) (major minor : Int16) :
    Safe sb C p (createNew sb p dp ip name type major minor) l none fun made l' w' =>
      w' = none ∧ Created sb l dp ip type made l' := by
  refine .seq (safe_ilock (.inl allocated.own) (.inl lenient.waits) allocated.running
    (.inl lenient.waits) (.inl lenient.noType)) ?_
  rintro _ _ _ ⟨rfl, unviewed, v, sole, rfl, locked⟩
  obtain ⟨building, typed⟩ := allocated.building unviewed locked
  refine safe_relabel building.child building.fine building.inside.op
    ⟨fun _ => rfl, fun _ => rfl, fun _ => rfl⟩ fun v₁ fine₁ like₁ => ?_
  have building₁ : Building sb (({ l.setView ip v with fresh := none } : Local Pid).setView ip v₁)
      dp ip vd v₁ := building.setChild fine₁ like₁ l.num
  refine .seq (safe_getInode building₁.child) ?_
  rintro inode _ _ ⟨⟨here, -, -⟩, rfl, rfl⟩
  refine .seq (safe_createLinks lenient building₁ name type) ?_
  rintro linked _ _ ⟨rfl, vd₂, v₂, num, like₂, building₂, rfl⟩
  have number : inode.inum = v₂.inum := here.trans like₂.inum.symm
  have start : ∀ vd' v' : View, ({ ((({ l.setView ip v with fresh := none } :
      Local Pid).setView ip v₁).setView dp vd').setView ip v' with num := num } : Local Pid) =
      { (l.setView dp vd').setView ip v' with num := num, fresh := none } := by
    intro vd' v'
    simp only [setView, update_idem]
    rw [update_comm building.apart, update_idem]
  cases linked with
  | false =>
    rw [if_neg Bool.false_ne_true]
    refine safe_relabel building₂.child building₂.fine building₂.inside.op
      ⟨fun _ => rfl, fun _ => rfl, fun _ => rfl⟩ fun v₃ fine₃ like₃ => ?_
    refine safe_createFail num (building₂.setChild fine₃ like₃ num) (number.trans like₃.inum.symm)
      unviewed ?_
    rw [← start]
    simp [setView]
  | true =>
    rw [if_pos rfl]
    have sole₂ : v₂.sole = false := (like₂.sole.trans like₁.sole).trans sole
    have typed₂ : v₂.node.d.type = type := (like₂.type.trans like₁.type).trans typed
    refine .after (safe_noteBind dp ip name) fun _ => ?_
    split
    next =>
      refine safe_relabel building₂.parent building₂.fineParent building₂.inside.op
        ⟨fun _ => rfl, fun _ => rfl, fun _ => rfl⟩ fun vd₃ fine₃ _ => ?_
      refine safe_createDone num (building₂.setParent fine₃ num) number sole₂ typed₂ ?_
      rw [← start]
      simp only [setView]
      rw [update_comm building.apart, update_idem]
    next => exact safe_createDone num building₂ number sole₂ typed₂ (start vd₂ v₂)

/-! ## `create` -/

/-- What `create` gives: an inode locked, with a reference to it. -/
def Makes (sb : Super) (l : Local Pid) (type : Int16) (made : Option (Fin NINODE))
    (l' : Local Pid) : Prop :=
  match made with
  | some e => ∃ v num, Fine sb v ∧ v.sole = false ∧ (type = T_FILE → v.node.d.type ≠ T_DIR) ∧
      (l.move (one e) num).Own e ∧ l' = (l.move (one e) num).setView e v
  | none => ∃ num, l' = l.move (fun _ => 0) num

theorem safe_createOld (lenient : Lenient C) (walks : l.Walks)
    (owns : (l.move (one ip) num).Own ip) :
    Safe sb C p (ilock sb p ip >>= fun _ => getInode ip >>= fun inode =>
      if type = T_FILE ∧ (inode.d.type = T_FILE ∨ inode.d.type = T_DEVICE) then pure (some ip)
      else iunlockput sb p ip >>= fun _ => pure none) (l.move (one ip) num) none
      fun made l' w' => w' = none ∧ Makes sb l type made l' := by
  refine .seq (safe_ilock_walks lenient (walks.move _ _) owns) ?_
  rintro _ _ _ ⟨rfl, v, sole, rfl, locked⟩
  refine .seq (safe_getInode view_set) ?_
  rintro inode _ _ ⟨⟨-, -, fields⟩, rfl, rfl⟩
  rw [fields locked.owned]
  split
  next kind =>
    refine .pure ⟨rfl, v, num, locked.fine, sole, fun _ isDir => ?_, owns, rfl⟩
    rw [isDir] at kind
    exact absurd kind.2 (by decide)
  next =>
    refine .next (safe_iunlockput_walks (f := one ip) walks locked.settled owns) fun _ => ?_
    refine .pure ⟨rfl, num, ?_⟩
    simp only [sub_self]
    rfl

/-- What is left to the process, seen from before the search for the parent. -/
theorem Created.makes {blank : Node} {made : Option (Fin NINODE)} {l' : Local Pid}
    (created : Created sb ((({ (l.move (one dp) num).setView dp vd with
      making := some inum, fresh := some (inum, blank) } : Local Pid).addRef ip 1).setNum ip
        (some inum)) dp ip type made l')
    (walks : l.Walks) (has : (l.move (one dp) num).Own dp)
    (own : ((({ (l.move (one dp) num).setView dp vd with
      making := some inum, fresh := some (inum, blank) } : Local Pid).addRef ip 1).setNum ip
        (some inum)).Own ip) : Makes sb l type made l' := by
  rw [take_eq_move] at created own
  have back : ∀ (f : Fin NINODE → Int) (num' num'' : Fin NINODE → Option Nat),
      (({ (({ (l.move (one dp) num).setView dp vd with
        making := some inum, fresh := some (inum, blank) } : Local Pid).move (one ip) num').unview
            dp
        with making := none, fresh := none } : Local Pid).move f num'') =
      l.move (fun x => one dp x + one ip x + f x) num'' := by
    intro f num' num''
    simp only [move, setView, unview, update_idem]
    rw [← walks.views dp, update_eq_self, ← walks.making, ← walks.fresh]
    congr 1
    funext x
    ring
  cases made with
  | none =>
    obtain ⟨num', rfl⟩ := created
    refine ⟨num', ?_⟩
    rw [back]
    congr 1
    funext x
    ring
  | some e =>
    obtain ⟨rfl, v, num', fine, sole, typed, rfl⟩ := created
    have same : (fun x => one dp x + one e x + - one dp x) = one e := by
      funext x
      ring
    rw [back, same]
    refine ⟨v, num', fine, sole, ?_, ?_, rfl⟩
    · rintro rfl
      rw [typed]
      decide
    · have taken : ((l.move (one dp) num).move (one e) num').Own e := own
      obtain ⟨pr, proc, some⟩ := own_hop has taken
      refine ⟨pr, proc, ?_⟩
      simp only [move] at some ⊢
      omega

theorem safe_create (lenient : Lenient C) {pr : Proc} (walks : l.Walks) (settled : l.Settled pr)
    (nonneg : ∀ x, 0 ≤ l.refs x) (path : List UInt8) (typed : type ≠ 0) (major minor : Int16) :
    Safe sb C p (create sb p path type major minor) l none fun made l' w' =>
      w' = none ∧ Makes sb l type made l' := by
  refine .seq (safe_nameiparent lenient sb.root_fits walks settled nonneg path) ?_
  rintro found _ _ ⟨rfl, found'⟩
  cases found with
  | none =>
    obtain ⟨num, rfl⟩ := found'
    exact .pure ⟨rfl, num, rfl⟩
  | some result =>
    obtain ⟨dp, name⟩ := result
    obtain ⟨has, num, rfl⟩ := found'
    have walks₁ := walks.move (one dp) num
    refine .seq (safe_ilock_walks lenient walks₁ has) ?_
    rintro _ _ _ ⟨rfl, vd, -, rfl, locked⟩
    refine .seq (safe_dirlookup (l := (l.move (one dp) num).setView dp vd)
      (w := none) view_set locked.searchable walks₁.busy name (lenient.noInodes _)
          (.inl lenient.notDir)) ?_
    rintro found _ _ ⟨rfl, -, after⟩
    cases found with
    | some result =>
      obtain ⟨ip, k⟩ := result
      obtain ⟨-, -, rfl, owns⟩ := after
      rw [take_eq_move] at owns ⊢
      refine .next (safe_iunlockput_walks walks₁ locked.settled
        (own_move has (one_nonneg ip dp))) fun _ => ?_
      have owns' : ((l.move (one dp) num).move (fun x => one ip x - one dp x)
          (update num ip (some (vd.node.dirent k).inum))).Own ip :=
        own_hop has owns
      have same : (fun x => one dp x + (one ip x - one dp x)) = one ip := by
        funext x
        ring
      rw [move_move, same] at owns' ⊢
      exact safe_createOld lenient walks owns'
    | none =>
      obtain ⟨rfl, -⟩ := after
      refine .seq (safe_getInode view_set) ?_
      rintro parent _ _ ⟨⟨-, dev, -⟩, rfl, rfl⟩
      rw [dev]
      refine .seq (safe_ialloc (l := (l.move (one dp) num).setView dp vd) walks₁.op
        typed walks₁.busy walks₁.making lenient.noInodes) ?_
      rintro made _ w ⟨still, after⟩
      obtain rfl := still rfl
      cases made with
      | none =>
        obtain rfl := after
        rw [setView_eq_move]
        refine .next (safe_iunlockput_walks walks₁ locked.settled
          (own_move has le_rfl)) fun _ => ?_
        refine .pure ⟨rfl, num, ?_⟩
        rw [move_move]
        congr 1
        funext x
        ring
      | some ip =>
        obtain ⟨own, inum, data, rfl⟩ := after
        refine (safe_createNew lenient (?_ : Allocated sb _ dp ip vd type) name major minor).mono ?_
        · exact
            { op := walks.op
              running := walks.running
              clean := walks.clean
              busy := walks.busy
              parent := view_set
              fineParent := locked.fine
              only := by
                intro e viewed
                by_contra other
                refine viewed ?_
                exact (view_ne (l := l.move (one dp) num) other).trans
                  (walks.views e)
              ownParent := by
                rw [take_eq_move]
                exact own_move has (one_nonneg ip dp)
              own := own
              fresh := ⟨inum, data, rfl, rfl, update_self ..⟩ }
        · rintro made _ _ ⟨rfl, created⟩
          exact ⟨rfl, created.makes walks has own⟩

end Xv6.Fs
