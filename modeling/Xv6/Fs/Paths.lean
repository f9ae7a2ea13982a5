import Xv6.Fs.Directories

/-!
# Links and paths

Specifications of `dirlink`, `isdirempty` and `namex` for processes that run
together. From here on nothing is known of the rest of the state, so that the
specifications say what the process has afterwards, and what it has written.
-/

namespace Xv6.Fs

open Function Local

variable {Pid : Type} {sb : Super} {C : Setting Pid} {p : Pid}
  {l : Local Pid} {w : Option World} {e : Fin NINODE} {v : View} {num : Fin NINODE → Option Nat}
  {f : Fin NINODE → Int} {pr : Proc} {ip : Fin NINODE}

/-- What a run may do: wait, and panic for lack of room or at what another
process has left behind. -/
structure Lenient (C : Setting Pid) : Prop where
  waits : C.waits false
  noInodes : ∀ b, C.allowed b .igetNoInodes
  noType : C.allowed false .ilockNoType
  notDir : C.allowed false .dirlookupNotDir
  nlink : C.allowed false .unlinkNlink
  writei : C.allowed false .unlinkWritei

/-! ## References in hand -/

def one (e x : Fin NINODE) : Int := if x = e then 1 else 0

/-- The process has other references than before. -/
def Local.move (l : Local Pid) (f : Fin NINODE → Int) (num : Fin NINODE → Option Nat) : Local Pid :=
  { l with refs := fun x => l.refs x + f x, num := num }

theorem Local.addRef_eq_move (l : Local Pid) (e : Fin NINODE) (k : Int) :
    l.addRef e k = l.move (fun x => k * one e x) l.num := by
  unfold Local.addRef Local.move one
  congr 1
  funext x
  by_cases here : x = e
  · subst here
    simp
  · simp [here]

theorem Local.setNum_eq_move (l : Local Pid) (e : Fin NINODE) (i : Option Nat) :
    l.setNum e i = l.move (fun _ => 0) (update l.num e i) := by
  simp [Local.setNum, Local.move]

@[simp] theorem Local.move_move (l : Local Pid) (f g : Fin NINODE → Int)
    (num num' : Fin NINODE → Option Nat) :
    (l.move f num).move g num' = l.move (fun x => f x + g x) num' := by
  simp [Local.move, Int.add_assoc]

@[simp] theorem Local.view_move (f : Fin NINODE → Int) (num : Fin NINODE → Option Nat) :
    (l.move f num).view = l.view := rfl

theorem Local.own_move (has : l.Own e) (nonneg : 0 ≤ f e) : (l.move f num).Own e := by
  obtain ⟨pr, proc, some⟩ := has
  refine ⟨pr, proc, ?_⟩
  simp only [Local.move]
  omega

/-! ## `dirlink` -/

theorem Local.own_of_taken {x : Option Nat} (has : l.Own e)
    (taken : ((l.addRef ip 1).setNum ip x).Own ip) :
    (((l.addRef ip 1).setNum ip x).addRef ip (-1)).Own ip ∨ e ≠ ip := by
  by_cases same : e = ip
  · subst same
    obtain ⟨pr, proc, some⟩ := has
    refine .inl ⟨pr, proc, ?_⟩
    simp [Local.addRef, Local.setNum]
    omega
  · exact .inr same

theorem Local.drop_taken (l : Local Pid) (ip : Fin NINODE) (x : Option Nat) :
    ((l.addRef ip 1).setNum ip x).addRef ip (-1) = l.setNum ip x := by
  simp [Local.addRef, Local.setNum]

variable [DecidableEq Pid] [Fintype Pid]

theorem safe_dirlink (lenient : Lenient C) (viewed : l.view e = some v)
    (searchable : Searchable sb v) (type : v.node.d.type ≠ 0) (disk : v.disk = v.node.d)
    (op : l.op = true) (running : l.running = true) (busy : l.proc ≠ none)
    (clean : ∀ b, l.loose b = none) (fresh : l.fresh = none)
    (proper : ∀ e', l.view e' ≠ none → l.Own e') (name : List UInt8) {inum : Nat}
    (_bound : inum < sb.ninodes) (small : inum < 2 ^ 16) :
    Safe sb C p (dirlink sb p e name inum) l none fun r l' w' => w' = none ∧
      v.node.IsDir sb ∧ ∃ n m num, l' = { l.setView e { v with disk := n.d, node := n } with
        num := num, making := m } ∧ Remade l m ∧
      ((r = 0 ∧ (∀ k, ¬ v.node.Binds name k) ∧ ∃ k ≤ v.node.count,
          (∀ j < k, (v.node.dirent j).inum ≠ 0) ∧ (k < v.node.count → (v.node.dirent k).inum = 0) ∧
          Slotted v.node n k ⟨inum, strncpy DIRSIZ name⟩) ∨
        (r = -1 ∧ Unslotted v.node n)) := by
  refine .seq (safe_dirlookup viewed searchable busy name (lenient.noInodes _)
    (.inl lenient.notDir)) ?_
  rintro found _ _ ⟨rfl, isDir, after⟩
  have dir := searchable.dir isDir
  cases found with
  | some result =>
    obtain ⟨ip, k⟩ := result
    obtain ⟨-, -, rfl, owns⟩ := after
    refine .seq (safe_iput owns running op ?_ clean fresh) ?_
    · by_cases locked : l.view ip = none
      · exact .inl locked
      · exact .inr ((own_of_taken (proper ip locked) owns).resolve_right (not_not.mpr rfl))
    rintro _ _ _ ⟨spares, m, rfl, remade⟩
    have same : ({ v with disk := v.node.d, node := v.node } : View) = v := by rw [← disk]
    refine .pure ⟨spares.1 rfl, dir, v.node, m,
      update l.num ip (some (v.node.dirent k).inum), ?_, remade,
      .inr ⟨rfl, rfl, rfl, searchable.readable, fun _ _ => rfl⟩⟩
    rw [same, setView_self viewed, drop_taken]
    rfl
  | none =>
    obtain ⟨rfl, absent⟩ := after
    refine .seq (safe_getInode viewed) ?_
    rintro ip l w ⟨⟨-, -, fields⟩, rfl, rfl⟩
    rw [fields searchable.owned, show Xv6.Fs.slots v.node.d.size.toNat = v.node.count from
      Node.slots_size dir.aligned]
    refine .seq (show Safe sb C p _ _ _ (fun found l' w' => (l' = l ∧ w' = none) ∧
      ∃ k ≤ v.node.count, found.getD v.node.count = k ∧ (∀ j < k, (v.node.dirent j).inum ≠ 0) ∧
        (k < v.node.count → (v.node.dirent k).inum = 0)) from ?_) ?_
    · refine (Theory.Safe.find (fun k => (v.node.dirent k).inum = 0) id fun k inside => ?_).mono ?_
      · refine .seq (safe_readDirent viewed searchable.owned searchable.readable
          (List.mem_range.mp inside) _) ?_
        rintro _ _ _ ⟨rfl, rfl, rfl⟩
        split <;> exact .pure ⟨rfl, rfl, rfl⟩
      · rintro _ _ _ ⟨rfl, rfl, rfl⟩
        refine ⟨⟨rfl, rfl⟩, ?_⟩
        generalize found : (List.range v.node.count).find? _ = slot
        cases slot with
        | none =>
          refine ⟨v.node.count, le_rfl, rfl, fun j less => ?_, fun less => absurd less (lt_irrefl
              _)⟩
          simpa using List.find?_range_eq_none.mp found j less
        | some k =>
          obtain ⟨here, inside, earlier⟩ := List.find?_range_eq_some.mp found
          refine ⟨k, (List.mem_range.mp inside).le, rfl, fun j less => ?_, fun _ =>
              of_decide_eq_true here⟩
          simpa using earlier j less
    · rintro found _ _ ⟨⟨rfl, rfl⟩, k, le, chosen, full, free⟩
      rw [chosen]
      have inside : DIRENT * k ≤ v.node.size := by
        unfold Node.count DIRENT at *
        omega
      refine .seq (safe_writeDirent viewed searchable.owned op searchable.readable type
        disk inside (length_strncpy DIRSIZ name) small) ?_
      rintro r _ _ ⟨n, F, rfl, rfl, ⟨rfl, slotted⟩ | ⟨short, unslotted, -⟩⟩
      · rw [if_pos rfl]
        exact .pure ⟨rfl, dir, n, _, _, rfl, .inl rfl, .inl ⟨rfl, absent, k, le, full, free,
          slotted⟩⟩
      · rw [if_neg short]
        exact .pure ⟨rfl, dir, n, _, _, rfl, .inl rfl, .inr ⟨rfl, unslotted⟩⟩

theorem safe_isdirempty (viewed : l.view e = some v) (searchable : Searchable sb v)
    (type : v.node.d.type = T_DIR) :
    Safe sb C p (isdirempty sb p e) l w fun empty l' w' => (l' = l ∧ w' = w) ∧
      (empty = true ↔ ∀ k, 2 ≤ k → k < v.node.count → (v.node.dirent k).inum = 0) := by
  have dir := searchable.dir type
  refine .seq (safe_getInode viewed) ?_
  rintro ip l w ⟨⟨-, -, fields⟩, rfl, rfl⟩
  rw [fields searchable.owned, show Xv6.Fs.slots v.node.d.size.toNat = v.node.count from
    Node.slots_size dir.aligned]
  refine .seq (Theory.Safe.find (fun k => (v.node.dirent k).inum ≠ 0) (fun _ => ())
    fun k inside => ?_) ?_
  · have inside := List.mem_range'_1.mp inside
    refine .seq (safe_readDirent viewed searchable.owned searchable.readable (by omega) _) ?_
    rintro _ _ _ ⟨rfl, rfl, rfl⟩
    by_cases zero : (v.node.dirent k).inum = 0
    · rw [if_pos zero, if_neg (not_not.mpr zero)]
      exact .pure ⟨rfl, rfl, rfl⟩
    · rw [if_neg zero, if_pos zero]
      exact .pure ⟨rfl, rfl, rfl⟩
  · rintro _ _ _ ⟨rfl, rfl, rfl⟩
    refine .pure ⟨⟨rfl, rfl⟩, ?_⟩
    rw [Option.isNone_map, Option.isNone_iff_eq_none, List.find?_eq_none]
    constructor
    · intro none k first less
      simpa using none k (List.mem_range'_1.mpr ⟨first, by omega⟩)
    · intro all k inside
      have inside := List.mem_range'_1.mp inside
      simpa using all k inside.1 (by omega)

/-! ## `namex` -/

/-- A process in a transaction, between the calls of `ilock` and `iunlock`. -/
structure Local.Walks (l : Local Pid) : Prop where
  views : ∀ e, l.view e = none
  op : l.op = true
  running : l.running = true
  clean : ∀ b, l.loose b = none
  fresh : l.fresh = none
  making : l.making = none
  busy : l.proc ≠ none

theorem Local.Walks.move (walks : l.Walks) (f : Fin NINODE → Int)
    (num : Fin NINODE → Option Nat) : (l.move f num).Walks :=
  { walks with }

theorem Local.lock_eq (fresh : l.fresh = none) :
    ({ l.setView e v with fresh := none } : Local Pid) = l.setView e v := by
  simp only [Local.setView, ← fresh]

theorem Local.put_eq_move {m : Option Nat} (same : m = l.making) :
    ({ l.addRef e (-1) with making := m } : Local Pid) = l.move (fun x => - one e x) l.num := by
  rw [same, show ({ l.addRef e (-1) with making := l.making } : Local Pid) = l.addRef e (-1) from
    rfl, Local.addRef_eq_move]
  simp [Local.move]

theorem Local.unview_move
    (unviewed : l.view e = none) : (((l.setView e v).move f num).unview e) = l.move f num := by
  simp only [Local.unview, Local.setView, Local.move, update_idem]
  rw [← unviewed, update_eq_self]

theorem safe_iput_walks (walks : l.Walks) (has : l.Own e) :
    Safe sb C p (iput sb p e) l none fun _ l' w' =>
      w' = none ∧ l' = l.move (fun x => - one e x) l.num := by
  refine (safe_iput has walks.running walks.op (.inl (walks.views e)) walks.clean
    walks.fresh).mono ?_
  rintro _ _ _ ⟨spares, m, rfl, remade⟩
  exact ⟨spares.1 rfl, put_eq_move ((remade.eq_none walks.making).trans walks.making.symm)⟩

theorem safe_ilock_walks (lenient : Lenient C) (walks : l.Walks) (has : l.Own e) :
    Safe sb C p (ilock sb p e) l none fun _ l' w' => w' = none ∧
      ∃ v, v.sole = false ∧ l' = l.setView e v ∧ Locked sb l none e v := by
  refine (safe_ilock (.inl has) (.inl lenient.waits) walks.running (.inl lenient.waits)
    (.inl lenient.noType)).mono ?_
  rintro _ _ _ ⟨rfl, -, v, sole, rfl, locked⟩
  exact ⟨rfl, v, sole, lock_eq walks.fresh, locked⟩

/-- `iunlockput` by a process that walks with one inode locked. -/
theorem safe_iunlockput_walks
    (walks : l.Walks) (settled : Settled sb v) (has : (l.move f num).Own e) :
    Safe sb C p (iunlockput sb p e) ((l.setView e v).move f num) none fun _ l' w' =>
      w' = none ∧ l' = l.move (fun x => f x - one e x) num := by
  refine (safe_iunlockput (l := (l.setView e v).move f num) view_set
    settled has walks.running walks.op walks.clean walks.fresh).mono ?_
  rintro _ _ _ ⟨spares, m, rfl, remade⟩
  rw [unview_move (walks.views e)] at remade ⊢
  have same : m = (l.move f num).making :=
    (remade.eq_none walks.making).trans walks.making.symm
  refine ⟨spares.1 rfl, ?_⟩
  rw [put_eq_move same, move_move]
  rfl

theorem Local.setView_eq_move (l : Local Pid) (e : Fin NINODE) (v : View) :
    l.setView e v = (l.setView e v).move (fun _ => 0) l.num := by
  simp [Local.move, Local.setView]

theorem Local.take_eq_move (l : Local Pid) (e : Fin NINODE) (i : Option Nat) :
    (l.addRef e 1).setNum e i = l.move (one e) (update l.num e i) := by
  rw [Local.addRef_eq_move, Local.setNum_eq_move, Local.move_move]
  simp [Local.move]

theorem one_nonneg (e x : Fin NINODE) : 0 ≤ one e x := by
  unfold one
  split <;> omega

/-- A reference to the next entry stays when that to the last one is dropped. -/
theorem Local.own_hop (has : l.Own e) (owns : (l.move (one ip) num).Own ip) :
    (l.move (fun x => one ip x - one e x) num).Own ip := by
  by_cases same : ip = e
  · subst same
    refine Local.own_move has ?_
    omega
  · obtain ⟨pr, proc, some⟩ := owns
    refine ⟨pr, proc, ?_⟩
    simp only [Local.move, one, if_true, if_neg same] at some ⊢
    omega

/-- The process has a reference to the entry that was found, and no longer that to the entry
where it began. -/
def Walked (l : Local Pid) (e : Fin NINODE) (found : Option (Fin NINODE × List UInt8))
    (l' : Local Pid) : Prop :=
  match found with
  | some (e', _) => l'.Own e' ∧ ∃ num, l' = l.move (fun x => one e' x - one e x) num
  | none => ∃ num, l' = l.move (fun x => - one e x) num

theorem safe_namexEnd (walks : l.Walks) (has : l.Own e) (parent : Bool) :
    Safe sb C p (namexEnd sb p parent e) l none fun found l' w' =>
      w' = none ∧ Walked l e found l' := by
  unfold namexEnd
  split
  next =>
    refine .next (safe_iput_walks walks has) fun _ => ?_
    exact .pure ⟨rfl, l.num, rfl⟩
  next =>
    refine .pure ⟨rfl, has, l.num, ?_⟩
    simp [move]

theorem safe_namexLoop (lenient : Lenient C) (parent : Bool) (fuel : Nat) (path : List UInt8)
    (walks : l.Walks) (has : l.Own e) :
    Safe sb C p (namexLoop sb p parent fuel path e) l none fun found l' w' =>
      w' = none ∧ Walked l e found l' := by
  induction fuel generalizing path e l with
  | zero => exact safe_namexEnd walks has parent
  | succ fuel ih =>
    unfold namexLoop
    cases next : skipelem path with
    | none => exact safe_namexEnd walks has parent
    | some element =>
      obtain ⟨name, rest⟩ := element
      simp only
      refine .seq (safe_ilock_walks lenient walks has) ?_
      rintro _ _ _ ⟨rfl, v, -, rfl, locked⟩
      refine .seq (safe_getInode view_set) ?_
      rintro inode _ _ ⟨⟨-, -, fields⟩, rfl, rfl⟩
      rw [fields locked.owned]
      have start := setView_eq_move l e v
      have here : (l.move (fun _ => 0) l.num).Own e := own_move has le_rfl
      by_cases dir : v.node.d.type = T_DIR
      · rw [if_neg (not_not.mpr dir)]
        by_cases last : parent = true ∧ rest = []
        · rw [if_pos last]
          refine .after (safe_iunlock view_set
            locked.settled walks.clean) fun _ => ?_
          rw [unview_setView (walks.views e)]
          refine .pure ⟨rfl, has, l.num, ?_⟩
          simp [move]
        · rw [if_neg last]
          refine .seq (safe_dirlookup view_set locked.searchable
            walks.busy name (lenient.noInodes _) (.inl lenient.notDir)) ?_
          rintro found _ _ ⟨rfl, -, after⟩
          cases found with
          | none =>
            obtain ⟨rfl, -⟩ := after
            rw [start]
            refine .next (safe_iunlockput_walks walks locked.settled here) fun _ => ?_
            refine .pure ⟨rfl, l.num, ?_⟩
            simp [move]
          | some result =>
            obtain ⟨ip, k⟩ := result
            obtain ⟨-, -, rfl, owns⟩ := after
            refine .after (safe_noteHop e ip name) fun _ => ?_
            rw [take_eq_move] at owns ⊢
            refine .next (safe_iunlockput_walks walks locked.settled
              (own_move has (one_nonneg ip e))) fun _ => ?_
            refine (ih rest (walks.move _ _) (own_hop has owns)).mono ?_
            rintro found _ _ ⟨rfl, walked⟩
            refine ⟨rfl, ?_⟩
            cases found with
            | none =>
              obtain ⟨num, rfl⟩ := walked
              refine ⟨num, ?_⟩
              rw [move_move]
              congr 1
              funext x
              ring
            | some result =>
              obtain ⟨own', num, rfl⟩ := walked
              refine ⟨own', num, ?_⟩
              rw [move_move]
              congr 1
              funext x
              ring
      · rw [if_pos dir, start]
        refine .next (safe_iunlockput_walks walks locked.settled here) fun _ => ?_
        refine .pure ⟨rfl, l.num, ?_⟩
        simp [move]

/-- What a process that walks finds. -/
def Found (l : Local Pid) (found : Option (Fin NINODE × List UInt8)) (l' : Local Pid) : Prop :=
  match found with
  | some (e, _) => l'.Own e ∧ ∃ num, l' = l.move (one e) num
  | none => ∃ num, l' = l.move (fun _ => 0) num

/-- The loop of `namex` from an entry to which the process has just got a reference. -/
theorem safe_namexFrom (lenient : Lenient C) (walks : l.Walks) (parent : Bool)
    (path : List UInt8) (owns : (l.move (one e) num).Own e) :
    Safe sb C p (namexLoop sb p parent path.length path e) (l.move (one e) num) none
      fun found l' w' => w' = none ∧ Found l found l' := by
  refine (safe_namexLoop lenient parent _ path (walks.move _ _) owns).mono ?_
  rintro found _ _ ⟨rfl, walked⟩
  refine ⟨rfl, ?_⟩
  cases found with
  | none =>
    obtain ⟨num', rfl⟩ := walked
    refine ⟨num', ?_⟩
    rw [move_move]
    congr 1
    funext x
    ring
  | some result =>
    obtain ⟨own', num', rfl⟩ := walked
    refine ⟨own', num', ?_⟩
    rw [move_move]
    congr 1
    funext x
    ring

theorem safe_dupCwd (settled : l.Settled pr) (nonneg : ∀ x, 0 ≤ l.refs x) :
    Safe sb C p (dupCwd p) l none fun e l' w' => w' = none ∧
      (l.move (one e) l.num).Own e ∧ l' = l.move (one e) l.num := by
  refine .seq (safe_myproc settled.proc) ?_
  rintro proc l w ⟨rfl, rfl, rfl⟩
  obtain ⟨e, cwd⟩ := Option.ne_none_iff_exists'.mp settled.home
  rw [cwd]
  have has : l.Own e := by
    refine ⟨_, settled.proc, ?_⟩
    have := nonneg e
    unfold cwdRef
    rw [if_pos cwd]
    omega
  refine .after (safe_idup has) fun _ => ?_
  refine .pure ⟨rfl, own_move has ?_, ?_⟩
  · unfold one
    rw [if_pos rfl]
    omega
  · rw [addRef_eq_move]
    simp [move]

section

variable (lenient : Lenient C) (root : ROOTINO < sb.ninodes) (walks : l.Walks)
  (settled : l.Settled pr) (nonneg : ∀ x, 0 ≤ l.refs x)
include lenient root walks settled nonneg

theorem safe_namex (parent : Bool) (path : List UInt8) :
    Safe sb C p (namex sb p parent path) l none fun found l' w' =>
      w' = none ∧ Found l found l' := by
  unfold namex
  extract_lets walk
  split
  next =>
    refine .seq (safe_iget ⟨by decide, root⟩ walks.busy (lenient.noInodes _)) ?_
    rintro e _ _ ⟨⟨rfl, owns⟩, rfl⟩
    rw [take_eq_move] at owns ⊢
    exact safe_namexFrom lenient walks parent path owns
  next =>
    refine .seq (safe_dupCwd settled nonneg) ?_
    rintro e _ _ ⟨rfl, owns, rfl⟩
    exact safe_namexFrom lenient walks parent path owns

theorem safe_nameiparent (path : List UInt8) :
    Safe sb C p (nameiparent sb p path) l none fun found l' w' =>
      w' = none ∧ Found l found l' :=
  safe_namex lenient root walks settled nonneg true path

theorem safe_namei (path : List UInt8) :
    Safe sb C p (namei sb p path) l none fun found l' w' => w' = none ∧
      match found with
      | some e => l'.Own e ∧ ∃ num, l' = l.move (one e) num
      | none => ∃ num, l' = l.move (fun _ => 0) num := by
  refine .seq (safe_namex lenient root walks settled nonneg false path) ?_
  rintro found _ _ ⟨rfl, after⟩
  cases found with
  | none => exact .pure ⟨rfl, after⟩
  | some result => exact .pure ⟨rfl, after⟩

end

end Xv6.Fs
