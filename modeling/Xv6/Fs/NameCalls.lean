import Xv6.Fs.FileCalls

/-!
# The system calls on names

The calls that search for a path, and with them the whole kernel: every call is
safe.
-/

namespace Xv6.Fs

open Function Local

variable {Pid : Type} {sb : Super} {C : Setting Pid} {p : Pid}
  {l : Local Pid} {e dp ip : Fin NINODE} {v vd : View} {i : Fin NFILE} {pr : Proc} {f : File}
  {num : Fin NINODE → Option Nat} {omode : UInt32} {d : Dinode} {w : Option World}

/-! ## Making an end -/

theorem Local.Clean.isOver (clean : l.Clean) {f : Fin NINODE → Int} (zero : ∀ x, f x = 0) :
    (l.begun.move f num).Over := by
  refine ⟨rfl, clean.view, clean.loose, fun x => ?_, clean.files, rfl, clean.child, clean.making,
    clean.fresh, clean.running⟩
  show l.refs x + f x = 0
  rw [clean.refs, zero]
  rfl

theorem Local.Settled.move (settled : l.Settled pr) (f : Fin NINODE → Int)
    (num : Fin NINODE → Option Nat) : (l.move f num).Settled pr :=
  { settled with }

variable [DecidableEq Pid] [Fintype Pid]

theorem safe_endWalk (clean : l.Clean) (settled : l.Settled pr) {f : Fin NINODE → Int}
    (zero : ∀ x, f x = 0) (r : Result Pid) :
    Safe sb C p (endOp >>= fun _ => pure r) (l.begun.move f num) none fun _ => Ended :=
  safe_end (clean.isOver zero) ((settled.inOp true).move f num) r

/-- The only inode in hand is unlocked and put, and the call ends. -/
theorem safe_putEnd (clean : l.Clean) (settled : l.Settled pr) (fine : Fine sb v)
    (owns : (l.begun.move (one e) num).Own e) (r : Result Pid) :
    Safe sb C p (iunlockput sb p e >>= fun _ => endOp >>= fun _ => pure r)
      ((l.begun.move (one e) num).setView e v) none
      fun _ => Ended := by
  refine .next (safe_iunlockput_walks (f := one e) (clean.walks settled.busy)
    fine.settled owns) fun _ => ?_
  exact safe_endWalk clean settled (fun x => sub_self _) r

/-! ## `mkdir` and `mknod` -/

theorem safe_sysMake (lenient : Lenient C) (clean : l.Clean) (settled : l.Settled pr)
    (path : Option (List UInt8)) {type : Int16} (typed : type ≠ 0) (major minor : Int16) :
    Safe sb C p (sysMake sb p path type major minor) l none fun _ => Ended := by
  refine .after (safe_beginOp clean.op) fun _ => ?_
  cases argstr path with
  | none =>
    exact safe_end ⟨rfl, by rw [← clean.op]; exact clean⟩ (settled.inOp true) failed
  | some path =>
    refine .seq (safe_create lenient (clean.walks settled.busy) (settled.inOp true)
      (fun x => (clean.refs x).ge) path typed major minor) ?_
    rintro made _ _ ⟨rfl, makes⟩
    cases made with
    | none =>
      obtain ⟨num, rfl⟩ := makes
      exact safe_endWalk clean settled (fun _ => rfl) failed
    | some ip =>
      obtain ⟨v, num, fine, -, -, owns, rfl⟩ := makes
      exact safe_putEnd clean settled fine owns _

/-! ## `open` -/

theorem openedFile_same (h : File) (same : h.Same f) :
    (openedFile ip d omode h).Same (openedFile ip d omode f) ∧
      (openedFile ip d omode h).ref = h.ref := by
  refine ⟨⟨rfl, rfl, rfl, rfl, ?_⟩, rfl⟩
  simp only [openedFile]
  rw [same.major]

theorem openedFile_type (f : File) : (openedFile ip d omode f).type ≠ .none := by
  simp only [openedFile]
  split <;> nofun

/-- The process after `sys_open`, but for the lock and the transaction. -/
theorem opened_of {fd : Fin NOFILE} {f g : File} (clean : l.Clean) (settled : l.Settled pr)
    (unowned : ¬ l.OwnFile i) (free : pr.ofile fd = none) (opened : g.type ≠ .none)
    (l' : Local Pid) (same : l' = { l with
      proc := some { pr with ofile := update pr.ofile fd (some i) }
      refs := l'.refs
      files := l'.files
      file := update (update l.file i (some f)) i (some g)
      num := l'.num })
    (refs : ∀ x, l'.refs x = 0) (files : ∀ j, l'.files j = 0) :
    l'.Clean ∧ l'.Settled { pr with ofile := update pr.ofile fd (some i) } := by
  rw [same]
  refine ⟨{ clean with refs := refs, files := files }, rfl, settled.runs, settled.home, ?_⟩
  intro fd' j here
  show ∃ f', update (update l.file i (some f)) i (some g) j = some f' ∧ _
  rw [update_idem]
  by_cases equal : j = i
  · subst equal
    exact ⟨g, update_self .., opened⟩
  · rw [update_of_ne equal]
    refine settled.opened fd' j ?_
    by_cases equal' : fd' = fd
    · subst equal'
      simp only [update_self, Option.some.injEq] at here
      exact absurd here.symm equal
    · simpa only [update_of_ne equal'] using here

theorem safe_openTrunc (op : l.op = true) (viewed : l.view e = some v) (fine : Fine sb v)
    (d : Dinode) (omode : UInt32) :
    Safe sb C p (openTrunc sb p e d omode) l none fun _ l' w' => w' = none ∧
      ∃ v', Fine sb v' ∧ l' = l.setView e v' := by
  unfold openTrunc
  split
  next =>
    refine (safe_itrunc viewed fine.settled.owned op fine.settled.good.stable fine.type).mono ?_
    rintro _ _ _ ⟨F, rfl, rfl⟩
    exact ⟨rfl, { v with disk := v.node.emptied.d, node := v.node.emptied },
      ⟨⟨fine.settled.owned, rfl, Node.good_emptied sb v.node⟩, fine.type, fine.bound⟩, rfl⟩
  next =>
    exact .pure ⟨rfl, v, fine, (setView_self viewed).symm⟩

theorem safe_sysOpenInode (clean : l.Clean) (settled : l.Settled pr) (fine : Fine sb v)
    (sole : v.sole = false) (owns : (l.begun.move (one e) num).Own e)
    (mode : v.node.d.type = T_DIR → omode &&& O_WRONLY = 0 ∧ omode &&& O_RDWR = 0) :
    Safe sb C p (sysOpenInode sb p e omode) ((l.begun.move (one e) num).setView e v) none
      fun _ => Ended := by
  refine .seq (safe_getInode view_set) ?_
  rintro inode _ _ ⟨⟨-, -, fields⟩, rfl, rfl⟩
  rw [fields fine.settled.owned]
  split
  next => exact safe_putEnd clean settled fine owns failed
  next =>
    refine .seq (safe_filealloc settled.busy) ?_
    rintro found _ _ ⟨after, rfl⟩
    cases found with
    | none =>
      obtain rfl := after
      exact safe_putEnd clean settled fine owns failed
    | some i =>
      obtain ⟨unowned, ownFile, f, unopened, rfl⟩ := after
      have unowned' : ¬ l.OwnFile i := unowned
      have proper : ∀ e', (l.begun.move (one e) num |>.setView e v
          |>.addFile i 1 (some f)).view e' ≠ none → e' = e := by
        intro e' viewed
        by_contra other
        exact viewed ((update_of_ne other ..).trans (clean.view e'))
      refine .seq (safe_fdalloc settled.proc settled.runs) ?_
      rintro found _ _ ⟨after, rfl⟩
      cases found with
      | none =>
        obtain rfl := after
        simp only
        refine .seq (safe_fileclose_unopened ownFile (update_self ..)
          unopened fun e' viewed => ?_) ?_
        · rw [proper e' viewed]
          exact owns
        rintro _ _ _ ⟨rfl, x, rfl⟩
        have back : ((l.begun.move (one e) num).setView e v
            |>.addFile i 1 (some f) |>.addFile i (-1) x) =
            (({ ({ l with file := update l.file i x } : Local Pid) with
              op := true } : Local Pid).move (one e) num).setView e v := by
          simp [addFile, move, setView]
        rw [back]
        have settled' : ({ l with file := update l.file i x } : Local Pid).Settled
            pr := by
          refine { settled with opened := fun fd j here => ?_ }
          have other : j ≠ i := by
            rintro rfl
            exact unowned' (own_of_fd settled.proc here (by rw [clean.files]))
          show ∃ f', update l.file i x j = some f' ∧ _
          rw [update_of_ne other]
          exact settled.opened fd j here
        exact safe_putEnd (l := { l with file := update l.file i x })
          { clean with } settled' fine owns failed
      | some fd =>
        obtain ⟨free, rfl⟩ := after
        simp only
        have counts := slotRef_update free i
        obtain ⟨pr', proc, more⟩ := owns
        obtain rfl : pr = pr' := Option.some.inj (settled.proc.symm.trans proc)
        refine .seq (safe_setOpened (l := (((l.begun.move (one e) num).setView e v).addFile i 1
          (some f)).reproc pr { pr with
          ofile := update pr.ofile fd (some i) }) (f := f)
          (g := openedFile e v.node.d omode f)
          ⟨_, rfl, ?_⟩ (update_self ..) unopened (update_self ..) sole
          fine.settled.owned fine.type ⟨_, rfl, ?_⟩ proper openedFile_same rfl
          (openedFile_type f) ?_) ?_
        · have nonneg : 0 ≤ slotRef pr i := by
            unfold slotRef
            omega
          simp only [reproc, addFile, move, setView, update_self, clean.files i]
          omega
        · simp only [reproc, addFile, move, setView] at more ⊢
          omega
        · intro writable dir
          simp [openedFile, mode dir] at writable
        rintro _ _ _ ⟨rfl, rfl⟩
        refine .seq (safe_openTrunc rfl (update_self ..) fine _ omode) ?_
        rintro _ _ _ ⟨rfl, v', fine', rfl⟩
        refine .after (safe_iunlock view_set fine'.settled clean.loose) fun _ => ?_
        have opened := opened_of (f := f) (i := i)
          (g := openedFile e v.node.d omode f) clean settled unowned' free
          (openedFile_type f) { (((((l.begun.move (one e)
            num).setView e v).addFile i 1 (some f)).reproc pr { pr with
            ofile := update pr.ofile fd (some i) }).addFile i 0 (some
            (openedFile e v.node.d omode f))).addRef e (-1) |>.setView e v' |>.unview e with
            op := false } ?_ ?_ ?_
        · exact safe_end ⟨rfl, opened.1⟩ { opened.2 with } _
        · simp only [reproc, addFile, move, setView, unview, addRef, update_idem]
          rw [← clean.view e, update_eq_self, ← clean.op]
        · intro x
          simp only [reproc, addFile, move, setView, unview, addRef, cwdRef, one]
          by_cases here : x = e
          · subst here
            simp [clean.refs]
          · simp [here, clean.refs]
        · intro j
          have := counts j
          simp only [reproc, addFile, move, setView, unview, addRef]
          by_cases here : j = i
          · subst here
            rw [if_pos rfl] at this
            simp only [update_self, clean.files]
            omega
          · rw [if_neg here] at this
            simp only [update_of_ne here, clean.files]
            omega

theorem safe_sysOpen (lenient : Lenient C) (clean : l.Clean) (settled : l.Settled pr)
    (path : Option (List UInt8)) (omode : UInt32) :
    Safe sb C p (sysOpen sb p path omode) l none fun _ => Ended := by
  unfold sysOpen
  cases argstr path with
  | none => exact .pure (.of_clean clean settled)
  | some path =>
    have walks := clean.walks settled.busy
    have nonneg : ∀ x, 0 ≤ l.begun.refs x :=
      fun x => (clean.refs x).ge
    refine .after (safe_beginOp clean.op) fun _ => ?_
    split
    next =>
      refine .seq (safe_create lenient walks (settled.inOp true) nonneg path (by decide) 0 0) ?_
      rintro made _ _ ⟨rfl, makes⟩
      cases made with
      | none =>
        obtain ⟨num, rfl⟩ := makes
        exact safe_endWalk clean settled (fun _ => rfl) failed
      | some ip =>
        obtain ⟨v, num, fine, sole, kind, owns, rfl⟩ := makes
        exact safe_sysOpenInode clean settled fine sole owns fun dir => absurd dir (kind rfl)
    next =>
      refine .seq (safe_namei lenient sb.root_fits walks (settled.inOp true) nonneg path) ?_
      rintro found _ _ ⟨rfl, after⟩
      cases found with
      | none =>
        obtain ⟨num, rfl⟩ := after
        exact safe_endWalk clean settled (fun _ => rfl) failed
      | some ip =>
        obtain ⟨owns, num, rfl⟩ := after
        refine .seq (safe_ilock_walks lenient (walks.move _ _) owns) ?_
        rintro _ _ _ ⟨rfl, v, sole, rfl, locked⟩
        refine .seq (safe_getInode view_set) ?_
        rintro inode _ _ ⟨⟨-, -, fields⟩, rfl, rfl⟩
        rw [fields locked.owned]
        split
        next => exact safe_putEnd clean settled locked.fine owns failed
        next reading =>
          refine safe_sysOpenInode clean settled locked.fine sole owns fun dir => ?_
          have only : omode = O_RDONLY := by
            by_contra other
            exact reading ⟨dir, other⟩
          subst only
          decide

/-! ## `chdir` -/

theorem safe_sysChdir (lenient : Lenient C) (clean : l.Clean) (settled : l.Settled pr)
    (path : Option (List UInt8)) : Safe sb C p (sysChdir sb p path) l none fun _ => Ended := by
  refine .after (safe_beginOp clean.op) fun _ => ?_
  have walks := clean.walks settled.busy
  have nonneg : ∀ x, 0 ≤ l.begun.refs x :=
    fun x => (clean.refs x).ge
  cases argstr path with
  | none => exact safe_end ⟨rfl, by rw [← clean.op]; exact clean⟩ (settled.inOp true) failed
  | some path =>
    refine .seq (safe_namei lenient sb.root_fits walks (settled.inOp true) nonneg path) ?_
    rintro found _ _ ⟨rfl, after⟩
    cases found with
    | none =>
      obtain ⟨num, rfl⟩ := after
      exact safe_endWalk clean settled (fun _ => rfl) failed
    | some ip =>
      obtain ⟨owns, num, rfl⟩ := after
      refine .seq (safe_ilock_walks lenient (walks.move _ _) owns) ?_
      rintro _ _ _ ⟨rfl, v, sole, rfl, locked⟩
      refine .seq (safe_getInode view_set) ?_
      rintro inode _ _ ⟨⟨-, -, fields⟩, rfl, rfl⟩
      split
      next => exact safe_putEnd clean settled locked.fine owns failed
      next =>
        refine .after (safe_iunlock view_set locked.settled clean.loose) fun _ => ?_
        rw [unview_setView ((walks.move (one ip) num).views ip)]
        refine .seq (safe_putCwd (walks.move _ _) ((settled.inOp true).move _ _) fun x => ?_) ?_
        · exact Int.add_nonneg (nonneg x) (one_nonneg ip x)
        rintro _ _ _ ⟨rfl, e, home, rfl⟩
        rw [move_move]
        refine .after (safe_endOp rfl) fun _ => ?_
        refine .after (safe_setCwd (l := { l.begun.move
          (fun x => one ip x + - one e x) num with op := false }) settled.proc settled.runs
          (some ip)) fun _ => ?_
        refine .pure ⟨rfl, .inl ⟨{ pr with cwd := some ip },
          { clean with refs := ?_, files := ?_, op := rfl }, rfl, settled.runs, by simp,
              settled.opened⟩⟩
        · intro x
          have before : cwdRef pr x = one e x := cwdRef_eq_one home x
          have after : cwdRef { pr with cwd := some ip } x = one ip x := cwdRef_eq_one rfl x
          simp only [reproc, move, clean.refs x, before, after]
          omega
        · intro j
          have : slotRef { pr with cwd := some ip } j = slotRef pr j := rfl
          simp only [reproc, move, clean.files j, this]
          omega

/-! ## `link` -/

theorem safe_getInode_owns (has : l.Own e) : Safe sb C p (getInode e) l w fun ip l' w' =>
      (ip.dev = ROOTDEV ∧ ip.inum < sb.ninodes) ∧ l' = l ∧ w' = w := by
  refine safe_read fun s gs N own mine core known => ⟨s.itable e, rfl, ?_⟩
  subst mine
  have entry := core.table.entry e (core.used (.inl has))
  exact ⟨entry.1, entry.2.2⟩

theorem safe_sysLinkBad (lenient : Lenient C) (clean : l.Clean) (settled : l.Settled pr)
    (owns : (l.begun.move (one ip) num).Own ip) :
    Safe sb C p (sysLinkBad sb p ip) (l.begun.move (one ip) num) none fun _ => Ended := by
  have walks := (clean.walks settled.busy).move (one ip) num
  refine .seq (safe_ilock_walks lenient walks owns) ?_
  rintro _ _ _ ⟨rfl, v, -, rfl, locked⟩
  refine safe_relabel view_set locked.fine rfl
    ⟨fun _ => rfl, fun _ => rfl, fun _ => rfl⟩ fun v' fine' _ => ?_
  rw [setView_twice]
  exact safe_putEnd clean settled fine' owns failed

theorem Local.Walks.still (walks : l.Walks) (e : Fin NINODE) (v : View) :
    ∀ m, Remade (l.setView e v) m → m = (l.setView e v).making :=
  fun _ remade => (remade.eq_none walks.making).trans walks.making.symm

/-- A process that walks adds an entry to the directory that it has locked, and
unlocks it. -/
theorem safe_linkIn (lenient : Lenient C) (walks : l.Walks) (has : (l.move (one dp) num).Own dp)
    (fine : Fine sb vd) (name : List UInt8) {inum : Nat} (bound : inum < sb.ninodes)
    {next : Int → Kernel Pid (Result Pid)} {post : Result Pid → Local Pid → Option World → Prop}
    (rest : ∀ r v' num', Fine sb v' →
      Safe sb C p (next r) ((l.setView dp v').move (one dp) num') none post) :
    Safe sb C p (dirlink sb p dp name inum >>= next)
      ((l.move (one dp) num).setView dp vd) none post := by
  have walks' := walks.move (one dp) num
  refine .seq (safe_link lenient view_set fine
    (walks'.inside.setView dp vd) (fun e viewed => ?_) (walks'.still dp vd) name bound) ?_
  · by_cases here : e = dp
    · subst here
      exact has
    · exact absurd ((view_ne here).trans (walks'.views e)) viewed
  rintro r _ _ ⟨rfl, v', num', fine', -, rfl⟩
  have same : ({ ((l.move (one dp) num).setView dp vd).setView dp v' with num := num' } :
      Local Pid) = (l.setView dp v').move (one dp) num' := by
    simp [setView, move]
  rw [same]
  exact rest r v' num' fine'

theorem safe_sysLinkTo (lenient : Lenient C) (clean : l.Clean) (settled : l.Settled pr)
    (owns : (l.begun.move (one ip) num).Own ip) (path : List UInt8) :
    Safe sb C p (sysLinkTo sb p ip path) (l.begun.move (one ip) num) none fun _ => Ended := by
  have walks := (clean.walks settled.busy).move (one ip) num
  refine .seq (safe_nameiparent lenient sb.root_fits walks
    ((settled.inOp true).move (one ip) num) (fun x => ?_) path) ?_
  · exact Int.add_nonneg (clean.refs x).ge (one_nonneg ip x)
  rintro found _ _ ⟨rfl, after⟩
  cases found with
  | none =>
    obtain ⟨num', rfl⟩ := after
    rw [move_move]
    simp only [add_zero]
    exact safe_sysLinkBad lenient clean settled owns
  | some result =>
    obtain ⟨dp, name⟩ := result
    obtain ⟨has, num', rfl⟩ := after
    refine .seq (safe_ilock_walks lenient (walks.move (one dp) num') has) ?_
    rintro _ _ _ ⟨rfl, vd, -, rfl, locked⟩
    refine .seq (safe_getInode view_set) ?_
    rintro parent _ _ ⟨⟨-, dev, -⟩, rfl, rfl⟩
    have owns' : ((l.begun.move (one ip) num).move (one dp)
        num').Own ip := own_move owns (one_nonneg dp ip)
    refine .seq (safe_getInode_owns (l := ((l.begun.move (one ip) num).move (one dp)
      num').setView dp vd) owns') ?_
    rintro inode _ _ ⟨⟨dev', bound⟩, rfl, rfl⟩
    rw [dev, dev', if_neg (not_not.mpr rfl)]
    refine safe_linkIn lenient walks has locked.fine name bound fun r v' num'' fine' => ?_
    have put : Safe sb C p (iunlockput sb p dp)
        (((l.begun.move (one ip) num).setView dp v').move (one dp)
          num'') none fun _ l' w' => w' = none ∧
        l' = l.begun.move (one ip) num'' := by
      have has' : ((l.begun.move (one ip) num).move (one dp) num'').Own dp := has
      refine (safe_iunlockput_walks walks fine'.settled has').mono ?_
      rintro _ _ _ ⟨rfl, rfl⟩
      refine ⟨rfl, ?_⟩
      simp
    split
    next =>
      refine .seq put ?_
      rintro _ _ _ ⟨rfl, rfl⟩
      exact safe_sysLinkBad lenient clean settled owns
    next =>
      refine .after (safe_noteBind dp ip name) fun _ => ?_
      refine .seq put ?_
      rintro _ _ _ ⟨rfl, rfl⟩
      refine .next (safe_iput_walks ((clean.walks settled.busy).move (one ip) num'')
        owns) fun _ => ?_
      rw [move_move]
      exact safe_endWalk clean settled (fun x => Int.add_right_neg _) _

theorem safe_sysLink (lenient : Lenient C) (clean : l.Clean) (settled : l.Settled pr)
    (oldPath newPath : Option (List UInt8)) :
    Safe sb C p (sysLink sb p oldPath newPath) l none fun _ => Ended := by
  unfold sysLink
  split
  next oldPath newPath _ _ =>
    have walks := clean.walks settled.busy
    refine .after (safe_beginOp clean.op) fun _ => ?_
    refine .seq (safe_namei lenient sb.root_fits walks (settled.inOp true)
      (fun x => (clean.refs x).ge) oldPath) ?_
    rintro found _ _ ⟨rfl, after⟩
    cases found with
    | none =>
      obtain ⟨num, rfl⟩ := after
      exact safe_endWalk clean settled (fun _ => rfl) failed
    | some ip =>
      obtain ⟨owns, num, rfl⟩ := after
      refine .seq (safe_ilock_walks lenient (walks.move _ _) owns) ?_
      rintro _ _ _ ⟨rfl, v, -, rfl, locked⟩
      refine .seq (safe_getInode view_set) ?_
      rintro inode _ _ ⟨-, rfl, rfl⟩
      split
      next => exact safe_putEnd clean settled locked.fine owns failed
      next =>
        refine safe_relabel view_set locked.fine rfl
          ⟨fun _ => rfl, fun _ => rfl, fun _ => rfl⟩ fun v' fine' _ => ?_
        rw [setView_twice]
        refine .after (safe_iunlock view_set fine'.settled clean.loose) fun _ => ?_
        rw [unview_setView ((walks.move (one ip) num).views ip)]
        exact safe_sysLinkTo lenient clean settled owns newPath
  next => exact .pure (.of_clean clean settled)

/-! ## `unlink` -/

/-- A process in a transaction with two inodes locked, and a reference to each. -/
def Local.pair (l : Local Pid) (dp ip : Fin NINODE) (vd v : View) (num : Fin NINODE → Option Nat) :
    Local Pid :=
  ((l.begun.move (fun x => one dp x + one ip x) num).setView dp vd).setView ip v

theorem Local.pair_comm (apart : ip ≠ dp) : l.pair dp ip vd v num = l.pair ip dp v vd num := by
  simp only [Local.pair, Local.setView, Local.move]
  rw [update_comm apart.symm]
  congr 1
  funext x
  ring

section

variable (clean : l.Clean) (settled : l.Settled pr)
include clean settled

theorem Local.own_pair : (l.pair dp ip vd v num).Own ip := by
  refine ⟨pr, settled.proc, ?_⟩
  have first := one_nonneg dp ip
  have second : one ip ip = 1 := if_pos rfl
  have home : 0 ≤ cwdRef pr ip := by
    unfold cwdRef
    split <;> omega
  simp only [Local.pair, Local.setView, Local.move, clean.refs]
  omega

theorem Local.own_single : (l.begun.move (one e) num).Own e := by
  refine ⟨pr, settled.proc, ?_⟩
  have here : one e e = 1 := if_pos rfl
  have home : 0 ≤ cwdRef pr e := by
    unfold cwdRef
    split <;> omega
  simp only [Local.move, clean.refs]
  omega

theorem safe_putSecond (apart : ip ≠ dp) (fine : Fine sb v) :
    Safe sb C p (iunlockput sb p ip) (l.pair dp ip vd v num) none fun _ l' w' =>
      w' = none ∧ l' = (l.begun.move (one dp) num).setView dp vd := by
  refine (safe_iunlockput view_set fine.settled (own_pair clean settled)
    clean.running rfl clean.loose clean.fresh).mono ?_
  rintro _ _ _ ⟨spares, m, rfl, remade⟩
  refine ⟨spares.1 rfl, ?_⟩
  rw [remade.eq_none clean.making, addRef_eq_move]
  simp only [setView, move, unview, update_idem]
  rw [update_comm apart.symm, ← clean.view ip, update_eq_self, ← clean.making]
  congr 1
  funext x
  ring

end

/-- The test of `sys_unlink` for a directory that is not empty. -/
theorem safe_keepsEntries (viewed : l.view e = some v) (fine : Fine sb v) :
    Safe sb C p (keepsEntries sb p e) l w fun _ l' w' => w' = w ∧ l' = l := by
  refine .seq (safe_getInode viewed) ?_
  rintro inode _ _ ⟨⟨-, -, fields⟩, rfl, rfl⟩
  rw [fields fine.settled.owned]
  split
  next type =>
    refine .seq (safe_isdirempty viewed fine.searchable type) ?_
    rintro _ _ _ ⟨⟨rfl, rfl⟩, -⟩
    exact .pure ⟨rfl, rfl⟩
  next => exact .pure ⟨rfl, rfl⟩

/-- A directory that is removed no longer links to its parent. -/
theorem safe_dropParentLink (viewed : l.view ip = some v) (parent : l.view dp = some vd)
    (fine : Fine sb vd) (op : l.op = true) :
    Safe sb C p (dropParentLink sb p dp ip) l none fun _ l' w' => w' = none ∧
      ∃ v', Fine sb v' ∧ l' = l.setView dp v' := by
  refine .seq (safe_getInode viewed) ?_
  rintro inode _ _ ⟨-, rfl, rfl⟩
  split
  next =>
    have owned := fine.settled.owned
    refine .after (safe_setDinodeMem parent owned _ (.inl rfl)) fun _ => ?_
    refine (safe_iupdate (v := { vd with node := vd.node.setD fun d =>
      { d with nlink := d.nlink - 1 } }) view_set owned op fine.type).mono ?_
    rintro _ _ _ ⟨rfl, rfl⟩
    rw [setView_twice]
    refine ⟨rfl, _, ?_, rfl⟩
    exact ⟨⟨owned, rfl, fine.settled.good.relabel (f := fun d => { d with nlink := d.nlink - 1 })
      ⟨fun _ => rfl, fun _ => rfl, fun _ => rfl⟩⟩, fine.type, fine.bound⟩
  next => exact .pure ⟨rfl, vd, fine, (setView_self parent).symm⟩

section

variable (lenient : Lenient C)
include lenient

section

variable (clean : l.Clean) (settled : l.Settled pr)
include clean settled

theorem safe_sysUnlinkEntry
    (apart : ip ≠ dp) (fineParent : Fine sb vd) (fine : Fine sb v) (isDir : vd.node.IsDir sb)
    {k : Nat} (inside : k < vd.node.count) :
    Safe sb C p (sysUnlinkEntry sb p dp ip k) (l.pair dp ip vd v num) none fun _ => Ended := by
  rw [pair_comm apart]
  have le : DIRENT * k ≤ vd.node.size := by
    unfold Node.count DIRENT at *
    omega
  refine .seq (safe_writeDirent (l := l.pair ip dp v vd num)
    view_set fineParent.settled.owned rfl fineParent.settled.good.readable
    fineParent.type fineParent.settled.disk le rfl (by decide)) ?_
  rintro r _ _ ⟨n, F, rfl, rfl, ⟨rfl, slotted⟩ | ⟨other, -⟩⟩
  · rw [if_pos rfl]
    have type : n.d.type = vd.node.d.type := by rw [slotted.fields]
    have alloc : n.d.type ≠ 0 := by
      rw [type]
      exact fineParent.type
    have fine₁ : Fine sb { vd with disk := n.d, node := n } :=
      ⟨⟨fineParent.settled.owned, rfl, slotted.readable.good alloc fun _ =>
        slotted.isDir isDir inside.le sb.root_fits.pos fun used => absurd rfl used⟩, alloc,
        fineParent.bound⟩
    have child : ((l.pair ip dp v vd num).setView dp { vd with disk := n.d, node := n }).view ip =
        some v := by
      rw [view_ne apart, pair, view_ne apart]
      exact view_set
    refine .seq (safe_dropParentLink child view_set fine₁ rfl) ?_
    rintro _ _ _ ⟨rfl, vd₂, fine₂, rfl⟩
    have same : ((l.pair ip dp v vd num).setView dp { vd with disk := n.d, node := n }).setView dp
        vd₂ = l.pair ip dp v vd₂ num := by
      simp [pair]
    rw [same]
    refine .next (safe_putSecond clean settled apart.symm fine₂) fun _ => ?_
    refine safe_relabel view_set fine rfl
      ⟨fun _ => rfl, fun _ => rfl, fun _ => rfl⟩ fun v' fine' _ => ?_
    rw [setView_twice]
    exact safe_putEnd clean settled fine' (own_single clean settled) _
  · rw [if_neg other]
    exact .stop lenient.writei

theorem safe_sysUnlinkIn (owns : (l.begun.move (one dp) num).Own dp) (name : List UInt8) :
    Safe sb C p (sysUnlinkIn sb p dp name) (l.begun.move (one dp) num) none fun _ => Ended := by
  have walks := (clean.walks settled.busy).move (one dp) num
  refine .seq (safe_ilock_walks lenient walks owns) ?_
  rintro _ _ _ ⟨rfl, vd, -, rfl, lockedParent⟩
  split
  next => exact safe_putEnd clean settled lockedParent.fine owns failed
  next =>
    refine .seq (safe_dirlookup (l := (l.begun.move (one dp)
      num).setView dp vd) (w := none) view_set lockedParent.searchable walks.busy
      name (lenient.noInodes _) (.inl lenient.notDir)) ?_
    rintro found _ _ ⟨rfl, type, after⟩
    cases found with
    | none =>
      obtain ⟨rfl, -⟩ := after
      exact safe_putEnd clean settled lockedParent.fine owns failed
    | some result =>
      obtain ⟨ip, k⟩ := result
      obtain ⟨binds, -, rfl, own⟩ := after
      rw [take_eq_move] at own ⊢
      refine .seq (safe_ilock (.inl own) (.inl lenient.waits) clean.running
        (.inl lenient.waits) (.inl lenient.noType)) ?_
      rintro _ _ _ ⟨rfl, unviewed, v, -, rfl, locked⟩
      have apart : ip ≠ dp := by
        rintro rfl
        rw [view_move, view_set] at unviewed
        cases unviewed
      have same : ∀ num' : Fin NINODE → Option Nat,
          ({ (((l.begun.move (one dp) num).setView dp vd).move
            (one ip) num').setView ip v with fresh := none } : Local Pid) =
          l.pair dp ip vd v num' := by
        intro num'
        simp only [pair, move, setView, ← clean.fresh]
        congr 1
        funext x
        ring
      rw [same]
      refine .seq (safe_getInode view_set) ?_
      rintro inode _ _ ⟨-, rfl, rfl⟩
      split
      next => exact .stop lenient.nlink
      next =>
        refine .seq (safe_keepsEntries view_set locked.fine) ?_
        rintro keeps _ _ ⟨rfl, rfl⟩
        split
        next =>
          refine .next (safe_putSecond clean settled apart locked.fine) fun _ => ?_
          exact safe_putEnd clean settled lockedParent.fine (own_single clean settled)
            failed
        next =>
          exact safe_sysUnlinkEntry lenient clean settled apart lockedParent.fine locked.fine
            (lockedParent.good.dir type) binds.1

theorem safe_sysUnlink (path : Option (List UInt8)) :
    Safe sb C p (sysUnlink sb p path) l none fun _ => Ended := by
  unfold sysUnlink
  cases argstr path with
  | none => exact .pure (.of_clean clean settled)
  | some path =>
    refine .after (safe_beginOp clean.op) fun _ => ?_
    refine .seq (safe_nameiparent lenient sb.root_fits (clean.walks settled.busy)
      (settled.inOp true) (fun x => (clean.refs x).ge) path) ?_
    rintro found _ _ ⟨rfl, after⟩
    cases found with
    | none =>
      obtain ⟨num, rfl⟩ := after
      exact safe_endWalk clean settled (fun _ => rfl) failed
    | some result =>
      obtain ⟨dp, name⟩ := result
      obtain ⟨owns, num, rfl⟩ := after
      exact safe_sysUnlinkIn lenient clean settled owns name

/-! ## The kernel -/

theorem safe_code (call : Call Pid) : Safe sb C p (code sb p call) l none fun _ => Ended := by
  cases call with
  | sysOpen path omode => exact safe_sysOpen lenient clean settled path omode
  | sysMkdir path => exact safe_sysMake lenient clean settled path (by decide) 0 0
  | sysMknod path major minor =>
    exact safe_sysMake lenient clean settled path (by decide) major minor
  | sysLink oldPath newPath => exact safe_sysLink lenient clean settled oldPath newPath
  | sysUnlink path => exact safe_sysUnlink lenient clean settled path
  | sysChdir path => exact safe_sysChdir lenient clean settled path
  | sysDup fd => exact safe_sysDup clean settled fd
  | sysRead fd dst n device => exact safe_sysRead lenient clean settled fd dst n device
  | sysWrite fd src n device => exact safe_sysWrite lenient clean settled fd src n device
  | sysClose fd => exact safe_sysClose clean settled fd
  | sysFstat fd copied => exact safe_sysFstat lenient clean settled fd copied
  | fork child => exact safe_fork clean settled child
  | exit => exact safe_exit clean settled

end

/-- **Every system call is safe.** -/
theorem covers : (theory sb C).Covers (kernel sb) Local.idle := by
  rintro p call s gs idle ⟨N, own, core, -⟩ ready
  obtain ⟨after, clean, settled⟩ := core.start idle (of_decide_eq_true ready)
  exact ⟨started s p, ⟨N, own, after, nofun⟩,
    (safe_code lenient clean settled call).mono fun _ _ _ ended => ended.done⟩

end

end Xv6.Fs
