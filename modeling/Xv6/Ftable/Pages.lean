import Xv6.Ftable.Steps

/-!
# References that are made and dropped

`namei`, `create`, `idup` and `pipealloc` make references, and `iput` and `pipeclose` drop
them. The page of a pipe is there from `pipealloc` until both of its ends are dropped.
-/

namespace Xv6.Ftable

open Proc

open Function State Pipe

open Fs (NFILE NOFILE)

variable {ι π : Type} {n : Nat} {s t : State ι π n} {p : Fin n} {op : Op ι π n}
  {rest : List (Op ι π n)} {k : Nat} {w : Bool} {refs : List (Target ι π)} {x : Target ι π} {ip : ι}
  {pipe : Pipe}

theorem getElem?_snoc {y : Target ι π} :
    (refs ++ [y])[k]? = some x ↔ refs[k]? = some x ∨ k = refs.length ∧ y = x := by
  rw [List.getElem?_append]
  split
  next inside => exact ⟨.inl, fun or => or.resolve_right fun last => by omega⟩
  next outside =>
    have none : refs[k]? = none := List.getElem?_eq_none (by omega)
    rw [none, List.getElem?_singleton]
    constructor
    · intro last
      split at last
      next zero => exact .inr ⟨by omega, Option.some.inj last⟩
      · cases last
    · rintro (wrong | ⟨last, rfl⟩)
      · cases wrong
      · rw [if_pos (by omega)]

theorem lt_of_ref (there : refs[k]? = some x) : k < refs.length :=
  (List.getElem?_eq_some_iff.mp there).1

theorem issue_balance (length k : Nat) :
    (if length = k then 1 else 0) + (if k < length then 1 else 0) =
      if k < length + 1 then 1 else 0 := by
  by_cases last : length = k
  · rw [if_pos last, if_neg (by omega), if_pos (by omega)]
  · rw [if_neg last, Nat.zero_add]
    exact if_congr (by omega) rfl rfl

/-- Nothing has been done about references that are not made. -/
theorem Ledger.dropped_later (ledger : Ledger s) (later : s.refs.length ≤ k) :
    s.dropped k = [] := by
  have total := ledger.linear k
  rw [if_neg (by omega)] at total
  exact List.eq_nil_of_length_eq_zero (by omega)

theorem Ledger.not_dropped (ledger : Ledger s)
    (held : (∃ p, 0 < (s.proc p).holds k) ∨ ∃ f, 0 < (s.file f).holds k) : s.dropped k = [] := by
  have total := ledger.linear k
  have some : 0 < ∑ f, (s.file f).holds k + ∑ q, (s.proc q).holds k := by
    rcases held with ⟨p, mine⟩ | ⟨f, mine⟩
    · have := le_sum s.proc (holds k) p
      omega
    · have := le_sum s.file (File.holds k) f
      omega
  refine List.eq_nil_of_length_eq_zero ?_
  split at total <;> omega

theorem Proc.holds_eq {P : Proc ι π n} (here : P.code = op :: rest) (k : Nat) :
    P.holds k = (if P.cwd.map Held.serial = some k then 1 else 0) +
      (op.serials k + (rest.map (Op.serials k)).sum) := by
  simp only [Proc.holds, here, List.map_cons, List.sum_cons]

/-! ## Inodes -/

theorem Pages.issue (pages : Pages s) (refs : t.refs = s.refs ++ [.inode ip])
    (dropped : t.dropped = s.dropped) (pipes : t.pipes = s.pipes) (freed : t.freed = s.freed) :
    Pages t := by
  have old : ∀ {k : Nat} {pi : π} {writable : Bool}, t.refs[k]? = some (.pipe pi writable) ↔
      s.refs[k]? = some (.pipe pi writable) := by
    intro k pi writable
    rw [refs, getElem?_snoc]
    simp
  constructor
  · intro k pi writable there
    rw [dropped, pipes]
    exact pages.live k pi writable (old.mp there)
  · intro pi pipe here writable
    rw [old, dropped]
    rw [pipes] at here
    exact pages.ends pi pipe here writable
  · rw [pipes, freed]; exact pages.alive
  · intro k pi there
    rw [old, dropped, pipes, freed]
    exact pages.past k pi (old.mp there)
  · intro k late
    rw [freed]
    refine pages.later k ?_
    rw [refs, List.length_append] at late
    omega

theorem Pages.drop (pages : Pages s) (there : s.refs[k]? = some (.inode ip))
    (refs : t.refs = s.refs) (dropped : ∀ j, j ≠ k → t.dropped j = s.dropped j)
    (pipes : t.pipes = s.pipes) (freed : t.freed = s.freed) : Pages t := by
  have other : ∀ {j : Nat} {pi : π} {writable : Bool}, s.refs[j]? = some (.pipe pi writable) →
      t.dropped j = s.dropped j := by
    intro j pi writable is
    refine dropped j ?_
    rintro rfl
    rw [there] at is
    cases is
  constructor
  · intro j pi writable is
    rw [refs] at is
    rw [other is, pipes]
    exact pages.live j pi writable is
  · intro pi pipe here writable
    rw [pipes] at here
    obtain ⟨is, open_⟩ := pages.ends pi pipe here writable
    rw [refs, other is]
    exact ⟨is, open_⟩
  · rw [pipes, freed]; exact pages.alive
  · intro j pi is
    rw [refs] at is ⊢
    rw [pipes, freed, other is]
    refine (pages.past j pi is).imp_right fun ⟨once, next, gone, gone'⟩ => ⟨once, next, gone, ?_⟩
    rw [other next]
    exact gone'
  · rw [refs, freed]; exact pages.later

theorem drop_balance (s : State ι π n) (k : Nat) (target : Target ι π) (j : Nat) :
    ((s.drop k target).dropped j).length = (s.dropped j).length + if k = j then 1 else 0 := by
  simp only [drop, update_apply]
  by_cases same : j = k
  · rw [if_pos same, if_pos same.symm, List.length_append, same]
    rfl
  · rw [if_neg same, if_neg (Ne.symm same)]
    rfl

theorem drop_mem {target : Target ι π} (there : s.refs[k]? = some target) (j : Nat)
    (x : Target ι π) (mem : x ∈ (s.drop k target).dropped j) :
    x ∈ s.dropped j ∨ s.refs[j]? = some x := by
  simp only [drop, update_apply] at mem
  split at mem
  next same =>
    subst same
    rcases List.mem_append.mp mem with old | new
    · exact .inl old
    · rw [List.mem_singleton] at new
      exact .inr (new ▸ there)
  · exact .inl mem

section

variable (sound : Sound s) (live : (s.proc p).status = .live)
include sound live

/-- An instruction that only drops a reference keeps the table sound if it keeps the pages. -/
theorem Sound.drop
    (here : (s.proc p).code = op :: rest) (target : Target ι π) {pipes : π → Option Pipe}
    {freed : Nat → Nat} (agrees : s.refs[k]? = some target) (last : op.last = false)
    (after : op.after = id) (credit : ∀ g, op.credit g = 0)
    (serials : ∀ j, op.serials j = if k = j then 1 else 0)
    (pages : Pages { (s.drop k target).setCode p rest with pipes, freed }) :
    Sound { (s.drop k target).setCode p rest with pipes, freed } := by
  have inside : ∀ x ∈ rest, x ∈ (s.proc p).code := by
    rw [here]
    exact fun x => List.mem_cons_of_mem _
  refine ⟨?_, ?_, pages, ?_, sound.panic⟩
  · refine sound.counts.still rfl rfl (fun g => ?_) fun g => ?_
    · rw [owns_eq here, after, credit, Nat.zero_add]
      rfl
    · rw [fresh_eq here]
      exact Nat.le_add_left ..
  · refine sound.ledger.change 0 (s.file 0) [] (update_eq_self ..).symm rfl
      (List.append_nil _).symm (fun j => ?_) (sound.ledger.files 0)
      (fun held => sound.ledger.cwds p held) (fun x mem => sound.ledger.ops p x (inside x mem))
      fun j x mem => drop_mem agrees j x mem
    have balance := drop_balance s k target j
    rw [holds_eq here]
    change _ + holds j { s.proc p with code := rest } + ((s.drop k target).dropped j).length +
      _ = _ + _ + _ + if j < s.refs.length then 1 else 0
    rw [balance, serials]
    simp only [holds]
    omega
  · have valid := (sound.fits live here).2.2 last
    rw [after] at valid
    refine sound.procs.change rfl (by simp [live]) (ok_of_valid live valid)
      fun x mem np is => ?_
    obtain ⟨used, builds⟩ := sound.procs.builds p np x (inside x mem) is
    exact ⟨used, builds, x, inside x mem, is⟩

theorem Sound.iput {held : Held ι} (here : (s.proc p).code = .iput held :: rest) :
    Sound ((s.drop held.serial (.inode held.ip)).setCode p rest) := by
  have agrees : s.refs[held.serial]? = some (.inode held.ip) :=
    sound.ledger.ops p (.iput held) (by rw [here]; exact List.mem_cons_self)
  exact sound.drop live here _ agrees rfl rfl (fun _ => rfl) (fun _ => rfl)
    (sound.pages.drop agrees rfl (fun j other => update_of_ne other ..) rfl rfl)

theorem Sound.exitCwd (here : (s.proc p).code = .exitCwd :: rest) :
    ∃ held, (s.proc p).cwd = some held ∧ Sound (((s.drop held.serial (.inode held.ip)).setProc p
        { s.proc p with cwd := none }).setCode p (.exitZombie :: rest)) := by
  obtain ⟨⟨some, none⟩, ends, -⟩ := sound.fits live here
  obtain rfl := ends rfl
  obtain ⟨held, cwd⟩ := Option.isSome_iff_exists.mp some
  have agrees := sound.ledger.cwds p held cwd
  refine ⟨held, cwd, ?_⟩
  have table : (((s.drop held.serial (.inode held.ip)).setProc p
      { s.proc p with cwd := Option.none }).setCode p [.exitZombie]).proc =
      update s.proc p { s.proc p with cwd := Option.none, code := [.exitZombie] } := by
    simp only [setCode, setProc, State.drop, update_self, update_idem]
  refine ⟨?_, ?_, ?_, ?_, sound.panic⟩
  · refine sound.counts.still rfl table (fun g => ?_) fun g => ?_
    · rw [owns_eq here]
      rfl
    · rw [fresh_eq here]
      exact Nat.zero_le _
  · refine sound.ledger.change 0 (s.file 0) [] (update_eq_self ..).symm table
      (List.append_nil _).symm (fun k => ?_) (sound.ledger.files 0) (fun held => by simp)
      (by simp [Op.Agrees]) fun k x mem => drop_mem agrees k x mem
    have balance := drop_balance s held.serial (.inode held.ip) k
    rw [holds_eq here, cwd]
    change _ + (0 + 0) + ((s.drop held.serial (.inode held.ip)).dropped k).length + _ = _ + _ + _ +
        if k < s.refs.length then 1 else 0
    rw [balance]
    simp only [Op.serials, Option.map_some, Option.some.injEq, List.map_nil, List.sum_nil]
    omega
  · exact sound.pages.drop agrees rfl (fun j other => update_of_ne other ..) rfl rfl
  · refine sound.procs.change table (by simp [live])
      (ok_of_valid live ⟨⟨rfl, none⟩, fun _ => rfl, by rintro ⟨⟩⟩) ?_
    simp [Op.child]

end

/-! ## Pipes -/

theorem Pipe.isOpen_shut (pipe : Pipe) (w v : Bool) :
    (pipe.shut w).isOpen v = if v = w then false else pipe.isOpen v := by
  cases w <;> cases v <;> rfl

theorem Pipe.number_shut (pipe : Pipe) (w v : Bool) : (pipe.shut w).number v = pipe.number v := by
  cases w <;> rfl

theorem Pipe.serial_shut (pipe : Pipe) (w : Bool) : (pipe.shut w).serial = pipe.serial := by
  cases w <;> rfl

theorem Pipe.number_inj {v : Bool} (same : pipe.number w = pipe.number v) : w = v := by
  cases w <;> cases v <;> simp_all [Pipe.number]

section Pipes

variable [DecidableEq π] {pi : π}

theorem Pages.make (pages : Pages s) (ledger : Ledger s) (free : s.pipes pi = none)
    (refs : t.refs = s.refs ++ [.pipe pi false] ++ [.pipe pi true])
    (dropped : t.dropped = s.dropped)
    (pipes : t.pipes = update s.pipes pi (some ⟨true, true, s.refs.length⟩))
    (freed : t.freed = s.freed) : Pages t := by
  have is : ∀ {k : Nat} {x : Target ι π}, t.refs[k]? = some x ↔ s.refs[k]? = some x ∨
      k = s.refs.length ∧ .pipe pi false = x ∨ k = s.refs.length + 1 ∧ .pipe pi true = x := by
    intro k x
    rw [refs, getElem?_snoc, getElem?_snoc, List.length_append, List.length_singleton]
    tauto
  have page : ∀ q, t.pipes q = if q = pi then some ⟨true, true, s.refs.length⟩ else s.pipes q := by
    rw [pipes]
    exact fun q => update_apply ..
  have first := ledger.dropped_later (Nat.le_refl s.refs.length)
  have second := ledger.dropped_later (Nat.le_succ s.refs.length)
  constructor
  · intro k q w there whole
    rw [page]
    rcases is.mp there with old | ⟨rfl, new⟩ | ⟨rfl, new⟩
    · rw [dropped] at whole
      obtain ⟨pipe, here, number⟩ := pages.live k q w old whole
      refine ⟨pipe, ?_, number⟩
      rw [if_neg]
      · exact here
      · rintro rfl
        rw [free] at here
        cases here
    · cases new
      exact ⟨_, if_pos rfl, rfl⟩
    · cases new
      exact ⟨_, if_pos rfl, rfl⟩
  · intro q pipe here w
    rw [page] at here
    split at here
    next same =>
      cases here
      subst same
      rw [is, dropped]
      cases w
      · exact ⟨.inr (.inl ⟨rfl, rfl⟩), iff_of_true rfl first⟩
      · exact ⟨.inr (.inr ⟨rfl, rfl⟩), iff_of_true rfl second⟩
    · obtain ⟨there, opened⟩ := pages.ends q pipe here w
      rw [is, dropped]
      exact ⟨.inl there, opened⟩
  · intro q pipe here
    rw [page] at here
    rw [freed]
    split at here
    · cases here
      exact ⟨.inl rfl, pages.later _ (Nat.le_refl _)⟩
    · exact pages.alive q pipe here
  · intro k q there
    rw [page, freed, dropped]
    rcases is.mp there with old | ⟨rfl, new⟩ | ⟨rfl, new⟩
    · rcases pages.past k q old with ⟨pipe, here, serial⟩ | ⟨once, next, gone⟩
      · refine .inl ⟨pipe, ?_, serial⟩
        rw [if_neg]
        · exact here
        · rintro rfl
          rw [free] at here
          cases here
      · exact .inr ⟨once, is.mpr (.inl next), gone⟩
    · cases new
      exact .inl ⟨_, if_pos rfl, rfl⟩
    · cases new
  · intro k late
    rw [freed]
    refine pages.later k ?_
    rw [refs, List.length_append, List.length_append] at late
    omega

theorem Sound.makePipe (sound : Sound s) (live : (s.proc p).status = .live) {f0 f1 : Fin NFILE}
    (here : (s.proc p).code = .pipeMem f0 f1 :: rest) (free : s.pipes pi = none) :
    Sound ((s.newPipe f0 f1 pi).setCode p (.pipeFd0 f0 f1 :: rest)) := by
  obtain ⟨fits, ends, -⟩ := sound.fits live here
  obtain rfl := ends rfl
  have once := sound.counts.once f0
  have all := le_sum s.proc (fresh f0) p
  have all' := le_sum s.proc (fresh f1) p
  have mine : (s.proc p).fresh f0 = 1 + if f1 = f0 then 1 else 0 := by
    rw [fresh_eq here]
    simp [Op.fresh]
  have mine' : (s.proc p).fresh f1 = (if f0 = f1 then 1 else 0) + 1 := by
    rw [fresh_eq here]
    simp [Op.fresh]
  have apart : f1 ≠ f0 := by
    intro same
    rw [if_pos same] at mine
    omega
  have blank0 := sound.counts.blank f0 (by omega)
  have blank1 := sound.counts.blank f1 (by omega)
  have owns : ∀ g, (s.proc p).owns g = tally (s.proc p).ofile g +
      ((if f0 = g then 1 else 0) + if f1 = g then 1 else 0) := fun g => by
    rw [owns_eq here]
    rfl
  have pos0 : (s.file f0).ref ≠ 0 := by
    have := sound.counts.owns_le p f0
    rw [owns, if_pos rfl] at this
    omega
  have pos1 : (s.file f1).ref ≠ 0 := by
    have := sound.counts.owns_le p f1
    rw [owns, if_pos rfl] at this
    omega
  let F0 : File ι π := { s.file f0 with
    type := .pipe, readable := true, writable := false, pipe := some pi, serial := s.refs.length }
  let F1 : File ι π := { s.file f1 with
    type := .pipe, readable := false, writable := true, pipe := some pi
    serial := s.refs.length + 1 }
  let middle : State ι π n :=
    ((s.issue (.pipe pi false)).setFile f0 F0).setCode p [.fileclose f0, .pipeSecond f1]
  have fileMiddle : middle.file f1 = s.file f1 := update_of_ne apart ..
  have procMiddle : middle.proc p = { s.proc p with code := [.fileclose f0, .pipeSecond f1] } :=
    update_self ..
  have files : ((s.newPipe f0 f1 pi).setCode p [.pipeFd0 f0 f1]).file =
      update middle.file f1 F1 := by
    change update (update s.file f0 F0) f1 _ = update _ f1 F1
    congr 1
    simp only [setFile, issue, update_of_ne apart]
    rfl
  have table : ((s.newPipe f0 f1 pi).setCode p [.pipeFd0 f0 f1]).proc =
      update middle.proc p { s.proc p with code := [.pipeFd0 f0 f1] } := by
    change update s.proc p _ = update (update s.proc p _) p _
    rw [update_idem]
    rfl
  have countsMiddle : Counts middle := by
    refine sound.counts.change f0 F0 rfl rfl (fun g => ?_) (fun zero => absurd zero pos0)
      (fun g => .inl ?_) fun _ => .inr ?_
    · rw [owns]
      change tally (s.proc p).ofile g +
        ((if f0 = g then 1 else 0) + ((if f1 = g then 1 else 0) + 0)) + _ = _
      rfl
    · rw [fresh_eq here]
      change 0 + ((if f1 = g then 1 else 0) + 0) ≤ (if f0 = g then 1 else 0) +
        (if f1 = g then 1 else 0) + 0
      omega
    · rw [mine]
      change 0 + ((if f1 = f0 then 1 else 0) + 0) < _
      omega
  have ledgerMiddle : Ledger middle := by
    refine sound.ledger.change f0 F0 [.pipe pi false] rfl rfl rfl (fun k => ?_) (fun _ => ?_)
      (fun held cwd => getElem?_mono (sound.ledger.cwds p held cwd)) (by simp [Op.Agrees])
      fun k x mem => .inl mem
    · rw [holds_eq here]
      change (if _ ≠ _ ∧ s.refs.length = k then 1 else 0) +
        ((if (s.proc p).cwd.map Held.serial = some k then 1 else 0) + 0) +
          (s.dropped k).length + _ =
        (if (s.file f0).type ≠ .none ∧ _ then 1 else 0) + (_ + 0) + _ +
          if k < (s.refs ++ [Target.pipe pi false]).length then 1 else 0
      simp only [blank0, ne_eq, not_true_eq_false, false_and, if_false, List.length_append,
        List.length_singleton, reduceCtorEq, not_false_eq_true, true_and]
      have := issue_balance s.refs.length k
      omega
    · exact ⟨.pipe pi false, rfl, getElem?_snoc.mpr (.inr ⟨rfl, rfl⟩)⟩
  refine ⟨?_, ?_, ?_, ?_, sound.panic⟩
  · refine countsMiddle.change f1 F1 files table (fun g => ?_) (fun zero => absurd zero pos1)
      (fun g => .inl (Nat.zero_le _)) fun _ => .inr ?_
    · rw [fileMiddle, procMiddle]
      rfl
    · rw [procMiddle]
      change 0 < 0 + ((if f1 = f1 then 1 else 0) + 0)
      rw [if_pos rfl]
      omega
  · refine ledgerMiddle.change f1 F1 [.pipe pi true] files table rfl (fun k => ?_) (fun _ => ?_)
      (fun held cwd => ?_) (by simp [Op.Agrees]) fun k x mem => .inl mem
    · rw [procMiddle, fileMiddle]
      change (if _ ≠ _ ∧ s.refs.length + 1 = k then 1 else 0) + _ + (s.dropped k).length +
        (if k < (s.refs ++ [Target.pipe pi false]).length then 1 else 0) =
        (if (s.file f1).type ≠ .none ∧ _ then 1 else 0) + _ + (s.dropped k).length +
          if k < (s.refs ++ [Target.pipe pi false] ++ [Target.pipe pi true]).length then 1 else 0
      change _ + ((if (s.proc p).cwd.map Held.serial = some k then 1 else 0) + 0) + _ + _ =
        _ + ((if (s.proc p).cwd.map Held.serial = some k then 1 else 0) + 0) + _ + _
      simp only [blank1, ne_eq, not_true_eq_false, false_and, if_false, List.length_append,
        List.length_singleton, reduceCtorEq, not_false_eq_true, true_and]
      have := issue_balance (s.refs.length + 1) k
      omega
    · refine ⟨.pipe pi true, rfl, getElem?_snoc.mpr (.inr ⟨?_, rfl⟩)⟩
      simp [F1, issue]
    · exact getElem?_mono (getElem?_mono (sound.ledger.cwds p held cwd))
  · exact sound.pages.make sound.ledger free rfl rfl rfl rfl
  · refine sound.procs.change rfl (by simp [live])
      (ok_of_valid live ⟨fits, fun _ => rfl, by rintro ⟨⟩⟩) ?_
    simp [Op.child]

/-- An end of a pipe is dropped. The page goes with the second end. -/
theorem Pages.close (pages : Pages s) (here : s.pipes pi = some pipe) (number : pipe.number w = k)
    (refs : t.refs = s.refs)
    (dropped : ∀ j, t.dropped j = if j = k then s.dropped k ++ [.pipe pi w] else s.dropped j)
    (pipes : t.pipes = update s.pipes pi
      (if !(pipe.shut w).readopen && !(pipe.shut w).writeopen then none else some (pipe.shut w)))
    (freed : t.freed = if !(pipe.shut w).readopen && !(pipe.shut w).writeopen then
      update s.freed pipe.serial (s.freed pipe.serial + 1) else s.freed) : Pages t := by
  have gone : t.dropped k ≠ [] := by
    rw [dropped, if_pos rfl]
    simp
  have keeps : ∀ j, s.dropped j ≠ [] → t.dropped j ≠ [] := by
    intro j before
    rw [dropped]
    split
    · simp
    · exact before
  have page : ∀ q, t.pipes q = if q = pi then
      (if !(pipe.shut w).readopen && !(pipe.shut w).writeopen then none else some (pipe.shut w))
      else s.pipes q := by
    rw [pipes]
    exact fun q => update_apply ..
  have mine : ∀ v, s.refs[pipe.number v]? = some (.pipe pi v) :=
    fun v => (pages.ends pi pipe here v).1
  have others : ∀ q other v, s.pipes q = some other → q ≠ pi → other.number v ≠ k := by
    rintro q other v there apart same
    have first := (pages.ends q other there v).1
    rw [same, ← number, mine w] at first
    cases first
    exact apart rfl
  have opened : ∀ v, (pipe.shut w).isOpen v = true ↔ t.dropped (pipe.number v) = [] := by
    intro v
    rw [isOpen_shut]
    by_cases same : v = w
    · rw [if_pos same, same, number]
      exact iff_of_false nofun gone
    · rw [if_neg same, dropped, if_neg, (pages.ends pi pipe here v).2]
      rw [← number]
      exact fun equal => same (number_inj equal)
  constructor
  · intro j q v there whole
    rw [refs] at there
    have before : s.dropped j = [] := by
      by_contra some
      exact keeps j some whole
    obtain ⟨other, is, at_⟩ := pages.live j q v there before
    rw [page]
    by_cases same : q = pi
    · subst same
      rw [here] at is
      cases is
      have still := (opened v).mpr (at_ ▸ whole)
      refine ⟨pipe.shut w, ?_, by rw [number_shut]; exact at_⟩
      rw [if_pos rfl, if_neg]
      cases v <;> simp_all [isOpen]
    · exact ⟨other, by rw [if_neg same]; exact is, at_⟩
  · intro q other there v
    rw [page] at there
    rw [refs]
    split at there
    next same =>
      split at there
      · cases there
      · cases there
        subst same
        rw [number_shut]
        exact ⟨mine v, opened v⟩
    next apart =>
      rw [dropped, if_neg (others q other v there apart)]
      exact pages.ends q other there v
  · intro q other there
    rw [page] at there
    split at there
    · split at there
      · cases there
      next some =>
        cases there
        rw [freed, if_neg some, serial_shut]
        refine ⟨?_, (pages.alive pi pipe here).2⟩
        simpa [or_iff_not_imp_left] using some
    next apart =>
      have old := pages.alive q other there
      refine ⟨old.1, ?_⟩
      rw [freed]
      split
      · rw [update_of_ne]
        · exact old.2
        · intro same
          have first := (pages.ends q other there false).1
          have second := mine false
          rw [show other.number false = pipe.number false from same, second] at first
          cases first
          exact apart rfl
      · exact old.2
  · intro j q there
    rw [refs] at there
    rw [page, refs]
    rcases pages.past j q there with ⟨other, is, serial⟩ | ⟨once, next, gone', gone''⟩
    · by_cases same : q = pi
      · subst same
        rw [here] at is
        cases is
        rw [if_pos rfl]
        split
        next none =>
          right
          subst serial
          rw [freed, if_pos none, update_self, (pages.alive q pipe here).2]
          have closed : ∀ v, (pipe.shut w).isOpen v = false := by
            intro v
            cases v <;> simp_all [isOpen]
          refine ⟨rfl, mine true, fun whole => ?_, fun whole => ?_⟩
          · have := (opened false).mpr whole
            rw [closed] at this
            cases this
          · have := (opened true).mpr whole
            rw [closed] at this
            cases this
        · exact .inl ⟨_, rfl, by rw [serial_shut]; exact serial⟩
      · rw [if_neg same]
        exact .inl ⟨other, is, serial⟩
    · refine .inr ⟨?_, next, keeps _ gone', keeps _ gone''⟩
      rw [freed]
      split
      · rw [update_of_ne]
        · exact once
        · rintro rfl
          rw [(pages.alive pi pipe here).2] at once
          cases once
      · exact once
  · intro j late
    rw [refs] at late
    rw [freed]
    split
    · rw [update_of_ne]
      · exact pages.later j late
      · rintro rfl
        have := lt_of_ref (mine false)
        change pipe.serial + 0 < _ at this
        omega
    · exact pages.later j late

theorem Sound.pipeclose (sound : Sound s) (live : (s.proc p).status = .live)
    {serial : Nat} (here : (s.proc p).code = .pipeclose pi w serial :: rest) :
    ∃ pipe, s.pipes pi = some pipe ∧ ∀ pipes freed, (pipes = update s.pipes pi
        (if !(pipe.shut w).readopen && !(pipe.shut w).writeopen then none
          else some (pipe.shut w))) →
      (freed = if !(pipe.shut w).readopen && !(pipe.shut w).writeopen then
        update s.freed pipe.serial (s.freed pipe.serial + 1) else s.freed) →
      Sound { (s.drop serial (.pipe pi w)).setCode p rest with pipes, freed } := by
  have agrees : s.refs[serial]? = some (.pipe pi w) :=
    sound.ledger.ops p (.pipeclose pi w serial) (by rw [here]; exact List.mem_cons_self)
  have whole : s.dropped serial = [] := by
    refine sound.ledger.not_dropped (.inl ⟨p, ?_⟩)
    rw [holds_eq here]
    simp only [Op.serials, if_true]
    omega
  obtain ⟨pipe, found, number⟩ := sound.pages.live serial pi w agrees whole
  refine ⟨pipe, found, fun pipes freed page frees => ?_⟩
  exact sound.drop live here _ agrees rfl rfl (fun _ => rfl) (fun _ => rfl)
    (sound.pages.close found number rfl (fun j => update_apply ..) page frees)

end Pipes

end Xv6.Ftable
