import Xv6.Ftable.Calls

/-!
# The accounts of the file table

In every reachable state the ledger is in order: `f->ref` is the number of descriptors when no
call is in progress, every reference is dropped at most once, and once its holder is gone
exactly once, and a pipe is there as long as one of its ends is open, and then freed once.
-/

namespace Xv6.Ftable

open Fs (NFILE NOFILE)

variable {ι π : Type} {n : Nat} {s t : State ι π n} {p : Fin n}

section

variable (sound : Sound s) (live : (s.proc p).status = .live) (idle : (s.proc p).code = [])
include sound live idle

theorem Sound.enter (code : List (Op ι π n))
    (owns : ∀ g, tally (kept (s.proc p).ofile code) g + (code.map (Op.credit g)).sum =
      tally (s.proc p).ofile g)
    (plain : ∀ x ∈ code, x.child = none ∧ (∀ g, x.fresh g = 0) ∧ (∀ k, x.serials k = 0) ∧
      x.Agrees s.refs)
    (valid : (s.proc p).cwd.isSome → Valid (s.proc p).cwd (s.proc p).ofile code) :
    Sound (s.setCode p code) := by
  have some := sound.valid live
  rw [idle] at some
  refine ⟨?_, ?_, sound.pages.still rfl rfl rfl rfl, ?_, sound.panic⟩
  · refine sound.counts.still rfl rfl (fun g => ?_) fun g => ?_
    · simp only [Proc.owns, idle, kept_nil, List.map_nil, List.sum_nil]
      exact owns g
    · have zero : (code.map (Op.fresh g)).sum = 0 := by
        refine List.sum_eq_zero fun k mem => ?_
        obtain ⟨x, there, rfl⟩ := List.mem_map.mp mem
        exact (plain x there).2.1 g
      change (code.map (Op.fresh g)).sum ≤ _
      rw [zero]
      exact Nat.zero_le _
  · refine sound.ledger.still rfl rfl rfl rfl rfl (fun k => ?_) fun x mem => (plain x mem).2.2.2
    rw [idle]
    refine List.sum_eq_zero fun i mem => ?_
    obtain ⟨x, there, rfl⟩ := List.mem_map.mp mem
    exact (plain x there).2.2.1 k
  · refine sound.procs.change rfl (by simp [live]) (Proc.ok_of_valid live (valid some))
      fun x mem np is => ?_
    rw [(plain x mem).1] at is
    cases is

theorem Sound.sysOpen (ip : ι) (op : Op ι π n)
    (is : (∃ mode, op = .openAlloc mode ⟨ip, s.refs.length⟩) ∨ op = .iput ⟨ip, s.refs.length⟩) :
    Sound ((s.issue (.inode ip)).setCode p [op]) := by
  have some := sound.valid live
  rw [idle] at some
  have facts : op.after (s.proc p).ofile = (s.proc p).ofile ∧
      (∀ g, op.credit g = 0 ∧ op.fresh g = 0) ∧
      (∀ k, op.serials k = if s.refs.length = k then 1 else 0) ∧ op.child = none ∧
      Valid (s.proc p).cwd (s.proc p).ofile [op] ∧
      op.Agrees (s.refs ++ [.inode ip]) := by
    have there : (s.refs ++ [Target.inode ip])[s.refs.length]? = Option.some (.inode ip) :=
      getElem?_snoc.mpr (.inr ⟨rfl, rfl⟩)
    rcases is with ⟨mode, rfl⟩ | rfl
    · exact ⟨rfl, fun _ => ⟨rfl, rfl⟩, fun _ => rfl, rfl, ⟨some, fun _ => rfl, nofun⟩, there⟩
    · exact ⟨rfl, fun _ => ⟨rfl, rfl⟩, fun _ => rfl, rfl, ⟨trivial, nofun, fun _ => some⟩, there⟩
  obtain ⟨after, none, serials, child, valid, agrees⟩ := facts
  refine ⟨?_, ?_, sound.pages.issue rfl rfl rfl rfl, ?_, sound.panic⟩
  · refine sound.counts.still rfl rfl (fun g => ?_) fun g => ?_
    · simp only [Proc.owns, idle, kept_nil, List.map_nil, List.sum_nil]
      change tally (op.after (s.proc p).ofile) g + (op.credit g + 0) = _
      rw [after, (none g).1]
      rfl
    · change op.fresh g + 0 ≤ _
      rw [(none g).2]
      exact Nat.zero_le _
  · refine sound.ledger.change 0 (s.file 0) [.inode ip] (Function.update_eq_self ..).symm rfl rfl
      (fun k => ?_) (fun typed => ?_) (fun held cwd => getElem?_mono (sound.ledger.cwds p held cwd))
      (fun x mem => ?_) fun k x mem => .inl mem
    · have := issue_balance s.refs.length k
      have more := serials k
      simp only [Proc.holds, idle, List.map_nil, List.sum_nil]
      change _ + ((if (s.proc p).cwd.map Held.serial = Option.some k then 1 else 0) +
        (op.serials k + 0)) + (s.dropped k).length + _ = _ + _ + _ +
          if k < (s.refs ++ [Target.inode ip]).length then 1 else 0
      rw [List.length_append, List.length_singleton]
      omega
    · obtain ⟨target, is, there⟩ := sound.ledger.files 0 typed
      exact ⟨target, is, getElem?_mono there⟩
    · rw [List.mem_singleton] at mem
      subst mem
      exact agrees
  · refine sound.procs.change rfl (by simp [live]) (Proc.ok_of_valid live valid)
      fun x mem np has => ?_
    rw [List.mem_singleton.mp mem, child] at has
    cases has

end

theorem Sound.usable (sound : Sound s) {f : Fin NFILE} (typed : (s.file f).type = .pipe) :
    ∃ pi pipe, (s.file f).pipe = some pi ∧ s.pipes pi = some pipe ∧
      pipe.isOpen (s.file f).writable = true := by
  obtain ⟨target, is, there⟩ := sound.ledger.files f (by rw [typed]; nofun)
  simp only [File.target, typed, Option.map_eq_some_iff] at is
  obtain ⟨pi, has, rfl⟩ := is
  have whole : s.dropped (s.file f).serial = [] := by
    refine sound.ledger.not_dropped (.inr ⟨f, ?_⟩)
    simp [File.holds, typed]
  obtain ⟨pipe, found, number⟩ := sound.pages.live _ pi _ there whole
  refine ⟨pi, pipe, has, found, ?_⟩
  rw [(sound.pages.ends pi pipe found _).2, number]
  exact whole

theorem Sound.freeproc (sound : Sound s) (zombie : (s.proc p).status = .zombie) :
    Sound (s.setStatus p .unused) := by
  have ok := sound.procs.ok p
  unfold Proc.Ok at ok
  rw [zombie] at ok
  refine ⟨sound.counts.still rfl rfl (fun _ => rfl) fun _ => Nat.le_refl _,
    sound.ledger.still rfl rfl rfl rfl rfl (fun _ => rfl) (sound.ledger.ops p),
    sound.pages.still rfl rfl rfl rfl,
    sound.procs.change rfl (by simp [zombie]) ok ?_, sound.panic⟩
  intro x mem
  rw [show (s.proc p).code = [] from ok.2.2] at mem
  cases mem

theorem enter_eq {code : List (Op ι π n)} (entered : enter s p code = some t) :
    (s.proc p).status = .live ∧ (s.proc p).code = [] ∧ t = s.setCode p code := by
  unfold enter at entered
  split at entered <;> cases entered
  next live idle => exact ⟨live, idle, rfl⟩

theorem Sound.step [DecidableEq π] (sound : Sound s) {event : Event ι π n} (step : Step s event t) :
    Sound t := by
  unfold Step next at step
  rw [if_neg (by simp [sound.panic])] at step
  cases event with
  | sysOpen p mode ip =>
    obtain ⟨live, idle, rfl⟩ := enter_eq step
    refine sound.sysOpen live idle ip _ ?_
    split
    · exact .inl ⟨mode, rfl⟩
    · exact .inr rfl
  | sysPipe p | fork p =>
    obtain ⟨live, idle, rfl⟩ := enter_eq step
    refine sound.enter live idle _ (fun g => rfl) ?_ fun some => ⟨some, fun _ => rfl, by rintro ⟨⟩⟩
    simp [Op.child, Op.fresh, Op.serials, Op.Agrees]
  | sysDup p fd =>
    simp only at step
    split at step
    · cases step
    next f slot =>
      obtain ⟨live, idle, rfl⟩ := enter_eq step
      refine sound.enter live idle _ (fun g => rfl) ?_ fun some =>
        ⟨⟨some, slot⟩, fun _ => rfl, by rintro ⟨⟩⟩
      simp [Op.child, Op.fresh, Op.serials, Op.Agrees]
  | sysClose p fd =>
    simp only at step
    split at step
    · cases step
    next f slot =>
      obtain ⟨live, idle, rfl⟩ := enter_eq step
      refine sound.enter live idle _ (fun g => ?_) ?_ fun some =>
        ⟨slot, by rintro ⟨⟩, fun _ => ⟨trivial, by rintro ⟨⟩, fun _ => some⟩⟩
      · have := tally_clear slot g
        simp only [kept_cons, kept_nil, Op.after, Op.credit, List.map_cons, List.map_nil,
          List.sum_cons, List.sum_nil]
        omega
      · simp [Op.child, Op.fresh, Op.serials, Op.Agrees]
  | exit p =>
    obtain ⟨live, idle, rfl⟩ := enter_eq step
    refine sound.enter live idle _ (fun g => rfl) ?_ fun some =>
      ⟨⟨some, fun fd below => absurd below (Nat.not_lt_zero _)⟩, fun _ => rfl, by rintro ⟨⟩⟩
    simp [Op.child, Op.fresh, Op.serials, Op.Agrees]
  | step p answer =>
    simp only at step
    split at step
    next op rest live here => exact sound.perform live here step
    · cases step
  | access p fd =>
    simp only at step
    split at step
    next f live idle slot =>
      split at step
      next typed =>
        obtain ⟨pi, pipe, has, found, -⟩ := sound.usable typed
        rw [has, Option.bind_some, found] at step
        cases step
        exact sound
      · cases step
    · cases step
  | freeproc np =>
    simp only [Option.ite_none_right_eq_some, Option.some.injEq] at step
    obtain ⟨zombie, rfl⟩ := step
    exact sound.freeproc zombie

theorem Sound.initial (root : ι) (init : Fin n) : Sound (initial ι π n root init) := by
  have placed : ∀ q, (Ftable.initial ι π n root init).proc q = if q = init then
      ⟨.live, fun _ => none, some ⟨root, 0⟩, []⟩ else ⟨.unused, fun _ => none, none, []⟩ :=
    fun q => by simp only [Ftable.initial, Function.update_apply]
  have idle : ∀ q, ((Ftable.initial ι π n root init).proc q).code = [] := by
    intro q
    rw [placed]
    split <;> rfl
  have none : ∀ q g, ((Ftable.initial ι π n root init).proc q).owns g = 0 := by
    intro q g
    rw [placed]
    split <;> simp [Proc.owns, tally_none]
  refine ⟨⟨fun f => ?_, fun _ _ => rfl, fun f => ?_, fun f _ => rfl⟩,
    ⟨fun k => ?_, fun f typed => absurd rfl typed, fun q held => ?_, fun q x mem => ?_,
      fun _ _ => by rintro ⟨⟩⟩,
    ⟨fun k pi w there => ?_, by rintro _ _ ⟨⟩, by rintro _ _ ⟨⟩, fun k pi there => ?_,
      fun _ _ => rfl⟩,
    ⟨fun q => ?_, fun q np x mem => ?_, fun q r np x mem => ?_⟩, rfl⟩
  · simp only [none, Finset.sum_const_zero]
    rfl
  · have zero : ∀ q, ((Ftable.initial ι π n root init).proc q).fresh f = 0 := by
      intro q
      simp [Proc.fresh, idle]
    simp only [zero, Finset.sum_const_zero]
    exact Nat.zero_le _
  · have files : ∀ f, ((Ftable.initial ι π n root init).file f).holds k = 0 := fun _ => rfl
    have procs :=
      sum_update (fun _ : Fin n => (⟨.unused, fun _ => Option.none, Option.none, []⟩ : Proc ι π n))
      (Proc.holds k) init ⟨.live, fun _ => Option.none, some ⟨root, 0⟩, []⟩
    simp only [files, Finset.sum_const_zero, Nat.zero_add]
    change ∑ q, Proc.holds k (Function.update
      (fun _ : Fin n => (⟨.unused, fun _ => Option.none, Option.none, []⟩ : Proc ι π n)) init
      ⟨.live, fun _ => Option.none, some ⟨root, 0⟩, []⟩ q) + 0 = if k < 1 then 1 else 0
    rw [show (Proc.holds k (⟨.unused, fun _ => Option.none, Option.none, []⟩ : Proc ι π n)) =
      0 from rfl,
      Finset.sum_const_zero] at procs
    rw [Nat.add_zero] at procs ⊢
    rw [procs]
    change 0 + ((if some 0 = some k then 1 else 0) + 0) = _
    by_cases first : k = 0
    · subst first
      rfl
    · rw [if_neg (by simpa using Ne.symm first), if_neg (by omega)]
      rfl
  · rw [placed]
    split
    · rintro ⟨⟩
      rfl
    · simp
  · rw [idle] at mem
    cases mem
  · have := lt_of_ref there
    change k < 1 at this
    obtain rfl : k = 0 := by omega
    cases there
  · have := lt_of_ref there
    change k < 1 at this
    obtain rfl : k = 0 := by omega
    cases there
  · rw [placed]
    split
    · exact (rfl : (Option.some (⟨root, 0⟩ : Held ι)).isSome = true)
    · exact ⟨fun _ => rfl, rfl, rfl⟩
  · rw [idle] at mem
    cases mem
  · rw [idle] at mem
    cases mem

variable {root : ι} {init : Fin n} {events : List (Event ι π n)}

theorem Sound.run [DecidableEq π]
    (run : Run Step (Ftable.initial ι π n root init) events s) : Sound s :=
  run.invariant Sound (fun sound step => sound.step step) (Sound.initial root init)

/-- A file, a working directory or a call has the reference. -/
def State.Held (s : State ι π n) (k : Nat) : Prop :=
  (∃ f, (s.file f).type ≠ .none ∧ (s.file f).serial = k) ∨
  (∃ p held, (s.proc p).cwd = some held ∧ held.serial = k) ∨
  ∃ p, ∃ op ∈ (s.proc p).code, op.serials k ≠ 0

theorem Proc.holds_pos_iff (P : Proc ι π n) (k : Nat) : P.holds k ≠ 0 ↔
    (∃ held, P.cwd = some held ∧ held.serial = k) ∨ ∃ op ∈ P.code, op.serials k ≠ 0 := by
  have code : (P.code.map (Op.serials k)).sum ≠ 0 ↔ ∃ op ∈ P.code, op.serials k ≠ 0 := by
    rw [ne_eq, List.sum_eq_zero_iff]
    simp
  have cwd : P.cwd.map Held.serial = some k ↔ ∃ held, P.cwd = some held ∧ held.serial = k :=
    Option.map_eq_some_iff
  rw [← code, ← cwd, Proc.holds]
  split <;> simp_all

/-- A reference has a holder if and only if it is not dropped. -/
theorem State.held_iff (s : State ι π n) (k : Nat) :
    s.Held k ↔ ∑ f, (s.file f).holds k + ∑ p, (s.proc p).holds k ≠ 0 := by
  have files : ∑ f, (s.file f).holds k ≠ 0 ↔ ∃ f, (s.file f).type ≠ .none ∧
      (s.file f).serial = k := by
    rw [ne_eq, Finset.sum_eq_zero_iff]
    simp [File.holds]
  have procs : ∑ p, (s.proc p).holds k ≠ 0 ↔
      (∃ p held, (s.proc p).cwd = some held ∧ held.serial = k) ∨
      ∃ p, ∃ op ∈ (s.proc p).code, op.serials k ≠ 0 := by
    rw [ne_eq, Finset.sum_eq_zero_iff, ← exists_or]
    simp only [Finset.mem_univ, true_imp_iff, not_forall]
    exact exists_congr fun p => (s.proc p).holds_pos_iff k
  rw [State.Held, ← files, ← procs]
  omega

/-- The accounts are in order. -/
structure Accounted (s : State ι π n) : Prop where
  -- with no call in progress, `f->ref` is the number of descriptors that have `f`
  refs : (∀ p, (s.proc p).code = []) → ∀ f, (s.file f).ref = ∑ p, tally (s.proc p).ofile f
  closed : ∀ f, (s.file f).ref = 0 → (s.file f).type = .none
  unused : ∀ p, (s.proc p).status = .unused → (∀ fd, (s.proc p).ofile fd = none) ∧
    (s.proc p).cwd = none
  -- a reference is dropped once, when it has lost its holder
  once : ∀ k x, s.refs[k]? = some x → s.dropped k = [] ∧ s.Held k ∨ s.dropped k = [x] ∧ ¬ s.Held k
  -- a pipe is there until both of its ends are dropped, and then it has been freed once
  pipes : ∀ k pi, s.refs[k]? = some (.pipe pi false) →
    (∃ pipe, s.pipes pi = some pipe ∧ pipe.serial = k) ∧ s.freed k = 0 ∧
      (s.dropped k = [] ∨ s.dropped (k + 1) = []) ∨
    s.freed k = 1 ∧ s.dropped k = [.pipe pi false] ∧ s.dropped (k + 1) = [.pipe pi true]
  -- the pipe of an open file is there, and this end of it is open
  usable : ∀ f, (s.file f).type = .pipe → ∃ pi pipe, (s.file f).pipe = some pi ∧
    s.pipes pi = some pipe ∧ pipe.isOpen (s.file f).writable = true
  panic : s.panic = false

theorem Ledger.once (ledger : Ledger s) {k : Nat} {x : Target ι π} (there : s.refs[k]? = some x) :
    s.dropped k = [] ∧ s.Held k ∨ s.dropped k = [x] ∧ ¬ s.Held k := by
  have total := ledger.linear k
  rw [if_pos (lt_of_ref there)] at total
  have held := s.held_iff k
  cases is : s.dropped k with
  | nil =>
    rw [is, List.length_nil] at total
    exact .inl ⟨rfl, held.mpr (by omega)⟩
  | cons y more =>
    rw [is, List.length_cons] at total
    have none : ∑ f, (s.file f).holds k + ∑ p, (s.proc p).holds k = 0 := by omega
    obtain rfl : more = [] := List.eq_nil_of_length_eq_zero (by omega)
    have same := ledger.drops k y (by simp [is])
    rw [there] at same
    cases same
    exact .inr ⟨rfl, fun has => held.mp has none⟩

theorem Sound.accounted (sound : Sound s) : Accounted s where
  refs := by
    intro idle f
    rw [sound.counts.refs f]
    refine Finset.sum_congr rfl fun p _ => ?_
    simp [Proc.owns, idle p]
  closed := sound.counts.closed
  unused := by
    intro p unused
    have ok := sound.procs.ok p
    unfold Proc.Ok at ok
    rw [unused] at ok
    exact ⟨ok.1, ok.2.1⟩
  once := fun k x there => sound.ledger.once there
  pipes := by
    intro k pi there
    rcases sound.pages.past k pi there with ⟨pipe, here, rfl⟩ | ⟨freed, next, first, second⟩
    · refine .inl ⟨⟨pipe, here, rfl⟩, (sound.pages.alive pi pipe here).2, ?_⟩
      exact (sound.pages.alive pi pipe here).1.imp
        (sound.pages.ends pi pipe here false).2.mp (sound.pages.ends pi pipe here true).2.mp
    · refine .inr ⟨freed, ?_, ?_⟩
      · exact ((sound.ledger.once there).resolve_left fun whole => first whole.1).1
      · exact ((sound.ledger.once next).resolve_left fun whole => second whole.1).1
  usable := fun f typed => sound.usable typed
  panic := sound.panic

/-- The references to files, inodes and pipes are accounted for in every reachable state, in any
interleaving and with any failures. -/
theorem files_accounted [DecidableEq π]
    (run : Run Step (initial ι π n root init) events s) : Accounted s :=
  (Sound.run run).accounted

/-- An answer with a page for the pipe. -/
def yes : Answer Nat 1 := ⟨some 7, true, none⟩

/-- A process makes a pipe, duplicates the read end, and closes everything. -/
def pipeDupClose : List (Event Nat Nat 1) :=
  [.sysPipe 0, .step 0 yes, .step 0 yes, .step 0 yes, .step 0 yes, .step 0 yes, .step 0 yes,
   .sysDup 0 0, .step 0 yes, .step 0 yes, .access 0 2,
   .sysClose 0 0, .step 0 yes, .step 0 yes,
   .sysClose 0 1, .step 0 yes, .step 0 yes, .step 0 yes,
   .sysClose 0 2, .step 0 yes, .step 0 yes, .step 0 yes]

theorem files_accounted_pipeDupClose :
    ∃ s, Run Step (initial Nat Nat 1 1 0) pipeDupClose s ∧ Accounted s ∧
      s.refs = [.inode 1, .pipe 7 false, .pipe 7 true] ∧ s.freed 1 = 1 := by
  have executed : pipeDupClose.foldlM next (initial Nat Nat 1 1 0) = some _ := rfl
  have run := Run.of_execute executed
  exact ⟨_, run, files_accounted run, rfl, rfl⟩

end Xv6.Ftable
