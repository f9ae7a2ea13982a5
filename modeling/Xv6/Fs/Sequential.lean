import Xv6.Fs.Reach

/-!
# Calls of one process, one after the other

A process that runs alone takes the steps of a program to its end. `Now` says what the
invariant and the process know of the state then, and `Now.run` carries it through a program
that is safe. What the steps do not touch is in `Frame`.
-/

namespace Xv6.Fs

open Function Local

variable {Pid : Type} [DecidableEq Pid] [Fintype Pid] {sb : Super} {p : Pid} {t u : State Pid}

/-! ## Running alone -/

/-- Nothing waits, and only these panics may occur. -/
def alone (panics : Panic → Prop) : Setting Pid where
  allowed := fun _ => panics
  waits := fun _ => False
  assumed := Keeps
  keeps := fun _ _ _ kept => kept

/-- What a process that runs alone knows of the state. -/
structure Now (sb : Super) (p : Pid) (s : State Pid) (l : Local Pid) (w : Option World) : Prop where
  building : ∀ i, s.building i = none
  inv : ∃ gs, gs p = l ∧ (theory sb (alone fun _ => False)).Inv s gs w

/-- The steps of a program do not begin to build an inode. -/
def Calm (s t : State Pid) : Prop := (∀ i, s.building i = none) → ∀ i, t.building i = none

theorem Calm.refl (s : State Pid) : Calm s s := id

theorem Calm.trans {s : State Pid} (first : Calm s t) (second : Calm t u) : Calm s u :=
  fun none => second (first none)

section Run

variable {α : Type} {prog : Kernel Pid α} {s : State Pid} {l : Local Pid} {w : Option World}
  {post : α → Local Pid → Option World → Prop}

section

variable (now : Now sb p s l w) (calm : prog.Steps Calm)
include now calm

theorem Now.outcome {panics : Panic → Prop}
    (safe : (theory sb (alone panics)).Safe p prog l w post) :
    (∃ t value l' w', prog.run s = .ok t value ∧ Now sb p t l' w' ∧ post value l' w') ∨
      ∃ why, prog.run s = .panic why ∧ panics why := by
  obtain ⟨gs, own, inv⟩ := now.inv
  have along : prog.Along (Keeps p) s :=
    calm.along (fun _ _ kept => kept) (fun s t _ none e _ => .inl (none _)) now.building
  have outcome := safe.run own inv along
  cases ended : prog.run s with
  | ok t value =>
    rw [ended] at outcome
    obtain ⟨l', w', -, after, holds⟩ := outcome
    exact .inl ⟨t, value, l', w', rfl, ⟨calm.run Calm.refl (fun _ _ _ => Calm.trans) ended
      now.building, _, update_self .., after⟩, holds⟩
  | block =>
    rw [ended] at outcome
    exact outcome.elim
  | panic why =>
    rw [ended] at outcome
    exact .inr ⟨why, rfl, outcome⟩

theorem Now.run (safe : (theory sb (alone fun _ => False)).Safe p prog l w post) :
    ∃ t value l' w', prog.run s = .ok t value ∧ Now sb p t l' w' ∧ post value l' w' := by
  obtain ended | ⟨_, _, never⟩ := now.outcome calm safe
  · exact ended
  · exact never.elim

end

end Run

theorem Core.now {s : State Pid} {N : Nat → Node} {own : Nat → Owner Pid}
    (core : Core sb s (fun _ => idle) N own) (runs : (s.procs p).state = .runnable) :
    (started s p).Clean ∧ (started s p).Settled (s.procs p) ∧
      Now sb p s (started s p) (some ⟨N, fun b => own b = .free, True⟩) := by
  obtain ⟨core', clean, settled⟩ := core.start (p := p) rfl runs
  refine ⟨clean, settled, fun j => ?_, _, update_self .., N, own, core', ?_⟩
  · cases built : s.building j with
    | none => rfl
    | some q => cases (core.shape.maker j q).mp built
  · rintro W ⟨⟩
    refine ⟨fun _ _ _ => rfl, fun _ => .rfl, fun _ q r runsQ runsR => ?_⟩
    have mine : ∀ q, (update (fun _ => idle) p (started s p) q).running = true →
        q = p := by
      intro q busy
      by_contra other
      rw [update_of_ne other] at busy
      cases busy
    rw [mine q runsQ, mine r runsR]

/-! ## What is left alone -/

/-- The open files, the processes and the numbers of the inodes in the table are the same. -/
structure Frame (s t : State Pid) : Prop where
  ftable : t.ftable = s.ftable
  procs : t.procs = s.procs
  inum : ∀ e, (t.itable e).inum = (s.itable e).inum
  calm : Calm s t

theorem Frame.refl (s : State Pid) : Frame s s := ⟨rfl, rfl, fun _ => rfl, .refl s⟩

theorem Frame.trans {s : State Pid} (first : Frame s t) (second : Frame t u) : Frame s u :=
  ⟨second.ftable.trans first.ftable, second.procs.trans first.procs,
    fun e => (second.inum e).trans (first.inum e), first.calm.trans second.calm⟩

theorem frame_of_run {α : Type} {prog : Kernel Pid α} {s : State Pid} {value : α}
    (frame : prog.Steps Frame) (done : prog.run s = .ok t value) : Frame s t :=
  frame.run Frame.refl (fun _ _ _ => Frame.trans) done

theorem frame_calm {α : Type} {prog : Kernel Pid α} (frame : prog.Steps Frame) : prog.Steps Calm :=
  frame.mono fun _ _ one => one.calm

theorem frame_setInode (s : State Pid) (e : Fin NINODE) {f : Inode Pid → Inode Pid}
    (same : ∀ ip, (f ip).inum = ip.inum) : Frame s (s.setInode e f) := by
  refine ⟨rfl, rfl, fun e' => ?_, id⟩
  by_cases here : e' = e
  · subst here
    rw [State.itable_setInode_self, same]
  · rw [State.itable_setInode_of_ne here]

theorem frame_write (s : State Pid) (q : Pid) (b : Nat) (data : Block) :
    Frame s (s.write q b data) :=
  ⟨rfl, rfl, fun _ => rfl, id⟩

theorem log_ok {α : Type} {s : State Pid} {value result : α}
    (done : s.log t value = .ok u result) : u = t := by
  unfold State.log at done
  split at done <;> cases done
  rfl

theorem frame_scribble (b : Nat) (f : Block → Block) :
    (scribble b f : Kernel Pid Unit).Steps Frame :=
  .atomic fun s t _ done => by
    cases done
    exact ⟨rfl, rfl, fun _ => rfl, id⟩

theorem frame_beginOp : (beginOp p).Steps Frame :=
  .atomic fun s t _ done => by
    cases done
    exact ⟨rfl, rfl, fun _ => rfl, id⟩

theorem frame_endOp : (endOp : Kernel Pid Unit).Steps Frame :=
  .atomic fun s t _ done => by
    cases done
    exact ⟨rfl, rfl, fun _ => rfl, id⟩

section

variable (e : Fin NINODE)
include e

theorem frame_acquireInode : (acquireInode p e).Steps Frame :=
  .atomic fun s t _ done => by
    split at done
    · cases done
    · split at done <;> cases done
      exact frame_setInode s e fun _ => rfl

theorem frame_loadInode : (loadInode sb e : Kernel Pid Unit).Steps Frame :=
  .atomic fun s t _ done => by
    split at done
    · cases done
      exact .refl s
    · simp only at done
      split at done <;> cases done
      exact frame_setInode s e fun _ => rfl

theorem frame_ilock : (ilock sb p e).Steps Frame :=
  .seq (frame_acquireInode e) fun _ => frame_loadInode e

theorem frame_iunlock : (iunlock p e).Steps Frame :=
  .atomic fun s t _ done => by
    split at done <;> cases done
    exact frame_setInode s e fun _ => rfl

theorem frame_iupdate : (iupdate sb p e).Steps Frame :=
  .atomic fun s t _ done => by
    rw [log_ok done]
    refine ⟨rfl, rfl, fun _ => rfl, fun none i => ?_⟩
    simp only
    split
    · by_cases here : i = (s.itable e).inum
      · rw [here, update_self]
      · rw [update_of_ne here, none]
    · exact none i

end

/-! ## Steps of `bmap`

They read, log blocks and change the fields of the inode, and so are of every kind that permits
this. -/

structure Permits (p : Pid) (kind : State Pid → State Pid → Prop) : Prop where
  same : ∀ s, kind s s
  write : ∀ s b data, kind s (s.write p b data)
  fields : ∀ s e (f : Dinode → Dinode), kind s (s.setInode e fun ip => { ip with d := f ip.d })

section Permits

variable {kind : State Pid → State Pid → Prop} (permits : Permits p kind)
include permits

theorem steps_readBlock (b : Nat) : (readBlock b : Kernel Pid Block).Steps kind :=
  .atomic fun s t _ done => by
    cases done
    exact permits.same s

theorem steps_getInode (e : Fin NINODE) : (getInode e : Kernel Pid (Inode Pid)).Steps kind :=
  .atomic fun s t _ done => by
    cases done
    exact permits.same s

theorem steps_logWrite (b : Nat) (f : Block → Block) : (logWrite p b f).Steps kind :=
  .atomic fun s t _ done => by
    rw [log_ok done]
    exact permits.write s b _

theorem steps_setDinodeMem (e : Fin NINODE) (f : Dinode → Dinode) :
    (setDinodeMem e f : Kernel Pid Unit).Steps kind :=
  .atomic fun s t _ done => by
    cases done
    exact permits.fields s e f

theorem steps_ballocAt (k : Nat) : (ballocAt sb p k).Steps kind :=
  .atomic fun s t _ done => by
    simp only at done
    split at done
    · rw [log_ok done]
      exact permits.write s _ _
    · cases done
      exact permits.same s

theorem steps_balloc : (balloc sb p).Steps kind := by
  refine .seq (.first (steps_ballocAt permits)) fun found => ?_
  cases found with
  | none => exact .pure _
  | some b => exact .seq (steps_logWrite permits b _) fun _ => .pure _

theorem steps_bmapDirect (e : Fin NINODE) (i : Fin (NDIRECT + 1)) :
    (bmapDirect sb p e i).Steps kind := by
  refine .seq (steps_getInode permits e) fun ip => ?_
  split
  · refine .seq (steps_balloc permits) fun addr => ?_
    split
    · exact .pure _
    · exact .seq (steps_setDinodeMem permits e _) fun _ => .pure _
  · exact .pure _

theorem steps_bmapEntry (ind k : Nat) : (bmapEntry sb p ind k).Steps kind := by
  refine .seq (steps_readBlock permits ind) fun block => ?_
  split
  · refine .seq (steps_balloc permits) fun addr => ?_
    split
    · exact .pure _
    · exact .seq (steps_logWrite permits ind _) fun _ => .pure _
  · exact .pure _

theorem steps_bmap (e : Fin NINODE) (bn : Nat) : (bmap sb p e bn).Steps kind := by
  unfold bmap
  split
  · exact steps_bmapDirect permits e _
  · split
    · refine .seq (steps_bmapDirect permits e _) fun ind => ?_
      split
      · exact .pure _
      · exact steps_bmapEntry permits ind _
    · exact .stop _

end Permits

theorem permits_frame : Permits p Frame where
  same := .refl
  write s b data := frame_write s p b data
  fields s e _ := frame_setInode s e fun _ => rfl

theorem frame_writeiLoop (e : Fin NINODE) (src : Source) (n fuel off tot : Nat) :
    (writeiLoop sb p e src n fuel off tot).Steps Frame := by
  induction fuel generalizing off tot with
  | zero => exact .pure _
  | succ fuel ih =>
    unfold writeiLoop
    split
    · refine .seq (steps_bmap permits_frame e _) fun addr => ?_
      split
      · exact .pure _
      · simp only
        split
        · exact .seq (frame_scribble addr _) fun _ => .pure _
        · exact .seq (steps_logWrite permits_frame addr _) fun _ => ih _ _
    · exact .pure _

theorem frame_writei (e : Fin NINODE) (src : Source) (off n : Nat) :
    (writei sb p e src off n).Steps Frame := by
  refine .seq (steps_getInode (permits_frame (p := p)) e) fun ip => ?_
  split
  · exact .pure _
  · split
    · exact .pure _
    · exact .seq (frame_writeiLoop e src n n off 0) fun tot =>
        .seq (steps_setDinodeMem (permits_frame (p := p)) e _) fun _ =>
          .seq (frame_iupdate e) fun _ => .pure _

end Xv6.Fs
