import Xv6.Bio.Coherence
import Xv6.Bio.Effect

/-!
# The buffers a statement of `commit` relies on

The statements of `commit` and recovery work on buffers that earlier ones have
read. A `Need` says what a statement relies on about one of them: that the
process has it and has not changed it, that `bread` is about to return it, or
that the process has changed it in a given way.
-/

namespace Xv6.Bio

open Proc

open Bcache

open State

inductive Need where
  -- the process has the buffer of the block and no change to hand over
  | has (i : Fin NBUF) (blockno : Nat)
  -- `bread` of the block is about to return the buffer, or just has
  | gets (i : Fin NBUF) (blockno : Nat)
  -- the process has the buffer of the block with new data
  | changed (i : Fin NBUF) (blockno : Nat) (ok : Block → Prop)

variable {Pid : Type} [DecidableEq Pid] {i : Fin NBUF} {blockno : Nat} {proc : Proc}

def Need.Met (s : State Pid) (p : Pid) : Need → Prop
  | .has i blockno => s.Caches i blockno ∧ (s.procs p).owns i = some false
  | .gets i blockno => s.Caches i blockno ∧
      ((s.procs p).busy = .waiting i ∨ (s.procs p).busy = .locked i ∨
        (s.procs p).busy = .no ∧ (s.procs p).owns i = some false)
  | .changed i blockno ok => s.Caches i blockno ∧ (s.procs p).owns i = some true ∧
      ok (s.cache.buf i).data

theorem Need.Met.has_of_gets {s : State Pid} {p : Pid}
    (met : (Need.gets i blockno).Met s p) (quiet : (s.procs p).busy = .no) :
    (Need.has i blockno).Met s p := by
  obtain ⟨caches, waiting | locked | ⟨-, owned⟩⟩ := met
  · rw [quiet] at waiting
    cases waiting
  · rw [quiet] at locked
    cases locked
  · exact ⟨caches, owned⟩

/-! ## Interference -/

/-- The step leaves the process and the buffers that it refers to. -/
structure Undisturbed (s t : State Pid) (p : Pid) : Prop where
  owns : (t.procs p).owns = (s.procs p).owns
  busy : (t.procs p).busy = (s.procs p).busy
  dev : ∀ i, 0 < (s.procs p).refs i → (t.cache.buf i).dev = (s.cache.buf i).dev
  blockno : ∀ i, 0 < (s.procs p).refs i → (t.cache.buf i).blockno = (s.cache.buf i).blockno
  data : ∀ i, (s.procs p).owns i ≠ none → (t.cache.buf i).data = (s.cache.buf i).data
  log : t.log.dev = s.log.dev

theorem Proc.refs_pos_of_owns (owned : proc.owns i ≠ none) : 0 < proc.refs i := by
  unfold Proc.refs
  rw [if_neg owned]
  omega

theorem Proc.refs_pos_of_busy (busy : proc.busy.buffer = some i) : 0 < proc.refs i := by
  unfold Proc.refs
  rw [if_pos busy]
  omega

section Stability

variable {s t : State Pid} {p : Pid} {q : Pid}

theorem Undisturbed.caches (still : Undisturbed s t p)
    (used : 0 < (s.procs p).refs i) (caches : s.Caches i blockno) : t.Caches i blockno := by
  refine ⟨?_, ?_⟩
  · rw [still.dev i used, still.log]
    exact caches.1
  · rw [still.blockno i used]
    exact caches.2

/-- **What a process needs stays met while it is left alone.** -/
theorem Need.Met.undisturbed {need : Need} (met : need.Met s p) (still : Undisturbed s t p) :
    need.Met t p := by
  cases need with
  | has i blockno =>
    obtain ⟨caches, owned⟩ := met
    refine ⟨still.caches (refs_pos_of_owns (by simp [owned])) caches, ?_⟩
    rw [still.owns, owned]
  | gets i blockno =>
    obtain ⟨caches, how⟩ := met
    have used : 0 < (s.procs p).refs i := by
      rcases how with waiting | locked | ⟨-, owned⟩
      · exact refs_pos_of_busy (by simp [waiting, Busy.buffer])
      · exact refs_pos_of_busy (by simp [locked, Busy.buffer])
      · exact refs_pos_of_owns (by simp [owned])
    refine ⟨still.caches used caches, ?_⟩
    rw [still.busy, still.owns]
    exact how
  | changed i blockno ok =>
    obtain ⟨caches, owned, good⟩ := met
    have held : (s.procs p).owns i ≠ none := by simp [owned]
    refine ⟨still.caches (refs_pos_of_owns held) caches, ?_, ?_⟩
    · rw [still.owns, owned]
    · rw [still.data i held]
      exact good

theorem Undisturbed.of_local [Fintype Pid] (coherent : Coherent s)
    (near : Local s t q i) (other : p ≠ q)
    (data : (t.cache.buf i).data = (s.cache.buf i).data ∨ (s.procs q).Locks i) :
    Undisturbed s t p where
  owns := by rw [near.others p other]
  busy := by rw [near.others p other]
  dev := fun j _ => near.dev_eq j
  blockno := fun j _ => near.blockno_eq j
  data := by
    intro j owned
    by_cases same : j = i
    · rw [same] at owned ⊢
      rcases data with kept | locks
      · exact kept
      · exact absurd (coherent.locks_unique locks (.inl owned)) other
    · rw [near.bufs j same]
  log := near.log

section

variable (cache : t.cache = s.cache) (log : t.log.dev = s.log.dev)
include cache log

theorem Undisturbed.of_cache
    (owns : (t.procs p).owns = (s.procs p).owns) (busy : (t.procs p).busy = (s.procs p).busy) :
    Undisturbed s t p where
  owns := owns
  busy := busy
  dev := fun _ _ => by rw [cache]
  blockno := fun _ _ => by rw [cache]
  data := fun _ _ => by rw [cache]
  log := log

theorem Undisturbed.of_proc (proc : t.procs p = s.procs p) : Undisturbed s t p :=
  .of_cache cache log (by rw [proc]) (by rw [proc])

end

/-- `bget` of another process: a buffer that it takes is used by nobody. -/
theorem Undisturbed.bget [Fintype Pid] (coherent : Coherent s) {dev : Nat}
    (ctl : Fin NBUF → Ctl) (quiet : (s.procs q).busy = .no) (other : p ≠ q) :
    Undisturbed s (s.bget q dev blockno ctl) p := by
  unfold State.bget
  split
  next cache i got =>
    rcases bget_cases coherent.listed got with ⟨-, -, rfl⟩ | ⟨-, zero, rfl⟩
    · exact .of_local coherent (Local.bget_hit quiet (ctl i)) other (.inl (by simp [bpin]))
    · have unused := coherent.unused zero
      have apart : ∀ j, 0 < (s.procs p).refs j → j ≠ i := by
        rintro j used rfl
        unfold Proc.refs at used
        rw [if_pos (unused.owns p), if_neg (unused.busy p)] at used
        cases used
      have same : (({ s with cache := s.cache.modify i fun b =>
          { b with dev := dev, blockno := blockno, valid := false, refcnt := 1 } }.setProc q
            fun proc => { proc with ctl := ctl i, busy := .waiting i }).procs p) = s.procs p :=
        procs_ne other _
      refine ⟨by rw [same], by rw [same], ?_, ?_, ?_, rfl⟩
      · intro j used
        simp [modify_of_ne (apart j used)]
      · intro j used
        simp [modify_of_ne (apart j used)]
      · intro j owned
        simp [modify_of_ne (apart j (refs_pos_of_owns owned))]
  next => exact .of_proc rfl rfl rfl

/-- The process that takes the step. -/
def Act.actor : Act Pid → Option Pid
  | .call p | .enter p | .sleep p | .endOp p | .bread p _ _ | .acquire p | .load p
  | .modify p _ _ | .logWrite p _ | .brelse p _ | .release p | .run p => some p
  | .crash => none

/-- **The other processes leave the buffers of a process alone**, as long as
they do not run the log. -/
theorem Effect.undisturbed [Fintype Pid] (coherent : Coherent s) {first : Pid} {act : Act Pid}
    (effect : Effect first s act t) (actor : act.actor = some q) (other : p ≠ q)
    (client : act ≠ .run q) : Undisturbed s t p := by
  cases effect with
  | call | enter | sleep | last =>
    cases actor
    exact .of_proc rfl rfl (procs_ne other _)
  | more =>
    cases actor
    have woken : ∀ u : State Pid, (u.wakeup.procs p).owns = (u.procs p).owns ∧
        (u.wakeup.procs p).busy = (u.procs p).busy := by
      intro u
      simp only [wakeup]
      split <;> exact ⟨rfl, rfl⟩
    refine .of_cache rfl rfl ?_ ?_
    · rw [setCtl, procs_ne other, (woken _).1]
      rfl
    · rw [setCtl, procs_ne other, (woken _).2]
      rfl
  | interrupted => exact .of_proc rfl rfl rfl
  | bread _ quiet => cases actor; exact .bget coherent _ quiet other
  | acquire here _ =>
    cases actor
    exact .of_local coherent (Local.acquire here) other (.inl (by simp))
  | load here => cases actor; exact .of_local coherent (Local.load here) other (.inr (.inr here))
  | modify _ quiet owned =>
    cases actor
    exact .of_local coherent (Local.setData quiet _) other (.inr (.inl owned))
  | absorb =>
    cases actor
    exact .of_proc rfl rfl (by simp only [stored, procs_ne other])
  | @append _ i _ _ owned =>
    cases actor
    have bufs : ∀ j, (((s.cache.bpin i).buf j).dev = (s.cache.buf j).dev ∧
        ((s.cache.bpin i).buf j).blockno = (s.cache.buf j).blockno) ∧
        ((s.cache.bpin i).buf j).data = (s.cache.buf j).data := by
      intro j
      by_cases same : j = i
      · simp [same, bpin]
      · simp [bpin, modify_of_ne same]
    have same : ∀ u : State Pid, (u.stored q i).procs p = u.procs p := by
      intro u
      simp only [stored, procs_ne other]
    exact ⟨by rw [same]; rfl, by rw [same]; rfl, fun j _ => (bufs j).1.1,
      fun j _ => (bufs j).1.2, fun j _ => (bufs j).2, rfl⟩
  | refused => exact .of_proc rfl rfl rfl
  | brelse _ quiet _ =>
    cases actor
    exact .of_local coherent (Local.brelse quiet) other (.inl (by simp [State.brelse]))
  | release here =>
    cases actor
    exact .of_local coherent (Local.release here) other (.inl (by simp [bunpin]))
  | run => cases actor; exact absurd rfl client
  | crash => cases actor

end Stability

end Xv6.Bio
