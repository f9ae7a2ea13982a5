import Mathlib.Data.List.GetD
import Xv6.Bio.Commit

/-!
# The statements of `commit` keep the log in order

What a process needs survives its own operations on other buffers, and each
operation provides what the next statement needs. From this the statements of
`commit` and recovery follow one by one.
-/

namespace Xv6.Bio

open Pc

open List (getD_eq_getElem mem_cons mem_cons_of_mem mem_cons_self mem_singleton not_mem_nil)

open Function State Bcache

variable {Pid : Type} [DecidableEq Pid]

section Own

variable [Fintype Pid] {s t : State Pid} {p : Pid} {i j : Fin NBUF} {blockno other : Nat}
  {ok : Block → Prop} {need : Need} {number : Nat} {data : Block} {cache : Bcache Pid}

theorem State.Caches.ne (here : s.Caches i blockno) (there : s.Caches j other)
    (apart : blockno ≠ other) : i ≠ j := by
  rintro rfl
  exact apart (here.2.symm.trans there.2)

theorem Local.caches (near : Local s t p j) (caches : s.Caches i blockno) : t.Caches i blockno := by
  refine ⟨?_, ?_⟩
  · rw [near.dev_eq, near.log]
    exact caches.1
  · rw [near.blockno_eq]
    exact caches.2

theorem Need.Met.has_local (met : (Need.has i blockno).Met s p) (near : Local s t p j)
    (apart : i ≠ j) : (Need.has i blockno).Met t p :=
  ⟨near.caches met.1, (near.owns i apart).trans met.2⟩

theorem Need.Met.changed_local (met : (Need.changed i blockno ok).Met s p)
    (near : Local s t p j) (apart : i ≠ j) : (Need.changed i blockno ok).Met t p := by
  refine ⟨near.caches met.1, (near.owns i apart).trans met.2.1, ?_⟩
  rw [near.bufs i apart]
  exact met.2.2

theorem Need.Met.setCtl (met : need.Met s p) (ctl : Ctl) : need.Met (s.setCtl p ctl) p := by
  cases need with
  | has i blockno => exact ⟨met.1, by simpa [State.setCtl] using met.2⟩
  | gets i blockno => exact ⟨met.1, by simpa [State.setCtl] using met.2⟩
  | changed i blockno ok => exact ⟨met.1, by simpa [State.setCtl] using met.2.1, met.2.2⟩

theorem Need.Met.changed_setData (met : (Need.has i blockno).Met s p)
    (good : ok data) (quiet : (s.procs p).busy = .no) :
    (Need.changed i blockno ok).Met (s.setData p i data) p := by
  refine ⟨(Local.setData quiet data).caches met.1, ?_, ?_⟩
  · simp [setData]
  · simpa [setData] using good

theorem Need.Met.has_bget (coherent : Coherent s) (met : (Need.has j other).Met s p)
    (quiet : (s.procs p).busy = .no) {dev : Nat}
    (got : s.cache.bget dev number = some (cache, i)) (ctl : Ctl) :
    (Need.has j other).Met ({ s with cache := cache }.setProc p
      fun proc => { proc with ctl := ctl, busy := .waiting i }) p := by
  refine ⟨?_, by simpa using met.2⟩
  rcases bget_cases coherent.listed got with ⟨-, -, rfl⟩ | ⟨-, zero, rfl⟩
  · exact (Local.bget_hit quiet ctl).caches met.1
  · have kept : j ≠ i := by
      rintro rfl
      have unowned := (coherent.unused zero).owns p
      rw [met.2] at unowned
      cases unowned
    refine ⟨?_, ?_⟩
    · simpa [modify_of_ne kept] using met.1.1
    · simpa [modify_of_ne kept] using met.1.2

/-- `bget` gives the process a buffer of the block it asked for. -/
theorem Need.Met.gets_bget (coherent : Coherent s)
    (got : s.cache.bget s.log.dev number = some (cache, i)) (ctl : Ctl) :
    (Need.gets i number).Met ({ s with cache := cache }.setProc p
      fun proc => { proc with ctl := ctl, busy := .waiting i }) p := by
  refine ⟨?_, .inl (by simp)⟩
  rcases bget_cases coherent.listed got with ⟨dev, same, rfl⟩ | ⟨-, -, rfl⟩
  · exact ⟨by simpa [bpin] using dev, by simpa [bpin] using same⟩
  · exact ⟨by simp, by simp⟩

/-! ## The process's own calls of `bread` and `brelse` -/

theorem Need.Met.acquire (met : need.Met s p) (coherent : Coherent s)
    (here : (s.procs p).busy = .waiting i) (free : (s.cache.buf i).lock = none) :
    need.Met ((s.setBuf i fun b => { b with lock := some p }).setProc p
      fun proc => { proc with busy := .locked i }) p := by
  have near := Local.acquire here
  have unowned : (s.procs p).owns i = none := by
    by_contra owned
    rw [(coherent.locked i p).mpr (.inl owned)] at free
    cases free
  cases need with
  | has k blockno =>
    refine met.has_local near ?_
    rintro rfl
    rw [met.2] at unowned
    cases unowned
  | gets k blockno =>
    obtain ⟨caches, waiting | locked | ⟨quiet, -⟩⟩ := met
    · rw [here] at waiting
      cases waiting
      exact ⟨near.caches caches, .inr (.inl (by simp))⟩
    · rw [here] at locked
      cases locked
    · rw [here] at quiet
      cases quiet
  | changed k blockno ok =>
    refine met.changed_local near ?_
    rintro rfl
    rw [met.2.1] at unowned
    cases unowned

theorem Need.Met.load (met : need.Met s p) (coherent : Coherent s)
    (here : (s.procs p).busy = .locked i) : need.Met (s.load p i) p := by
  have near := Local.load here
  have unowned := coherent.apart p i here
  cases need with
  | has k blockno =>
    refine met.has_local near ?_
    rintro rfl
    rw [met.2] at unowned
    cases unowned
  | gets k blockno =>
    obtain ⟨caches, waiting | locked | ⟨quiet, -⟩⟩ := met
    · rw [here] at waiting
      cases waiting
    · rw [here] at locked
      cases locked
      refine ⟨near.caches caches, .inr (.inr ?_)⟩
      rw [load_eq]
      simp
    · rw [here] at quiet
      cases quiet
  | changed k blockno ok =>
    refine met.changed_local near ?_
    rintro rfl
    rw [met.2.1] at unowned
    cases unowned

theorem Need.Met.release (met : need.Met s p) (here : (s.procs p).busy = .releasing i) :
    need.Met ({ s with cache := s.cache.release i }.setProc p
      fun proc => { proc with busy := .no }) p := by
  have near := Local.release here
  have owns : ∀ k, (({ s with cache := s.cache.release i }.setProc p
      fun proc => { proc with busy := .no }).procs p).owns k = (s.procs p).owns k := by
    intro k
    simp
  cases need with
  | has k blockno => exact ⟨near.caches met.1, (owns k).trans met.2⟩
  | gets k blockno =>
    obtain ⟨-, waiting | locked | ⟨quiet, -⟩⟩ := met
    · rw [here] at waiting
      cases waiting
    · rw [here] at locked
      cases locked
    · rw [here] at quiet
      cases quiet
  | changed k blockno ok =>
    refine ⟨near.caches met.1, (owns k).trans met.2.1, ?_⟩
    have data : ((s.cache.bunpin i).buf k).data = (s.cache.buf k).data := by
      by_cases same : k = i
      · simp [same, bunpin]
      · simp [bunpin, modify_of_ne same]
    simpa [data] using met.2.2

/-! ## Outcomes -/

/-- The cache is coherent and the disk is one that recovery completes. -/
structure Healthy (area : Area) (base : Nat → Block) (s : State Pid) : Prop where
  coherent : Coherent s
  durable : Durable area (content base s.history.committed) s.disk
  start : s.log.start = area.start
  size : s.log.size = area.size

/-- What a statement of `commit` or recovery leaves. -/
structure Outcome (area : Area) (base : Nat → Block) (s : State Pid) (p : Pid)
    (recovering : Bool) : Prop where
  healthy : Healthy area base s
  next : ∃ pc, (s.procs p).ctl = .running recovering pc ∧
    pc.Good area (content base s.history.committed) s p recovering

variable {area : Area} {base : Nat → Block} {recovering : Bool} {pc : Pc}

section

variable (healthy : Healthy area base s)
include healthy

theorem Healthy.setCtl (ctl : Ctl) : Healthy area base (s.setCtl p ctl) :=
  { healthy with coherent := healthy.coherent.setCtl ctl }

theorem Outcome.setCtl (phase : pc.Phase area (content base s.history.committed) s recovering)
    (met : ∀ need ∈ pc.needs area s, need.Met s p) :
    Outcome area base (s.setCtl p (.running recovering pc)) p recovering where
  healthy := healthy.setCtl _
  next := by
    have same : SameLog s (s.setCtl p (.running recovering pc)) := ⟨rfl, rfl, rfl, rfl⟩
    refine ⟨pc, by simp [State.setCtl], same.phase phase, ?_⟩
    rw [same.needs]
    exact fun need mem => (met need mem).setCtl _

theorem Outcome.bget (quiet : (s.procs p).busy = .no)
    (here : (s.procs p).ctl = .running recovering pc)
    (good : pc.Good area (content base s.history.committed) s p recovering) {after : Fin NBUF → Pc}
    (phase : ∀ i, (after i).Phase area (content base s.history.committed) s recovering)
    (met : ∀ i, ∀ need ∈ (after i).needs area s, need = .gets i number ∨
      ∃ j blockno, need = .has j blockno ∧ need.Met s p) :
    Outcome area base (s.bget p s.log.dev number fun i => .running recovering (after i)) p
      recovering := by
  unfold State.bget
  split
  next cache i got =>
    have same : SameLog s ({ s with cache := cache }.setProc p fun proc =>
        { proc with ctl := .running recovering (after i), busy := .waiting i }) :=
      ⟨rfl, rfl, rfl, rfl⟩
    refine ⟨{ healthy with coherent := healthy.coherent.bget quiet got _ },
      after i, by simp, same.phase (phase i), ?_⟩
    rw [same.needs]
    intro need mem
    rcases met i need mem with rfl | ⟨j, blockno, rfl, held⟩
    · exact .gets_bget healthy.coherent got _
    · exact held.has_bget healthy.coherent quiet got _
  next =>
    have same : SameLog s (s.panic .noBuffers) := ⟨rfl, rfl, rfl, rfl⟩
    have coherent : Coherent (s.panic .noBuffers) :=
      healthy.coherent.congr rfl rfl rfl rfl rfl (fun _ => rfl) fun _ => rfl
    exact ⟨{ healthy with coherent := coherent }, pc, here,
      good.undisturbed same (.of_proc rfl rfl rfl)⟩

/-! ## Operations on one buffer -/

omit healthy in
theorem Coherent.data_of_has (coherent : Coherent s) (met : (Need.has i blockno).Met s p) :
    (s.cache.buf i).data = s.latest blockno := by
  have owned : (s.procs p).owns i ≠ none := by simp [met.2]
  have clean := coherent.clean_of_holder (.inl owned) (by simp [met.2])
  rw [coherent.fresh i (coherent.valid p i owned) met.1.1 clean, met.1.2]
  rfl

section

variable (met : (Need.has i blockno).Met s p) (quiet : (s.procs p).busy = .no)
include met quiet

theorem Healthy.brelse : Healthy area base (s.brelse p i) :=
  { healthy with coherent := healthy.coherent.brelse met.2 quiet }

theorem Healthy.setData (data : Block) : Healthy area base (s.setData p i data) :=
  { healthy with coherent := healthy.coherent.setData (by simp [met.2]) quiet data }

end

omit healthy in
theorem SameLog.brelse (s : State Pid) (p : Pid) (i : Fin NBUF) : SameLog s (s.brelse p i) :=
  ⟨rfl, rfl, rfl, rfl⟩

omit healthy in
theorem SameLog.setData (s : State Pid) (p : Pid) (i : Fin NBUF) (data : Block) :
    SameLog s (s.setData p i data) :=
  ⟨rfl, rfl, rfl, rfl⟩

section

variable (quiet : (s.procs p).busy = .no) (met : (Need.has i blockno).Met s p)
include quiet met

theorem Outcome.brelse {after : Pc}
    (phase : after.Phase area (content base s.history.committed) s recovering)
    (rest : ∀ need ∈ after.needs area s, ∃ j other, need = .has j other ∧ need.Met s p ∧
      other ≠ blockno) :
    Outcome area base ((s.brelse p i).setCtl p (.running recovering after)) p recovering := by
  have same := SameLog.brelse s p i
  refine .setCtl (healthy.brelse met quiet) (same.phase phase) ?_
  rw [same.needs]
  intro need mem
  obtain ⟨j, other, rfl, held, apart⟩ := rest need mem
  exact held.has_local (Local.brelse quiet) (held.1.ne met.1 apart)

theorem Outcome.setData (ok : Block → Prop) (fits : ok data)
    {after : Pc} (phase : after.Phase area (content base s.history.committed) s recovering)
    (rest : ∀ need ∈ after.needs area s, need = .changed i blockno ok ∨
      ∃ j other, need = .has j other ∧ need.Met s p ∧ other ≠ blockno) :
    Outcome area base ((s.setData p i data).setCtl p (.running recovering after)) p recovering := by
  have same := SameLog.setData s p i data
  refine .setCtl (healthy.setData met quiet data) (same.phase phase) ?_
  rw [same.needs]
  intro need mem
  rcases rest need mem with rfl | ⟨j, other, rfl, held, apart⟩
  · exact .changed_setData met fits quiet
  · exact held.has_local (Local.setData quiet data) (held.1.ne met.1 apart)

end

end

/-! ## Disk writes -/

theorem State.latest_bwrite (device : (s.cache.buf i).dev = s.log.dev) (number : Nat) :
    (s.bwrite p i).latest number =
      if number = (s.cache.buf i).blockno then (s.cache.buf i).data else s.latest number := by
  change update s.history.store (s.cache.buf i).dev
    (update (s.history.store (s.cache.buf i).dev) (s.cache.buf i).blockno
      (s.cache.buf i).data) s.log.dev number = _
  rw [device, update_self, update_apply]
  rfl

/-- What `bwrite` of a changed buffer does. -/
structure Written (s t : State Pid) (p : Pid) (blockno : Nat) (data : Block) : Prop where
  coherent : Coherent t
  disk : t.disk = Function.update s.disk blockno data
  latest : ∀ number, t.latest number = if number = blockno then data else s.latest number
  pinned : t.history.pinned = s.history.pinned
  committed : t.history.committed = s.history.committed
  log : t.log = s.log

theorem Written.bwrite (coherent : Coherent s) (met : (Need.changed i blockno ok).Met s p) :
    Written s (s.bwrite p i) p blockno (s.cache.buf i).data where
  coherent := coherent.bwrite (by simp [met.2.1]) met.1.1
  disk := by rw [← met.1.2]; rfl
  latest := by
    intro number
    rw [latest_bwrite met.1.1, met.1.2]
  pinned := rfl
  committed := rfl
  log := rfl

theorem Need.Met.has_of_changed (met : (Need.changed i blockno ok).Met s p) :
    (Need.has i blockno).Met (s.bwrite p i) p := by
  refine ⟨met.1, ?_⟩
  change ((s.stored p i).procs p).owns i = some false
  simp [stored]

theorem Need.Met.has_bwrite (met : (Need.has j other).Met s p) (apart : j ≠ i) :
    (Need.has j other).Met (s.bwrite p i) p := by
  refine ⟨met.1, ?_⟩
  change ((s.stored p i).procs p).owns j = some false
  simpa [stored, update_of_ne apart] using met.2

/-! ## `read_head` and `write_log` -/

section Statements

variable {tail : Nat} {erase : Bool} {k : Nat} {blocks : List Nat} {unpinned : Nat}

/-- The statement, run with its needs met outside of `bread` and `bwrite`, leaves the log
in order. -/
def Pc.Carries (area : Area) (base : Nat → Block) (s : State Pid) (p : Pid) (recovering : Bool)
    (pc : Pc) : Prop :=
  Healthy area base s → (s.procs p).busy = .no → (s.procs p).ctl = .running recovering pc →
    pc.Good area (content base s.history.committed) s p recovering →
    Outcome area base (instr s p recovering pc) p recovering

theorem outcome_readHead : Pc.readHead.Carries area base s p recovering := by
  intro healthy quiet here good
  simp only [instr, healthy.start]
  refine .bget healthy quiet here good (fun i => good.phase) ?_
  intro i need mem
  rw [mem_singleton.mp mem]
  exact .inl rfl

theorem outcome_copyHead : (Pc.copyHead i).Carries area base s p recovering := by
  intro healthy quiet _ good
  obtain ⟨recovers, -, free⟩ := good.phase
  have met := (good.met _ mem_cons_self).has_of_gets quiet
  have data : (s.cache.buf i).data = s.disk area.start := by
    rw [healthy.coherent.data_of_has met, healthy.coherent.home area.start (by simp [free])]
    rfl
  simp only [instr, data]
  generalize header : readHeader (s.disk area.start) = lh
  refine .setCtl ?_ ⟨recovers, ?_⟩ ?_
  · exact { healthy with coherent := healthy.coherent.congr rfl rfl rfl rfl rfl (fun _ => rfl) fun
      _ => rfl }
  · have not : recovering ≠ false := by simp [recovers]
    exact ⟨header, fun _ none => absurd none (by omega), fun _ => free,
      fun no => absurd no not, fun no => absurd no not, fun no => absurd no not⟩
  · intro need mem
    rw [mem_singleton.mp mem]
    exact met

theorem outcome_brelseHead : (Pc.brelseHead i).Carries area base s p recovering := by
  intro healthy quiet _ good
  refine .brelse healthy quiet (good.met _ mem_cons_self) ?_ (by simp [needs])
  exact ⟨good.phase.2, Nat.zero_le _⟩

theorem outcome_test : Pc.test.Carries area base s p recovering := by
  intro healthy _ _ good
  obtain ⟨commits, collecting⟩ := good.phase
  simp only [instr]
  split
  next some =>
    refine .setCtl healthy ⟨commits, collecting, fun _ none => absurd none (by omega), ?_⟩
      (by simp [needs])
    exact ⟨Nat.zero_le _, List.ne_nil_of_length_pos some⟩
  next none =>
    have empty : s.log.lh = [] := List.length_eq_zero_iff.mp (by omega)
    refine .setCtl healthy ⟨empty, ?_, collecting.header⟩ (by simp [needs])
    refine List.eq_nil_iff_forall_not_mem.mpr fun blockno mem => ?_
    have := (collecting.pinned blockno).mp mem
    rw [empty] at this
    cases this

theorem Area.Fits.getD_ne (fits : area.Fits blocks) {t : Nat}
    (bound : k < blocks.length) (inside : area.Inside t) : blocks.getD k 0 ≠ t := by
  intro same
  rw [getD_eq_getElem _ _ bound] at same
  exact fits.outside _ (List.getElem_mem bound) (same ▸ inside)

theorem Area.Fits.slot_inside (fits : area.Fits blocks)
    (bound : k < blocks.length) : area.Inside (area.slot k) :=
  Area.slot_inside (by have := fits.room; omega)

theorem outcome_logTo : (Pc.logTo tail).Carries area base s p recovering := by
  intro healthy quiet here good
  obtain ⟨commits, collecting, copied, bound, some⟩ := good.phase
  simp only [instr, healthy.start]
  split
  next more =>
    refine .bget healthy quiet here good (fun i => ⟨commits, collecting, copied, more⟩) ?_
    intro i need mem
    rw [mem_singleton.mp mem]
    exact .inl rfl
  next isOver =>
    have all : tail = s.log.lh.length := by omega
    exact .setCtl healthy ⟨commits, collecting, all ▸ copied, some⟩ (by simp [needs])

theorem outcome_logFrom : (Pc.logFrom tail i).Carries area base s p recovering := by
  intro healthy quiet here good
  have met := (good.met _ mem_cons_self).has_of_gets quiet
  refine .bget healthy quiet here good (fun _ => good.phase) ?_
  intro k need mem
  simp only [needs, mem_cons, not_mem_nil, or_false] at mem
  rcases mem with rfl | rfl
  · exact .inr ⟨_, _, rfl, met⟩
  · exact .inl rfl

theorem outcome_logCopy : (Pc.logCopy tail i j).Carries area base s p recovering := by
  intro healthy quiet _ good
  obtain ⟨commits, collecting, copied, bound⟩ := good.phase
  have log := good.met _ mem_cons_self
  have block := (good.met _ (mem_cons_of_mem _ mem_cons_self)).has_of_gets quiet
  have phase : (Pc.logWrite tail i j).Phase area (content base s.history.committed) s recovering :=
    good.phase
  refine .setData healthy quiet log (fun data => data = s.latest (s.log.lh.getD tail 0))
    (healthy.coherent.data_of_has block) phase ?_
  intro need mem
  simp only [needs, mem_cons, not_mem_nil, or_false] at mem
  rcases mem with rfl | rfl
  · exact .inl rfl
  · exact .inr ⟨_, _, rfl, block, collecting.fits.getD_ne bound (collecting.fits.slot_inside bound)⟩

theorem outcome_logRelseFrom : (Pc.logRelseFrom tail i j).Carries area base s p recovering := by
  intro healthy quiet _ good
  obtain ⟨commits, collecting, copied, bound⟩ := good.phase
  have log := good.met _ mem_cons_self
  have block := good.met _ (mem_cons_of_mem _ mem_cons_self)
  refine .brelse healthy quiet block good.phase ?_
  intro need mem
  rw [mem_singleton.mp mem]
  exact ⟨_, _, rfl, log, (collecting.fits.getD_ne bound (collecting.fits.slot_inside bound)).symm⟩

theorem outcome_logRelseTo : (Pc.logRelseTo tail i).Carries area base s p recovering := by
  intro healthy quiet _ good
  obtain ⟨commits, collecting, copied, bound⟩ := good.phase
  refine .brelse healthy quiet (good.met _ mem_cons_self) ?_ (by simp [needs])
  exact ⟨commits, collecting, copied, bound, List.ne_nil_of_length_pos (by omega)⟩

theorem outcome_logWrite : (Pc.logWrite tail i j).Carries area base s p recovering := by
  intro healthy _ here good
  obtain ⟨commits, collecting, copied, bound⟩ := good.phase
  have log := good.met _ mem_cons_self
  have block := good.met _ (mem_cons_of_mem _ mem_cons_self)
  have inside := collecting.fits.slot_inside bound
  have written := Written.bwrite healthy.coherent log
  have room : tail + 1 < area.size := by
    have := collecting.fits.room
    omega
  generalize (s.cache.buf i).data = data at written
  have data_eq : data = s.latest (s.log.lh.getD tail 0) := by
    have here := written.latest (area.slot tail)
    rw [if_pos rfl] at here
    rw [← here, latest_bwrite log.1.1, if_pos log.1.2.symm]
    exact log.2.2
  have header : (s.bwrite p i).disk area.start = s.disk area.start := by
    rw [written.disk, update_of_ne (area.slot_ne_start tail).symm]
  have unchanged : ∀ k, k < s.log.lh.length →
      (s.bwrite p i).latest (s.log.lh.getD k 0) = s.latest (s.log.lh.getD k 0) := by
    intro k small
    rw [written.latest, if_neg (collecting.fits.getD_ne small inside)]
  refine .setCtl ⟨written.coherent, ?_, healthy.start, healthy.size⟩ ⟨commits, ?_, ?_, bound⟩ ?_
  · rw [written.disk, written.committed]
    exact healthy.durable.write_log collecting.header room data
  · exact { collecting with header := by rw [header]; exact collecting.header }
  · intro k small
    change (s.bwrite p i).disk (area.slot k) = (s.bwrite p i).latest (s.log.lh.getD k 0)
    rw [unchanged k (by omega), written.disk]
    by_cases same : k = tail
    · rw [same, update_self]
      exact data_eq
    · have apart : area.slot k ≠ area.slot tail := by
        unfold Area.slot
        omega
      rw [update_of_ne apart]
      exact copied k (by omega)
  · intro need mem
    simp only [needs, mem_cons, not_mem_nil, or_false] at mem
    rcases mem with rfl | rfl
    · exact log.has_of_changed
    · exact block.has_bwrite (block.1.ne log.1 (collecting.fits.getD_ne bound inside))

/-! ## `write_head` -/

theorem outcome_headRead : (Pc.headRead erase).Carries area base s p recovering := by
  intro healthy quiet here good
  simp only [instr, healthy.start]
  refine .bget healthy quiet here good (fun i => ?_) ?_
  · cases erase <;> exact good.phase
  · intro i need mem
    rw [mem_singleton.mp mem]
    exact .inl rfl

theorem outcome_headFill : (Pc.headFill erase i).Carries area base s p recovering := by
  intro healthy quiet _ good
  have met := (good.met _ mem_cons_self).has_of_gets quiet
  have fits : HeaderFits s.log.lh := by
    cases erase with
    | true =>
      have erasing : Erasing area (content base s.history.committed) s := good.phase
      rw [erasing.empty]
      exact .nil
    | false =>
      have collecting : Collecting area s := good.phase.2.1
      exact collecting.fits.header
  have phase : (Pc.headWrite erase i).Phase area (content base s.history.committed) s
      recovering := by
    cases erase <;> exact good.phase
  refine .setData healthy quiet met (fun data => readHeader data = s.log.lh)
    (readHeader_writeHeader _ fits) phase ?_
  intro need mem
  rw [mem_singleton.mp mem]
  exact .inl rfl

/-- **The commit point.** -/
theorem outcome_headWrite_commit : (Pc.headWrite false i).Carries area base s p recovering := by
  intro healthy _ _ good
  obtain ⟨commits, collecting, copied, -⟩ := good.phase
  have met := good.met _ mem_cons_self
  have written := Written.bwrite healthy.coherent met
  have header : readHeader (s.cache.buf i).data = s.log.lh := met.2.2
  have inside : area.Inside area.start := by
    have := collecting.fits.room
    unfold Area.Inside
    omega
  have unchanged : ∀ k, k < s.log.lh.length →
      (s.bwrite p i).latest (s.log.lh.getD k 0) = s.latest (s.log.lh.getD k 0) := by
    intro k small
    rw [written.latest, if_neg (collecting.fits.getD_ne small inside)]
  have logged : ∀ t (bound : t < s.log.lh.length),
      s.disk (area.slot t) = (s.bwrite p i).latest s.log.lh[t] := by
    intro t bound
    have := unchanged t bound
    rw [getD_eq_getElem _ _ bound] at this
    rw [this, copied t bound, getD_eq_getElem _ _ bound]
  have durable := healthy.durable.write_head collecting.header collecting.fits logged header
  rw [← content_snoc, ← written.disk] at durable
  have same : instr s p recovering (.headWrite false i) =
      ((s.bwrite p i).groupDone).setCtl p (.running recovering (.headRelse false i)) := rfl
  rw [same]
  refine .setCtl ⟨?_, durable, healthy.start, healthy.size⟩ ⟨commits, ?_⟩ ?_
  · exact written.coherent.congr rfl rfl rfl rfl rfl (fun _ => rfl) fun _ => rfl
  · refine ⟨?_, fun _ none => absurd none (by omega), fun yes => ?_, fun _ => collecting.distinct,
      fun _ => ?_, fun _ blockno mem => ?_⟩
    · change readHeader ((s.bwrite p i).disk area.start) = s.log.lh
      rw [written.disk, update_self, header]
    · rw [commits] at yes
      cases yes
    · exact collecting.pinned
    · -- the group was made of the data last stored
      change (s.bwrite p i).latest blockno =
        content base (s.history.committed ++ [(s.bwrite p i).group]) blockno
      have made : applyGroup (content base s.history.committed) (s.bwrite p i).group blockno =
          (s.bwrite p i).latest blockno := applyGroup_map mem _
      rw [content_snoc, made]
  · intro need mem
    rw [mem_singleton.mp mem]
    exact met.has_of_changed

theorem outcome_headWrite_erase : (Pc.headWrite true i).Carries area base s p recovering := by
  intro healthy _ _ good
  have erasing : Erasing area (content base s.history.committed) s := good.phase
  have met := good.met _ mem_cons_self
  have written := Written.bwrite healthy.coherent met
  have header : readHeader (s.cache.buf i).data = [] := met.2.2.trans erasing.empty
  have durable := healthy.durable.erase erasing.home header
  rw [← written.disk] at durable
  refine .setCtl (s := s.bwrite p i) ⟨written.coherent, durable, healthy.start, healthy.size⟩
    ⟨erasing.empty, erasing.free, ?_⟩ ?_
  · rw [written.disk, update_self, header]
  · intro need mem
    rw [mem_singleton.mp mem]
    exact met.has_of_changed

theorem outcome_headRelse : (Pc.headRelse erase i).Carries area base s p recovering := by
  intro healthy quiet _ good
  have met := good.met _ mem_cons_self
  cases erase with
  | true => exact .brelse healthy quiet met good.phase (by simp [needs])
  | false =>
    exact .brelse healthy quiet met ⟨good.phase.2, Nat.zero_le _⟩ (by simp [needs])

/-! ## `install_trans` -/

theorem Installing.fits (healthy : Healthy area base s)
    (installing : Installing area (content base s.history.committed) s recovering k unpinned) :
    area.Fits s.log.lh := by
  have fits := healthy.durable.fits
  rwa [installing.header] at fits

theorem outcome_instFrom : (Pc.instFrom tail).Carries area base s p recovering := by
  intro healthy quiet here good
  obtain ⟨installing, bound⟩ := good.phase
  simp only [instr, healthy.start]
  split
  next more =>
    refine .bget healthy quiet here good (fun i => ⟨installing, more⟩) ?_
    intro i need mem
    rw [mem_singleton.mp mem]
    exact .inl rfl
  next isOver =>
    have all : tail = s.log.lh.length := by omega
    subst all
    exact .setCtl healthy installing (by simp [needs])

theorem outcome_instTo : (Pc.instTo tail i).Carries area base s p recovering := by
  intro healthy quiet here good
  have met := (good.met _ mem_cons_self).has_of_gets quiet
  refine .bget healthy quiet here good (fun _ => good.phase) ?_
  intro k need mem
  simp only [needs, mem_cons, not_mem_nil, or_false] at mem
  rcases mem with rfl | rfl
  · exact .inr ⟨_, _, rfl, met⟩
  · exact .inl rfl

theorem Installing.slot_unpinned (healthy : Healthy area base s) {t : Nat}
    (installing : Installing area (content base s.history.committed) s recovering k unpinned)
    (bound : t < s.log.lh.length) : area.slot t ∉ s.history.pinned := by
  have fits := installing.fits healthy
  intro mem
  cases recovering with
  | true =>
    rw [installing.free rfl] at mem
    cases mem
  | false =>
    have listed := List.mem_of_mem_drop ((installing.pinned rfl _).mp mem)
    exact fits.outside _ listed (fits.slot_inside bound)

theorem outcome_instCopy : (Pc.instCopy tail i j).Carries area base s p recovering := by
  intro healthy quiet _ good
  obtain ⟨installing, bound⟩ := good.phase
  have fits := installing.fits healthy
  have log := good.met _ mem_cons_self
  have block := (good.met _ (mem_cons_of_mem _ mem_cons_self)).has_of_gets quiet
  have data : (s.cache.buf i).data = s.disk (area.slot tail) := by
    rw [healthy.coherent.data_of_has log,
      healthy.coherent.home _ (installing.slot_unpinned healthy bound)]
    rfl
  have phase : (Pc.instWrite tail i j).Phase area (content base s.history.committed) s
      recovering := good.phase
  refine .setData healthy quiet block (fun data => data = s.disk (area.slot tail)) data phase ?_
  intro need mem
  simp only [needs, mem_cons, not_mem_nil, or_false] at mem
  rcases mem with rfl | rfl
  · exact .inr ⟨_, _, rfl, log, (fits.getD_ne bound (fits.slot_inside bound)).symm⟩
  · exact .inl rfl

theorem outcome_instWrite : (Pc.instWrite tail i j).Carries area base s p recovering := by
  intro healthy _ _ good
  obtain ⟨installing, bound⟩ := good.phase
  have fits := installing.fits healthy
  have log := good.met _ mem_cons_self
  have block := good.met _ (mem_cons_of_mem _ mem_cons_self)
  have written := Written.bwrite healthy.coherent block
  have source : (s.cache.buf j).data = s.disk (area.slot tail) := block.2.2
  have listed : tail < (readHeader (s.disk area.start)).length := by
    rw [installing.header]
    exact bound
  have entry : (readHeader (s.disk area.start))[tail] = s.log.lh.getD tail 0 := by
    simp only [installing.header, getD_eq_getElem _ _ bound]
  have value : (s.cache.buf j).data = content base s.history.committed (s.log.lh.getD tail 0) := by
    rw [source, healthy.durable.logged tail listed, entry]
  have durable := healthy.durable.install listed
  rw [entry, ← source, ← written.disk] at durable
  have inside : area.Inside area.start := by
    have := fits.room
    unfold Area.Inside
    omega
  have header : (s.bwrite p j).disk area.start = s.disk area.start := by
    rw [written.disk, update_of_ne (fits.getD_ne bound inside).symm]
  refine .setCtl (s := s.bwrite p j) ⟨written.coherent, durable, healthy.start, healthy.size⟩
    ⟨{ installing with header := ?_, home := ?_, stored := ?_ }, bound, ?_⟩ ?_
  · rw [header]
    exact installing.header
  · intro k small
    change (s.bwrite p j).disk (s.log.lh.getD k 0) =
      content base s.history.committed (s.log.lh.getD k 0)
    rw [written.disk]
    by_cases same : s.log.lh.getD k 0 = s.log.lh.getD tail 0
    · rw [same, update_self, value]
    · have earlier : k < tail := by
        rcases Nat.lt_succ_iff_lt_or_eq.mp small with less | rfl
        · exact less
        · exact absurd rfl same
      rw [update_of_ne same]
      exact installing.home k earlier
  · intro commits blockno mem
    change (s.bwrite p j).latest blockno = content base s.history.committed blockno
    rw [written.latest]
    split
    next same => rw [same, value]
    next => exact installing.stored commits blockno mem
  · change (s.bwrite p j).disk (s.log.lh.getD tail 0) = (s.bwrite p j).latest (s.log.lh.getD tail 0)
    rw [written.disk, written.latest, if_pos rfl, update_self]
  · intro need mem
    simp only [needs, mem_cons, not_mem_nil, or_false] at mem
    rcases mem with rfl | rfl
    · exact log.has_bwrite (log.1.ne block.1 (fits.getD_ne bound (fits.slot_inside bound)).symm)
    · exact block.has_of_changed

theorem mem_drop_succ (distinct : blocks.Nodup) (bound : k < blocks.length) (blockno : Nat) :
    blockno ∈ blocks.drop (k + 1) ↔ blockno ≠ blocks.getD k 0 ∧ blockno ∈ blocks.drop k := by
  have split : blocks.drop k = blocks[k] :: blocks.drop (k + 1) := List.drop_eq_getElem_cons bound
  have fresh : blocks[k] ∉ blocks.drop (k + 1) := by
    have := distinct.sublist (List.drop_sublist k blocks)
    rw [split] at this
    exact (List.nodup_cons.mp this).1
  rw [getD_eq_getElem _ _ bound, split, mem_cons]
  constructor
  · intro mem
    exact ⟨fun same => fresh (same ▸ mem), .inr mem⟩
  · rintro ⟨different, here | later⟩
    · exact absurd here different
    · exact later

theorem outcome_instUnpin : (Pc.instUnpin tail i j).Carries area base s p recovering := by
  intro healthy _ _ good
  obtain ⟨installing, bound, installed⟩ := good.phase
  have log := good.met _ mem_cons_self
  have block := good.met _ (mem_cons_of_mem _ mem_cons_self)
  cases recovering with
  | true =>
    refine .setCtl healthy ⟨{ installing with pinned := by simp, stored := (by simp) }, bound⟩ ?_
    intro need mem
    simp only [needs, mem_cons, not_mem_nil, or_false] at mem
    rcases mem with rfl | rfl
    · exact log
    · exact block
  | false =>
    have distinct := installing.distinct rfl
    have mem : (s.cache.buf j).blockno ∈ s.history.pinned := by
      rw [block.1.2, installing.pinned rfl, List.drop_eq_getElem_cons bound,
        getD_eq_getElem _ _ bound]
      exact mem_cons_self
    have coherent := healthy.coherent.unpin block.1.1 mem (by rw [block.1.2]; exact installed)
    have keeps : ∀ {k : Fin NBUF} {number : Nat}, (Need.has k number).Met s p →
        (Need.has k number).Met (s.unpin j) p := by
      intro k number met
      refine ⟨?_, met.2⟩
      by_cases same : k = j
      · subst same
        exact ⟨by simpa [unpin, bunpin] using met.1.1,
          by simpa [unpin, bunpin] using met.1.2⟩
      · exact ⟨by simpa [unpin, bunpin, modify_of_ne same] using met.1.1,
          by simpa [unpin, bunpin, modify_of_ne same] using met.1.2⟩
    refine .setCtl (s := s.unpin j) { healthy with coherent := coherent }
      ⟨{ installing with free := by simp, distinct := fun _ => distinct, pinned := fun _ blockno =>
          ?_ }, bound⟩ ?_
    · change blockno ∈ s.history.pinned.erase (s.cache.buf j).blockno ↔
        blockno ∈ s.log.lh.drop (tail + 1)
      rw [healthy.coherent.distinct.mem_erase_iff, block.1.2, installing.pinned rfl,
        mem_drop_succ distinct bound]
    · intro need mem
      simp only [needs, mem_cons, not_mem_nil, or_false] at mem
      rcases mem with rfl | rfl
      · exact keeps log
      · exact keeps block

theorem outcome_instRelseFrom : (Pc.instRelseFrom tail i j).Carries area base s p recovering := by
  intro healthy quiet _ good
  obtain ⟨installing, bound⟩ := good.phase
  have fits := installing.fits healthy
  have log := good.met _ mem_cons_self
  have block := good.met _ (mem_cons_of_mem _ mem_cons_self)
  refine .brelse healthy quiet log good.phase ?_
  intro need mem
  rw [mem_singleton.mp mem]
  exact ⟨_, _, rfl, block, fits.getD_ne bound (fits.slot_inside bound)⟩

theorem outcome_instRelseTo : (Pc.instRelseTo tail i).Carries area base s p recovering := by
  intro healthy quiet _ good
  obtain ⟨installing, bound⟩ := good.phase
  refine .brelse healthy quiet (good.met _ mem_cons_self) ?_ (by simp [needs])
  exact ⟨installing, bound⟩

theorem outcome_clear : Pc.clear.Carries area base s p recovering := by
  intro healthy _ _ good
  have installing : Installing area (content base s.history.committed) s recovering
      s.log.lh.length s.log.lh.length := good.phase
  refine .setCtl (s := s.setLog { s.log with lh := [] }) ?_ ⟨rfl, ?_, ?_⟩ (by simp [needs])
  · exact { healthy with coherent := healthy.coherent.congr rfl rfl rfl rfl rfl (fun _ => rfl) fun
      _ => rfl }
  · cases recovering with
    | true => exact installing.free rfl
    | false =>
      refine List.eq_nil_iff_forall_not_mem.mpr fun blockno mem => ?_
      have listed := (installing.pinned rfl blockno).mp mem
      rw [List.drop_length] at listed
      cases listed
  · intro blockno listed
    change blockno ∈ readHeader (s.disk area.start) at listed
    rw [installing.header] at listed
    obtain ⟨k, bound, rfl⟩ := List.mem_iff_getElem.mp listed
    have home := installing.home k bound
    rwa [getD_eq_getElem _ _ bound] at home

/-- **Every statement of `commit` and of recovery keeps the log in order**, up
to their return. -/
theorem instr_outcome (healthy : Healthy area base s) (quiet : (s.procs p).busy = .no)
    (here : (s.procs p).ctl = .running recovering pc) (going : pc ≠ .done)
    (good : pc.Good area (content base s.history.committed) s p recovering) :
    Outcome area base (instr s p recovering pc) p recovering := by
  have carries : pc.Carries area base s p recovering := by
    cases pc with
    | readHead => exact outcome_readHead
    | copyHead i => exact outcome_copyHead
    | brelseHead i => exact outcome_brelseHead
    | test => exact outcome_test
    | logTo tail => exact outcome_logTo
    | logFrom tail toBuf => exact outcome_logFrom
    | logCopy tail toBuf fromBuf => exact outcome_logCopy
    | logWrite tail toBuf fromBuf => exact outcome_logWrite
    | logRelseFrom tail toBuf fromBuf => exact outcome_logRelseFrom
    | logRelseTo tail toBuf => exact outcome_logRelseTo
    | headRead erase => exact outcome_headRead
    | headFill erase i => exact outcome_headFill
    | headWrite erase i =>
      cases erase with
      | true => exact outcome_headWrite_erase
      | false => exact outcome_headWrite_commit
    | headRelse erase i => exact outcome_headRelse
    | instFrom tail => exact outcome_instFrom
    | instTo tail lbuf => exact outcome_instTo
    | instCopy tail lbuf dbuf => exact outcome_instCopy
    | instWrite tail lbuf dbuf => exact outcome_instWrite
    | instUnpin tail lbuf dbuf => exact outcome_instUnpin
    | instRelseFrom tail lbuf dbuf => exact outcome_instRelseFrom
    | instRelseTo tail dbuf => exact outcome_instRelseTo
    | clear => exact outcome_clear
    | done => exact absurd rfl going
  exact carries healthy quiet here good

end Statements

end Own

end Xv6.Bio
