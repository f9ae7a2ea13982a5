import Xv6.Fs.Chunks

/-!
# Copies that fail

`copyin` copies page by page into the buffer of a block, and may fail after a part. `writei`
then releases the buffer without `log_write` and returns the bytes of the blocks before it.
What later reads see of the part depends on whether the buffer stays in the cache.
-/

namespace Xv6.Fs

open Prog

open Function State Node

open Local

variable {Pid : Type} [DecidableEq Pid] [Fintype Pid] {sb : Super} {p : Pid} {s t u : State Pid}
  {l : Local Pid} {w : Option World} {e : Fin NINODE} {v : View}

/-! ## User memory -/

def PGSIZE : Nat := 4096

/-- The loop of `copyin`: the bytes that it has copied before it finds that a page is not
mapped. -/
def copyin (mapped : Nat → Bool) : Nat → Nat → Nat → Nat → Option Nat
  | 0, _, _, _ => none
  | fuel + 1, srcva, len, copied =>
    if 0 < len then
      if mapped (srcva / PGSIZE) then
        let n := min (PGSIZE - srcva % PGSIZE) len
        copyin mapped fuel (srcva + n) (len - n) (copied + n)
      else some copied
    else none

def Source.user (mapped : Nat → Bool) (byte : Nat → UInt8) (addr : Nat) : Source :=
  ⟨fun i => byte (addr + i), fun off m => copyin mapped m (addr + off) m 0⟩

/-- A write is split at the ends of blocks. Where the first copy that fails begins, from the
chunk at `c` on, and the bytes that it has copied before. -/
def Source.failsFrom (src : Source) (off n : Nat) : Nat → Nat → Option (Nat × Nat)
  | 0, _ => none
  | fuel + 1, c =>
    if c < n then
      let m := min (n - c) (BSIZE - (off + c) % BSIZE)
      match src.fault c m with
      | some part => some (c, min part m)
      | none => src.failsFrom off n fuel (c + m)
    else none

/-- The same for the whole write. -/
def Source.fails (src : Source) (off n : Nat) : Option (Nat × Nat) := src.failsFrom off n n 0

/-- The same bytes, and no faults. -/
def Source.whole (src : Source) : Source := ⟨src.byte, fun _ _ => none⟩

/-! ## What is logged -/

/-- The blocks that a process has not logged are the same. -/
structure Logs (p : Pid) (s t : State Pid) : Prop where
  kept : ∀ b ∈ s.logged p, b ∈ t.logged p
  same : ∀ b, b ∉ t.logged p → t.disk b = s.disk b

theorem Logs.refl (s : State Pid) : Logs p s s := ⟨fun _ => id, fun _ _ => rfl⟩

theorem Logs.trans (first : Logs p s t) (second : Logs p t u) : Logs p s u :=
  ⟨fun b logged => second.kept b (first.kept b logged), fun b unlogged =>
    (second.same b unlogged).trans (first.same b fun logged => unlogged (second.kept b logged))⟩

theorem logs_write (s : State Pid) (b : Nat) (data : Block) : Logs p s (s.write p b data) := by
  refine ⟨fun c logged => ?_, fun c unlogged => ?_⟩
  · simp only [write, update_self]
    exact List.mem_cons_of_mem _ logged
  · simp only [write, update_self] at unlogged ⊢
    refine update_of_ne (fun same => unlogged ?_) ..
    rw [same]
    exact List.mem_cons_self

theorem permits_logs : Permits p (Logs p) where
  same := .refl
  write := logs_write
  fields _ _ _ := ⟨fun _ => id, fun _ _ => rfl⟩

theorem logs_of_run {α : Type} {prog : Kernel Pid α} {value : α} (logs : prog.Steps (Logs p))
    (done : prog.run s = .ok t value) : Logs p s t :=
  logs.run Logs.refl (fun _ _ _ => Logs.trans) done

theorem logs_iupdate (e : Fin NINODE) : (iupdate sb p e).Steps (Logs p) :=
  .atomic fun s t _ done => by
    rw [log_ok done]
    have one := logs_write (p := p) s (sb.iblock (s.itable e).inum)
      (setDinode (s.disk (sb.iblock (s.itable e).inum)) ((s.itable e).inum % IPB) (s.itable e).d)
    exact ⟨one.kept, one.same⟩

/-- The blocks that a process has not logged are the same, but for one, which had this
content. -/
structure LogsBut (p : Pid) (addr : Nat) (block : Block) (s t : State Pid) : Prop where
  kept : ∀ b ∈ s.logged p, b ∈ t.logged p
  same : ∀ b, b ∉ t.logged p → t.disk b = s.disk b ∨ (b = addr ∧ s.disk b = block)

theorem Logs.but {addr : Nat} {block : Block} (logs : Logs p s t) : LogsBut p addr block s t :=
  ⟨logs.kept, fun b unlogged => .inl (logs.same b unlogged)⟩

theorem Logs.before {addr : Nat} {block : Block} (first : Logs p s t)
    (second : LogsBut p addr block t u) : LogsBut p addr block s u := by
  refine ⟨fun b logged => second.kept b (first.kept b logged), fun b unlogged => ?_⟩
  have early := first.same b fun logged => unlogged (second.kept b logged)
  rw [← early]
  exact second.same b unlogged

theorem Logs.after {addr : Nat} {block : Block} (first : LogsBut p addr block s t)
    (second : Logs p t u) : LogsBut p addr block s u := by
  refine ⟨fun b logged => second.kept b (first.kept b logged), fun b unlogged => ?_⟩
  rw [second.same b unlogged]
  exact first.same b fun logged => unlogged (second.kept b logged)

/-! ## The loop of `writei` -/

/-- The nodes after the loop of `writei` with `r` bytes counted, with the part that the failing
copy has left and without it. -/
structure Ends (p : Pid) (s t : State Pid) (n₀ : Node) (src : Source) (off r : Nat)
    (fails : Option (Nat × Nat)) (n' n₁ : Node) (k : Nat) : Prop where
  whole : Writing n₀ n₁ src.whole off r
  torn : Writing n₀ n' src.whole off (r + k)
  fields : n'.d = n₁.d
  slots : n'.slots = n₁.slots
  data : ∀ pos, pos ≠ posOf ((off + r) / BSIZE) → n'.data pos = n₁.data pos
  count : fails = some (r, k) ∨ (k = 0 ∧ ∀ c part, fails = some (c, part) → n₀.size ≤ off + c)
  logs : LogsBut p (n'.slots (posOf ((off + r) / BSIZE))) (n₁.data (posOf ((off + r) / BSIZE))) s t

variable {src : Source} {off tot : Nat}

theorem Source.le_of_failsFrom {n fuel c part : Nat}
    (fails : src.failsFrom off n fuel tot = some (c, part)) : tot ≤ c := by
  induction fuel generalizing tot with
  | zero => cases fails
  | succ fuel ih =>
    unfold Source.failsFrom at fails
    split at fails
    next =>
      simp only at fails
      split at fails
      next =>
        cases fails
        exact le_rfl
      next => exact le_of_add_le_left (ih fails)
    next => cases fails

variable {n₀ n' : Node}

theorem Ends.of_writing {r : Nat} {fails : Option (Nat × Nat)}
    (writing : Writing n₀ n' src.whole off r) (logs : Logs p s t)
    (count : ∀ c part, fails = some (c, part) → n₀.size ≤ off + c) :
    Ends p s t n₀ src off r fails n' n' 0 :=
  ⟨writing, writing, rfl, rfl, fun _ _ => rfl, .inr ⟨rfl, count⟩, logs.but⟩

/-- The blocks of the node that a process has locked are on the disk. -/
theorem Now.block (now : Now sb p s l w) (viewed : l.view e = some v) (owned : v.owned = true)
    {pos : Nat} (used : v.node.slots pos ≠ 0) : s.disk (v.node.slots pos) = v.node.data pos := by
  obtain ⟨gs, rfl, N, own, core, -⟩ := now.inv
  exact (core.blocks.of_view ((core.agrees viewed).node owned) used).2

theorem run_writeiLoop {n : Nat} (owned : v.owned = true)
    (op : l.op = true) (fit : off + n ≤ MAXFILE * BSIZE) (fuel tot : Nat)
    (enough : n - tot ≤ fuel) (le : tot ≤ n) (viewed : l.view e = some v) (now : Now sb p s l w)
    (writing : Writing n₀ v.node src.whole off tot) :
    ∃ t r n' n₁ k w', (writeiLoop sb p e src n fuel (off + tot) tot).run s = .ok t r ∧ r ≤ n ∧
      Now sb p t (l.setView e { v with node := n' }) w' ∧
      Ends p s t n₀ src off r (src.failsFrom off n fuel tot) n' n₁ k := by
  induction fuel generalizing tot l w v s with
  | zero =>
    obtain rfl : tot = n := by omega
    refine ⟨s, tot, v.node, v.node, 0, w, rfl, le, ?_, .of_writing writing (.refl s) nofun⟩
    rwa [setView_self viewed]
  | succ fuel ih =>
    unfold writeiLoop
    by_cases more : tot < n
    · rw [if_pos more]
      have bound : (off + tot) / BSIZE < MAXFILE :=
        Nat.div_lt_of_lt_mul (by rw [Nat.mul_comm]; omega)
      obtain ⟨s₁, addr, _, _, first, now₁, n₁, F, rfl, rfl, stable, grows, found⟩ :=
        now.run (frame_calm (steps_bmap permits_frame e _))
          (safe_bmap viewed owned op writing.stable bound)
      have logs₁ := logs_of_run (steps_bmap permits_logs e _) first
      rw [run_then first]
      have later := writing.grow grows stable
      obtain ⟨rfl, full⟩ | ⟨used, slot⟩ := found
      · rw [if_pos rfl]
        have missing : v.node.slots (posOf ((off + tot) / BSIZE)) = 0 := by
          by_contra there
          obtain ⟨_, _, _, _, again, -, same, -⟩ := now.run
            (frame_calm (steps_bmap permits_frame e _))
            (safe_bmap_found viewed owned writing.stable bound there)
          rw [first] at again
          cases again
          exact there same.symm
        have past : n₀.size ≤ off + tot := by
          by_contra below
          have start := Nat.div_mul_le_self (off + tot) BSIZE
          exact writing.covered _ (by omega) missing
        refine ⟨s₁, tot, n₁, n₁, 0, _, rfl, le, now₁,
          .of_writing later logs₁ fun c part fails => ?_⟩
        exact past.trans (Nat.add_le_add_left (Source.le_of_failsFrom fails) off)
      · rw [if_neg used]
        subst slot
        have positive : (off + tot) % BSIZE < BSIZE := Nat.mod_lt _ (by decide)
        unfold Source.failsFrom
        rw [if_pos more]
        generalize size : min (n - tot) (BSIZE - (off + tot) % BSIZE) = m
        simp only
        cases fault : src.fault tot m with
        | some part =>
          simp only
          obtain ⟨s₂, _, _, _, second, now₂, rfl, rfl⟩ := now₁.run (frame_calm (frame_scribble _ _))
            (safe_scribble (v := { v with node := n₁ }) view_set owned used
              fun block => block.writeAt ((off + tot) % BSIZE) (src.bytes tot (min part m)))
          rw [run_then second, setView_twice] at *
          have content := now₁.block view_set owned used
          refine ⟨s₂, tot, _, n₁, min part m, _, rfl, le, now₂, later,
            later.write used (by omega), rfl, ?_, ?_, .inl rfl, logs₁.before ?_⟩
          · exact update_eq_self ..
          · exact fun pos other => data_put_of_ne other ..
          · cases second
            refine ⟨fun _ => id, fun b _ => ?_⟩
            by_cases here : b = n₁.slots (posOf ((off + tot) / BSIZE))
            · exact .inr ⟨by rw [here, slots_put_self], by rw [here]; exact content⟩
            · exact .inl (update_of_ne here ..)
        | none =>
          simp only
          obtain ⟨s₂, _, _, _, second, now₂, rfl, rfl⟩ := now₁.run
            (frame_calm (steps_logWrite permits_frame _ _))
            (safe_logWrite (v := { v with node := n₁ }) view_set owned op used
              fun block => block.writeAt ((off + tot) % BSIZE) (src.bytes tot m))
          have logs₂ := logs_of_run (steps_logWrite permits_logs _ _) second
          rw [run_then second, Nat.add_assoc]
          obtain ⟨t, r, n', n₂, k, w', rest, le', now', ends⟩ := ih
            (l := (l.setView e { v with node := n₁ }).setView e _)
            (v := { v with node := n₁.put _ (n₁.slots _) _ }) owned op (tot + m) (by omega)
            (by omega) view_set now₂ (later.write used (by omega))
          rw [setView_twice, setView_twice] at now'
          exact ⟨t, r, n', n₂, k, w', rest, le', now',
            { ends with logs := (logs₁.trans logs₂).before ends.logs }⟩
    · rw [if_neg more, Source.failsFrom, if_neg more]
      refine ⟨s, tot, v.node, v.node, 0, w, rfl, le, ?_, .of_writing writing (.refl s) nofun⟩
      rwa [setView_self viewed]

/-! ## What `readi` returns -/

/-- The inode of an entry of the table stands for a node. -/
structure StandsFor (u : State Pid) (e : Fin NINODE) (n : Node) : Prop where
  readable : n.Readable
  fields : (u.itable e).d = n.d
  blocks : ∀ pos, n.slots pos ≠ 0 → u.disk (n.slots pos) = n.data pos

variable {n : Node} {len : Nat}

theorem run_readiLoop_node (stands : StandsFor u e n)
    (inside : off + len ≤ n.size) (fuel tot : Nat) (enough : len - tot ≤ fuel) (le : tot ≤ len) :
    (readiLoop sb p e (fun _ _ => true) len fuel (off + tot) tot (n.bytes off tot)).run u =
      .ok u (true, n.bytes off len) := by
  induction fuel generalizing tot with
  | zero =>
    obtain rfl : tot = len := by omega
    rfl
  | succ fuel ih =>
    unfold readiLoop
    by_cases more : tot < len
    · rw [if_pos more]
      obtain ⟨bound, used⟩ := stands.readable.block (show off + tot < n.size by omega)
      have addr : addrAt u.disk (u.itable e).d (posOf ((off + tot) / BSIZE)) =
          n.slots (posOf ((off + tot) / BSIZE)) := by
        rw [stands.fields]
        exact addrAt_eq_slots stands.readable.stable (stands.blocks NDIRECT) _
      rw [run_then (run_bmap bound (by rw [addr]; exact used)), addr, if_neg used,
        run_then (run_readBlock _), stands.blocks _ used]
      have positive : (off + tot) % BSIZE < BSIZE := Nat.mod_lt _ (by decide)
      generalize size : min (len - tot) (BSIZE - (off + tot) % BSIZE) = m
      simp only [if_true]
      rw [slice_eq_bytes (by omega), ← bytes_add, Nat.add_assoc]
      exact ih (tot + m) (by omega) (by omega)
    · rw [if_neg more]
      obtain rfl : tot = len := by omega
      rfl

/-- `readi`, to a destination that is valid, returns the bytes of this content. -/
def Reads (sb : Super) (p : Pid) (e : Fin NINODE) (u : State Pid) (bytes : List UInt8) : Prop :=
  ∀ off n, n < 2 ^ 32 → (readi sb p e (fun _ _ => true) off n).run u =
    .ok u (((readLen bytes.length off n : Nat) : Int),
      (bytes.drop off).take (readLen bytes.length off n))

theorem Node.take_drop_content (inside : off + len ≤ n.size) :
    (n.content.drop off).take len = n.bytes off len := by
  obtain ⟨more, size⟩ := Nat.exists_eq_add_of_le inside
  rw [Node.content, size, Node.bytes_add, Node.bytes_add, Nat.zero_add, Nat.zero_add,
    List.append_assoc,
    List.drop_left' (n.length_bytes 0 off), List.take_left' (n.length_bytes off len)]

theorem StandsFor.reads (stands : StandsFor u e n) : Reads sb p e u n.content := by
  intro off len small
  have size : (u.itable e).d.size.toNat = n.size := by rw [stands.fields, Node.size]
  have size_le := stands.readable.size_le
  have limit := maxfile_lt
  unfold readi
  rw [run_then run_getInode, n.length_content]
  simp only [size]
  unfold readLen
  by_cases refused : n.size < off ∨ (off + len) % 2 ^ 32 < off
  · rw [if_pos refused, if_pos refused, List.take_zero]
    rfl
  · rw [if_neg refused, if_neg refused]
    generalize short : (if n.size < (off + len) % 2 ^ 32 then n.size - off else len) = m
    have inside : off + m ≤ n.size := by split at short <;> omega
    have loop : (readiLoop sb p e (fun _ _ => true) m m off 0 []).run u =
      .ok u (true, n.bytes off m) :=
      run_readiLoop_node stands inside m 0 (by omega) (Nat.zero_le _)
    rw [run_then loop, take_drop_content inside]
    simp only [if_true, n.length_bytes]
    rfl

theorem Reads.unique {a b : List UInt8} (first : Reads sb p e u a) (second : Reads sb p e u b)
    (small : a.length < 2 ^ 31) : a = b := by
  have same := (first 0 (a.length + 1) (by omega)).symm.trans (second 0 (a.length + 1) (by omega))
  injection same with _ result
  injection result with count bytes
  have lengths : readLen a.length 0 (a.length + 1) = readLen b.length 0 (a.length + 1) := by
    exact_mod_cast count
  have whole : readLen a.length 0 (a.length + 1) = a.length := by
    unfold readLen
    rw [if_neg (by omega), if_pos (by omega), Nat.sub_zero]
  rw [← lengths, whole, List.drop_zero, List.drop_zero, List.take_length] at bytes
  have length : b.length = a.length := by
    rw [whole] at lengths
    unfold readLen at lengths
    rw [if_neg (by omega)] at lengths
    split at lengths <;> omega
  rw [bytes, ← length, List.take_length]

/-! ## The trace of a failed copy -/

/-- The state when buffers have been evicted: a block that is not pinned and was not logged is
read from the disk again. -/
def State.evicted (s t : State Pid) (p : Pid) (pinned : Nat → Bool) : State Pid :=
  { t with disk := fun b => if pinned b ∨ b ∈ t.logged p then t.disk b else s.disk b }

/-- Whichever buffers stay in the cache, later reads find the old content with the first `tot`
bytes of the source at the offset. -/
def NoTrace (sb : Super) (p : Pid) (e : Fin NINODE) (s t : State Pid) (old : List UInt8)
    (src : Source) (off tot : Nat) : Prop :=
  ∀ pinned, Reads sb p e (s.evicted t p pinned) (overwrite old off (src.bytes 0 tot))

theorem Writing.resize {k : Nat} (now : Writing n n' src off k)
    (full : src.Full) (f : Dinode → Dinode) (i : Nat) (below : i < max n.size (off + tot))
    (le : tot ≤ k) :
    (n'.setD f).byte i = if off ≤ i ∧ i < off + k then src.byte (i - off) else n.byte i := by
  rw [byte_setD]
  exact now.bytes full i (by omega)

theorem run_writei {n : Nat} (now : Now sb p s l w) (viewed : l.view e = some v)
    (owned : v.owned = true) (op : l.op = true) (readable : v.node.Readable)
    (type : v.node.d.type ≠ 0)
    (small : n < 2 ^ 32) (ran : (writei sb p e src off n).run s = .ok t (tot : Int)) :
    ∃ n' n₁ k w', off ≤ v.node.size ∧ off + tot ≤ MAXFILE * BSIZE ∧
      Now sb p t (l.setView e { v with disk := n'.d, node := n' }) w' ∧
      Written v.node n₁ src.whole off tot ∧ n'.d = n₁.d ∧ n'.slots = n₁.slots ∧
      (∀ pos, pos ≠ posOf ((off + tot) / BSIZE) → n'.data pos = n₁.data pos) ∧
      (∀ i < max v.node.size (off + tot), n'.byte i =
        if off ≤ i ∧ i < off + (tot + k) then src.byte (i - off) else v.node.byte i) ∧
      (src.fails off n = some (tot, k) ∨
        (k = 0 ∧ ∀ c part, src.fails off n = some (c, part) → v.node.size ≤ off + c)) ∧
      LogsBut p (n'.slots (posOf ((off + tot) / BSIZE)))
        (n₁.data (posOf ((off + tot) / BSIZE))) s t := by
  have limit := maxfile_lt
  have size_le := readable.size_le
  have fields : (s.itable e).d.size.toNat = v.node.size := by
    obtain ⟨gs, rfl, N, own, core, -⟩ := now.inv
    rw [((core.agrees viewed).mem owned).2, Node.size]
  unfold writei at ran
  rw [run_then run_getInode, fields] at ran
  by_cases refused : v.node.size < off ∨ (off + n) % 2 ^ 32 < off
  · rw [if_pos refused] at ran
    injection ran with _ result
    cases result
  rw [if_neg refused] at ran
  by_cases large : MAXFILE * BSIZE < (off + n) % 2 ^ 32
  · rw [if_pos large] at ran
    injection ran with _ result
    cases result
  rw [if_neg large] at ran
  have fit : off + n ≤ MAXFILE * BSIZE := by omega
  obtain ⟨s₁, r, n', n₁, k, w', loop, le, now₁, ends⟩ := run_writeiLoop owned op fit n 0 (by omega)
    (Nat.zero_le _) viewed now (.start readable (by omega) src.whole)
  rw [Nat.add_zero] at loop
  rw [run_then loop] at ran
  generalize grow : (fun d : Dinode =>
    if d.size.toNat < off + r then { d with size := UInt32.ofNat (off + r) } else d) = f at ran
  have typed : (f n'.d).type = n'.d.type := by
    rw [← grow]
    show (ite _ _ _ : Dinode).type = _
    split <;> rfl
  obtain ⟨s₂, _, _, _, second, now₂, rfl, rfl⟩ := now₁.run
    (frame_calm (steps_setDinodeMem (permits_frame (p := p)) e f))
    (safe_setDinodeMem (v := { v with node := n' }) view_set owned f (.inl typed))
  have logs₂ := logs_of_run (steps_setDinodeMem (permits_logs (p := p)) e f) second
  rw [run_then second] at ran
  have kind : (n'.setD f).d.type ≠ 0 := by
    rw [d_setD, typed, ends.fields, ends.whole.fields]
    exact type
  obtain ⟨s₃, _, _, _, third, now₃, rfl, rfl⟩ := now₂.run (frame_calm (frame_iupdate e))
    (safe_iupdate (v := { v with node := n'.setD f }) (by simp) owned op kind)
  have logs₃ := logs_of_run (logs_iupdate e) third
  rw [run_then third] at ran
  injection ran with state result
  obtain rfl : s₃ = t := state
  obtain rfl : r = tot := by exact_mod_cast result
  have written := ends.whole.finish size_le (by omega)
  rw [grow] at written
  rw [setView_twice, setView_twice] at now₃
  refine ⟨n'.setD f, n₁.setD f, k, _, by omega, by omega, now₃, written, ?_, ends.slots, ends.data,
    fun i below =>
      ends.torn.resize (fun _ _ => rfl) f i below (Nat.le_add_right ..), ends.count, ?_⟩
  · rw [d_setD, d_setD, ends.fields]
  · exact Logs.after (Logs.after ends.logs logs₂) logs₃

variable {bn : Nat}

theorem readable_congr (readable : n.Readable) (fields : n'.d = n.d)
    (slots : n'.slots = n.slots) (data : ∀ pos, pos ≠ posOf bn → n'.data pos = n.data pos) :
    n'.Readable := by
  have size : n'.size = n.size := by rw [Node.size, fields, Node.size]
  refine ⟨⟨fun i => ?_, fun k bound => ?_, fun pos past => ?_⟩, fun b below => ?_, ?_⟩
  · rw [slots, fields]
    exact readable.stable.addrs i
  · rw [slots, data NDIRECT (posOf_ne_indirect bn).symm]
    exact readable.stable.entries k bound
  · rw [slots]
    exact readable.stable.past pos past
  · rw [slots]
    exact readable.covered b (by rwa [← size])
  · rw [size]
    exact readable.size_le

/-- Later reads see the part that the failing copy has left, or do not. -/
theorem evicted_reads {n₁ : Node} (now : Now sb p t l w) (viewed : l.view e = some v)
    (owned : v.owned = true) (node : v.node = n') (readable : n₁.Readable) (fields : n'.d = n₁.d)
    (slots : n'.slots = n₁.slots) (data : ∀ pos, pos ≠ posOf bn → n'.data pos = n₁.data pos)
    (logs : LogsBut p (n'.slots (posOf bn)) (n₁.data (posOf bn)) s t) :
    (∀ pinned, Reads sb p e (s.evicted t p pinned) n'.content ∨
      Reads sb p e (s.evicted t p pinned) n₁.content) ∧
      Reads sb p e (s.evicted t p fun _ => true) n'.content := by
  subst node
  have block : ∀ {pos}, v.node.slots pos ≠ 0 → t.disk (v.node.slots pos) = v.node.data pos :=
    fun used => now.block viewed owned used
  have mem : (t.itable e).d = v.node.d := by
    obtain ⟨gs, rfl, N, own, core, -⟩ := now.inv
    exact ((core.agrees viewed).mem owned).2
  have apart : ∀ {pos pos'}, v.node.slots pos ≠ 0 → v.node.slots pos = v.node.slots pos' →
      pos = pos' := by
    intro pos pos' used same
    obtain ⟨gs, rfl, N, own, core, -⟩ := now.inv
    have node := (core.agrees viewed).node owned
    have first := (core.blocks.node (v.node.slots pos) v.inum pos).mpr ⟨by rw [node], used⟩
    have second := (core.blocks.node (v.node.slots pos) v.inum pos').mpr ⟨by rw [node, same], used⟩
    rw [first] at second
    injection second
  have others : ∀ pinned pos, pos ≠ posOf bn → v.node.slots pos ≠ 0 →
      (s.evicted t p pinned).disk (v.node.slots pos) = v.node.data pos := by
    intro pinned pos other used
    simp only [evicted]
    split
    next => exact block used
    next gone =>
      rcases logs.same (v.node.slots pos) fun logged => gone (.inr logged) with same | ⟨here, -⟩
      · rw [← same]
        exact block used
      · exact absurd (apart used here) other
  have torn := readable_congr readable fields slots data
  refine ⟨fun pinned => ?_, StandsFor.reads ⟨torn, mem, fun pos used => ?_⟩⟩
  · by_cases seen : v.node.slots (posOf bn) ≠ 0 →
      (s.evicted t p pinned).disk (v.node.slots (posOf bn)) = v.node.data (posOf bn)
    · refine .inl (StandsFor.reads ⟨torn, mem, fun pos used => ?_⟩)
      by_cases here : pos = posOf bn
      · subst here
        exact seen used
      · exact others pinned pos here used
    · obtain ⟨used, differs⟩ := Classical.not_imp.mp seen
      refine .inr (StandsFor.reads ⟨readable, mem.trans fields, fun pos used' => ?_⟩)
      rw [← slots] at used' ⊢
      by_cases here : pos = posOf bn
      · subst here
        simp only [evicted] at differs ⊢
        split at differs
        next => exact absurd (block used) differs
        next gone =>
          rw [if_neg gone]
          rcases logs.same (v.node.slots (posOf bn)) fun logged => gone (.inr logged) with same |
            ⟨-, old⟩
          · rw [← same] at differs
            exact absurd (block used) differs
          · exact old
      · rw [others pinned pos here used', data pos here]
  · simp only [evicted, true_or, if_true]
    exact block used

theorem Node.content_inj {m : Node} (size : n.size = m.size) :
    n.content = m.content ↔ ∀ i < m.size, n.byte i = m.byte i := by
  unfold Node.content Node.bytes
  rw [size]
  constructor
  · intro same i below
    have byte := congrArg (fun list => list[i]?) same
    simpa [below] using byte
  · intro same
    apply List.map_congr_left
    intro i below
    rw [Nat.zero_add]
    exact same i (List.mem_range.mp below)

/-- **A failed copy leaves a trace** exactly when it puts a byte below the end of the file that
is not the one that was there. -/
theorem failed_copy_iff {n : Nat} {old : List UInt8} (now : Now sb p s l w)
    (viewed : l.view e = some v) (owned : v.owned = true) (op : l.op = true) (good : v.node.Good sb)
    (type : v.node.d.type ≠ 0) (before : Reads sb p e s old) (small : n < 2 ^ 32)
    (ran : (writei sb p e src off n).run s = .ok t (tot : Int)) :
    NoTrace sb p e s t old src off tot ↔ ∀ c part, src.fails off n = some (c, part) →
      ∀ j < part, off + c + j < old.length → src.byte (c + j) = old.getD (off + c + j) 0 := by
  have limit := maxfile_lt
  have size_le := good.size_le
  obtain rfl : v.node.content = old := by
    refine Reads.unique
      (StandsFor.reads ⟨good.readable, ?_, fun pos used => now.block viewed owned used⟩)
      before (by rw [Node.length_content]; omega)
    obtain ⟨gs, rfl, N, own, core, -⟩ := now.inv
    exact ((core.agrees viewed).mem owned).2
  obtain ⟨n', n₁, k, w', within, fits, after, written, fields, slots, data, bytes, count, logs⟩ :=
    run_writei now viewed owned op good.readable type small ran
  obtain ⟨either, cached⟩ := evicted_reads after Local.view_set owned rfl written.readable fields
    slots data logs
  have whole := written.content (show src.whole.Full from fun _ _ => rfl) within
  have expected : n₁.content = overwrite v.node.content off (src.bytes 0 tot) := whole
  have size : n'.size = n₁.size := by rw [Node.size, fields, Node.size]
  have same : NoTrace sb p e s t v.node.content src off tot ↔ n'.content = n₁.content := by
    unfold NoTrace
    rw [← expected]
    constructor
    · intro clean
      refine Reads.unique cached (clean _) ?_
      rw [Node.length_content, size, written.size]
      omega
    · intro equal pinned
      rcases either pinned with torn | whole
      · rwa [equal] at torn
      · exact whole
  have old : ∀ i < v.node.size, v.node.content.getD i 0 = v.node.byte i := by
    intro i below
    simp [Node.content, Node.bytes, List.getD_eq_getElem?_getD, below]
  rw [same, Node.content_inj size, Node.length_content]
  have after : ∀ i < n₁.size, n₁.byte i =
      if off ≤ i ∧ i < off + tot then src.byte (i - off) else v.node.byte i := fun i below =>
    written.bytes (fun _ _ => rfl) i below
  rw [written.size] at after ⊢
  constructor
  · intro equal c part fails j bound visible
    obtain here | ⟨-, past⟩ := count
    · obtain ⟨rfl, rfl⟩ : tot = c ∧ k = part := by simpa using here.symm.trans fails
      have byte := equal (off + tot + j) (by omega)
      rw [bytes _ (by omega), after _ (by omega), if_pos (by omega), if_neg (by omega)] at byte
      rw [old _ visible, ← byte]
      congr 1
      omega
    · have beyond := past c part fails
      omega
  · intro clean i below
    rw [bytes i below, after i below]
    by_cases inside : off ≤ i ∧ i < off + tot
    · rw [if_pos inside, if_pos (by omega)]
    · rw [if_neg inside]
      by_cases torn : off ≤ i ∧ i < off + (tot + k)
      · rw [if_pos torn]
        obtain here | ⟨rfl, -⟩ := count
        · have byte := clean tot k here (i - (off + tot)) (by omega) (by omega)
          have index : off + tot + (i - (off + tot)) = i := by omega
          rw [index, old i (by omega)] at byte
          rw [← byte]
          congr 1
          omega
        · omega
      · rw [if_neg torn]

/-- A source of two nines of which the second one is on a page that is not mapped. -/
def pageEnd : Source := .user (fun page => page = 0) (fun _ => 9) 4095

/-- The process has locked the inode of the file of sevens. -/
def writing : State (Fin 2) :=
  match (do beginOp 0; ilock small 0 1 : Kernel (Fin 2) Unit).run (reached written).shared with
  | .ok t _ => t
  | _ => smallState

/-- The nine is put where there was a seven. -/
theorem failed_copy_iff_written : ∃ (t : State (Fin 2)) (old : List UInt8) (tot : Nat),
    Reads small 0 1 writing old ∧ old.head? = some 7 ∧
    (writei small 0 1 pageEnd 0 2).run writing = .ok t (tot : Int) ∧
    ¬ NoTrace small 0 1 writing t old pageEnd 0 tot := by
  obtain ⟨N, own, core⟩ := core_between_calls small_boot (undisturbed_of_sequence small_boot
    (run_reached written (by decide +kernel))) fun q =>
      Option.isNone_iff_eq_none.mp (by revert q; decide +kernel)
  have file : ((reached written).shared.procs 0).state = .runnable ∧
      ((reached written).shared.procs 0).ofile 0 = some 0 ∧
      ((reached written).shared.ftable 0).type = .inode ∧
      ((reached written).shared.ftable 0).ip = 1 := by decide +kernel
  obtain ⟨clean, settled, now⟩ := core.now (p := 0) file.1
  have owns := Local.own_of_fd settled.proc file.2.1 (by rw [clean.files 0])
  obtain ⟨s₁, _, _, _, first, now₁, rfl, rfl⟩ :=
    now.run (frame_calm frame_beginOp) (safe_beginOp clean.op)
  obtain ⟨s₂, v, second, -, -, now₂, locked⟩ := run_ilock_file (i := 0)
    (f := (reached written).shared.ftable 0) now₁ trivial clean.running clean.fresh (clean.view 0)
    owns rfl (by rw [file.2.2.1]; decide)
  rw [file.2.2.2] at second now₂ locked
  obtain rfl : writing = s₂ := by
    rw [writing, run_then first, second]
  obtain ⟨t, r, _, _, ran, -, ⟨-, refused, -⟩ | ⟨-, tot, -, rfl, -⟩⟩ := now₂.run
    (frame_calm (frame_writei 1 pageEnd 0 2)) (safe_writei Local.view_set locked.owned rfl
      locked.good.readable locked.type pageEnd (by decide))
  · exact absurd refused (by unfold Refused MAXFILE NDIRECT NINDIRECT BSIZE; omega)
  · have before : Reads small 0 1 writing v.node.content := by
      refine StandsFor.reads ⟨locked.good.readable, ?_, fun pos used =>
        now₂.block Local.view_set locked.owned used⟩
      obtain ⟨gs, own, N, owner, core, -⟩ := now₂.inv
      exact ((core.agrees (p := 0) (e := 1) (v := v) (by rw [own]; exact Local.view_set)).mem
        locked.owned).2
    have read : (match (readi small 0 1 (fun _ _ => true) 0 1).run writing with
      | .ok _ r => r.2
      | _ => []) = [7] := by decide +kernel
    rw [before 0 1 (by decide), List.drop_zero] at read
    obtain ⟨rest, content⟩ : [7] <+: v.node.content := read ▸ List.take_prefix _ _
    refine ⟨t, v.node.content, tot, before, by rw [← content]; rfl, ran, fun clean => ?_⟩
    have byte := (failed_copy_iff now₂ Local.view_set locked.owned rfl locked.good locked.type
      before (by decide) ran).mp clean 0 1 (by decide) 0 (by decide)
    rw [← content] at byte
    exact absurd (byte (Nat.succ_pos _)) (show (9 : UInt8) ≠ 7 by decide)

/-- Two sevens are written to a file, and then, from its beginning, the bytes of `pageEnd`; and
the file is read before and after. -/
def tornWrite : Kernel (Fin 2) (List (Result (Fin 2))) := do
  let _ ← sysOpen small 0 (some [slash, 97]) (O_CREATE ||| O_RDWR)
  let first ← sysWrite small 0 0 sevens 2 none
  let _ ← sysOpen small 0 (some [slash, 97]) O_RDWR
  let before ← sysRead small 0 1 (fun _ _ => true) 2 none
  let _ ← sysOpen small 0 (some [slash, 97]) O_RDWR
  let second ← sysWrite small 0 2 pageEnd 2 none
  let _ ← sysOpen small 0 (some [slash, 97]) O_RDWR
  let after ← sysRead small 0 3 (fun _ _ => true) 2 none
  return [first, before, second, after]

/-- The second write fails without a byte written, and the file has one of its bytes. -/
theorem failed_copy_shows : ∃ t, tornWrite.run smallState =
    .ok t [.int 2, .data 2 [7, 7], failed, .data 2 [9, 7]] :=
  ⟨_, rfl⟩

end Xv6.Fs
