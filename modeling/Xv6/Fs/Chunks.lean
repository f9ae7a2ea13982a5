import Xv6.Fs.Sequential

/-!
# Writing in chunks

`filewrite` splits a write into chunks, each in a transaction of its own, and returns the
number of bytes or -1. What it leaves in the file is what one write of the first `k` bytes
would leave, and the offset has moved by `k` (`chunked_write`).
-/

namespace Xv6.Fs

open Function Local

variable {Pid : Type} [DecidableEq Pid] [Fintype Pid] {sb : Super} {p : Pid} {s : State Pid}
  {l : Local Pid} {w : Option World} {W : World} {i : Fin NFILE} {f : File} {e : Fin NINODE}
  {v : View}
  {src : Source} {off : Nat} {old : List UInt8} {j : Nat}

/-- The process has opened the file for writing. -/
structure Local.Writes (l : Local Pid) (i : Fin NFILE) (f : File) : Prop where
  owns : l.OwnFile i
  known : l.file i = some f
  opened : f.type ≠ .none
  writable : f.writable = true

theorem Now.file (now : Now sb p s l w) (owns : l.OwnFile i) (known : l.file i = some f) :
    (s.ftable i).Same f := by
  obtain ⟨gs, rfl, N, own, core, -⟩ := now.inv
  exact core.file_same known owns

/-! ## One chunk -/

theorem untyped_of_ilock (stopped : (ilock sb p e).run s = .panic .ilockNoType) :
    0 < (s.itable e).ref ∧ (s.itable e).lock = none ∧
      (dinodeAt sb s.disk (s.itable e).inum).type = 0 := by
  have ends : ((acquireInode p e).bind fun _ => loadInode sb e).run s = .panic .ilockNoType :=
    stopped
  rw [Prog.run_bind, acquireInode, Prog.run_atomic] at ends
  by_cases used : (s.itable e).ref < 1
  · rw [if_pos used] at ends
    cases ends
  · by_cases free : (s.itable e).lock = none
    · rw [if_neg used, if_pos free] at ends
      simp only [loadInode, Prog.run_atomic, State.itable_setInode_self] at ends
      by_cases valid : (s.itable e).valid = true
      · rw [if_pos valid] at ends
        cases ends
      · rw [if_neg valid] at ends
        by_cases zero : (dinodeAt sb s.disk (s.itable e).inum).type = 0
        · exact ⟨by omega, free, zero⟩
        · have nonzero : ¬ (dinodeAt sb (s.setInode e fun ip => { ip with lock := some p }).disk
            (s.itable e).inum).type = 0 := zero
          rw [if_neg nonzero] at ends
          cases ends
    · rw [if_neg used, if_neg free] at ends
      cases ends

/-- A process that runs alone locks the inode of an open file. -/
theorem run_ilock_file (now : Now sb p s l (some W)) (quiet : W.quiet) (running : l.running = true)
    (fresh : l.fresh = none) (unlocked : l.view f.ip = none) (owns : l.OwnFile i)
    (known : l.file i = some f) (opened : f.type ≠ .none) :
    ∃ t v, (ilock sb p f.ip).run s = .ok t () ∧ Frame s t ∧ v.inum = (s.itable f.ip).inum ∧
      Now sb p t (l.setView f.ip v) (some W) ∧ Locked sb l (some W) f.ip v := by
  have safe : (theory sb (alone (· = .ilockNoType))).Safe p (ilock sb p f.ip) l (some W) _ :=
    safe_ilock
    (.inr ⟨i, f, known, owns, opened, rfl⟩) (.inr unlocked) running (.inr ⟨W, rfl, quiet⟩)
      (.inl rfl)
  obtain ⟨t, _, l', w', ended, after, rfl, -, v, -, rfl, locked⟩ | ⟨why, stopped, rfl⟩ :=
    now.outcome (frame_calm (frame_ilock f.ip)) safe
  · rw [lock_eq fresh] at after
    have frame := frame_of_run (frame_ilock f.ip) ended
    refine ⟨t, v, ended, frame, ?_, after, locked⟩
    obtain ⟨gs, own, N, owner, core, -⟩ := after.inv
    rw [← frame.inum, (core.agrees (p := p) (e := f.ip) (v := v)
      (by rw [own]; exact view_set)).inum]
  · -- the inode of an open file has a type, on the disk as well
    obtain ⟨used, free, zero⟩ := untyped_of_ilock stopped
    obtain ⟨gs, rfl, N, owner, core, -⟩ := now.inv
    have same := core.file_same known owns
    have typed := (core.files.kind i (by rw [same.type]; exact opened)).1
    obtain ⟨-, -, bound⟩ := core.table.entry f.ip used
    obtain ⟨fields, -⟩ := core.pool _ bound (core.not_held used free)
    rw [same.ip, ← fields] at typed
    exact absurd zero typed

/-- The end of a chunk: the inode is unlocked, and the transaction is over. -/
theorem run_unlock {v : View} (now : Now sb p s (({ l with op := true } : Local Pid).setView e v) w)
    (clean : l.Clean) (settled : Settled sb v) (r : Int) :
    ∃ t, (iunlock p e >>= fun _ => endOp >>= fun _ => pure r).run s = .ok t r ∧ Frame s t ∧
      Now sb p t l (withNode w v.inum v.node) := by
  obtain ⟨t, _, _, _, first, now, rfl, rfl⟩ := now.run (frame_calm (frame_iunlock e))
    (safe_iunlock view_set settled clean.loose)
  rw [unview_setView (l := { l with op := true }) (clean.view e)] at now
  obtain ⟨u, _, _, _, second, now, rfl, rfl⟩ := now.run (frame_calm frame_endOp) (safe_endOp rfl)
  refine ⟨u, ?_, (frame_of_run (frame_iunlock e) first).trans (frame_of_run frame_endOp second), ?_⟩
  · rw [Prog.run_then first, Prog.run_then second]
    rfl
  · have same : ({ l with op := false } : Local Pid) = l := by rw [← clean.op]
    rwa [same] at now

/-- What a chunk does to the node of the inode and to the offset. -/
def Chunk (sb : Super) (n n' : Node) (free : Nat → Prop) (src : Source) (off off' n1 : Nat)
    (r : Int) : Prop :=
  (r = -1 ∧ Refused n.size off n1 ∧ n' = n ∧ off' = off) ∨
    (¬ Refused n.size off n1 ∧ ∃ tot ≤ n1, r = tot ∧ Written n n' src off tot ∧ off' = off + tot ∧
      (tot < n1 → ∀ c < sb.size, ¬ free c))

theorem run_filewriteChunk (now : Now sb p s l (some W)) (quiet : W.quiet) (clean : l.Clean)
    (file : l.Writes i f) (full : src.Full) {n1 : Nat} (small : n1 < 2 ^ 31) :
    ∃ t r W', (filewriteChunk sb p i src n1).run s = .ok t r ∧ Now sb p t l (some W') ∧ W'.quiet ∧
      (t.itable f.ip).inum = (s.itable f.ip).inum ∧
      (W.node (s.itable f.ip).inum).size ≤ MAXFILE * BSIZE ∧
      Chunk sb (W.node (s.itable f.ip).inum) (W'.node (s.itable f.ip).inum) W'.free src
        (s.ftable i).off (t.ftable i).off n1 r := by
  obtain ⟨owns, known, opened, writable⟩ := file
  obtain ⟨s₁, _, _, _, first, now₁, rfl, rfl⟩ := now.run (frame_calm frame_beginOp)
    (safe_beginOp clean.op)
  have frame₁ := frame_of_run frame_beginOp first
  obtain ⟨s₂, v, second, frame₂, inum, now₂, locked⟩ := run_ilock_file now₁ quiet clean.running
    clean.fresh (clean.view f.ip) owns known opened
  have frame := frame₁.trans frame₂
  rw [frame₁.inum] at inum
  have same₁ := now₁.file (i := i) (f := f) owns known
  have same₂ := now₂.file (i := i) (f := f) owns known
  have off : (s₂.ftable i).off = (s.ftable i).off := by rw [frame.ftable]
  have node : v.node = W.node (s.itable f.ip).inum := by rw [← inum]; exact locked.node W rfl
  have size_le : (W.node (s.itable f.ip).inum).size ≤ MAXFILE * BSIZE := by
    rw [← node]
    exact locked.good.size_le
  unfold filewriteChunk
  rw [Prog.run_then first, Prog.run_then (show (getFile i).run s₁ = .ok s₁ (s₁.ftable i) from rfl),
    same₁.ip, Prog.run_then second,
    Prog.run_then (show (getFile i).run s₂ = .ok s₂ (s₂.ftable i) from rfl), same₂.ip, off]
  obtain ⟨s₃, r, _, _, third, now₃, cases⟩ := now₂.run
    (frame_calm (frame_writei f.ip src (s.ftable i).off n1))
    (safe_writei view_set locked.owned rfl
      locked.good.readable locked.type src (show n1 < 2 ^ 32 by omega))
  have frame₃ := frame_of_run (frame_writei f.ip src _ n1) third
  rw [Prog.run_then third]
  obtain ⟨rfl, refused, rfl, rfl⟩ |
    ⟨accepted, tot, le, rfl, n', F, rfl, rfl, written, rest, -⟩ := cases
  · obtain ⟨t, last, frame₄, now₄⟩ := run_unlock now₃ clean locked.settled (-1)
    rw [if_neg (by decide)]
    have whole := (frame.trans frame₃).trans frame₄
    refine ⟨t, -1, _, last, now₄, quiet, whole.inum f.ip, size_le,
      .inl ⟨rfl, ?_, ?_, by rw [whole.ftable]⟩⟩
    · rwa [← node]
    · rw [← inum] at node ⊢
      simp only [update_self, node]
  · have type : n'.d.type = v.node.d.type := by rw [written.fields]
    have settled : Settled sb { v with disk := n'.d, node := n' } := by
      refine ⟨locked.owned, rfl,
        written.readable.good (by rw [type]; exact locked.type) fun dir => ?_⟩
      exact absurd (type.symm.trans dir) (locked.file i f known owns opened rfl writable)
    rw [setView_twice] at now₃
    have moved : ∀ u, Frame s₃ u → (u.itable f.ip).inum = (s.itable f.ip).inum := fun u after =>
      ((frame.trans frame₃).trans after).inum f.ip
    have after : ∀ off', off' = (s.ftable i).off + tot → Chunk sb (W.node (s.itable f.ip).inum)
        (update W.node v.inum n' (s.itable f.ip).inum) F src (s.ftable i).off off' n1 tot := by
      intro off' same
      refine .inr ⟨by rwa [← node], tot, le, rfl, ?_, same, rest full⟩
      rw [← inum, update_self, inum, ← node]
      exact written
    by_cases some : 0 < (tot : Int)
    · rw [if_pos some]
      have wide : (s.ftable i).off + tot < 2 ^ 32 := by
        have limit := maxfile_lt
        have size_le := locked.good.size_le
        unfold Refused at accepted
        omega
      obtain ⟨s₄, _, _, _, fourth, now₄, rfl, rfl⟩ := now₃.run
        (show (setFile i fun f => { f with off := (f.off + (tot : Int).toNat) % 2 ^ 32 } :
          Kernel Pid Unit).Steps Calm from .atomic fun s t _ done => by cases done; exact id)
        (safe_setOffset (l := ({ l with op := true } : Local Pid).setView f.ip
          { v with disk := n'.d, node := n' }) owns known opened _)
      rw [Prog.run_then fourth]
      cases fourth
      obtain ⟨t, last, frame₅, now₅⟩ := run_unlock now₄ clean settled tot
      refine ⟨t, tot, _, last, now₅, quiet, (frame₅.inum f.ip).trans (moved s₃ (.refl s₃)),
        size_le, after _ ?_⟩
      rw [frame₅.ftable, State.ftable_setFile_self, (frame.trans frame₃).ftable, Int.toNat_natCast,
        Nat.mod_eq_of_lt wide]
    · rw [if_neg some]
      obtain ⟨t, last, frame₄, now₄⟩ := run_unlock now₃ clean settled tot
      refine ⟨t, tot, _, last, now₄, quiet, moved t frame₄, size_le, after _ ?_⟩
      rw [((frame.trans frame₃).trans frame₄).ftable]
      omega

/-! ## Contents -/

/-- The content with some bytes replaced from an offset on, or appended. -/
def overwrite (old : List UInt8) (off : Nat) (new : List UInt8) : List UInt8 :=
  old.take off ++ new ++ old.drop (off + new.length)

theorem overwrite_nil (old : List UInt8) (off : Nat) : overwrite old off [] = old := by
  simp [overwrite]

theorem length_overwrite (le : off ≤ old.length) (new : List UInt8) :
    (overwrite old off new).length = max old.length (off + new.length) := by
  simp only [overwrite, List.length_append, List.length_take, List.length_drop]
  omega

theorem overwrite_overwrite (le : off ≤ old.length) (first second : List UInt8) :
    overwrite (overwrite old off first) (off + first.length) second =
      overwrite old off (first ++ second) := by
  have front : (old.take off ++ first).length = off + first.length := by
    rw [List.length_append, List.length_take, Nat.min_eq_left le]
  unfold overwrite
  rw [List.take_left' front, ← List.drop_drop, List.drop_left' front, List.drop_drop,
    List.length_append, List.append_assoc _ first second, Nat.add_assoc]

theorem Node.length_content (n : Node) : n.content.length = n.size := n.length_bytes 0 n.size

theorem Source.bytes_drop (src : Source) (k m : Nat) :
    src.bytes 0 k ++ (src.drop k).bytes 0 m = src.bytes 0 (k + m) := by
  unfold Source.bytes Source.drop
  rw [List.range_add, List.map_append, List.map_map]
  simp only [Nat.zero_add, comp_def]

theorem Written.content {n n' : Node} {tot : Nat} (full : src.Full)
    (le : off ≤ n.size) (written : Written n n' src off tot) :
    n'.content = overwrite n.content off (src.bytes 0 tot) := by
  have length := src.length_bytes 0 tot
  apply List.ext_getElem
  · rw [length_overwrite (by rwa [Node.length_content]), Node.length_content, Node.length_content,
      written.size, length]
  · intro i left right
    rw [Node.length_content] at left
    have byte := written.bytes full i left
    have here : n'.content[i] = n'.byte i := by simp [Node.content, Node.bytes]
    have size := written.size
    rw [here, byte]
    simp only [overwrite, List.getElem_append, List.length_append, List.length_take,
      Node.length_content, length, Nat.min_eq_left le]
    by_cases before : i < off
    · rw [if_neg (by omega), dif_pos (by omega), dif_pos before]
      simp [Node.content, Node.bytes]
    · by_cases inside : i < off + tot
      · rw [if_pos ⟨by omega, inside⟩, dif_pos inside, dif_neg before]
        simp [Source.bytes]
      · rw [if_neg (by omega), dif_neg inside]
        simp only [List.getElem_drop, Node.content, Node.bytes, List.getElem_map,
          List.getElem_range,
          Nat.zero_add]
        congr 1
        omega

/-- The content on the disk is that of the node, where nobody has locked the inode. -/
theorem content_nodeAt {gs : Pid → Local Pid} {N : Nat → Node} {own : Nat → Owner Pid}
    (core : Core sb s gs N own) (bound : j < sb.ninodes) (free : ¬ Held (fun q => (gs q).view) j) :
    (nodeAt sb s.disk j).content = (N j).content := by
  obtain ⟨fields, good⟩ := core.pool j bound free
  have slots := slots_nodeAt core.blocks good.stable fields
  have size : (nodeAt sb s.disk j).size = (N j).size :=
    congrArg (fun d : Dinode => d.size.toNat) fields
  unfold Node.content
  rw [size]
  refine Node.bytes_congr fun i below => ?_
  have used := (good.readable.block (show 0 + i < (N j).size by omega)).2
  have data : (nodeAt sb s.disk j).data (posOf ((0 + i) / BSIZE)) =
      (N j).data (posOf ((0 + i) / BSIZE)) := by
    rw [← core.blocks.content j _ used, ← slots]
    rfl
  rw [Node.byte, data, Node.byte]

/-- Nobody has locked the inode when a process runs alone and has no lock. -/
theorem Now.content (now : Now sb p s l (some W)) (quiet : W.quiet) (clean : l.Clean)
    (bound : j < sb.ninodes) : (nodeAt sb s.disk j).content = (W.node j).content := by
  obtain ⟨gs, rfl, N, own, core, known⟩ := now.inv
  have world := known W rfl
  have free : ¬ Held (fun q => (gs q).view) j := by
    rintro ⟨q, e, v, viewed, -, -⟩
    have viewed : (gs q).view e = some v := viewed
    have mine : q = p :=
      world.alone quiet q p (core.active q e (by rw [viewed]; nofun)) clean.running
    rw [mine, clean.view e] at viewed
    cases viewed
  rw [content_nodeAt core bound free, world.node j bound free]

def DiskFull (sb : Super) (disk : Nat → Block) : Prop := ∀ b < sb.size, used sb disk b = true

theorem Now.full (now : Now sb p s l (some W)) (none : ∀ b < sb.size, ¬ W.free b) :
    DiskFull sb s.disk := by
  obtain ⟨gs, rfl, N, own, core, known⟩ := now.inv
  intro b bound
  by_contra unused
  exact none b bound (((known W rfl).free b).mp
    ((core.blocks.free b bound).mp (Bool.not_eq_true _ ▸ unused)))

/-! ## The loop -/

/-- Why a write stops before its end, after `k` bytes. -/
def Stopped (sb : Super) (disk : Nat → Block) (size off n k : Nat) : Prop :=
  DiskFull sb disk ∨ size < off ∨
    (k % maxWrite = 0 ∧ MAXFILE * BSIZE < off + k + min (n - k) maxWrite)

/-- The state after `k` bytes of a write at `off` into a file that had that content. -/
structure WroteUpTo (sb : Super) (p : Pid) (l : Local Pid) (i : Fin NFILE) (e : Fin NINODE)
    (inum : Nat) (old : List UInt8) (src : Source) (off k : Nat) (s : State Pid) (W : World) :
      Prop where
  now : Now sb p s l (some W)
  quiet : W.quiet
  entry : (s.itable e).inum = inum
  content : (W.node inum).content = overwrite old off (src.bytes 0 k)
  moved : (s.ftable i).off = off + k
  within : 0 < k → off ≤ old.length

theorem run_filewriteLoop {inum : Nat} {n done : Nat}
    (clean : l.Clean) (file : l.Writes i f) (full : src.Full) (fuel : Nat)
    (enough : n - done ≤ fuel)
    (le : done ≤ n) (chunks : done % maxWrite = 0 ∨ done = n)
    (so : WroteUpTo sb p l i f.ip inum old src off done s W) :
    ∃ t k W' r, (filewriteLoop sb p i src n fuel done).run s = .ok t r ∧ k ≤ n ∧ (r = n ↔ k = n) ∧
      WroteUpTo sb p l i f.ip inum old src off k t W' ∧
      (k < n → Stopped sb t.disk old.length off n k) := by
  induction fuel generalizing done s W with
  | zero =>
    obtain rfl : done = n := by omega
    exact ⟨s, done, W, done, rfl, le_rfl, .rfl, so, fun less => absurd less (lt_irrefl _)⟩
  | succ fuel ih =>
    unfold filewriteLoop
    by_cases more : done < n
    · rw [if_pos more]
      have aligned : done % maxWrite = 0 := chunks.resolve_right (by omega)
      generalize size : min (n - done) maxWrite = n1
      have limit : maxWrite = 3072 := by decide
      obtain ⟨t, r, W', ran, now, quiet, inum', size_le, chunk⟩ :=
        run_filewriteChunk so.now so.quiet
        clean file (show (src.drop done).Full from fun off m => full (done + off) m)
        (show n1 < 2 ^ 31 by omega)
      rw [so.entry] at inum' size_le chunk
      rw [so.moved] at chunk
      have length := congrArg List.length so.content
      rw [Node.length_content] at length
      have reach : off ≤ old.length → off + done ≤ (W.node inum).size := by
        intro within
        rw [length, length_overwrite within, src.length_bytes]
        omega
      simp only
      rw [Prog.run_then ran]
      obtain ⟨rfl, refused, same, moved⟩ | ⟨accepted, tot, some, rfl, written, moved, rest⟩ := chunk
      · rw [if_neg (by omega)]
        refine ⟨t, done, W', done, rfl, le, .rfl,
          ⟨now, quiet, inum', by rw [same]; exact so.content,
          moved, so.within⟩, fun _ => ?_⟩
        by_cases within : off ≤ old.length
        · have reached := reach within
          have bound : MAXFILE * BSIZE < 2 ^ 31 := by decide
          refine .inr (.inr ⟨aligned, ?_⟩)
          unfold Refused at refused
          omega
        · exact .inr (.inl (by omega))
      · have start : off + done ≤ (W.node inum).size := by
          unfold Refused at accepted
          omega
        have within : off ≤ old.length := by
          rcases Nat.eq_zero_or_pos done with rfl | positive
          · have zero : src.bytes 0 0 = [] := rfl
            rw [zero, overwrite_nil] at length
            omega
          · exact so.within positive
        have content : (W'.node inum).content = overwrite old off (src.bytes 0 (done + tot)) := by
          rw [written.content (fun off m => full (done + off) m) start, so.content,
            ← src.bytes_drop, ← overwrite_overwrite within, src.length_bytes]
        have next : WroteUpTo sb p l i f.ip inum old src off (done + tot) t W' :=
          ⟨now, quiet, inum', content, by rw [moved, Nat.add_assoc], fun _ => within⟩
        by_cases whole : tot = n1
        · subst whole
          rw [if_pos rfl]
          refine ih (by omega) (by omega) ?_ next
          by_cases last : n - done ≤ maxWrite
          · exact .inr (by omega)
          · exact .inl
              (by rw [← size, Nat.min_eq_right (by omega), Nat.add_mod_right]; exact aligned)
        · rw [if_neg (by omega)]
          refine ⟨t, done + tot, W', done, rfl, by omega, by omega, next, fun _ => .inl ?_⟩
          exact now.full (rest (by omega))
    · rw [if_neg more]
      obtain rfl : done = n := by omega
      exact ⟨s, done, W, done, rfl, le_rfl, .rfl, so, fun less => absurd less (lt_irrefl _)⟩

/-- A write leaves the content with the first `k` bytes of the source at the offset, and the
offset moved by `k`. It returns the number of bytes if `k` is all of them, and -1 otherwise;
`k` is less only if the disk is full, or the offset was beyond the end, or the next chunk would
be too large for a file. -/
def WritesPrefix (sb : Super) (p : Pid) (i : Fin NFILE) (src : Source) (n : Nat)
    (device : Option Int) (s : State Pid) : Prop :=
  ∃ t k, (filewrite sb p i src n device).run s = .ok t (if k = n then .int n else failed) ∧ k ≤ n ∧
    (nodeAt sb t.disk (s.itable (s.ftable i).ip).inum).content =
      overwrite (nodeAt sb s.disk (s.itable (s.ftable i).ip).inum).content (s.ftable i).off
        (src.bytes 0 k) ∧
    (t.ftable i).off = (s.ftable i).off + k ∧
    (k < n → Stopped sb t.disk (nodeAt sb s.disk (s.itable (s.ftable i).ip).inum).size
      (s.ftable i).off n k)

/-- **A write in chunks is a write**, to a file that is open for writing, from a consistent
state in which no call is going on. -/
theorem chunked_write {N : Nat → Node} {own : Nat → Owner Pid}
    (core : Core sb s (fun _ => Local.idle) N own) (runs : (s.procs p).state = .runnable)
    {fd : Fin NOFILE} (here : (s.procs p).ofile fd = some i) (type : (s.ftable i).type = .inode)
    (writable : (s.ftable i).writable = true) {src : Source} (full : src.Full) (n : Nat)
    (device : Option Int) : WritesPrefix sb p i src n device s := by
  obtain ⟨clean, settled, now⟩ := core.now (p := p) runs
  generalize started : Local.started s p = l at clean settled now
  have known : l.file i = some (s.ftable i) := by rw [← started]; rfl
  have opened : (s.ftable i).type ≠ .none := by rw [type]; nofun
  have owns := Local.own_of_fd settled.proc here (by rw [clean.files i])
  have bound : (s.itable (s.ftable i).ip).inum < sb.ninodes := by
    have file : fileRef (s.ftable i) (s.ftable i).ip = 1 := if_pos ⟨opened, rfl⟩
    exact (core.table.entry _ (core.refs.ref_pos_of_file file)).2.2
  have before := now.content trivial clean bound
  have start : WroteUpTo sb p l i (s.ftable i).ip (s.itable (s.ftable i).ip).inum
      (nodeAt sb s.disk (s.itable (s.ftable i).ip).inum).content src (s.ftable i).off 0 s
      ⟨N, fun b => own b = .free, True⟩ :=
    ⟨now, trivial, rfl, by rw [show src.bytes 0 0 = [] from rfl, overwrite_nil, before], rfl, nofun⟩
  obtain ⟨t, k, W', r, ran, le, all, after, stopped⟩ := run_filewriteLoop (n := n) clean
    ⟨owns, known, opened, writable⟩ full n (by omega) (Nat.zero_le _) (.inl (Nat.zero_mod _)) start
  refine ⟨t, k, ?_, le, ?_, after.moved, ?_⟩
  · unfold filewrite
    rw [Prog.run_then (show (getFile i).run s = .ok s (s.ftable i) from rfl), writable,
      if_neg (by decide),
      type]
    simp only [Int.toNat_natCast]
    rw [Prog.run_then ran]
    by_cases whole : k = n
    · rw [if_pos whole, if_pos (by exact_mod_cast all.mpr whole)]
      rfl
    · rw [if_neg whole, if_neg (by exact_mod_cast fun same => whole (all.mp same))]
      rfl
  · rw [after.now.content after.quiet clean bound]
    exact after.content
  · rw [Node.length_content] at stopped
    exact stopped

/-! The file `/a` of the session of `Xv6.Fs.Reach`. -/

theorem core_opened (omode : UInt32)
    (ran : ((opened omode).foldlM nextAlone (Machine.initial smallState)).isSome = true)
    (ended : ∀ q, ((reached (opened omode)).thread q).isNone) :
    ∃ N own, Core small (reached (opened omode)).shared (fun _ => Local.idle) N own :=
  core_between_calls small_boot (undisturbed_of_sequence small_boot (run_reached _ ran)) fun q =>
    Option.isNone_iff_eq_none.mp (ended q)

theorem chunked_write_opened :
    WritesPrefix small 0 0 sevens 4000 none (reached (opened O_RDWR)).shared := by
  obtain ⟨N, own, core⟩ := core_opened O_RDWR (by decide +kernel) (by decide +kernel)
  have file : ((reached (opened O_RDWR)).shared.procs 0).state = .runnable ∧
      ((reached (opened O_RDWR)).shared.procs 0).ofile 0 = some 0 ∧
      ((reached (opened O_RDWR)).shared.ftable 0).type = .inode ∧
      ((reached (opened O_RDWR)).shared.ftable 0).writable = true := by decide +kernel
  exact chunked_write core file.1 file.2.1 file.2.2.1 file.2.2.2 (fun _ _ => rfl) 4000 none

/-- A file that is not open for writing takes nothing, on a disk that is not full. -/
theorem unwritable_write :
    (∃ N own, Core small (reached (opened O_RDONLY)).shared (fun _ => Local.idle) N own) ∧
      ((reached (opened O_RDONLY)).shared.procs 0).ofile 0 = some 0 ∧
      ((reached (opened O_RDONLY)).shared.ftable 0).type = .inode ∧
      ¬ WritesPrefix small 0 0 sevens 1 none (reached (opened O_RDONLY)).shared := by
  refine ⟨core_opened O_RDONLY (by decide +kernel) (by decide +kernel), by decide +kernel,
    by decide +kernel, ?_⟩
  rintro ⟨t, k, run, le, -, -, stopped⟩
  have writable : ((reached (opened O_RDONLY)).shared.ftable 0).writable = false := by
    decide +kernel
  have refused : (filewrite small 0 0 sevens ((1 : Nat) : Int) none).run
      (reached (opened O_RDONLY)).shared = .ok (reached (opened O_RDONLY)).shared failed := by
    refine (Prog.run_then rfl).trans ?_
    rw [writable]
    rfl
  rw [refused] at run
  injection run with state result
  have less : k < 1 := by
    by_contra all
    rw [if_pos (by omega)] at result
    cases result
  obtain rfl : k = 0 := by omega
  rcases stopped less with full | beyond | ⟨-, large⟩
  · have free : used small (reached (opened O_RDONLY)).shared.disk 4 = false := by decide +kernel
    have taken := full 4 (by decide)
    rw [← state, free] at taken
    cases taken
  · exact absurd beyond (Nat.not_lt_zero _)
  · exact absurd large (by decide)

end Xv6.Fs
