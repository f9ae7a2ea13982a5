import Xv6.Fs.Content

/-!
# Reading and writing the content

`readi` gives the bytes of the file and changes nothing. `writei` replaces bytes,
or appends them, up to the first block that cannot be allocated or copied. The
size follows what was written, so that there are no holes after any of the ways
out.
-/

namespace Xv6.Fs

open Node

open Local

variable {Pid : Type} [DecidableEq Pid] [Fintype Pid] {sb : Super} {C : Setting Pid} {p : Pid}
  {l : Local Pid} {w : Option World} {e : Fin NINODE} {v : View} {off tot : Nat} {m : Nat}

/-! ## `readi` -/

/-- The number of bytes that `readi` goes for. -/
def readLen (size off n : Nat) : Nat :=
  if size < off ∨ (off + n) % 2 ^ 32 < off then 0
  else if size < (off + n) % 2 ^ 32 then size - off
  else n

/-- What a node needs for its content to be read. -/
structure Node.Readable (n : Node) : Prop where
  stable : n.Stable
  covered : n.Covered n.size
  size_le : n.size ≤ MAXFILE * BSIZE

variable {n n' : Node}

theorem Node.Good.readable (good : n.Good sb) : n.Readable :=
  ⟨good.stable, good.covered, good.size_le⟩

theorem Node.Readable.block (readable : n.Readable) (below : off < n.size) :
    off / BSIZE < MAXFILE ∧ n.slots (posOf (off / BSIZE)) ≠ 0 := by
  have size_le := readable.size_le
  have := Nat.div_mul_le_self off BSIZE
  refine ⟨Nat.div_lt_of_lt_mul (by rw [Nat.mul_comm]; omega), readable.covered _ (by omega)⟩

section

variable (viewed : l.view e = some v) (owned : v.owned = true) (readable : v.node.Readable)
include viewed owned readable

theorem safe_readiLoop {dst : Nat → Nat → Bool} {n : Nat}
    (inside : off + n ≤ v.node.size) (fuel tot : Nat) (enough : n - tot ≤ fuel) (le : tot ≤ n) :
    Safe sb C p
      (readiLoop sb p e dst n fuel (off + tot) tot (v.node.bytes off tot)) l w fun r l' w' =>
        (l' = l ∧ w' = w) ∧ ∃ k ≤ n, r.2 = v.node.bytes off k ∧ (r.1 = true → k = n) ∧
          ((∀ i m, dst i m = true) → r.1 = true) := by
  induction fuel generalizing tot with
  | zero => exact .pure ⟨⟨rfl, rfl⟩, tot, le, rfl, fun _ => by omega, fun _ => rfl⟩
  | succ fuel ih =>
    unfold readiLoop
    split
    next more =>
      obtain ⟨bound, used⟩ := readable.block (show off + tot < v.node.size by omega)
      refine .seq (safe_bmap_found viewed owned readable.stable bound used) ?_
      rintro _ _ _ ⟨rfl, rfl, rfl⟩
      rw [if_neg used]
      refine .seq (safe_readBlock viewed owned used) ?_
      rintro _ _ _ ⟨rfl, rfl, rfl⟩
      have positive : (off + tot) % BSIZE < BSIZE := Nat.mod_lt _ (by decide)
      generalize size : min (n - tot) (BSIZE - (off + tot) % BSIZE) = m
      simp only
      cases copied : dst tot m with
      | true =>
        rw [if_pos rfl, slice_eq_bytes (by omega), ← bytes_add, Nat.add_assoc]
        exact ih (tot + m) (by omega) (by omega)
      | false =>
        rw [if_neg Bool.false_ne_true]
        refine .pure ⟨⟨rfl, rfl⟩, tot, le, rfl, by simp, fun all => ?_⟩
        rw [all] at copied
        cases copied
    next done => exact .pure ⟨⟨rfl, rfl⟩, tot, le, rfl, fun _ => by omega, fun _ => rfl⟩

/-- `readi` copies the bytes of the file, or the first of them, and changes
nothing. -/
theorem safe_readi (dst : Nat → Nat → Bool) {n : Nat} (small : n < 2 ^ 32) :
    Safe sb C p (readi sb p e dst off n) l w fun r l' w' =>
      (l' = l ∧ w' = w) ∧ (∃ k ≤ readLen v.node.size off n, r.2 = v.node.bytes off k) ∧
        ((∀ i m, dst i m = true) → r = (((readLen v.node.size off n : Nat) : Int),
          v.node.bytes off (readLen v.node.size off n))) := by
  refine .seq (safe_getInode viewed) ?_
  rintro ip l w ⟨⟨-, -, fields⟩, rfl, rfl⟩
  have size : ip.d.size.toNat = v.node.size := by rw [fields owned, Node.size]
  simp only [size]
  unfold readLen
  split
  next => exact .pure ⟨⟨rfl, rfl⟩, ⟨0, le_rfl, rfl⟩, fun _ => rfl⟩
  next legal =>
    have size_le := readable.size_le
    have limit := maxfile_lt
    generalize len : (if v.node.size < (off + n) % 2 ^ 32 then v.node.size - off else n) = m
    have inside : off + m ≤ v.node.size := by
      split at len <;> omega
    refine .seq (safe_readiLoop viewed owned readable inside m 0 (by omega) (Nat.zero_le _)) ?_
    rintro ⟨copied, got⟩ _ _ ⟨⟨rfl, rfl⟩, k, le, rfl, whole, all⟩
    cases copied with
    | true =>
      obtain rfl := whole rfl
      rw [if_pos rfl, length_bytes]
      exact .pure ⟨⟨rfl, rfl⟩, ⟨k, le_rfl, rfl⟩, fun _ => rfl⟩
    | false =>
      rw [if_neg Bool.false_ne_true]
      exact .pure ⟨⟨rfl, rfl⟩, ⟨k, le, rfl⟩, fun always => absurd (all always) Bool.false_ne_true⟩

end

/-! ## `writei` -/

/-- No copy from the source fails. -/
def Source.Full (src : Source) : Prop := ∀ off m, src.fault off m = none

/-- The node after the first `tot` bytes of a write. -/
structure Writing (n n' : Node) (src : Source) (off tot : Nat) : Prop where
  fields : n'.d = { n.d with addrs := n'.d.addrs }
  stable : n'.Stable
  covered : n'.Covered (max n.size (off + tot))
  bytes : src.Full → ∀ i < max n.size (off + tot),
    n'.byte i = if off ≤ i ∧ i < off + tot then src.byte (i - off) else n.byte i

theorem Writing.start (readable : n.Readable) (le : off ≤ n.size)
    (src : Source) : Writing n n src off 0 := by
  have same : max n.size (off + 0) = n.size := by omega
  refine ⟨rfl, readable.stable, ?_, fun _ i _ => ?_⟩
  · rw [same]
    exact readable.covered
  · rw [if_neg (by omega)]

variable {src : Source}

theorem Writing.grow {m m' : Node}
    (now : Writing n m src off tot) (grows : m.Grows m') (stable : m'.Stable) :
    Writing n m' src off tot := by
  refine ⟨?_, stable, grows.covered now.covered, fun full i below => ?_⟩
  · rw [grows.fields, now.fields]
  · rw [grows.byte_eq now.covered below]
    exact now.bytes full i below

theorem Source.length_bytes (src : Source) (off m : Nat) : (src.bytes off m).length = m := by
  simp [Source.bytes]

theorem Source.getD_bytes (src : Source) (off : Nat) {i : Nat} (below : i < m) :
    (src.bytes off m).getD i 0 = src.byte (off + i) := by
  simp [Source.bytes, List.getD_eq_getElem?_getD, below]

theorem Writing.write
    (now : Writing n n' src off tot) (used : n'.slots (posOf ((off + tot) / BSIZE)) ≠ 0)
    (inside : (off + tot) % BSIZE + m ≤ BSIZE) :
    Writing n (n'.put (posOf ((off + tot) / BSIZE)) (n'.slots (posOf ((off + tot) / BSIZE)))
      ((n'.data (posOf ((off + tot) / BSIZE))).writeAt ((off + tot) % BSIZE) (src.bytes tot m)))
      src off (tot + m) := by
  refine ⟨now.fields, now.stable.rewrite _ _, ?_, ?_⟩
  · intro bn below
    rw [slots_put_same]
    by_cases old : bn * BSIZE < max n.size (off + tot)
    · exact now.covered bn old
    · -- the block starts after the old end, so it is the one that is written
      have here : bn = (off + tot) / BSIZE := by
        unfold BSIZE at *
        omega
      rw [here]
      exact used
  · intro full i below
    have length := src.length_bytes tot m
    rw [byte_put_writeAt _ (by rw [length]; exact inside), length]
    split
    next new =>
      rw [if_pos (by omega), src.getD_bytes tot (by omega)]
      congr 1
      omega
    next old =>
      rw [now.bytes full i (by omega)]
      have iff : (off ≤ i ∧ i < off + tot) ↔ (off ≤ i ∧ i < off + (tot + m)) := by omega
      simp only [iff]

theorem Writing.fault {bn : Nat} {block : Block}
    (now : Writing n n' src off tot) (fails : ¬ src.Full) :
    Writing n (n'.put (posOf bn) (n'.slots (posOf bn)) block) src off tot := by
  refine ⟨now.fields, now.stable.rewrite _ _, fun bn below => ?_, fun full => absurd full fails⟩
  rw [slots_put_same]
  exact now.covered bn below

theorem safe_writeiLoop {n₀ : Node} {n : Nat} (owned : v.owned = true)
    (op : l.op = true) (fit : off + n ≤ MAXFILE * BSIZE) (fuel tot : Nat)
    (enough : n - tot ≤ fuel) (le : tot ≤ n) (viewed : l.view e = some v)
    (now : Writing n₀ v.node src off tot) :
    Safe sb C p (writeiLoop sb p e src n fuel (off + tot) tot) l w fun r l' w' =>
      r ≤ n ∧ ∃ n' F, l' = l.setView e { v with node := n' } ∧ w' = withFree w F ∧
        Writing n₀ n' src off r ∧ (src.Full → r < n → ∀ c < sb.size, ¬ F c) ∧
        (r < n → r = tot ∨ (off + r) % BSIZE = 0) := by
  obtain ⟨F₀, same, -⟩ := withFree_self w
  induction fuel generalizing tot l w v F₀ with
  | zero =>
    exact .pure ⟨le, v.node, F₀, (setView_self viewed).symm, same, now,
      fun _ less => by omega, fun _ => .inl rfl⟩
  | succ fuel ih =>
    unfold writeiLoop
    split
    next more =>
      have bound : (off + tot) / BSIZE < MAXFILE :=
        Nat.div_lt_of_lt_mul (by rw [Nat.mul_comm]; omega)
      refine .seq (safe_bmap viewed owned op now.stable bound) ?_
      rintro addr _ _ ⟨n₁, F, rfl, rfl, stable, grows, ⟨rfl, full⟩ | ⟨used, slot⟩⟩
      · rw [if_pos rfl]
        exact .pure ⟨le, n₁, F, rfl, rfl, now.grow grows stable, fun _ _ => full, fun _ => .inl rfl⟩
      · rw [if_neg used]
        have later := now.grow grows stable
        have positive : (off + tot) % BSIZE < BSIZE := Nat.mod_lt _ (by decide)
        subst slot
        generalize size : min (n - tot) (BSIZE - (off + tot) % BSIZE) = m
        simp only
        cases fault : src.fault tot m with
        | some part =>
          simp only
          refine .seq (safe_scribble (v := { v with node := n₁ })
            view_set owned used _) ?_
          rintro _ _ _ ⟨rfl, rfl⟩
          have fails : ¬ src.Full := by
            intro full
            rw [full] at fault
            cases fault
          exact .pure ⟨le, _, F, setView_twice, rfl, later.fault fails,
            fun full => absurd full fails, fun _ => .inl rfl⟩
        | none =>
          simp only
          refine .seq (safe_logWrite (v := { v with node := n₁ })
            view_set owned op used _) ?_
          rintro _ _ _ ⟨rfl, rfl⟩
          rw [Nat.add_assoc]
          refine (ih (l := (l.setView e { v with node := n₁ }).setView e _)
            (v := { v with node := n₁.put _ (n₁.slots _) _ }) owned op (tot + m)
            (by omega) (by omega) view_set
            (later.write used (by omega)) _ (withFree_self _).choose_spec.1).mono ?_
          rintro r _ _ ⟨le', n', F', rfl, rfl, final, rest, ends⟩
          refine ⟨le', n', F', by simp, by simp, final, rest, fun less => .inr ?_⟩
          rcases ends less with rfl | aligned
          · unfold BSIZE at *
            omega
          · exact aligned
    next done =>
      exact .pure ⟨le, v.node, F₀, (setView_self viewed).symm, same, now,
        fun _ less => by omega, fun _ => .inl rfl⟩

/-- The writes that `writei` refuses. -/
def Refused (size off n : Nat) : Prop :=
  size < off ∨ (off + n) % 2 ^ 32 < off ∨ MAXFILE * BSIZE < (off + n) % 2 ^ 32

/-- The node after `writei`, which has written `tot` bytes. -/
structure Written (n n' : Node) (src : Source) (off tot : Nat) : Prop where
  fields : n'.d = { n.d with addrs := n'.d.addrs, size := n'.d.size }
  size : n'.size = max n.size (off + tot)
  readable : n'.Readable
  bytes : src.Full → ∀ i < n'.size,
    n'.byte i = if off ≤ i ∧ i < off + tot then src.byte (i - off) else n.byte i

theorem Writing.finish (now : Writing n n' src off tot) (size_le : n.size ≤ MAXFILE * BSIZE)
    (fit : off + tot ≤ MAXFILE * BSIZE) :
    Written n (n'.setD fun d =>
      if d.size.toNat < off + tot then { d with size := UInt32.ofNat (off + tot) } else d)
      src off tot := by
  have limit : MAXFILE * BSIZE < 2 ^ 32 := by decide
  have size : n'.d.size = n.d.size := by rw [now.fields]
  generalize after : (n'.setD fun d =>
    if d.size.toNat < off + tot then { d with size := UInt32.ofNat (off + tot) } else d) = m
  have d : m.d = { n'.d with size := m.d.size } ∧ m.size = max n.size (off + tot) := by
    subst after
    rw [Node.size, Node.size, d_setD, size]
    split
    next grows =>
      refine ⟨rfl, ?_⟩
      rw [UInt32.toNat_ofNat_of_lt' (show off + tot < 2 ^ 32 by omega)]
      omega
    next => exact ⟨rfl, by rw [size]; omega⟩
  have slots : m.slots = n'.slots := by
    subst after
    rfl
  have data : m.data = n'.data := by
    subst after
    rfl
  refine ⟨?_, d.2, ⟨?_, ?_, ?_⟩, ?_⟩
  · rw [d.1, now.fields]
  · refine ⟨fun i => ?_, fun k bound => ?_, fun pos past => ?_⟩
    · rw [slots, d.1]
      exact now.stable.addrs i
    · rw [slots, data]
      exact now.stable.entries k bound
    · rw [slots]
      exact now.stable.past pos past
  · intro bn below
    rw [slots]
    exact now.covered bn (d.2 ▸ below)
  · rw [d.2]
    omega
  · intro full i below
    rw [← now.bytes full i (d.2 ▸ below), byte, data, byte]

/-- `writei` refuses and changes nothing, or writes the first bytes, all of them
unless there is no block left. -/
theorem safe_writei (viewed : l.view e = some v) (owned : v.owned = true) (op : l.op = true)
    (readable : v.node.Readable) (type : v.node.d.type ≠ 0) (src : Source) {n : Nat}
    (small : n < 2 ^ 32) :
    Safe sb C p (writei sb p e src off n) l w fun r l' w' =>
      (r = -1 ∧ Refused v.node.size off n ∧ l' = l ∧ w' = w) ∨
      (¬ Refused v.node.size off n ∧ ∃ tot ≤ n, r = tot ∧ ∃ n' F,
        l' = l.setView e { v with disk := n'.d, node := n' } ∧ w' = withFree w F ∧
        Written v.node n' src off tot ∧ (src.Full → tot < n → ∀ c < sb.size, ¬ F c) ∧
        (tot < n → tot = 0 ∨ (off + tot) % BSIZE = 0)) := by
  have limit := maxfile_lt
  have size_le := readable.size_le
  refine .seq (safe_getInode viewed) ?_
  rintro ip l w ⟨⟨-, -, fields⟩, rfl, rfl⟩
  have size : ip.d.size.toNat = v.node.size := by rw [fields owned, Node.size]
  rw [size]
  split
  next refused =>
    refine .pure (.inl ⟨rfl, ?_, rfl, rfl⟩)
    exact refused.elim .inl fun wraps => .inr (.inl wraps)
  next legal =>
    split
    next large => exact .pure (.inl ⟨rfl, .inr (.inr large), rfl, rfl⟩)
    next fits =>
      have accepted : ¬ Refused v.node.size off n := by
        unfold Refused
        omega
      have fit : off + n ≤ MAXFILE * BSIZE := by omega
      refine .seq (safe_writeiLoop owned op fit n 0 (by omega) (Nat.zero_le _) viewed
        (.start readable (by omega) src)) ?_
      rintro tot _ _ ⟨le, n', F, rfl, rfl, now, rest, ends⟩
      refine .seq (safe_setDinodeMem (v := { v with node := n' })
        view_set owned _ ?_) ?_
      · refine .inl ?_
        show (ite _ _ _ : Dinode).type = n'.d.type
        split <;> rfl
      rintro _ _ _ ⟨rfl, rfl⟩
      have written := now.finish size_le (by omega)
      have typed : (n'.setD fun d => if d.size.toNat < off + tot then
          { d with size := UInt32.ofNat (off + tot) } else d).d.type ≠ 0 := by
        rw [written.fields]
        exact type
      refine .seq (safe_iupdate (v := { v with node := n'.setD _ })
        view_set owned op typed) ?_
      rintro _ _ _ ⟨rfl, rfl⟩
      exact .pure (.inr ⟨accepted, tot, le, rfl, _, F, by simp, rfl, written, rest, ends⟩)

end Xv6.Fs
