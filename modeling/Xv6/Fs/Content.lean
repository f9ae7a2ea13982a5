import Xv6.Fs.Steps

/-!
# The content of files

Specifications of `bmap`, `itrunc`, `readi` and `writei` for an inode that the
process has locked. They are stated for the node that the process owns; that the
others stay as they are is part of every rule, since no ghost value of another
process changes.
-/

namespace Xv6.Fs

open Function Local Node

/-! ## Nodes that grow -/

variable {b bn k : Nat} {i : Fin (NDIRECT + 1)}

namespace Node

/-- The node after blocks were added to it. -/
structure Grows (n m : Node) : Prop where
  fields : m.d = { n.d with addrs := m.d.addrs }
  slots : ∀ pos, n.slots pos ≠ 0 → m.slots pos = n.slots pos
  data : ∀ bn, n.slots (posOf bn) ≠ 0 → m.data (posOf bn) = n.data (posOf bn)

variable {n m o : Node}

theorem Grows.refl (n : Node) : n.Grows n := ⟨rfl, fun _ _ => rfl, fun _ _ => rfl⟩

theorem Grows.trans (first : n.Grows m) (second : m.Grows o) : n.Grows o := by
  refine ⟨?_, ?_, ?_⟩
  · rw [second.fields, first.fields]
  · intro pos used
    have same := first.slots pos used
    rw [second.slots pos (by rwa [same]), same]
  · intro bn used
    have same := first.slots _ used
    rw [second.data bn (by rwa [same]), first.data bn used]

theorem Grows.covered (grows : n.Grows m) {size : Nat} (covered : n.Covered size) :
    m.Covered size := by
  intro bn below
  rw [grows.slots _ (covered bn below)]
  exact covered bn below

theorem Grows.byte_eq (grows : n.Grows m) {size off : Nat} (covered : n.Covered size)
    (below : off < size) : m.byte off = n.byte off := by
  have used : n.slots (posOf (off / BSIZE)) ≠ 0 := by
    refine covered _ ?_
    have := Nat.div_mul_le_self off BSIZE
    omega
  rw [byte, grows.data _ used, byte]

theorem posOf_indirect (past : ¬ bn < NDIRECT) : posOf bn = NDIRECT + 1 + (bn - NDIRECT) := by
  unfold posOf
  rw [if_neg past]
  omega

theorem posOf_direct (first : bn < NDIRECT) : posOf bn = bn := if_pos first

theorem Stable.install (stable : n.Stable) (empty : n.slots i = 0) (small : b < 2 ^ 32) :
    ((n.put i b (Bytes.zero BSIZE)).setD (·.setAddr i b)).Stable := by
  refine ⟨?_, ?_, ?_⟩
  · intro j
    by_cases same : j = i
    · subst same
      simp only [slots_setD, slots_put_self, d_setD, Dinode.setAddr, update_self]
      exact (UInt32.toNat_ofNat_of_lt small).symm
    · have apart : (j : Nat) ≠ i := fun equal => same (Fin.ext equal)
      simp only [slots_setD, slots_put_ne apart, d_setD, d_put, Dinode.setAddr, update_of_ne same]
      exact stable.addrs j
  · intro k bound
    have apart : NDIRECT + 1 + k ≠ (i : Nat) := by omega
    rw [slots_setD, slots_put_ne apart, stable.entries k bound, data_setD]
    by_cases same : (i : Nat) = NDIRECT
    · rw [same] at empty
      rw [same, if_pos empty, data_put_self]
      simp
    · rw [slots_put_ne (Ne.symm same), data_put_of_ne (Ne.symm same)]
  · intro pos past
    have apart : pos ≠ (i : Nat) := by omega
    rw [slots_setD, slots_put_ne apart]
    exact stable.past pos past

theorem grows_install (empty : n.slots i = 0) :
    n.Grows ((n.put i b (Bytes.zero BSIZE)).setD (·.setAddr i b)) := by
  refine ⟨rfl, ?_, ?_⟩
  · intro pos used
    have apart : pos ≠ i := by
      rintro rfl
      exact used empty
    rw [slots_setD, slots_put_ne apart]
  · intro bn used
    have apart : posOf bn ≠ i := by
      intro same
      rw [same] at used
      exact used empty
    rw [data_setD, data_put_of_ne apart]

@[simp] theorem slots_put_same (pos : Nat) (block : Block) :
    (n.put pos (n.slots pos) block).slots = n.slots := update_eq_self ..

theorem Stable.rewrite (stable : n.Stable) (bn : Nat) (block : Block) :
    (n.put (posOf bn) (n.slots (posOf bn)) block).Stable := by
  refine ⟨?_, ?_, ?_⟩
  · intro i
    rw [slots_put_same]
    exact stable.addrs i
  · intro k bound
    rw [slots_put_same, data_put_of_ne (Ne.symm (posOf_ne_indirect bn))]
    exact stable.entries k bound
  · intro pos past
    rw [slots_put_same]
    exact stable.past pos past

theorem Stable.installEntry (stable : n.Stable) (bound : k < NINDIRECT)
    (used : n.slots NDIRECT ≠ 0) (small : b < 2 ^ 32) :
    ((n.put NDIRECT (n.slots NDIRECT) (setEntry (n.data NDIRECT) k b)).put (NDIRECT + 1 + k) b
      (Bytes.zero BSIZE)).Stable := by
  have apart : NDIRECT ≠ NDIRECT + 1 + k := by omega
  refine ⟨?_, ?_, ?_⟩
  · intro i
    rw [slots_put_ne (by omega)]
    by_cases same : (i : Nat) = NDIRECT
    · rw [same, slots_put_self, ← same]
      exact stable.addrs i
    · rw [slots_put_ne same]
      exact stable.addrs i
  · intro j inside
    rw [slots_put_ne apart, data_put_of_ne apart, slots_put_self, data_put_self, if_neg used]
    by_cases same : j = k
    · subst same
      rw [slots_put_self, entryOf_setEntry_self _ bound small]
    · rw [slots_put_ne (by omega), slots_put_ne (by omega), entryOf_setEntry_of_ne _ _ same,
        stable.entries j inside, if_neg used]
  · intro pos past
    rw [slots_put_ne (by omega), slots_put_ne (by omega)]
    exact stable.past pos past

theorem grows_installEntry {block : Block} (empty : n.slots (NDIRECT + 1 + k) = 0) :
    n.Grows ((n.put NDIRECT (n.slots NDIRECT) block).put (NDIRECT + 1 + k) b
      (Bytes.zero BSIZE)) := by
  refine ⟨rfl, ?_, ?_⟩
  · intro pos used
    have apart : pos ≠ NDIRECT + 1 + k := by
      rintro rfl
      exact used empty
    rw [slots_put_ne apart]
    by_cases same : pos = NDIRECT
    · rw [same, slots_put_self]
    · rw [slots_put_ne same]
  · intro bn used
    have apart : posOf bn ≠ NDIRECT + 1 + k := by
      intro same
      rw [same] at used
      exact used empty
    rw [data_put_of_ne apart, data_put_of_ne (posOf_ne_indirect bn)]

end Node

variable {Pid : Type} [DecidableEq Pid] [Fintype Pid] {sb : Super} {C : Setting Pid} {p : Pid}
  {l : Local Pid} {w : Option World} {e : Fin NINODE} {v : View} {rest : List (Fin (NDIRECT + 1))}

/-! ## `bmap` -/

/-- What `bmap` does to a locked inode: it has the block afterwards, or there is
no block left. -/
def Mapped (sb : Super) (l : Local Pid) (w : Option World) (e : Fin NINODE) (v : View)
    (pos : Nat) (b : Nat) (l' : Local Pid) (w' : Option World) : Prop :=
  ∃ n F, l' = l.setView e { v with node := n } ∧ w' = withFree w F ∧ n.Stable ∧ v.node.Grows n ∧
    ((b = 0 ∧ ∀ c < sb.size, ¬ F c) ∨ (b ≠ 0 ∧ n.slots pos = b))

theorem lt_of_data (data : sb.Data b) : b < 2 ^ 32 := by
  have := data.2
  have := sb.size_lt
  omega

theorem loose_again {l : Local Pid} {x : Option Block} (unused : l.loose b = none) :
    update (update l.loose b x) b none = l.loose := by
  rw [update_idem, ← unused, update_eq_self]

section

variable (viewed : l.view e = some v)
include viewed

section

variable (owned : v.owned = true) (op : l.op = true) (stable : v.node.Stable)
include owned op stable

theorem safe_bmapDirect (i : Fin (NDIRECT + 1)) :
    Safe sb C p (bmapDirect sb p e i) l w (Mapped sb l w e v i) := by
  refine .seq (safe_getInode viewed) ?_
  rintro ip l w ⟨⟨-, -, fields⟩, rfl, rfl⟩
  have addr : v.node.slots i = (ip.d.addrs i).toNat := by
    rw [fields owned]
    exact stable.addrs i
  obtain ⟨F, same, -⟩ := withFree_self w
  by_cases missing : ip.d.addrs i = 0
  · rw [if_pos missing]
    have empty : v.node.slots i = 0 := by simp [addr, missing]
    refine .seq (safe_balloc viewed owned op) ?_
    rintro b _ _ ⟨F, rfl, ⟨rfl, rfl, full⟩ | ⟨data, unused, rfl⟩⟩
    · rw [if_pos rfl]
      exact .pure ⟨v.node, F, (setView_self viewed).symm, rfl, stable, .refl _,
        .inl ⟨rfl, full⟩⟩
    · rw [if_neg data.pos]
      refine .seq (safe_install
        (l := { l with loose := update l.loose b (some (Bytes.zero BSIZE)) }) viewed
        owned (update_self ..) empty) ?_
      rintro _ _ _ ⟨rfl, F', rfl⟩
      refine .pure ⟨_, F', ?_, by simp, stable.install empty (lt_of_data data),
        grows_install empty, .inr ⟨data.pos, by simp⟩⟩
      simp only [setView, loose_again unused]
  · rw [if_neg missing]
    refine .pure ⟨v.node, F, (setView_self viewed).symm, same, stable, .refl _,
      .inr ⟨?_, addr⟩⟩
    intro zero
    exact missing (UInt32.toNat_inj.mp zero)

theorem safe_bmapEntry (used : v.node.slots NDIRECT ≠ 0) (bound : k < NINDIRECT) :
    Safe sb C p (bmapEntry sb p (v.node.slots NDIRECT) k) l w
      (Mapped sb l w e v (NDIRECT + 1 + k)) := by
  refine .seq (safe_readBlock viewed owned used) ?_
  rintro block l w ⟨rfl, rfl, rfl⟩
  have entry : v.node.slots (NDIRECT + 1 + k) = entryOf (v.node.data NDIRECT) k := by
    rw [stable.entries k bound, if_neg used]
  obtain ⟨F, same, -⟩ := withFree_self w
  by_cases missing : entryOf (v.node.data NDIRECT) k = 0
  · rw [if_pos missing]
    have empty := entry.trans missing
    refine .seq (safe_balloc viewed owned op) ?_
    rintro b _ _ ⟨F, rfl, ⟨rfl, rfl, full⟩ | ⟨data, unused, rfl⟩⟩
    · rw [if_pos rfl]
      exact .pure ⟨v.node, F, (setView_self viewed).symm, rfl, stable, .refl _,
        .inl ⟨rfl, full⟩⟩
    · rw [if_neg data.pos]
      refine .seq (safe_installEntry
        (l := { l with loose := update l.loose b (some (Bytes.zero BSIZE)) }) viewed
        owned op (update_self ..) used empty) ?_
      rintro _ _ _ ⟨rfl, F', rfl⟩
      refine .pure ⟨_, F', ?_, by simp, stable.installEntry bound used (lt_of_data data),
        grows_installEntry empty, .inr ⟨data.pos, by simp⟩⟩
      simp only [setView, loose_again unused]
  · rw [if_neg missing]
    exact .pure ⟨v.node, F, (setView_self viewed).symm, same, stable, .refl _,
      .inr ⟨missing, entry⟩⟩

theorem safe_bmap (bound : bn < MAXFILE) :
    Safe sb C p (bmap sb p e bn) l w (Mapped sb l w e v (posOf bn)) := by
  unfold bmap
  split
  next first =>
    rw [posOf_direct first]
    exact safe_bmapDirect viewed owned op stable ⟨bn, Nat.lt_succ_of_lt first⟩
  next past =>
    have inside : bn - NDIRECT < NINDIRECT := by
      unfold MAXFILE at bound
      omega
    rw [if_pos inside]
    refine .seq (safe_bmapDirect viewed owned op stable INDIRECT) ?_
    rintro ind _ _ ⟨n, F, rfl, rfl, stable', grows, ⟨rfl, full⟩ | ⟨used, slot⟩⟩
    · rw [if_pos rfl]
      exact .pure ⟨n, F, rfl, rfl, stable', grows, .inl ⟨rfl, full⟩⟩
    · rw [if_neg used]
      have slot : n.slots NDIRECT = ind := slot
      have entry : Safe sb C p (bmapEntry sb p (n.slots NDIRECT) (bn - NDIRECT))
          (l.setView e { v with node := n }) (withFree w F) _ :=
        safe_bmapEntry (v := { v with node := n }) view_set owned op stable'
          (by rw [slot]; exact used) inside
      rw [slot] at entry
      refine entry.mono ?_
      rintro b _ _ ⟨n', F', rfl, rfl, stable'', grows', mapped⟩
      rw [posOf_indirect past]
      exact ⟨n', F', by simp, by simp, stable'', grows.trans grows', mapped⟩

end

theorem safe_bmap_found (owned : v.owned = true)
    (stable : v.node.Stable) (bound : bn < MAXFILE) (used : v.node.slots (posOf bn) ≠ 0)
: Safe sb C p (bmap sb p e bn) l w fun b l' w' =>
      b = v.node.slots (posOf bn) ∧ l' = l ∧ w' = w := by
  have direct : ∀ i : Fin (NDIRECT + 1), v.node.slots i ≠ 0 →
      Safe sb C p (bmapDirect sb p e i) l w fun b l' w' =>
        b = v.node.slots i ∧ l' = l ∧ w' = w := by
    intro i used
    refine .seq (safe_getInode viewed) ?_
    rintro ip _ _ ⟨⟨-, -, fields⟩, rfl, rfl⟩
    have addr : v.node.slots i = (ip.d.addrs i).toNat := by
      rw [fields owned]
      exact stable.addrs i
    have present : ¬ ip.d.addrs i = 0 := by
      intro zero
      rw [zero] at addr
      exact used addr
    rw [if_neg present]
    exact .pure ⟨addr.symm, rfl, rfl⟩
  unfold bmap
  split
  next first =>
    rw [posOf_direct first] at used ⊢
    exact direct ⟨bn, Nat.lt_succ_of_lt first⟩ used
  next past =>
    have inside : bn - NDIRECT < NINDIRECT := by
      unfold MAXFILE at bound
      omega
    rw [posOf_indirect past] at used ⊢
    have entry := stable.entries _ inside
    have indirect : v.node.slots NDIRECT ≠ 0 := by
      intro zero
      rw [if_pos zero] at entry
      exact used entry
    rw [if_neg indirect] at entry
    rw [if_pos inside]
    refine .seq (direct INDIRECT indirect) ?_
    rintro _ _ _ ⟨rfl, rfl, rfl⟩
    rw [if_neg (show ¬ v.node.slots INDIRECT = 0 from indirect)]
    refine .seq (safe_readBlock viewed owned indirect) ?_
    rintro block _ _ ⟨rfl, rfl, rfl⟩
    have present : ¬ entryOf (v.node.data INDIRECT) (bn - NDIRECT) = 0 :=
      fun zero => used (entry.trans zero)
    rw [if_neg present]
    exact .pure ⟨entry.symm, rfl, rfl⟩

end

/-! ## `itrunc` -/

/-- The node in the first loop of `itrunc`, with the entries of `addrs` that are
still to come. -/
structure Truncating (n n' : Node) (rest : List (Fin (NDIRECT + 1))) : Prop where
  fields : n'.d = { n.d with addrs := n'.d.addrs }
  data : n'.data = n.data
  addrs : ∀ i : Fin (NDIRECT + 1), n'.slots i = (n'.d.addrs i).toNat
  cleared : ∀ i, i ≠ INDIRECT → i ∉ rest → n'.d.addrs i = 0
  direct : ∀ i ∈ rest, i ≠ INDIRECT
  indirect : n'.d.addrs INDIRECT = n.d.addrs INDIRECT
  past : ∀ pos, NDIRECT < pos → n'.slots pos = n.slots pos

theorem Truncating.clear {n n' : Node} (now : Truncating n n' (i :: rest)) :
    Truncating n ((n'.drop i).setD (·.setAddr i 0)) rest := by
  have apart : i ≠ INDIRECT := now.direct i List.mem_cons_self
  refine ⟨?_, ?_, ?_, ?_, ?_, ?_, ?_⟩
  · rw [d_setD, d_drop, Dinode.setAddr, now.fields]
  · rw [data_setD, data_drop, now.data]
  · intro j
    by_cases same : j = i
    · subst same
      simp [Dinode.setAddr]
    · have other : (j : Nat) ≠ i := fun equal => same (Fin.ext equal)
      rw [slots_setD, slots_drop_of_ne other, d_setD, Dinode.setAddr]
      simp only [d_drop, update_of_ne same]
      exact now.addrs j
  · intro j direct gone
    rw [d_setD, Dinode.setAddr]
    by_cases same : j = i
    · subst same
      simp
    · simp only [d_drop, update_of_ne same]
      refine now.cleared j direct fun mem => ?_
      exact (List.mem_cons.mp mem).elim same gone
  · exact fun j mem => now.direct j (List.mem_cons_of_mem _ mem)
  · rw [d_setD, Dinode.setAddr]
    simp only [d_drop, update_of_ne (Ne.symm apart)]
    exact now.indirect
  · intro pos past
    rw [slots_setD, slots_drop_of_ne (by omega)]
    exact now.past pos past

theorem Truncating.skip {n n' : Node}
    (now : Truncating n n' (i :: rest)) (zero : n'.d.addrs i = 0) : Truncating n n' rest := by
  refine { now with cleared := ?_, direct := ?_ }
  · intro j direct gone
    by_cases same : j = i
    · rw [same]
      exact zero
    · refine now.cleared j direct fun mem => ?_
      exact (List.mem_cons.mp mem).elim same gone
  · exact fun j mem => now.direct j (List.mem_cons_of_mem _ mem)

theorem safe_itruncDirect {n : Node}
    (viewed : l.view e = some v) (owned : v.owned = true) (op : l.op = true)
    (now : Truncating n v.node (i :: rest)) :
    Safe sb C p (itruncDirect sb p e i) l w fun _ l' w' => ∃ n' F,
      l' = l.setView e { v with node := n' } ∧ w' = withFree w F ∧ Truncating n n' rest := by
  refine .seq (safe_getInode viewed) ?_
  rintro ip l w ⟨⟨-, -, fields⟩, rfl, rfl⟩
  rw [fields owned, ← now.addrs i]
  by_cases zero : v.node.d.addrs i = 0
  · rw [if_neg (not_not.mpr zero)]
    obtain ⟨F, same, -⟩ := withFree_self w
    exact .pure ⟨v.node, F, (setView_self viewed).symm, same, now.skip zero⟩
  · rw [if_pos zero]
    have used : v.node.slots i ≠ 0 := by
      rw [now.addrs i]
      exact fun equal => zero (UInt32.toNat_inj.mp equal)
    refine .seq (safe_bfree viewed owned op used) ?_
    rintro _ _ _ ⟨rfl, F, rfl⟩
    refine (safe_setDinodeMem (v := { v with node := v.node.drop i }) view_set
      owned (·.setAddr i 0) (.inl rfl)).mono ?_
    rintro _ _ _ ⟨rfl, rfl⟩
    exact ⟨_, F, setView_twice, rfl, now.clear⟩

theorem safe_itruncEntries {n : Node} (viewed : l.view e = some { v with node := n })
    (owned : v.owned = true) (op : l.op = true)
    (entries : ∀ k < NINDIRECT, n.slots (NDIRECT + 1 + k) = entryOf (n.data NDIRECT) k)
    (past : ∀ pos, NDIRECT + 1 + NINDIRECT ≤ pos → n.slots pos = 0) :
    Safe sb C p (Prog.forEach (List.range NINDIRECT) (itruncEntry sb p (n.data NDIRECT))) l w
      fun _ l' w' => ∃ F, w' = withFree w F ∧ l' = l.setView e { v with
        node := { n with slots := fun pos => if pos ≤ NDIRECT then n.slots pos else 0 } } := by
  let left (rest : List Nat) : Node :=
    { n with slots := fun pos =>
        if pos ≤ NDIRECT ∨ pos - (NDIRECT + 1) ∈ rest then n.slots pos else 0 }
  have start : left (List.range NINDIRECT) = n := by
    refine Node.ext rfl (funext fun pos => ?_) rfl
    show (if _ then _ else _) = _
    split
    next => rfl
    next away =>
      rw [List.mem_range] at away
      exact (past pos (by omega)).symm
  have finish : left [] = { n with slots := fun pos =>
      if pos ≤ NDIRECT then n.slots pos else 0 } := by
    simp [left]
  refine (Theory.Safe.forEach (fun rest l' w' => (∃ F, w' = withFree w F) ∧
    l' = l.setView e { v with node := left rest } ∧ rest.Nodup ∧ ∀ k ∈ rest, k < NINDIRECT)
    ?_ ?_).mono ?_
  · obtain ⟨F, same, -⟩ := withFree_self w
    refine ⟨⟨F, same⟩, ?_, List.nodup_range, fun k => List.mem_range.mp⟩
    rw [start]
    exact (setView_self viewed).symm
  · rintro k rest _ _ ⟨⟨F, rfl⟩, rfl, nodup, bound⟩
    have inside := bound k List.mem_cons_self
    have fresh := (List.nodup_cons.mp nodup).1
    have slot : (left (k :: rest)).slots (NDIRECT + 1 + k) = entryOf (n.data NDIRECT) k := by
      rw [← entries k inside]
      exact if_pos (.inr (by simp))
    have after : (left (k :: rest)).drop (NDIRECT + 1 + k) = left rest := by
      refine Node.ext rfl (funext fun pos => ?_) (data_drop _)
      by_cases same : pos = NDIRECT + 1 + k
      · subst same
        rw [slots_drop_self]
        refine (if_neg fun either => ?_).symm
        rcases either with early | mem
        · omega
        · exact fresh (by simpa using mem)
      · rw [slots_drop_of_ne same]
        have other : pos ≤ NDIRECT ∨ pos - (NDIRECT + 1) ≠ k := by omega
        have iff : (pos ≤ NDIRECT ∨ pos - (NDIRECT + 1) ∈ k :: rest) ↔
            (pos ≤ NDIRECT ∨ pos - (NDIRECT + 1) ∈ rest) := by
          rw [List.mem_cons]
          tauto
        exact if_congr iff rfl rfl
    have tail : rest.Nodup ∧ ∀ j ∈ rest, j < NINDIRECT :=
      ⟨(List.nodup_cons.mp nodup).2, fun j mem => bound j (List.mem_cons_of_mem _ mem)⟩
    unfold itruncEntry
    rw [← slot]
    by_cases zero : (left (k :: rest)).slots (NDIRECT + 1 + k) = 0
    · rw [if_neg (not_not.mpr zero)]
      refine .pure ⟨⟨F, rfl⟩, ?_, tail⟩
      rw [← after]
      congr 2
      refine Node.ext rfl (funext fun pos => ?_) (data_drop _).symm
      by_cases same : pos = NDIRECT + 1 + k
      · subst same
        rw [slots_drop_self, zero]
      · rw [slots_drop_of_ne same]
    · rw [if_pos zero]
      refine (safe_bfree (v := { v with node := left (k :: rest) }) view_set owned
        op zero).mono ?_
      rintro _ _ _ ⟨rfl, F', rfl⟩
      rw [after]
      exact ⟨⟨F', by simp⟩, by simp, tail⟩
  · rintro _ _ _ ⟨known, rfl, -⟩
    obtain ⟨F, rfl⟩ := known
    rw [finish]
    exact ⟨F, rfl, rfl⟩

/-- The node without its blocks, before the size is reset. -/
def Node.unblocked (n : Node) : Node := ⟨{ n.d with addrs := fun _ => 0 }, fun _ => 0, n.data⟩

theorem Truncating.unblocked {n n' : Node} (now : Truncating n n' [])
    (indirect : n'.d.addrs INDIRECT = 0) (past : ∀ pos, NDIRECT < pos → n'.slots pos = 0) :
    n' = n.unblocked := by
  have addrs : n'.d.addrs = fun _ => 0 := by
    funext i
    by_cases same : i = INDIRECT
    · rw [same]
      exact indirect
    · exact now.cleared i same List.not_mem_nil
  refine Node.ext ?_ (funext fun pos => ?_) now.data
  · rw [now.fields, addrs]
    rfl
  · by_cases early : pos < NDIRECT + 1
    · have slot := now.addrs ⟨pos, early⟩
      rw [addrs] at slot
      exact slot
    · exact past pos (by omega)

theorem safe_itruncIndirect {n : Node} (viewed : l.view e = some v) (owned : v.owned = true)
    (op : l.op = true) (stable : n.Stable) (now : Truncating n v.node []) :
    Safe sb C p (itruncIndirect sb p e) l w fun _ l' w' => ∃ F,
      l' = l.setView e { v with node := n.unblocked } ∧ w' = withFree w F := by
  have slot : v.node.slots NDIRECT = (v.node.d.addrs INDIRECT).toNat := now.addrs INDIRECT
  have same : v.node.slots NDIRECT = n.slots NDIRECT := by
    rw [slot, now.indirect]
    exact (stable.addrs INDIRECT).symm
  have beyond : ∀ pos, NDIRECT + 1 + NINDIRECT ≤ pos → v.node.slots pos = 0 := by
    intro pos past
    rw [now.past pos (by omega), stable.past pos past]
  refine .seq (safe_getInode viewed) ?_
  rintro ip l w ⟨⟨-, -, fields⟩, rfl, rfl⟩
  rw [fields owned, ← slot]
  by_cases zero : v.node.d.addrs INDIRECT = 0
  · rw [if_neg (not_not.mpr zero)]
    obtain ⟨F, here, -⟩ := withFree_self w
    have empty : v.node = n.unblocked := by
      refine now.unblocked zero fun pos past => ?_
      by_cases inside : pos < NDIRECT + 1 + NINDIRECT
      · obtain ⟨k, rfl⟩ := Nat.exists_eq_add_of_le (show NDIRECT + 1 ≤ pos from past)
        rw [now.past _ past, stable.entries k (by omega), ← same, slot, zero]
        rfl
      · exact beyond pos (by omega)
    refine .pure ⟨F, ?_, here⟩
    rw [← empty]
    exact (setView_self viewed).symm
  · rw [if_pos zero]
    have used : v.node.slots NDIRECT ≠ 0 := by
      rw [slot]
      exact fun equal => zero (UInt32.toNat_inj.mp equal)
    refine .seq (safe_readBlock viewed owned used) ?_
    rintro _ _ _ ⟨rfl, rfl, rfl⟩
    have entries : ∀ k < NINDIRECT,
        v.node.slots (NDIRECT + 1 + k) = entryOf (v.node.data NDIRECT) k := by
      intro k bound
      rw [now.past _ (by omega), now.data, stable.entries k bound, if_neg (same ▸ used)]
    refine .seq (safe_itruncEntries viewed owned op entries beyond) ?_
    rintro _ _ _ ⟨F, rfl, rfl⟩
    let cut : Node :=
      { v.node with slots := fun pos => if pos ≤ NDIRECT then v.node.slots pos else 0 }
    have kept : cut.slots NDIRECT = v.node.slots NDIRECT := by
      show (if NDIRECT ≤ NDIRECT then v.node.slots NDIRECT else 0) = _
      rw [if_pos le_rfl]
    rw [← kept] at used ⊢
    refine .seq (safe_bfree (v := { v with node := cut }) view_set owned op used) ?_
    rintro _ _ _ ⟨rfl, F', rfl⟩
    refine (safe_setDinodeMem (v := { v with node := cut.drop NDIRECT }) view_set
      owned (·.setAddr INDIRECT 0) (.inl rfl)).mono ?_
    rintro _ _ _ ⟨rfl, rfl⟩
    have final : (cut.drop NDIRECT).setD (·.setAddr INDIRECT 0) = n.unblocked := by
      have addrs : update v.node.d.addrs INDIRECT (UInt32.ofNat 0) = fun _ => 0 := by
        funext i
        by_cases last : i = INDIRECT
        · rw [last, update_self]
          rfl
        · rw [update_of_ne last]
          exact now.cleared i last List.not_mem_nil
      refine Node.ext ?_ (funext fun pos => ?_) ?_
      · rw [d_setD, d_drop, Dinode.setAddr]
        show ({ v.node.d with
          addrs := update v.node.d.addrs INDIRECT (UInt32.ofNat 0) } : Dinode) = _
        rw [addrs, now.fields]
        rfl
      · rw [slots_setD]
        by_cases last : pos = NDIRECT
        · rw [last, slots_drop_self]
          rfl
        · rw [slots_drop_of_ne last]
          show (if pos ≤ NDIRECT then v.node.slots pos else 0) = 0
          split
          next early =>
            have direct : (⟨pos, by omega⟩ : Fin (NDIRECT + 1)) ≠ INDIRECT := by
              intro equal
              exact last (congrArg Fin.val equal)
            have cleared := now.addrs ⟨pos, by omega⟩
            rw [now.cleared _ direct List.not_mem_nil] at cleared
            exact cleared
          next => rfl
      · rw [data_setD, data_drop]
        exact now.data
    rw [final]
    exact ⟨F', by simp, by simp⟩

theorem safe_itrunc (viewed : l.view e = some v) (owned : v.owned = true) (op : l.op = true)
    (stable : v.node.Stable) (type : v.node.d.type ≠ 0) :
    Safe sb C p (itrunc sb p e) l w fun _ l' w' => ∃ F,
      l' = l.setView e { v with disk := v.node.emptied.d, node := v.node.emptied } ∧
        w' = withFree w F := by
  refine .seq (Theory.Safe.forEach (fun rest l' w' => ∃ n' F,
    l' = l.setView e { v with node := n' } ∧ w' = withFree w F ∧ Truncating v.node n' rest)
    ?_ ?_) ?_
  · obtain ⟨F, here, -⟩ := withFree_self w
    refine ⟨v.node, F, (setView_self viewed).symm, here, rfl, rfl, stable.addrs, ?_, ?_, rfl,
      fun _ _ => rfl⟩
    · intro i direct missing
      refine absurd (List.mem_map.mpr ⟨i.castPred direct, List.mem_finRange _, ?_⟩) missing
      exact Fin.castSucc_castPred i direct
    · intro i mem
      obtain ⟨j, -, rfl⟩ := List.mem_map.mp mem
      exact Fin.castSucc_ne_last j
  · rintro i rest _ _ ⟨n', F, rfl, rfl, now⟩
    refine (safe_itruncDirect (v := { v with node := n' }) view_set owned op
      now).mono ?_
    rintro _ _ _ ⟨n'', F', rfl, rfl, after⟩
    exact ⟨n'', F', by simp, by simp, after⟩
  · rintro _ _ _ ⟨n', F, rfl, rfl, now⟩
    refine .seq (safe_itruncIndirect (v := { v with node := n' })
      view_set owned op stable now) ?_
    rintro _ _ _ ⟨F', rfl, rfl⟩
    refine .seq (safe_setDinodeMem (v := { v with node := v.node.unblocked })
      (by simp) owned (fun d => { d with size := 0 }) (.inl rfl)) ?_
    rintro _ _ _ ⟨rfl, rfl⟩
    simp only [setView_twice]
    refine (safe_iupdate (v := { v with
      node := v.node.unblocked.setD fun d => { d with size := 0 } })
      view_set owned op type).mono ?_
    rintro _ _ _ ⟨rfl, rfl⟩
    refine ⟨F', ?_, by simp⟩
    simp only [setView_twice]
    rfl

end Xv6.Fs
