import Xv6.Mkfs.Basic

/-!
# The image while `mkfs` builds it

`mkfs` writes the free map last, but at every point the image with the free map
of the blocks below `freeblock` is one in which every block has its owner
(`Image`), in the sense of the kernel (`Fs.Blocks`). An inode has exactly the
blocks that its size needs (`Tight`).
-/

namespace Xv6.Mkfs

open Option (bind_eq_bind bind_none bind_some pure_def)

open Function State

open Fs

/-! ## The free map -/

theorem bitmap_succ (used : Nat) : bitmap (used + 1) = setBit (bitmap used) used := by
  simp [bitmap, List.range_succ]

theorem isSet_bitmap {used : Nat} (small : used ≤ BPB) (j : Nat) :
    isSet (bitmap used) j = decide (j < used) := by
  induction used with
  | zero => simp [bitmap, isSet]
  | succ used ih =>
    rw [bitmap_succ, isSet_setBit _ small, ih (Nat.le_of_succ_le small)]
    by_cases same : used = j
    · simp [same]
    · rw [if_neg same]
      exact decide_eq_decide.mpr (by omega)

/-- The disk as it will be with the free map. -/
def State.mapped (s : State) : Nat → Block :=
  Function.update s.disk sb.bmapstart (bitmap s.freeblock)

variable {b off : Nat} {n : Node}

theorem bblock_eq (bound : b < FSSIZE) : sb.bblock b = sb.bmapstart := by
  have small : b / BPB = 0 := by
    unfold FSSIZE at bound
    unfold BPB BSIZE
    omega
  rw [Super.bblock, small, Nat.zero_add]

theorem used_mapped {s : State} (small : s.freeblock ≤ FSSIZE) (bound : b < FSSIZE) :
    used sb s.mapped b = decide (b < s.freeblock) := by
  have below : FSSIZE ≤ BPB := by decide
  rw [used, bblock_eq bound, mapped, update_self, isSet_bitmap (small.trans below),
    Nat.mod_eq_of_lt (bound.trans_le below)]

theorem mapped_of_ne {s : State} (other : b ≠ sb.bmapstart) : s.mapped b = s.disk b :=
  update_of_ne other ..

/-! ## Sizes -/

/-- The blocks of a file of a size, the indirect block included. -/
def blocksOf (size : Nat) : Nat :=
  (size + BSIZE - 1) / BSIZE + if NDIRECT * BSIZE < size then 1 else 0

/-- The node has the blocks below `off` and no others, and zeros behind it. -/
structure Tight (n : Node) (off : Nat) : Prop where
  stable : n.Stable
  slots : ∀ bn, n.slots (posOf bn) ≠ 0 ↔ bn * BSIZE < off
  indirect : n.slots NDIRECT ≠ 0 ↔ NDIRECT * BSIZE < off
  size_le : off ≤ MAXFILE * BSIZE
  rest : ∀ i, off ≤ i → n.byte i = 0

theorem Tight.covered (tight : Tight n off) : n.Covered off :=
  fun bn below => (tight.slots bn).mpr below

/-! ## The image -/

variable {Pid : Type} {sec inum : Nat}

/-- The image with its inodes as nodes. The inode `busy` has fields in memory
that are not yet on the disk. -/
structure Image (busy : Option Nat) (s : State) (N : Nat → Node) (own : Nat → Owner Pid) :
    Prop where
  len : s.len = FSSIZE
  above : nmeta ≤ s.freeblock
  below : s.freeblock ≤ FSSIZE
  inodes : s.freeinode ≤ NINODES
  blocks : Blocks sb s.mapped (fun _ _ => none) N own
  fresh : ∀ b, s.freeblock ≤ b → b < FSSIZE → s.disk b = Bytes.zero BSIZE
  dinode : ∀ i < NINODES, busy ≠ some i → dinodeAt sb s.disk i = (N i).d
  tight : ∀ i, busy ≠ some i → Tight (N i) (N i).size
  unused : ∀ i, i = 0 ∨ s.freeinode ≤ i → (N i).d = Dinode.zero

theorem sector_of_lt (small : sec < FSSIZE) : sector sec = sec := by
  unfold FSSIZE at small
  exact Nat.mod_eq_of_lt (by omega)

theorem rsect_of_lt {s : State} (len : s.len = FSSIZE) (small : sec < FSSIZE) :
    s.rsect sec = some (s.disk sec) := by
  rw [rsect, sector_of_lt small, if_pos (by omega)]

/-- The first block that cannot be allocated cannot be read either. -/
theorem rsect_end {s : State} (len : s.len = FSSIZE) : s.rsect FSSIZE = none := by
  have same : sector FSSIZE = FSSIZE := by decide
  rw [rsect, same, if_neg (by omega)]

theorem wsect_of_lt {s : State} (len : s.len = FSSIZE) (small : sec < FSSIZE)
    (buf : Block) : s.wsect sec buf = { s with disk := update s.disk sec buf } := by
  rw [wsect, sector_of_lt small, Nat.max_eq_left (by omega)]

theorem data_iff : sb.Data b ↔ nmeta ≤ b ∧ b < FSSIZE := Iff.rfl

theorem iblock_bound {i : Nat} (bound : i < NINODES) :
    sb.iblock i < sb.bmapstart ∧ sb.iblock i < FSSIZE := by
  have below : sb.iblock i < sb.bmapstart := Super.iblock_lt bound
  have small : sb.bmapstart < FSSIZE := by decide
  exact ⟨below, below.trans small⟩

namespace Image

variable {busy : Option Nat} {s : State} {N : Nat → Node} {own : Nat → Owner Pid} {i pos : Nat}
  [DecidableEq Pid]

/-- The block at a position is a data block that was allocated. -/
theorem slot_bound (img : Image busy s N own) (used : (N i).slots pos ≠ 0) :
    nmeta ≤ (N i).slots pos ∧ (N i).slots pos < s.freeblock := by
  have owner := img.blocks.owner used
  have data := data_iff.mp (img.blocks.data_of_node owner)
  refine ⟨data.1, ?_⟩
  by_contra past
  have free := img.blocks.free _ data.2
  rw [used_mapped img.below data.2, owner] at free
  simp [past] at free

theorem change {t : State} {m : Node} {own' : Nat → Owner Pid}
    (img : Image (some inum) s N own) (live : inum ≠ 0 ∧ inum < s.freeinode)
    (len : t.len = s.len) (freeinode : t.freeinode = s.freeinode)
    (more : s.freeblock ≤ t.freeblock) (below : t.freeblock ≤ FSSIZE)
    (blocks : Blocks sb t.mapped (fun _ _ => none) (update N inum m) own')
    (fresh : ∀ b, t.freeblock ≤ b → b < FSSIZE → t.disk b = Bytes.zero BSIZE)
    (dinodes : ∀ i < NINODES, dinodeAt sb t.disk i = dinodeAt sb s.disk i) :
    Image (some inum) t (update N inum m) own' where
  len := len.trans img.len
  above := img.above.trans more
  below := below
  inodes := by rw [freeinode]; exact img.inodes
  blocks := blocks
  fresh := fresh
  dinode := by
    intro i bound other
    have apart : i ≠ inum := fun same => other (by rw [same])
    rw [update_of_ne apart, dinodes i bound]
    exact img.dinode i bound other
  tight := by
    intro i other
    have apart : i ≠ inum := fun same => other (by rw [same])
    rw [update_of_ne apart]
    exact img.tight i other
  unused := by
    intro i free
    have apart : i ≠ inum := by
      rintro rfl
      rw [freeinode] at free
      exact free.elim live.1 (fun le => absurd live.2 (by omega))
    rw [update_of_ne apart]
    exact img.unused i (by rwa [freeinode] at free)

end Image

section Alloc

variable {s : State} {N : Nat → Node} {own : Nat → Owner Pid} {i pos : Nat} [DecidableEq Pid]
  {k bn : Nat} {chunk : List UInt8}

theorem mapped_update (block : Block) (other : b ≠ sb.bmapstart) :
    mapped { s with disk := update s.disk b block } = update s.mapped b block :=
  update_comm other ..

theorem ne_bmapstart (above : nmeta ≤ b) : b ≠ sb.bmapstart := by
  have : sb.bmapstart < nmeta := by decide
  omega

/-- `freeblock++` gives a block of zeros to a position of a node. -/
theorem blocks_alloc (p : Pid) (blocks : Blocks sb s.mapped (fun _ _ => none) N own)
    (above : nmeta ≤ s.freeblock) (room : s.freeblock < FSSIZE)
    (fresh : s.disk s.freeblock = Bytes.zero BSIZE) (bound : i < NINODES)
    (empty : (N i).slots pos = 0) :
    Blocks sb (mapped { s with freeblock := s.freeblock + 1 }) (fun _ _ => none)
      (update N i ((N i).put pos s.freeblock (Bytes.zero BSIZE)))
      (update own s.freeblock (.node i pos)) := by
  have free : own s.freeblock = .free := by
    rw [← blocks.free _ room, used_mapped room.le room]
    simp
  have below : FSSIZE ≤ BPB := by decide
  have taken := blocks.take free (p := p)
  have bits : update s.mapped (sb.bblock s.freeblock)
      (setBit (s.mapped (sb.bblock s.freeblock)) (s.freeblock % BPB)) =
        mapped { s with freeblock := s.freeblock + 1 } := by
    rw [bblock_eq room, Nat.mod_eq_of_lt (room.trans_le below), mapped, mapped,
      update_self, update_idem, bitmap_succ]
  have zeros : s.mapped s.freeblock = Bytes.zero BSIZE := by
    rw [mapped_of_ne (ne_bmapstart above), fresh]
  rw [bits, zeros] at taken
  have installed := taken.install (p := p) (b := s.freeblock)
    (show _ = some (Bytes.zero BSIZE) by simp) empty bound
  have loose : update (update (fun _ _ => none) p
      (update (fun _ => none) s.freeblock (some (Bytes.zero BSIZE)))) p
        (update ((update (fun _ _ => none) p
          (update (fun _ => none) s.freeblock (some (Bytes.zero BSIZE)))) p)
            s.freeblock none) = (fun (_ : Pid) (_ : Nat) => (none : Option Block)) := by
    funext q b
    by_cases same : q = p
    · subst same
      by_cases here : b = s.freeblock <;> simp [here]
    · simp [same]
  rwa [loose, update_idem] at installed

/-- The node `m` is `n` with a block at a position, and with the same bytes. -/
structure Placed (n m : Node) (pos : Nat) : Prop where
  stable : m.Stable
  used : m.slots pos ≠ 0
  slots : ∀ q, q ≠ pos → m.slots q = n.slots q
  fields : m.d = { n.d with addrs := m.d.addrs }
  byte : ∀ i, m.byte i = n.byte i

theorem byte_put_zero (zeros : ∀ i, posOf (i / BSIZE) = pos → n.byte i = 0) (i : Nat) :
    (n.put pos b (Bytes.zero BSIZE)).byte i = n.byte i := by
  by_cases here : posOf (i / BSIZE) = pos
  · rw [zeros i here, Node.byte, here, Node.data_put_self, Bytes.get_zero]
  · rw [Node.byte, Node.data_put_of_ne here, Node.byte]

theorem ne_zero_of_above (above : nmeta ≤ b) : b ≠ 0 := by
  have : 0 < nmeta := by decide
  omega

section

variable (p : Pid) (img : Image (some inum) s N own) (live : inum ≠ 0 ∧ inum < s.freeinode)
  (stable : (N inum).Stable)
include p img live stable

/-- An entry of `addrs` gets a block, if it has none and there is room. -/
theorem allocAddr_spec (i : Fin (NDIRECT + 1)) (room : (N inum).slots i = 0 → s.freeblock < FSSIZE)
    (zeros : (N inum).slots i = 0 → ∀ k, posOf (k / BSIZE) = i → (N inum).byte k = 0) :
    ∃ (m : Node) (own' : Nat → Owner Pid),
      (allocAddr s (N inum).d i).2 = m.d ∧ Placed (N inum) m i ∧
      (allocAddr s (N inum).d i).1.freeinode = s.freeinode ∧
      (allocAddr s (N inum).d i).1.freeblock =
        s.freeblock + (if (N inum).slots i = 0 then 1 else 0) ∧
      Image (some inum) (allocAddr s (N inum).d i).1 (update N inum m) own' := by
  have addr := stable.addrs i
  unfold allocAddr
  by_cases missing : (N inum).d.addrs i = 0
  · have empty : (N inum).slots i = 0 := by simp [addr, missing]
    have space := room empty
    have small : s.freeblock < 2 ^ 32 := by
      have : FSSIZE < 2 ^ 32 := by decide
      omega
    have blocks := blocks_alloc p img.blocks img.above space (img.fresh _ le_rfl space)
      (live.2.trans_le img.inodes) empty
    rw [if_pos missing, if_pos empty]
    refine ⟨((N inum).put i s.freeblock (Bytes.zero BSIZE)).setD (·.setAddr i s.freeblock),
      update own s.freeblock (.node inum i), rfl,
      ⟨stable.install empty small, ?_, ?_, rfl, ?_⟩, rfl, rfl,
      img.change live rfl rfl (Nat.le_succ _) space ?_ ?_ fun _ _ => rfl⟩
    · simpa using ne_zero_of_above img.above
    · intro q other
      rw [Node.slots_setD, Node.slots_put_ne other]
    · exact fun k => byte_put_zero (b := s.freeblock) (zeros empty) k
    · refine blocks.congr (fun _ _ => rfl) (fun _ _ => rfl) ?_ ?_
      · intro j
        by_cases same : j = inum
        · subst same
          simp
        · simp [same]
      · intro j q _
        by_cases same : j = inum
        · subst same
          simp
        · simp [same]
    · intro b past bound
      exact img.fresh b (Nat.le_of_succ_le past) bound
  · have used : (N inum).slots i ≠ 0 := by
      rw [addr]
      exact fun zero => missing (UInt32.toNat_inj.mp zero)
    rw [if_neg missing, if_neg used]
    refine ⟨N inum, own, rfl, ⟨stable, used, fun _ _ => rfl, rfl, fun _ => rfl⟩, rfl, rfl, ?_⟩
    rwa [update_eq_self]

/-- An entry of the indirect block gets a block, if it has none and there is
room. -/
theorem allocEntry_spec (used : (N inum).slots NDIRECT ≠ 0) (inside : k < NINDIRECT)
    (room : (N inum).slots (NDIRECT + 1 + k) = 0 → s.freeblock < FSSIZE)
    (zeros : (N inum).slots (NDIRECT + 1 + k) = 0 →
      ∀ j, posOf (j / BSIZE) = NDIRECT + 1 + k → (N inum).byte j = 0) :
    ∃ (m : Node) (own' : Nat → Owner Pid) (t : State) (indirect : Block),
      allocEntry s ((N inum).slots NDIRECT) (s.disk ((N inum).slots NDIRECT)) k = (t, indirect) ∧
      entryOf indirect k = m.slots (NDIRECT + 1 + k) ∧ m.d = (N inum).d ∧
      Placed (N inum) m (NDIRECT + 1 + k) ∧ t.freeinode = s.freeinode ∧
      t.freeblock = s.freeblock + (if (N inum).slots (NDIRECT + 1 + k) = 0 then 1 else 0) ∧
      Image (some inum) t (update N inum m) own' := by
  obtain ⟨low, high⟩ := img.slot_bound used
  have entry : (N inum).slots (NDIRECT + 1 + k) = entryOf ((N inum).data NDIRECT) k := by
    rw [stable.entries k inside, if_neg used]
  have content : s.disk ((N inum).slots NDIRECT) = (N inum).data NDIRECT := by
    rw [← img.blocks.content inum NDIRECT used, mapped_of_ne (ne_bmapstart low)]
  unfold allocEntry
  rw [content, ← entry]
  by_cases empty : (N inum).slots (NDIRECT + 1 + k) = 0
  · have space := room empty
    have small : s.freeblock < 2 ^ 32 := by
      have : FSSIZE < 2 ^ 32 := by decide
      omega
    have owner := img.blocks.owner used
    let block := setEntry ((N inum).data NDIRECT) k s.freeblock
    let u : State := { s with disk := update s.disk ((N inum).slots NDIRECT) block }
    have written : Blocks sb u.mapped (fun _ _ => none)
        (update N inum ((N inum).put NDIRECT ((N inum).slots NDIRECT) block)) own := by
      rw [mapped_update block (ne_bmapstart low)]
      exact img.blocks.write owner block
    have other : ∀ b, s.freeblock ≤ b → u.disk b = s.disk b := by
      intro b past
      exact update_of_ne (by omega) ..
    have still : (update N inum ((N inum).put NDIRECT ((N inum).slots NDIRECT) block)
        inum).slots (NDIRECT + 1 + k) = 0 := by
      rw [update_self, Node.slots_put_ne (by omega)]
      exact empty
    have blocks := blocks_alloc p written img.above space
      ((other _ le_rfl).trans (img.fresh _ le_rfl space)) (live.2.trans_le img.inodes) still
    rw [update_self, update_idem] at blocks
    have wide : (N inum).slots NDIRECT < FSSIZE := high.trans_le img.below
    rw [if_pos empty, if_pos empty]
    refine ⟨_, _, { u with freeblock := s.freeblock + 1 }, block, ?_, ?_, ?_,
      ⟨stable.installEntry inside used small, ?_, ?_, rfl, ?_⟩, rfl, rfl,
      img.change live rfl rfl (Nat.le_succ _) space blocks ?_ ?_⟩
    · exact Prod.ext (wsect_of_lt (s := { s with freeblock := s.freeblock + 1 }) img.len wide _) rfl
    · rw [Node.slots_put_self, entryOf_setEntry_self _ inside small]
    · rfl
    · rw [Node.slots_put_self]
      exact ne_zero_of_above img.above
    · intro q apart
      rw [Node.slots_put_ne apart]
      by_cases here : q = NDIRECT
      · rw [here, Node.slots_put_self]
      · rw [Node.slots_put_ne here]
    · intro j
      rw [byte_put_zero, Node.byte_put_indirect]
      intro l here
      rw [Node.byte_put_indirect]
      exact zeros empty l here
    · intro b past bound
      exact (other b (Nat.le_of_succ_le past)).trans (img.fresh b (Nat.le_of_succ_le past) bound)
    · intro i bound
      refine dinodeAt_update_of_ne _ _ _ ?_
      have := (iblock_bound bound).1
      have : sb.bmapstart < nmeta := by decide
      omega
  · rw [if_neg empty, if_neg empty]
    refine ⟨N inum, own, s, _, rfl, entry.symm, rfl,
      ⟨stable, empty, fun _ _ => rfl, rfl, fun _ => rfl⟩, rfl, rfl, ?_⟩
    rwa [update_eq_self]

end

/-- The node `m` is `n` with a block for the content block `bn`, and an indirect block if that is
behind the direct ones. -/
structure Reaches (n m : Node) (bn : Nat) : Prop where
  stable : m.Stable
  used : m.slots (posOf bn) ≠ 0
  slots : ∀ c, c ≠ bn → m.slots (posOf c) = n.slots (posOf c)
  indirect : m.slots NDIRECT ≠ 0 ↔ n.slots NDIRECT ≠ 0 ∨ NDIRECT ≤ bn
  fields : m.d = { n.d with addrs := m.d.addrs }
  byte : ∀ i, m.byte i = n.byte i

/-- The blocks that are missing for that. -/
def missing (n : Node) (bn : Nat) : Nat :=
  (if NDIRECT ≤ bn ∧ n.slots NDIRECT = 0 then 1 else 0) +
    if n.slots (posOf bn) = 0 then 1 else 0

theorem slots_entry_of_indirect (stable : n.Stable) (inside : k < NINDIRECT)
    (none : n.slots NDIRECT = 0) : n.slots (NDIRECT + 1 + k) = 0 := by
  rw [stable.entries k inside, if_pos none]

section

variable (p : Pid) (img : Image (some inum) s N own) (live : inum ≠ 0 ∧ inum < s.freeinode)
  (stable : (N inum).Stable) (inside : bn < MAXFILE)
include p img live stable inside

theorem iappendAddr_spec (room : s.freeblock + missing (N inum) bn ≤ FSSIZE)
    (zeros : (N inum).slots (posOf bn) = 0 → ∀ k, k / BSIZE = bn → (N inum).byte k = 0) :
    ∃ (m : Node) (own' : Nat → Owner Pid) (t : State),
      iappendAddr s (N inum).d bn = some (t, m.d, m.slots (posOf bn)) ∧ Reaches (N inum) m bn ∧
      t.freeinode = s.freeinode ∧ t.freeblock = s.freeblock + missing (N inum) bn ∧
      Image (some inum) t (update N inum m) own' := by
  unfold iappendAddr
  by_cases first : bn < NDIRECT
  · have pos : posOf bn = bn := Node.posOf_direct first
    have far : ¬ NDIRECT ≤ bn := by omega
    unfold missing at room ⊢
    rw [if_neg (fun both => far both.1), Nat.zero_add, pos] at room ⊢
    rw [pos] at zeros
    obtain ⟨m, own', fields, placed, freeinode, freeblock, after⟩ :=
      allocAddr_spec p img live stable ⟨bn, Nat.lt_succ_of_lt first⟩
        (fun empty => by rw [if_pos empty] at room; omega)
        (fun empty k here => zeros empty k (posOf_injective (here.trans pos.symm)))
    rw [dif_pos first]
    refine ⟨m, own', _, ?_, ⟨placed.stable, by rw [pos]; exact placed.used, ?_, ?_, placed.fields,
      placed.byte⟩, freeinode, freeblock, after⟩
    · simp only [fields, Option.some.injEq, Prod.mk.injEq, true_and]
      exact (placed.stable.addrs ⟨bn, Nat.lt_succ_of_lt first⟩).symm
    · intro c other
      exact placed.slots _ fun same => other (posOf_injective (same.trans pos.symm))
    · rw [placed.slots NDIRECT (Nat.ne_of_gt first)]
      exact ⟨.inl, fun either => either.elim id fun le => absurd le far⟩
  · have far : NDIRECT ≤ bn := Nat.le_of_not_lt first
    have inner : bn - NDIRECT < NINDIRECT := by
      unfold MAXFILE at inside
      omega
    have pos := Node.posOf_indirect first
    have entry_empty := slots_entry_of_indirect stable inner
    unfold missing at room ⊢
    rw [pos] at room zeros ⊢
    obtain ⟨m₁, own₁, fields₁, placed₁, freeinode₁, freeblock₁, img₁⟩ :=
      allocAddr_spec p img live stable INDIRECT (fun empty => by
          rw [if_pos ⟨far, empty⟩, if_pos (entry_empty empty)] at room
          omega)
        (fun _ k here => absurd here (posOf_ne_indirect _))
    have used : m₁.slots NDIRECT ≠ 0 := placed₁.used
    have same_entry : m₁.slots (NDIRECT + 1 + (bn - NDIRECT)) =
        (N inum).slots (NDIRECT + 1 + (bn - NDIRECT)) :=
      placed₁.slots _ (by simp only [INDIRECT, Fin.val_last]; omega)
    have addr : (m₁.d.addrs INDIRECT).toNat = m₁.slots NDIRECT :=
      (placed₁.stable.addrs INDIRECT).symm
    have far_iff : (NDIRECT ≤ bn ∧ (N inum).slots NDIRECT = 0) ↔
        (N inum).slots INDIRECT = 0 := and_iff_right far
    rw [if_congr far_iff rfl rfl] at room ⊢
    generalize allocAddr s (N inum).d INDIRECT = alloc at *
    obtain ⟨s₁, din₁⟩ := alloc
    simp only at fields₁ freeinode₁ freeblock₁ img₁
    subst fields₁
    have node : update N inum m₁ inum = m₁ := update_self ..
    obtain ⟨m, own', t, indirect, allocated, entry, fields, placed, freeinode, freeblock, after⟩ :=
      allocEntry_spec (k := bn - NDIRECT) p img₁ (by rwa [freeinode₁])
        (by rw [node]; exact placed₁.stable)
        (by rwa [node]) inner
          (by rw [node, same_entry]; intro empty; rw [if_pos empty] at room; omega)
        (by
          rw [node, same_entry]
          intro empty j here
          rw [placed₁.byte]
          exact zeros empty j (posOf_injective (here.trans pos.symm)))
    rw [node] at allocated fields placed freeblock
    rw [update_idem] at after
    have wide : m₁.slots NDIRECT < FSSIZE := by
      have bound := (img₁.slot_bound (i := inum) (by rwa [node])).2
      rw [node] at bound
      exact bound.trans_le img₁.below
    rw [dif_neg first]
    refine ⟨m, own', t, ?_, ⟨placed.stable, by rw [pos]; exact placed.used, ?_, ?_, ?_, ?_⟩,
      freeinode.trans freeinode₁, ?_, after⟩
    · simp only [addr, rsect_of_lt img₁.len wide, bind_eq_bind, bind_some, allocated,
        entry, fields, pure_def]
    · intro c other
      have apart : posOf c ≠ NDIRECT + 1 + (bn - NDIRECT) := by
        rw [← pos]
        exact fun same => other (posOf_injective same)
      rw [placed.slots _ apart, placed₁.slots _ (posOf_ne_indirect c)]
    · rw [placed.slots NDIRECT (by omega)]
      exact ⟨fun _ => .inr far, fun _ => used⟩
    · rw [fields, placed₁.fields]
    · intro j
      rw [placed.byte, placed₁.byte]
    · rw [freeblock, freeblock₁, same_entry]
      omega

/-- Without room the search for a block ends in a block that cannot be read. -/
theorem iappendAddr_none (full : FSSIZE < s.freeblock + missing (N inum) bn) :
    (iappendAddr s (N inum).d bn).bind (fun found => found.1.rsect found.2.2) = none := by
  have small : FSSIZE < 2 ^ 32 := by decide
  have below := img.below
  have address : ∀ i : Fin (NDIRECT + 1), (N inum).slots i = 0 → s.freeblock = FSSIZE →
      allocAddr s (N inum).d i =
        ({ s with freeblock := s.freeblock + 1 }, (N inum).d.setAddr i FSSIZE) := by
    intro i empty last
    have none : (N inum).d.addrs i = 0 := by
      rw [stable.addrs i] at empty
      exact UInt32.toNat_inj.mp empty
    rw [allocAddr, if_pos none, last]
  have value : ∀ i : Fin (NDIRECT + 1), (((N inum).d.setAddr i FSSIZE).addrs i).toNat = FSSIZE := by
    intro i
    simp only [Dinode.setAddr, update_self]
    exact UInt32.toNat_ofNat_of_lt small
  have unreadable : ∀ b, rsect { s with freeblock := b } FSSIZE = none :=
    fun b => rsect_end (s := { s with freeblock := b }) img.len
  unfold iappendAddr
  unfold missing at full
  by_cases first : bn < NDIRECT
  · have pos : posOf bn = bn := Node.posOf_direct first
    rw [if_neg (fun both => absurd both.1 (by omega)), Nat.zero_add, pos] at full
    have empty : (N inum).slots bn = 0 := by
      by_contra used
      rw [if_neg used] at full
      omega
    have last : s.freeblock = FSSIZE := by
      rw [if_pos empty] at full
      omega
    rw [dif_pos first]
    simp only [address ⟨bn, Nat.lt_succ_of_lt first⟩ empty last, value, bind_some, unreadable]
  · have far : NDIRECT ≤ bn := Nat.le_of_not_lt first
    have inner : bn - NDIRECT < NINDIRECT := by
      unfold MAXFILE at inside
      omega
    rw [dif_neg first]
    by_cases last : s.freeblock = FSSIZE ∧ (N inum).slots NDIRECT = 0
    · simp only [address INDIRECT last.2 last.1, value, unreadable, bind_eq_bind, bind_none]
    · -- the indirect block is found or allocated, but not the block of the entry
      have room : (N inum).slots INDIRECT = 0 → s.freeblock < FSSIZE :=
        fun empty => by have : ¬ s.freeblock = FSSIZE := fun same => last ⟨same, empty⟩; omega
      obtain ⟨m, own', fields, placed, -, freeblock, img'⟩ :=
        allocAddr_spec p img live stable INDIRECT room
          (fun _ k here => absurd here (posOf_ne_indirect _))
      have far_iff : (NDIRECT ≤ bn ∧ (N inum).slots NDIRECT = 0) ↔
          (N inum).slots INDIRECT = 0 := and_iff_right far
      rw [if_congr far_iff rfl rfl, Node.posOf_indirect first] at full
      have empty : (N inum).slots (NDIRECT + 1 + (bn - NDIRECT)) = 0 := by
        by_contra used
        rw [if_neg used] at full
        split at full
        next none => have := room none; omega
        next => omega
      rw [if_pos empty] at full
      generalize allocAddr s (N inum).d INDIRECT = alloc at *
      obtain ⟨t, din⟩ := alloc
      simp only at fields freeblock img'
      subst fields
      have node : update N inum m inum = m := update_self ..
      have used : m.slots NDIRECT ≠ 0 := placed.used
      have bound := img'.slot_bound (i := inum) (by rwa [node])
      rw [node] at bound
      have wide : m.slots NDIRECT < FSSIZE := bound.2.trans_le img'.below
      have addr : (m.d.addrs INDIRECT).toNat = m.slots NDIRECT :=
        (placed.stable.addrs INDIRECT).symm
      have exhausted : t.freeblock = FSSIZE := by
        have := img'.below
        omega
      have content : t.disk (m.slots NDIRECT) = m.data NDIRECT := by
        have content := img'.blocks.content inum NDIRECT (by rwa [node])
        rwa [node, mapped_of_ne (ne_bmapstart bound.1)] at content
      have entry : entryOf (t.disk (m.slots NDIRECT)) (bn - NDIRECT) = 0 := by
        have entries := placed.stable.entries _ inner
        rw [if_neg used, placed.slots _ (by simp only [INDIRECT, Fin.val_last]; omega), empty]
          at entries
        rw [content]
        exact entries.symm
      simp only [addr, rsect_of_lt img'.len wide, bind_eq_bind, bind_some, allocEntry,
        if_pos entry, pure_def, exhausted, entryOf_setEntry_self _ inner small]
      rw [wsect_of_lt (s := { t with freeblock := FSSIZE + 1 }) img'.len wide]
      exact rsect_end img'.len

end

/-! ## A pass of `iappend` -/

theorem missing_add {len : Nat} (tight : Tight n off) (more : 0 < len)
    (fits : off % BSIZE + len ≤ BSIZE) :
    missing n (off / BSIZE) + blocksOf off = blocksOf (off + len) := by
  have empty : n.slots (posOf (off / BSIZE)) = 0 ↔ off % BSIZE = 0 := by
    rw [← not_iff_not, ← ne_eq, tight.slots]
    unfold BSIZE
    omega
  have none : n.slots NDIRECT = 0 ↔ ¬ NDIRECT * BSIZE < off := by
    rw [← tight.indirect, not_not]
  unfold missing blocksOf
  simp only [empty, none]
  unfold NDIRECT BSIZE at *
  split_ifs <;> omega

section

variable (p : Pid) (img : Image (some inum) s N own) (live : inum ≠ 0 ∧ inum < s.freeinode)
  (tight : Tight (N inum) off) (inside : off / BSIZE < MAXFILE) (more : 0 < chunk.length)
  (fits : off % BSIZE + chunk.length ≤ BSIZE)
include p img live tight inside more fits

/-- A pass with room: the chunk is behind the content, and the node is as tight
as before. -/
theorem iappendPass_spec
    (room : s.freeblock + blocksOf (off + chunk.length) ≤ FSSIZE + blocksOf off) :
    ∃ (m : Node) (own' : Nat → Owner Pid) (t : State),
      iappendPass s (N inum).d off chunk = some (t, m.d) ∧ Tight m (off + chunk.length) ∧
      m.d = { (N inum).d with addrs := m.d.addrs } ∧
      m.bytes 0 (off + chunk.length) = (N inum).bytes 0 off ++ chunk ∧
      t.freeinode = s.freeinode ∧
      t.freeblock + blocksOf off = s.freeblock + blocksOf (off + chunk.length) ∧
      Image (some inum) t (update N inum m) own' := by
  have count := missing_add tight more fits
  obtain ⟨m, own', t, found, reaches, freeinode, freeblock, img'⟩ :=
    iappendAddr_spec p img live tight.stable inside (by omega) (by
      intro empty k here
      refine tight.rest k ?_
      by_contra early
      refine (tight.slots (off / BSIZE)).mpr ?_ empty
      unfold BSIZE at *
      omega)
  have node : update N inum m inum = m := update_self ..
  have bound := img'.slot_bound (i := inum) (by rw [node]; exact reaches.used)
  rw [node] at bound
  have wide := bound.2.trans_le img'.below
  have read : t.rsect (m.slots (posOf (off / BSIZE))) = some (m.data (posOf (off / BSIZE))) := by
    have content := img'.blocks.content inum _ (by rw [node]; exact reaches.used)
    rw [node, mapped_of_ne (ne_bmapstart bound.1)] at content
    rw [rsect_of_lt img'.len wide, content]
  have offset : off - off / BSIZE * BSIZE = off % BSIZE := by
    unfold BSIZE
    omega
  have byte := fun i => m.byte_put_writeAt (m.slots (posOf (off / BSIZE))) fits i
  generalize blockEq : (m.data (posOf (off / BSIZE))).writeAt (off % BSIZE) chunk = block at byte
  have written := img'.blocks.write (img'.blocks.owner (i := inum) (by
    rw [node]; exact reaches.used)) block
  rw [node, update_idem, ← mapped_update block (ne_bmapstart bound.1)] at written
  have end_le : off + chunk.length ≤ MAXFILE * BSIZE := by
    unfold MAXFILE NDIRECT NINDIRECT BSIZE at *
    omega
  refine ⟨m.put (posOf (off / BSIZE)) (m.slots (posOf (off / BSIZE))) block, own',
    { t with disk := update t.disk (m.slots (posOf (off / BSIZE))) block }, ?_,
    ⟨reaches.stable.rewrite _ _, ?_, ?_, end_le, ?_⟩, reaches.fields, ?_, freeinode, ?_, ?_⟩
  · simp only [iappendPass, found, bind_eq_bind, bind_some, read, offset, blockEq,
      pure_def, wsect_of_lt img'.len wide, Node.d_put]
  · intro bn
    rw [Node.slots_put_same]
    by_cases here : bn = off / BSIZE
    · subst here
      exact iff_of_true reaches.used (by unfold BSIZE at *; omega)
    · rw [reaches.slots bn here, tight.slots bn]
      unfold BSIZE at *
      omega
  · rw [Node.slots_put_same, reaches.indirect, tight.indirect]
    unfold NDIRECT BSIZE at *
    omega
  · intro i past
    rw [byte, if_neg (by omega), reaches.byte]
    exact tight.rest i (by omega)
  · rw [Node.bytes_add, Nat.zero_add]
    congr 1
    · refine Node.bytes_congr fun i below => ?_
      rw [Nat.zero_add, byte, if_neg (by omega), reaches.byte]
    · refine Node.bytes_eq_list fun i below => ?_
      rw [byte, if_pos (by omega), Nat.add_sub_cancel_left]
  · show t.freeblock + _ = _
    omega
  · have after := img'.change (t := { t with
      disk := update t.disk (m.slots (posOf (off / BSIZE))) block }) (by rwa [freeinode])
      rfl rfl le_rfl img'.below (by rw [update_idem]; exact written) ?_ ?_
    · rwa [update_idem] at after
    · intro b past small
      have past : t.freeblock ≤ b := past
      exact (update_of_ne (by omega) ..).trans (img'.fresh b past small)
    · intro i small
      refine dinodeAt_update_of_ne _ _ _ ?_
      have := (iblock_bound small).1
      have : sb.bmapstart < nmeta := by decide
      omega

theorem iappendPass_none
    (full : FSSIZE + blocksOf off < s.freeblock + blocksOf (off + chunk.length)) :
    iappendPass s (N inum).d off chunk = none := by
  have count := missing_add tight more fits
  have failed := iappendAddr_none p img live tight.stable inside (by omega)
  unfold iappendPass
  cases found : iappendAddr s (N inum).d (off / BSIZE) with
  | none => rfl
  | some result =>
    rw [found, bind_some] at failed
    simp only [bind_eq_bind, bind_some, failed, bind_none]

end

/-! ## `iappend` -/

theorem passLength_le (off n : Nat) :
    passLength off n ≤ n ∧ off % BSIZE + passLength off n ≤ BSIZE := by
  unfold passLength BSIZE
  omega

theorem blocksOf_mono {size more : Nat} (le : size ≤ more) : blocksOf size ≤ blocksOf more := by
  unfold blocksOf NDIRECT BSIZE
  split_ifs <;> omega

/-- The bytes fit behind the offset: in a file, and in the blocks that are left. -/
def Fits (s : State) (off len : Nat) : Prop :=
  off + len ≤ MAXFILE * BSIZE ∧ s.freeblock + blocksOf (off + len) ≤ FSSIZE + blocksOf off

theorem iappendLoop_spec (p : Pid) (list : List UInt8) :
    ∀ {s : State} {N : Nat → Node} {own : Nat → Owner Pid} {off : Nat},
    Image (some inum) s N own → inum ≠ 0 ∧ inum < s.freeinode → Tight (N inum) off →
    (¬ Fits s off list.length → iappendLoop s (N inum).d off list = none) ∧
    (Fits s off list.length → ∃ (m : Node) (own' : Nat → Owner Pid) (t : State),
      iappendLoop s (N inum).d off list = some (t, m.d, off + list.length) ∧
      Tight m (off + list.length) ∧ m.d = { (N inum).d with addrs := m.d.addrs } ∧
      m.bytes 0 (off + list.length) = (N inum).bytes 0 off ++ list ∧
      t.freeinode = s.freeinode ∧
      t.freeblock + blocksOf off = s.freeblock + blocksOf (off + list.length) ∧
      Image (some inum) t (update N inum m) own') := by
  -- induction on the bytes that are left, as the loop runs
  induction hlen : list.length using Nat.strong_induction_on generalizing list with
  | _ n ih =>
    intro s N own off img live tight
    subst hlen
    rw [iappendLoop]
    by_cases more : 0 < list.length
    · rw [dif_pos more]
      obtain ⟨le, inBlock⟩ := passLength_le off list.length
      have positive := passLength_pos off more
      generalize passLength off list.length = len at le inBlock positive
      have taken : (list.take len).length = len := List.length_take_of_le le
      have left : (list.drop len).length = list.length - len := List.length_drop ..
      have total : off + len + (list.length - len) = off + list.length := by omega
      by_cases inside : off / BSIZE < MAXFILE
      · rw [if_pos inside]
        by_cases room : s.freeblock + blocksOf (off + len) ≤ FSSIZE + blocksOf off
        · obtain ⟨m, own', t, passed, tight', fields, bytes, freeinode, freeblock, img'⟩ :=
            iappendPass_spec p img live tight inside (taken ▸ positive) (by rwa [taken])
              (by rwa [taken])
          rw [taken] at tight' bytes freeblock
          have node : update N inum m inum = m := update_self ..
          have next := ih (list.length - len) (by omega) (list.drop len) left img'
            (by rwa [freeinode]) (by rwa [node])
          rw [node, total] at next
          simp only [passed, bind_eq_bind, bind_some]
          have fits_iff : Fits t (off + len) (list.length - len) ↔ Fits s off list.length := by
            unfold Fits
            rw [total]
            omega
          rw [fits_iff] at next
          refine ⟨next.1, fun fits => ?_⟩
          obtain ⟨m', own'', t', looped, tight'', fields', bytes', freeinode', freeblock', img''⟩ :=
            next.2 fits
          rw [update_idem] at img''
          refine ⟨m', own'', t', looped, tight'', by rw [fields', fields], ?_,
            freeinode'.trans freeinode, by omega, img''⟩
          rw [bytes', bytes, List.append_assoc, List.take_append_drop]
        · have failed := iappendPass_none p img live tight inside (taken ▸ positive)
            (by rwa [taken]) (by rw [taken]; omega)
          simp only [failed, bind_eq_bind, bind_none]
          refine ⟨fun _ => trivial, fun fits => absurd ?_ room⟩
          have := blocksOf_mono (show off + len ≤ off + list.length by omega)
          have := fits.2
          omega
      · rw [if_neg inside]
        refine ⟨fun _ => rfl, fun fits => absurd ?_ inside⟩
        have := fits.1
        unfold MAXFILE NDIRECT NINDIRECT BSIZE at *
        omega
    · rw [dif_neg more]
      obtain rfl : list = [] := List.eq_nil_of_length_eq_zero (by omega)
      have fits : Fits s off 0 := ⟨tight.size_le, Nat.add_le_add_right img.below _⟩
      refine ⟨fun misfit => absurd fits misfit, fun _ => ?_⟩
      refine ⟨N inum, own, s, rfl, tight, rfl, (List.append_nil _).symm, rfl, rfl, ?_⟩
      rwa [update_eq_self]

theorem winode_eq (len : s.len = FSSIZE) (bound : inum < NINODES) (d : Dinode) :
    s.winode inum d = some { s with disk := putDinode sb s.disk inum d } := by
  have wide := (iblock_bound bound).2
  simp only [winode, rsect_of_lt len wide, wsect_of_lt len wide, bind_eq_bind, bind_some, pure_def]
  rfl

theorem rinode_eq (img : Image none s N own) (bound : inum < NINODES) :
    s.rinode inum = some (N inum).d := by
  simp only [rinode, rsect_of_lt img.len (iblock_bound bound).2, bind_eq_bind, bind_some, pure_def]
  exact congrArg some (img.dinode inum bound (by simp))

theorem mapped_putDinode (bound : inum < NINODES) (d : Dinode) :
    mapped { s with disk := putDinode sb s.disk inum d } = putDinode sb s.mapped inum d := by
  have apart : sb.iblock inum ≠ sb.bmapstart := Nat.ne_of_lt (iblock_bound bound).1
  rw [putDinode, putDinode, mapped_update _ apart, mapped_of_ne apart]

theorem Image.store {d : Dinode} (img : Image (some inum) s N own)
    (live : inum ≠ 0 ∧ inum < s.freeinode) (tight : Tight ((N inum).setD fun _ => d) d.size.toNat) :
    Image none { s with disk := putDinode sb s.disk inum d }
      (update N inum ((N inum).setD fun _ => d)) own := by
  have bound := live.2.trans_le img.inodes
  refine ⟨img.len, img.above, img.below, img.inodes, ?_, ?_, ?_, ?_, ?_⟩
  · rw [mapped_putDinode bound]
    refine (img.blocks.putDinode bound d).congr (fun _ _ => rfl) (fun _ _ => rfl) ?_ ?_
    · intro j
      by_cases same : j = inum
      · subst same
        simp
      · simp [same]
    · intro j q _
      by_cases same : j = inum
      · subst same
        simp
      · simp [same]
  · intro b past small
    refine (update_of_ne ?_ ..).trans (img.fresh b past small)
    have := (iblock_bound bound).1
    have : sb.bmapstart < nmeta := by decide
    have := img.above
    have : s.freeblock ≤ b := past
    omega
  · intro i small _
    by_cases same : i = inum
    · subst same
      rw [update_self, Node.d_setD]
      exact dinodeAt_putDinode_self ..
    · rw [update_of_ne same]
      exact (dinodeAt_putDinode_of_ne _ _ _ same).trans
        (img.dinode i small (by simpa using Ne.symm same))
  · intro i _
    by_cases same : i = inum
    · subst same
      rwa [update_self]
    · rw [update_of_ne same]
      exact img.tight i (by simpa using Ne.symm same)
  · intro i free
    have apart : i ≠ inum := by
      rintro rfl
      exact free.elim live.1 (fun le => absurd live.2 (Nat.not_lt.mpr le))
    rw [update_of_ne apart]
    exact img.unused i free

/-- The result of appending `list` to an inode: nothing if it does not fit, and
else the longer content. -/
def Appends (s : State) (N : Nat → Node) (Pid : Type) (inum : Nat) (list : List UInt8)
    (result : Option State) : Prop :=
  (¬ Fits s (N inum).size list.length → result = none) ∧
  (Fits s (N inum).size list.length → ∃ (m : Node) (own' : Nat → Owner Pid) (t : State),
    result = some t ∧ Image none t (Function.update N inum m) own' ∧
    m.content = (N inum).content ++ list ∧ m.size = (N inum).size + list.length ∧
    m.d = { (N inum).d with size := m.d.size, addrs := m.d.addrs } ∧
    t.freeinode = s.freeinode ∧
    t.freeblock + blocksOf (N inum).size = s.freeblock + blocksOf m.size)

theorem iappend_spec (p : Pid) (inum : Nat) (img : Image none s N own)
    (live : inum ≠ 0 ∧ inum < s.freeinode) (list : List UInt8) :
    Appends s N Pid inum list (iappend s inum list) := by
  have bound := live.2.trans_le img.inodes
  have opened : Image (some inum) s N own :=
    { img with
      dinode := fun i small _ => img.dinode i small (by simp)
      tight := fun i _ => img.tight i (by simp) }
  obtain ⟨fails, succeeds⟩ := iappendLoop_spec p list opened live (img.tight inum (by simp))
  have size : (N inum).d.size.toNat = (N inum).size := rfl
  unfold iappend
  simp only [rinode_eq img bound, bind_eq_bind, bind_some, size]
  constructor
  · intro misfit
    rw [fails misfit]
    rfl
  · intro fits
    obtain ⟨m, own', t, looped, tight, fields, bytes, freeinode, freeblock, img'⟩ := succeeds fits
    have node : update N inum m inum = m := update_self ..
    have small : (UInt32.ofNat ((N inum).size + list.length)).toNat =
        (N inum).size + list.length := by
      have : MAXFILE * BSIZE < 2 ^ 32 := by decide
      have := fits.1
      have below : (N inum).size + list.length < 2 ^ 32 := by omega
      exact UInt32.toNat_ofNat_of_lt below
    have stored := img'.store (d := { m.d with size := UInt32.ofNat ((N inum).size + list.length) })
      (by rwa [freeinode]) (by
        rw [node, small]
        refine ⟨⟨tight.stable.addrs, tight.stable.entries, tight.stable.past⟩, tight.slots,
          tight.indirect, tight.size_le, tight.rest⟩)
    rw [node, update_idem] at stored
    refine ⟨_, own', _, ?_, stored, ?_, small, ?_, freeinode, ?_⟩
    · rw [looped]
      exact winode_eq img'.len (by rw [← freeinode] at live; exact live.2.trans_le img'.inodes) _
    · exact (congrArg (m.bytes 0) small).trans bytes
    · rw [Node.d_setD, fields]
    · exact freeblock.trans (congrArg (fun size => s.freeblock + blocksOf size) small.symm)

theorem iappends_spec (p : Pid) (inum : Nat) (chunks : List (List UInt8)) :
    ∀ {s : State} {N : Nat → Node} {own : Nat → Owner Pid}, Image none s N own →
      inum ≠ 0 ∧ inum < s.freeinode →
      Appends s N Pid inum chunks.flatten (chunks.foldlM (fun s buf => iappend s inum buf) s) := by
  induction chunks with
  | nil =>
    intro s N own img live
    have fits : Fits s (N inum).size 0 :=
      ⟨(img.tight inum (by simp)).size_le, Nat.add_le_add_right img.below _⟩
    refine ⟨fun misfit => absurd fits misfit, fun _ => ⟨N inum, own, s, rfl, ?_,
      (List.append_nil _).symm, rfl, rfl, rfl, rfl⟩⟩
    rwa [update_eq_self]
  | cons chunk chunks ih =>
    intro s N own img live
    obtain ⟨fails, succeeds⟩ := iappend_spec p inum img live chunk
    rw [List.foldlM_cons, List.flatten_cons]
    by_cases room : Fits s (N inum).size chunk.length
    · obtain ⟨m, own', t, appended, img', content, size, fields, freeinode, freeblock⟩ :=
        succeeds room
      have node : update N inum m inum = m := update_self ..
      have rest := ih img' (by rwa [freeinode])
      rw [appended, bind_eq_bind, bind_some]
      unfold Appends at rest ⊢
      rw [node] at rest
      have fits_iff : Fits t m.size chunks.flatten.length ↔
          Fits s (N inum).size (chunk ++ chunks.flatten).length := by
        unfold Fits at room ⊢
        rw [List.length_append, size, ← Nat.add_assoc, ← size]
        omega
      rw [← fits_iff]
      refine ⟨rest.1, fun fits => ?_⟩
      obtain ⟨m', own'', t', looped, img'', content', size', fields', freeinode', freeblock'⟩ :=
        rest.2 fits
      rw [update_idem] at img''
      refine ⟨m', own'', t', looped, img'', ?_, ?_, ?_, freeinode'.trans freeinode, by omega⟩
      · rw [content', content, List.append_assoc]
      · rw [size', size, List.length_append, Nat.add_assoc]
      · rw [fields', fields]
    · rw [fails room]
      refine ⟨fun _ => rfl, fun fits => absurd ⟨?_, ?_⟩ room⟩
      · have := fits.1
        rw [List.length_append] at this
        omega
      · have := fits.2
        rw [List.length_append] at this
        have := blocksOf_mono (show (N inum).size + chunk.length ≤
          (N inum).size + (chunk.length + chunks.flatten.length) by omega)
        omega

theorem ialloc_spec (type : Int16) (img : Image none s N own) (positive : s.freeinode ≠ 0)
    (more : s.freeinode < NINODES) :
    ∃ t m, s.ialloc type = some (s.freeinode, t) ∧ Image none t (update N s.freeinode m) own ∧
      m.d = { Dinode.zero with type := type, nlink := 1 } ∧ m.content = [] ∧
      t.freeinode = s.freeinode + 1 ∧ t.freeblock = s.freeblock := by
  let u : State := { s with freeinode := s.freeinode + 1 }
  have opened : Image (some s.freeinode) u N own :=
    { img with
      inodes := more
      dinode := fun i small _ => img.dinode i small (by simp)
      tight := fun i _ => img.tight i (by simp)
      unused := fun i free => img.unused i (free.imp id Nat.le_of_succ_le) }
  have zero : (N s.freeinode).d = Dinode.zero := img.unused _ (.inr le_rfl)
  have tight := img.tight s.freeinode (by simp)
  have size : (N s.freeinode).size = 0 := by rw [Node.size, zero]; rfl
  rw [size] at tight
  have stored := opened.store (d := { Dinode.zero with type := type, nlink := 1 })
    ⟨positive, Nat.lt_succ_self _⟩
    ⟨⟨fun i => by rw [Node.slots_setD, tight.stable.addrs i, zero]; rfl, tight.stable.entries,
      tight.stable.past⟩, tight.slots, tight.indirect, tight.size_le, tight.rest⟩
  refine ⟨_, _, ?_, stored, rfl, rfl, rfl, rfl⟩
  simp only [State.ialloc, winode_eq (s := u) img.len more, bind_eq_bind, bind_some, pure_def, u]

end Alloc

end Xv6.Mkfs
