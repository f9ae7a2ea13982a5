import Xv6.Fs.Held

/-!
# The steps on a locked inode

One rule for each step that reads or changes an inode under its lock, the blocks
of it, or the free map.
-/

namespace Xv6.Fs

open Function State Node

variable {Pid : Type} [DecidableEq Pid] [Fintype Pid] {sb : Super} {C : Setting Pid} {p : Pid}
  {l : Local Pid} {w : Option World} {e : Fin NINODE} {v : View} {block : Block} {b pos k bi : Nat}

/-! ## Reading -/

section

variable (viewed : l.view e = some v) {s : State Pid}
include viewed

theorem safe_getInode : Safe sb C p (getInode e) l w fun ip l' w' =>
      (ip.inum = v.inum ∧ ip.dev = ROOTDEV ∧ (v.owned = true → ip.d = v.node.d)) ∧
        l' = l ∧ w' = w := by
  refine safe_read fun s gs N own mine core known => ⟨_, rfl, ?_⟩
  subst mine
  have agrees := core.agrees viewed
  exact ⟨agrees.inum, (core.table.entry e (core.pos viewed)).1,
    fun owned => (agrees.mem owned).2⟩

theorem safe_readBlock (owned : v.owned = true) (used : v.node.slots pos ≠ 0) :
    Safe sb C p (readBlock (v.node.slots pos)) l w fun block l' w' =>
      block = v.node.data pos ∧ l' = l ∧ w' = w := by
  refine safe_read fun s gs N own mine core known => ⟨_, rfl, ?_⟩
  subst mine
  exact (core.blocks.of_view ((core.agrees viewed).node owned) used).2

/-! ## Blocks and fields -/

omit viewed in
theorem touch_write (p : Pid) (e : Fin NINODE) (away : ∀ i < sb.ninodes, b ≠ sb.iblock i) :
    Touch sb s (s.write p b block) e (s.itable e).d where
  itable := (update_eq_self e s.itable).symm
  ftable := rfl
  procs := rfl
  building := rfl
  outstanding := rfl
  dinodes := fun i bound => dinodeAt_update_of_ne _ _ _ (away i bound)

section

variable (owned : v.owned = true)
include owned

theorem safe_logWrite (op : l.op = true) (used : v.node.slots pos ≠ 0) (f : Block → Block) :
    Safe sb C p (logWrite p (v.node.slots pos) f) l w fun _ l' w' =>
      l' = l.setView e { v with
        node := v.node.put pos (v.node.slots pos) (f (v.node.data pos)) } ∧ w' = w := by
  refine safe_held_keep viewed owned (.inl rfl) ?_
  intro s looses N own _ blocks node bound fields trans
  obtain ⟨owner, content⟩ := blocks.of_view node used
  refine ⟨_, log_eq (trans op), ?_, ?_⟩
  · rw [d_put, ← fields]
    exact touch_write p e fun _ bound => (blocks.data_of_node owner).ne_iblock bound
  · have after := blocks.write owner (f (v.node.data pos))
    rw [node] at after
    simpa only [write, content] using after

theorem safe_scribble (used : v.node.slots pos ≠ 0) (f : Block → Block) :
    Safe sb C p (scribble (v.node.slots pos) f) l w fun _ l' w' =>
      l' = l.setView e { v with
        node := v.node.put pos (v.node.slots pos) (f (v.node.data pos)) } ∧ w' = w := by
  refine safe_held_keep viewed owned (.inl rfl) ?_
  intro s looses N own _ blocks node bound fields trans
  obtain ⟨owner, content⟩ := blocks.of_view node used
  have data := blocks.data_of_node owner
  refine ⟨_, rfl, ?_, ?_⟩
  · rw [d_put, ← fields]
    exact ⟨(update_eq_self e s.itable).symm, rfl, rfl, rfl, rfl,
      fun _ bound => dinodeAt_update_of_ne _ _ _ (data.ne_iblock bound)⟩
  · have after := blocks.write owner (f (v.node.data pos))
    rw [node] at after
    simpa only [content] using after

theorem safe_setDinodeMem
    (f : Dinode → Dinode) (type : (f v.node.d).type = v.node.d.type ∨ v.sole = true) :
    Safe sb C p (setDinodeMem e f) l w fun _ l' w' =>
      l' = l.setView e { v with node := v.node.setD f } ∧ w' = w := by
  refine safe_held_keep viewed owned type ?_
  intro s looses N own _ blocks node bound fields trans
  refine ⟨_, rfl, ⟨?_, rfl, rfl, rfl, rfl, fun _ _ => rfl⟩, ?_⟩
  · rw [d_setD, ← fields]
    rfl
  · refine blocks.congr (fun _ _ => rfl) (fun _ _ => rfl) ?_ ?_
    · intro i
      by_cases same : i = v.inum
      · subst same
        rw [update_self, slots_setD, node]
      · rw [update_of_ne same]
    · intro i pos _
      by_cases same : i = v.inum
      · subst same
        rw [update_self, data_setD, node]
      · rw [update_of_ne same]

end

end

/-! ## The free map -/

theorem freeBit_some (found : freeBit sb k block = some bi) :
    bi < BPB ∧ k * BPB + bi < sb.size ∧ isSet block bi = false := by
  have mem := List.mem_of_find?_eq_some found
  have test := List.find?_some found
  rw [List.mem_range'_1] at mem
  simp only [decide_eq_true_eq] at test
  exact ⟨by omega, test⟩

theorem freeBit_none (missing : freeBit sb k block = none)
    (bound : bi < BPB) (small : k * BPB + bi < sb.size) : isSet block bi = true := by
  have test := List.find?_eq_none.mp missing bi (List.mem_range'_1.mpr (by omega))
  simp only [decide_eq_true_eq, not_and, Bool.not_eq_false] at test
  exact test small

/-- A block number from its block of the free map and its bit. -/
theorem split_block (bound : bi < BPB) : (k * BPB + bi) / BPB = k ∧ (k * BPB + bi) % BPB = bi := by
  unfold BPB BSIZE at *
  omega

theorem safe_ballocAt (viewed : l.view e = some v) (owned : v.owned = true) (op : l.op = true)
    (k : Nat) :
    Safe sb C p (ballocAt sb p k) l w fun found l' w' =>
      match found with
      | some b => sb.Data b ∧ l.loose b = none ∧
          (∃ block, l' = { l with loose := update l.loose b (some block) }) ∧
          ∃ F, w' = withFree w F
      | none => l' = l ∧ w' = w ∧ ∀ W, w = some W → ∀ b < sb.size, W.free b → b / BPB ≠ k := by
  refine safe_step fun s gs N own mine core known => ?_
  subst mine
  have agrees := core.agrees viewed
  cases found : freeBit sb k (s.disk (sb.bmapstart + k)) with
  | none =>
    simp only [found]
    intro _
    refine ⟨gs p, w, N, own, rfl, ?_, ?_, rfl, rfl, ?_⟩
    · rw [update_eq_self]
      exact core
    · rw [update_eq_self]
      exact known
    · rintro W here b small free rfl
      have unset : used sb s.disk b = false :=
        (core.blocks.free b small).mpr (((known W here).free b).mpr free)
      have set := freeBit_none found (Nat.mod_lt b (by decide : 0 < BPB))
        (by rw [Nat.div_add_mod']; exact small)
      rw [Nat.add_comm] at set
      unfold used Super.bblock at unset
      rw [unset] at set
      cases set
  | some bi =>
    obtain ⟨bound, small, unset⟩ := freeBit_some found
    obtain ⟨quot, rem⟩ := split_block (k := k) bound
    have block : sb.bmapstart + k = sb.bblock (k * BPB + bi) := by
      rw [Super.bblock, quot, Nat.add_comm]
    have owner : own (k * BPB + bi) = .free := by
      refine (core.blocks.free _ small).mp ?_
      rw [used, rem, ← block]
      exact unset
    simp only [found, log_eq (core.trans_pos op)]
    intro _
    have taken := core.blocks.take (p := p) owner
    rw [rem, ← block] at taken
    have touch : Touch sb s (s.write p (sb.bmapstart + k)
        (setBit (s.disk (sb.bmapstart + k)) bi)) e v.node.d := by
      rw [block, ← (agrees.mem owned).2]
      exact touch_write p e fun _ bound => (Super.iblock_ne_bblock bound).symm
    have change := change_held (update (gs p).loose (k * BPB + bi)
      (some (s.disk (k * BPB + bi)))) core viewed owned (n := v.node) rfl touch.itable
      touch.ftable touch.procs touch.building touch.outstanding touch.dinodes (.inl rfl)
    have same : update N (s.itable e).inum v.node = N := by
      rw [agrees.inum, ← agrees.node owned, update_eq_self]
    have rebuilt := change.core core (by rw [same]; exact taken)
    have view : (gs p).setView e { v with node := v.node } = gs p :=
      Local.setView_self viewed
    rw [view] at rebuilt change
    refine ⟨_, withFree w fun b => update own (k * BPB + bi) (.loose p) b = .free, _, _,
      by simp, rebuilt, fun W here => change.known_held owned core known here,
      core.blocks.data_of_free owner, ?_, ⟨_, rfl⟩, _, rfl⟩
    by_contra some
    have := (core.blocks.carried _ p).mpr some
    rw [owner] at this
    cases this

theorem safe_bzero (viewed : l.view e = some v) (owned : v.owned = true) (op : l.op = true)
    (held : l.loose b = some block) :
    Safe sb C p (bzero p b) l w fun _ l' w' =>
      l' = { l with loose := update l.loose b (some (Bytes.zero BSIZE)) } ∧
        ∃ F, w' = withFree w F := by
  have safe : Safe sb C p (bzero p b) l w fun _ l' w' =>
      l' = { l.setView e { v with node := v.node } with
        loose := update l.loose b (some (Bytes.zero BSIZE)) } ∧
        ∃ F, w' = withFree w F := by
    refine safe_held viewed owned (.inl rfl) ?_
    intro s looses N own mine blocks node bound fields trans
    have owner : own b = .loose p := (blocks.carried b p).mpr (by simp [mine, held])
    refine ⟨_, own, log_eq (trans op), ?_, ?_⟩
    · rw [← fields]
      exact touch_write p e fun _ bound => (blocks.data_of_loose owner).ne_iblock bound
    · rw [← node, update_eq_self, ← mine]
      exact blocks.writeLoose owner _
  rwa [Local.setView_self viewed] at safe

theorem withFree_self (w : Option World) :
    ∃ F, w = withFree w F ∧ (∀ W, w = some W → F = W.free) ∧ (w = none → ∀ b, ¬ F b) := by
  cases w with
  | none => exact ⟨fun _ => False, rfl, nofun, fun _ _ => id⟩
  | some W =>
    refine ⟨W.free, rfl, ?_, nofun⟩
    rintro _ ⟨⟩
    rfl

theorem safe_balloc (viewed : l.view e = some v) (owned : v.owned = true) (op : l.op = true) :
    Safe sb C p (balloc sb p) l w fun b l' w' => ∃ F, w' = withFree w F ∧
      ((b = 0 ∧ l' = l ∧ ∀ c < sb.size, ¬ F c) ∨ (sb.Data b ∧ l.loose b = none ∧
          l' = { l with loose := update l.loose b (some (Bytes.zero BSIZE)) })) := by
  refine .seq (show Safe sb C p _ _ _ (fun found l' w' =>
    match found with
    | some b => sb.Data b ∧ l.loose b = none ∧
        (∃ block, l' = { l with loose := update l.loose b (some block) }) ∧
        ∃ F, w' = withFree w F
    | none => l' = l ∧ w' = w ∧ ∀ W, w = some W → ∀ c < sb.size, ¬ W.free c) from ?_) ?_
  · -- the free blocks are in the part of the free map that is still to be searched
    refine .first (fun rest l' w' => l' = l ∧ w' = w ∧
      ∀ W, w = some W → ∀ c < sb.size, W.free c → c / BPB ∈ rest) ⟨rfl, rfl, ?_⟩ ?_ ?_
    · intro W _ c small _
      rw [List.mem_range]
      unfold BPB BSIZE
      omega
    · rintro k rest _ _ ⟨rfl, rfl, left⟩
      refine (safe_ballocAt viewed owned op k).mono fun found l' w' after => ?_
      cases found with
      | some b => exact after
      | none =>
        obtain ⟨rfl, rfl, searched⟩ := after
        refine ⟨rfl, rfl, fun W here c small free => ?_⟩
        exact (List.mem_cons.mp (left W here c small free)).resolve_left
          (searched W here c small free)
    · rintro _ _ ⟨rfl, rfl, left⟩
      refine ⟨rfl, rfl, fun W here c small free => ?_⟩
      exact absurd (left W here c small free) (List.not_mem_nil)
  · intro found l' w' after
    cases found with
    | none =>
      obtain ⟨rfl, rfl, empty⟩ := after
      obtain ⟨F, same, some, none⟩ := withFree_self w'
      refine .pure ⟨F, same, .inl ⟨rfl, rfl, fun c small => ?_⟩⟩
      cases w' with
      | none => exact none rfl c
      | some W =>
        rw [some W rfl]
        exact empty W rfl c small
    | some b =>
      obtain ⟨data, unused, ⟨block, rfl⟩, F, rfl⟩ := after
      refine .seq (safe_bzero
        (l := { l with loose := update l.loose b (some block) }) viewed owned op
        (update_self ..)) ?_
      rintro _ _ _ ⟨rfl, F', rfl⟩
      refine .pure ⟨F', by simp, .inr ⟨data, unused, ?_⟩⟩
      simp

theorem safe_bfree (viewed : l.view e = some v) (owned : v.owned = true) (op : l.op = true)
    (used : v.node.slots pos ≠ 0) :
    Safe sb C p (bfree sb p (v.node.slots pos)) l w fun _ l' w' =>
      l' = l.setView e { v with node := v.node.drop pos } ∧ ∃ F, w' = withFree w F := by
  refine safe_held (n := v.node.drop pos) viewed owned (.inl rfl) ?_
  intro s looses N own mine blocks node bound fields trans
  obtain ⟨owner, -⟩ := blocks.of_view node used
  have set : isSet (s.disk (sb.bblock (v.node.slots pos))) (v.node.slots pos % BPB) = true := by
    have free := (blocks.free _ (blocks.data_of_node owner).2).not
    rw [owner] at free
    exact (Bool.not_eq_false _).mp (free.mpr nofun)
  refine ⟨_, update own (v.node.slots pos) .free, (if_pos set).trans (log_eq (trans op)), ?_, ?_⟩
  · rw [d_drop, ← fields]
    exact touch_write p e fun _ bound => (Super.iblock_ne_bblock bound).symm
  · have after := blocks.give owner
    rw [node] at after
    rw [← mine, update_eq_self]
    exact after

/-- The fields of an inode with another block address. -/
def Dinode.setAddr (d : Dinode) (i : Fin (NDIRECT + 1)) (addr : Nat) : Dinode :=
  { d with addrs := Function.update d.addrs i (UInt32.ofNat addr) }

theorem safe_install (viewed : l.view e = some v) (owned : v.owned = true)
    {i : Fin (NDIRECT + 1)} (held : l.loose b = some block) (empty : v.node.slots i = 0) :
    Safe sb C p (setAddr e i b) l w fun _ l' w' =>
      l' = { l.setView e { v with node := (v.node.put i b block).setD (·.setAddr i b) } with
        loose := update l.loose b none } ∧ ∃ F, w' = withFree w F := by
  refine safe_held viewed owned (.inl rfl) ?_
  intro s looses N own mine blocks node bound fields trans
  have after := blocks.install (p := p) (i := v.inum) (by rw [mine]; exact held)
    (by rw [node]; exact empty) bound
  rw [node, mine] at after
  refine ⟨_, _, rfl, ⟨?_, rfl, rfl, rfl, rfl, fun _ _ => rfl⟩, after.congr (fun _ _ => rfl)
    (fun _ _ => rfl) ?_ ?_⟩
  · rw [d_setD, d_put, ← fields]
    rfl
  · intro j
    by_cases same : j = v.inum
    · subst same
      simp
    · simp [update_of_ne same]
  · intro j q _
    by_cases same : j = v.inum
    · subst same
      simp
    · simp [update_of_ne same]

theorem safe_installEntry (viewed : l.view e = some v) (owned : v.owned = true) (op : l.op = true)
    (held : l.loose b = some block) (used : v.node.slots NDIRECT ≠ 0)
    (empty : v.node.slots (NDIRECT + 1 + k) = 0) :
    Safe sb C p (logWrite p (v.node.slots NDIRECT) fun block => setEntry block k b) l w
      fun _ l' w' => l' = { l.setView e { v with
          node := (v.node.put NDIRECT (v.node.slots NDIRECT)
            (setEntry (v.node.data NDIRECT) k b)).put (NDIRECT + 1 + k) b block } with
        loose := update l.loose b none } ∧ ∃ F, w' = withFree w F := by
  refine safe_held viewed owned (.inl rfl) ?_
  intro s looses N own mine blocks node bound fields trans
  obtain ⟨owner, content⟩ := blocks.of_view node used
  have written := blocks.write owner (setEntry (v.node.data NDIRECT) k b)
  have free : (update N v.inum ((N v.inum).put NDIRECT (v.node.slots NDIRECT)
      (setEntry (v.node.data NDIRECT) k b)) v.inum).slots (NDIRECT + 1 + k) = 0 := by
    rw [update_self, slots_put_ne (by omega), node]
    exact empty
  have after := written.install (p := p) (by rw [mine]; exact held) free bound
  rw [mine, update_idem, update_self, node] at after
  refine ⟨_, update own b (.node v.inum (NDIRECT + 1 + k)), log_eq (trans op), ?_, ?_⟩
  · rw [d_put, d_put, ← fields]
    exact touch_write p e fun _ bound => (blocks.data_of_node owner).ne_iblock bound
  · simpa only [write, content] using after

/-! ## Writing the inode back -/

theorem safe_iupdate (viewed : l.view e = some v) (owned : v.owned = true) (op : l.op = true)
    (type : v.node.d.type ≠ 0) :
    Safe sb C p (iupdate sb p e) l w fun _ l' w' =>
      l' = l.setView e { v with disk := v.node.d } ∧ w' = w := by
  refine safe_step fun s gs N own mine core known => ?_
  subst mine
  have agrees := core.agrees viewed
  have lock := core.lock viewed
  have inum := (core.inum_lt viewed).2
  have fields := (agrees.mem owned).2
  have same : update N (s.itable e).inum v.node = N := by
    rw [agrees.inum, ← agrees.node owned, update_eq_self]
  simp only [log_eq (core.trans_pos op), if_neg (fields ▸ type : ¬ (s.itable e).d.type = 0)]
  intro _
  have change : Change sb s gs N p e
      { s.write p (sb.iblock (s.itable e).inum) (setDinode (s.disk (sb.iblock (s.itable e).inum))
          ((s.itable e).inum % IPB) (s.itable e).d) with building := s.building }
      ((gs p).setView e { v with disk := v.node.d }) (s.itable e)
      (some { v with disk := v.node.d }) v.node := by
    refine
      { used := core.pos viewed
        unlocked := .inr lock
        itable := (update_eq_self e s.itable).symm
        lock := lock
        dinodes := fun i _ other => dinodeAt_putDinode_of_ne sb s.disk _ other
        agrees := ?_
        pool := ?_
        rest := nofun
        holder := fun _ => core.refs.holder p e (by simp [viewed])
        type := ?_
        sole := ?_
        fresh := core.fresh_ne viewed owned
        maker := core.maker_same rfl rfl
        real := ?_
        mine := ?_
        builder := ?_
        carried := fun _ _ => ⟨e, by simp⟩
        active := fun _ => core.active p e (by simp [viewed]) }
    · rintro _ ⟨⟩
      refine ⟨agrees.inum, agrees.valid, fun _ => agrees.mem owned, fun _ => ?_,
        fun _ => ⟨?_, type⟩⟩
      · rw [same]
        exact agrees.node owned
      · rw [← agrees.inum, ← fields]
        exact dinodeAt_putDinode_self sb s.disk _ _
    · intro unowned
      have := unowned _ rfl
      rw [owned] at this
      cases this
    · rw [agrees.inum, agrees.node owned]
      exact .inl rfl
    · rintro _ ⟨⟩
      exact core.refs.sole p e v viewed
    · intro _
      rw [← fields] at type
      exact (congrArg Dinode.type (dinodeAt_putDinode_self sb s.disk _ _)).trans_ne type
    · rw [agrees.inum]
      exact .inl (core.shape.builder p e v viewed owned)
    · rintro _ ⟨⟩ -
      rw [agrees.inum]
      exact core.shape.builder p e v viewed owned
  refine ⟨_, w, _, own, rfl, change.core core ?_, fun W here => ?_, rfl, rfl⟩
  · rw [same, show ((gs p).setView e { v with disk := v.node.d }).loose = (gs p).loose
      from rfl, update_eq_self p fun q => (gs q).loose]
    exact core.blocks.putDinode (agrees.inum ▸ inum) _
  · rw [← withFree_known known] at here
    exact change.known_held owned core known here

end Xv6.Fs
