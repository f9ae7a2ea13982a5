import Xv6.Fs.Ghost

/-!
# Blocks change hands

The moves of block ownership: a block of an inode is written, a free block is
taken, put into an inode or given back. Each keeps `Blocks`.
-/

namespace Xv6.Fs

open Function

variable {Pid : Type} [DecidableEq Pid]

section Nodes

variable {N : Nat → Node} {i pos b : Nat} {block : Block}

theorem slots_update_put (j q : Nat) : (update N i ((N i).put pos b block) j).slots q =
      if j = i ∧ q = pos then b else (N j).slots q := by
  by_cases same : j = i
  · subst same
    rw [update_self]
    by_cases here : q = pos
    · subst here
      simp
    · rw [Node.slots_put_ne here, if_neg fun both => here both.2]
  · rw [update_of_ne same, if_neg fun both => same both.1]

theorem data_update_put (j q : Nat) : (update N i ((N i).put pos b block) j).data q =
      if j = i ∧ q = pos then block else (N j).data q := by
  by_cases same : j = i
  · subst same
    rw [update_self]
    by_cases here : q = pos
    · subst here
      simp
    · rw [Node.data_put_of_ne here, if_neg fun both => here both.2]
  · rw [update_of_ne same, if_neg fun both => same both.1]

end Nodes

namespace Blocks

variable {sb : Super} {disk : Nat → Block} {loose : Pid → Nat → Option Block} {N : Nat → Node}
  {own : Nat → Owner Pid} {p : Pid} {b i pos : Nat} {block : Block}

section

variable (blocks : Blocks sb disk loose N own)
include blocks

theorem data_of_node (owner : own b = .node i pos) : sb.Data b := by
  by_contra other
  rw [(blocks.reserved b).mpr other] at owner
  cases owner

theorem data_of_loose (owner : own b = .loose p) : sb.Data b := by
  by_contra other
  rw [(blocks.reserved b).mpr other] at owner
  cases owner

theorem data_of_free (owner : own b = .free) : sb.Data b := by
  by_contra other
  rw [(blocks.reserved b).mpr other] at owner
  cases owner

theorem owner (used : (N i).slots pos ≠ 0) : own ((N i).slots pos) = .node i pos :=
  (blocks.node _ _ _).mpr ⟨rfl, used⟩

theorem of_view {v : View} (node : N v.inum = v.node) (used : v.node.slots pos ≠ 0) :
    own (v.node.slots pos) = .node v.inum pos ∧ disk (v.node.slots pos) = v.node.data pos := by
  rw [← node] at used ⊢
  exact ⟨blocks.owner used, blocks.content _ _ used⟩

/-- Only data blocks and the free map matter, and of the nodes only the blocks. -/
theorem congr {disk' : Nat → Block} {N' : Nat → Node} (data : ∀ b, sb.Data b → disk' b = disk b)
    (bits : ∀ b < sb.size, used sb disk' b = used sb disk b)
    (slots : ∀ i, (N' i).slots = (N i).slots)
    (contents : ∀ i pos, (N i).slots pos ≠ 0 → (N' i).data pos = (N i).data pos) :
    Blocks sb disk' loose N' own where
  reserved := blocks.reserved
  free := by
    intro b bound
    rw [bits b bound]
    exact blocks.free b bound
  node := by
    intro b i pos
    rw [slots i]
    exact blocks.node b i pos
  carried := blocks.carried
  kept := by
    intro b p block held
    have owner : own b = .loose p := (blocks.carried b p).mpr (by simp [held])
    rw [data b (blocks.data_of_loose owner)]
    exact blocks.kept b p block held
  content := by
    intro i pos used
    rw [slots i] at used ⊢
    rw [data _ (blocks.data_of_node (blocks.owner used)), contents i pos used]
    exact blocks.content i pos used
  bound := by
    intro i pos used
    rw [slots i] at used
    exact blocks.bound i pos used

theorem loose_eq_none {q : Pid} (other : own b ≠ .loose q) : loose q b = none :=
  by_contra fun some => other ((blocks.carried b q).mpr some)

theorem slots_ne {j q : Nat} (other : own b ≠ .node j q) (set : b ≠ 0) : (N j).slots q ≠ b :=
  fun slot => other ((blocks.node b j q).mpr ⟨slot, set⟩)

/-- **A change that concerns one data block** keeps the invariant if it is right for the block. -/
theorem change {disk' : Nat → Block} {loose' : Pid → Nat → Option Block} {N' : Nat → Node}
    {o : Owner Pid} (data : sb.Data b)
    (bits : ∀ c < sb.size, c ≠ b → used sb disk' c = used sb disk c)
    (disks : ∀ c, sb.Data c → c ≠ b → disk' c = disk c)
    (looses : ∀ q c, c ≠ b → loose' q c = loose q c)
    (slots : ∀ j q c, c ≠ b → c ≠ 0 → ((N' j).slots q = c ↔ (N j).slots q = c))
    (datas : ∀ j q, (N j).slots q ≠ b → (N j).slots q ≠ 0 → (N' j).data q = (N j).data q)
    (owned : o ≠ .reserved) (free : used sb disk' b = false ↔ o = .free)
    (node : ∀ j q, o = .node j q ↔ (N' j).slots q = b)
    (carried : ∀ q, o = .loose q ↔ loose' q b ≠ none)
    (kept : ∀ q block, loose' q b = some block → disk' b = block)
    (content : ∀ j q, (N' j).slots q = b → disk' b = (N' j).data q ∧ j < sb.ninodes) :
    Blocks sb disk' loose' N' (update own b o) where
  reserved := by
    intro c
    by_cases same : c = b
    · subst same
      rw [update_self]
      exact iff_of_false owned (not_not.mpr data)
    · rw [update_of_ne same]
      exact blocks.reserved c
  free := by
    intro c bound
    by_cases same : c = b
    · subst same
      rwa [update_self]
    · rw [update_of_ne same, bits c bound same]
      exact blocks.free c bound
  node := by
    intro c j q
    by_cases same : c = b
    · subst same
      rw [update_self, node, and_iff_left data.pos]
    · rw [update_of_ne same, blocks.node]
      exact and_congr_left fun set => (slots j q c same set).symm
  carried := by
    intro c q
    by_cases same : c = b
    · subst same
      rw [update_self]
      exact carried q
    · rw [update_of_ne same, looses q c same]
      exact blocks.carried c q
  kept := by
    intro c q block held
    by_cases same : c = b
    · subst same
      exact kept q block held
    · rw [looses q c same] at held
      rw [disks c (blocks.data_of_loose ((blocks.carried c q).mpr (by simp [held]))) same]
      exact blocks.kept c q block held
  content := by
    intro j q used
    by_cases same : (N' j).slots q = b
    · rw [same]
      exact (content j q same).1
    · have before := (slots j q _ same used).mp rfl
      rw [← before] at same used ⊢
      rw [disks _ (blocks.data_of_node (blocks.owner used)) same, datas j q same used]
      exact blocks.content j q used
  bound := by
    intro j q used
    by_cases same : (N' j).slots q = b
    · exact (content j q same).2
    · rw [← (slots j q _ same used).mp rfl] at used
      exact blocks.bound j q used

theorem write (owner : own b = .node i pos) (block : Block) : Blocks sb (update disk b block) loose
      (update N i ((N i).put pos b block)) own := by
  have data := blocks.data_of_node owner
  have here := (blocks.node _ _ _).mp owner
  have slots : ∀ j q, (update N i ((N i).put pos b block) j).slots q = (N j).slots q := by
    intro j q
    rw [slots_update_put]
    split
    next both =>
      obtain ⟨rfl, rfl⟩ := both
      exact here.1.symm
    next => rfl
  rw [← update_eq_self b own, owner]
  refine blocks.change data (fun c bound _ => used_update_of_ne _ _ _ (data.ne_bblock bound))
    (fun c _ other => update_of_ne other ..) (fun _ _ _ => rfl) (fun j q c _ _ => by rw [slots])
    (fun j q other _ => ?_) nofun ?_ (fun j q => ?_) (fun q => owner ▸ blocks.carried b q)
    (fun q _ held => ?_) fun j q slot => ?_
  · rw [data_update_put, if_neg]
    rintro ⟨rfl, rfl⟩
    exact other here.1
  · rw [used_update_of_ne _ _ _ (data.ne_bblock data.2), blocks.free b data.2, owner]
  · rw [slots, ← owner, blocks.node, and_iff_left data.pos]
  · rw [blocks.loose_eq_none (by rw [owner]; nofun)] at held
    cases held
  · rw [slots] at slot
    have same := (blocks.node b j q).mpr ⟨slot, data.pos⟩
    rw [owner] at same
    cases same
    rw [update_self, data_update_put, if_pos ⟨rfl, rfl⟩]
    exact ⟨rfl, blocks.bound i pos (slot ▸ data.pos)⟩

omit blocks in
theorem loose_update_of_ne {c : Nat} {x : Option Block} (q : Pid) (other : c ≠ b) :
    update loose p (update (loose p) b x) q c = loose q c := by
  by_cases me : q = p
  · rw [me, update_self, update_of_ne other]
  · rw [update_of_ne me]

theorem take (owner : own b = .free) : Blocks sb
      (update disk (sb.bblock b) (setBit (disk (sb.bblock b)) (b % BPB)))
      (update loose p (update (loose p) b (some (disk b)))) N
      (update own b (.loose p)) := by
  have data := blocks.data_of_free owner
  have bits : ∀ c, used sb (update disk (sb.bblock b)
      (setBit (disk (sb.bblock b)) (b % BPB))) c = if c = b then true else used sb disk c :=
    fun c => used_update sb disk (isSet_setBit _ (Nat.mod_lt _ (by decide)))
  have away : ∀ j q, (N j).slots q ≠ b := fun j q =>
    blocks.slots_ne (by rw [owner]; nofun) data.pos
  have none : ∀ q, loose q b = none := fun q => blocks.loose_eq_none (by rw [owner]; nofun)
  refine blocks.change data (fun c _ other => by rw [bits, if_neg other])
    (fun c inside _ => update_of_ne (inside.ne_bblock data.2) ..)
    (fun q c => loose_update_of_ne q) (fun _ _ _ _ _ => Iff.rfl) (fun _ _ _ _ => rfl) nofun
    (by simp [bits]) (fun j q => iff_of_false nofun (away j q)) (fun q => ?_)
    (fun q block held => ?_) fun j q slot => absurd slot (away j q)
  · by_cases me : q = p
    · subst me
      simp
    · simp [update_of_ne me, none, Ne.symm me]
  · rw [update_of_ne (data.ne_bblock data.2)]
    by_cases me : q = p
    · subst me
      simpa using held
    · rw [update_of_ne me, none] at held
      cases held

theorem writeLoose (owner : own b = .loose p) (block : Block) : Blocks sb (update disk b block)
      (update loose p (update (loose p) b (some block))) N own := by
  have data := blocks.data_of_loose owner
  rw [← update_eq_self b own, owner]
  refine blocks.change data (fun c bound _ => used_update_of_ne _ _ _ (data.ne_bblock bound))
    (fun c _ other => update_of_ne other ..) (fun q c => loose_update_of_ne q)
    (fun _ _ _ _ _ => Iff.rfl) (fun _ _ _ _ => rfl) nofun ?_ (fun j q => ?_) (fun q => ?_)
    (fun q _ held => ?_) fun j q slot => ?_
  · rw [used_update_of_ne _ _ _ (data.ne_bblock data.2), blocks.free b data.2, owner]
  · rw [← owner, blocks.node, and_iff_left data.pos]
  · by_cases me : q = p
    · subst me
      simp
    · rw [update_of_ne me, ← owner]
      exact blocks.carried b q
  · by_cases me : q = p
    · subst me
      simpa using held
    · rw [update_of_ne me, blocks.loose_eq_none (by rw [owner]; simpa using Ne.symm me)] at held
      cases held
  · exact absurd slot (blocks.slots_ne (by rw [owner]; nofun) data.pos)

theorem install (held : loose p b = some block)
    (empty : (N i).slots pos = 0) (bound : i < sb.ninodes) :
    Blocks sb disk (update loose p (update (loose p) b none))
      (update N i ((N i).put pos b block)) (update own b (.node i pos)) := by
  have owner : own b = .loose p := (blocks.carried b p).mpr (by simp [held])
  have data := blocks.data_of_loose owner
  have away : ∀ j q, (N j).slots q ≠ b := fun j q =>
    blocks.slots_ne (by rw [owner]; nofun) data.pos
  have gone : ∀ q, update loose p (update (loose p) b none) q b = none := by
    intro q
    by_cases me : q = p
    · subst me
      simp
    · rw [update_of_ne me]
      exact blocks.loose_eq_none (by rw [owner]; simpa using Ne.symm me)
  refine blocks.change data (fun _ _ _ => rfl) (fun _ _ _ => rfl) (fun q c => loose_update_of_ne q)
    (fun j q c other set => ?_) (fun j q _ set => ?_) nofun ?_ (fun j q => ?_)
    (fun q => iff_of_false nofun (not_not.mpr (gone q)))
    (fun q _ kept => nomatch (gone q).symm.trans kept) fun j q slot => ?_
  · rw [slots_update_put]
    split
    next both =>
      obtain ⟨rfl, rfl⟩ := both
      rw [empty]
      exact iff_of_false other.symm set.symm
    next => rfl
  · rw [data_update_put, if_neg]
    rintro ⟨rfl, rfl⟩
    exact set empty
  · rw [blocks.free b data.2, owner]
    simp
  · rw [slots_update_put]
    split
    next both =>
      obtain ⟨rfl, rfl⟩ := both
      simp
    next elsewhere =>
      refine iff_of_false ?_ (away j q)
      rintro ⟨⟩
      exact elsewhere ⟨rfl, rfl⟩
  · rw [slots_update_put] at slot
    rw [data_update_put]
    split at slot
    next both =>
      rw [if_pos both]
      exact ⟨blocks.kept b p block held, both.1 ▸ bound⟩
    next => exact absurd slot (away j q)

theorem give (owner : own b = .node i pos) : Blocks sb
      (update disk (sb.bblock b) (clearBit (disk (sb.bblock b)) (b % BPB))) loose
      (update N i ((N i).put pos 0 ((N i).data pos))) (update own b .free) := by
  have data := blocks.data_of_node owner
  have here := (blocks.node _ _ _).mp owner
  have bits : ∀ c, used sb (update disk (sb.bblock b)
      (clearBit (disk (sb.bblock b)) (b % BPB))) c = if c = b then false else used sb disk c :=
    fun c => used_update sb disk (isSet_clearBit _ (Nat.mod_lt _ (by decide)))
  have away : ∀ j q, (update N i ((N i).put pos 0 ((N i).data pos)) j).slots q ≠ b := by
    intro j q
    rw [slots_update_put]
    split
    next => exact data.pos.symm
    next elsewhere =>
      refine blocks.slots_ne ?_ data.pos
      rw [owner]
      rintro ⟨⟩
      exact elsewhere ⟨rfl, rfl⟩
  have none : ∀ q, loose q b = none := fun q => blocks.loose_eq_none (by rw [owner]; nofun)
  refine blocks.change data (fun c _ other => by rw [bits, if_neg other])
    (fun c inside _ => update_of_ne (inside.ne_bblock data.2) ..) (fun _ _ _ => rfl)
    (fun j q c other set => ?_) (fun j q _ _ => ?_) nofun (by simp [bits])
    (fun j q => iff_of_false nofun (away j q))
    (fun q => iff_of_false nofun (not_not.mpr (none q)))
    (fun q _ kept => nomatch (none q).symm.trans kept) fun j q slot => absurd slot (away j q)
  · rw [slots_update_put]
    split
    next both =>
      obtain ⟨rfl, rfl⟩ := both
      rw [here.1]
      exact iff_of_false set.symm other.symm
    next => rfl
  · rw [data_update_put]
    split
    next both => rw [both.1, both.2]
    next => rfl

theorem putDinode (bound : i < sb.ninodes) (d : Dinode) :
    Blocks sb (putDinode sb disk i d) loose N own := by
  refine blocks.congr ?_ ?_ (fun _ => rfl) (fun _ _ _ => rfl)
  · intro b data
    exact update_of_ne (data.ne_iblock bound) ..
  · intro b _
    exact used_update_of_ne _ _ _ (Super.iblock_ne_bblock bound)

end

end Blocks

end Xv6.Fs
