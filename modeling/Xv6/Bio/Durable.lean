import Xv6.Bio.System

/-!
# What the disk says after a crash

`content` is the disk after the first commit groups. A disk is `Durable` for a
list of groups when recovery would bring it there: the blocks its header lists
have their contents in the log, and all others are home already.
-/

namespace Xv6.Bio

open Function

def applyGroup (disk : Nat → Block) (group : List (Nat × Block)) : Nat → Block :=
  group.foldl (fun disk entry => Function.update disk entry.1 entry.2) disk

/-- The disk after the groups, the first one first. -/
def content (disk : Nat → Block) (groups : List (List (Nat × Block))) : Nat → Block :=
  groups.foldl applyGroup disk

theorem content_snoc (disk : Nat → Block) (groups : List (List (Nat × Block)))
    (group : List (Nat × Block)) :
    content disk (groups ++ [group]) = applyGroup (content disk groups) group := by
  simp [content]

variable {blockno : Nat} {blocks : List Nat} {value : Nat → Block}

theorem applyGroup_of_notMem {group : List (Nat × Block)}
    (absent : ∀ entry ∈ group, entry.1 ≠ blockno) (disk : Nat → Block) :
    applyGroup disk group blockno = disk blockno := by
  induction group generalizing disk with
  | nil => rfl
  | cons entry rest ih =>
    have other : blockno ≠ entry.1 := (absent entry List.mem_cons_self).symm
    have later := ih (fun e mem => absent e (List.mem_cons_of_mem _ mem))
      (update disk entry.1 entry.2)
    rw [update_of_ne other] at later
    exact later

/-- A listed block gets its data, when each block has only one value. -/
theorem applyGroup_map (mem : blockno ∈ blocks) (disk : Nat → Block) :
    applyGroup disk (blocks.map fun b => (b, value b)) blockno = value blockno := by
  induction blocks generalizing disk with
  | nil => cases mem
  | cons first rest ih =>
    by_cases again : blockno ∈ rest
    · exact ih again _
    · have here : blockno = first := (List.mem_cons.mp mem).resolve_right again
      have untouched : ∀ entry ∈ rest.map fun b => (b, value b), entry.1 ≠ blockno := by
        intro entry listed
        obtain ⟨b, inRest, rfl⟩ := List.mem_map.mp listed
        exact fun same => again (same ▸ inRest)
      have kept := applyGroup_of_notMem untouched (update disk first (value first))
      rw [here, update_self] at kept
      rw [here]
      exact kept

/-! ## Durable disks -/

/-- Where the log is: the header, then the log blocks. -/
structure Area where
  start : Nat
  size : Nat

def Area.Inside (area : Area) (blockno : Nat) : Prop :=
  area.start ≤ blockno ∧ blockno < area.start + area.size

/-- The place in the log of the block that the header lists at `t`. -/
def Area.slot (area : Area) (t : Nat) : Nat := area.start + t + 1

/-- A list of blocks that the log has room for, none of them in the log. -/
structure Area.Fits (area : Area) (blocks : List Nat) : Prop where
  room : blocks.length < area.size
  header : HeaderFits blocks
  outside : ∀ blockno ∈ blocks, ¬ area.Inside blockno

structure Durable (area : Area) (want : Nat → Block) (disk : Nat → Block) : Prop where
  fits : area.Fits (readHeader (disk area.start))
  logged : ∀ t (bound : t < (readHeader (disk area.start)).length),
    disk (area.slot t) = want (readHeader (disk area.start))[t]
  home : ∀ blockno, ¬ area.Inside blockno → blockno ∉ readHeader (disk area.start) →
    disk blockno = want blockno

section Writes

variable {area : Area} {want disk : Nat → Block} {t : Nat}

theorem Area.slot_inside (bound : t + 1 < area.size) : area.Inside (area.slot t) := by
  unfold Area.Inside Area.slot
  omega

theorem Area.slot_ne_start (area : Area) (t : Nat) : area.slot t ≠ area.start := by
  unfold Area.slot
  omega

section

variable (durable : Durable area want disk) {data : Block}
include durable

section

variable (empty : readHeader (disk area.start) = [])
include empty

/-- With an empty header every block outside the log is as it should be. -/
theorem Durable.settled (outside : ¬ area.Inside blockno) : disk blockno = want blockno :=
  durable.home blockno outside (by simp [empty])

theorem Durable.write_log (bound : t + 1 < area.size)
    (data : Block) : Durable area want (update disk (area.slot t) data) := by
  have header : update disk (area.slot t) data area.start = disk area.start :=
    update_of_ne (area.slot_ne_start t).symm ..
  refine ⟨?_, ?_, ?_⟩
  · rw [header]
    exact durable.fits
  · intro k listed
    rw [header, empty] at listed
    cases listed
  · intro blockno outside _
    have other : blockno ≠ area.slot t := fun same => outside (same ▸ Area.slot_inside bound)
    rw [update_of_ne other]
    exact durable.settled empty outside

/-- **The commit point**: the header of a group whose blocks are all in the
log. -/
theorem Durable.write_head (fits : area.Fits blocks)
    (logged : ∀ t (bound : t < blocks.length), disk (area.slot t) = value blocks[t])
    (header : readHeader data = blocks) :
    Durable area (applyGroup want (blocks.map fun b => (b, value b)))
      (update disk area.start data) := by
  have now : readHeader (update disk area.start data area.start) = blocks := by
    rw [update_self, header]
  have inside : area.Inside area.start := by
    have := fits.room
    unfold Area.Inside
    omega
  refine ⟨?_, ?_, ?_⟩
  · rw [now]
    exact fits
  · intro t listed
    rw [update_of_ne (area.slot_ne_start t)]
    have bound : t < blocks.length := by rwa [now] at listed
    have entry : (readHeader (update disk area.start data area.start))[t] = blocks[t] := by
      simp only [now]
    rw [entry, applyGroup_map (List.getElem_mem bound), logged t bound]
  · intro blockno outside absent
    rw [now] at absent
    have other : blockno ≠ area.start := fun same => outside (same ▸ inside)
    have untouched : ∀ entry ∈ blocks.map fun b => (b, value b), entry.1 ≠ blockno := by
      intro entry listed
      obtain ⟨b, mem, rfl⟩ := List.mem_map.mp listed
      exact fun same => absent (same ▸ mem)
    rw [update_of_ne other, applyGroup_of_notMem untouched]
    exact durable.settled empty outside

end

theorem Durable.install (bound : t < (readHeader (disk area.start)).length) :
    Durable area want (update disk (readHeader (disk area.start))[t] (disk (area.slot t))) := by
  have outside := durable.fits.outside _ (List.getElem_mem bound)
  have room := durable.fits.room
  have header : update disk (readHeader (disk area.start))[t] (disk (area.slot t))
      area.start = disk area.start := by
    refine update_of_ne ?_ ..
    intro same
    refine outside ?_
    rw [← same]
    unfold Area.Inside
    omega
  refine ⟨?_, ?_, ?_⟩
  · rw [header]
    exact durable.fits
  · intro k listed
    simp only [header] at listed ⊢
    have place : area.Inside (area.slot k) := Area.slot_inside (by omega)
    have other : area.slot k ≠ (readHeader (disk area.start))[t] :=
      fun same => outside (same ▸ place)
    rw [update_of_ne other]
    exact durable.logged k listed
  · intro blockno out absent
    rw [header] at absent
    have other : blockno ≠ (readHeader (disk area.start))[t] :=
      fun same => absent (same ▸ List.getElem_mem bound)
    rw [update_of_ne other]
    exact durable.home blockno out absent

/-- The header is erased once every block that it lists is home. -/
theorem Durable.erase
    (installed : ∀ blockno ∈ readHeader (disk area.start), disk blockno = want blockno)
    (header : readHeader data = []) : Durable area want (update disk area.start data) := by
  have now : readHeader (update disk area.start data area.start) = [] := by
    rw [update_self, header]
  have room := durable.fits.room
  refine ⟨?_, ?_, ?_⟩
  · rw [now]
    exact ⟨by simp only [List.length_nil]; omega, .nil, by simp⟩
  · intro t listed
    rw [now] at listed
    cases listed
  · intro blockno outside _
    have other : blockno ≠ area.start := by
      rintro rfl
      refine outside ?_
      unfold Area.Inside
      omega
    rw [update_of_ne other]
    by_cases listed : blockno ∈ readHeader (disk area.start)
    · exact installed blockno listed
    · exact durable.home blockno outside listed

end

end Writes

end Xv6.Bio
