import Xv6.Virtio.Basic

/-!
# Descriptors

`alloc3_desc` finds three free descriptors or leaves the free ones as they are, and
`free_chain` frees the three descriptors of a request.
-/

namespace Xv6.Virtio

open Function

variable {β : Type}

def Chain.Has (chain : Chain β) (i : Fin NUM) : Prop :=
  i = chain.head ∨ i = chain.data ∨ i = chain.status

instance (chain : Chain β) (i : Fin NUM) : Decidable (chain.Has i) :=
  inferInstanceAs (Decidable (_ ∨ _ ∨ _))

/-- The three descriptors are different. -/
structure Chain.Apart (chain : Chain β) : Prop where
  head_data : chain.head ≠ chain.data
  head_status : chain.head ≠ chain.status
  data_status : chain.data ≠ chain.status

/-- The chain has the header, the data and the status of its request. -/
structure Formatted (disk : Disk β) (chain : Chain β) : Prop where
  op : disk.ops chain.head = chain.request.op
  head : disk.desc chain.head = { addr := .op chain.head, len := 16, hasNext := true, write := false
                                  next := chain.data.val }
  data : disk.desc chain.data = { addr := .data chain.request.b, len := 1024, hasNext := true
                                  write := !chain.request.write, next := chain.status.val }
  status : disk.desc chain.status = { addr := .status chain.head, len := 1, hasNext := false
                                      write := true, next := 0 }
  buffer : (disk.info chain.head).b = some chain.request.b

/-- What the device reads for the request of a chain. -/
def Chain.fetched (chain : Chain β) : Fetched β :=
  { op := some chain.request.op
    data := .data chain.request.b
    write := !chain.request.write
    status := .status chain.head }

theorem Formatted.fetch {disk : Disk β} {chain : Chain β} (formatted : Formatted disk chain) :
    disk.fetch chain.head = chain.fetched := by
  have data : disk.descAt chain.data.val = disk.desc chain.data := dif_pos chain.data.isLt
  have status : disk.descAt chain.status.val = disk.desc chain.status := dif_pos chain.status.isLt
  simp only [Disk.fetch, formatted.head, data, formatted.data, status, formatted.status,
    formatted.op, Chain.fetched]

namespace Disk

variable {disk : Disk β}

theorem allocDesc_cases (disk : Disk β) : (∃ i, disk.free i = true ∧
      disk.allocDesc = (some i, { disk with free := update disk.free i false })) ∨
    disk.allocDesc = (none, disk) := by
  unfold allocDesc
  split
  next i found => exact .inl ⟨i, by simpa using List.find?_some found, rfl⟩
  next => exact .inr rfl

theorem freeDesc_eq (disk : Disk β) {i : Fin NUM} (used : disk.free i = false) :
    disk.freeDesc i.val = .ok { disk with
      desc := update disk.desc i .zero
      free := update disk.free i true } := by
  rw [freeDesc, dif_pos i.isLt, if_neg (by simp [used])]

/-- Either three free descriptors are taken, or the driver is left with the same ones. -/
theorem alloc3Desc_cases (disk : Disk β) :
    (∃ i j k, (disk.free i = true ∧ disk.free j = true ∧ disk.free k = true) ∧
      (i ≠ j ∧ i ≠ k ∧ j ≠ k) ∧
      disk.alloc3Desc = .ok (some (i, j, k), { disk with
        free := fun x => if x = i ∨ x = j ∨ x = k then false else disk.free x })) ∨
    ∃ desc, (∀ x, disk.free x = false → desc x = disk.desc x) ∧
      disk.alloc3Desc = .ok (none, { disk with desc }) := by
  rcases disk.allocDesc_cases with ⟨i, freeI, first⟩ | first
  · rcases allocDesc_cases { disk with free := update disk.free i false } with
      ⟨j, freeJ, second⟩ | second
    · have ij : i ≠ j := by
        rintro rfl
        simp at freeJ
      simp only [update_of_ne (Ne.symm ij)] at freeJ
      rcases allocDesc_cases { disk with
        free := update (update disk.free i false) j false } with
        ⟨k, freeK, third⟩ | third
      · have jk : j ≠ k := by
          rintro rfl
          simp at freeK
        have ik : i ≠ k := by
          rintro rfl
          simp [update_of_ne ij] at freeK
        simp only [update_of_ne (Ne.symm jk), update_of_ne (Ne.symm ik)] at freeK
        refine .inl ⟨i, j, k, ⟨freeI, freeJ, freeK⟩, ⟨ij, ik, jk⟩, ?_⟩
        have same : update (update (update disk.free i false) j false) k
            false = fun x => if x = i ∨ x = j ∨ x = k then false else disk.free x := by
          funext x
          simp only [update_apply]
          grind
        simp only [alloc3Desc, first, second, third, same]
      · refine .inr ⟨update (update disk.desc i .zero) j .zero, ?_, ?_⟩
        · intro x used
          have xi : x ≠ i := by
            rintro rfl
            rw [freeI] at used
            cases used
          have xj : x ≠ j := by
            rintro rfl
            rw [freeJ] at used
            cases used
          rw [update_of_ne xj, update_of_ne xi]
        · have back : update (update (update (update disk.free i
              false) j false) i true) j true = disk.free := by
            funext x
            simp only [update_apply]
            grind
          simp only [alloc3Desc, first, second, third]
          rw [freeDesc_eq _ (by simp [update_of_ne ij])]
          simp only [bind, Except.bind]
          rw [freeDesc_eq _ (by simp [update_of_ne (Ne.symm ij)])]
          simp only [back]
    · refine .inr ⟨update disk.desc i .zero, ?_, ?_⟩
      · intro x used
        refine update_of_ne ?_ ..
        rintro rfl
        rw [freeI] at used
        cases used
      · have back : update (update disk.free i false) i true = disk.free := by
          funext x
          simp only [update_apply]
          grind
        simp only [alloc3Desc, first, second]
        rw [freeDesc_eq _ (by simp)]
        simp only [bind, Except.bind, back]
  · exact .inr ⟨disk.desc, fun _ _ => rfl, by simp only [alloc3Desc, first]⟩

/-- `free_chain` frees the descriptors of a chain, and does not panic. -/
theorem freeChain_eq {chain : Chain β} (formatted : Formatted disk chain) (apart : chain.Apart)
    (used : ∀ i, chain.Has i → disk.free i = false) (info : Fin NUM → Info β) (k : Nat) :
    ∃ desc, (∀ x, ¬ chain.Has x → desc x = disk.desc x) ∧
      freeChain (k + 3) { disk with info } chain.head.val = .ok { disk with
        info
        desc
        free := fun x => if chain.Has x then true else disk.free x } := by
  obtain ⟨hd, hs, ds⟩ := apart
  have usedHead := used chain.head (.inl rfl)
  have usedData := used chain.data (.inr (.inl rfl))
  have usedStatus := used chain.status (.inr (.inr rfl))
  refine ⟨update (update (update disk.desc chain.head .zero)
    chain.data .zero) chain.status .zero, fun x not => ?_, ?_⟩
  · simp only [Chain.Has, not_or] at not
    rw [update_of_ne not.2.2, update_of_ne not.2.1, update_of_ne not.1]
  · have frees : update (update (update disk.free chain.head true)
        chain.data true) chain.status true =
          fun x => if chain.Has x then true else disk.free x := by
      funext x
      simp only [update_apply, Chain.Has]
      grind
    rw [freeChain, dif_pos chain.head.isLt, freeDesc_eq { disk with info } usedHead]
    simp only [bind, Except.bind, formatted.head, if_true]
    rw [freeChain, dif_pos chain.data.isLt, freeDesc_eq _ (by
      simpa only [update_of_ne (Ne.symm hd)] using usedData)]
    simp only [bind, Except.bind, update_of_ne (Ne.symm hd), formatted.data, if_true]
    rw [freeChain, dif_pos chain.status.isLt, freeDesc_eq _ (by
      simpa only [update_of_ne (Ne.symm hs), update_of_ne (Ne.symm ds)] using usedStatus)]
    simp only [bind, Except.bind, update_of_ne (Ne.symm hs),
      update_of_ne (Ne.symm ds), formatted.status, Bool.false_eq_true, if_false, frees]

end Disk

end Xv6.Virtio
