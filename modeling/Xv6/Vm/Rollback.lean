import Xv6.Vm.Mapping

/-!
# Running out of memory

`uvmalloc` and `uvmcopy` take a page for each page of a range and map it. When there is no
page left, or none for the page table, they give back what they have taken. `Allocated` says
what a table is like after some pages of the range, and `Allocated.undo` that unmapping them
restores it, but for the pages that `walk` has linked into the table.
-/

namespace Xv6.Vm

open Function

open Trie (node entry Distinct)

variable {m m' m₁ m₂ m₃ : Memory} {root a mem perm kend : Word} {j : Nat} {frame flag : Nat → Word}
  {page : Word} {pa n old : Word}

/-- The first `j` pages from `a` on have been allocated and mapped. -/
structure Allocated (root a : Word) (j : Nat) (frame flag : Nat → Word) (m m' : Memory) : Prop where
  table : Table m' root
  ok : m'.Ok
  interior : ∀ page, Interior m root page → Interior m' root page
  fresh : ∀ page, Interior m' root page → Interior m root page ∨ page ∈ m.free
  free : ∀ page, page ∈ m'.free → page ∈ m.free
  kept : ∀ page, page ∈ m.free → page ∈ m'.free ∨ Interior m' root page ∨ ∃ k < j, page = frame k
  frames : ∀ k < j, frame k ∈ m.free ∧ frame k ∉ m'.free ∧ ¬ Interior m' root (frame k)
  inj : ∀ k l, k < j → l < j → frame k = frame l → k = l
  low : ∀ k < j, nth a k < MAXVA
  before : ∀ k < j, lookup m root (nth a k) = none
  after : ∀ k < j, lookup m' root (nth a k) = some (frame k, flag k)
  others : ∀ va, Aligned va → va < MAXVA → (∀ k < j, va ≠ nth a k) →
    lookup m' root va = lookup m root va
  pages : ∀ page, page ∉ m.free → ¬ Interior m root page → m'.page page = m.page page

theorem Allocated.nil (table : Table m root) (ok : m.Ok) : Allocated root a 0 frame flag m m where
  table := table
  ok := ok
  interior _ inside := inside
  fresh _ inside := .inl inside
  free _ mem := mem
  kept _ mem := .inl mem
  frames := nofun
  inj := nofun
  low := nofun
  before := nofun
  after := nofun
  others _ _ _ _ := rfl
  pages _ _ _ := rfl

/-- A page is taken from the free list and gets some content. -/
structure Taken (mem : Word) (m m₁ : Memory) : Prop where
  free : m.free = mem :: m₁.free
  pages : ∀ page, page ≠ mem → m₁.page page = m.page page

section Taken

variable (table : Table m root) (ok : m.Ok) (taken : Taken mem m m₁)
include table taken

theorem Taken.not_interior : ¬ Interior m root mem :=
  fun inside => table.taken mem inside (by rw [taken.free]; exact List.mem_cons_self)

theorem Taken.same (page : Word) (inside : Interior m root page) : m₁.page page = m.page page :=
  taken.pages page fun equal => taken.not_interior table (equal ▸ inside)

theorem Taken.interior : Interior m₁ root page ↔ Interior m root page :=
  Trie.inside_congr fun other short => Trie.node_frame (taken.same table) other short

theorem Taken.isTable : Table m₁ root := by
  refine ⟨table.distinct.congr fun other short =>
    Trie.node_frame (taken.same table) other short, fun page inside mem => ?_⟩
  refine table.taken page ((taken.interior table).mp inside) ?_
  rw [taken.free]
  exact List.mem_cons_of_mem _ mem

theorem Taken.lookup (va : Word) : lookup m₁ root va = lookup m root va :=
  lookup_frame (taken.same table) va

end Taken

theorem Taken.ok (ok : m.Ok) (taken : Taken mem m m₁) : m₁.Ok ∧ mem ∉ m₁.free ∧ Aligned mem := by
  have nodup := ok.nodup
  have aligned := ok.aligned
  rw [taken.free] at nodup aligned
  obtain ⟨apart, rest⟩ := List.nodup_cons.mp nodup
  exact ⟨⟨rest, fun page mem => aligned page (List.mem_cons_of_mem _ mem)⟩, apart,
    aligned mem List.mem_cons_self⟩

theorem Taken.not_interior_grown (table : Table m root) (ok : m.Ok) (taken : Taken mem m m₁)
    (grown : Grown root m₁ m₂) : ¬ Interior m₂ root mem := by
  intro inside
  rcases grown.fresh mem inside with old | free
  · exact taken.not_interior table ((taken.interior table).mp old)
  · exact (taken.ok ok).2.1 free

theorem Taken.pages_grown (taken : Taken mem m m₁) (grown : Grown root m₁ m₂)
    (other : page ≠ mem) (outside : ¬ Interior m₂ root page) : m₂.page page = m.page page :=
  (grown.others page outside).trans (taken.pages page other)

theorem Taken.free_grown (taken : Taken mem m m₁) (grown : Grown root m₁ m₂)
    (free : page ∈ m.free) : page = mem ∨ page ∈ m₂.free ∨ Interior m₂ root page := by
  rw [taken.free, List.mem_cons] at free
  rcases free with same | rest
  · exact .inl same
  · obtain ⟨gone, split, inside⟩ := grown.free
    rw [split, List.mem_append] at rest
    rcases rest with used | left
    · exact .inr (.inr (inside page used))
    · exact .inr (.inl left)

theorem Taken.free_of_grown (taken : Taken mem m m₁) (grown : Grown root m₁ m₂)
    (free : page ∈ m₂.free) : page ∈ m.free := by
  obtain ⟨gone, split, -⟩ := grown.free
  rw [taken.free, split]
  exact List.mem_cons_of_mem _ (List.mem_append_right _ free)

/-- A page of the grown table was one before, or it was free. -/
theorem Taken.fresh_grown (table : Table m root) (taken : Taken mem m m₁) (grown : Grown root m₁ m₂)
    (inside : Interior m₂ root page) : Interior m root page ∨ page ∈ m.free := by
  rcases grown.fresh page inside with old | new
  · exact .inl ((taken.interior table).mp old)
  · rw [taken.free]
    exact .inr (List.mem_cons_of_mem _ new)

theorem Taken.not_free_grown (ok : m.Ok) (taken : Taken mem m m₁) (grown : Grown root m₁ m₂) :
    mem ∉ m₂.free := by
  intro there
  obtain ⟨gone, split, -⟩ := grown.free
  refine (taken.ok ok).2.1 ?_
  rw [split]
  exact List.mem_append_right _ there

/-- What was neither free nor in the table at the beginning is not touched by a step. -/
theorem Allocated.untouched (alloc : Allocated root a j frame flag m m') (taken : Taken mem m' m₁)
    (grown : Grown root m₁ m₂) (used : page ∉ m.free) (out : ¬ Interior m root page) :
    page ≠ mem ∧ ¬ Interior m₂ root page := by
  refine ⟨?_, fun inside => ?_⟩
  · rintro rfl
    exact used (alloc.free page (by rw [taken.free]; exact List.mem_cons_self))
  · rcases taken.fresh_grown alloc.table grown inside with old | new
    · rcases alloc.fresh page old with first | free
      · exact out first
      · exact used free
    · exact used (alloc.free page new)

theorem kfree_free (freed : kfree kend pa m = .ok m') : m'.free = pa :: m.free := by
  unfold kfree at freed
  split at freed <;> cases freed
  rfl

/-- There was no memory for the page table, and the page goes back to the free list. -/
theorem Allocated.giveBack (alloc : Allocated root a j frame flag m m') (taken : Taken mem m' m₁)
    (grown : Grown root m₁ m₂) (freed : kfree kend mem m₂ = .ok m₃) :
    Allocated root a j frame flag m m₃ := by
  have outside := taken.not_interior_grown alloc.table alloc.ok grown
  have same : ∀ page, Interior m₂ root page → m₃.page page = m₂.page page := fun page inside =>
    page_kfree freed fun equal => outside (equal ▸ inside)
  have nodes := fun other short => Trie.node_frame same other short
  have interior : ∀ page, Interior m₃ root page ↔ Interior m₂ root page :=
    fun page => Trie.inside_congr nodes
  have free := kfree_free freed
  have listed : mem ∈ m'.free := by rw [taken.free]; exact List.mem_cons_self
  have back : ∀ page, page ∈ m₃.free → page ∈ m'.free := by
    intro page there
    rw [free, List.mem_cons] at there
    rcases there with rfl | later
    · exact listed
    · exact taken.free_of_grown grown later
  have fresh : ∀ page, Interior m₃ root page → Interior m' root page ∨ page ∈ m'.free :=
    fun page inside => taken.fresh_grown alloc.table grown ((interior page).mp inside)
  have lookups : ∀ va, lookup m₃ root va = lookup m' root va := fun va =>
    (lookup_frame same va).trans ((grown.lookup va).trans (taken.lookup alloc.table va))
  have ok := grown.ok (taken.ok alloc.ok).1
  refine ⟨⟨grown.table.distinct.congr nodes, fun page inside there => ?_⟩, ⟨?_, ?_⟩, ?_, ?_, ?_, ?_,
    ?_, alloc.inj, alloc.low, alloc.before, ?_, ?_, ?_⟩
  · rw [free, List.mem_cons] at there
    rcases there with rfl | later
    · exact outside ((interior page).mp inside)
    · exact grown.table.taken page ((interior page).mp inside) later
  · rw [free, List.nodup_cons]
    exact ⟨taken.not_free_grown alloc.ok grown, ok.nodup⟩
  · intro page there
    exact alloc.ok.aligned page (back page there)
  · intro page inside
    exact (interior page).mpr (grown.interior page ((taken.interior alloc.table).mpr
      (alloc.interior page inside)))
  · intro page inside
    rcases fresh page inside with old | new
    · exact alloc.fresh page old
    · exact .inr (alloc.free page new)
  · exact fun page there => alloc.free page (back page there)
  · intro page there
    rcases alloc.kept page there with here | inside | used
    · rcases taken.free_grown grown here with rfl | later | inside
      · exact .inl (by rw [free]; exact List.mem_cons_self)
      · exact .inl (by rw [free]; exact List.mem_cons_of_mem _ later)
      · exact .inr (.inl ((interior page).mpr inside))
    · exact .inr (.inl ((interior page).mpr (grown.interior page
        ((taken.interior alloc.table).mpr inside))))
    · exact .inr (.inr used)
  · intro k bound
    obtain ⟨was, unlisted, apart⟩ := alloc.frames k bound
    refine ⟨was, fun there => unlisted (back _ there), fun inside => ?_⟩
    rcases fresh _ inside with old | new
    · exact apart old
    · exact unlisted new
  · intro k bound
    rw [lookups]
    exact alloc.after k bound
  · intro va aligned low away
    rw [lookups]
    exact alloc.others va aligned low away
  · intro page used out
    obtain ⟨other, away⟩ := alloc.untouched taken grown used out
    rw [page_kfree freed other, taken.pages_grown grown other away]
    exact alloc.pages page used out

theorem Allocated.mapNext (alloc : Allocated root a j frame flag m m')
    (taken : Taken mem m' m₁) (grown : Grown root m₁ m₂) (aligned : Aligned a) (flags : Flags perm)
    (low : nth a j < MAXVA) (here : node child m₂.page root (upper (nth a j) 0) = some page)
    (clear : ¬ valid (m₂.load (page, PX 0 (nth a j))) = true) :
    Allocated root a (j + 1) (update frame j mem) (update flag j (perm ||| PTE_V)) m
      (m₂.store (page, PX 0 (nth a j)) (PA2PTE mem ||| perm ||| PTE_V)) := by
  obtain ⟨ok₁, -, alignedMem⟩ := taken.ok alloc.ok
  obtain ⟨unmapped, table, ok, one, -⟩ :=
    mapPage grown ok₁ flags (aligned_nth aligned j) alignedMem low here clear
  rw [taken.lookup alloc.table] at unmapped
  generalize eq : m₂.store (page, PX 0 (nth a j)) (PA2PTE mem ||| perm ||| PTE_V) =
    m₃ at table ok one ⊢
  have interior : ∀ x, Interior m₃ root x ↔ Interior m₂ root x := by
    intro x
    rw [← eq]
    exact interior_store grown.table.distinct here _
  have free : m₃.free = m₂.free := by rw [← eq]; rfl
  have outside : ¬ Interior m₃ root mem := fun inside =>
    taken.not_interior_grown alloc.table alloc.ok grown ((interior mem).mp inside)
  have listed : mem ∈ m'.free := by rw [taken.free]; exact List.mem_cons_self
  have earlier : ∀ x, x ∈ m₃.free → x ∈ m'.free := by
    intro x there
    rw [free] at there
    exact taken.free_of_grown grown there
  have fresh : ∀ x, Interior m₃ root x → Interior m' root x ∨ x ∈ m'.free :=
    fun x inside => taken.fresh_grown alloc.table grown ((interior x).mp inside)
  have grew : ∀ x, Interior m' root x → Interior m₃ root x := fun x inside =>
    (interior x).mpr (grown.interior x ((taken.interior alloc.table).mpr inside))
  have apart : ∀ k < j, nth a j ≠ nth a k := by
    intro k bound same
    have mapped := alloc.after k bound
    rw [← same, unmapped] at mapped
    cases mapped
  have one' : ∀ va, Aligned va → va < MAXVA → lookup m₃ root va =
      if va = nth a j then some (mem, perm ||| PTE_V) else lookup m' root va := by
    intro va aligned' low'
    rw [one va aligned' low', taken.lookup alloc.table]
  refine ⟨table, ok, ?_, ?_, ?_, ?_, ?_, ?_, ?_, ?_, ?_, ?_, ?_⟩
  · exact fun x inside => grew x (alloc.interior x inside)
  · intro x inside
    rcases fresh x inside with old | new
    · exact alloc.fresh x old
    · exact .inr (alloc.free x new)
  · exact fun x there => alloc.free x (earlier x there)
  · intro x there
    rcases alloc.kept x there with still | inside | ⟨k, bound, used⟩
    · rcases taken.free_grown grown still with rfl | later | inside
      · exact .inr (.inr ⟨j, Nat.lt_succ_self j, by rw [update_self]⟩)
      · exact .inl (by rw [free]; exact later)
      · exact .inr (.inl ((interior x).mpr inside))
    · exact .inr (.inl (grew x inside))
    · refine .inr (.inr ⟨k, by omega, ?_⟩)
      rw [update_of_ne (by omega)]
      exact used
  · intro k bound
    by_cases last : k = j
    · subst last
      rw [update_self]
      refine ⟨alloc.free mem listed, ?_, outside⟩
      rw [free]
      exact taken.not_free_grown alloc.ok grown
    · rw [update_of_ne last]
      obtain ⟨was, gone, apart⟩ := alloc.frames k (by omega)
      refine ⟨was, fun there => gone (earlier _ there), fun inside => ?_⟩
      rcases fresh _ inside with old | new
      · exact apart old
      · exact gone new
  · intro k l boundK boundL same
    by_cases lastK : k = j <;> by_cases lastL : l = j
    · rw [lastK, lastL]
    · subst lastK
      rw [update_self, update_of_ne lastL] at same
      exact absurd (same ▸ listed) (alloc.frames l (by omega)).2.1
    · subst lastL
      rw [update_self, update_of_ne lastK] at same
      exact absurd (same ▸ listed) (alloc.frames k (by omega)).2.1
    · rw [update_of_ne lastK, update_of_ne lastL] at same
      exact alloc.inj k l (by omega) (by omega) same
  · intro k bound
    by_cases last : k = j
    · rw [last]
      exact low
    · exact alloc.low k (by omega)
  · intro k bound
    by_cases last : k = j
    · rw [last, ← alloc.others _ (aligned_nth aligned j) low apart]
      exact unmapped
    · exact alloc.before k (by omega)
  · intro k bound
    by_cases last : k = j
    · subst last
      rw [update_self, update_self, one' _ (aligned_nth aligned k) low, if_pos rfl]
    · rw [update_of_ne last, update_of_ne last,
        one' _ (aligned_nth aligned k) (alloc.low k (by omega)),
        if_neg (apart k (by omega)).symm]
      exact alloc.after k (by omega)
  · intro va aligned' low' away
    rw [one' va aligned' low', if_neg (away j (Nat.lt_succ_self j))]
    exact alloc.others va aligned' low' fun k bound => away k (by omega)
  · intro x used out
    obtain ⟨other, away⟩ := alloc.untouched taken grown used out
    have unstored : m₃.page x = m₂.page x := by
      rw [← eq]
      refine Trie.store_table ?_ _
      rintro rfl
      exact away ⟨upper (nth a j) 0, le_rfl, here⟩
    rw [unstored, taken.pages_grown grown other away]
    exact alloc.pages x used out

/-- The function of the table and every page that was not free are as they were. What is not free
any more is a page of the table. -/
structure Restored (root : Word) (m m' : Memory) : Prop where
  lookup : ∀ va, Aligned va → va < MAXVA → lookup m' root va = lookup m root va
  pages : ∀ page, page ∉ m.free → ¬ Interior m root page → m'.page page = m.page page
  free : ∀ page, page ∈ m'.free → page ∈ m.free
  linked : ∀ page, page ∈ m.free → page ∈ m'.free ∨ Interior m' root page

theorem Allocated.undo (alloc : Allocated root a j frame flag m m')
    (unmapped : Unmapped root a j frame true m' m₁) : Restored root m m₁ := by
  have free : ∀ page, page ∈ m₁.free ↔ (∃ k < j, frame k = page) ∨ page ∈ m'.free := by
    intro page
    rw [unmapped.free, if_pos rfl]
    simp
  refine ⟨fun va aligned low => ?_, fun page used out => ?_, fun page there => ?_,
    fun page there => ?_⟩
  · by_cases mapped : ∃ k < j, va = nth a k
    · obtain ⟨k, bound, rfl⟩ := mapped
      rw [unmapped.removed k bound, alloc.before k bound]
    · have away : ∀ k < j, va ≠ nth a k := fun k bound same => mapped ⟨k, bound, same⟩
      rw [unmapped.others va aligned low away, alloc.others va aligned low away]
  · rw [unmapped.pages page, alloc.pages page used out]
    · intro inside
      rcases alloc.fresh page inside with old | new
      · exact out old
      · exact used new
    · rintro - k bound rfl
      exact used (alloc.frames k bound).1
  · rcases (free page).mp there with ⟨k, bound, rfl⟩ | later
    · exact (alloc.frames k bound).1
    · exact alloc.free page later
  · rcases alloc.kept page there with still | inside | ⟨k, bound, same⟩
    · exact .inl ((free page).mpr (.inr still))
    · exact .inr ((unmapped.interior page).mpr inside)
    · exact .inl ((free page).mpr (.inl ⟨k, bound, same.symm⟩))

/-! ## The ends of the loops -/

theorem and_not_mask (y : Word) : y &&& ~~~(PGSIZE - 1) = (y >>> 12) <<< 12 := by
  apply BitVec.eq_of_getLsbD_eq
  intro i bound
  have mask : (PGSIZE - 1).getLsbD i = decide (i < 12) := by
    have value : (PGSIZE - 1).toNat = 2 ^ 12 - 1 := rfl
    rw [BitVec.getLsbD, value, Nat.testBit_two_pow_sub_one]
  simp only [BitVec.getLsbD_and, BitVec.getLsbD_not, BitVec.getLsbD_shiftLeft,
    BitVec.getLsbD_ushiftRight, mask]
  by_cases low : i < 12
  · simp [low]
  · have index : 12 + (i - 12) = i := by omega
    simp [low, bound, index]

theorem toNat_PGROUNDUP (sz : Word) :
    (PGROUNDUP sz).toNat = (sz.toNat + 4095) % 2 ^ 64 / 4096 * 4096 := by
  have sum : (sz + PGSIZE - 1).toNat = (sz.toNat + 4095) % 2 ^ 64 := by
    rw [BitVec.toNat_sub, toNat_add_PGSIZE, show (1 : Word).toNat = 1 from rfl]
    omega
  rw [PGROUNDUP, and_not_mask, BitVec.toNat_shiftLeft, BitVec.toNat_ushiftRight, sum,
    Nat.shiftLeft_eq, Nat.shiftRight_eq_div_pow]
  omega

theorem aligned_PGROUNDUP (sz : Word) : Aligned (PGROUNDUP sz) := by
  rw [aligned_iff, toNat_PGROUNDUP]
  omega

theorem PGROUNDUP_eq {a : Word} (aligned : Aligned a) (low : a.toNat ≤ 2 ^ 38) :
    PGROUNDUP a = a := by
  rw [aligned_iff] at aligned
  rw [← BitVec.toNat_inj, toNat_PGROUNDUP]
  omega

theorem asInt_eq (small : n.toNat < 2 ^ 31) : asInt n = n := by
  have width : (n.setWidth 32).toNat = n.toNat := by
    rw [BitVec.toNat_setWidth]
    omega
  have positive : (n.setWidth 32).msb = false := by
    rw [BitVec.msb_eq_decide, width]
    exact decide_eq_false (by omega)
  rw [asInt, BitVec.signExtend_eq_setWidth_of_msb_false positive, ← BitVec.toNat_inj,
    BitVec.toNat_setWidth, width]
  omega

section

variable (alloc : Allocated root a j frame flag m m')
include alloc

theorem Allocated.below (aligned : Aligned a) (some : 0 < j) : a.toNat + j * 4096 ≤ 2 ^ 38 := by
  rw [aligned_iff] at aligned
  by_contra beyond
  have first := alloc.low 0 some
  rw [lt_MAXVA, toNat_nth] at first
  have last := alloc.low ((2 ^ 38 - a.toNat) / 4096) (by omega)
  rw [lt_MAXVA, toNat_nth] at last
  have bound := a.isLt
  omega

theorem Allocated.no_wrap (aligned : Aligned a) : a.toNat + j * 4096 < 2 ^ 64 := by
  have bound := a.isLt
  rcases Nat.eq_zero_or_pos j with rfl | some
  · omega
  · have below := alloc.below aligned some
    omega

section

variable (aligned : Aligned a) (leaves : ∀ k < j, flag k ≠ PTE_V)
  (freeable : ∀ page ∈ m.free, Freeable kend page)
include aligned leaves freeable

theorem Allocated.unmapAll (count : n.toNat = j) (below : a.toNat + j * 4096 ≤ 2 ^ 38) :
    ∃ m'', uvmunmap kend root a n true m' = .ok m'' ∧ Restored root m m'' := by
  subst count
  obtain ⟨m'', done, unmapped⟩ :=
    uvmunmap_ok kend n frame flag true alloc.table.distinct aligned below
    (fun k bound => ⟨alloc.after k bound, leaves k bound⟩)
    (fun _ k bound => ⟨freeable _ (alloc.frames k bound).1, (alloc.frames k bound).2.2⟩)
  exact ⟨m'', done, alloc.undo unmapped⟩

theorem Allocated.dealloc :
    ∃ sz m'', uvmdealloc kend root (nth a j) a m' = .ok (sz, m'') ∧ Restored root m m'' := by
  unfold uvmdealloc
  rcases Nat.eq_zero_or_pos j with rfl | some
  · rw [nth_zero, if_pos (BitVec.le_refl a)]
    exact ⟨a, m', rfl, alloc.undo (.nil alloc.table.distinct)⟩
  · have below := alloc.below aligned some
    have last : (nth a j).toNat = a.toNat + j * 4096 := by
      rw [toNat_nth]
      omega
    have less : a < nth a j := by
      rw [BitVec.lt_def]
      omega
    have count : (nth a j - a) / PGSIZE = BitVec.ofNat 64 j := by
      rw [← BitVec.toNat_inj, BitVec.toNat_udiv, BitVec.toNat_sub, last, toNat_PGSIZE,
        BitVec.toNat_ofNat]
      omega
    have pages : (BitVec.ofNat 64 j).toNat = j := by
      rw [BitVec.toNat_ofNat]
      omega
    rw [if_neg (BitVec.not_le.mpr less), PGROUNDUP_eq aligned (by omega),
      PGROUNDUP_eq (aligned_nth aligned j) (by omega), if_pos less, count,
      asInt_eq (by rw [pages]; omega)]
    obtain ⟨m'', done, restored⟩ := alloc.unmapAll aligned leaves freeable pages below
    simp only [done]
    exact ⟨a, m'', rfl, restored⟩

end

end

theorem mappages_one (aligned : Aligned a) : mappages root a PGSIZE pa perm m =
      match walk root a true m with
      | .error why => .error why
      | .ok (none, m) => .ok (-1, m)
      | .ok (some pte, m) =>
        if valid (m.load pte) then .error .mappagesRemap
        else .ok (0, m.store pte (PA2PTE pa ||| perm ||| PTE_V)) := by
  have last : a + PGSIZE - PGSIZE = a := BitVec.add_sub_cancel ..
  unfold mappages
  rw [if_neg (show ¬ a % PGSIZE ≠ 0 from not_not.mpr aligned), if_neg (by decide),
    if_neg (by decide),
    last, show (PGSIZE / PGSIZE).toNat = 1 from rfl]
  rcases walked : walk root a true m with why | ⟨_ | pte, grown⟩ <;> simp [mappagesLoop, walked]

/-! ## The loops -/

/-- A page of the range is already mapped, or too high. -/
def Blocked (m : Memory) (root limit a : Word) : Prop :=
  ∃ k, a.toNat + k * 4096 < 2 ^ 64 ∧ nth a k < limit ∧
    (MAXVA ≤ nth a k ∨ lookup m root (nth a k) ≠ none)

theorem kalloc_none (none : kalloc m = (none, m₁)) : m₁ = m := by
  unfold kalloc at none
  split at none <;> cases none
  rfl

theorem taken_of_kalloc (some : kalloc m = (some mem, m₁)) : Taken mem m m₁ := by
  unfold kalloc at some
  split at some
  · cases some
  next free =>
    cases some
    exact ⟨free, fun page other => update_of_ne other _ _⟩

theorem Taken.write (taken : Taken mem m m₁) (content : Page) :
    Taken mem m { m₁ with page := update m₁.page mem content } :=
  ⟨taken.free, fun page other => (update_of_ne other _ _).trans (taken.pages page other)⟩

/-- The pages that have been mapped do not come round to the next one. -/
theorem Allocated.apart (alloc : Allocated root a j frame flag m m') (aligned : Aligned a) :
    ∀ k < j, nth a j ≠ nth a k := by
  intro k bound same
  have below := alloc.below aligned (by omega)
  have equal := congrArg BitVec.toNat same
  rw [toNat_nth, toNat_nth] at equal
  omega

/-- What `mappages` can do with the next page: it has mapped it, or the page can be given
back, or there is a mapping already. -/
theorem Allocated.next (kend : Word) (alloc : Allocated root a j frame flag m m')
    (taken : Taken mem m' m₁)
    (aligned : Aligned a) (flags : Flags perm) (freeable : ∀ page ∈ m.free, Freeable kend page) :
    match mappages root (nth a j) PGSIZE mem perm m₁ with
    | .error _ => MAXVA ≤ nth a j ∨ lookup m root (nth a j) ≠ none
    | .ok (r, m₂) =>
      (r = 0 ∧ Allocated root a (j + 1) (update frame j mem)
        (update flag j (perm ||| PTE_V)) m m₂) ∨
      (r = -1 ∧ ∃ m₃, kfree kend mem m₂ = .ok m₃ ∧ Allocated root a j frame flag m m₃) := by
  obtain ⟨ok₁, -, alignedMem⟩ := taken.ok alloc.ok
  rw [mappages_one (aligned_nth aligned j)]
  cases walked : walk root (nth a j) true m₁ with
  | error why =>
    unfold walk at walked
    split at walked
    next high => exact .inl high
    · cases walked
  | ok result =>
    obtain ⟨found, m₂⟩ := result
    obtain ⟨low, grown, ⟨rfl, -⟩ | ⟨page, rfl, here⟩⟩ :=
      walk_grow (taken.isTable alloc.table) ok₁ walked
    · have listed : mem ∈ m.free := alloc.free mem (by rw [taken.free]; exact List.mem_cons_self)
      have freed := kfree_eq (m := m₂) alignedMem (freeable mem listed)
      exact .inr ⟨rfl, _, freed, alloc.giveBack taken grown freed⟩
    · by_cases clear : valid (m₂.load (page, PX 0 (nth a j))) = true
      · simp only [clear, if_true]
        refine .inr ?_
        rw [← alloc.others _ (aligned_nth aligned j) low (alloc.apart aligned),
          ← taken.lookup alloc.table, ← grown.lookup, lookup, entry_of_node here, Option.bind_some,
          leaf, if_pos clear]
        exact Option.some_ne_none _
      · simp only [clear]
        exact .inl ⟨rfl, alloc.mapNext taken grown aligned flags low here clear⟩

theorem leaves_update {value : Word} (leaves : ∀ k < j, flag k ≠ PTE_V) (isLeaf : value ≠ PTE_V) :
    ∀ k < j + 1, update flag j value k ≠ PTE_V := by
  intro k bound
  by_cases last : k = j
  · rw [last, update_self]
    exact isLeaf
  · rw [update_of_ne last]
    exact leaves k (by omega)

theorem nth_add (a : Word) (k : Nat) : nth a k + PGSIZE = nth a (k + 1) := by
  rw [← BitVec.toNat_inj, toNat_add_PGSIZE, toNat_nth, toNat_nth]
  omega

theorem user_ne_V (xperm : Word) : PTE_R ||| PTE_U ||| xperm ||| PTE_V ≠ PTE_V := by
  intro same
  have bit := congrArg (fun w : Word => w.getLsbD 1) same
  simp [PTE_R, PTE_U, PTE_V] at bit

theorem uvmallocLoop_outcome (kend newsz : Word) {xperm : Word}
    (freeable : ∀ page ∈ m.free, Freeable kend page)
    (aligned : Aligned a) (flags : Flags xperm) (n : Nat)
    (alloc : Allocated root a j frame flag m m') (leaves : ∀ k < j, flag k ≠ PTE_V) :
    match uvmallocLoop kend root a newsz xperm n (nth a j) m' with
    | .ok (r, m'') => r = newsz ∨ (r = 0 ∧ Restored root m m'')
    | .error _ => Blocked m root newsz a := by
  have user : Flags (PTE_R ||| PTE_U ||| xperm) := flags_or (by decide) flags
  induction n generalizing j frame flag m' with
  | zero => exact .inl rfl
  | succ n ih =>
    unfold uvmallocLoop
    by_cases more : nth a j < newsz
    · rw [if_pos more]
      cases got : kalloc m' with
      | mk page m₁ =>
        cases page with
        | none =>
          rw [kalloc_none got]
          obtain ⟨sz, m'', done, restored⟩ := alloc.dealloc aligned leaves freeable
          simp only [done]
          exact .inr ⟨trivial, restored⟩
        | some mem =>
          have taken := (taken_of_kalloc got).write fun _ => 0
          have next := alloc.next kend taken aligned user freeable
          simp only [Memory.fill]
          cases mapped : mappages root (nth a j) PGSIZE mem (PTE_R ||| PTE_U ||| xperm)
            { m₁ with page := update m₁.page mem fun _ => 0 } with
          | error why =>
            rw [mapped] at next
            exact ⟨j, alloc.no_wrap aligned, more, next⟩
          | ok result =>
            obtain ⟨r, m₂⟩ := result
            rw [mapped] at next
            obtain ⟨rfl, after⟩ | ⟨rfl, m₃, freed, back⟩ := next
            · simp only [nth_add]
              exact ih after (leaves_update leaves (user_ne_V xperm))
            · obtain ⟨sz, m'', done, restored⟩ := back.dealloc aligned leaves freeable
              simp only [freed, done]
              exact .inr ⟨rfl, restored⟩
    · rw [if_neg more]
      exact .inl rfl

/-- The loop of `uvmcopy` has not changed what the parent has. -/
theorem Allocated.tableKept (alloc : Allocated root a j frame flag m m')
    (table : Table m old) (apart : ∀ page, Interior m old page → ¬ Interior m root page) :
    ∀ page, Interior m old page → m'.page page = m.page page :=
  fun page inside => alloc.pages page (table.taken page inside) (apart page inside)

theorem Allocated.fail (alloc : Allocated root 0 j frame flag m m')
    (leaves : ∀ k < j, flag k ≠ PTE_V) (freeable : ∀ page ∈ m.free, Freeable kend page) :
    ∃ m'', uvmcopyFail kend root (nth 0 j) m' = .ok (-1, m'') ∧ Restored root m m'' := by
  have aligned : Aligned 0 := by decide
  have below : (0 : Word).toNat + j * 4096 ≤ 2 ^ 38 := by
    rcases Nat.eq_zero_or_pos j with rfl | some
    · decide
    · exact alloc.below aligned some
  have pages : (nth 0 j / PGSIZE).toNat = j := by
    rw [show (0 : Word).toNat = 0 from rfl] at below
    rw [BitVec.toNat_udiv, toNat_nth, toNat_PGSIZE, show (0 : Word).toNat = 0 from rfl]
    omega
  obtain ⟨m'', done, restored⟩ := alloc.unmapAll aligned leaves freeable pages below
  refine ⟨m'', ?_, restored⟩
  unfold uvmcopyFail
  rw [done]

theorem flags_PTE_FLAGS (pte : Word) : Flags (PTE_FLAGS pte) := by
  show (pte &&& 0x3FF).toNat < 2 ^ 10
  rw [BitVec.toNat_and]
  exact Nat.and_lt_two_pow _ (by decide)

theorem PTE_FLAGS_or_V {pte : Word} (set : valid pte = true) :
    PTE_FLAGS pte ||| PTE_V = PTE_FLAGS pte := by
  rw [valid_iff] at set
  apply BitVec.eq_of_getLsbD_eq
  intro i _
  cases i with
  | zero => simp [PTE_FLAGS, PTE_V, set]
  | succ i =>
    have clear : PTE_V.getLsbD (i + 1) = false := by simp [PTE_V]
    rw [BitVec.getLsbD_or, clear, Bool.or_false]

/-- The size invariant: the pages below the size are mapped, and no user page is above it.
No page that is mapped is free or a page of the table. -/
structure Space (m : Memory) (root sz : Word) : Prop where
  table : Table m root
  mapped : ∀ va, Aligned va → va < MAXVA → va < sz →
    ∃ pa fl, lookup m root va = some (pa, fl) ∧ fl ≠ PTE_V
  bounded : ∀ va pa fl, Aligned va → va < MAXVA → lookup m root va = some (pa, fl) →
    fl &&& PTE_U ≠ 0 → va < sz
  frames : ∀ va pa fl, Aligned va → va < MAXVA → lookup m root va = some (pa, fl) →
    pa ∉ m.free ∧ ¬ Interior m root pa

theorem uvmcopyLoop_outcome (kend : Word) {sz : Word}
    (freeable : ∀ page ∈ m.free, Freeable kend page)
    (parent : Space m old sz) (apart : ∀ page, Interior m old page → ¬ Interior m root page)
    (n : Nat)
    (alloc : Allocated root 0 j frame flag m m') (leaves : ∀ k < j, flag k ≠ PTE_V) :
    match uvmcopyLoop kend old root sz n (nth 0 j) m' with
    | .ok (r, m'') => r = 0 ∨ (r = -1 ∧ Restored root m m'')
    | .error _ => Blocked m root sz 0 := by
  have aligned : Aligned 0 := by decide
  induction n generalizing j frame flag m' with
  | zero => exact .inl rfl
  | succ n ih =>
    unfold uvmcopyLoop
    by_cases more : nth 0 j < sz
    · rw [if_pos more]
      by_cases low : nth 0 j < MAXVA
      · obtain ⟨pa, fl, mapped, isLeaf⟩ := parent.mapped _ (aligned_nth aligned j) low more
        rw [← lookup_frame (alloc.tableKept parent.table apart)] at mapped
        obtain ⟨page, here, set, -, flags⟩ := entry_of_lookup mapped
        generalize loaded : m'.load (page, PX 0 (nth 0 j)) = pte at set flags
        rw [walk_find low, here]
        simp only [Option.map_some, loaded, set, Bool.true_eq_false, if_false]
        cases got : kalloc m' with
        | mk fresh m₁ =>
          cases fresh with
          | none =>
            rw [kalloc_none got]
            obtain ⟨m'', done, restored⟩ := alloc.fail leaves freeable
            simp only [done]
            exact .inr ⟨trivial, restored⟩
          | some mem =>
            have taken := (taken_of_kalloc got).write (m₁.page (PTE2PA pte))
            have next := alloc.next kend taken aligned (flags_PTE_FLAGS pte) freeable
            simp only
            cases result : mappages root (nth 0 j) PGSIZE mem (PTE_FLAGS pte)
              { m₁ with page := update m₁.page mem (m₁.page (PTE2PA pte)) } with
            | error why =>
              rw [result] at next
              exact ⟨j, alloc.no_wrap (by decide), more, next⟩
            | ok result' =>
              obtain ⟨r, m₂⟩ := result'
              rw [result] at next
              obtain ⟨rfl, after⟩ | ⟨rfl, m₃, freed, back⟩ := next
              · simp only [nth_add]
                refine ih after (leaves_update leaves ?_)
                rw [PTE_FLAGS_or_V set, flags]
                exact isLeaf
              · obtain ⟨m'', done, restored⟩ := back.fail leaves freeable
                simp only [freed, done]
                exact .inr ⟨rfl, restored⟩
      · have high : walk old (nth 0 j) false m' = .error .walk := if_pos (BitVec.not_lt.mp low)
        rw [high]
        exact ⟨j, alloc.no_wrap (by decide), more, .inl (BitVec.not_lt.mp low)⟩
    · rw [if_neg more]
      exact .inl rfl

/-! ## The address spaces after a failure -/

/-- What a program sees at an address: the page frame, its flags and its content. -/
def view (m : Memory) (root va : Word) : Option (Word × Word × Page) :=
  (lookup m root va).map fun (pa, fl) => (pa, fl, m.page pa)

/-- The free pages are as before, but for those that have become pages of the table. -/
structure Returned (root : Word) (m m' : Memory) : Prop where
  free : ∀ page, page ∈ m'.free → page ∈ m.free
  linked : ∀ page, page ∈ m.free → page ∈ m'.free ∨ Interior m' root page

/-- `uvmalloc` returns the new size, or 0 with the address space as it was. -/
def UvmallocRestores (kend : Word) (m : Memory) : Prop :=
  ∀ root oldsz newsz xperm, Space m root oldsz → oldsz ≤ newsz → Flags xperm →
    match uvmalloc kend root oldsz newsz xperm m with
    | .error _ => Blocked m root newsz (PGROUNDUP oldsz)
    | .ok (r, m') => (r = newsz ∨ r = 0) ∧ (r = 0 → Returned root m m' ∧
        ∀ va, Aligned va → va < MAXVA → view m' root va = view m root va)

/-- `uvmcopy` returns 0, or -1 with a child that has no user page and a parent that is as it was. -/
def UvmcopyRestores (kend : Word) (m : Memory) : Prop :=
  ∀ old new sz, Space m old sz → Space m new 0 →
    (∀ page, Interior m old page → ¬ Interior m new page) →
    (∀ va pa fl, Aligned va → va < MAXVA → lookup m old va = some (pa, fl) → ¬ Interior m new pa) →
    match uvmcopy kend old new sz m with
    | .error _ => Blocked m new sz 0
    | .ok (r, m') => (r = 0 ∨ r = -1) ∧ (r = -1 → Returned new m m' ∧
        (∀ va, Aligned va → va < MAXVA → lookup m' new va = lookup m new va) ∧
        ∀ va, Aligned va → va < MAXVA → view m' old va = view m old va)

theorem Restored.returned (restored : Restored root m m') : Returned root m m' :=
  ⟨restored.free, restored.linked⟩

theorem view_congr {va : Word} (same : lookup m' root va = lookup m root va)
    (pages : ∀ pa fl, lookup m root va = some (pa, fl) → m'.page pa = m.page pa) :
    view m' root va = view m root va := by
  unfold view
  rw [same]
  cases found : lookup m root va with
  | none => rfl
  | some entry =>
    obtain ⟨pa, fl⟩ := entry
    simp only [Option.map_some, pages pa fl found]

/-- When memory runs out, `uvmalloc` and `uvmcopy` give back what they have taken. -/
theorem out_of_memory_rolls_back (ok : m.Ok) (freeable : ∀ page ∈ m.free, Freeable kend page) :
    UvmallocRestores kend m ∧ UvmcopyRestores kend m := by
  constructor
  · intro root oldsz newsz xperm space grows flags
    have start : Allocated root (PGROUNDUP oldsz) 0 (fun _ => 0) (fun _ => 0) m m :=
      .nil space.table ok
    have outcome := uvmallocLoop_outcome kend newsz freeable
      (aligned_PGROUNDUP oldsz) flags (newsz.toNat / 4096 + 1) start nofun
    rw [nth_zero] at outcome
    have whole : ∀ m', Restored root m m' → ∀ va, Aligned va → va < MAXVA →
        view m' root va = view m root va := by
      intro m' restored va aligned low
      refine view_congr (restored.lookup va aligned low) fun pa fl found => ?_
      obtain ⟨used, outside⟩ := space.frames va pa fl aligned low found
      exact restored.pages pa used outside
    unfold uvmalloc
    rw [if_neg (BitVec.not_lt.mpr grows)]
    cases loop : uvmallocLoop kend root (PGROUNDUP oldsz) newsz xperm (newsz.toNat / 4096 + 1)
      (PGROUNDUP oldsz) m with
    | error why =>
      rw [loop] at outcome
      exact outcome
    | ok result =>
      obtain ⟨r, m'⟩ := result
      rw [loop] at outcome
      obtain rfl | ⟨rfl, restored⟩ := outcome
      · refine ⟨.inl rfl, ?_⟩
        rintro rfl
        have same : m' = m := by
          have done : uvmallocLoop kend root (PGROUNDUP oldsz) 0 xperm ((0 : Word).toNat / 4096 + 1)
              (PGROUNDUP oldsz) m = .ok (0, m) := if_neg BitVec.not_lt_zero
          rw [done] at loop
          cases loop
          rfl
        rw [same]
        exact ⟨⟨fun _ there => there, fun _ there => .inl there⟩, fun _ _ _ => rfl⟩
      · exact ⟨.inr rfl, fun _ => ⟨restored.returned, whole m' restored⟩⟩
  · intro old new sz parent child apart frames
    have start : Allocated new 0 0 (fun _ => 0) (fun _ => 0) m m := .nil child.table ok
    have outcome := uvmcopyLoop_outcome kend freeable parent apart (sz.toNat / 4096 + 1) start nofun
    rw [nth_zero] at outcome
    unfold uvmcopy
    cases loop : uvmcopyLoop kend old new sz (sz.toNat / 4096 + 1) 0 m with
    | error why =>
      rw [loop] at outcome
      exact outcome
    | ok result =>
      obtain ⟨r, m'⟩ := result
      rw [loop] at outcome
      obtain rfl | ⟨rfl, restored⟩ := outcome
      · exact ⟨.inl rfl, nofun⟩
      · refine ⟨.inr rfl, fun _ => ⟨restored.returned, restored.lookup, fun va aligned low => ?_⟩⟩
        refine view_congr (lookup_frame (fun page inside => restored.pages page
          (parent.table.taken page inside) (apart page inside)) va) fun pa fl found => ?_
        exact restored.pages pa (parent.frames va pa fl aligned low found).1
          (frames va pa fl aligned low found)

theorem space_blank (zero : ∀ i, m.page root i = 0) (taken : root ∉ m.free) : Space m root 0 where
  table := table_blank zero taken
  mapped := fun _ _ _ below => absurd below BitVec.not_lt_zero
  bounded := fun va _ _ _ _ found => absurd (found.symm.trans (lookup_blank zero va)) nofun
  frames := fun va _ _ _ _ found => absurd (found.symm.trans (lookup_blank zero va)) nofun

/-- The two pages, and no others. -/
theorem lookup_paged {va fl : Word} (aligned : Aligned va) (low : va < MAXVA)
    (found : lookup paged 0x80001000 va = some (pa, fl)) :
    va = 0 ∧ pa = 0x80002000 ∨ va = 4096 ∧ pa = 0x80003000 := by
  by_cases first : va = nth 0 0
  · rw [first, mapped_paged.after 0 (by decide)] at found
    exact .inl ⟨first.trans (by decide),
      (Prod.mk.inj (Option.some.inj found)).1.symm.trans (by decide)⟩
  by_cases second : va = nth 0 1
  · rw [second, mapped_paged.after 1 (by decide)] at found
    exact .inr ⟨second.trans (by decide),
      (Prod.mk.inj (Option.some.inj found)).1.symm.trans (by decide)⟩
  rw [mapped_paged.others va aligned low, lookup_blank fun _ => rfl] at found
  · cases found
  · intro k bound
    obtain rfl | rfl : k = 0 ∨ k = 1 := by omega
    · exact first
    · exact second

theorem space_paged : Space paged 0x80001000 8192 := by
  have outside : ∀ page, page ≠ 0x80001000 → page ∉ sevens.free →
      ¬ Interior paged 0x80001000 page := fun page other taken inside =>
    (mapped_paged.fresh page inside).elim
      (fun old => other (interior_blank (fun _ => rfl) old)) taken
  refine ⟨mapped_paged.table, fun va aligned low below => ?_,
    fun va pa fl aligned low found _ => ?_, fun va pa fl aligned low found => ?_⟩
  · obtain ⟨k, few, rfl⟩ : ∃ k < 2, va = nth 0 k := by
      rw [aligned_iff] at aligned
      refine ⟨va.toNat / 4096, ?_, ?_⟩
      · have : va.toNat < 8192 := BitVec.lt_def.mp below
        omega
      · rw [← BitVec.toNat_inj, toNat_nth]
        have := va.isLt
        simp
        omega
    exact ⟨_, _, mapped_paged.after k few, by decide⟩
  · rcases lookup_paged aligned low found with ⟨rfl, -⟩ | ⟨rfl, -⟩ <;> decide
  · rcases lookup_paged aligned low found with ⟨-, rfl⟩ | ⟨-, rfl⟩ <;>
      exact ⟨by decide +kernel, outside _ (by decide) (by decide)⟩

theorem freeable_of_all
    (all : (m.free.all fun page => decide (KERNBASE ≤ page ∧ page < PHYSTOP)) = true) :
    ∀ page ∈ m.free, Freeable KERNBASE page := by
  intro page listed
  have both : KERNBASE ≤ page ∧ page < PHYSTOP :=
    of_decide_eq_true (List.all_eq_true.mp all page listed)
  exact both

/-- Two of the five pages are for the table of the parent, and there is none for the second page
of the child: its first page is copied, and then everything goes back. -/
theorem out_of_memory_rolls_back_paged :
    (UvmallocRestores KERNBASE paged ∧ UvmcopyRestores KERNBASE paged) ∧
      Space paged 0x80001000 8192 ∧ Space paged 0x80100000 0 ∧
      (uvmcopy KERNBASE 0x80001000 0x80100000 8192 paged).toOption.map
        (fun result => (result.1, result.2.free.length)) = some (-1, 1) :=
  ⟨out_of_memory_rolls_back mapped_paged.ok (freeable_of_all (by decide +kernel)), space_paged,
    space_blank (by decide +kernel) (by decide +kernel), by decide +kernel⟩

end Xv6.Vm
