import Xv6.Vm.Tables

/-!
# Mapping and unmapping pages

`mappages` extends the function of a table by the pages of a range, and `uvmunmap` removes
the pages of a range from it. Together with `walk` this makes tables behave as maps
(`page_tables_are_maps`).
-/

namespace Xv6.Vm

open Trie (node entry Distinct)

variable {m m' : Memory} {root va pa perm : Word} {a page kend : Word} {n : Nat} {m₁ : Memory}
  {doFree : Bool} {frame : Nat → Word} {last fl : Word} {k : Nat}

/-- The address of a page of a range. -/
def nth (a : Word) (k : Nat) : Word := a + BitVec.ofNat 64 k * PGSIZE

theorem toNat_PGSIZE : PGSIZE.toNat = 4096 := rfl

theorem toNat_nth (a : Word) (k : Nat) : (nth a k).toNat = (a.toNat + k * 4096) % 2 ^ 64 := by
  simp only [nth, BitVec.toNat_add, BitVec.toNat_mul, BitVec.toNat_ofNat, toNat_PGSIZE]
  omega

theorem toNat_add_PGSIZE (a : Word) : (a + PGSIZE).toNat = (a.toNat + 4096) % 2 ^ 64 := by
  rw [BitVec.toNat_add, toNat_PGSIZE]

theorem nth_zero (a : Word) : nth a 0 = a := by
  simp [nth]

theorem nth_succ (a : Word) (k : Nat) : nth (a + PGSIZE) k = nth a (k + 1) := by
  rw [← BitVec.toNat_inj, toNat_nth, toNat_nth, toNat_add_PGSIZE]
  omega

theorem aligned_nth (aligned : Aligned a) (k : Nat) : Aligned (nth a k) := by
  rw [aligned_iff] at aligned ⊢
  rw [toNat_nth]
  omega

theorem aligned_add (aligned : Aligned a) : Aligned (a + PGSIZE) := by
  rw [← nth_zero (a + PGSIZE), nth_succ]
  exact aligned_nth aligned 1

theorem leaf_or (aligned : Aligned pa) (flags : Flags perm) :
    leaf (PA2PTE pa ||| perm ||| PTE_V) = some (pa, perm ||| PTE_V) := by
  have both := flags_or flags flags_V
  rw [BitVec.or_assoc, leaf, ← BitVec.or_assoc, if_pos (valid_or _), BitVec.or_assoc,
    PTE2PA_or aligned both, PTE_FLAGS_or both]

theorem lookup_eq_none (here : node child m.page root (upper va 0) = some page)
    (clear : ¬ valid (m.load (page, PX 0 va)) = true) : lookup m root va = none := by
  rw [lookup, entry_of_node here, Option.bind_some, leaf, if_neg clear]

/-- What `mappages` has done when it returns 0 after `n` pages from `a` and `pa` on. -/
structure Mapped (root perm : Word) (n : Nat) (a pa : Word) (m m' : Memory) : Prop where
  table : Table m' root
  ok : m'.Ok
  low : ∀ k < n, nth a k < MAXVA
  before : ∀ k < n, lookup m root (nth a k) = none
  after : ∀ k < n, lookup m' root (nth a k) = some (nth pa k, perm ||| PTE_V)
  others : ∀ va, Aligned va → va < MAXVA → (∀ k < n, va ≠ nth a k) →
    lookup m' root va = lookup m root va
  fresh : ∀ page, Interior m' root page → Interior m root page ∨ page ∈ m.free

theorem Mapped.cons (aligned : Aligned a) (low : a < MAXVA) (unmapped : lookup m root a = none)
    (one : ∀ va, Aligned va → va < MAXVA → lookup m₁ root va =
      if va = a then some (pa, perm ||| PTE_V) else lookup m root va)
    (grows : ∀ page, Interior m₁ root page ∨ page ∈ m₁.free → Interior m root page ∨ page ∈ m.free)
    (rest : Mapped root perm n (a + PGSIZE) (pa + PGSIZE) m₁ m') :
    Mapped root perm (n + 1) a pa m m' := by
  have apart : ∀ k < n, nth a (k + 1) ≠ a := by
    intro k bound same
    have none := rest.before k bound
    rw [nth_succ, same, one a aligned low, if_pos rfl] at none
    cases none
  refine ⟨rest.table, rest.ok, ?_, ?_, ?_, ?_,
    fun page inside => grows page (rest.fresh page inside)⟩
  · intro k bound
    cases k with
    | zero =>
      rw [nth_zero]
      exact low
    | succ k =>
      rw [← nth_succ]
      exact rest.low k (by omega)
  · intro k bound
    cases k with
    | zero =>
      rw [nth_zero]
      exact unmapped
    | succ k =>
      have low' := rest.low k (by omega)
      have none := rest.before k (by omega)
      rw [nth_succ] at low' none
      rw [one _ (aligned_nth aligned (k + 1)) low', if_neg (apart k (by omega))] at none
      exact none
  · intro k bound
    cases k with
    | zero =>
      rw [nth_zero, nth_zero, rest.others a aligned low, one a aligned low, if_pos rfl]
      intro k bound same
      rw [nth_succ] at same
      exact apart k bound same.symm
    | succ k =>
      rw [← nth_succ, ← nth_succ]
      exact rest.after k (by omega)
  · intro va aligned' low' away
    have first := away 0 (by omega)
    rw [nth_zero] at first
    rw [rest.others va aligned' low', one va aligned' low', if_neg first]
    intro k bound
    rw [nth_succ]
    exact away (k + 1) (by omega)

theorem Mapped.nil (table : Table m root) (ok : m.Ok) : Mapped root perm 0 a pa m m :=
  ⟨table, ok, nofun, nofun, nofun, fun _ _ _ _ => rfl, fun _ => .inl⟩

theorem mapPage (grown : Grown root m m₁) (ok : m.Ok)
    (flags : Flags perm) (aligned : Aligned a) (alignedPa : Aligned pa) (low : a < MAXVA)
    (here : node child m₁.page root (upper a 0) = some page)
    (clear : ¬ valid (m₁.load (page, PX 0 a)) = true) :
    lookup m root a = none ∧
    Table (m₁.store (page, PX 0 a) (PA2PTE pa ||| perm ||| PTE_V)) root ∧
    (m₁.store (page, PX 0 a) (PA2PTE pa ||| perm ||| PTE_V)).Ok ∧
    (∀ va, Aligned va → va < MAXVA →
      lookup (m₁.store (page, PX 0 a) (PA2PTE pa ||| perm ||| PTE_V)) root va =
        if va = a then some (pa, perm ||| PTE_V) else lookup m root va) ∧
    ∀ page', Interior (m₁.store (page, PX 0 a) (PA2PTE pa ||| perm ||| PTE_V)) root page' ∨
      page' ∈ m₁.free → Interior m root page' ∨ page' ∈ m.free := by
  have free := grown.ok ok
  refine ⟨?_, grown.table.store here _, ⟨free.nodup, free.aligned⟩, fun va aligned' low' => ?_,
    fun page' => ?_⟩
  · rw [← grown.lookup]
    exact lookup_eq_none here clear
  · rw [lookup_store grown.table.distinct aligned low here _ aligned' low', leaf_or alignedPa flags,
      grown.lookup]
  · rw [interior_store grown.table.distinct here]
    rintro (inside | listed)
    · exact grown.fresh page' inside
    · obtain ⟨taken, all, -⟩ := grown.free
      rw [all]
      exact .inr (List.mem_append_right _ listed)

section

variable (table : Table m root) (ok : m.Ok) (flags : Flags perm)
include table ok flags

/-- The loop of `mappages`: when it returns 0 it has mapped all the pages. -/
theorem mappagesLoop_mapped (aligned : Aligned a) (alignedPa : Aligned pa) (few : n < 2 ^ 52)
    (ends : last = nth a n) (mapped : mappagesLoop root last perm (n + 1) a pa m = .ok (0, m')) :
    Mapped root perm (n + 1) a pa m m' := by
  induction n generalizing a pa m with
  | zero =>
    rw [nth_zero] at ends
    unfold mappagesLoop at mapped
    split at mapped
    · cases mapped
    · cases mapped
    next pte m₁ walked =>
      obtain ⟨low, grown, ⟨missing, -⟩ | ⟨page, found, here⟩⟩ := walk_grow table ok walked
      · cases missing
      · cases found
        split at mapped
        · cases mapped
        next clear =>
          obtain ⟨unmapped, table', ok', one, grows⟩ :=
            mapPage grown ok flags aligned alignedPa low here clear
          rw [if_pos ends.symm] at mapped
          cases mapped
          exact .cons aligned low unmapped one grows (.nil table' ok')
  | succ n ih =>
    unfold mappagesLoop at mapped
    split at mapped
    · cases mapped
    · cases mapped
    next pte m₁ walked =>
      obtain ⟨low, grown, ⟨missing, -⟩ | ⟨page, found, here⟩⟩ := walk_grow table ok walked
      · cases missing
      · cases found
        split at mapped
        · cases mapped
        next clear =>
          obtain ⟨unmapped, table', ok', one, grows⟩ :=
            mapPage grown ok flags aligned alignedPa low here clear
          have more : a ≠ last := by
            intro same
            have equal := congrArg BitVec.toNat (same.trans ends)
            rw [toNat_nth] at equal
            have bound := a.isLt
            omega
          rw [if_neg more] at mapped
          rw [← nth_succ] at ends
          exact .cons aligned low unmapped one grows (ih table' ok' (aligned_add aligned)
            (aligned_add alignedPa) (by omega) ends mapped)

/-- `mappages` that returns 0 has mapped the pages of the range. -/
theorem mappages_mapped {size : Word}
    (alignedPa : Aligned pa) (mapped : mappages root va size pa perm m = .ok (0, m')) :
    Mapped root perm (size.toNat / 4096) va pa m m' := by
  unfold mappages at mapped
  split at mapped
  case isTrue => cases mapped
  case isFalse aligned =>
    split at mapped
    case isTrue => cases mapped
    case isFalse whole =>
      split at mapped
      case isTrue => cases mapped
      case isFalse positive =>
        rw [not_not] at aligned whole
        have whole : size.toNat % 4096 = 0 := aligned_iff.mp whole
        have positive : size.toNat ≠ 0 := fun zero => positive (BitVec.toNat_inj.mp zero)
        have bound := size.isLt
        have pages : (size / PGSIZE).toNat = size.toNat / 4096 := BitVec.toNat_udiv ..
        obtain ⟨n, count⟩ : ∃ n, size.toNat / 4096 = n + 1 :=
          ⟨size.toNat / 4096 - 1, by omega⟩
        rw [pages, count] at mapped
        rw [count]
        refine mappagesLoop_mapped table ok flags aligned alignedPa (by omega) ?_ mapped
        rw [← BitVec.toNat_inj, toNat_nth, BitVec.toNat_sub, BitVec.toNat_add, toNat_PGSIZE]
        omega

end

/-! ## Unmapping -/

theorem aligned_PTE2PA (pte : Word) : Aligned (PTE2PA pte) := by
  rw [aligned_iff, PTE2PA, BitVec.toNat_shiftLeft, Nat.shiftLeft_eq]
  omega

/-- Pages that `kfree` takes. -/
def Freeable (kend pa : Word) : Prop := kend ≤ pa ∧ pa < PHYSTOP

theorem kfree_eq (aligned : Aligned pa) (freeable : Freeable kend pa) :
    kfree kend pa m = .ok { (m.fill pa 0x0101010101010101).store (pa, 0) (m.free.headD 0) with
      free := pa :: m.free } := by
  unfold kfree
  rw [if_neg]
  rintro (misaligned | below | above)
  · exact misaligned aligned
  · exact absurd freeable.1 (BitVec.not_le.mpr below)
  · exact absurd freeable.2 (BitVec.not_lt.mpr above)

theorem page_kfree (freed : kfree kend pa m = .ok m') (other : page ≠ pa) :
    m'.page page = m.page page := by
  unfold kfree at freed
  split at freed
  · cases freed
  · cases freed
    simp only [Memory.store, Memory.fill]
    rw [Trie.store_table other, Function.update_of_ne other]

/-- What `uvmunmap` does for one page. -/
structure Removed (root a pa : Word) (doFree : Bool) (m m' : Memory) : Prop where
  distinct : Distinct child 2 m'.page root
  interior : ∀ page, Interior m' root page ↔ Interior m root page
  free : m'.free = if doFree then pa :: m.free else m.free
  lookup : ∀ va, Aligned va → va < MAXVA →
    lookup m' root va = if va = a then none else lookup m root va
  pages : ∀ page, ¬ Interior m root page → (doFree = true → page ≠ pa) → m'.page page = m.page page

theorem entry_of_lookup (mapped : lookup m root va = some (pa, fl)) :
    ∃ page, node child m.page root (upper va 0) = some page ∧
      valid (m.load (page, PX 0 va)) = true ∧ PTE2PA (m.load (page, PX 0 va)) = pa ∧
      PTE_FLAGS (m.load (page, PX 0 va)) = fl := by
  unfold lookup at mapped
  obtain ⟨pte, found, isLeaf⟩ := Option.bind_eq_some_iff.mp mapped
  cases here : node child m.page root (upper va 0) with
  | none =>
    rw [path, entry, show [PX 1 va, PX 2 va] = upper va 0 from rfl, here] at found
    cases found
  | some page =>
    rw [entry_of_node here, Option.some.injEq] at found
    unfold leaf at isLeaf
    split at isLeaf
    case isFalse => cases isLeaf
    case isTrue set =>
      rw [← found] at set isLeaf
      rw [Option.some.injEq, Prod.mk.injEq] at isLeaf
      exact ⟨page, rfl, set, isLeaf.1, isLeaf.2⟩

/-- A memory that is the same in the table has the same function. -/
theorem lookup_frame {m' : Memory}
    (same : ∀ page, Interior m root page → m'.page page = m.page page)
    (va : Word) : lookup m' root va = lookup m root va := by
  unfold lookup
  rw [Trie.entry_frame same (path va) le_rfl]

theorem uvmunmapPage_ok (distinct : Distinct child 2 m.page root)
    (aligned : Aligned a) (low : a < MAXVA) (mapped : lookup m root a = some (pa, fl))
    (isLeaf : fl ≠ PTE_V) (freeable : doFree = true → Freeable kend pa ∧ ¬ Interior m root pa) :
    ∃ m', uvmunmapPage kend root a doFree m = .ok m' ∧ Removed root a pa doFree m m' := by
  obtain ⟨page, here, set, frame, flags⟩ := entry_of_lookup mapped
  have none : leaf 0 = none := if_neg (by rw [valid_zero]; nofun)
  unfold uvmunmapPage
  rw [walk_find low, here]
  simp only [Option.map_some, set, flags, frame, if_neg isLeaf, Bool.true_eq_false, if_false]
  cases doFree with
  | false =>
    refine ⟨_, rfl, distinct_store distinct here 0, fun x => interior_store distinct here 0, rfl,
      fun va aligned' low' => ?_, fun x outside _ => ?_⟩
    · rw [lookup_store distinct aligned low here 0 aligned' low', none]
    · have away : x ≠ page := by
        rintro rfl
        exact outside ⟨upper a 0, le_rfl, here⟩
      exact Trie.store_table away 0
  | true =>
    obtain ⟨range, outside⟩ := freeable rfl
    have freed := kfree_eq (m := m) (frame ▸ aligned_PTE2PA _) range
    generalize eq : ({ (m.fill pa 0x0101010101010101).store (pa, 0) (m.free.headD 0) with
      free := pa :: m.free } : Memory) = m₁ at freed
    simp only [freed, if_true]
    have same : ∀ x, Interior m root x → m₁.page x = m.page x := fun x inside =>
      page_kfree freed fun equal => outside (equal ▸ inside)
    have nodes := fun other short => Trie.node_frame same other short
    have distinct₁ : Distinct child 2 m₁.page root := distinct.congr nodes
    have here₁ : node child m₁.page root (upper a 0) = some page :=
      (nodes (upper a 0) le_rfl).trans here
    refine ⟨_, rfl, distinct_store distinct₁ here₁ 0,
      fun x => (interior_store distinct₁ here₁ 0).trans (Trie.inside_congr nodes), ?_,
      fun va aligned' low' => ?_, fun x out other => ?_⟩
    · rw [← eq]
      rfl
    · rw [lookup_store distinct₁ aligned low here₁ 0 aligned' low', none, lookup_frame same]
    · have away : x ≠ page := by
        rintro rfl
        exact out ⟨upper a 0, le_rfl, here⟩
      rw [← page_kfree freed (other rfl)]
      exact Trie.store_table away 0

/-- What `uvmunmap` has done after `n` pages from `a` on, which had these page frames. -/
structure Unmapped (root a : Word) (n : Nat) (frame : Nat → Word) (doFree : Bool) (m m' : Memory) :
    Prop where
  distinct : Distinct child 2 m'.page root
  interior : ∀ page, Interior m' root page ↔ Interior m root page
  free : m'.free = (if doFree then ((List.range n).map frame).reverse else []) ++ m.free
  removed : ∀ k < n, lookup m' root (nth a k) = none
  others : ∀ va, Aligned va → va < MAXVA → (∀ k < n, va ≠ nth a k) →
    lookup m' root va = lookup m root va
  pages : ∀ page, ¬ Interior m root page → (doFree = true → ∀ k < n, page ≠ frame k) →
    m'.page page = m.page page

theorem Unmapped.nil
    (distinct : Distinct child 2 m.page root) : Unmapped root a 0 frame doFree m m :=
  ⟨distinct, fun _ => .rfl, by cases doFree <;> rfl, nofun, fun _ _ _ _ => rfl, fun _ _ _ => rfl⟩

theorem nth_succ_ne (below : a.toNat + n * 4096 ≤ 2 ^ 38) (bound : k + 1 < n) :
    nth a (k + 1) ≠ a := by
  intro same
  have equal := congrArg BitVec.toNat same
  rw [toNat_nth] at equal
  omega

theorem nth_lt (below : a.toNat + n * 4096 ≤ 2 ^ 38) (bound : k < n) : nth a k < MAXVA := by
  rw [lt_MAXVA, toNat_nth]
  omega

theorem Unmapped.cons (aligned : Aligned a) (below : a.toNat + (n + 1) * 4096 ≤ 2 ^ 38)
    (one : Removed root a (frame 0) doFree m m₁)
    (rest : Unmapped root (a + PGSIZE) n (fun k => frame (k + 1)) doFree m₁ m') :
    Unmapped root a (n + 1) frame doFree m m' := by
  have low : a < MAXVA := by
    have first := nth_lt below (Nat.succ_pos n)
    rwa [nth_zero] at first
  refine ⟨rest.distinct, fun page => (rest.interior page).trans (one.interior page), ?_, ?_, ?_, ?_⟩
  · rw [rest.free, one.free]
    cases doFree with
    | false => rfl
    | true =>
      simp only [if_true, List.range_succ_eq_map, List.map_cons, List.map_map, List.reverse_cons,
        List.append_assoc, List.singleton_append]
      rfl
  · intro k bound
    cases k with
    | zero =>
      rw [nth_zero, rest.others a aligned low, one.lookup a aligned low, if_pos rfl]
      intro k bound same
      rw [nth_succ] at same
      exact nth_succ_ne below (by omega) same.symm
    | succ k =>
      rw [← nth_succ]
      exact rest.removed k (by omega)
  · intro va aligned' low' away
    have first := away 0 (by omega)
    rw [nth_zero] at first
    rw [rest.others va aligned' low', one.lookup va aligned' low', if_neg first]
    intro k bound
    rw [nth_succ]
    exact away (k + 1) (by omega)
  · intro page outside other
    rw [rest.pages page fun inside => outside ((one.interior page).mp inside)]
    · exact one.pages page outside fun frees => other frees 0 (by omega)
    · exact fun frees k bound => other frees (k + 1) (by omega)

theorem uvmunmapLoop_ok {flag : Nat → Word}
    (distinct : Distinct child 2 m.page root) (aligned : Aligned a)
    (below : a.toNat + n * 4096 ≤ 2 ^ 38) (ends : last.toNat = a.toNat + n * 4096)
    (mapped : ∀ k < n, lookup m root (nth a k) = some (frame k, flag k) ∧ flag k ≠ PTE_V)
    (freeable : doFree = true → ∀ k < n, Freeable kend (frame k) ∧ ¬ Interior m root (frame k)) :
    ∃ m', uvmunmapLoop kend root last doFree n a m = .ok m' ∧
      Unmapped root a n frame doFree m m' := by
  induction n generalizing a m frame flag with
  | zero => exact ⟨m, rfl, .nil distinct⟩
  | succ n ih =>
    have low : a < MAXVA := by
      have first := nth_lt below (Nat.succ_pos n)
      rwa [nth_zero] at first
    have here := mapped 0 (by omega)
    rw [nth_zero] at here
    obtain ⟨m₁, done, one⟩ := uvmunmapPage_ok distinct aligned low here.1 here.2
      fun frees => freeable frees 0 (by omega)
    have next : (a + PGSIZE).toNat = a.toNat + 4096 := by
      rw [toNat_add_PGSIZE]
      omega
    have mapped' : ∀ k < n, lookup m₁ root (nth (a + PGSIZE) k) =
        some (frame (k + 1), flag (k + 1)) ∧
        flag (k + 1) ≠ PTE_V := by
      intro k bound
      rw [nth_succ, one.lookup _ (aligned_nth aligned (k + 1)) (nth_lt below (by omega)),
        if_neg (nth_succ_ne below (by omega))]
      exact mapped (k + 1) (by omega)
    have freeable' : doFree = true → ∀ k < n, Freeable kend (frame (k + 1)) ∧
        ¬ Interior m₁ root (frame (k + 1)) := by
      intro frees k bound
      obtain ⟨range, outside⟩ := freeable frees (k + 1) (by omega)
      exact ⟨range, fun inside => outside ((one.interior _).mp inside)⟩
    obtain ⟨m', loop, rest⟩ := ih one.distinct (aligned_add aligned) (by omega) (by omega) mapped'
      freeable'
    refine ⟨m', ?_, .cons aligned below one rest⟩
    have more : a < last := by
      rw [BitVec.lt_def]
      omega
    simp only [uvmunmapLoop, if_pos more, done]
    exact loop

theorem uvmunmap_ok (kend npages : Word) (frame flag : Nat → Word) (doFree : Bool)
    (distinct : Distinct child 2 m.page root) (aligned : Aligned va)
    (below : va.toNat + npages.toNat * 4096 ≤ 2 ^ 38)
    (mapped : ∀ k < npages.toNat,
      lookup m root (nth va k) = some (frame k, flag k) ∧ flag k ≠ PTE_V)
    (freeable : doFree = true → ∀ k < npages.toNat,
      Freeable kend (frame k) ∧ ¬ Interior m root (frame k)) :
    ∃ m', uvmunmap kend root va npages doFree m = .ok m' ∧
      Unmapped root va npages.toNat frame doFree m m' := by
  have ends : (va + npages * PGSIZE).toNat = va.toNat + npages.toNat * 4096 := by
    rw [BitVec.toNat_add, BitVec.toNat_mul, toNat_PGSIZE]
    omega
  unfold uvmunmap
  rw [if_neg (show ¬ va % PGSIZE ≠ 0 from not_not.mpr aligned)]
  exact uvmunmapLoop_ok distinct aligned below ends mapped freeable

/-! ## Tables as maps -/

/-- A table behaves as the partial function `lookup`. -/
structure MapLike (m : Memory) (root : Word) : Prop where
  -- without allocation `walk` finds the entry of the function and changes nothing
  find : ∀ va, va < MAXVA → ∃ pte, walk root va false m = .ok (pte, m) ∧
    (pte.map m.load).bind leaf = lookup m root va
  -- with allocation it does not change the function, and finds the entry if it returns one
  alloc : ∀ va, va < MAXVA → ∃ pte m', walk root va true m = .ok (pte, m') ∧
    Table m' root ∧ m'.Ok ∧ (∀ va', lookup m' root va' = lookup m root va') ∧
    ∀ p, pte = some p → leaf (m'.load p) = lookup m root va
  -- `mappages` that returns 0 extends the function by the pages of the range
  map : ∀ va size pa perm m', Aligned pa → Flags perm →
    mappages root va size pa perm m = .ok (0, m') → Table m' root ∧ m'.Ok ∧
    (∀ k < size.toNat / 4096, lookup m' root (nth va k) = some (nth pa k, perm ||| PTE_V)) ∧
    ∀ va', Aligned va' → va' < MAXVA → (∀ k < size.toNat / 4096, va' ≠ nth va k) →
      lookup m' root va' = lookup m root va'
  -- `uvmunmap` removes the pages of a range that is mapped
  unmap : ∀ kend va npages (doFree : Bool) (frame flag : Nat → Word), Aligned va →
    va.toNat + npages.toNat * 4096 ≤ 2 ^ 38 →
    (∀ k < npages.toNat, lookup m root (nth va k) = some (frame k, flag k) ∧ flag k ≠ PTE_V) →
    (doFree = true → ∀ k < npages.toNat, Freeable kend (frame k) ∧ ¬ Interior m root (frame k)) →
    ∃ m', uvmunmap kend root va npages doFree m = .ok m' ∧
      (∀ k < npages.toNat, lookup m' root (nth va k) = none) ∧
      ∀ va', Aligned va' → va' < MAXVA → (∀ k < npages.toNat, va' ≠ nth va k) →
        lookup m' root va' = lookup m root va'
  -- no two pages have the same entry
  apart : ∀ va va' pte, Aligned va → Aligned va' → va < MAXVA → va' < MAXVA →
    walk root va false m = .ok (some pte, m) → walk root va' false m = .ok (some pte, m) → va = va'

theorem lookup_of_node (found : Option Word) (here : node child m.page root (upper va 0) = found) :
    lookup m root va = ((found.map fun page => (page, PX 0 va)).map m.load).bind leaf := by
  rw [lookup, path, entry, show [PX 1 va, PX 2 va] = upper va 0 from rfl, here, Option.map_map]
  rfl

theorem upper_inj {va' : Word} (same : upper va 0 = upper va' 0) (index : PX 0 va = PX 0 va') :
    path va = path va' := by
  show PX 0 va :: upper va 0 = PX 0 va' :: upper va' 0
  rw [same, index]

/-- Every well-formed page table behaves as a map. -/
theorem page_tables_are_maps (table : Table m root) (ok : m.Ok) : MapLike m root where
  find va low := ⟨_, walk_find low, (lookup_of_node _ rfl).symm⟩
  alloc va low := by
    cases walked : walk root va true m with
    | error why =>
      unfold walk at walked
      rw [if_neg (BitVec.not_le.mpr low)] at walked
      cases walked
    | ok result =>
      obtain ⟨pte, m'⟩ := result
      obtain ⟨-, grown, found⟩ := walk_grow table ok walked
      refine ⟨pte, m', rfl, grown.table, grown.ok ok, grown.lookup, ?_⟩
      rintro p rfl
      obtain ⟨missing, -⟩ | ⟨page, here, there⟩ := found
      · cases missing
      · cases here
        rw [← grown.lookup va, lookup, entry_of_node there, Option.bind_some]
  map va size pa perm m' alignedPa flags mapped := by
    have after := mappages_mapped table ok flags alignedPa mapped
    exact ⟨after.table, after.ok, after.after, after.others⟩
  unmap kend va npages doFree frame flag aligned below mapped freeable := by
    obtain ⟨m', done, after⟩ :=
      uvmunmap_ok kend npages frame flag doFree table.distinct aligned below mapped freeable
    exact ⟨m', done, after.removed, after.others⟩
  apart va va' pte aligned aligned' low low' first second := by
    rw [walk_find low, Except.ok.injEq, Prod.mk.injEq] at first
    rw [walk_find low', Except.ok.injEq, Prod.mk.injEq] at second
    obtain ⟨page, here, rfl⟩ := Option.map_eq_some_iff.mp first.1
    obtain ⟨page', here', same⟩ := Option.map_eq_some_iff.mp second.1
    rw [Prod.mk.injEq] at same
    rw [same.1] at here'
    have paths := table.distinct _ _ page le_rfl le_rfl here here'
    exact path_inj aligned aligned' low low' (upper_inj paths same.2.symm)

/-! An empty table, and a table with two pages. -/

theorem node_blank (zero : ∀ i, m.page root i = 0) {p : List (Fin 512)}
    (here : node child m.page root p = some page) : p = [] ∧ page = root := by
  induction p generalizing page with
  | nil => exact ⟨rfl, (Option.some.inj here).symm⟩
  | cons i p ih =>
    obtain ⟨table, above, linked⟩ := Option.bind_eq_some_iff.mp here
    rw [(ih above).2, zero i, child_of_not_valid (by rw [valid_zero]; nofun)] at linked
    cases linked

theorem interior_blank (zero : ∀ i, m.page root i = 0) (inside : Interior m root page) :
    page = root := by
  obtain ⟨p, -, here⟩ := inside
  exact (node_blank zero here).2

theorem table_blank (zero : ∀ i, m.page root i = 0) (taken : root ∉ m.free) : Table m root := by
  refine ⟨fun p q page _ _ atP atQ => ?_, fun page inside => ?_⟩
  · rw [(node_blank zero atP).1, (node_blank zero atQ).1]
  · rwa [interior_blank zero inside]

theorem lookup_blank (zero : ∀ i, m.page root i = 0) (va : Word) : lookup m root va = none := by
  cases found : lookup m root va with
  | none => rfl
  | some entry =>
    obtain ⟨pa, fl⟩ := entry
    obtain ⟨page, here, -⟩ := entry_of_lookup found
    cases (node_blank zero here).1

/-- A memory with five free pages, and with sevens in another one. -/
def sevens : Memory :=
  ⟨fun page _ => if page = 0x80003000 then 7 else 0,
    (List.range 5).map fun k => nth 0x80004000 k⟩

theorem ok_sevens : sevens.Ok := by
  refine ⟨by decide, fun page listed => ?_⟩
  obtain ⟨k, -, rfl⟩ := List.mem_map.mp listed
  exact aligned_nth (by decide) k

/-- The pages `0x80002000` and `0x80003000` are the user memory of the table at `0x80001000`. -/
def paged : Memory :=
  match mappages 0x80001000 0 8192 0x80002000 (PTE_R ||| PTE_W ||| PTE_U) sevens with
  | .ok (_, m) => m
  | .error _ => sevens

theorem mapped_paged :
    Mapped 0x80001000 (PTE_R ||| PTE_W ||| PTE_U) 2 0 0x80002000 sevens paged := by
  have returned : (mappages 0x80001000 0 8192 0x80002000 (PTE_R ||| PTE_W ||| PTE_U)
    sevens).toOption.map Prod.fst = some 0 := by decide +kernel
  unfold paged
  cases ran : mappages 0x80001000 0 8192 0x80002000 (PTE_R ||| PTE_W ||| PTE_U) sevens with
  | error =>
    rw [ran] at returned
    cases returned
  | ok result =>
    obtain ⟨r, m⟩ := result
    rw [ran] at returned
    obtain rfl : r = 0 := Option.some.inj returned
    exact mappages_mapped (table_blank (fun _ => rfl) (by decide)) ok_sevens (by decide) (by decide)
      ran

/-- The table has two pages, and a third one, far from them, can be mapped. -/
theorem page_tables_are_maps_paged : MapLike paged 0x80001000 ∧
    lookup paged 0x80001000 4096 = some (0x80003000, PTE_R ||| PTE_W ||| PTE_U ||| PTE_V) ∧
    (mappages 0x80001000 0x200000 4096 0x80100000 PTE_R paged).toOption.map Prod.fst =
      some 0 := by
  have second := mapped_paged.after 1 (by decide)
  rw [show nth 0 1 = 4096 by decide, show nth 0x80002000 1 = 0x80003000 by decide] at second
  exact ⟨page_tables_are_maps mapped_paged.table mapped_paged.ok, second, by decide +kernel⟩

end Xv6.Vm
