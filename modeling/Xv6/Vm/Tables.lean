import Xv6.Vm.Basic

/-!
# Page tables as trees

A page table is a tree of depth 2 in physical memory, and its function takes a page address
to what the entry at its three indices says (`lookup`). `walk` without allocation finds that
entry (`walk_find`). With allocation it links free pages into the tree and changes the
function nowhere (`Grown.lookup`).
-/

namespace Xv6.Vm

open Trie (node entry Distinct Inside)

/-! ## Entries -/

/-- A page address. -/
def Aligned (a : Word) : Prop := a % PGSIZE = 0

instance (a : Word) : Decidable (Aligned a) := inferInstanceAs (Decidable (_ = _))

/-- A set of flags fits below the page number of an entry. -/
def Flags (perm : Word) : Prop := perm < 1024

instance (perm : Word) : Decidable (Flags perm) := inferInstanceAs (Decidable (_ < _))

variable {a pa flags : Word} {i : Nat}

theorem aligned_iff : Aligned a ↔ a.toNat % 4096 = 0 := by
  unfold Aligned PGSIZE
  rw [← BitVec.toNat_inj, BitVec.toNat_umod]
  rfl

theorem getLsbD_of_aligned (aligned : Aligned a) (low : i < 12) : a.getLsbD i = false := by
  have zero : a.toNat % 2 ^ 12 = 0 := aligned_iff.mp aligned
  have bit : (a.toNat % 2 ^ 12).testBit i = a.toNat.testBit i := by
    rw [Nat.testBit_mod_two_pow, decide_eq_true low, Bool.true_and]
  rw [BitVec.getLsbD, ← bit, zero, Nat.zero_testBit]

theorem getLsbD_of_flags {perm : Word} (flags : Flags perm) (high : 10 ≤ i) :
    perm.getLsbD i = false := by
  have small : perm.toNat < 2 ^ 10 := flags
  rw [BitVec.getLsbD]
  exact Nat.testBit_lt_two_pow (small.trans_le (Nat.pow_le_pow_right (by decide) high))

theorem flags_or {x y : Word} (first : Flags x) (second : Flags y) : Flags (x ||| y) := by
  have small : x.toNat < 2 ^ 10 := first
  have small' : y.toNat < 2 ^ 10 := second
  show (x ||| y).toNat < 2 ^ 10
  rw [BitVec.toNat_or]
  exact Nat.or_lt_two_pow small small'

theorem flags_V : Flags PTE_V := by decide

theorem PTE2PA_or (aligned : Aligned pa) (small : Flags flags) :
    PTE2PA (PA2PTE pa ||| flags) = pa := by
  apply BitVec.eq_of_getLsbD_eq
  intro i bound
  simp only [PTE2PA, PA2PTE, BitVec.getLsbD_shiftLeft, BitVec.getLsbD_ushiftRight,
    BitVec.getLsbD_or]
  by_cases low : i < 12
  · simp [low, getLsbD_of_aligned aligned low]
  · rw [getLsbD_of_flags small (show 10 ≤ 10 + (i - 12) by omega)]
    have index : 12 + (i - 12) = i := by omega
    have fits : 10 + (i - 12) < 64 := by omega
    have high : ¬ 10 + (i - 12) < 10 := by omega
    simp [low, bound, fits, high, index]

theorem PTE_FLAGS_or (small : Flags flags) : PTE_FLAGS (PA2PTE pa ||| flags) = flags := by
  apply BitVec.eq_of_getLsbD_eq
  intro i bound
  have mask : (0x3FF : Word).getLsbD i = decide (i < 10) := by
    have : (0x3FF : Word).toNat = 2 ^ 10 - 1 := rfl
    rw [BitVec.getLsbD, this, Nat.testBit_two_pow_sub_one]
  simp only [PTE_FLAGS, PA2PTE, BitVec.getLsbD_and, BitVec.getLsbD_or,
    BitVec.getLsbD_shiftLeft, mask]
  by_cases low : i < 10
  · simp [low]
  · rw [getLsbD_of_flags small (by omega)]
    simp [low]

variable {pte : Word} {level : Nat} {va' : Word} {found : Option Pte}

theorem valid_iff : valid pte = true ↔ pte.getLsbD 0 = true := by
  unfold valid PTE_V
  rw [decide_eq_true_iff]
  constructor
  · intro set
    by_contra clear
    refine set ?_
    apply BitVec.eq_of_getLsbD_eq
    intro i _
    cases i with
    | zero => simpa using clear
    | succ i => simp
  · intro set zero
    have bit := congrArg (fun x : Word => x.getLsbD 0) zero
    simp only [BitVec.getLsbD_and, set, Bool.true_and] at bit
    exact absurd bit (by decide)

theorem valid_or (x : Word) : valid (x ||| PTE_V) = true := by
  rw [valid_iff, BitVec.getLsbD_or]
  simp [PTE_V]

theorem valid_zero : valid 0 = false := by decide

/-! ## Indices -/

theorem PX_val (level : Nat) (va : Word) :
    (PX level va).val = va.toNat / 2 ^ (12 + 9 * level) % 512 := by
  unfold PX
  rw [Fin.val_ofNat, BitVec.toNat_ushiftRight, Nat.shiftRight_eq_div_pow]

/-- The indices of an address, the last one first. -/
def path (va : Word) : List (Fin 512) := [PX 0 va, PX 1 va, PX 2 va]

/-- The indices of an address above a level. -/
def upper (va : Word) : Nat → List (Fin 512)
  | 0 => [PX 1 va, PX 2 va]
  | 1 => [PX 2 va]
  | _ => []

theorem lt_MAXVA {va : Word} : va < MAXVA ↔ va.toNat < 2 ^ 38 := Iff.rfl

/-- Distinct page addresses below `MAXVA` have distinct indices. -/
theorem path_inj {va : Word} (aligned : Aligned va) (aligned' : Aligned va') (low : va < MAXVA)
    (low' : va' < MAXVA) (same : path va = path va') : va = va' := by
  simp only [path, List.cons.injEq, and_true, Fin.ext_iff, PX_val] at same
  rw [aligned_iff] at aligned aligned'
  rw [lt_MAXVA] at low low'
  rw [← BitVec.toNat_inj]
  simp only [Nat.reduceMul, Nat.reduceAdd, Nat.reducePow] at same low low'
  omega

theorem upper_succ (va : Word) (low : level < 2) :
    upper va level = PX (level + 1) va :: upper va (level + 1) := by
  match level, low with
  | 0, _ => rfl
  | 1, _ => rfl

theorem length_upper (va : Word) (low : level ≤ 2) : (upper va level).length = 2 - level := by
  match level, low with
  | 0, _ => rfl
  | 1, _ => rfl
  | 2, _ => rfl

/-! ## Tables -/

/-- The table that an entry leads to. -/
def child (pte : Word) : Option Word := if valid pte then some (PTE2PA pte) else none

/-- What an entry at the lowest level maps a page to. -/
def leaf (pte : Word) : Option (Word × Word) :=
  if valid pte then some (PTE2PA pte, PTE_FLAGS pte) else none

/-- The partial function of a table: the physical address and the flags of a page. -/
def lookup (m : Memory) (root va : Word) : Option (Word × Word) :=
  (entry child m.page root (path va)).bind leaf

/-- The address is that of a page of the table, at any level. -/
abbrev Interior (m : Memory) (root page : Word) : Prop := Inside child 2 m.page root page

/-- The free pages are page addresses, each of them once. -/
structure Memory.Ok (m : Memory) : Prop where
  nodup : m.free.Nodup
  aligned : ∀ page ∈ m.free, Aligned page

/-- A table whose pages are all different and not free. -/
structure Table (m : Memory) (root : Word) : Prop where
  distinct : Distinct child 2 m.page root
  taken : ∀ page, Interior m root page → page ∉ m.free

variable {m m' m'' : Memory} {root va : Word} {pagetable page : Word}

/-- What `walk` can do to a table: it has new interior pages, taken from the free ones, and
their entries are 0. -/
structure Grown (root : Word) (m m' : Memory) : Prop where
  table : Table m' root
  free : ∃ taken, m.free = taken ++ m'.free ∧ ∀ page ∈ taken, Interior m' root page
  entries : ∀ r, r.length = 3 → entry child m'.page root r = entry child m.page root r ∨
    (entry child m.page root r = none ∧ entry child m'.page root r = some 0)
  interior : ∀ page, Interior m root page → Interior m' root page
  fresh : ∀ page, Interior m' root page → Interior m root page ∨ page ∈ m.free
  others : ∀ page, ¬ Interior m' root page → m'.page page = m.page page

theorem Grown.refl (table : Table m root) : Grown root m m where
  table := table
  free := ⟨[], rfl, nofun⟩
  entries _ _ := .inl rfl
  interior _ inside := inside
  fresh _ inside := .inl inside
  others _ _ := rfl

theorem Grown.trans (first : Grown root m m') (second : Grown root m' m'') : Grown root m m'' where
  table := second.table
  free := by
    obtain ⟨taken, split, inside⟩ := first.free
    obtain ⟨taken', split', inside'⟩ := second.free
    refine ⟨taken ++ taken', by rw [split, split', List.append_assoc], fun page mem => ?_⟩
    rcases List.mem_append.mp mem with early | late
    · exact second.interior page (inside page early)
    · exact inside' page late
  entries r long := by
    rcases first.entries r long with same | ⟨before, zero⟩
    · rw [← same]
      exact second.entries r long
    · rcases second.entries r long with same | ⟨none, -⟩
      · exact .inr ⟨before, same.trans zero⟩
      · rw [zero] at none
        cases none
  interior page inside := second.interior page (first.interior page inside)
  fresh page inside := by
    rcases second.fresh page inside with early | late
    · exact first.fresh page early
    · obtain ⟨taken, split, -⟩ := first.free
      exact .inr (by rw [split]; exact List.mem_append_right _ late)
  others page outside := by
    rw [second.others page outside]
    exact first.others page fun inside => outside (second.interior page inside)

theorem Grown.ok (grown : Grown root m m') (ok : m.Ok) : m'.Ok := by
  obtain ⟨taken, split, -⟩ := grown.free
  have nodup := ok.nodup
  have aligned := ok.aligned
  rw [split] at nodup aligned
  exact ⟨(List.nodup_append.mp nodup).2.1,
    fun page mem => aligned page (List.mem_append_right _ mem)⟩

theorem Grown.lookup (grown : Grown root m m') (va : Word) :
    lookup m' root va = lookup m root va := by
  unfold Vm.lookup
  rcases grown.entries (path va) rfl with same | ⟨before, after⟩
  · rw [same]
  · rw [before, after, Option.bind_none, Option.bind_some, leaf, valid_zero]
    rfl

theorem child_of_valid (set : valid pte = true) : child pte = some (PTE2PA pte) :=
  if_pos set

theorem child_of_not_valid (clear : ¬ valid pte = true) : child pte = none :=
  if_neg clear

theorem Table.grow (table : Table m root) (ok : m.Ok) {p : List (Fin 512)} {new : Word}
    {rest : List Word} {i : Fin 512} (short : p.length < 2)
    (here : node child m.page root p = some pagetable) (clear : ¬ valid (m.page pagetable i) = true)
    (free : m.free = new :: rest) {m' : Memory}
    (page : m'.page = Trie.grow m.page pagetable i (PA2PTE new ||| PTE_V) new 0)
    (after : m'.free = rest) : Grown root m m' ∧ node child m'.page root (i :: p) = some new := by
  have listed : new ∈ m.free := by rw [free]; exact List.mem_cons_self
  have fresh : ¬ Interior m root new := fun inside => table.taken new inside listed
  have linked : child (PA2PTE new ||| PTE_V) = some new := by
    rw [child_of_valid (valid_or _), PTE2PA_or (ok.aligned new listed) flags_V]
  have unused := child_of_not_valid clear
  have empty : child 0 = none := child_of_not_valid (by rw [valid_zero]; nofun)
  have distinct := table.distinct
  have inside : ∀ found, Interior m' root found ↔ found = new ∨ Interior m root found := by
    intro found
    unfold Interior
    rw [page]
    exact Trie.inside_grow distinct here short unused fresh linked empty
  have nodup := ok.nodup
  rw [free] at nodup
  refine ⟨⟨⟨?_, ?_⟩, ⟨[new], by rw [free, after]; rfl, ?_⟩, ?_, ?_, ?_, ?_⟩, ?_⟩
  · rw [page]
    exact Trie.distinct_grow distinct here short unused fresh linked empty
  · intro found isInside mem
    rw [after] at mem
    rcases (inside found).mp isInside with rfl | old
    · exact (List.nodup_cons.mp nodup).1 mem
    · exact table.taken found old (by rw [free]; exact List.mem_cons_of_mem _ mem)
  · intro found mem
    rw [List.mem_singleton] at mem
    exact (inside found).mpr (.inl mem)
  · intro r long
    rw [page, Trie.entry_grow distinct here short unused fresh linked empty r long]
    split
    next atNew =>
      refine .inr ⟨?_, rfl⟩
      cases r with
      | nil => cases long
      | cons j r =>
        rw [List.tail_cons] at atNew
        rw [Trie.entry, atNew, Trie.node_cons here, unused]
        rfl
    · exact .inl rfl
  · exact fun found old => (inside found).mpr (.inr old)
  · intro found isInside
    rcases (inside found).mp isInside with rfl | old
    · exact .inr listed
    · exact .inl old
  · intro found outside
    rw [page]
    refine Trie.grow_old (fun equal => outside ((inside found).mpr (.inl equal))) fun equal => ?_
    refine outside ((inside found).mpr (.inr ⟨p, short.le, ?_⟩))
    rw [equal]
    exact here
  · rw [page, Trie.node_grow distinct here short unused fresh linked empty (i :: p) short,
      if_pos rfl]

/-! ## `walk` -/

theorem node_upper_none (low : level ≤ 2)
    (missing : node child m.page root (upper va level) = none) :
    node child m.page root (upper va 0) = none := by
  match level, low with
  | 0, _ => exact missing
  | 1, _ =>
    rw [upper_succ va (by decide), Trie.node, missing]
    rfl
  | 2, _ => cases missing

theorem walkLoop_find (low : level ≤ 2)
    (here : node child m.page root (upper va level) = some pagetable) :
    walkLoop va false level pagetable m =
      ((node child m.page root (upper va 0)).map fun table => (table, PX 0 va), m) := by
  induction level generalizing pagetable with
  | zero =>
    rw [here]
    rfl
  | succ level ih =>
    have next : node child m.page root (upper va level) =
        child (m.page pagetable (PX (level + 1) va)) := by
      rw [upper_succ va (by omega)]
      exact Trie.node_cons here
    simp only [walkLoop, Memory.load]
    split
    next set => exact ih (by omega) (next.trans (child_of_valid set))
    next clear =>
      rw [if_pos trivial, node_upper_none (by omega) (next.trans (child_of_not_valid clear))]
      rfl

theorem linkedPage_page (m : Memory) (rest : List Word) (new junk link : Word) (pte : Pte) :
    (((({ m with free := rest } : Memory).fill new junk).fill new 0).store pte link).page =
      Trie.grow m.page pte.1 pte.2 link new 0 := by
  simp only [Memory.store, Memory.fill, Function.update_idem]
  rfl

/-- `walk` that allocates grows the table and finds the entry, or has used up the free
pages. -/
theorem walkLoop_grow (low : level ≤ 2)
    (table : Table m root) (ok : m.Ok)
    (here : node child m.page root (upper va level) = some pagetable)
    (walked : walkLoop va true level pagetable m = (found, m')) :
    Grown root m m' ∧ (found = none ∧ m'.free = [] ∨ ∃ page, found = some (page, PX 0 va) ∧
      node child m'.page root (upper va 0) = some page) := by
  induction level generalizing pagetable m with
  | zero =>
    cases walked
    exact ⟨.refl table, .inr ⟨pagetable, rfl, here⟩⟩
  | succ level ih =>
    unfold walkLoop at walked
    by_cases set : valid (m.load (pagetable, PX (level + 1) va)) = true
    · rw [if_pos set] at walked
      refine ih (by omega) table ok ?_ walked
      rw [upper_succ va (by omega)]
      exact (Trie.node_cons here).trans (child_of_valid set)
    · rw [if_neg set, if_neg (Bool.noConfusion : ¬ true = false)] at walked
      unfold kalloc at walked
      cases free : m.free with
      | nil =>
        rw [free] at walked
        cases walked
        exact ⟨.refl table, .inl ⟨rfl, free⟩⟩
      | cons new rest =>
        rw [free] at walked
        have short : (upper va (level + 1)).length < 2 := by
          rw [length_upper va (by omega)]
          omega
        have page := linkedPage_page m rest new 0x0505050505050505 (PA2PTE new ||| PTE_V)
          (pagetable, PX (level + 1) va)
        obtain ⟨grown, linked⟩ := table.grow ok short here set free page rfl
        rw [← upper_succ va (by omega)] at linked
        obtain ⟨later, found⟩ := ih (by omega) grown.table (grown.ok ok) linked walked
        exact ⟨grown.trans later, found⟩

/-- `walk` that does not allocate finds the entry of the address, if there is one. -/
theorem walk_find (low : va < MAXVA) : walk root va false m =
      .ok ((node child m.page root (upper va 0)).map fun page => (page, PX 0 va), m) := by
  unfold walk
  rw [if_neg (BitVec.not_le.mpr low), walkLoop_find le_rfl rfl]

theorem walk_grow (table : Table m root) (ok : m.Ok)
    (walked : walk root va true m = .ok (found, m')) :
    va < MAXVA ∧ Grown root m m' ∧ (found = none ∧ m'.free = [] ∨
      ∃ page, found = some (page, PX 0 va) ∧ node child m'.page root (upper va 0) = some page) := by
  unfold walk at walked
  split at walked
  · cases walked
  next low =>
    exact ⟨BitVec.not_le.mp low, walkLoop_grow le_rfl table ok rfl (Except.ok.inj walked)⟩

theorem entry_of_node (here : node child m.page root (upper va 0) = some page) :
    entry child m.page root (path va) = some (m.load (page, PX 0 va)) :=
  Trie.entry_cons here

/-! ## Stores into the lowest level -/

section

variable (distinct : Distinct child 2 m.page root)
  (here : node child m.page root (upper va 0) = some page) (value : Word)
include distinct here value

theorem distinct_store : Distinct child 2 (m.store (page, PX 0 va) value).page root :=
  distinct.congr fun other short =>
    Trie.node_store (i := PX 0 va) distinct rfl here value other short

theorem interior_store {found : Word} :
    Interior (m.store (page, PX 0 va) value) root found ↔ Interior m root found :=
  Trie.inside_congr fun other short =>
    Trie.node_store (i := PX 0 va) distinct rfl here value other short

end

theorem Table.store (table : Table m root)
    (here : node child m.page root (upper va 0) = some page) (value : Word) :
    Table (m.store (page, PX 0 va) value) root := by
  refine ⟨distinct_store table.distinct here value, fun found inside => ?_⟩
  exact table.taken found ((interior_store table.distinct here value).mp inside)

/-- A store into the entry of an address changes the function there and nowhere else. -/
theorem lookup_store (distinct : Distinct child 2 m.page root) (aligned : Aligned va)
    (low : va < MAXVA)
    (here : node child m.page root (upper va 0) = some page) (value : Word)
    (aligned' : Aligned va') (low' : va' < MAXVA) :
    lookup (m.store (page, PX 0 va) value) root va' =
      if va' = va then leaf value else lookup m root va' := by
  unfold lookup
  have stored := Trie.entry_store (i := PX 0 va) distinct rfl here value (path va') rfl
  rw [show PX 0 va :: upper va 0 = path va from rfl] at stored
  rw [show (m.store (page, PX 0 va) value).page = Trie.store m.page page (PX 0 va) value from rfl,
    stored]
  by_cases same : va' = va
  · subst same
    rw [if_pos rfl, if_pos rfl, Option.bind_some]
  · rw [if_neg fun equal => same (path_inj aligned' aligned low' low equal), if_neg same]

end Xv6.Vm
