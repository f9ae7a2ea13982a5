import Mathlib.Algebra.Order.Ring.Nat
import Xv6.Lib.Trie

/-!
# Page tables and the page allocator

`walk`, `mappages`, `uvmunmap`, `uvmalloc`, `uvmdealloc` and `uvmcopy` of `vm.c`, on
`kalloc` and `kfree` of `kalloc.c`. Physical memory is a page of 512 words for each page
address; the pages that are not in use are in the list of the allocator. A page-table entry
is a word of a page, and a pointer to it is the address of the page with an index.

The loops over page-aligned addresses have the number of pages as their bound; the calls of
`panic` are errors. `end`, the first address after the kernel, is a parameter.
-/

namespace Xv6.Vm

/-- `uint64` -/
abbrev Word := BitVec 64

def PGSIZE : Word := 4096

def PTE_V : Word := 1

def PTE_R : Word := 2

def PTE_W : Word := 4

def PTE_U : Word := 16

def MAXVA : Word := 1 <<< (9 + 9 + 9 + 12 - 1)

def KERNBASE : Word := 0x80000000

def PHYSTOP : Word := KERNBASE + 128 * 1024 * 1024

def PA2PTE (pa : Word) : Word := (pa >>> 12) <<< 10

def PTE2PA (pte : Word) : Word := (pte >>> 10) <<< 12

def PTE_FLAGS (pte : Word) : Word := pte &&& 0x3FF

def PGROUNDUP (sz : Word) : Word := (sz + PGSIZE - 1) &&& ~~~(PGSIZE - 1)

/-- `PX(level, va)` -/
def PX (level : Nat) (va : Word) : Fin 512 :=
  Fin.ofNat 512 (va >>> (12 + 9 * level)).toNat

/-- The valid bit of an entry. -/
def valid (pte : Word) : Bool := pte &&& PTE_V ≠ 0

inductive Panic where
  | kfree
  | walk
  | mappagesVa
  | mappagesSize
  | mappagesZero
  | mappagesRemap
  | uvmunmapAligned
  | uvmunmapWalk
  | uvmunmapNotMapped
  | uvmunmapNotLeaf
  | uvmcopyPte
  | uvmcopyPresent
  deriving DecidableEq, Repr

abbrev Page := Fin 512 → Word

structure Memory where
  page : Word → Page
  free : List Word

/-- A pointer to an entry: a page and an index. -/
abbrev Pte := Word × Fin 512

/-- `memset(pa, c, PGSIZE)`, with the byte `c` eight times in a word. -/
def Memory.fill (m : Memory) (pa word : Word) : Memory :=
  { m with page := Function.update m.page pa fun _ => word }

def Memory.load (m : Memory) (pte : Pte) : Word := m.page pte.1 pte.2

def Memory.store (m : Memory) (pte : Pte) (value : Word) : Memory :=
  { m with page := Trie.store m.page pte.1 pte.2 value }

def kalloc (m : Memory) : Option Word × Memory :=
  match m.free with
  | [] => (none, m)
  | r :: rest => (some r, { m with free := rest }.fill r 0x0505050505050505)

/-- The first word of a free page has the address of the next one. -/
def kfree (kend : Word) (pa : Word) (m : Memory) : Except Panic Memory :=
  if pa % PGSIZE ≠ 0 ∨ pa < kend ∨ pa ≥ PHYSTOP then .error .kfree
  else
    let linked := (m.fill pa 0x0101010101010101).store (pa, 0) (m.free.headD 0)
    .ok { linked with free := pa :: m.free }

/-! ## `walk` -/

/-- The loop of `walk`, from a level on. -/
def walkLoop (va : Word) (alloc : Bool) : Nat → Word → Memory → Option Pte × Memory
  | 0, pagetable, m => (some (pagetable, PX 0 va), m)
  | level + 1, pagetable, m =>
    let pte : Pte := (pagetable, PX (level + 1) va)
    if valid (m.load pte) then walkLoop va alloc level (PTE2PA (m.load pte)) m
    else if alloc = false then (none, m)
    else
      match kalloc m with
      | (none, m) => (none, m)
      | (some new, m) =>
        walkLoop va alloc level new ((m.fill new 0).store pte (PA2PTE new ||| PTE_V))

def walk (pagetable va : Word) (alloc : Bool) (m : Memory) : Except Panic (Option Pte × Memory) :=
  if va ≥ MAXVA then .error .walk else .ok (walkLoop va alloc 2 pagetable m)

/-! ## Mapping and unmapping -/

/-- The loop of `mappages`, for at most `n` more pages. -/
def mappagesLoop (pagetable last perm : Word) : Nat → Word → Word → Memory →
    Except Panic (Int × Memory)
  | 0, _, _, m => .ok (0, m)
  | n + 1, a, pa, m =>
    match walk pagetable a true m with
    | .error why => .error why
    | .ok (none, m) => .ok (-1, m)
    | .ok (some pte, m) =>
      if valid (m.load pte) then .error .mappagesRemap
      else
        let m := m.store pte (PA2PTE pa ||| perm ||| PTE_V)
        if a = last then .ok (0, m)
        else mappagesLoop pagetable last perm n (a + PGSIZE) (pa + PGSIZE) m

def mappages (pagetable va size pa perm : Word) (m : Memory) : Except Panic (Int × Memory) :=
  if va % PGSIZE ≠ 0 then .error .mappagesVa
  else if size % PGSIZE ≠ 0 then .error .mappagesSize
  else if size = 0 then .error .mappagesZero
  else
    mappagesLoop pagetable (va + size - PGSIZE) perm (size / PGSIZE).toNat va pa m

/-- The body of the loop of `uvmunmap`. -/
def uvmunmapPage (kend pagetable a : Word) (doFree : Bool) (m : Memory) : Except Panic Memory :=
  match walk pagetable a false m with
  | .error why => .error why
  | .ok (none, _) => .error .uvmunmapWalk
  | .ok (some pte, m) =>
    if valid (m.load pte) = false then .error .uvmunmapNotMapped
    else if PTE_FLAGS (m.load pte) = PTE_V then .error .uvmunmapNotLeaf
    else if doFree then
      match kfree kend (PTE2PA (m.load pte)) m with
      | .error why => .error why
      | .ok m => .ok (m.store pte 0)
    else .ok (m.store pte 0)

/-- The loop of `uvmunmap`, up to an address. -/
def uvmunmapLoop (kend pagetable last : Word) (doFree : Bool) : Nat → Word → Memory →
    Except Panic Memory
  | 0, _, m => .ok m
  | n + 1, a, m =>
    if a < last then
      match uvmunmapPage kend pagetable a doFree m with
      | .error why => .error why
      | .ok m => uvmunmapLoop kend pagetable last doFree n (a + PGSIZE) m
    else .ok m

def uvmunmap (kend pagetable va npages : Word) (doFree : Bool) (m : Memory) : Except Panic Memory :=
  if va % PGSIZE ≠ 0 then .error .uvmunmapAligned
  else uvmunmapLoop kend pagetable (va + npages * PGSIZE) doFree npages.toNat va m

/-! ## Address spaces -/

/-- A number of pages as an `int`, given to `uvmunmap` as a `uint64`. -/
def asInt (n : Word) : Word := (n.setWidth 32).signExtend 64

def uvmdealloc (kend pagetable oldsz newsz : Word) (m : Memory) : Except Panic (Word × Memory) :=
  if newsz ≥ oldsz then .ok (oldsz, m)
  else if PGROUNDUP newsz < PGROUNDUP oldsz then
    let npages := asInt ((PGROUNDUP oldsz - PGROUNDUP newsz) / PGSIZE)
    match uvmunmap kend pagetable (PGROUNDUP newsz) npages true m with
    | .error why => .error why
    | .ok m => .ok (newsz, m)
  else .ok (newsz, m)

/-- The loop of `uvmalloc`, for at most that many pages. -/
def uvmallocLoop (kend pagetable oldsz newsz xperm : Word) : Nat → Word → Memory →
    Except Panic (Word × Memory)
  | 0, _, m => .ok (newsz, m)
  | n + 1, a, m =>
    if a < newsz then
      match kalloc m with
      | (none, m) =>
        match uvmdealloc kend pagetable a oldsz m with
        | .error why => .error why
        | .ok (_, m) => .ok (0, m)
      | (some mem, m) =>
        match mappages pagetable a PGSIZE mem (PTE_R ||| PTE_U ||| xperm) (m.fill mem 0) with
        | .error why => .error why
        | .ok (r, m) =>
          if r ≠ 0 then
            match kfree kend mem m with
            | .error why => .error why
            | .ok m =>
              match uvmdealloc kend pagetable a oldsz m with
              | .error why => .error why
              | .ok (_, m) => .ok (0, m)
          else uvmallocLoop kend pagetable oldsz newsz xperm n (a + PGSIZE) m
    else .ok (newsz, m)

def uvmalloc (kend pagetable oldsz newsz xperm : Word) (m : Memory) :
    Except Panic (Word × Memory) :=
  if newsz < oldsz then .ok (oldsz, m)
  else
    uvmallocLoop kend pagetable (PGROUNDUP oldsz) newsz xperm (newsz.toNat / 4096 + 1)
      (PGROUNDUP oldsz) m

/-- The error path of `uvmcopy`. -/
def uvmcopyFail (kend new i : Word) (m : Memory) : Except Panic (Int × Memory) :=
  match uvmunmap kend new 0 (i / PGSIZE) true m with
  | .error why => .error why
  | .ok m => .ok (-1, m)

/-- The loop of `uvmcopy`, for at most that many pages. -/
def uvmcopyLoop (kend old new sz : Word) : Nat → Word → Memory → Except Panic (Int × Memory)
  | 0, _, m => .ok (0, m)
  | n + 1, i, m =>
    if i < sz then
      match walk old i false m with
      | .error why => .error why
      | .ok (none, _) => .error .uvmcopyPte
      | .ok (some pte, m) =>
        if valid (m.load pte) = false then .error .uvmcopyPresent
        else
          let pa := PTE2PA (m.load pte)
          let flags := PTE_FLAGS (m.load pte)
          match kalloc m with
          | (none, m) => uvmcopyFail kend new i m
          | (some mem, m) =>
            let copied : Memory := { m with page := Function.update m.page mem (m.page pa) }
            match mappages new i PGSIZE mem flags copied with
            | .error why => .error why
            | .ok (r, m) =>
              if r ≠ 0 then
                match kfree kend mem m with
                | .error why => .error why
                | .ok m => uvmcopyFail kend new i m
              else uvmcopyLoop kend old new sz n (i + PGSIZE) m
    else .ok (0, m)

def uvmcopy (kend old new sz : Word) (m : Memory) : Except Panic (Int × Memory) :=
  uvmcopyLoop kend old new sz (sz.toNat / 4096 + 1) 0 m

end Xv6.Vm
