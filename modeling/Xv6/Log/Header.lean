import Xv6.Param

/-!
# The on-disk log header

`struct logheader` in the bytes of the header block: the count `n` and then
the block numbers, 32 bits each. `write_head` stores the in-memory header over
the bytes of the buffer and `read_head` loads it back (`readHeader_writeHeader`).
-/

namespace Xv6

/-- `hb->block[i] = …` from index `i` on. -/
def fillEntries (data : Block) (i : Nat) : List Nat → Block
  | [] => data
  | blockno :: rest => fillEntries (data.setLE 4 (4 + 4 * i) blockno) (i + 1) rest

/-- What `write_head` stores into the header buffer. -/
def writeHeader (data : Block) (lh : List Nat) : Block :=
  fillEntries (data.setLE 4 0 lh.length) 0 lh

/-- What `read_head` loads from the header buffer. The count is a signed
number; the loop does not run for a negative one. -/
def readHeader (data : Block) : List Nat :=
  let n := data.getLE 4 0
  if n < 2 ^ 31 then (List.range n).map fun i => data.getLE 4 (4 + 4 * i) else []

/-- A header that fits into its block. -/
structure HeaderFits (lh : List Nat) : Prop where
  short : lh.length < BSIZE / 4
  small : ∀ blockno ∈ lh, blockno < 2 ^ 32

theorem getLE_fillEntries_of_le (data : Block) (i : Nat) (lh : List Nat) {pos : Nat}
    (before : pos + 4 ≤ 4 + 4 * i) : (fillEntries data i lh).getLE 4 pos = data.getLE 4 pos := by
  induction lh generalizing data i with
  | nil => rfl
  | cons blockno rest ih =>
    rw [fillEntries, ih _ _ (by omega), Bytes.getLE_setLE_of_disjoint _ (.inl before)]

theorem getLE_fillEntries (data : Block) (i : Nat) (lh : List Nat)
    (fits : i + lh.length < BSIZE / 4) (small : ∀ blockno ∈ lh, blockno < 2 ^ 32) {j : Nat}
    (bound : j < lh.length) : (fillEntries data i lh).getLE 4 (4 + 4 * (i + j)) = lh[j] := by
  simp only [BSIZE] at fits
  induction lh generalizing data i j with
  | nil => cases bound
  | cons blockno rest ih =>
    simp only [List.length_cons] at fits bound
    cases j with
    | zero =>
      rw [fillEntries, getLE_fillEntries_of_le _ _ _ (by omega)]
      refine Bytes.getLE_setLE_self _ (by simp only [BSIZE]; omega) ?_
      exact small blockno List.mem_cons_self
    | succ j =>
      have := ih (data.setLE 4 (4 + 4 * i) blockno) (i + 1) (by omega)
        (fun b mem => small b (List.mem_cons_of_mem _ mem)) (j := j) (by omega)
      rw [fillEntries, List.getElem_cons_succ, ← this]
      congr 1
      omega

theorem readHeader_writeHeader (data : Block) {lh : List Nat} (fits : HeaderFits lh) :
    readHeader (writeHeader data lh) = lh := by
  have short := fits.short
  have count : (writeHeader data lh).getLE 4 0 = lh.length := by
    rw [writeHeader, getLE_fillEntries_of_le _ _ _ (by omega)]
    refine Bytes.getLE_setLE_self _ (by decide) ?_
    simp only [BSIZE] at short
    omega
  simp only [BSIZE] at short
  simp only [readHeader, count]
  rw [if_pos (by omega)]
  apply List.ext_getElem (by simp)
  intro j left right
  simp only [List.getElem_map, List.getElem_range]
  have := getLE_fillEntries (data.setLE 4 0 lh.length) 0 lh (by simpa using fits.short)
    fits.small right
  rwa [Nat.zero_add] at this

theorem readHeader_zero : readHeader (Bytes.zero BSIZE) = [] := by
  simp [readHeader]

theorem HeaderFits.nil : HeaderFits [] := ⟨by decide, by simp⟩

attribute [irreducible] readHeader writeHeader

end Xv6
