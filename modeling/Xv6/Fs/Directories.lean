import Xv6.Fs.Alloc

/-!
# Directories as maps

Specifications of `dirlookup`, `dirlink` and `isdirempty`. A directory is a list
of slots; `dirlookup` finds the slot with the name, and `dirlink` fills the first
free slot or adds one, all or nothing.
-/

namespace Xv6.Fs

open Node

variable {Pid : Type} [DecidableEq Pid] [Fintype Pid] {sb : Super} {C : Setting Pid} {p : Pid}
  {l : Local Pid} {w : Option World} {e : Fin NINODE} {v : View} {k : Nat} {de : Dirent}

variable {n : Node}

/-! ## Slots -/

theorem Node.slots_size (aligned : n.size % DIRENT = 0) : Xv6.Fs.slots n.size = n.count := by
  unfold Xv6.Fs.slots Node.count DIRENT at *
  omega

theorem safe_readDirent (viewed : l.view e = some v) (owned : v.owned = true)
    (readable : v.node.Readable) (inside : k < v.node.count) (why : Panic) :
    Safe sb C p (readDirent sb p e why k) l w fun de l' w' =>
      de = v.node.dirent k ∧ l' = l ∧ w' = w := by
  have size_le := readable.size_le
  have limit := maxfile_lt
  have fits : DIRENT * k + DIRENT ≤ v.node.size := by
    unfold count at inside
    unfold DIRENT at *
    omega
  have len : readLen v.node.size (DIRENT * k) DIRENT = DIRENT := by
    have wrap : (DIRENT * k + DIRENT) % 2 ^ 32 = DIRENT * k + DIRENT := Nat.mod_eq_of_lt (by omega)
    unfold readLen
    rw [wrap, if_neg (by omega), if_neg (by omega)]
  refine .seq (safe_readi viewed owned readable (fun _ _ => true) (by decide)) ?_
  rintro ⟨r, bytes⟩ _ _ ⟨⟨rfl, rfl⟩, -, all⟩
  obtain ⟨rfl, rfl⟩ := Prod.mk.inj (all fun _ _ => rfl)
  rw [len]
  simp only [if_true]
  exact .pure ⟨rfl, rfl, rfl⟩

/-- A directory that can be searched. -/
structure Searchable (sb : Super) (v : View) : Prop where
  owned : v.owned = true
  readable : v.node.Readable
  dir : v.node.d.type = T_DIR → v.node.IsDir sb

theorem Locked.searchable (locked : Locked sb l w e v) : Searchable sb v :=
  ⟨locked.owned, locked.good.readable, locked.good.dir⟩

/-! ## `dirlookup` -/

/-- The slot has an entry with that name. -/
def Node.Binds (n : Node) (name : List UInt8) (k : Nat) : Prop :=
  k < n.count ∧ (n.dirent k).inum ≠ 0 ∧ key DIRSIZ name = key DIRSIZ (n.dirent k).name

/-- `dirlookup` gives a reference to the inode of the entry with the name. -/
theorem safe_dirlookup (viewed : l.view e = some v) (searchable : Searchable sb v)
    (busy : l.proc ≠ none) (name : List UInt8) (full : C.allowed w.isSome .igetNoInodes)
    (notDir : C.allowed w.isSome .dirlookupNotDir ∨ v.node.d.type = T_DIR) :
    Safe sb C p (dirlookup sb p e name) l w fun found l' w' => w' = w ∧ v.node.d.type = T_DIR ∧
      match found with
      | some (ip, k) => v.node.Binds name k ∧ (∀ j < k, ¬ v.node.Binds name j) ∧
          l' = (l.addRef ip 1).setNum ip (some (v.node.dirent k).inum) ∧ l'.Own ip
      | none => l' = l ∧ ∀ k, ¬ v.node.Binds name k := by
  refine .seq (safe_getInode viewed) ?_
  rintro ip l w ⟨⟨-, dev, fields⟩, rfl, rfl⟩
  rw [fields searchable.owned, dev]
  by_cases type : v.node.d.type = T_DIR
  · rw [if_neg (not_not.mpr type)]
    have isDir := searchable.dir type
    rw [show Xv6.Fs.slots v.node.d.size.toNat = v.node.count from slots_size isDir.aligned]
    refine .seq (Theory.Safe.find (fun k => (v.node.dirent k).inum ≠ 0 ∧
      key DIRSIZ name = key DIRSIZ (v.node.dirent k).name) (fun k => ((v.node.dirent k).inum, k))
      fun k inside => ?_) ?_
    · refine .seq (safe_readDirent viewed searchable.owned searchable.readable
        (List.mem_range.mp inside) _) ?_
      rintro _ _ _ ⟨rfl, rfl, rfl⟩
      by_cases zero : (v.node.dirent k).inum = 0
      · rw [if_pos zero, if_neg fun both => both.1 zero]
        exact .pure ⟨rfl, rfl, rfl⟩
      · rw [if_neg zero]
        by_cases same : namecmp name (v.node.dirent k).name = 0
        · rw [if_pos same, if_pos ⟨zero, strncmp_eq_zero.mp same⟩]
          exact .pure ⟨rfl, rfl, rfl⟩
        · rw [if_neg same, if_neg fun both => same (strncmp_eq_zero.mpr both.2)]
          exact .pure ⟨rfl, rfl, rfl⟩
    · rintro _ _ _ ⟨rfl, rfl, rfl⟩
      generalize found : (List.range v.node.count).find? _ = slot
      cases slot with
      | none =>
        refine .pure ⟨rfl, type, rfl, fun k binds => ?_⟩
        have other := List.find?_range_eq_none.mp found k binds.1
        simp [binds.2.1, binds.2.2] at other
      | some k =>
        obtain ⟨here, inside, earlier⟩ := List.find?_range_eq_some.mp found
        have here := of_decide_eq_true here
        have inside := List.mem_range.mp inside
        refine .seq (safe_iget ⟨Nat.pos_of_ne_zero here.1, isDir.inums k inside⟩ busy full) ?_
        rintro ip _ _ ⟨⟨rfl, owns⟩, rfl⟩
        refine .pure ⟨rfl, type, ⟨inside, here⟩, fun j less binds => ?_, rfl, owns⟩
        have other := earlier j less
        simp [binds.2.1, binds.2.2] at other
  · rw [if_pos type]
    exact .stop (notDir.resolve_right type)

/-! ## Writing a slot -/

/-- The directory after a slot has been written. -/
structure Slotted (n n' : Node) (k : Nat) (de : Dirent) : Prop where
  fields : n'.d = { n.d with addrs := n'.d.addrs, size := n'.d.size }
  size : n'.size = max n.size (DIRENT * k + DIRENT)
  readable : n'.Readable
  here : n'.dirent k = de
  others : ∀ j, j ≠ k → DIRENT * j + DIRENT ≤ n.size → n'.dirent j = n.dirent j

/-- The directory after nothing has been written. -/
structure Unslotted (n n' : Node) : Prop where
  fields : n'.d = { n.d with addrs := n'.d.addrs, size := n'.d.size }
  size : n'.size = n.size
  readable : n'.Readable
  bytes : ∀ i < n.size, n'.byte i = n.byte i

variable {n' : Node}

theorem Unslotted.dirent (same : Unslotted n n')
    (inside : DIRENT * k + DIRENT ≤ n.size) : n'.dirent k = n.dirent k := by
  unfold Node.dirent
  rw [bytes_congr fun i less => same.bytes _ (by omega)]

theorem Source.full_kernel (bytes : List UInt8) : (Source.kernel bytes).Full := fun _ _ => rfl

theorem Written.slotted (written : Written n n' (.kernel de.toBytes) (DIRENT * k) DIRENT)
    (length : de.name.length = DIRSIZ) (small : de.inum < 2 ^ 16) : Slotted n n' k de := by
  have bytes := written.bytes (Source.full_kernel _)
  have whole : de.toBytes.length = DIRENT := by
    rw [Dirent.toBytes, List.length_append, length_toLE, length]
    rfl
  refine { written with here := ?_, others := ?_ }
  · unfold dirent
    rw [← whole, bytes_eq_list, Dirent.ofBytes_toBytes small]
    intro i less
    rw [whole] at less ⊢
    rw [bytes _ (by rw [written.size]; omega), if_pos (by omega), Nat.add_sub_cancel_left]
    rfl
  · intro j other inside
    unfold dirent
    rw [bytes_congr fun i less => ?_]
    rw [bytes _ (by rw [written.size]; omega), if_neg]
    unfold DIRENT at *
    omega

theorem Written.unslotted {src : Source} {off : Nat}
    (written : Written n n' src off 0) (full : src.Full) (le : off ≤ n.size) : Unslotted n n' := by
  have size : n'.size = n.size := by
    rw [written.size]
    omega
  refine ⟨written.fields, size, written.readable, fun i less => ?_⟩
  rw [written.bytes full i (by rw [size]; exact less), if_neg (by omega)]

theorem safe_writeDirent (viewed : l.view e = some v) (owned : v.owned = true) (op : l.op = true)
    (readable : v.node.Readable) (type : v.node.d.type ≠ 0) (disk : v.disk = v.node.d)
    (le : DIRENT * k ≤ v.node.size) (length : de.name.length = DIRSIZ) (small : de.inum < 2 ^ 16) :
    Safe sb C p (writeDirent sb p e de k) l w fun r l' w' => ∃ n F,
      l' = l.setView e { v with disk := n.d, node := n } ∧ w' = withFree w F ∧
      ((r = DIRENT ∧ Slotted v.node n k de) ∨
        (r ≠ DIRENT ∧ Unslotted v.node n ∧ (Refused v.node.size (DIRENT * k) DIRENT ∨
          ∀ c < sb.size, ¬ F c))) := by
  refine (safe_writei viewed owned op readable type (.kernel de.toBytes) (by decide)).mono ?_
  rintro r l' w' (⟨rfl, refused, rfl, rfl⟩ | ⟨-, tot, bound, rfl, n, F, rfl, rfl, written, rest,
      ends⟩)
  · obtain ⟨F, same, -⟩ := withFree_self w'
    refine ⟨v.node, F, ?_, same, .inr ⟨by decide, ⟨rfl, rfl, readable, fun _ _ => rfl⟩,
      .inl refused⟩⟩
    rw [show ({ v with disk := v.node.d, node := v.node } : View) = v by rw [← disk],
      Local.setView_self viewed]
  · refine ⟨n, F, rfl, rfl, ?_⟩
    by_cases whole : tot = DIRENT
    · rw [whole] at written ⊢
      exact .inl ⟨rfl, written.slotted length small⟩
    · have less : tot < DIRENT := by omega
      have none : tot = 0 := by
        rcases ends less with zero | aligned
        · exact zero
        · unfold DIRENT BSIZE at *
          omega
      subst none
      refine .inr ⟨?_, written.unslotted (Source.full_kernel _) le, .inr (rest
        (Source.full_kernel _) less)⟩
      intro equal
      exact whole (by exact_mod_cast equal)

/-! ## `dirlink` -/

theorem Slotted.isDir (slotted : Slotted n n' k de)
    (dir : n.IsDir sb) (le : k ≤ n.count) (bound : de.inum < sb.ninodes)
    (fresh : de.inum ≠ 0 → ∀ j < n.count, j ≠ k → (n.dirent j).inum ≠ 0 →
      key DIRSIZ de.name ≠ key DIRSIZ (n.dirent j).name) : n'.IsDir sb := by
  have aligned := dir.aligned
  have size := slotted.size
  have count : n'.count = max n.count (k + 1) := by
    unfold Node.count DIRENT at *
    omega
  have old : ∀ j, j ≠ k → j < n'.count → j < n.count ∧ n'.dirent j = n.dirent j := by
    intro j other inside
    have less : j < n.count := by omega
    refine ⟨less, slotted.others j other ?_⟩
    unfold Node.count DIRENT at *
    omega
  refine ⟨?_, ?_, ?_⟩
  · unfold DIRENT at *
    omega
  · intro j inside
    by_cases here : j = k
    · rw [here, slotted.here]
      exact bound
    · obtain ⟨less, same⟩ := old j here inside
      rw [same]
      exact dir.inums j less
  · intro i first j second usedI usedJ names
    by_cases hereI : i = k <;> by_cases hereJ : j = k
    · exact hereI.trans hereJ.symm
    · obtain ⟨less, same⟩ := old j hereJ second
      rw [hereI, slotted.here, same] at names
      rw [hereI, slotted.here] at usedI
      rw [same] at usedJ
      exact absurd names (fresh usedI j less hereJ usedJ)
    · obtain ⟨less, same⟩ := old i hereI first
      rw [hereJ, slotted.here, same] at names
      rw [hereJ, slotted.here] at usedJ
      rw [same] at usedI
      exact absurd names.symm (fresh usedJ i less hereI usedI)
    · obtain ⟨lessI, sameI⟩ := old i hereI first
      obtain ⟨lessJ, sameJ⟩ := old j hereJ second
      rw [sameI, sameJ] at names
      rw [sameI] at usedI
      rw [sameJ] at usedJ
      exact dir.names i lessI j lessJ usedI usedJ names

theorem Unslotted.isDir (same : Unslotted n n') (dir : n.IsDir sb) : n'.IsDir sb := by
  have aligned := dir.aligned
  have count : n'.count = n.count := by
    unfold Node.count
    rw [same.size]
  have entry : ∀ k < n.count, n'.dirent k = n.dirent k := by
    intro k inside
    refine same.dirent ?_
    unfold Node.count DIRENT at *
    omega
  refine ⟨by rw [same.size]; exact aligned, ?_, ?_⟩
  · intro k inside
    rw [count] at inside
    rw [entry k inside]
    exact dir.inums k inside
  · intro i first j second
    rw [count] at first second
    rw [entry i first, entry j second]
    exact dir.names i first j second

/-- A node that is readable, with the type of a good one, is good. -/
theorem Node.Readable.good (readable : n.Readable) (type : n.d.type ≠ 0)
    (dir : n.d.type = T_DIR → n.IsDir sb) : n.Good sb :=
  { readable with empty := fun zero => absurd zero type, dir := dir }

end Xv6.Fs
