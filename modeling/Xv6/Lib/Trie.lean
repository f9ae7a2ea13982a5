import Mathlib.Data.Nat.Basic
import Mathlib.Data.Option.Basic
import Mathlib.Order.Basic

/-!
# Trees of tables in a memory

A memory gives each address a table, and some entries of a table lead to another table. From
a root the tables are reached along paths of indices, which are written with the last index
first. A tree of a given depth has its tables at the paths of at most that length; the
entries of the tables at the ends are what it stores.

When no table is at two paths (`Distinct`), a store into one entry changes the entry of one
path only (`entry_store`).
-/

namespace Xv6.Trie

open Function

open Option (bind_some map_some)

variable {A I E : Type}

def node (child : E → Option A) (mem : A → I → E) (root : A) : List I → Option A
  | [] => some root
  | i :: path => (node child mem root path).bind fun table => child (mem table i)

def entry (child : E → Option A) (mem : A → I → E) (root : A) : List I → Option E
  | [] => none
  | i :: path => (node child mem root path).map fun table => mem table i

/-- No table of the tree is at two paths. -/
def Distinct (child : E → Option A) (depth : Nat) (mem : A → I → E) (root : A) : Prop :=
  ∀ p q table, p.length ≤ depth → q.length ≤ depth → node child mem root p = some table →
    node child mem root q = some table → p = q

/-- The address is that of a table of the tree. -/
def Inside (child : E → Option A) (depth : Nat) (mem : A → I → E) (root table : A) : Prop :=
  ∃ path : List I, path.length ≤ depth ∧ node child mem root path = some table

variable {child : E → Option A} {depth : Nat} {mem mem' : A → I → E} {root table : A}
  {i : I} {path : List I}

theorem node_cons (here : node child mem root path = some table) :
    node child mem root (i :: path) = child (mem table i) := by
  rw [node, here, bind_some]

theorem entry_cons (here : node child mem root path = some table) :
    entry child mem root (i :: path) = some (mem table i) := by
  rw [entry, here, map_some]

/-- The tables are where they were when the links of those above them are. -/
theorem node_congr
    (same : ∀ path table, path.length < depth → node child mem root path = some table →
    ∀ i, child (mem' table i) = child (mem table i)) (path : List I) (short : path.length ≤ depth) :
    node child mem' root path = node child mem root path := by
  induction path with
  | nil => rfl
  | cons i path ih =>
    have short' : path.length < depth := short
    rw [node, node, ih short'.le]
    cases here : node child mem root path with
    | none => rfl
    | some table => exact same path table short' here i

section

variable (same : ∀ table, Inside child depth mem root table → mem' table = mem table)
include same

theorem node_frame (path : List I) (short : path.length ≤ depth) :
    node child mem' root path = node child mem root path :=
  node_congr (fun _ _ shorter here _ => by rw [same _ ⟨_, shorter.le, here⟩]) path short

theorem entry_frame (path : List I) (short : path.length ≤ depth + 1) :
    entry child mem' root path = entry child mem root path := by
  cases path with
  | nil => rfl
  | cons i path =>
    have short' : path.length ≤ depth := Nat.le_of_succ_le_succ short
    rw [entry, entry, node_frame same path short']
    cases here : node child mem root path with
    | none => rfl
    | some table => rw [map_some, map_some, same table ⟨path, short', here⟩]

end

theorem inside_congr (same : ∀ path : List I, path.length ≤ depth →
      node child mem' root path = node child mem root path) :
    Inside child depth mem' root table ↔ Inside child depth mem root table := by
  constructor
  · rintro ⟨path, short, here⟩
    exact ⟨path, short, (same path short).symm.trans here⟩
  · rintro ⟨path, short, here⟩
    exact ⟨path, short, (same path short).trans here⟩

theorem Distinct.congr (distinct : Distinct child depth mem root)
    (same : ∀ path : List I, path.length ≤ depth →
      node child mem' root path = node child mem root path) : Distinct child depth mem' root := by
  intro p q table shortP shortQ atP atQ
  rw [same p shortP] at atP
  rw [same q shortQ] at atQ
  exact distinct p q table shortP shortQ atP atQ

/-! ## Stores -/

section Store

variable [DecidableEq A] [DecidableEq I] {other : A} {j : I}

def store (mem : A → I → E) (table : A) (i : I) (value : E) : A → I → E :=
  update mem table (update (mem table) i value)

theorem store_self (mem : A → I → E) (table : A) (i : I) (value : E) :
    store mem table i value table i = value := by
  rw [store, update_self, update_self]

theorem store_table (apart : other ≠ table) (value : E) :
    store mem table i value other = mem other :=
  update_of_ne apart ..

theorem store_index (apart : j ≠ i) (value : E) :
    store mem table i value table j = mem table j := by
  rw [store, update_self, update_of_ne apart]

/-- A store into a table at the end of the tree moves no table. -/
theorem node_store (distinct : Distinct child depth mem root) (long : path.length = depth)
    (here : node child mem root path = some table) (value : E) (other : List I)
    (short : other.length ≤ depth) :
    node child (store mem table i value) root other = node child mem root other := by
  refine node_congr (fun q found shorter there j => ?_) other short
  have apart : found ≠ table := by
    rintro rfl
    have equal := distinct q path found shorter.le long.le there here
    rw [equal] at shorter
    omega
  rw [store_table apart]

theorem entry_store (distinct : Distinct child depth mem root) (long : path.length = depth)
    (here : node child mem root path = some table) (value : E) (other : List I)
    (short : other.length = depth + 1) :
    entry child (store mem table i value) root other =
      if other = i :: path then some value else entry child mem root other := by
  cases other with
  | nil => cases short
  | cons j other =>
    have short' : other.length = depth := Nat.succ.inj short
    rw [entry, entry, node_store distinct long here value other short'.le]
    cases there : node child mem root other with
    | none =>
      rw [if_neg]
      · rfl
      · intro equal
        cases equal
        rw [here] at there
        cases there
    | some found =>
      rw [map_some, map_some]
      by_cases same : found = table
      · subst same
        have equal := distinct other path found short'.le long.le there here
        subst equal
        by_cases index : j = i
        · subst index
          rw [if_pos rfl, store_self]
        · rw [if_neg fun equal => index (List.cons.inj equal).1, store_index index]
      · rw [if_neg, store_table same]
        intro equal
        cases equal
        rw [here] at there
        cases there
        exact same rfl

/-! ## New tables -/

/-- A table with blank entries is linked into an entry. -/
def grow (mem : A → I → E) (table : A) (i : I) (link : E) (new : A) (blank : E) : A → I → E :=
  store (update mem new fun _ => blank) table i link

variable {link blank : E} {new : A}

theorem grow_new (apart : new ≠ table) (j : I) : grow mem table i link new blank new j = blank := by
  rw [grow, store_table apart, update_self]

theorem grow_old (apart : other ≠ new) (away : other ≠ table) :
    grow mem table i link new blank other = mem other := by
  rw [grow, store_table away, update_of_ne apart]

theorem grow_link : grow mem table i link new blank table i = link := store_self ..

theorem grow_index (apart : table ≠ new) (index : j ≠ i) :
    grow mem table i link new blank table j = mem table j := by
  rw [grow, store_index index, update_of_ne apart]

section Grow

variable (distinct : Distinct child depth mem root) (here : node child mem root path = some table)
  (short : path.length < depth) (unused : child (mem table i) = none)
  (fresh : ¬ Inside child depth mem root new) (linked : child link = some new)
  (empty : child blank = none)
include distinct here short unused fresh linked empty

/-- The tables of the grown tree: the old ones and the new one. -/
theorem node_grow (other : List I) (le : other.length ≤ depth) :
    node child (grow mem table i link new blank) root other =
      if other = i :: path then some new else node child mem root other := by
  have apart : table ≠ new := fun equal => fresh (equal ▸ ⟨path, short.le, here⟩)
  have none : node child mem root (i :: path) = none := (node_cons here).trans unused
  induction other with
  | nil => rfl
  | cons j other ih =>
    have le' : other.length ≤ depth := Nat.le_of_succ_le le
    rw [node, ih le']
    by_cases atNew : other = i :: path
    · -- the new table has no links
      subst atNew
      rw [if_pos rfl, bind_some, grow_new apart.symm, empty, if_neg (List.cons_ne_self _ _),
        node, none]
      rfl
    · rw [if_neg atNew]
      cases there : node child mem root other with
      | none =>
        rw [if_neg]
        · rw [node, there]
          rfl
        · intro equal
          cases equal
          rw [here] at there
          cases there
      | some found =>
        rw [bind_some]
        have old : found ≠ new := fun equal => fresh (equal ▸ ⟨other, le', there⟩)
        by_cases same : found = table
        · subst same
          have equal := distinct other path found le' short.le there here
          subst equal
          by_cases index : j = i
          · subst index
            rw [if_pos rfl, grow_link, linked]
          · rw [if_neg fun equal => index (List.cons.inj equal).1, grow_index old index,
              node_cons there]
        · rw [if_neg, grow_old old same, node_cons there]
          intro equal
          cases equal
          rw [here] at there
          cases there
          exact same rfl

theorem distinct_grow : Distinct child depth (grow mem table i link new blank) root := by
  have nodes := node_grow distinct here short unused fresh linked empty
  intro p q found shortP shortQ atP atQ
  rw [nodes p shortP] at atP
  rw [nodes q shortQ] at atQ
  split at atP <;> split at atQ
  next isP isQ => rw [isP, isQ]
  · cases atP
    exact absurd ⟨q, shortQ, atQ⟩ fresh
  · cases atQ
    exact absurd ⟨p, shortP, atP⟩ fresh
  · exact distinct p q found shortP shortQ atP atQ

theorem inside_grow {found : A} : Inside child depth (grow mem table i link new blank) root found ↔
      found = new ∨ Inside child depth mem root found := by
  have nodes := node_grow distinct here short unused fresh linked empty
  constructor
  · rintro ⟨p, shortP, atP⟩
    rw [nodes p shortP] at atP
    split at atP
    · cases atP
      exact .inl rfl
    · exact .inr ⟨p, shortP, atP⟩
  · rintro (rfl | ⟨p, shortP, atP⟩)
    · exact ⟨i :: path, short, by rw [nodes (i :: path) short, if_pos rfl]⟩
    · refine ⟨p, shortP, ?_⟩
      rw [nodes p shortP, if_neg, atP]
      rintro rfl
      rw [node_cons here, unused] at atP
      cases atP

/-- The entries of the grown tree: the old ones and the blank ones of a new table at its end. -/
theorem entry_grow (other : List I) (long : other.length = depth + 1) :
    entry child (grow mem table i link new blank) root other =
      if other.tail = i :: path then some blank else entry child mem root other := by
  cases other with
  | nil => cases long
  | cons j other =>
    have long' : other.length = depth := Nat.succ.inj long
    have apart : table ≠ new := fun equal => fresh (equal ▸ ⟨path, short.le, here⟩)
    rw [entry, node_grow distinct here short unused fresh linked empty other long'.le,
      List.tail_cons]
    by_cases atNew : other = i :: path
    · rw [if_pos atNew, if_pos atNew, map_some, grow_new apart.symm]
    · rw [if_neg atNew, if_neg atNew, entry]
      cases there : node child mem root other with
      | none => rfl
      | some found =>
        have old : found ≠ new := fun equal => fresh (equal ▸ ⟨other, long'.le, there⟩)
        have away : found ≠ table := by
          rintro rfl
          have equal := distinct other path found long'.le short.le there here
          rw [equal] at long'
          omega
        rw [map_some, map_some, grow_old old away]

end Grow

end Store

end Xv6.Trie
