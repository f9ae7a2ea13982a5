import Mathlib.Data.List.GetD
import Xv6.File.Shared

/-!
# Writes to a shared file do not overlap

Each chunk of a write, and each read, begins at the offset where the one before it ended,
because the offset is read and moved under the lock of the inode.
-/

namespace Xv6.File

open List (append_nil length_append length_take mem_cons mem_cons_of_mem mem_cons_self)

open Function

open Fs (MAXFILE maxWrite)

variable {Pid : Type} [DecidableEq Pid] {events : List (Event Pid)} {off : Nat}
  {bytes rest : List UInt8} {event : Event Pid} {data : Nat → UInt8} {len size : Nat}

/-! ## What the events say -/

/-- Where the last section ended. -/
def endOf (start : Nat) : List (Event Pid) → Nat
  | [] => start
  | .wrote _ off bytes :: _ => off + bytes.length
  | .read _ off len :: _ => off + len
  | _ :: events => endOf start events

/-- Each section begins where the one before it ended. -/
def Consecutive (start : Nat) : List (Event Pid) → Prop
  | [] => True
  | .wrote _ off _ :: events => off = endOf start events ∧ Consecutive start events
  | .read _ off _ :: events => off = endOf start events ∧ Consecutive start events
  | _ :: events => Consecutive start events

/-- The chunks, in the order in which they were stored. -/
def chunks : List (Event Pid) → List UInt8
  | [] => []
  | .wrote _ _ bytes :: events => chunks events ++ bytes
  | _ :: events => chunks events

/-- The bytes that a process has passed to `filewrite`. -/
def sent (p : Pid) : List (Event Pid) → List UInt8
  | [] => []
  | .called q buf :: events => sent p events ++ if q = p then buf else []
  | _ :: events => sent p events

/-- The bytes of a process that are stored. -/
def stored (p : Pid) : List (Event Pid) → List UInt8
  | [] => []
  | .wrote q _ bytes :: events => stored p events ++ if q = p then bytes else []
  | _ :: events => stored p events

/-- The file when the processes begin to share it. -/
structure Start where
  off : Nat
  size : Nat
  data : Nat → UInt8
  room : Nat → Bool
  within : off ≤ size
  size_le : size ≤ MAXFILE * BSIZE

def Start.state (c : Start) : State Pid := ⟨c.off, c.size, c.data, none, []⟩

/-! ## The invariant -/

/-- The events agree with the file. `part` is what a chunk has stored so far, at the offset. -/
structure Agrees (c : Start) (s : State Pid) (part : List UInt8) : Prop where
  consecutive : Consecutive c.off s.events
  ends : s.off = endOf c.off s.events
  past : c.off ≤ s.off
  le : s.off ≤ s.size
  size_le : s.size ≤ MAXFILE * BSIZE
  sections : ∀ p start bytes, .wrote p start bytes ∈ s.events →
    bytes.length ≤ maxWrite ∧ c.off ≤ start ∧ start + bytes.length ≤ s.off
  placed : ∀ p start bytes, .wrote p start bytes ∈ s.events → ∀ i < bytes.length,
    s.data (start + i) = bytes.getD i 0
  begun : ∀ i < part.length, s.data (s.off + i) = part.getD i 0
  others : ∀ i, (∀ p start bytes, .wrote p start bytes ∈ s.events →
      ¬ (start ≤ i ∧ i < start + bytes.length)) → ¬ (s.off ≤ i ∧ i < s.off + part.length) →
    s.data i = c.data i
  full : ∀ p off len, .short p off len ∈ s.events →
    (∃ bn, c.room bn = false) ∨ MAXFILE * BSIZE < off + len

/-- What a process that has locked the inode knows. -/
structure Held where
  off : Nat
  size : Nat
  part : List UInt8

/-- What a process knows if it has locked the inode, and the bytes that it has still to write. -/
structure Local where
  held : Option Held
  rest : List UInt8

def Local.idle : Local := ⟨none, []⟩

/-- The lock agrees with what the processes know. -/
structure Locks (s : State Pid) (held : Pid → Option Held) (part : List UInt8) : Prop where
  lock : ∀ p, s.lock = some p ↔ held p ≠ none
  known : ∀ p k, held p = some k → k.off = s.off ∧ k.size = s.size ∧ k.part = part
  free : s.lock = none → part = []

/-- The bytes that a process has sent are stored, but for the rest. -/
def Balanced (p : Pid) (events : List (Event Pid)) (rest : List UInt8) : Prop :=
  (∀ off len, .short p off len ∉ events) → sent p events = stored p events ++ rest

def theory (c : Start) : Theory (State Pid) Panic Pid Local Unit where
  Inv := fun s gs _ => (∃ part, Agrees c s part ∧ Locks s (fun p => (gs p).held) part) ∧
    ∀ p, Balanced p s.events (gs p).rest
  allowed := fun _ _ => False
  waits := fun _ => True
  assumed := fun _ _ _ => True

variable {c : Start} {p : Pid} {l : Local} {s : State Pid} {part : List UInt8} {k : Held}
  {held : Pid → Option Held}

theorem Agrees.start (c : Start) : Agrees c (c.state : State Pid) [] where
  consecutive := trivial
  ends := rfl
  past := le_rfl
  le := c.within
  size_le := c.size_le
  sections := nofun
  placed := nofun
  begun := nofun
  others _ _ _ := rfl
  full := nofun

/-! ## The steps of the process that has the lock -/

section

variable (locks : Locks s held part)
include locks

theorem Locks.holder (mine : held p = some k) :
    s.lock = some p ∧ k.off = s.off ∧ k.size = s.size ∧ k.part = part :=
  ⟨(locks.lock p).mpr (by rw [mine]; nofun), locks.known p k mine⟩

theorem Locks.others (mine : s.lock = some p) {q : Pid} (other : q ≠ p) : held q = none := by
  by_contra some
  have theirs := (locks.lock q).mpr some
  rw [mine] at theirs
  exact other (Option.some.inj theirs).symm

theorem Locks.change {t : State Pid} {k' : Held}
    (mine : held p = some k) (lock : t.lock = s.lock) (off : k'.off = t.off)
    (size : k'.size = t.size) : Locks t (update held p (some k')) k'.part := by
  obtain ⟨here, -⟩ := locks.holder mine
  refine ⟨fun q => ?_, fun q k'' known => ?_, fun free => ?_⟩
  · rw [lock, here]
    by_cases same : q = p
    · subst same
      rw [update_self]
      exact iff_of_true rfl nofun
    · rw [update_of_ne same, locks.others here same]
      exact iff_of_false (fun equal => same (Option.some.inj equal).symm) fun none => none rfl
  · by_cases same : q = p
    · subst same
      rw [update_self] at known
      cases known
      exact ⟨off, size, rfl⟩
    · rw [update_of_ne same, locks.others here same] at known
      cases known
  · rw [lock, here] at free
    cases free

end

theorem held_update (gs : Pid → Local) (l' : Local) : (fun q => (update gs p l' q).held) =
      update (fun q => (gs q).held) p l'.held := by
  funext q
  by_cases same : q = p
  · subst same
    rw [update_self, update_self]
  · rw [update_of_ne same, update_of_ne same]

theorem balanced_update {gs : Pid → Local} {l' : Local}
    (balanced : ∀ q, Balanced q s.events (gs q).rest)
    (mine : Balanced p s.events (gs p).rest → Balanced p events l'.rest)
    (others : ∀ q rest, q ≠ p → Balanced q s.events rest → Balanced q events rest) (q : Pid) :
    Balanced q events (update gs p l' q).rest := by
  by_cases same : q = p
  · subst same
    rw [update_self]
    exact mine (balanced q)
  · rw [update_of_ne same]
    exact others q _ same (balanced q)

theorem safe_change (f : State Pid → State Pid) (k k' : Held) (rest : List UInt8)
    (held : l.held = some k) (lock : ∀ s, (f s).lock = s.lock)
    (agrees : ∀ s, s.off = k.off → s.size = k.size → Agrees c s k.part →
      Agrees c (f s) k'.part ∧ k'.off = (f s).off ∧ k'.size = (f s).size)
    (mine : ∀ s, Balanced p s.events l.rest → Balanced p (f s).events rest)
    (others : ∀ s q rest, q ≠ p → Balanced q s.events rest → Balanced q (f s).events rest) :
    (theory c).Safe p (change f) l none fun _ l' w' => l' = ⟨some k', rest⟩ ∧ w' = none := by
  refine .atomic fun s gs own inv => ?_
  obtain ⟨⟨part, now, locks⟩, balanced⟩ := inv
  subst own
  obtain ⟨-, off, size, rfl⟩ := locks.holder held
  obtain ⟨after, off', size'⟩ := agrees s off.symm size.symm now
  refine fun _ => ⟨⟨some k', rest⟩, none, rfl, ⟨⟨k'.part, after, ?_⟩, ?_⟩, rfl, rfl⟩
  · rw [held_update]
    exact locks.change held (lock s) off' size'
  · exact balanced_update balanced (mine s) (others s)

theorem safe_ilock (free : l.held = none) : (theory c).Safe p (ilock p) l none fun _ l' w' =>
      ∃ off size, l' = ⟨some ⟨off, size, []⟩, l.rest⟩ ∧ w' = none ∧ off ≤ size ∧
        size ≤ MAXFILE * BSIZE := by
  refine .atomic fun s gs own inv => ?_
  obtain ⟨⟨part, now, locks⟩, balanced⟩ := inv
  subst own
  split
  next t value done =>
    split at done
    next unlocked =>
      cases done
      have none : part = [] := locks.free unlocked
      subst none
      have nobody : ∀ q, (gs q).held = none := by
        intro q
        by_contra some
        have theirs := (locks.lock q).mpr some
        rw [unlocked] at theirs
        cases theirs
      refine fun _ => ⟨⟨some ⟨s.off, s.size, []⟩, (gs p).rest⟩, none, rfl, ⟨⟨[], ?_, ?_⟩, ?_⟩,
        s.off, s.size, rfl, rfl, now.le, now.size_le⟩
      · exact { now with }
      · rw [held_update]
        refine ⟨fun q => ?_, fun q k known => ?_, nofun⟩
        · by_cases same : q = p
          · subst same
            rw [update_self]
            exact iff_of_true rfl nofun
          · rw [update_of_ne same, nobody]
            exact iff_of_false (fun equal => same (Option.some.inj equal).symm) fun none => none rfl
        · by_cases same : q = p
          · subst same
            rw [update_self] at known
            cases known
            exact ⟨rfl, rfl, rfl⟩
          · rw [update_of_ne same, nobody] at known
            cases known
      · exact balanced_update balanced id fun _ _ _ => id
    next => cases done
  next => trivial
  next why stopped =>
    split at stopped <;> cases stopped

theorem safe_iunlock (held : l.held = some k) (whole : k.part = []) :
    (theory c).Safe p (iunlock p) l none fun _ l' w' => l' = ⟨none, l.rest⟩ ∧ w' = none := by
  refine .atomic fun s gs own inv => ?_
  obtain ⟨⟨part, now, locks⟩, balanced⟩ := inv
  subst own
  obtain ⟨here, -, -, rfl⟩ := locks.holder held
  rw [if_pos here]
  refine fun _ => ⟨⟨none, (gs p).rest⟩, none, rfl, ⟨⟨k.part, ?_, ?_⟩, ?_⟩, rfl, rfl⟩
  · exact { now with }
  · rw [held_update]
    have nobody : ∀ q, update (fun q => (gs q).held) p none q = none := by
      intro q
      by_cases same : q = p
      · rw [same, update_self]
      · rw [update_of_ne same, locks.others here same]
    refine ⟨fun q => ?_, fun q k' known => ?_, fun _ => whole⟩
    · rw [nobody]
      exact iff_of_false nofun fun none => none rfl
    · rw [nobody] at known
      cases known
  · exact balanced_update balanced id fun _ _ _ => id

theorem safe_getFile (held : l.held = some k) : (theory c).Safe p getFile l none fun found l' w' =>
      found = (k.off, k.size) ∧ l' = l ∧ w' = none := by
  refine .atomic fun s gs own inv => ?_
  obtain ⟨⟨part, now, locks⟩, -⟩ := id inv
  subst own
  obtain ⟨-, off, size, -⟩ := locks.holder held
  refine fun _ => ⟨gs p, none, rfl, ?_, by rw [off, size], rfl, rfl⟩
  rw [update_eq_self]
  exact inv

/-! ## What the steps do to the file -/

theorem place_of_not {i : Nat}
    (outside : ¬ (off ≤ i ∧ i < off + bytes.length)) : place data off bytes i = data i :=
  if_neg outside

theorem Agrees.put (now : Agrees c s part) (bytes : List UInt8) :
    Agrees c (putBytes (s.off + part.length) bytes s) (part ++ bytes) := by
  refine { now with placed := ?_, begun := ?_, others := ?_ }
  · intro q start old listed i below
    have ends := (now.sections q start old listed).2.2
    exact (place_of_not (by omega)).trans (now.placed q start old listed i below)
  · intro i below
    rw [length_append] at below
    show place s.data (s.off + part.length) bytes (s.off + i) = _
    by_cases early : i < part.length
    · rw [place_of_not (by omega), now.begun i early, List.getD_append _ _ _ _ early]
    · rw [place, if_pos (by omega), List.getD_append_right _ _ _ _ (by omega)]
      congr 1
      omega
  · intro i away outside
    have outside : ¬ (s.off ≤ i ∧ i < s.off + (part.length + bytes.length)) := by
      rwa [← length_append]
    exact (place_of_not (by omega)).trans (now.others i away (by omega))

theorem Agrees.grow (now : Agrees c s part) (fits : s.off + part.length ≤ MAXFILE * BSIZE) :
    Agrees c (growTo (s.off + part.length) s) part := by
  refine { now with le := ?_, size_le := ?_ }
  · exact now.le.trans (Nat.le_max_left ..)
  · exact Nat.max_le.mpr ⟨now.size_le, fits⟩

theorem limit_lt : MAXFILE * BSIZE + maxWrite < 2 ^ 32 := by decide

theorem Agrees.advance (now : Agrees c s part) (inside : s.off + part.length ≤ s.size)
    (small : part.length ≤ maxWrite) : Agrees c (advance p part s) [] := by
  have size_le := now.size_le
  have limit := limit_lt
  have off : (File.advance p part s).off = s.off + part.length := Nat.mod_eq_of_lt (by omega)
  refine ⟨⟨now.ends, now.consecutive⟩, off, by rw [off]; exact now.past.trans (Nat.le_add_right ..),
    by rw [off]; exact inside, now.size_le, ?_, ?_, nofun, ?_, ?_⟩
  · intro q start bytes listed
    rw [off]
    rcases mem_cons.mp listed with new | old
    · cases new
      exact ⟨small, now.past, le_rfl⟩
    · obtain ⟨le, first, ends⟩ := now.sections q start bytes old
      exact ⟨le, first, by omega⟩
  · intro q start bytes listed
    rcases mem_cons.mp listed with new | old
    · cases new
      exact now.begun
    · exact now.placed q start bytes old
  · intro i away _
    exact now.others i (fun q start bytes old => away q start bytes (mem_cons_of_mem _ old))
      (away p s.off part mem_cons_self)
  · intro q off' len listed
    rcases mem_cons.mp listed with new | old
    · cases new
    · exact now.full q off' len old

theorem Agrees.skip (now : Agrees c s []) (inside : s.off + len ≤ s.size) :
    Agrees c (skip p len s) [] := by
  have size_le := now.size_le
  have limit := limit_lt
  have off : (File.skip p len s).off = s.off + len := Nat.mod_eq_of_lt (by omega)
  have older : ∀ {q start bytes}, Event.wrote q start bytes ∈ (File.skip p len s).events →
      Event.wrote q start bytes ∈ s.events := by
    intro q start bytes listed
    rcases mem_cons.mp listed with new | old
    · cases new
    · exact old
  refine ⟨⟨now.ends, now.consecutive⟩, off, by rw [off]; exact now.past.trans (Nat.le_add_right ..),
    by rw [off]; exact inside, now.size_le, ?_, fun q start bytes listed => now.placed q start bytes
      (older listed), nofun, ?_, ?_⟩
  · intro q start bytes listed
    obtain ⟨le, first, ends⟩ := now.sections q start bytes (older listed)
    exact ⟨le, first, by rw [off]; omega⟩
  · intro i away _
    refine now.others i (fun q start bytes old => away q start bytes (mem_cons_of_mem _ old))
        ?_
    simp only [List.length_nil]
    omega
  · intro q off' len' listed
    rcases mem_cons.mp listed with new | old
    · cases new
    · exact now.full q off' len' old

theorem Agrees.note (now : Agrees c s part)
    (other : ∀ q start bytes, event ≠ .wrote q start bytes) (noRead : ∀ q start len, event ≠ .read
        q start len)
    (full : ∀ q off len, event = .short q off len →
      (∃ bn, c.room bn = false) ∨ MAXFILE * BSIZE < off + len) : Agrees c (note event s) part := by
  have older : ∀ {q start bytes}, Event.wrote q start bytes ∈ (File.note event s).events →
      Event.wrote q start bytes ∈ s.events := by
    intro q start bytes listed
    rcases mem_cons.mp listed with new | old
    · exact absurd new.symm (other q start bytes)
    · exact old
  refine ⟨?_, ?_, now.past, now.le, now.size_le, fun q start bytes listed =>
    now.sections q start bytes (older listed), fun q start bytes listed =>
    now.placed q start bytes (older listed), now.begun, fun i away =>
    now.others i fun q start bytes old => away q start bytes (mem_cons_of_mem _ old), ?_⟩
  · cases event with
    | wrote q start bytes => exact absurd rfl (other q start bytes)
    | read q start len => exact absurd rfl (noRead q start len)
    | called q buf => exact now.consecutive
    | short q off len => exact now.consecutive
  · cases event with
    | wrote q start bytes => exact absurd rfl (other q start bytes)
    | read q start len => exact absurd rfl (noRead q start len)
    | called q buf => exact now.ends
    | short q off len => exact now.ends
  · intro q off len listed
    rcases mem_cons.mp listed with new | old
    · exact full q off len new.symm
    · exact now.full q off len old

theorem Balanced.of_cons {rest' : List UInt8} (balanced : Balanced p events rest)
    (sums : sent p events = stored p events ++ rest →
      sent p (event :: events) = stored p (event :: events) ++ rest') :
    Balanced p (event :: events) rest' :=
  fun none => sums (balanced fun off len old => none off len (mem_cons_of_mem _ old))

/-! ## The calls -/

theorem safe_note (rest : List UInt8)
    (agrees : ∀ s part, Agrees c s part → Agrees c (note event s) part)
    (mine : ∀ s : State Pid, Balanced p s.events l.rest → Balanced p (event :: s.events) rest)
    (others : ∀ (s : State Pid) q rest, q ≠ p → Balanced q s.events rest →
      Balanced q (event :: s.events) rest) :
    (theory c).Safe p (change (note event)) l none fun _ l' w' =>
      l' = ⟨l.held, rest⟩ ∧ w' = none := by
  refine .atomic fun s gs own inv => ?_
  obtain ⟨⟨part, now, locks⟩, balanced⟩ := inv
  subst own
  refine fun _ => ⟨⟨(gs p).held, rest⟩, none, rfl, ⟨⟨part, agrees s part now, ?_⟩, ?_⟩, rfl, rfl⟩
  · rw [held_update, update_eq_self]
    exact ⟨locks.lock, locks.known, locks.free⟩
  · exact balanced_update balanced (mine s) (others s)

theorem safe_writeiLoop (fuel tot : Nat)
    (enough : bytes.length - tot ≤ fuel) (le : tot ≤ bytes.length)
    (start : l = ⟨some ⟨off, size, bytes.take tot⟩, rest⟩) :
    (theory c).Safe p (writeiLoop c.room bytes off fuel tot) l none fun r l' w' =>
      r ≤ bytes.length ∧ l' = ⟨some ⟨off, size, bytes.take r⟩, rest⟩ ∧ w' = none ∧
        (r < bytes.length → ∃ bn, c.room bn = false) := by
  induction fuel generalizing tot l with
  | zero => exact .pure ⟨le, start, rfl, fun less => by omega⟩
  | succ fuel ih =>
    unfold writeiLoop
    split
    next more =>
      split
      next there =>
        generalize size' : min (bytes.length - tot) (BSIZE - (off + tot) % BSIZE) = m
        have block : 0 < BSIZE - (off + tot) % BSIZE :=
          Nat.sub_pos_of_lt (Nat.mod_lt _ (by decide))
        have length : (bytes.take tot).length = tot := by rw [length_take]; omega
        have joined : bytes.take tot ++ (bytes.drop tot).take m = bytes.take (tot + m) :=
          List.take_add.symm
        refine .seq (safe_change (putBytes (off + tot) ((bytes.drop tot).take m))
          ⟨off, size, bytes.take tot⟩ ⟨off, size, bytes.take (tot + m)⟩ rest (by rw [start]) (fun _
              => rfl)
          ?_ (fun s => by rw [start]; exact id) fun _ _ _ _ => id) ?_
        · intro s (sameOff : s.off = off) (sameSize : s.size = size) now
          have after := now.put ((bytes.drop tot).take m)
          rw [sameOff, length, joined] at after
          exact ⟨after, sameOff.symm, sameSize.symm⟩
        · rintro _ _ _ ⟨rfl, rfl⟩
          exact ih (tot + m) (by omega) (by omega) rfl
      next gone =>
        exact .pure ⟨le, start, rfl, fun _ => ⟨_, Bool.not_eq_true _ ▸ gone⟩⟩
    next done => exact .pure ⟨le, start, rfl, fun less => absurd less done⟩

theorem safe_writei (within : off ≤ size)
    (size_le : size ≤ MAXFILE * BSIZE) (small : bytes.length ≤ maxWrite)
    (start : l = ⟨some ⟨off, size, []⟩, rest⟩) :
    (theory c).Safe p (writei c.room bytes off size) l none fun r l' w' => w' = none ∧
      ((r = -1 ∧ l' = l ∧ MAXFILE * BSIZE < off + bytes.length) ∨
        ∃ tot ≤ bytes.length, r = tot ∧ l' = ⟨some ⟨off, max size (off + tot), bytes.take tot⟩,
            rest⟩ ∧
          (tot < bytes.length → ∃ bn, c.room bn = false)) := by
  have limit := limit_lt
  unfold writei
  split
  next => omega
  next =>
    split
    next large => exact .pure ⟨rfl, .inl ⟨rfl, rfl, by omega⟩⟩
    next fits =>
      refine .seq (safe_writeiLoop bytes.length 0 (by omega) (Nat.zero_le _) start) ?_
      rintro tot _ _ ⟨le, rfl, rfl, ends⟩
      have length : (bytes.take tot).length = tot := by rw [length_take]; omega
      refine .seq (safe_change (growTo (off + tot)) ⟨off, size, bytes.take tot⟩
        ⟨off, max size (off + tot), bytes.take tot⟩ rest rfl (fun _ => rfl) ?_ (fun _ => id) fun _
            _ _ _ => id) ?_
      · intro s (sameOff : s.off = off) (sameSize : s.size = size) now
        have after := now.grow (by rw [sameOff, length]; omega)
        rw [sameOff, length] at after
        exact ⟨after, sameOff.symm, by rw [← sameSize]; rfl⟩
      · rintro _ _ _ ⟨rfl, rfl⟩
        exact .pure ⟨rfl, .inr ⟨tot, le, rfl, rfl, ends⟩⟩

theorem safe_short (free : l.held = none)
    (full : (∃ bn, c.room bn = false) ∨ MAXFILE * BSIZE < off + len) :
    (theory c).Safe p (change (note (.short p off len)) >>= fun _ => pure false) l none
      fun r l' w' => r = false ∧ l' = Local.idle ∧ w' = none := by
  refine .seq (safe_note [] (fun s part now => now.note nofun nofun ?_) ?_ ?_) ?_
  · rintro _ _ _ ⟨⟩
    exact full
  · exact fun s _ none => absurd mem_cons_self (none off len)
  · exact fun s q rest _ balanced => balanced.of_cons id
  · rintro _ _ _ ⟨rfl, rfl⟩
    rw [free]
    exact .pure ⟨rfl, rfl, rfl⟩

theorem safe_filewriteChunk (rest : List UInt8) (small : bytes.length ≤ maxWrite)
    (some : 0 < bytes.length) (start : l = ⟨none, bytes ++ rest⟩) :
    (theory c).Safe p (filewriteChunk c.room p bytes) l none fun r l' w' => w' = none ∧
      ((r = true ∧ l' = ⟨none, rest⟩) ∨ (r = false ∧ l' = Local.idle)) := by
  subst start
  refine .seq (safe_ilock rfl) ?_
  rintro _ _ _ ⟨off, size, rfl, rfl, within, size_le⟩
  refine .seq (safe_getFile rfl) ?_
  rintro _ _ _ ⟨rfl, rfl, rfl⟩
  simp only
  refine .seq (safe_writei within size_le small rfl) ?_
  rintro r _ _ ⟨rfl, ⟨rfl, rfl, large⟩ | ⟨tot, le, rfl, rfl, ends⟩⟩
  · rw [if_neg (by decide)]
    refine .after (safe_iunlock rfl rfl) fun _ => ?_
    rw [if_neg (by omega)]
    refine (safe_short rfl (.inr large)).mono ?_
    rintro _ _ _ ⟨rfl, rfl, rfl⟩
    exact ⟨rfl, .inr ⟨rfl, rfl⟩⟩
  · have length : (bytes.take tot).length = tot := by rw [length_take]; omega
    by_cases positive : 0 < (tot : Int)
    · rw [if_pos positive, Int.toNat_natCast]
      have split : bytes ++ rest = bytes.take tot ++ (bytes.drop tot ++ rest) := by
        rw [← List.append_assoc, List.take_append_drop]
      refine .seq (safe_change (advance p (bytes.take tot))
        ⟨off, max size (off + tot), bytes.take tot⟩ ⟨off + tot, max size (off + tot), []⟩
        (bytes.drop tot ++ rest) rfl (fun _ => rfl) ?_ ?_ ?_) ?_
      · intro s (sameOff : s.off = off) (sameSize : s.size = max size (off + tot)) now
        have inside : s.off + (bytes.take tot).length ≤ s.size := by
          rw [sameOff, sameSize, length]
          exact Nat.le_max_right ..
        have after := now.advance (p := p) inside (by
          show (bytes.take tot).length ≤ maxWrite
          omega)
        refine ⟨after, ?_, sameSize.symm⟩
        have size_le := now.size_le
        have limit := limit_lt
        show off + tot = (s.off + (bytes.take tot).length) % 2 ^ 32
        rw [Nat.mod_eq_of_lt (by omega), sameOff, length]
      · intro s balanced
        refine balanced.of_cons fun sums => ?_
        simp only [sent, stored, if_true]
        rw [sums, split, List.append_assoc]
      · intro s q rest other balanced
        refine balanced.of_cons fun sums => ?_
        simp only [sent, stored, if_neg (Ne.symm other), append_nil]
        exact sums
      · rintro _ _ _ ⟨rfl, rfl⟩
        refine .after (safe_iunlock rfl rfl) fun _ => ?_
        by_cases whole : tot = bytes.length
        · rw [if_pos (by rw [whole])]
          refine .pure ⟨rfl, .inl ⟨rfl, ?_⟩⟩
          simp only [whole, List.drop_length, List.nil_append]
        · rw [if_neg (by omega)]
          refine (safe_short rfl (.inl (ends (by omega)))).mono ?_
          rintro _ _ _ ⟨rfl, rfl, rfl⟩
          exact ⟨rfl, .inr ⟨rfl, rfl⟩⟩
    · rw [if_neg positive]
      obtain rfl : tot = 0 := by omega
      refine .after (safe_iunlock rfl rfl) fun _ => ?_
      rw [if_neg (by omega)]
      refine (safe_short rfl (.inl (ends some))).mono ?_
      rintro _ _ _ ⟨rfl, rfl, rfl⟩
      exact ⟨rfl, .inr ⟨rfl, rfl⟩⟩

theorem safe_filewriteLoop {buf : List UInt8} (fuel i : Nat) (enough : buf.length - i ≤ fuel)
    (start : l = ⟨none, buf.drop i⟩) :
    (theory c).Safe p (filewriteLoop c.room p buf fuel i) l none fun _ l' w' =>
      l' = Local.idle ∧ w' = none := by
  induction fuel generalizing i l with
  | zero =>
    refine .pure ⟨?_, rfl⟩
    rw [start, List.drop_eq_nil_of_le (by omega)]
    rfl
  | succ fuel ih =>
    unfold filewriteLoop
    split
    next more =>
      generalize size : min (buf.length - i) maxWrite = n1
      have limit : 0 < maxWrite := by decide
      have length : ((buf.drop i).take n1).length = n1 := by
        rw [length_take, List.length_drop]
        omega
      simp only
      refine .seq (safe_filewriteChunk (buf.drop (i + n1)) (by omega) (by omega) ?_) ?_
      · rw [start, ← List.drop_drop, List.take_append_drop]
      · rintro r _ _ ⟨rfl, ⟨rfl, rfl⟩ | ⟨rfl, rfl⟩⟩
        · rw [if_pos rfl]
          exact ih (i + n1) (by omega) rfl
        · rw [if_neg Bool.false_ne_true]
          exact .pure ⟨rfl, rfl⟩
    next done =>
      refine .pure ⟨?_, rfl⟩
      rw [start, List.drop_eq_nil_of_le (by omega)]
      rfl

theorem safe_filewrite (buf : List UInt8) :
    (theory c).Safe p (filewrite c.room p buf) Local.idle none fun _ l' w' =>
      l' = Local.idle ∧ w' = none := by
  refine .seq (safe_note buf (fun s part now => now.note nofun nofun nofun) ?_ ?_) ?_
  · intro s balanced
    refine balanced.of_cons fun sums => ?_
    simp only [sent, stored, if_true]
    rw [sums, Local.idle, append_nil]
  · intro s q rest other balanced
    refine balanced.of_cons fun sums => ?_
    simp only [sent, stored, if_neg (Ne.symm other), append_nil]
    exact sums
  · rintro _ _ _ ⟨rfl, rfl⟩
    refine .seq (safe_filewriteLoop buf.length 0 (by omega) rfl) ?_
    rintro i _ _ ⟨rfl, rfl⟩
    split
    · exact .pure ⟨rfl, rfl⟩
    · exact .pure ⟨rfl, rfl⟩

theorem safe_fileread (n : Int) (copied : Bool) :
    (theory c).Safe p (fileread p n copied) Local.idle none fun _ l' w' =>
      l' = Local.idle ∧ w' = none := by
  refine .seq (safe_ilock rfl) ?_
  rintro _ _ _ ⟨off, size, rfl, rfl, within, size_le⟩
  refine .seq (safe_getFile rfl) ?_
  rintro _ _ _ ⟨rfl, rfl, rfl⟩
  simp only
  have small : (n % 2 ^ 32).toNat < 2 ^ 32 := by omega
  generalize (n % 2 ^ 32).toNat = n at small
  have unlock : ∀ (k : Held) (r : Int), k.part = [] → (theory c).Safe p
      (iunlock p >>= fun _ => pure r) ⟨some k, []⟩ none fun _ l' w' =>
        l' = Local.idle ∧ w' = none := by
    intro k r whole
    refine .after (safe_iunlock rfl whole) fun _ => ?_
    exact .pure ⟨rfl, rfl⟩
  by_cases positive : 0 < readi off n size copied
  · rw [if_pos positive]
    have reach : off + (readi off n size copied).toNat ≤ size := by
      unfold readi at positive ⊢
      split at positive
      · cases positive
      · rename_i legal
        rw [if_neg legal] at *
        simp only at positive ⊢
        split at positive
        · rw [if_pos ‹_›, Int.toNat_natCast]
          split <;> omega
        · omega
    refine .seq (safe_change (skip p (readi off n size copied).toNat) ⟨off, size, []⟩
      ⟨off + (readi off n size copied).toNat, size, []⟩ [] rfl (fun _ => rfl) ?_ ?_ ?_) ?_
    · intro s (sameOff : s.off = off) (sameSize : s.size = size) now
      refine ⟨now.skip (by rw [sameOff, sameSize]; exact reach), ?_, sameSize.symm⟩
      have size_le := now.size_le
      have limit := limit_lt
      show _ = (s.off + (readi off n size copied).toNat) % 2 ^ 32
      rw [sameOff, Nat.mod_eq_of_lt (by omega)]
    · exact fun s balanced => balanced.of_cons id
    · exact fun s q rest _ balanced => balanced.of_cons id
    · rintro _ _ _ ⟨rfl, rfl⟩
      exact unlock _ _ rfl
  · rw [if_neg positive]
    exact unlock _ _ rfl

theorem covers : (theory c).Covers (sharers c.room : Machine (State Pid) Panic Pid Call Int)
    Local.idle := by
  intro p call s gs idle inv _
  refine ⟨Local.idle, by rw [← idle, update_eq_self]; exact inv, ?_⟩
  have done : ∀ (r : Int) (l' : Local) (w' : Option Unit), l' = Local.idle ∧ w' = none →
      (theory c).Done Local.idle p l' w' := by
    rintro r _ _ ⟨rfl, rfl⟩ s gs own inv
    rw [← own, update_eq_self]
    exact inv
  cases call with
  | write buf => exact (safe_filewrite buf).mono done
  | read n copied => exact (safe_fileread n copied).mono done

/-! ## The order of the chunks -/

theorem chunks_placed {start : Nat}
    (consecutive : Consecutive start events) (noReads : ∀ p off len, .read p off len ∉ events)
    (placed : ∀ p off bytes, .wrote p off bytes ∈ events → ∀ i < bytes.length,
      data (off + i) = bytes.getD i 0) :
    endOf start events = start + (chunks events).length ∧
      ∀ i < (chunks events).length, data (start + i) = (chunks events).getD i 0 := by
  induction events with
  | nil => exact ⟨rfl, nofun⟩
  | cons event events ih =>
    have rest := fun consecutive => ih consecutive
      (fun p off len old => noReads p off len (mem_cons_of_mem _ old))
      fun p off bytes old => placed p off bytes (mem_cons_of_mem _ old)
    cases event with
    | called p buf => exact rest consecutive
    | short p off len => exact rest consecutive
    | read p off len => exact absurd mem_cons_self (noReads p off len)
    | wrote p off bytes =>
      obtain ⟨here, before⟩ := consecutive
      obtain ⟨ends, earlier⟩ := rest before
      rw [ends] at here
      simp only [endOf, chunks, length_append]
      refine ⟨by omega, fun i below => ?_⟩
      by_cases early : i < (chunks events).length
      · rw [earlier i early, List.getD_append _ _ _ _ early]
      · have last := placed p off bytes mem_cons_self (i - (chunks events).length) (by omega)
        rw [List.getD_append_right _ _ _ _ (by omega), ← last, here]
        congr 1
        omega

/-- The state of a file that processes share. -/
structure Ordered (c : Start) (s : Machine.State (State Pid) Panic Pid Int) : Prop where
  calm : s.panicked = none
  -- each chunk and each read begins where the one before it ended
  consecutive : Consecutive c.off s.shared.events
  ends : s.shared.off = endOf c.off s.shared.events
  small : ∀ p start bytes, .wrote p start bytes ∈ s.shared.events → bytes.length ≤ maxWrite
  -- every chunk is where it was stored, whatever was written later
  placed : ∀ p start bytes, .wrote p start bytes ∈ s.shared.events → ∀ i < bytes.length,
    s.shared.data (start + i) = bytes.getD i 0
  -- without reads the file has the chunks one after the other, up to the offset
  concatenated : (∀ p start len, .read p start len ∉ s.shared.events) →
    s.shared.off = c.off + (chunks s.shared.events).length ∧
    ∀ i < (chunks s.shared.events).length,
      s.shared.data (c.off + i) = (chunks s.shared.events).getD i 0
  -- nothing else has changed when no chunk is being written
  others : s.shared.lock = none → ∀ i, (∀ p start bytes, .wrote p start bytes ∈ s.shared.events →
    ¬ (start ≤ i ∧ i < start + bytes.length)) → s.shared.data i = c.data i
  -- a process outside of calls has all its bytes stored, if no limit was hit
  complete : ∀ p, s.thread p = none → (∀ off len, .short p off len ∉ s.shared.events) →
    stored p s.shared.events = sent p s.shared.events
  full : ∀ p off len, .short p off len ∈ s.shared.events →
    (∃ bn, c.room bn = false) ∨ MAXFILE * BSIZE < off + len

/-- **Concurrent writes through one open file never overlap.** -/
theorem shared_writes (c : Start) {labels : List (Machine.Label Pid Call)}
    {s : Machine.State (State Pid) Panic Pid Int}
    (run : Run (sharers c.room).Step (Machine.initial c.state) labels s) : Ordered c s := by
  have start : (theory c).Inv c.state (fun _ : Pid => Local.idle) none :=
    ⟨⟨[], .start c, fun p => iff_of_false nofun fun none => none rfl, nofun, fun _ => rfl⟩,
      fun p _ => rfl⟩
  obtain ⟨gs, sound⟩ := Theory.sound covers start
    (run.mono fun {s label t} one => ⟨one, fun p _ => (trivial : True)⟩)
  obtain ⟨⟨part, now, locks⟩, balanced⟩ := sound.inv
  refine ⟨?_, now.consecutive, now.ends, fun p start bytes listed => (now.sections p start bytes
      listed).1,
    now.placed, fun noReads => ?_, fun unlocked i away => ?_, fun p idle whole => ?_, now.full⟩
  · cases stopped : s.panicked with
    | none => rfl
    | some why => exact (sound.calm why stopped).elim
  · rw [now.ends]
    exact chunks_placed now.consecutive noReads now.placed
  · refine now.others i away ?_
    rw [locks.free unlocked, List.length_nil]
    omega
  · have sums := balanced p whole
    rw [sound.resting p idle, Local.idle, List.append_nil] at sums
    exact sums.symm

def emptyFile : Start := ⟨0, 0, fun _ => 0, fun _ => true, le_rfl, by decide⟩

/-- Two writers: the second one waits for the first one's chunk. -/
def twoWriters : List (Machine.Label Bool Call) :=
  [.start false (.write [1, 2]), .start true (.write [3]), .step true] ++
    List.replicate 7 (.step false) ++ List.replicate 6 (.step true) ++ [.finish true, .finish false]

def twoWritten : Machine.State (State Bool) Panic Bool Int :=
  (twoWriters.foldlM (sharers emptyFile.room).next (Machine.initial emptyFile.state)).getD
    (Machine.initial emptyFile.state)

theorem shared_writes_two :
    Ordered emptyFile twoWritten ∧ chunks twoWritten.shared.events = [1, 2, 3] ∧
      twoWritten.shared.off = 3 :=
  ⟨shared_writes emptyFile (show Run _ _ twoWriters twoWritten from Run.of_execute rfl), by decide,
    by decide⟩

end Xv6.File
