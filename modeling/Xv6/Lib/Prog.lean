import Xv6.Lib.Runs

/-!
# Programs that share a state

A program is a tree of atomic steps on a shared state. A step gives a new state
and a value, waits, or stops the machine with a panic. The same program is run
alone (`Prog.run`) and by one of several threads (`Machine`), whose steps come
in any order.

What holds across all interleavings is proved thread by thread. A `Theory` has
an invariant over the shared state and a ghost value for each thread; a thread
is `Safe` from a ghost value when each of its steps keeps the invariant under a
change of its own ghost value only. `Theory.sound` is the rule for whole runs.

A ghost value of the second kind, `w`, is what a thread knows of the rest of the
state when no other thread runs. Threads that interleave know nothing (`none`),
so that one proof of a program serves both (`Safe.run`).
-/

namespace Xv6

open Function

/-- What an atomic step does. -/
inductive Outcome (σ ε β : Type) where
  | ok (state : σ) (value : β)
  | block
  | panic (why : ε)

/-- A program: it returns, or takes a step and goes on with its value. -/
inductive Prog (σ ε α : Type) : Type 1 where
  | ret (value : α)
  | act {β : Type} (step : σ → Outcome σ ε β) (rest : β → Prog σ ε α)

namespace Prog

variable {σ ε α β γ : Type}

variable {next : α → Prog σ ε β} {values : List β} {body : β → Prog σ ε (Option γ)}

def atomic (step : σ → Outcome σ ε α) : Prog σ ε α := .act step .ret

def bind : Prog σ ε α → (α → Prog σ ε β) → Prog σ ε β
  | .ret value, next => next value
  | .act step rest, next => .act step fun value => (rest value).bind next

instance : Monad (Prog σ ε) where
  pure := .ret
  bind := bind

/-- A program for each element of a list, in order. -/
def forEach : List β → (β → Prog σ ε Unit) → Prog σ ε Unit
  | [], _ => .ret ()
  | value :: values, body => (body value).bind fun _ => forEach values body

/-- A program for the elements of a list in order, up to the first that gives a
result. -/
def first : List β → (β → Prog σ ε (Option γ)) → Prog σ ε (Option γ)
  | [], _ => .ret none
  | value :: values, body => (body value).bind fun
      | some result => .ret (some result)
      | none => first values body

def stop (why : ε) : Prog σ ε α := .act (fun _ => .panic why) (fun value : Empty => value.elim)

/-- The program alone, to its end. -/
def run : Prog σ ε α → σ → Outcome σ ε α
  | .ret value, s => .ok s value
  | .act step rest, s =>
    match step s with
    | .ok t value => (rest value).run t
    | .block => .block
    | .panic why => .panic why

theorem run_bind (prog : Prog σ ε α) (next : α → Prog σ ε β) (s : σ) : (prog.bind next).run s =
      match prog.run s with
      | .ok t value => (next value).run t
      | .block => .block
      | .panic why => .panic why := by
  induction prog generalizing s with
  | ret value => rfl
  | act step rest ih =>
    simp only [bind, run]
    cases step s with
    | ok t value => exact ih value t
    | block => rfl
    | panic why => rfl

theorem run_then {prog : Prog σ ε α} {s t : σ} {value : α}
    (done : prog.run s = .ok t value) : (prog >>= next).run s = (next value).run t := by
  refine (run_bind prog next s).trans ?_
  rw [done]

theorem run_panic {prog : Prog σ ε α} {s : σ} {why : ε}
    (stopped : prog.run s = .panic why) : (prog >>= next).run s = .panic why := by
  refine (run_bind prog next s).trans ?_
  rw [stopped]

theorem run_atomic (step : σ → Outcome σ ε α) (s : σ) : (Prog.atomic step).run s = step s := by
  unfold Prog.atomic Prog.run
  cases step s <;> rfl

/-- The first value that passes a test, found without a change of the state. -/
theorem run_find (test : β → Prop)
    [DecidablePred test] (result : β → γ) {s : σ} (each : ∀ value ∈ values,
      (body value).run s = .ok s (if test value then some (result value) else none)) :
    (Prog.first values body).run s = .ok s ((values.find? fun value => test value).map result) := by
  induction values with
  | nil => rfl
  | cons value values ih =>
    refine (run_then (each value List.mem_cons_self)).trans ?_
    by_cases yes : test value
    · rw [if_pos yes, List.find?_cons_of_pos (by simpa using yes)]
      rfl
    · rw [if_neg yes, List.find?_cons_of_neg (by simpa using yes)]
      exact ih fun value inside => each value (List.mem_cons_of_mem _ inside)

/-- All steps of the program alone are of a kind. -/
def Along (kind : σ → σ → Prop) : Prog σ ε α → σ → Prop
  | .ret _, _ => True
  | .act step rest, s =>
    match step s with
    | .ok t value => kind s t ∧ (rest value).Along kind t
    | .block => True
    | .panic _ => True

/-- All steps of the program, from whatever state, are of a kind. -/
def Steps (kind : σ → σ → Prop) : Prog σ ε α → Prop
  | .ret _ => True
  | .act step rest =>
    (∀ s t value, step s = .ok t value → kind s t) ∧ ∀ value, (rest value).Steps kind

section Steps

variable {kind : σ → σ → Prop} {prog : Prog σ ε α}

theorem Steps.pure (value : α) : (Pure.pure value : Prog σ ε α).Steps kind := trivial

theorem Steps.atomic {step : σ → Outcome σ ε α}
    (one : ∀ s t value, step s = .ok t value → kind s t) : (Prog.atomic step).Steps kind :=
  ⟨one, fun _ => trivial⟩

theorem Steps.stop (why : ε) : (Prog.stop why : Prog σ ε α).Steps kind :=
  ⟨nofun, fun value => value.elim⟩

theorem Steps.seq (first : prog.Steps kind)
    (second : ∀ value, (next value).Steps kind) : (prog >>= next).Steps kind := by
  show (prog.bind next).Steps kind
  induction prog with
  | ret value => exact second value
  | act step rest ih => exact ⟨first.1, fun value => ih value (first.2 value)⟩

theorem Steps.first
    (each : ∀ value, (body value).Steps kind) : (Prog.first values body).Steps kind := by
  induction values with
  | nil => trivial
  | cons value values ih =>
    refine Steps.seq (each value) fun result => ?_
    cases result with
    | some found => trivial
    | none => exact ih

theorem Steps.mono {weak : σ → σ → Prop} (steps : prog.Steps kind)
    (weaker : ∀ s t, kind s t → weak s t) : prog.Steps weak := by
  induction prog with
  | ret value => trivial
  | act step rest ih =>
    exact ⟨fun s t value done => weaker s t (steps.1 s t value done),
      fun value => ih value (steps.2 value)⟩

theorem Steps.run (refl : ∀ s, kind s s) (trans : ∀ s t u, kind s t → kind t u → kind s u)
    (steps : prog.Steps kind) {s t : σ} {value : α} (done : prog.run s = .ok t value) :
    kind s t := by
  induction prog generalizing s with
  | ret value =>
    cases done
    exact refl _
  | act step rest ih =>
    simp only [Prog.run] at done
    split at done
    next u result taken =>
      exact trans s u t (steps.1 s u result taken) (ih result (steps.2 result) done)
    next => cases done
    next => cases done

/-- The steps of the program alone, from a state with a property that they keep. -/
theorem Steps.along {keeps : σ → Prop} {goal : σ → σ → Prop} (steps : prog.Steps kind)
    (kept : ∀ s t, kind s t → keeps s → keeps t) (holds : ∀ s t, kind s t → keeps s → goal s t)
    {s : σ} (start : keeps s) : prog.Along goal s := by
  induction prog generalizing s with
  | ret value => trivial
  | act step rest ih =>
    simp only [Along]
    cases taken : step s with
    | ok t value =>
      have one := steps.1 s t value taken
      exact ⟨holds s t one start, ih value (steps.2 value) (kept s t one start)⟩
    | block => trivial
    | panic why => trivial

end Steps

end Prog

/-! ## Threads -/

/-- Threads that make calls. `ready` says which calls a thread may start. -/
structure Machine (σ ε Pid Call R : Type) where
  code : Pid → Call → Prog σ ε R
  ready : σ → Pid → Call → Bool

namespace Machine

variable {σ ε Pid Call R : Type} [DecidableEq Pid]

/-- The shared state, and the rest of the call that each thread is in. -/
structure State (σ ε Pid R : Type) where
  shared : σ
  thread : Pid → Option (Prog σ ε R)
  panicked : Option ε

inductive Label (Pid Call : Type) where
  | start (p : Pid) (call : Call)
  | step (p : Pid)
  | finish (p : Pid)

/-- All threads outside of calls. -/
def initial (s : σ) : State σ ε Pid R := ⟨s, fun _ => none, none⟩

/-- One step of a thread: the next atomic step of its call, or the start or the
end of one. A panic stops all of them. -/
def next (M : Machine σ ε Pid Call R) (s : State σ ε Pid R) :
    Label Pid Call → Option (State σ ε Pid R)
  | .start p call =>
    match s.panicked, s.thread p with
    | none, none =>
      if M.ready s.shared p call then
        some { s with thread := update s.thread p (some (M.code p call)) }
      else none
    | _, _ => none
  | .step p =>
    match s.panicked, s.thread p with
    | none, some (.act step rest) =>
      match step s.shared with
      | .ok t value =>
        some { s with
          shared := t, thread := update s.thread p (some (rest value)) }
      | .block => none
      | .panic why => some { s with panicked := some why }
    | _, _ => none
  | .finish p =>
    match s.panicked, s.thread p with
    | none, some (.ret _) => some { s with thread := update s.thread p none }
    | _, _ => none

def Step (M : Machine σ ε Pid Call R) (s : State σ ε Pid R) (label : Label Pid Call)
    (t : State σ ε Pid R) : Prop :=
  M.next s label = some t

/-- What the steps of a machine are. -/
inductive Effect (M : Machine σ ε Pid Call R) (s : State σ ε Pid R) :
    Label Pid Call → State σ ε Pid R → Prop where
  | start {p : Pid} {call : Call} : s.panicked = none → s.thread p = none →
      M.ready s.shared p call = true →
      Effect M s (.start p call)
        { s with thread := update s.thread p (some (M.code p call)) }
  | step {p : Pid} {β : Type} {step : σ → Outcome σ ε β} {rest : β → Prog σ ε R} {t : σ}
      {value : β} : s.panicked = none → s.thread p = some (.act step rest) →
      step s.shared = .ok t value →
      Effect M s (.step p)
        { s with shared := t, thread := update s.thread p (some (rest value)) }
  | panic {p : Pid} {β : Type} {step : σ → Outcome σ ε β} {rest : β → Prog σ ε R} {why : ε} :
      s.panicked = none → s.thread p = some (.act step rest) → step s.shared = .panic why →
      Effect M s (.step p) { s with panicked := some why }
  | finish {p : Pid} {value : R} : s.panicked = none → s.thread p = some (.ret value) →
      Effect M s (.finish p) { s with thread := update s.thread p none }

theorem Step.effect {M : Machine σ ε Pid Call R} {s t : State σ ε Pid R}
    {label : Label Pid Call} (one : M.Step s label t) : M.Effect s label t := by
  unfold Step next at one
  cases label with
  | start p call =>
    simp only at one
    split at one
    next calm idle =>
      split at one
      next ready =>
        cases one
        exact .start calm idle ready
      next => cases one
    next => cases one
  | step p =>
    simp only at one
    split at one
    next β step rest calm busy =>
      split at one
      next t value done =>
        cases one
        exact .step calm busy done
      next => cases one
      next why stopped =>
        cases one
        exact .panic calm busy stopped
    next => cases one
  | finish p =>
    simp only at one
    split at one
    next value calm done =>
      cases one
      exact .finish calm done
    next => cases one

end Machine

/-! ## Safety, thread by thread -/

/-- An invariant over the shared state, the ghost values of the threads and the
knowledge of a thread that runs alone; the panics that may occur and whether a
step may wait, for a thread that runs alone (`true`) and one that does not; and
what is assumed of the steps of a thread. -/
structure Theory (σ ε Pid L W : Type) where
  Inv : σ → (Pid → L) → Option W → Prop
  allowed : Bool → ε → Prop
  waits : Bool → Prop
  assumed : Pid → σ → σ → Prop

namespace Theory

variable {σ ε Pid L W α β : Type} [DecidableEq Pid] {T : Theory σ ε Pid L W}

/-- From the ghost values the program keeps the invariant at each step, whatever
the other threads do in between, and returns with the postcondition. -/
def Safe (T : Theory σ ε Pid L W) (p : Pid) :
    Prog σ ε α → L → Option W → (α → L → Option W → Prop) → Prop
  | .ret value, l, w, post => post value l w
  | .act step rest, l, w, post =>
    ∀ s gs, gs p = l → T.Inv s gs w →
      match step s with
      | .ok t value => T.assumed p s t → ∃ l' w', w'.isSome = w.isSome ∧
          T.Inv t (update gs p l') w' ∧ T.Safe p (rest value) l' w' post
      | .block => T.waits w.isSome
      | .panic why => T.allowed w.isSome why

variable {p : Pid} {l : L} {w : Option W} {prog : Prog σ ε α}

variable {post : α → L → Option W → Prop}

theorem Safe.pure {value : α} (holds : post value l w) :
    T.Safe p (Pure.pure value : Prog σ ε α) l w post :=
  holds

theorem Safe.mono {weak strong : α → L → Option W → Prop} (safe : T.Safe p prog l w strong)
    (weaker : ∀ value l w, strong value l w → weak value l w) : T.Safe p prog l w weak := by
  induction prog generalizing l w with
  | ret value => exact weaker _ _ _ safe
  | act step rest ih =>
    intro s gs own inv
    have now := safe s gs own inv
    cases taken : step s with
    | ok t value =>
      simp only [taken] at now ⊢
      intro assumed
      obtain ⟨l', w', known, kept, later⟩ := now assumed
      exact ⟨l', w', known, kept, ih value later⟩
    | block => simpa only [taken] using now
    | panic why => simpa only [taken] using now

theorem Safe.bind {next : α → Prog σ ε β} {post : β → L → Option W → Prop}
    (first : T.Safe p prog l w fun value l w => T.Safe p (next value) l w post) :
    T.Safe p (prog.bind next) l w post := by
  induction prog generalizing l w with
  | ret value => exact first
  | act step rest ih =>
    intro s gs own inv
    have now := first s gs own inv
    cases taken : step s with
    | ok t value =>
      simp only [taken] at now ⊢
      intro assumed
      obtain ⟨l', w', known, kept, later⟩ := now assumed
      exact ⟨l', w', known, kept, ih value later⟩
    | block => simpa only [taken] using now
    | panic why => simpa only [taken] using now

theorem Safe.seq {next : α → Prog σ ε β} {middle : α → L → Option W → Prop}
    {post : β → L → Option W → Prop} (first : T.Safe p prog l w middle)
    (second : ∀ value l w, middle value l w → T.Safe p (next value) l w post) :
    T.Safe p (prog >>= next) l w post :=
  (first.mono second).bind

variable {l₁ : L} {w₁ : Option W}

/-- The rule for a first part after which the ghost values are known. -/
theorem Safe.next {next : α → Prog σ ε β} {post : β → L → Option W → Prop}
    (first : T.Safe p prog l w fun _ l w => w = w₁ ∧ l = l₁)
    (second : ∀ value, T.Safe p (next value) l₁ w₁ post) : T.Safe p (prog >>= next) l w post := by
  refine first.seq ?_
  rintro value _ _ ⟨rfl, rfl⟩
  exact second value

theorem Safe.after {next : α → Prog σ ε β} {post : β → L → Option W → Prop}
    (first : T.Safe p prog l w fun _ l w => l = l₁ ∧ w = w₁)
    (second : ∀ value, T.Safe p (next value) l₁ w₁ post) : T.Safe p (prog >>= next) l w post :=
  .next (first.mono fun _ _ _ => And.symm) second

theorem Safe.atomic {step : σ → Outcome σ ε α} (safe : ∀ s gs, gs p = l → T.Inv s gs w →
      match step s with
      | .ok t value => T.assumed p s t → ∃ l' w', w'.isSome = w.isSome ∧
          T.Inv t (update gs p l') w' ∧ post value l' w'
      | .block => T.waits w.isSome
      | .panic why => T.allowed w.isSome why) : T.Safe p (Prog.atomic step) l w post :=
  safe

section

variable (inv : List β → L → Option W → Prop)
include inv

/-- The rule for a loop over a list, with a loop invariant that has the rest of
the list. -/
theorem Safe.forEach {values : List β} {body : β → Prog σ ε Unit} (before : inv values l w)
    (step : ∀ value rest l w, inv (value :: rest) l w →
      T.Safe p (body value) l w fun _ l w => inv rest l w) :
    T.Safe p (Prog.forEach values body) l w fun _ l w => inv [] l w := by
  induction values generalizing l w with
  | nil => exact before
  | cons value rest ih => exact Safe.bind ((step value rest l w before).mono fun _ _ _ => ih)

/-- The rule for a search through a list: `inv` holds as long as nothing is
found. -/
theorem Safe.first {γ : Type} {values : List β} {body : β → Prog σ ε (Option γ)}
    {post : Option γ → L → Option W → Prop} (before : inv values l w)
    (step : ∀ value rest l w, inv (value :: rest) l w → T.Safe p (body value) l w fun result l w =>
        match result with
        | some found => post (some found) l w
        | none => inv rest l w)
    (last : ∀ l w, inv [] l w → post none l w) : T.Safe p (Prog.first values body) l w post := by
  induction values generalizing l w with
  | nil => exact last l w before
  | cons value rest ih =>
    refine Safe.bind ((step value rest l w before).mono fun result l w after => ?_)
    cases result with
    | some found => exact after
    | none => exact ih after

end

/-- The first value that passes a test, found without a change. -/
theorem Safe.find {γ : Type} {values : List β} {body : β → Prog σ ε (Option γ)} (test : β → Prop)
    [DecidablePred test] (result : β → γ) (each : ∀ value ∈ values,
      T.Safe p (body value) l w fun found l' w' =>
        found = (if test value then some (result value) else none) ∧ l' = l ∧ w' = w) :
    T.Safe p (Prog.first values body) l w fun found l' w' =>
      found = (values.find? fun value => test value).map result ∧ l' = l ∧ w' = w := by
  induction values with
  | nil => exact ⟨rfl, rfl, rfl⟩
  | cons value rest ih =>
    refine Safe.bind ((each value List.mem_cons_self).mono ?_)
    rintro _ _ _ ⟨rfl, rfl, rfl⟩
    by_cases yes : test value
    · rw [if_pos yes, List.find?_cons_of_pos (by simpa using yes)]
      exact ⟨rfl, rfl, rfl⟩
    · rw [if_neg yes, List.find?_cons_of_neg (by simpa using yes)]
      exact ih fun value inside => each value (List.mem_cons_of_mem _ inside)

theorem Safe.stop {why : ε} (allowed : T.allowed w.isSome why) :
    T.Safe p (Prog.stop why : Prog σ ε α) l w post :=
  fun _ _ _ _ => allowed

/-- **A safe program run alone** keeps the invariant and the ghost values of the others, and ends
with the postcondition. -/
theorem Safe.run (safe : T.Safe p prog l w post) {s : σ}
    {gs : Pid → L} (own : gs p = l) (inv : T.Inv s gs w) (along : prog.Along (T.assumed p) s) :
    match prog.run s with
    | .ok t value => ∃ l' w', w'.isSome = w.isSome ∧
        T.Inv t (update gs p l') w' ∧ post value l' w'
    | .block => T.waits w.isSome
    | .panic why => T.allowed w.isSome why := by
  induction prog generalizing l w s gs with
  | ret value =>
    refine ⟨l, w, rfl, ?_, safe⟩
    rw [← own, update_eq_self]
    exact inv
  | act step rest ih =>
    have now := safe s gs own inv
    simp only [Prog.run]
    simp only [Prog.Along] at along
    cases taken : step s with
    | ok t value =>
      simp only [taken] at now along ⊢
      obtain ⟨l', w', same, kept, later⟩ := now along.1
      have tail := ih value later (update_self ..) kept along.2
      simpa only [update_idem, same] using tail
    | block => simpa only [taken] using now
    | panic why => simpa only [taken] using now

/-! ## Whole runs -/

variable {Call R : Type} {M : Machine σ ε Pid Call R} {idle : L}

/-- A thread that ends its call with this ghost value can forget it. -/
def Done (T : Theory σ ε Pid L W) (idle : L) (p : Pid) (l : L) (w : Option W) : Prop :=
  ∀ s gs, gs p = l → T.Inv s gs w → T.Inv s (update gs p idle) w

/-- Every call is safe: it can be given a ghost value when it starts, and comes
back to none. -/
def Covers (T : Theory σ ε Pid L W) (M : Machine σ ε Pid Call R) (idle : L) : Prop :=
  ∀ p call s gs, gs p = idle → T.Inv s gs none → M.ready s p call = true →
    ∃ l, T.Inv s (update gs p l) none ∧
      T.Safe p (M.code p call) l none fun _ l w => T.Done idle p l w

/-- What holds of the whole machine. -/
structure Sound (T : Theory σ ε Pid L W) (idle : L) (s : Machine.State σ ε Pid R)
    (gs : Pid → L) : Prop where
  inv : T.Inv s.shared gs none
  resting : ∀ p, s.thread p = none → gs p = idle
  running : ∀ p prog, s.thread p = some prog →
    T.Safe p prog (gs p) none fun _ l w => T.Done idle p l w
  calm : ∀ why, s.panicked = some why → T.allowed false why

/-- The assumption about the steps of the threads, for a step of the machine. -/
def Assumed (T : Theory σ ε Pid L W) (s : Machine.State σ ε Pid R)
    (label : Machine.Label Pid Call) (t : Machine.State σ ε Pid R) : Prop :=
  ∀ p, label = .step p → T.assumed p s.shared t.shared

theorem Sound.step (covers : T.Covers M idle) {s t : Machine.State σ ε Pid R} {gs : Pid → L}
    {label : Machine.Label Pid Call} (sound : T.Sound idle s gs) (one : M.Step s label t)
    (assumed : T.Assumed s label t) : ∃ gs, T.Sound idle t gs := by
  have others : ∀ (p : Pid) (l : L) (prog : Option (Prog σ ε R)) (q : Pid), q ≠ p →
      update gs p l q = gs q ∧ update s.thread p prog q = s.thread q := by
    intro p l prog q other
    exact ⟨update_of_ne other .., update_of_ne other ..⟩
  have rebuild : ∀ (p : Pid) (l : L) (prog : Option (Prog σ ε R)) (shared : σ),
      T.Inv shared (update gs p l) none → (prog = none → l = idle) →
      (∀ code, prog = some code → T.Safe p code l none fun _ l w => T.Done idle p l w) →
      s.panicked = none →
      T.Sound idle ⟨shared, update s.thread p prog, s.panicked⟩
        (update gs p l) := by
    intro p l prog shared inv resting running calm
    refine ⟨inv, fun q idle => ?_, fun q code busy => ?_, sound.calm⟩
    · by_cases same : q = p
      · subst same
        simp only [update_self] at idle ⊢
        exact resting idle
      · rw [(others p l prog q same).1]
        exact sound.resting q ((others p l prog q same).2.symm.trans idle)
    · by_cases same : q = p
      · subst same
        simp only [update_self] at busy ⊢
        exact running code busy
      · rw [(others p l prog q same).1]
        exact sound.running q code ((others p l prog q same).2.symm.trans busy)
  cases one.effect with
  | @start p call calm free ready =>
    obtain ⟨l, inv, safe⟩ := covers p call s.shared gs (sound.resting p free) sound.inv ready
    refine ⟨_, rebuild p l _ _ inv nofun ?_ calm⟩
    rintro code ⟨⟩
    exact safe
  | @step p β step rest t value calm busy done =>
    have now := sound.running p _ busy s.shared gs rfl sound.inv
    simp only [done] at now
    obtain ⟨l, w, known, inv, safe⟩ := now (assumed p rfl)
    obtain rfl : w = none := by simpa using known
    refine ⟨_, rebuild p l _ _ inv nofun ?_ calm⟩
    rintro code ⟨⟩
    exact safe
  | @panic p β step rest why calm busy stopped =>
    have now := sound.running p _ busy s.shared gs rfl sound.inv
    simp only [stopped] at now
    refine ⟨gs, sound.inv, sound.resting, sound.running, ?_⟩
    rintro _ ⟨⟩
    exact now
  | @finish p value calm done =>
    have inv := sound.running p _ done s.shared gs rfl sound.inv
    exact ⟨_, rebuild p idle _ _ inv (fun _ => rfl) nofun calm⟩

/-- **The invariant holds along every run of the machine** whose steps are as
assumed, and it panics only as allowed. -/
theorem sound (covers : T.Covers M idle) {start : σ} (inv : T.Inv start (fun _ => idle) none)
    {labels : List (Machine.Label Pid Call)} {s : Machine.State σ ε Pid R}
    (run : Run (fun s label t => M.Step s label t ∧ T.Assumed s label t)
      (Machine.initial start) labels s) : ∃ gs, T.Sound idle s gs := by
  refine run.invariant (fun s => ∃ gs, T.Sound idle s gs) ?_ ?_
  · rintro s label t ⟨gs, sound⟩ ⟨one, assumed⟩
    exact sound.step covers one assumed
  · exact ⟨fun _ => idle, inv, fun _ _ => rfl, nofun, nofun⟩

attribute [irreducible] Safe

end Theory

end Xv6
