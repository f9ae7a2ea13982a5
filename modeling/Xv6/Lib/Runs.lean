import Mathlib.Algebra.GroupWithZero.Nat
import Mathlib.Data.List.Induction

/-!
# Runs of a labelled transition system

A system is given by a relation between a state, the label of a step and the
state after it. A run is a list of labels, oldest first, together with the
states it starts and ends in.

What a single step preserves, a run preserves (`Run.invariant`).
-/

namespace Xv6

universe u v

variable {σ : Type u} {ι : Type v}

/-- A run of the system `step`, with the labels of its steps, oldest first. -/
inductive Run (step : σ → ι → σ → Prop) (start : σ) : List ι → σ → Prop where
  | refl : Run step start [] start
  | tail {labels : List ι} {label : ι} {middle final : σ} :
      Run step start labels middle → step middle label final →
        Run step start (labels ++ [label]) final

namespace Run

variable {step : σ → ι → σ → Prop} {start final : σ} {labels : List ι} {label : ι}
  {before after : List ι}

theorem single (one : step start label final) : Run step start [label] final :=
  .tail .refl one

theorem trans {middle : σ} {more : List ι} (first : Run step start labels middle)
    (second : Run step middle more final) : Run step start (labels ++ more) final := by
  induction second with
  | refl => simpa using first
  | tail _ last ih =>
    rw [← List.append_assoc]
    exact ih.tail last

theorem cons {middle : σ} (one : step start label middle) (run : Run step middle labels final) :
    Run step start (label :: labels) final :=
  (single one).trans run

theorem nil_eq (run : Run step start [] final) : start = final := by
  generalize empty : ([] : List ι) = labels at run
  cases run with
  | refl => rfl
  | tail => simp at empty

/-- **Every property that one step keeps holds along a run.** -/
theorem invariant (inv : σ → Prop)
    (preserved : ∀ {s : σ} {label : ι} {t : σ}, inv s → step s label t → inv t)
    (run : Run step start labels final) (initially : inv start) : inv final := by
  induction run with
  | refl => exact initially
  | tail _ last ih => exact preserved ih last

/-- A property of the labels so far and the state they lead to, kept by one
more step, holds at the end of every run. -/
theorem history {inv : List ι → σ → Prop}
    (preserved : ∀ {past : List ι} {s : σ} {label : ι} {t : σ},
      inv past s → step s label t → inv (past ++ [label]) t)
    (run : Run step start labels final) (initially : inv [] start) : inv labels final := by
  induction run with
  | refl => exact initially
  | tail _ last ih => exact preserved ih last

theorem snoc_inv (run : Run step start (labels ++ [label]) final) :
    ∃ middle, Run step start labels middle ∧ step middle label final := by
  generalize shape : labels ++ [label] = all at run
  cases run with
  | refl => simp at shape
  | @tail past last middle _ earlier one =>
    obtain ⟨rfl, rfl⟩ : labels = past ∧ label = last := by
      have := List.append_inj' shape rfl
      exact ⟨this.1, by simpa using this.2⟩
    exact ⟨middle, earlier, one⟩

theorem single_inv (run : Run step start [label] final) : step start label final := by
  have whole : Run step start ([] ++ [label]) final := run
  obtain ⟨middle, none, one⟩ := whole.snoc_inv
  exact none.nil_eq ▸ one

theorem split (run : Run step start (before ++ after) final) :
    ∃ middle, Run step start before middle ∧ Run step middle after final := by
  induction after using List.reverseRecOn generalizing final with
  | nil => exact ⟨final, by simpa using run, .refl⟩
  | append_singleton after label ih =>
    rw [← List.append_assoc] at run
    obtain ⟨middle, earlier, one⟩ := run.snoc_inv
    obtain ⟨state, left, right⟩ := ih earlier
    exact ⟨state, left, right.tail one⟩

theorem cons_inv (run : Run step start (label :: labels) final) :
    ∃ middle, step start label middle ∧ Run step middle labels final := by
  have whole : Run step start ([label] ++ labels) final := run
  obtain ⟨middle, one, rest⟩ := whole.split
  exact ⟨middle, one.single_inv, rest⟩

theorem at_step (run : Run step start (before ++ label :: after) final) :
    ∃ s t, Run step start before s ∧ step s label t ∧ Run step t after final := by
  obtain ⟨s, earlier, rest⟩ := run.split
  obtain ⟨t, one, later⟩ := rest.cons_inv
  exact ⟨s, t, earlier, one, later⟩

/-- Where a step is a function of the state and the label, so is a run. -/
theorem unique {other : σ}
    (functional : ∀ (s : σ) (label : ι) (t u : σ), step s label t → step s label u → t = u)
    (first : Run step start labels final) (second : Run step start labels other) :
    final = other := by
  induction first generalizing other with
  | refl => exact second.nil_eq
  | tail _ one ih =>
    obtain ⟨state, earlier, two⟩ := second.snoc_inv
    exact functional _ _ _ _ (ih earlier ▸ one) two

/-- A run of a system is a run of every system with more steps. -/
theorem mono {wider : σ → ι → σ → Prop} (run : Run step start labels final)
    (included : ∀ {s : σ} {label : ι} {t : σ}, step s label t → wider s label t) :
    Run wider start labels final := by
  induction run with
  | refl => exact .refl
  | tail _ one ih => exact ih.tail (included one)

/-- A run whose labels all have a property is a run of the steps with labels of
that property. -/
theorem restrict {allowed : ι → Prop} (run : Run step start labels final)
    (all : ∀ label ∈ labels, allowed label) :
    Run (fun s label t => step s label t ∧ allowed label) start labels final := by
  induction run with
  | refl => exact .refl
  | tail _ one ih =>
    refine (ih fun label mem => all label (List.mem_append_left _ mem)).tail ⟨one, ?_⟩
    exact all _ (List.mem_append_right _ (List.mem_singleton_self _))

/-- Executing a step function over a list of labels gives a run. -/
theorem of_execute {f : σ → ι → Option σ} (executed : labels.foldlM f start = some final) :
    Run (fun s label t => f s label = some t) start labels final := by
  induction labels generalizing start with
  | nil =>
    cases executed
    exact .refl
  | cons label labels ih =>
    rw [List.foldlM_cons] at executed
    obtain ⟨middle, one, rest⟩ := Option.bind_eq_some_iff.mp executed
    have first : Run (fun s label t => f s label = some t) start [label] middle := .single one
    exact first.trans (ih rest)

end Run

-- The indices of systems with one or two parties: the literals of `Fin 1` and `Fin 2` are
-- then the same terms in every module.
instance neZero_one : NeZero 1 := ⟨by decide⟩

instance neZero_two : NeZero 2 := ⟨by decide⟩

end Xv6
