import Mathlib.Data.List.Basic

/-!
# Runs of a step function

A step function that may fail, applied to the calls of a list one after another.
What every step keeps, every run keeps; a step that always succeeds makes every
run succeed.

A step function that never fails has runs of its own: a property may hold in every state
of such a run, and a condition may hold at every step of it.
-/

namespace Run

open List

universe u v

variable {σ : Type u} {γ : Type v} {step : σ → γ → Option σ} {keeps : σ → Prop}

/-- If every step from a kept state succeeds and keeps, so does every run. -/
theorem foldlM_succeeds (always : ∀ state, keeps state → ∀ call,
      ∃ next, step state call = some next ∧ keeps next) (calls : List γ) {start : σ}
    (initial : keeps start) : ∃ final, calls.foldlM step start = some final ∧ keeps final := by
  induction calls generalizing start with
  | nil => exact ⟨start, rfl, initial⟩
  | cons call rest ih =>
    obtain ⟨next, result, kept⟩ := always start initial call
    obtain ⟨final, resultFinal, keptFinal⟩ := ih kept
    refine ⟨final, ?_, keptFinal⟩
    rw [foldlM_cons, result]
    exact resultFinal

section Total

variable (step : σ → γ → σ)

/-- The property holds in every state of the run, the first one included. -/
def Throughout (property : σ → Prop) : σ → List γ → Prop
  | state, [] => property state
  | state, call :: rest => property state ∧ Throughout property (step state call) rest

/-- The condition holds at every step of the run. -/
def EachStep (condition : σ → γ → Prop) : σ → List γ → Prop
  | _, [] => True
  | state, call :: rest => condition state call ∧ EachStep condition (step state call) rest

instance instDecidableEachStep (condition : σ → γ → Prop) [∀ state call,
  Decidable (condition state call)] :
    (state : σ) → (calls : List γ) → Decidable (EachStep step condition state calls)
  | _, [] => inferInstanceAs (Decidable True)
  | state, call :: rest =>
    have := instDecidableEachStep condition (step state call) rest
    inferInstanceAs (Decidable (_ ∧ _))

variable {step}

variable {property : σ → Prop} {calls : List γ} {state : σ} {condition : σ → γ → Prop}

theorem Throughout.imp {weaker : σ → Prop} (implies : ∀ state, property state → weaker state)
    (holds : Throughout step property state calls) :
    Throughout step weaker state calls := by
  induction calls generalizing state with
  | nil => exact implies state holds
  | cons call rest ih =>
    exact ⟨implies state holds.1, ih holds.2⟩

/-- What every step from a kept state does, each step of a run does. -/
theorem eachStep_of_kept
    (keep : ∀ state, property state → ∀ call ∈ calls, property (step state call))
    (does : ∀ state, property state → ∀ call ∈ calls, condition state call)
    (initial : property state) : EachStep step condition state calls := by
  induction calls generalizing state with
  | nil => trivial
  | cons call rest ih =>
    refine ⟨does state initial call mem_cons_self, ih ?_ ?_ ?_⟩
    · exact fun state kept other later => keep state kept other (mem_cons_of_mem _ later)
    · exact fun state kept other later => does state kept other (mem_cons_of_mem _ later)
    · exact keep state initial call mem_cons_self

/-- What every step keeps under a condition holds throughout a run whose steps all meet it. -/
theorem throughout_of_eachStep
    (keep : ∀ state, property state → ∀ call ∈ calls, condition state call →
      property (step state call)) (initial : property state)
    (meets : EachStep step condition state calls) : Throughout step property state calls := by
  induction calls generalizing state with
  | nil => exact initial
  | cons call rest ih =>
    exact ⟨initial, ih
      (fun state kept other later => keep state kept other (mem_cons_of_mem _ later))
      (keep state initial call mem_cons_self meets.1) meets.2⟩

/-- What every step keeps holds throughout. -/
theorem throughout_of_kept
    (keep : ∀ state, property state → ∀ call ∈ calls, property (step state call))
    (initial : property state) : Throughout step property state calls :=
  throughout_of_eachStep (fun state kept call member _ => keep state kept call member) initial
    (eachStep_of_kept keep (fun _ _ _ _ => trivial) initial)

end Total

end Run
