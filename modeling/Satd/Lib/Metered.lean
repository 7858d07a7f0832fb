import Mathlib.Tactic.Linarith

/-!
# Metered computations

A computation that pays for what it does from a stock of fuel kept in its state,
and is told by a flag when the stock is gone. `Triple pre run value work post`
says what such a computation does from every state that satisfies `pre` and has
fuel: with more fuel than `work` it answers `value`, has paid exactly `work` and
ends in a state that satisfies `post`; with no more than that the flag is set.
-/

namespace Metered

/-- Where the state keeps its fuel, and the flag that it is gone. -/
structure Meter (σ : Type) where
  fuel : σ → Int
  exhausted : σ → Bool

variable {σ α β : Type} (meter : Meter σ)

/-- There is fuel and the flag is not set. -/
def Meter.Live (state : σ) : Prop := meter.exhausted state = false ∧ 0 < meter.fuel state

/-- The flag is never taken back. -/
def Meter.Sticky (run : StateM σ α) : Prop :=
  ∀ state, meter.exhausted state = true → meter.exhausted (run state).2 = true

structure Meter.Triple (pre : σ → Prop) (run : StateM σ α) (value : α) (work : Nat)
    (post : σ → Prop) : Prop where
  finishes : ∀ state, meter.Live state → pre state → (work : Int) < meter.fuel state →
    (run state).1 = value ∧ meter.Live (run state).2 ∧ post (run state).2 ∧
      meter.fuel (run state).2 = meter.fuel state - work
  exhausts : ∀ state, meter.Live state → pre state → meter.fuel state ≤ work →
    meter.exhausted (run state).2 = true

variable {meter} {pre mid post : σ → Prop}

/-! ## The flag -/

theorem Meter.Sticky.pure (value : α) : meter.Sticky (pure value : StateM σ α) :=
  fun _ isExhausted => isExhausted

variable {run : StateM σ α} {next : α → StateM σ β}

theorem Meter.Sticky.bind (first : meter.Sticky run) (second : ∀ value, meter.Sticky (next value)) :
    meter.Sticky (run >>= next) :=
  fun state isExhausted => second _ _ (first state isExhausted)

theorem Meter.Sticky.ite {condition : Prop} [Decidable condition] {yes no : StateM σ α}
    (first : meter.Sticky yes) (second : meter.Sticky no) :
    meter.Sticky (if condition then yes else no) := by
  split
  · exact first
  · exact second

/-! ## Composition -/

namespace Meter.Triple

/-- An answer that costs nothing. -/
theorem pure (value : α) : meter.Triple pre (pure value) value 0 pre where
  finishes state live holds _ := ⟨rfl, live, holds, (Int.sub_zero _).symm⟩
  exhausts state live _ spent := by
    have positive := live.2
    omega

variable {value : α} {work : Nat}

variable {result : β}

/-- The second computation runs on what the first left; if the first used up the
fuel, the flag stays. -/
theorem bind {more : Nat} (first : meter.Triple pre run value work mid)
    (second : meter.Triple mid (next value) result more post)
    (sticky : ∀ other, meter.Sticky (next other)) :
    meter.Triple pre (run >>= next) result (work + more) post where
  finishes state live holds enough := by
    obtain ⟨answer, liveMid, holdsMid, left⟩ := first.finishes state live holds (by omega)
    have follows : (run >>= next) state = next value (run state).2 := by
      rw [← answer]
      rfl
    obtain ⟨result, liveEnd, holdsEnd, leftEnd⟩ :=
      second.finishes (run state).2 liveMid holdsMid (by omega)
    rw [follows]
    exact ⟨result, liveEnd, holdsEnd, by omega⟩
  exhausts state live holds spent := by
    rcases lt_or_ge (work : Int) (meter.fuel state) with enough | short
    · obtain ⟨answer, liveMid, holdsMid, left⟩ := first.finishes state live holds enough
      have follows : (run >>= next) state = next value (run state).2 := by
        rw [← answer]
        rfl
      rw [follows]
      exact second.exhausts (run state).2 liveMid holdsMid (by omega)
    · exact sticky _ _ (first.exhausts state live holds short)

/-- A second computation that costs nothing. -/
theorem bind_free (first : meter.Triple pre run value work mid)
    (second : meter.Triple mid (next value) result 0 post)
    (sticky : ∀ other, meter.Sticky (next other)) :
    meter.Triple pre (run >>= next) result work post := by
  simpa using bind first second sticky

/-- A change of the state that the meter does not see. -/
theorem modify {change : σ → σ} (fuel : ∀ state, meter.fuel (change state) = meter.fuel state)
    (flag : ∀ state, meter.exhausted (change state) = meter.exhausted state)
    (keeps : ∀ state, pre state → post (change state)) :
    meter.Triple pre (modify change) () 0 post where
  finishes state live holds _ := by
    refine ⟨rfl, ⟨(flag state).trans live.1, ?_⟩, keeps state holds, ?_⟩
    · exact (fuel state).symm ▸ live.2
    · exact (fuel state).trans (Int.sub_zero _).symm
  exhausts state live _ spent := by
    have positive := live.2
    omega

section

variable (triple : meter.Triple pre run value work post)
include triple

/-- Only the states that satisfy the assumption matter. -/
theorem congr {other : StateM σ α} (same : ∀ state, pre state → other state = run state) :
    meter.Triple pre other value work post where
  finishes state live holds enough := by
    rw [same state holds]
    exact triple.finishes state live holds enough
  exhausts state live holds spent := by
    rw [same state holds]
    exact triple.exhausts state live holds spent

/-- Stronger assumptions, weaker conclusions. -/
theorem consequence {before after : σ → Prop}
    (assumed : ∀ state, before state → pre state) (concluded : ∀ state, post state → after state) :
    meter.Triple before run value work after where
  finishes state live holds enough := by
    obtain ⟨answer, liveEnd, holdsEnd, left⟩ :=
      triple.finishes state live (assumed state holds) enough
    exact ⟨answer, liveEnd, concluded _ holdsEnd, left⟩
  exhausts state live holds spent := triple.exhausts state live (assumed state holds) spent

/-- A run that did not use up the fuel had more than it needed. -/
theorem enough_of_live {state : σ}
    (live : meter.Live state) (holds : pre state) (ends : meter.exhausted (run state).2 = false) :
    (work : Int) < meter.fuel state := by
  by_contra short
  have isExhausted := triple.exhausts state live holds (by omega)
  rw [ends] at isExhausted
  cases isExhausted

end

end Meter.Triple

end Metered
