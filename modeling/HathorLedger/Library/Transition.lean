import Mathlib.Logic.Basic

/-!
# Runs of a transition system

A system takes a step for each input. A guard restricts the inputs that a run may contain in a given
state, so that statements can be made about all runs whose steps satisfy a condition.

## Main definitions

* `Reachable`: the states that are reached by runs whose steps all satisfy a guard.
* `Follows`: the inputs of a list can be taken one after the other under a guard.

## Main results

* `Reachable.invariant`: what holds at the start and is preserved by every step holds in every
  reachable state.
* `Reachable.mono`: a weaker guard reaches more states.
-/

variable {σ ι : Type} {init : σ → Prop} {step : σ → ι → σ} {guard guard' : σ → ι → Prop}

/-- The states that are reached from an initial state by steps that satisfy the guard. -/
inductive Reachable (init : σ → Prop) (step : σ → ι → σ) (guard : σ → ι → Prop) : σ → Prop
  | start {s : σ} (h : init s) : Reachable init step guard s
  | next {s : σ} (i : ι) (h : Reachable init step guard s) (hg : guard s i) :
    Reachable init step guard (step s i)

namespace Reachable

/-- The induction rule for invariants. The step may use that the state is reachable. -/
theorem invariant {I : σ → Prop} (hinit : ∀ s, init s → I s)
    (hstep : ∀ s i, Reachable init step guard s → guard s i → I s → I (step s i)) {s : σ}
    (h : Reachable init step guard s) : I s := by
  induction h with
  | start h => exact hinit _ h
  | next i h hg ih => exact hstep _ i h hg ih

/-- A run whose steps satisfy a guard is a run for every guard that follows from it. -/
theorem mono (hguard : ∀ s i, Reachable init step guard s → guard s i → guard' s i) {s : σ}
    (h : Reachable init step guard s) : Reachable init step guard' s := by
  induction h with
  | start h => exact .start h
  | next i h hg ih => exact .next i ih (hguard _ i h hg)

/-- A run goes on where another one has ended. -/
theorem trans {s s' : σ} (h : Reachable init step guard s)
    (h' : Reachable (· = s) step guard s') : Reachable init step guard s' := by
  induction h' with
  | start h => exact h ▸ ‹_›
  | next i h' hg ih => exact .next i ih hg

end Reachable

/-- Under the guard the inputs can be taken one after the other. -/
def Follows (step : σ → ι → σ) (guard : σ → ι → Prop) : σ → List ι → Prop
  | _, [] => True
  | s, i :: is => guard s i ∧ Follows step guard (step s i) is

instance [∀ s i, Decidable (guard s i)] : ∀ s is, Decidable (Follows step guard s is)
  | _, [] => inferInstanceAs (Decidable True)
  | s, i :: is =>
    have : Decidable (Follows step guard (step s i) is) := instDecidableFollows (step s i) is
    inferInstanceAs (Decidable (guard s i ∧ Follows step guard (step s i) is))

/-- Taking them leads to a reachable state. -/
theorem Reachable.follow {s : σ} (h : Reachable init step guard s) {is : List ι}
    (his : Follows step guard s is) : Reachable init step guard (is.foldl step s) := by
  induction is generalizing s with
  | nil => exact h
  | cons i is ih =>
    obtain ⟨hi, hrest⟩ := his
    exact ih (.next i h hi) hrest

theorem follows_true (s : σ) (is : List ι) : Follows step (fun _ _ => True) s is := by
  induction is generalizing s with
  | nil => exact trivial
  | cons i is ih => exact ⟨trivial, ih _⟩
