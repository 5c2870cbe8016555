/-
Runs of a guarded, possibly failing step function, and the induction
that turns what one step preserves into what every run preserves.

`exec s a` is what action `a` does in state `s`; it may fail, and a
failed step ends the run. `guard s a` is what has to hold for the step
to be taken at all: the callers' side of the contract, or a condition
under which a law is claimed.
-/
import Mathlib.Init

namespace Reach

variable {σ α ε : Type*}

/-- The states a run from `s₀` can be in, every step taken with its
guard holding and without failing. -/
inductive Reaches (guard : σ → α → Prop) (exec : σ → α → Except ε σ)
    (s₀ : σ) : σ → Prop
  | start : Reaches guard exec s₀ s₀
  | step {s s' : σ} (a : α) :
      Reaches guard exec s₀ s → guard s a → exec s a = .ok s' →
      Reaches guard exec s₀ s'

variable {guard : σ → α → Prop} {exec : σ → α → Except ε σ} {s₀ : σ}

/-- The invariant rule: what holds at the start and survives every
guarded step holds throughout the run. -/
theorem Reaches.invariant {I : σ → Prop} (hstart : I s₀)
    (hstep : ∀ s a s', I s → guard s a → exec s a = .ok s' → I s')
    {s : σ} (hr : Reaches guard exec s₀ s) : I s := by
  induction hr with
  | start => exact hstart
  | step a _ hg hx ih => exact hstep _ a _ ih hg hx

end Reach
