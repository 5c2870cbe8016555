/-
Two machines that take every step alike: both fail, and the same way, or
both succeed with related values.

`Alike R` lifts a relation between values to computations that may fail.
It goes through sequencing and through a computation over two lists in
step, and from one step of a machine to all of its runs.
-/
import Mathlib.Data.List.Forall2

namespace Lockstep

universe u

variable {ε α β γ δ : Type u}

/-- The same failure, or values related by `R`. -/
inductive Alike (R : α → β → Prop) : Except ε α → Except ε β → Prop
  | ok {a : α} {b : β} : R a b → Alike R (.ok a) (.ok b)
  | error (e : ε) : Alike R (.error e) (.error e)

variable {R : α → β → Prop} {S : γ → δ → Prop}
  {x : Except ε α} {y : Except ε β}

theorem Alike.imp {R' : α → β → Prop} (h : Alike R x y)
    (hR : ∀ a b, R a b → R' a b) : Alike R' x y := by
  cases h with
  | ok hab => exact .ok (hR _ _ hab)
  | error e => exact .error e

theorem Alike.refl {R : α → α → Prop} (hR : ∀ a, R a a)
    (x : Except ε α) : Alike R x x := by
  cases x with
  | ok a => exact .ok (hR a)
  | error e => exact .error e

/-- Alike up to equality is the same. -/
theorem Alike.eq {x y : Except ε α} (h : Alike (· = ·) x y) : x = y := by
  cases h with
  | ok hab => rw [hab]
  | error e => rfl

theorem Alike.bind {f : α → Except ε γ} {g : β → Except ε δ}
    (h : Alike R x y) (hfg : ∀ a b, R a b → Alike S (f a) (g b)) :
    Alike S (x >>= f) (y >>= g) := by
  cases h with
  | ok hab => exact hfg _ _ hab
  | error e => exact .error e

/-- Alike behind the same computation. -/
theorem Alike.bind_same {f : α → Except ε γ} {g : α → Except ε δ}
    (hfg : ∀ a, Alike S (f a) (g a)) : Alike S (x >>= f) (x >>= g) := by
  cases x with
  | ok a => exact hfg a
  | error e => exact .error e

/-- Over two lists in step. -/
theorem Alike.mapM {f : α → Except ε γ} {g : β → Except ε δ}
    {xs : List α} {ys : List β} (h : List.Forall₂ R xs ys)
    (hfg : ∀ a b, R a b → Alike S (f a) (g b)) :
    Alike (List.Forall₂ S) (xs.mapM f) (ys.mapM g) := by
  induction h with
  | nil => exact .ok .nil
  | cons hab _ ih =>
      rw [List.mapM_cons, List.mapM_cons]
      refine (hfg _ _ hab).bind fun c d hcd => ih.bind fun cs ds hs => ?_
      exact .ok (.cons hcd hs)

-- == runs

variable {σ τ : Type u}

/-- A run: what every step hands out, and the state then. -/
def run (step : σ → α → Except ε (γ × σ)) :
    σ → List α → Except ε (List γ × σ)
  | s, [] => .ok ([], s)
  | s, a :: as => do
      let (c, s) ← step s a
      let (cs, s) ← run step s as
      return (c :: cs, s)

/-- Machines whose steps are alike in related states have runs that are
alike from related states. -/
theorem run_alike {Q : σ → τ → Prop} {step : σ → α → Except ε (γ × σ)}
    {step' : τ → α → Except ε (δ × τ)} {guard : α → Prop}
    (hstep : ∀ s t a, Q s t → guard a →
      Alike (fun o o' => S o.1 o'.1 ∧ Q o.2 o'.2) (step s a) (step' t a)) :
    ∀ (as : List α) (s : σ) (t : τ), Q s t → (∀ a ∈ as, guard a) →
      Alike (fun o o' => List.Forall₂ S o.1 o'.1 ∧ Q o.2 o'.2)
        (run step s as) (run step' t as) := by
  intro as
  induction as with
  | nil =>
      intro s t hst _
      exact .ok ⟨.nil, hst⟩
  | cons a as ih =>
      intro s t hst hguard
      obtain ⟨ha, has⟩ := List.forall_mem_cons.mp hguard
      refine (hstep s t a hst ha).bind ?_
      rintro ⟨c, s'⟩ ⟨d, t'⟩ ⟨hcd, hst'⟩
      refine (ih s' t' hst' has).bind ?_
      rintro ⟨cs, s''⟩ ⟨ds, t''⟩ ⟨hs, hst''⟩
      exact .ok ⟨.cons hcd hs, hst''⟩

end Lockstep
