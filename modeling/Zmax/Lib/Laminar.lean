/-
Laminar families: closed intervals any two of which are nested or
disjoint.

`Family.hides` is what such a family is good for: an interval that
reaches past the start of another one reaches over all of it.
`Compatible.image` says what a monotone map may break. Nested intervals
stay nested; disjoint ones may come to share an end point, and then they
are neither (`not_compatible_of_touch`).
-/
import Mathlib.Order.Lattice

namespace Laminar

variable {α : Type*} [LinearOrder α]

/-- `r` reaches over all of `s`. -/
def Holds (r s : α × α) : Prop := r.1 ≤ s.1 ∧ s.2 ≤ r.2

/-- The intervals share no point. -/
def Clear (r s : α × α) : Prop := r.2 < s.1 ∨ s.2 < r.1

/-- Nested or disjoint. -/
def Compatible (r s : α × α) : Prop := Holds r s ∨ Holds s r ∨ Clear r s

/-- Any two members are nested or disjoint. -/
def Family (l : List (α × α)) : Prop :=
  ∀ r ∈ l, ∀ s ∈ l, Compatible r s

instance (r s : α × α) : Decidable (Holds r s) :=
  inferInstanceAs (Decidable (_ ∧ _))

instance (r s : α × α) : Decidable (Clear r s) :=
  inferInstanceAs (Decidable (_ ∨ _))

instance (r s : α × α) : Decidable (Compatible r s) :=
  inferInstanceAs (Decidable (_ ∨ _ ∨ _))

instance (l : List (α × α)) : Decidable (Family l) :=
  inferInstanceAs (Decidable (∀ r ∈ l, ∀ s ∈ l, Compatible r s))

variable {r s : α × α} {l l' : List (α × α)}

theorem Holds.refl (r : α × α) : Holds r r := ⟨le_rfl, le_rfl⟩

theorem Compatible.refl (r : α × α) : Compatible r r := .inl (.refl r)

theorem Compatible.symm (h : Compatible r s) : Compatible s r := by
  rcases h with h | h | h
  · exact .inr (.inl h)
  · exact .inl h
  · exact .inr (.inr h.symm)

-- == families

/-- Members may be left out. -/
theorem Family.mono (h : Family l) (hsub : ∀ r ∈ l', r ∈ l) :
    Family l' := fun r hr s hs => h r (hsub r hr) s (hsub s hs)

/-- A member may be added that fits all the others. -/
theorem Family.insert (h : Family l) (hr : ∀ s ∈ l, Compatible s r)
    (hsub : ∀ s ∈ l', s = r ∨ s ∈ l) : Family l' := by
  intro s hs t ht
  rcases hsub s hs with rfl | hs
  · rcases hsub t ht with rfl | ht
    · exact .refl _
    · exact (hr t ht).symm
  · rcases hsub t ht with rfl | ht
    · exact hr s hs
    · exact h s hs t ht

/-- A member that reaches past the start of another one reaches over all
of it. -/
theorem Family.hides (h : Family l) (hr : r ∈ l) (hs : s ∈ l)
    (hlt : s.1 < r.1) (hle : r.1 ≤ s.2) : Holds s r := by
  rcases h r hr s hs with hin | hin | hin | hin
  · exact absurd hin.1 (not_le.mpr hlt)
  · exact hin
  · -- an interval that ends in front of its own start
    exact ⟨hlt.le, (hin.trans hlt).le.trans hle⟩
  · exact absurd hin (not_lt.mpr hle)

-- == monotone maps

/-- A monotone map keeps two intervals nested, or disjoint if it keeps
the nearer ends apart. -/
theorem Compatible.image {r' s' : α × α} (h : Compatible r s)
    (h₁ : r.1 ≤ s.1 → r'.1 ≤ s'.1) (h₂ : s.2 ≤ r.2 → s'.2 ≤ r'.2)
    (h₃ : s.1 ≤ r.1 → s'.1 ≤ r'.1) (h₄ : r.2 ≤ s.2 → r'.2 ≤ s'.2)
    (h₅ : r.2 < s.1 → r'.2 < s'.1) (h₆ : s.2 < r.1 → s'.2 < r'.1) :
    Compatible r' s' := by
  rcases h with h | h | h | h
  · exact .inl ⟨h₁ h.1, h₂ h.2⟩
  · exact .inr (.inl ⟨h₃ h.1, h₄ h.2⟩)
  · exact .inr (.inr (.inl (h₅ h)))
  · exact .inr (.inr (.inr (h₆ h)))

/-- Two intervals that share only an end point do not fit. -/
theorem not_compatible_of_touch (hr : r.1 < r.2) (hs : s.1 < s.2)
    (h : r.2 = s.1) : ¬ Compatible r s := by
  rintro (h' | h' | h' | h')
  · exact absurd h'.2 (not_le.mpr (h ▸ hs))
  · exact absurd h'.1 (not_le.mpr (h ▸ hr))
  · exact absurd h h'.ne
  · exact absurd h' (not_lt.mpr ((hr.trans_eq h).trans hs).le)

end Laminar
