/-
Differences between two lists, as hunks: a range of the old list, and the
range of the new list that stands in its place.

# Sound hunks

`Between` says what makes hunks a difference: they go forward in both
lists, do not overlap, and what lies between them is the same on both
sides. A `Differ` is sound when it gives such hunks for every two lists.

Whoever writes the new list out along the hunks, with the old list's items
between them, has after each hunk written what `List.take` gives
(`take_append_range`), and at the end all of it.
-/
import Mathlib.Data.List.Basic

namespace Hunks

/-- A range of a list, from an item up to another. -/
structure Extent where
  start : Nat
  stop : Nat
  deriving DecidableEq, Repr

def Extent.len (s : Extent) : Nat := s.stop - s.start

/-- A range of the old list, and what is there in the new one. -/
structure Hunk where
  before : Extent
  after : Extent
  deriving DecidableEq, Repr

variable {α : Type*}

/-- The items of a range. -/
def Extent.of (s : Extent) (xs : List α) : List α := (xs.drop s.start).take s.len

/-- The range is in the list, and not before an item. -/
structure Extent.Fits (s : Extent) (pos : Nat) (xs : List α) : Prop where
  pos_le : pos ≤ s.start
  le : s.start ≤ s.stop
  le_length : s.stop ≤ xs.length

/-- Hunks from an item of either list on: in order and apart, with the same
items on both sides around them. -/
def Between (xs ys : List α) : List Hunk → Nat → Nat → Prop
  | [], p, q => xs.drop p = ys.drop q
  | h :: hunks, p, q =>
      h.before.Fits p xs ∧ h.after.Fits q ys ∧
        (Extent.mk p h.before.start).of xs = (Extent.mk q h.after.start).of ys ∧
        Between xs ys hunks h.before.stop h.after.stop

/-- Two lists, compared. -/
abbrev Differ (α : Type*) := List α → List α → List Hunk

def Differ.Sound (d : Differ α) : Prop :=
  ∀ xs ys, Between xs ys (d xs ys) 0 0

/-- All of the old list for all of the new one, unless they are equal. -/
def coarse [DecidableEq α] : Differ α := fun xs ys =>
  if xs = ys then [] else [⟨⟨0, xs.length⟩, ⟨0, ys.length⟩⟩]

attribute [grind =] Between

theorem coarse_sound [DecidableEq α] : Differ.Sound (α := α) coarse := by
  intro xs ys
  unfold coarse
  by_cases h : xs = ys
  · rw [if_pos h]
    exact congrArg _ h
  · rw [if_neg h]
    exact ⟨⟨Nat.le_refl _, Nat.zero_le _, Nat.le_refl _⟩,
      ⟨Nat.le_refl _, Nat.zero_le _, Nat.le_refl _⟩, rfl,
      by simp [Between]⟩

-- == going forward

/-- Further along a list. -/
theorem take_append_range {xs : List α} {p q : Nat} (h : p ≤ q) :
    xs.take p ++ (Extent.mk p q).of xs = xs.take q := by
  simp only [Extent.of, Extent.len]
  rw [← List.take_add, Nat.add_sub_cancel' h]

theorem Extent.Fits.take_append {s : Extent} {p : Nat} {xs : List α}
    (h : s.Fits p xs) : xs.take s.start ++ s.of xs = xs.take s.stop :=
  take_append_range h.le

end Hunks
