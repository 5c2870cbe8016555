/-
Glyphs of any width on a line of columns.

Every column shows one part of a glyph, counted from the glyph's first
column. Drawing a glyph takes the columns it is wide, and blanks the other
columns of the glyphs it cuts. A glyph that lies apart from the drawn one
stays (`draw_apart`); one that overlaps it is blank where it is not drawn
over (`draw_cut`); and whatever happens, a column outside the drawn ones
shows what it did or a blank (`draw_outside`).
-/
import Mathlib.Init

namespace Glyphs

/-- A part of a glyph. -/
structure Column (γ : Type*) where
  glyph : γ
  part : Nat
  deriving DecidableEq, Repr

abbrev Line (γ : Type*) := Nat → Column γ

variable {γ : Type*} (width : γ → Nat) (blank : γ)

/-- Drawing `w` columns from `x` on cuts the glyph in a column. -/
def Cuts (line : Line γ) (x w column : Nat) : Prop :=
  column - (line column).part < x + w ∧
    x < column - (line column).part + width (line column).glyph

instance (line : Line γ) (x w column : Nat) :
    Decidable (Cuts width line x w column) :=
  inferInstanceAs (Decidable (_ ∧ _))

/-- Draw a glyph at `x`. -/
def draw (line : Line γ) (x : Nat) (g : γ) : Line γ := fun column =>
  if x ≤ column ∧ column < x + width g then ⟨g, column - x⟩
  else if Cuts width line x (width g) column then ⟨blank, 0⟩
  else line column

variable {width blank} {line : Line γ} {x : Nat} {g : γ}

/-- The drawn columns. -/
theorem draw_drawn {k : Nat} (hk : k < width g) :
    draw width blank line x g (x + k) = ⟨g, k⟩ := by
  unfold draw
  rw [if_pos (by omega), Nat.add_sub_cancel_left]

/-- The other columns stay or are blanked. -/
theorem draw_outside {column : Nat}
    (h : ¬ (x ≤ column ∧ column < x + width g)) :
    draw width blank line x g column = line column ∨
      draw width blank line x g column = ⟨blank, 0⟩ := by
  unfold draw
  rw [if_neg h]
  split
  · exact .inr rfl
  · exact .inl rfl

/-- A glyph that lies apart stays. -/
theorem draw_apart {s k : Nat} {c : γ} (hline : line (s + k) = ⟨c, k⟩)
    (hk : k < width c) (h : s + width c ≤ x ∨ x + width g ≤ s) :
    draw width blank line x g (s + k) = ⟨c, k⟩ := by
  unfold draw
  rw [if_neg (by omega), if_neg, hline]
  unfold Cuts
  rw [hline, Nat.add_sub_cancel]
  dsimp only
  omega

/-- A glyph that is cut is blank where it is not drawn over. -/
theorem draw_cut {s k : Nat} {c : γ} (hline : line (s + k) = ⟨c, k⟩)
    (h : s < x + width g ∧ x < s + width c)
    (houtside : ¬ (x ≤ s + k ∧ s + k < x + width g)) :
    draw width blank line x g (s + k) = ⟨blank, 0⟩ := by
  unfold draw
  rw [if_neg houtside, if_pos]
  unfold Cuts
  rw [hline, Nat.add_sub_cancel]
  exact h

end Glyphs
