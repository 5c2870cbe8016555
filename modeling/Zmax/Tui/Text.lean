/-
zmax-tui/src/text.rs: styled text.

Grapheme clusters and display widths come from third-party tables, so they
are a parameter (`Segmenter`). A style is what it makes of a cell's style.
-/
import Mathlib.Algebra.Ring.Nat
import Zmax.Basic

namespace Zmax

/-- What the terminal code asks of Unicode. -/
structure Segmenter where
  /-- `graphemes(true)`: the grapheme clusters of a text. -/
  graphemes : List Char → List (List Char)
  /-- `UnicodeWidthStr::width` -/
  width : List Char → Nat

/-- Every char is a cluster, one column wide. -/
def Segmenter.ascii : Segmenter := ⟨fun s => s.map fun c => [c], List.length⟩

/-- Clusters are not empty, and a text is as wide as they are together. -/
structure Segmenter.Lawful (G : Segmenter) : Prop where
  ne_nil : ∀ s, ∀ g ∈ G.graphemes s, g ≠ []
  width_eq : ∀ s, G.width s = ((G.graphemes s).map G.width).sum

theorem Segmenter.lawful_ascii : Segmenter.ascii.Lawful where
  ne_nil := fun s => List.forall_mem_map.mpr fun c _ => List.cons_ne_nil c []
  width_eq := by
    intro s
    unfold Segmenter.ascii
    rw [List.map_map]
    induction s with
    | nil => rfl
    | cons c s ih =>
        rw [List.map_cons, List.sum_cons, ← ih]
        exact Nat.add_comm s.length 1

namespace Tui

variable {σ : Type}

/-- A text of one style. -/
structure Span (σ : Type) where
  content : List Char
  style : σ → σ

/-- `Spans`: a line of them. -/
abbrev Spans (σ : Type) := List (Span σ)

/-- `Spans::width` -/
def spansWidth (G : Segmenter) (spans : Spans σ) : Nat :=
  (spans.map fun span => G.width span.content).sum

end Tui

/-- Clusters with the byte offsets where they start. -/
def indicesFrom : Nat → List (List Char) → List (Nat × List Char)
  | _, [] => []
  | offset, g :: gs =>
      (offset, g) :: indicesFrom (offset + (g.map Char.utf8Size).sum) gs

/-- `grapheme_indices(true)` -/
def Segmenter.graphemeIndices (G : Segmenter) (s : List Char) :
    List (Nat × List Char) := indicesFrom 0 (G.graphemes s)

attribute [grind =] indicesFrom

end Zmax
