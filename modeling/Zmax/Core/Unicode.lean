/-
What the program asks of Unicode: which chars are alphanumeric, and
where the grapheme cluster boundaries of a text lie. Both tables live
in third-party code, so they are a parameter of the model; the
functions under zmax-core/src/chars.rs and zmax-core/src/graphemes.rs
that consult them are modelled here.

A grapheme cursor steps to the nearest boundary on the asked side and
reports the end of the text when there is none left, so a step forward
never leaves the text and a step back never goes below zero. Starting
past the end of the text is an out-of-bounds index.
-/
import Zmax.Basic
import Zmax.Lib.Clusters

namespace Zmax

/-- The Unicode tables the program reads. -/
structure Unicode where
  /-- `char::is_alphanumeric` -/
  isAlphanumeric : Char → Bool
  /-- Whether a grapheme cluster boundary lies before this char index. -/
  isGraphemeBoundary : Rope → Nat → Bool

/-- The tables on ASCII text, for running the model. -/
def Unicode.ascii : Unicode := ⟨Char.isAlphanum, fun _ _ => true⟩

variable (U : Unicode)

/-- `chars::char_is_word` -/
def charIsWord (ch : Char) : Bool :=
  U.isAlphanumeric ch || ch == '_'

-- == graphemes

/-- `RopeSliceExt::graphemes` -/
def graphemes (text : Rope) : List Tendril :=
  Clusters.clusters U.isGraphemeBoundary text

/-- `graphemes::next_grapheme_boundary`: the first boundary after
`charIdx`, or the end of the text. -/
def nextGraphemeBoundary (slice : Rope) (charIdx : Nat) : Result Nat :=
  if charIdx ≤ slice.length then
    .ok (((List.range' (charIdx + 1) (slice.length - charIdx)).find?
      (U.isGraphemeBoundary slice)).getD slice.length)
  else .error .outOfBounds

/-- `graphemes::prev_grapheme_boundary`: the last boundary before
`charIdx`, or the start of the text. -/
def prevGraphemeBoundary (slice : Rope) (charIdx : Nat) : Result Nat :=
  if charIdx ≤ slice.length then
    .ok (((List.range charIdx).reverse.find?
      (U.isGraphemeBoundary slice)).getD 0)
  else .error .outOfBounds

/-- `graphemes::ensure_grapheme_boundary_next` -/
def ensureGraphemeBoundaryNext (slice : Rope) (charIdx : Nat) :
    Result Nat :=
  if charIdx = 0 then .ok charIdx
  else nextGraphemeBoundary U slice (charIdx - 1)

/-- `graphemes::ensure_grapheme_boundary_prev` -/
def ensureGraphemeBoundaryPrev (slice : Rope) (charIdx : Nat) :
    Result Nat :=
  if charIdx = slice.length then .ok charIdx
  else prevGraphemeBoundary U slice (charIdx + 1)

variable {U}

variable {i j : Nat} {slice : Rope}

/-- A step forward stays inside the text. -/
theorem nextGraphemeBoundary_le (h : nextGraphemeBoundary U slice i = .ok j) :
    j ≤ slice.length := by
  unfold nextGraphemeBoundary at h
  split at h
  case isFalse => cases h
  case isTrue hi =>
    injection h with h
    subst h
    cases hf : (List.range' (i + 1) (slice.length - i)).find?
        (U.isGraphemeBoundary slice) with
    | none => simp
    | some k =>
        have hk := List.mem_of_find?_eq_some hf
        rw [List.mem_range'_1] at hk
        simp only [Option.getD_some]
        omega

/-- A step back lands below where it started, or at the start of the
text. -/
theorem prevGraphemeBoundary_le (h : prevGraphemeBoundary U slice i = .ok j) :
    j ≤ slice.length ∧ (0 < i → j < i) := by
  unfold prevGraphemeBoundary at h
  split at h
  case isFalse => cases h
  case isTrue hi =>
    injection h with h
    subst h
    cases hf : (List.range i).reverse.find? (U.isGraphemeBoundary slice) with
    | none => simp
    | some k =>
        have hk := List.mem_of_find?_eq_some hf
        rw [List.mem_reverse, List.mem_range] at hk
        simp only [Option.getD_some]
        omega

/-- Aligning forward stays inside the text. -/
theorem ensureGraphemeBoundaryNext_le
    (h : ensureGraphemeBoundaryNext U slice i = .ok j) : j ≤ slice.length := by
  unfold ensureGraphemeBoundaryNext at h
  split at h
  case isTrue h0 =>
    injection h with h
    omega
  case isFalse => exact nextGraphemeBoundary_le h

/-- Aligning backward stays inside the text. -/
theorem ensureGraphemeBoundaryPrev_le
    (h : ensureGraphemeBoundaryPrev U slice i = .ok j) : j ≤ slice.length := by
  unfold ensureGraphemeBoundaryPrev at h
  split at h
  case isTrue h0 =>
    injection h with h
    omega
  case isFalse => exact (prevGraphemeBoundary_le h).1

/-- Every index of the text can be stepped forward from. -/
theorem nextGraphemeBoundary_ok {slice : Rope} {i : Nat}
    (h : i ≤ slice.length) :
    ∃ j, nextGraphemeBoundary U slice i = .ok j := by
  unfold nextGraphemeBoundary
  rw [if_pos h]
  exact ⟨_, rfl⟩

/-- Every index of the text can be aligned forward. -/
theorem ensureGraphemeBoundaryNext_ok {slice : Rope} {i : Nat}
    (h : i ≤ slice.length) :
    ∃ j, ensureGraphemeBoundaryNext U slice i = .ok j := by
  unfold ensureGraphemeBoundaryNext
  split
  · exact ⟨_, rfl⟩
  · exact nextGraphemeBoundary_ok (by omega)

/-- Every index of the text can be aligned backward. -/
theorem ensureGraphemeBoundaryPrev_ok {slice : Rope} {i : Nat}
    (h : i ≤ slice.length) :
    ∃ j, ensureGraphemeBoundaryPrev U slice i = .ok j := by
  unfold ensureGraphemeBoundaryPrev prevGraphemeBoundary
  split
  · exact ⟨_, rfl⟩
  · rw [if_pos (by omega)]
    exact ⟨_, rfl⟩

end Zmax
