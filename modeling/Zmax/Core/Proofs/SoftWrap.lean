/-
The visual rows of a wrapped line, and the moves between them.

A position lies in the row that starts last before it (`At`), so every
position has one row and one column, and the source finds them
(`visualRowCol_eq`). A move up stops at the last char of the row above. A move
down is followed as far as the row below has the column, or is the last one,
where a position behind the last char is the end of the line.
-/
import Zmax.Core.PowerEdit

namespace Zmax.PowerEdit

-- == rows

/-- Where a row ends: where the next one begins, or at the end of the line. -/
def rowEnd (offsets : List Nat) (total row : Nat) : Nat :=
  offsets[row + 1]?.getD total

/-- How long a row is. -/
def rowLength (offsets : List Nat) (total row : Nat) : Nat :=
  rowEnd offsets total row - offsets[row]?.getD total

/-- The rows of a line, cut at a width. -/
structure Wrapped (offsets : List Nat) (total width : Nat) : Prop where
  first : offsets.head? = some 0
  increasing : offsets.Pairwise (· < ·)
  rows : ∀ row start, offsets[row]? = some start →
    start ≤ rowEnd offsets total row ∧
      rowEnd offsets total row ≤ start + width

/-- A position and the row and the column where it is. -/
def At (offsets : List Nat) (pos row col : Nat) : Prop :=
  ∃ start, offsets[row]? = some start ∧ pos = start + col ∧
    ∀ next, offsets[row + 1]? = some next → pos < next

/-- Rows from `start` on, behind the ones before. -/
def RowsFrom (total width : Nat) : Nat → List Nat → Prop
  | start, [] => start ≤ total ∧ total ≤ start + width
  | start, next :: offsets =>
      start < next ∧ next ≤ start + width ∧ RowsFrom total width next offsets

variable {offsets : List Nat} {total width start pos row col : Nat}

theorem RowsFrom.lt (h : RowsFrom total width start offsets) :
    ∀ next ∈ offsets, start < next := by
  induction offsets generalizing start with
  | nil => exact fun next hnext => absurd hnext List.not_mem_nil
  | cons first offsets ih =>
      obtain ⟨hlt, -, hrest⟩ := h
      intro next hnext
      rcases List.mem_cons.mp hnext with rfl | hnext
      · exact hlt
      · exact Nat.lt_trans hlt (ih hrest next hnext)

theorem RowsFrom.increasing (h : RowsFrom total width start offsets) :
    (start :: offsets).Pairwise (· < ·) := by
  induction offsets generalizing start with
  | nil => exact List.pairwise_singleton _ _
  | cons first offsets ih =>
      exact List.pairwise_cons.mpr ⟨h.lt, ih h.2.2⟩

theorem RowsFrom.rows (h : RowsFrom total width start offsets) :
    ∀ row begin, (start :: offsets)[row]? = some begin →
      begin ≤ rowEnd (start :: offsets) total row ∧
        rowEnd (start :: offsets) total row ≤ begin + width := by
  induction offsets generalizing start with
  | nil =>
      intro row begin hrow
      cases row with
      | zero =>
          cases hrow
          exact h
      | succ row => cases hrow
  | cons first offsets ih =>
      obtain ⟨hlt, hle, hrest⟩ := h
      intro row begin hrow
      cases row with
      | zero =>
          cases hrow
          exact ⟨Nat.le_of_lt hlt, hle⟩
      | succ row => exact ih hrest row begin hrow

theorem RowsFrom.wrapped (h : RowsFrom total width 0 offsets) :
    Wrapped (0 :: offsets) total width :=
  ⟨rfl, h.increasing, h.rows⟩

-- == wrapping

/-- The row at hand is no longer than the width, so the rows that the loop
still pushes are not either. -/
theorem softWrapLoop_rows {chars : List Char} (hwidth : 0 < width)
    (lineStart : Nat) (lastBreak : Option Nat) (i : Nat) (hi : lineStart ≤ i)
    (hrow : i ≤ lineStart + width) (hlen : i ≤ chars.length) :
    RowsFrom chars.length width lineStart
      (softWrapLoop chars width hwidth lineStart lastBreak i) := by
  fun_induction softWrapLoop chars width hwidth lineStart lastBreak i with
  | case1 lineStart lastBreak i h hfull brk ih =>
      have hlt := lt_rowBreak (i := i) lastBreak (show lineStart < i by omega)
      have hle := rowBreak_le lineStart lastBreak i
      exact ⟨hlt, by omega, ih (Nat.le_refl _) (by omega) (by omega)⟩
  | case2 lineStart lastBreak i h hfull lastBreak' ih =>
      exact ih (by omega) (by omega) h
  | case3 lineStart lastBreak i h => exact ⟨by omega, by omega⟩

theorem softWrapOffsets_wrapped (line : List Char) (hwidth : 1 ≤ width) :
    Wrapped (softWrapOffsets line width) line.length width := by
  unfold softWrapOffsets
  rw [dif_neg (Nat.ne_of_gt hwidth)]
  split
  · exact RowsFrom.wrapped ⟨Nat.zero_le _, by omega⟩
  · refine RowsFrom.wrapped ?_
    exact softWrapLoop_rows _ 0 none 0 (Nat.le_refl 0) (Nat.zero_le _)
      (Nat.zero_le _)

-- == positions

theorem lastRow_at (offsets : List Nat) (h : start ≤ pos) (r : Nat) :
    ∃ row col, lastRow pos r (r + 1) offsets = r + row ∧
      At (start :: offsets) pos row col := by
  induction offsets generalizing start r with
  | nil =>
      refine ⟨0, pos - start, rfl, start, rfl, by omega, ?_⟩
      intro next hnext
      cases hnext
  | cons first offsets ih =>
      by_cases hle : first ≤ pos
      · obtain ⟨row, col, hrow, begin, hbegin, hpos, hnext⟩ := ih hle (r + 1)
        refine ⟨row + 1, col, ?_, begin, hbegin, hpos, hnext⟩
        rw [lastRow, if_pos hle, hrow]
        omega
      · refine ⟨0, pos - start, ?_, start, rfl, by omega, ?_⟩
        · rw [lastRow, if_neg hle, Nat.add_zero]
        · intro next hnext
          cases hnext
          exact Nat.lt_of_not_le hle

theorem Wrapped.lt (h : Wrapped offsets total width) {row row' s s' : Nat}
    (hrow : offsets[row]? = some s) (hrow' : offsets[row']? = some s')
    (hlt : row < row') : s < s' := by
  obtain ⟨hlen, rfl⟩ := List.getElem?_eq_some_iff.mp hrow
  obtain ⟨hlen', rfl⟩ := List.getElem?_eq_some_iff.mp hrow'
  exact List.pairwise_iff_getElem.mp h.increasing row row' hlen hlen' hlt

theorem Wrapped.row_le (h : Wrapped offsets total width) {row' col' : Nat}
    (hat : At offsets pos row col) (hat' : At offsets pos row' col') :
    row ≤ row' := by
  obtain ⟨s, hs, hpos, -⟩ := hat
  obtain ⟨s', hs', hpos', hnext⟩ := hat'
  by_contra hlt
  have hlen := (List.getElem?_eq_some_iff.mp hs).1
  have hget : offsets[row' + 1]? = some offsets[row' + 1] :=
    List.getElem?_eq_getElem (by omega)
  have hbelow := hnext _ hget
  by_cases heq : row' + 1 = row
  · rw [← heq, hget] at hs
    have := Option.some.inj hs
    omega
  · have := h.lt hget hs (by omega)
    omega

theorem Wrapped.at_unique (h : Wrapped offsets total width) {row' col' : Nat}
    (hat : At offsets pos row col) (hat' : At offsets pos row' col') :
    row = row' ∧ col = col' := by
  obtain rfl := Nat.le_antisymm (h.row_le hat hat') (h.row_le hat' hat)
  obtain ⟨s, hs, hpos, -⟩ := hat
  obtain ⟨s', hs', hpos', -⟩ := hat'
  rw [hs] at hs'
  cases hs'
  exact ⟨rfl, by omega⟩

theorem Wrapped.exists_at (h : Wrapped offsets total width) (pos : Nat) :
    ∃ row col, visualRowCol offsets pos = .ok (row, col) ∧
      At offsets pos row col := by
  cases offsets with
  | nil => cases h.first
  | cons start offsets =>
      cases h.first
      obtain ⟨row, col, hrow, hat⟩ :=
        lastRow_at offsets (Nat.zero_le pos) 0
      refine ⟨row, col, ?_, hat⟩
      obtain ⟨begin, hbegin, hpos, -⟩ := hat
      have hlast : lastRow pos 0 0 (0 :: offsets) = row := by
        rw [lastRow, if_pos (Nat.zero_le pos), hrow, Nat.zero_add]
      unfold visualRowCol
      simp only [hlast]
      rw [index_eq_ok.mpr hbegin, ok_bind, checkedSub_of_le (by omega),
        ok_bind, hpos, Nat.add_sub_cancel_left]
      rfl

theorem Wrapped.visualRowCol_eq (h : Wrapped offsets total width)
    (hat : At offsets pos row col) :
    visualRowCol offsets pos = .ok (row, col) := by
  obtain ⟨row', col', heq, hat'⟩ := h.exists_at pos
  obtain ⟨rfl, rfl⟩ := h.at_unique hat hat'
  exact heq

-- == moves

theorem Wrapped.up_first (h : Wrapped offsets total width)
    (hat : At offsets pos 0 col) : visualMoveUp offsets pos = .ok pos := by
  unfold visualMoveUp
  rw [h.visualRowCol_eq hat, ok_bind]
  exact if_pos rfl

/-- A move up stays in the row above, which is not empty. -/
theorem Wrapped.up (h : Wrapped offsets total width)
    (hat : At offsets pos (row + 1) col) :
    ∃ pos', visualMoveUp offsets pos = .ok pos' ∧
      At offsets pos' row (min col (rowLength offsets total row - 1)) := by
  have heq := h.visualRowCol_eq hat
  obtain ⟨start, hstart, -, -⟩ := hat
  have hlen := (List.getElem?_eq_some_iff.mp hstart).1
  have hprev : offsets[row]? = some offsets[row] :=
    List.getElem?_eq_getElem (by omega)
  have hlt := h.lt hprev hstart (Nat.lt_succ_self row)
  have hlength : rowLength offsets total row = start - offsets[row] := by
    unfold rowLength rowEnd
    rw [hstart, hprev]
    rfl
  refine ⟨min (offsets[row] + col) (max (start - 1) offsets[row]), ?_,
    offsets[row], hprev, ?_, ?_⟩
  · unfold visualMoveUp
    rw [heq, ok_bind]
    show (if row + 1 = 0 then _ else _) = _
    rw [if_neg (Nat.succ_ne_zero row), Nat.add_sub_cancel,
      index_eq_ok.mpr hprev, ok_bind, index_eq_ok.mpr hstart, ok_bind]
    rfl
  · rw [hlength]
    omega
  · intro next hnext
    rw [hstart] at hnext
    cases hnext
    omega

theorem Wrapped.down_last (h : Wrapped offsets total width)
    (hat : At offsets pos row col) (hlast : row + 1 = offsets.length) :
    visualMoveDown offsets total pos = .ok pos := by
  unfold visualMoveDown
  rw [h.visualRowCol_eq hat, ok_bind]
  exact if_pos (Nat.le_of_eq hlast.symm)

/-- A move down gets into the row below if that row has the column, or is the
last one. -/
theorem Wrapped.down (h : Wrapped offsets total width)
    (hat : At offsets pos row col) (hrow : row + 1 < offsets.length)
    (hcol : col < rowLength offsets total (row + 1) ∨
      row + 2 = offsets.length) :
    ∃ pos', visualMoveDown offsets total pos = .ok pos' ∧
      At offsets pos' (row + 1)
        (min col (rowLength offsets total (row + 1))) := by
  have heq := h.visualRowCol_eq hat
  have hnext : offsets[row + 1]? = some offsets[row + 1] :=
    List.getElem?_eq_getElem hrow
  obtain ⟨hle, -⟩ := h.rows _ _ hnext
  have hlength : rowLength offsets total (row + 1) =
      rowEnd offsets total (row + 1) - offsets[row + 1] := by
    unfold rowLength
    rw [hnext]
    rfl
  refine ⟨min (offsets[row + 1] + col) (rowEnd offsets total (row + 1)), ?_,
    offsets[row + 1], hnext, ?_, ?_⟩
  · unfold visualMoveDown
    rw [heq, ok_bind]
    show (if row + 1 ≥ offsets.length then _ else _) = _
    rw [if_neg (by omega), index_eq_ok.mpr hnext, ok_bind]
    rfl
  · rw [hlength]
    omega
  · intro next hafter
    have hend : rowEnd offsets total (row + 1) = next := by
      unfold rowEnd
      rw [hafter]
      rfl
    have hlen := (List.getElem?_eq_some_iff.mp hafter).1
    rcases hcol with hcol | hlast
    · omega
    · omega

-- == law

/-- The rows of a line are at most as long as the width, and a move by one row
goes to the row above or below where the line has one, at the wanted column
or the row's end; a move down, where the row below reaches so far or is the
last one. -/
theorem soft_wrap_law (line : List Char) (width : Nat) (hwidth : 1 ≤ width) :
    Wrapped (softWrapOffsets line width) line.length width ∧
    (∀ pos, ∃ row col, At (softWrapOffsets line width) pos row col) ∧
    ∀ pos row col, At (softWrapOffsets line width) pos row col →
      visualRowCol (softWrapOffsets line width) pos = .ok (row, col) ∧
      (row = 0 →
        visualMoveUp (softWrapOffsets line width) pos = .ok pos) ∧
      (∀ prev, row = prev + 1 → ∃ pos',
        visualMoveUp (softWrapOffsets line width) pos = .ok pos' ∧
        At (softWrapOffsets line width) pos' prev
          (min col (rowLength (softWrapOffsets line width) line.length prev -
            1))) ∧
      (row + 1 = (softWrapOffsets line width).length →
        visualMoveDown (softWrapOffsets line width) line.length pos =
          .ok pos) ∧
      (row + 1 < (softWrapOffsets line width).length →
        col < rowLength (softWrapOffsets line width) line.length (row + 1) ∨
          row + 2 = (softWrapOffsets line width).length →
        ∃ pos', visualMoveDown (softWrapOffsets line width) line.length pos =
            .ok pos' ∧
          At (softWrapOffsets line width) pos' (row + 1)
            (min col
              (rowLength (softWrapOffsets line width) line.length
                (row + 1)))) := by
  have h := softWrapOffsets_wrapped line hwidth
  refine ⟨h, fun pos => ?_, fun pos row col hat => ?_⟩
  · obtain ⟨row, col, -, hat⟩ := h.exists_at pos
    exact ⟨row, col, hat⟩
  · refine ⟨h.visualRowCol_eq hat, ?_, ?_, h.down_last hat, h.down hat⟩
    · rintro rfl
      exact h.up_first hat
    · rintro prev rfl
      exact h.up hat

/-- From the last row and from the first one a move stays where it is, and one
down to a shorter row lands in the row behind it. -/
theorem not_soft_wrap_law_last :
    softWrapOffsets ['a', 'b', 'c', ' ', 'd', 'e', ' ', 'f', 'g'] 3 =
      [0, 3, 4, 7] ∧
    visualMoveDown [0, 3, 4, 7] 9 8 = .ok 8 ∧
    visualMoveUp [0, 3, 4, 7] 1 = .ok 1 ∧
    At [0, 3, 4, 7] 2 0 2 ∧
    visualMoveDown [0, 3, 4, 7] 9 2 = .ok 4 ∧ At [0, 3, 4, 7] 4 2 0 := by
  refine ⟨?_, rfl, rfl, ?_, rfl, ?_⟩
  · simp [softWrapOffsets, softWrapLoop, rowBreak]
  · exact ⟨0, rfl, rfl, by simp⟩
  · exact ⟨4, rfl, rfl, by simp⟩

theorem soft_wrap_law_word :
    Wrapped (softWrapOffsets ['a', 'b', ' ', 'c'] 3) 4 3 :=
  (soft_wrap_law ['a', 'b', ' ', 'c'] 3 (by decide)).1

end Zmax.PowerEdit
