/-
Drawing the updates from one buffer to another on a terminal that shows
the first.

The screen is taken as one line of columns, in the order of the cells
(`column`). While the cells in front of `i` have been gone through, the glyphs
of the new buffer that begin there are shown, and every column behind them
shows what it did, unless its old glyph begins in front of `i` or where
the new glyph still covers cells; the count of invalidated cells reaches
to the end of every old glyph that begins in front of `i` (`Drawn`). For
glyphs of at most two columns the count of cells to skip is right. Behind
a wider one it is not: the third cell is drawn, which cuts the glyph.
-/
import Zmax.Lib.Glyphs
import Zmax.Tui.Buffer

namespace Zmax

open Glyphs

variable {σ : Type} [Inhabited σ]

-- == the screen

/-- The rows of a terminal. -/
abbrev Screen (σ : Type) := Nat → Line (Cell σ)

/-- Draw a cell's grapheme; what it cuts is blank. -/
def Screen.draw (screen : Screen σ) (x y : Nat) (cell : Cell σ) :
    Screen σ := fun row =>
  if row = y then Glyphs.draw Cell.width .default (screen row) x cell
  else screen row

/-- Draw updates in order. -/
def Screen.drawAll (screen : Screen σ)
    (updates : List (U16 × U16 × Cell σ)) : Screen σ :=
  updates.foldl (fun screen u => screen.draw u.1.val u.2.1.val u.2.2) screen

/-- A blank cell, whatever its style. -/
def Cell.IsBlank (c : Cell σ) : Prop := c.symbol = " " ∧ c.width = 1

instance (c : Cell σ) : Decidable c.IsBlank :=
  inferInstanceAs (Decidable (_ ∧ _))

namespace Buffer

/-- The cell of an index. -/
def cell (b : Buffer σ) (i : Nat) : Cell σ := b.content.getD i .default

/-- A buffer at the origin whose graphemes are wide, fit their rows, and
are followed by the blank cells they cover. -/
structure WellFormed (b : Buffer σ) : Prop where
  origin : b.area.x = 0 ∧ b.area.y = 0
  length : b.content.length = b.area.width.val * b.area.height.val
  pos : ∀ i < b.content.length, 1 ≤ (b.cell i).width
  fits : ∀ i < b.content.length,
    i % b.area.width.val + (b.cell i).width ≤ b.area.width.val
  blank : ∀ i < b.content.length, ∀ k < (b.cell i).width, 0 < k →
    (b.cell (i + k)).IsBlank

/-- A cell that a grapheme in front of it covers. -/
def Covered (b : Buffer σ) (i : Nat) : Prop :=
  ∃ s < i, i < s + (b.cell s).width

instance (b : Buffer σ) (i : Nat) : Decidable (b.Covered i) :=
  inferInstanceAs (Decidable (∃ s < i, i < s + (b.cell s).width))

/-- The terminal shows every grapheme that is not covered, in its
columns. -/
def ShownOn (b : Buffer σ) (screen : Screen σ) : Prop :=
  ∀ i < b.content.length, ¬ b.Covered i → ∀ k < (b.cell i).width,
    screen (i / b.area.width.val) (i % b.area.width.val + k)
      = ⟨b.cell i, k⟩

instance [DecidableEq σ] (b : Buffer σ) (screen : Screen σ) :
    Decidable (b.ShownOn screen) :=
  inferInstanceAs (Decidable (∀ i < b.content.length, ¬ b.Covered i →
    ∀ k < (b.cell i).width,
    screen (i / b.area.width.val) (i % b.area.width.val + k)
      = ⟨b.cell i, k⟩))

end Buffer

-- == as one line

namespace Screen

/-- The column of an index, with rows of a width. -/
def column (screen : Screen σ) (width i : Nat) : Column (Cell σ) :=
  screen (i / width) (i % width)

variable {screen : Screen σ} {width i s k j : Nat} {c d : Cell σ}

/-- Within a row indices are columns. -/
theorem place_add (h : s % width + k < width) :
    (s + k) / width = s / width ∧ (s + k) % width = s % width + k := by
  have hpos : 0 < width := by omega
  have hsum : s + k = width * (s / width) + (s % width + k) := by
    have := Nat.div_add_mod s width
    omega
  constructor
  · rw [hsum, Nat.mul_add_div hpos, Nat.div_eq_of_lt h, Nat.add_zero]
  · rw [hsum, Nat.mul_add_mod, Nat.mod_eq_of_lt h]

omit [Inhabited σ] in
theorem column_add (h : s % width + k < width) :
    screen.column width (s + k) = screen (s / width) (s % width + k) := by
  unfold column
  rw [(place_add h).1, (place_add h).2]

/-- Draw at an index. -/
def drawAt (screen : Screen σ) (width i : Nat) (d : Cell σ) : Screen σ :=
  screen.draw (i % width) (i / width) d

theorem drawAt_row (row : Nat) :
    screen.drawAt width i d row =
      if row = i / width then
        Glyphs.draw Cell.width .default (screen row) (i % width) d
      else screen row := rfl

omit [Inhabited σ] in
/-- Where two indices are in one row, they are as far apart as their
columns. -/
theorem sub_of_row (h : s / width = i / width) :
    s + i % width = i + s % width := by
  have hs := Nat.div_add_mod s width
  have hi := Nat.div_add_mod i width
  rw [h] at hs
  omega

theorem column_drawAt_drawn (hfits : i % width + d.width ≤ width)
    (hk : k < d.width) :
    (screen.drawAt width i d).column width (i + k) = ⟨d, k⟩ := by
  rw [column_add (by omega)]
  rw [drawAt_row, if_pos rfl]
  exact draw_drawn hk

theorem column_drawAt_outside (h : ¬ (i ≤ j ∧ j < i + d.width)) :
    (screen.drawAt width i d).column width j = screen.column width j ∨
      (screen.drawAt width i d).column width j = ⟨.default, 0⟩ := by
  unfold column
  rw [drawAt_row]
  split
  · next hrow =>
      have := sub_of_row hrow
      exact draw_outside (by omega)
  · exact .inl rfl

theorem column_drawAt_apart (hfits : s % width + c.width ≤ width)
    (hcol : screen.column width (s + k) = ⟨c, k⟩) (hk : k < c.width)
    (h : s + c.width ≤ i ∨ i + d.width ≤ s) :
    (screen.drawAt width i d).column width (s + k) = ⟨c, k⟩ := by
  rw [column_add (by omega)] at hcol ⊢
  rw [drawAt_row]
  split
  · next hrow =>
      have := sub_of_row hrow
      exact draw_apart hcol hk (by omega)
  · exact hcol

theorem column_drawAt_blank (hcol : screen.column width j = ⟨.default, 0⟩)
    (h : ¬ (i ≤ j ∧ j < i + d.width)) :
    (screen.drawAt width i d).column width j = ⟨.default, 0⟩ := by
  rcases column_drawAt_outside h with hsame | hblank
  · rw [hsame, hcol]
  · exact hblank

omit [Inhabited σ] in
/-- Graphemes that overlap are in one row. -/
theorem row_of_overlap (hfits : s % width + c.width ≤ width)
    (hfits' : i % width + d.width ≤ width)
    (h : s < i + d.width ∧ i < s + c.width) : s / width = i / width := by
  rcases Nat.lt_or_ge i s with hlt | hge
  · obtain ⟨n, rfl⟩ := Nat.exists_eq_add_of_le (Nat.le_of_lt hlt)
    exact (place_add (by omega)).1
  · obtain ⟨n, rfl⟩ := Nat.exists_eq_add_of_le hge
    exact (place_add (by omega)).1.symm

theorem column_drawAt_cut (hfits : s % width + c.width ≤ width)
    (hfits' : i % width + d.width ≤ width)
    (hcol : screen.column width (s + k) = ⟨c, k⟩) (hk : k < c.width)
    (h : s < i + d.width ∧ i < s + c.width)
    (houtside : ¬ (i ≤ s + k ∧ s + k < i + d.width)) :
    (screen.drawAt width i d).column width (s + k) = ⟨.default, 0⟩ := by
  have hrow := row_of_overlap hfits hfits' h
  have := sub_of_row hrow
  rw [column_add (by omega)] at hcol ⊢
  rw [drawAt_row, if_pos hrow]
  exact draw_cut hcol (by omega) (by omega)

end Screen

namespace Buffer

-- == what is settled

variable {prev next : Buffer σ} {screen : Screen σ}
  {i invalidated toSkip : Nat}

/-- The count of invalidated cells behind the cell of an index. -/
def invalidatedAfter (prev next : Buffer σ) (i invalidated : Nat) : Nat :=
  max (max (next.cell i).width (prev.cell i).width) invalidated - 1

theorem drop_zip_cell (hlen : next.content.length = prev.content.length)
    (hi : i < next.content.length) :
    (next.content.zip prev.content).drop i =
      (next.cell i, prev.cell i) ::
        (next.content.zip prev.content).drop (i + 1) := by
  have hzip : i < (next.content.zip prev.content).length := by
    rw [List.length_zip, ← hlen, Nat.min_self]
    exact hi
  rw [List.drop_eq_getElem_cons hzip, List.getElem_zip]
  unfold cell
  rw [List.getD_eq_getElem?_getD, List.getElem?_eq_getElem hi,
    List.getD_eq_getElem?_getD, List.getElem?_eq_getElem (hlen ▸ hi)]
  rfl

/-- The cells in front of `i` have been gone through. -/
structure Drawn (prev next : Buffer σ) (i invalidated toSkip : Nat)
    (screen : Screen σ) : Prop where
  /-- Graphemes that begin there are shown. -/
  shown : ∀ s < i, ¬ next.Covered s → ∀ k < (next.cell s).width,
    screen.column prev.area.width.val (s + k) = ⟨next.cell s, k⟩
  /-- What was there is, or was cut. -/
  ahead : ∀ s < prev.content.length, ¬ prev.Covered s →
    ∀ k < (prev.cell s).width, i + toSkip ≤ s + k →
    screen.column prev.area.width.val (s + k) = ⟨prev.cell s, k⟩ ∨
      (s < i + toSkip ∧
        screen.column prev.area.width.val (s + k) = ⟨.default, 0⟩)
  invalidated : ∀ s < i, s + (prev.cell s).width ≤ i + invalidated
  skipped : ∀ s < i, s + (next.cell s).width ≤ i + toSkip
  covered : 0 < toSkip → next.Covered i
  short : toSkip ≤ 1

/-- No grapheme is wider than two columns. -/
def Narrow (b : Buffer σ) : Prop := ∀ c ∈ b.content, c.width ≤ 2

theorem Narrow.cell (h : next.Narrow) (hi : i < next.content.length) :
    (next.cell i).width ≤ 2 := by
  unfold Buffer.cell
  rw [List.getD_eq_getElem?_getD, List.getElem?_eq_getElem hi]
  exact h _ (List.getElem_mem hi)

/-- A covered cell is one column wide. -/
theorem WellFormed.width_of_covered (hn : next.WellFormed)
    (hi : i < next.content.length) (h : next.Covered i) :
    (next.cell i).width = 1 := by
  obtain ⟨s, hs, hcovers⟩ := h
  have hblank := hn.blank s (by omega) (i - s) (by omega) (by omega)
  rw [Nat.add_sub_cancel' (Nat.le_of_lt hs)] at hblank
  exact hblank.2

/-- The cells that a grapheme covers are cells of the buffer. -/
theorem WellFormed.row (hn : next.WellFormed) (s : Nat)
    (hs : s < next.content.length) (k : Nat) (hk : k < (next.cell s).width) :
    s + k < next.content.length := by
  have hfits := hn.fits s hs
  have hplace := (@Screen.place_add next.area.width.val s k (by omega)).1
  rw [hn.length] at hs ⊢
  rw [Nat.mul_comm] at hs ⊢
  have hpos : 0 < next.area.width.val := by
    omega
  rw [← Nat.div_lt_iff_lt_mul hpos] at hs ⊢
  omega

/-- The counts go on, whatever was drawn. -/
theorem Drawn.counts (h : Drawn prev next i invalidated toSkip screen)
    (hskip : toSkip = 0 ∨ (next.cell i).width = 1) :
    (∀ s < i + 1, s + (prev.cell s).width ≤
        i + 1 + invalidatedAfter prev next i invalidated) ∧
      ∀ s < i + 1, s + (next.cell s).width ≤
        i + 1 + ((next.cell i).width - 1) := by
  unfold invalidatedAfter
  have hshort := h.short
  constructor
  · intro s hs
    rcases Nat.lt_succ_iff_lt_or_eq.mp hs with hs | rfl
    · have := h.invalidated s hs
      omega
    · omega
  · intro s hs
    rcases Nat.lt_succ_iff_lt_or_eq.mp hs with hs | rfl
    · have := h.skipped s hs
      omega
    · omega

/-- A cell that is covered is not drawn. -/
theorem Drawn.skip (hn : next.WellFormed)
    (h : Drawn prev next i invalidated toSkip screen) (hskip : toSkip ≠ 0)
    (hi : i < next.content.length) :
    Drawn prev next (i + 1) (invalidatedAfter prev next i invalidated)
      ((next.cell i).width - 1) screen := by
  have hone : toSkip = 1 := by
    have := h.short
    omega
  have hcovered := h.covered (Nat.pos_of_ne_zero hskip)
  have hwidth := hn.width_of_covered hi hcovered
  obtain ⟨hinvalidated, hskipped⟩ := h.counts (.inr hwidth)
  rw [hwidth] at hskipped ⊢
  subst hone
  refine ⟨?_, h.ahead, hinvalidated, hskipped, by simp, by simp⟩
  intro s hs hno
  rcases Nat.lt_succ_iff_lt_or_eq.mp hs with hs | rfl
  · exact h.shown s hs hno
  · exact absurd hcovered hno

/-- A grapheme that is as it was, and not invalidated, is shown. -/
theorem Drawn.keep (hn : next.WellFormed)
    (h : Drawn prev next i invalidated 0 screen)
    (hlen : next.content.length = prev.content.length)
    (hi : i < next.content.length) (hnarrow : (next.cell i).width ≤ 2)
    (hsame : next.cell i = prev.cell i) (hzero : invalidated = 0) :
    Drawn prev next (i + 1) (invalidatedAfter prev next i invalidated)
      ((next.cell i).width - 1) screen := by
  obtain ⟨hinvalidated, hskipped⟩ := h.counts (.inl rfl)
  have hpos := hn.pos i hi
  refine ⟨?_, ?_, hinvalidated, hskipped, ?_, by omega⟩
  · intro s hs hno k hk
    rcases Nat.lt_succ_iff_lt_or_eq.mp hs with hs | rfl
    · exact h.shown s hs hno k hk
    · -- no old grapheme reaches here from the left
      have hlead : ¬ prev.Covered s := by
        rintro ⟨r, hr, hcovers⟩
        have := h.invalidated r hr
        omega
      rw [hsame] at hk ⊢
      rcases h.ahead s (hlen ▸ hi) hlead k hk (by omega) with hcol | ⟨hlt, -⟩
      · exact hcol
      · omega
  · intro s hs hno k hk hle
    rcases h.ahead s hs hno k hk (by omega) with hcol | ⟨hlt, hcol⟩
    · exact .inl hcol
    · exact .inr ⟨by omega, hcol⟩
  · intro hpos'
    exact ⟨i, Nat.lt_succ_self i, by omega⟩

/-- A grapheme is drawn. -/
theorem Drawn.draw (hp : prev.WellFormed) (hn : next.WellFormed)
    (harea : prev.area = next.area)
    (hlen : next.content.length = prev.content.length)
    (h : Drawn prev next i invalidated 0 screen)
    (hi : i < next.content.length) (hnarrow : (next.cell i).width ≤ 2) :
    Drawn prev next (i + 1) (invalidatedAfter prev next i invalidated)
      ((next.cell i).width - 1)
      (screen.drawAt prev.area.width.val i (next.cell i)) := by
  obtain ⟨hinvalidated, hskipped⟩ := h.counts (.inl rfl)
  have hpos := hn.pos i hi
  have hfits := hn.fits i hi
  rw [← harea] at hfits
  refine ⟨?_, ?_, hinvalidated, hskipped, ?_, by omega⟩
  · intro s hs hno k hk
    rcases Nat.lt_succ_iff_lt_or_eq.mp hs with hs | rfl
    · have hfits' := hn.fits s (by omega)
      rw [← harea] at hfits'
      exact Screen.column_drawAt_apart hfits' (h.shown s hs hno k hk) hk
        (.inl (h.skipped s hs))
    · exact Screen.column_drawAt_drawn hfits hk
  · intro s hs hno k hk hle
    have houtside : ¬ (i ≤ s + k ∧ s + k < i + (next.cell i).width) := by
      omega
    rcases h.ahead s hs hno k hk (by omega) with hcol | ⟨hlt, hcol⟩
    · by_cases hcut : s < i + (next.cell i).width
      · exact .inr ⟨by omega, Screen.column_drawAt_cut (hp.fits s hs) hfits
          hcol hk ⟨hcut, by omega⟩ houtside⟩
      · exact .inl (Screen.column_drawAt_apart (hp.fits s hs) hcol hk
          (.inr (by omega)))
    · exact .inr ⟨by omega, Screen.column_drawAt_blank hcol houtside⟩
  · intro hpos'
    exact ⟨i, Nat.lt_succ_self i, by omega⟩

-- == one cell

variable [DecidableEq σ]

/-- The screen after the cell of an index was gone through. -/
def drawCell (prev next : Buffer σ) (i invalidated toSkip : Nat)
    (screen : Screen σ) : Screen σ :=
  if (next.cell i ≠ prev.cell i ∨ 0 < invalidated) ∧ toSkip = 0 then
    screen.drawAt prev.area.width.val i (next.cell i)
  else screen

/-- What is drawn from an index on. -/
def drawFrom (prev next : Buffer σ) (i invalidated toSkip : Nat)
    (screen : Screen σ) : Screen σ :=
  screen.drawAll (diffLoop prev.area.width.val
    ((next.content.zip prev.content).drop i) i invalidated toSkip)

theorem drawFrom_end (hlen : next.content.length = prev.content.length)
    (hi : next.content.length ≤ i) :
    drawFrom prev next i invalidated toSkip screen = screen := by
  unfold drawFrom
  rw [List.drop_eq_nil_of_le (by rw [List.length_zip]; omega)]
  rfl

/-- An index within the area is no `u16` overflow. -/
theorem ofUsize_place {area : Rect} (hi : i < area.width.val * area.height.val) :
    (U16.ofUsize (i % area.width.val)).val = i % area.width.val ∧
      (U16.ofUsize (i / area.width.val)).val = i / area.width.val := by
  have hpos : 0 < area.width.val := by
    by_contra h0
    rw [Nat.eq_zero_of_not_pos h0, Nat.zero_mul] at hi
    omega
  have hcolumn := Nat.mod_lt i hpos
  have hrow := Nat.div_lt_of_lt_mul hi
  have hw := area.width.isLt
  have hh := area.height.isLt
  exact ⟨Nat.mod_eq_of_lt (by omega), Nat.mod_eq_of_lt (by omega)⟩

theorem drawFrom_cell (hn : next.WellFormed) (harea : prev.area = next.area)
    (hlen : next.content.length = prev.content.length)
    (hi : i < next.content.length) :
    drawFrom prev next i invalidated toSkip screen =
      drawFrom prev next (i + 1) (invalidatedAfter prev next i invalidated)
        ((next.cell i).width - 1)
        (drawCell prev next i invalidated toSkip screen) := by
  obtain ⟨hcolumn, hrow⟩ := @ofUsize_place i next.area (hn.length ▸ hi)
  rw [drawFrom, drop_zip_cell hlen hi, diffLoop, harea]
  unfold drawFrom drawCell
  rw [Screen.drawAll, List.foldl_append, harea]
  congr 1
  by_cases hdraw : (next.cell i ≠ prev.cell i ∨ 0 < invalidated) ∧ toSkip = 0
  · rw [if_pos hdraw, if_pos (by simpa using hdraw)]
    rw [List.foldl_cons, hcolumn, hrow]
    rfl
  · rw [if_neg hdraw, if_neg (by simpa using hdraw)]
    rfl

/-- One cell, whether it is drawn or not. -/
theorem Drawn.cell (hp : prev.WellFormed) (hn : next.WellFormed)
    (harea : prev.area = next.area)
    (hlen : next.content.length = prev.content.length)
    (h : Drawn prev next i invalidated toSkip screen)
    (hi : i < next.content.length) (hnarrow : (next.cell i).width ≤ 2) :
    Drawn prev next (i + 1) (invalidatedAfter prev next i invalidated)
      ((next.cell i).width - 1)
      (drawCell prev next i invalidated toSkip screen) := by
  unfold drawCell
  by_cases hskip : toSkip = 0
  · subst hskip
    split
    · exact h.draw hp hn harea hlen hi hnarrow
    · next hkeep =>
        simp only [and_true, not_or, not_not, Nat.not_lt, Nat.le_zero]
          at hkeep
        exact h.keep hn hlen hi hnarrow hkeep.1 hkeep.2
  · rw [if_neg (fun hdraw => hskip hdraw.2)]
    exact h.skip hn hskip hi

/-- All the cells from an index on. -/
theorem Drawn.from (hp : prev.WellFormed) (hn : next.WellFormed)
    (harea : prev.area = next.area)
    (hlen : next.content.length = prev.content.length)
    (hnarrow : next.Narrow) {n : Nat} (hcount : i + n = next.content.length)
    (h : Drawn prev next i invalidated toSkip screen) :
    ∃ invalidated' toSkip', Drawn prev next next.content.length invalidated'
      toSkip' (drawFrom prev next i invalidated toSkip screen) := by
  induction n generalizing i invalidated toSkip screen with
  | zero =>
      rw [drawFrom_end hlen (by omega)]
      obtain rfl : i = next.content.length := by omega
      exact ⟨_, _, h⟩
  | succ n ih =>
      rw [drawFrom_cell hn harea hlen (by omega)]
      exact ih (by omega) (h.cell hp hn harea hlen (by omega)
        (hnarrow.cell (by omega)))

-- == wide graphemes

omit [DecidableEq σ] in
/-- Drawing behind a column does not make it show a grapheme. -/
theorem column_drawAt_ne {width s : Nat} {c d : Cell σ} (hwide : c.width ≠ 1)
    (hs : s < i) (h : screen.column width s ≠ ⟨c, 0⟩) :
    (screen.drawAt width i d).column width s ≠ ⟨c, 0⟩ := by
  have houtside : ¬ (i ≤ s ∧ s < i + d.width) := by
    omega
  rcases @Screen.column_drawAt_outside σ _ screen width i s d houtside with
    hsame | hblank
  · rw [hsame]
    exact h
  · rw [hblank]
    intro hshown
    exact hwide (congrArg (fun c => c.glyph.width) hshown).symm

/-- A grapheme whose first column does not show it is not shown again by
what is drawn behind it. -/
theorem drawFrom_ne (hn : next.WellFormed) (harea : prev.area = next.area)
    (hlen : next.content.length = prev.content.length) {s n : Nat}
    (hwide : (next.cell s).width ≠ 1) (hs : s < i)
    (hcount : i + n = next.content.length)
    (h : screen.column prev.area.width.val s ≠ ⟨next.cell s, 0⟩) :
    (drawFrom prev next i invalidated toSkip screen).column
      prev.area.width.val s ≠ ⟨next.cell s, 0⟩ := by
  induction n generalizing i invalidated toSkip screen with
  | zero =>
      rw [drawFrom_end hlen (by omega)]
      exact h
  | succ n ih =>
      rw [drawFrom_cell hn harea hlen (by omega)]
      refine ih (by omega) (by omega) ?_
      unfold drawCell
      split
      · exact column_drawAt_ne hwide hs h
      · exact h

/-- Behind a grapheme wider than two columns the third cell is drawn, and
cuts it. -/
theorem drawFrom_wide (hn : next.WellFormed) (harea : prev.area = next.area)
    (hlen : next.content.length = prev.content.length) {s : Nat}
    (hs : s < next.content.length) (hwide : 2 < (next.cell s).width) :
    (drawFrom prev next s invalidated toSkip screen).column
      prev.area.width.val s ≠ ⟨next.cell s, 0⟩ := by
  have hfits := hn.fits s hs
  have hlast := hn.row s hs 2 (by omega)
  have hone := hn.blank s hs 1 (by omega) (by omega)
  have htwo := hn.blank s hs 2 (by omega) (by omega)
  rw [drawFrom_cell hn harea hlen hs,
    drawFrom_cell hn harea hlen (by omega),
    drawFrom_cell hn harea hlen hlast]
  generalize drawCell prev next (s + 1) _ _ _ = before
  -- both counts are too small: nothing is skipped, and it is invalidated
  have hskip : (next.cell (s + 1)).width - 1 = 0 := by
    rw [hone.2]
  have hinvalidated : 0 < invalidatedAfter prev next (s + 1)
      (invalidatedAfter prev next s invalidated) := by
    unfold invalidatedAfter
    omega
  refine drawFrom_ne hn harea hlen (n := next.content.length - (s + 3))
    (by omega) (by omega) (by omega) ?_
  unfold drawCell
  rw [if_pos ⟨.inr hinvalidated, hskip⟩]
  rw [← harea] at hfits
  have hfits' := hn.fits (s + 2) hlast
  rw [← harea] at hfits'
  have hblank : (before.drawAt prev.area.width.val (s + 2)
      (next.cell (s + 2))).column prev.area.width.val s = ⟨.default, 0⟩
      ∨ before.column prev.area.width.val s ≠ ⟨next.cell s, 0⟩ := by
    by_cases hbefore :
        before.column prev.area.width.val s = ⟨next.cell s, 0⟩
    · exact .inl (Screen.column_drawAt_cut (k := 0) hfits hfits' hbefore
        (by omega) ⟨by omega, by omega⟩ (by omega))
    · exact .inr hbefore
  rcases hblank with hblank | hother
  · rw [hblank]
    intro hshown
    have := congrArg (fun c => c.glyph.width) hshown
    dsimp only [Cell.default] at this
    omega
  · exact column_drawAt_ne (by omega) (by omega) hother

/-- The same, from any cell in front on. -/
theorem drawFrom_wide_from (hn : next.WellFormed)
    (harea : prev.area = next.area)
    (hlen : next.content.length = prev.content.length) {s n : Nat}
    (hs : s < next.content.length) (hwide : 2 < (next.cell s).width)
    (hcount : i + n = s) :
    (drawFrom prev next i invalidated toSkip screen).column
      prev.area.width.val s ≠ ⟨next.cell s, 0⟩ := by
  induction n generalizing i invalidated toSkip screen with
  | zero =>
      obtain rfl : i = s := hcount
      exact drawFrom_wide hn harea hlen hs hwide
  | succ n ih =>
      rw [drawFrom_cell hn harea hlen (by omega)]
      exact ih (by omega)

/-- One row of cells of the default style. -/
def row (symbols : List (String × Nat)) : Buffer Unit :=
  ⟨⟨0, 0, U16.ofUsize symbols.length, 1⟩,
    symbols.map fun p => ⟨p.1, p.2, ()⟩⟩

/-- Two letters. -/
def letters : Buffer Unit := row [("a", 1), ("b", 1)]

/-- A grapheme of two columns. -/
def double : Buffer Unit := row [("コ", 2), (" ", 1)]

/-- Three blanks. -/
def blanks : Buffer Unit := row [(" ", 1), (" ", 1), (" ", 1)]

/-- A dash of three columns. -/
def dash : Buffer Unit := row [("⸻", 3), (" ", 1), (" ", 1)]

/-- A screen whose first row shows cells of one column each. -/
def showing (b : Buffer Unit) : Screen Unit := fun _ column =>
  ⟨b.cell column, 0⟩

end Buffer

end Zmax
