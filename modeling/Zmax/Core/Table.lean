/-
zmax-core/src/table.rs: text tables, drawn as a grid and read from one.

# The table

A dense grid of cells, each a text of one or more lines, with a way to justify
each cell, and widths and heights that columns and rows have at least. The
lengths of its vectors go with its rows and columns.

# Drawing and reading

`render` draws borders of `+` and `-` and contents between `|`. `recognize`
reads the contents of such a grid, and `grid_col_widths` the widths of its
columns. `fit_to_widths` breaks the texts of the cells so that the columns get
the wanted widths.

A drawn table, read again.

The drawing is its lines (`gridLines`): borders, and in each row as many
lines as it is high. A line of contents is fields between `|`, so `fields`
come back from it (`Fields.between_enclose`), and trimmed they are what the
cells have there. Line by line each column collects the lines of its cell
and blank ones behind them (`readRow_group`), and `set` fills the new table
with the cells, one place after another (`foldl_modify`).
-/
import Mathlib.Algebra.Ring.Nat
import Zmax.Core.Proofs.Unified
import Zmax.Core.Text
import Zmax.Lib.Fields

namespace Zmax.TextTable

open Text

inductive Justify where
  | left
  | right
  | center
  | full
  deriving DecidableEq, Repr

@[ext]
structure Table where
  cells : List (List (List Char))
  justify : List (List Justify)
  minColWidth : List Nat
  minRowHeight : List Nat
  rows : Nat
  cols : Nat
  cells_rows : cells.length = rows
  cells_cols : ∀ row ∈ cells, row.length = cols
  justify_rows : justify.length = rows
  justify_cols : ∀ row ∈ justify, row.length = cols
  widths_cols : minColWidth.length = cols
  heights_rows : minRowHeight.length = rows
  deriving DecidableEq

/-- The lines of a cell: `split('\n')`. -/
def cellLines (s : List Char) : List (List Char) := s.splitOn '\n'

/-- `text_width` -/
def textWidth (s : List Char) : Nat :=
  ((cellLines s).map List.length).max?.getD 0

/-- `text_height` -/
def textHeight (s : List Char) : Nat := max (cellLines s).length 1

/-- `spaces` -/
def spaces (n : Nat) : List Char := List.replicate n ' '

-- == justification

/-- The words of a line with the space between them: `per` for each gap, and
one more for the first `rem` of them. -/
def spreadWords (per : Nat) : Nat → List (List Char) → List Char
  | _, [] => []
  | _, [word] => word
  | rem, word :: words =>
      word ++ spaces (per + if 0 < rem then 1 else 0) ++
        spreadWords per (rem - 1) words

/-- `full_justify` -/
def fullJustify (s : List Char) (width : Nat) : List Char :=
  let words := splitWhitespace s
  if words.length ≤ 1 then s ++ spaces (width - s.length)
  else
    let wordChars := (words.map List.length).sum
    let gaps := words.length - 1
    let spaceTotal := width - wordChars
    spreadWords (spaceTotal / gaps) (spaceTotal % gaps) words

/-- `justify_line` -/
def justifyLine (s : List Char) (width : Nat) (j : Justify) : List Char :=
  if s.length ≥ width then s
  else
    let pad := width - s.length
    match j with
    | .left => s ++ spaces pad
    | .right => spaces pad ++ s
    | .center =>
        let left := pad / 2
        spaces left ++ s ++ spaces (pad - left)
    | .full => fullJustify s width

-- == wrapping

/-- The rest of a word that is too long for a line, behind the lines that it
fills; the line before it ends. -/
def splitLong (width : Nat) (hwidth : 0 < width) (out : List (List Char))
    (line word : List Char) : List (List Char) × List Char × List Char :=
  if width < word.length then
    let out := if line = [] then out else out ++ [line]
    splitLong width hwidth (out ++ [word.take width]) [] (word.drop width)
  else (out, line, word)
termination_by word.length
decreasing_by
  rw [List.length_drop]
  omega

/-- A word goes to the line at hand or starts the next one. -/
def wrapWord (width : Nat) (hwidth : 0 < width)
    (state : List (List Char) × List Char) (word : List Char) :
    List (List Char) × List Char :=
  let (out, line, word) := splitLong width hwidth state.1 state.2 word
  let extra := if line = [] then word.length else word.length + 1
  if line ≠ [] ∧ line.length + extra > width then (out ++ [line], word)
  else if line ≠ [] then (out, line ++ ' ' :: word)
  else (out, word)

/-- The lines of a hard line. -/
def wrapLine (width : Nat) (hwidth : 0 < width) (hardLine : List Char) :
    List (List Char) :=
  let (out, line) :=
    (splitWhitespace hardLine).foldl (wrapWord width hwidth) ([], [])
  out ++ [line]

/-- Without empty lines at the end, but for the first line. -/
def dropEmpties (out : List (List Char)) : List (List Char) :=
  match out.rdropWhile (· = []) with
  | [] => out.take 1
  | kept => kept

/-- `wrap_cell` -/
def wrapCell (text : List Char) (width : Nat) : List Char :=
  ['\n'].intercalate (dropEmpties
    ((cellLines text).flatMap (wrapLine (max width 1) (by omega))))

-- == the table

namespace Table

/-- `Table::new` -/
def new (rows cols : Nat) : Table where
  cells := List.replicate rows (List.replicate cols [])
  justify := List.replicate rows (List.replicate cols .left)
  minColWidth := List.replicate cols 0
  minRowHeight := List.replicate rows 1
  rows := rows
  cols := cols
  cells_rows := List.length_replicate
  cells_cols := fun _ h => (List.eq_of_mem_replicate h) ▸ List.length_replicate
  justify_rows := List.length_replicate
  justify_cols := fun _ h =>
    (List.eq_of_mem_replicate h) ▸ List.length_replicate
  widths_cols := List.length_replicate
  heights_rows := List.length_replicate

/-- `get` -/
def get (self : Table) (r c : Nat) : Option (List Char) :=
  self.cells[r]?.bind (·[c]?)

/-- `get_justify` -/
def getJustify (self : Table) (r c : Nat) : Justify :=
  (self.justify[r]?.bind (·[c]?)).getD .left

/-- `set` -/
def set (self : Table) (r c : Nat) (val : List Char) : Table :=
  { self with
    cells := self.cells.modify r (·.set c val)
    cells_rows := by rw [List.length_modify, self.cells_rows]
    cells_cols := by
      intro row hrow
      obtain ⟨i, hi, rfl⟩ := List.mem_iff_getElem.mp hrow
      rw [List.getElem_modify]
      rw [List.length_modify] at hi
      have hcols := self.cells_cols _ (List.getElem_mem hi)
      split
      · rw [List.length_set, hcols]
      · exact hcols }

/-- `col_width` -/
def colWidth (self : Table) (c : Nat) : Nat :=
  self.cells.foldl (fun w row =>
    match row[c]? with
    | some cell => max w (textWidth cell)
    | none => w) (max 1 (self.minColWidth[c]?.getD 0))

/-- `row_height` -/
def rowHeight (self : Table) (r : Nat) : Nat :=
  (self.cells[r]?.getD []).foldl (fun h cell => max h (textHeight cell))
    (max 1 (self.minRowHeight[r]?.getD 1))

/-- One column of `fit_to_widths`. -/
def fitColumn (self : Table) (width : Nat × Nat) : Table :=
  { self with
    cells := self.cells.map fun row =>
      row.modify width.2 (wrapCell · (max width.1 1))
    minColWidth := self.minColWidth.set width.2 (max width.1 1)
    cells_rows := by rw [List.length_map, self.cells_rows]
    cells_cols := by
      intro row hrow
      obtain ⟨row, hmem, rfl⟩ := List.mem_map.mp hrow
      rw [List.length_modify, self.cells_cols row hmem]
    widths_cols := by rw [List.length_set, self.widths_cols] }

/-- `fit_to_widths` -/
def fitToWidths (self : Table) (widths : List Nat) : Table :=
  if widths.length ≠ self.cols then self
  else widths.zipIdx.foldl fitColumn self

-- == drawing

/-- The widths of all columns. -/
def widths (self : Table) : List Nat := (List.range self.cols).map self.colWidth

/-- A border line. -/
def separator (widths : List Nat) : List Char :=
  '+' :: widths.flatMap fun w => List.replicate (w + 2) '-' ++ ['+']

/-- One of the lines of a row. -/
def contentLine (self : Table) (r lineIdx : Nat) : List Char :=
  '|' :: self.widths.zipIdx.flatMap fun (w, c) =>
    let content := (cellLines ((self.get r c).getD []))[lineIdx]?.getD []
    ' ' :: justifyLine content w (self.getJustify r c) ++ [' ', '|']

/-- `render` -/
def render (self : Table) : List Char :=
  separator self.widths ++ ['\n'] ++
    (List.range self.rows).flatMap fun r =>
      ((List.range (self.rowHeight r)).flatMap fun lineIdx =>
        self.contentLine r lineIdx ++ ['\n']) ++
      (separator self.widths ++ ['\n'])

end Table

-- == reading

/-- A line of a grid that starts with this char, behind white space. -/
def startsGrid (c : Char) (line : List Char) : Bool :=
  startsWith (line.dropWhile isWhitespace) [c]

/-- The places of a char in a line. -/
def charPositions (sep : Char) (line : List Char) : List Nat :=
  (line.zipIdx.filter fun (ch, _) => ch = sep).map Prod.snd

/-- `pipe_positions` -/
def pipePositions (line : List Char) : List Nat := charPositions '|' line

/-- One of the gutter's spaces, if it is there, is taken away on each side. -/
def stripGutter (field : List Char) : List Char :=
  let field := (stripPrefix field [' ']).getD field
  if field.getLast? = some ' ' then field.dropLast else field

/-- `extract_fields` -/
def extractFields (line : List Char) (cols : Nat) :
    Option (List (List Char)) :=
  let pipes := pipePositions line
  if pipes.length ≠ cols + 1 then none
  else some ((pipes.zip pipes.tail).map fun (pipe, next) =>
    stripGutter ((line.drop (pipe + 1)).take (next - (pipe + 1))))

/-- A line ends the row at hand if it is a border, or else belongs to it. -/
def groupLine (state : List (List (List Char)) × List (List Char))
    (line : List Char) : List (List (List Char)) × List (List Char) :=
  let (groups, cur) := state
  if startsGrid '+' line then
    if cur ≠ [] then (groups ++ [cur], []) else (groups, cur)
  else (groups, cur ++ [line])

/-- The lines of each column, with the fields of one more line. -/
def pushFields (cols : Nat) (colLines : List (List (List Char)))
    (line : List Char) : List (List (List Char)) :=
  match extractFields line cols with
  | none => colLines
  | some fields => colLines.zipWith (fun ls f => ls ++ [trim f]) fields

/-- The cells of a row, read from its lines. -/
def readRow (cols : Nat) (group : List (List Char)) : List (List Char) :=
  (group.foldl (pushFields cols) (List.replicate cols [])).map fun lines =>
    ['\n'].intercalate (lines.rdropWhile (· = []))

/-- `recognize` -/
def recognize (text : List Char) : Option Table :=
  let tbl := (lines text).filter fun l => startsGrid '+' l || startsGrid '|' l
  if tbl = [] then none
  else
    let (groups, cur) := tbl.foldl groupLine ([], [])
    let groups := if cur ≠ [] then groups ++ [cur] else groups
    match groups with
    | [] => none
    | first :: _ =>
        let firstPipes := pipePositions (first.headD [])
        if firstPipes.length < 2 then none
        else
          let cols := firstPipes.length - 1
          some (groups.zipIdx.foldl (fun table (group, r) =>
            (readRow cols group).zipIdx.foldl
              (fun table (val, c) => table.set r c val) table)
            (Table.new groups.length cols))

/-- `grid_col_widths` -/
def gridColWidths (block : List Char) : Option (List Nat) := do
  let (line, sep) ← match (lines block).find? (startsGrid '+') with
    | some l => some (l, '+')
    | none => ((lines block).find? (startsGrid '|')).map fun l => (l, '|')
  let seps := charPositions sep line
  if seps.length < 2 then none
  else some ((seps.zip seps.tail).map fun (a, b) => max (b - a - 3) 1)

end Zmax.TextTable

namespace Zmax.TextTable

open Text
open Unified (unlines)

-- == filling

section Filling

variable {α β : Type*}

variable {xs : List α} {ys : List β}

/-- Each element at its place changes the one there. -/
theorem foldl_modify (f : α → β → β) (pre : List β)
    (h : xs.length = ys.length) :
    (xs.zipIdx pre.length).foldl (fun zs p => zs.modify p.2 (f p.1))
      (pre ++ ys) = pre ++ xs.zipWith f ys := by
  induction xs generalizing pre ys with
  | nil =>
      rw [List.eq_nil_of_length_eq_zero h.symm]
      rfl
  | cons x xs ih =>
      cases ys with
      | nil => cases h
      | cons y ys =>
          have hstep : (pre ++ y :: ys).modify pre.length (f x) =
              (pre ++ [f x y]) ++ ys := by
            rw [List.modify_eq_take_cons_drop (by simp)]
            simp
          have hlen : pre.length + 1 = (pre ++ [f x y]).length := by
            rw [List.length_append, List.length_singleton]
          rw [List.zipIdx_cons, List.foldl_cons, hstep, hlen,
            ih _ (Nat.succ.inj h), List.zipWith_cons_cons, List.append_assoc,
            List.singleton_append]

theorem foldl_modify_zipIdx (f : α → β → β) (h : xs.length = ys.length) :
    xs.zipIdx.foldl (fun zs p => zs.modify p.2 (f p.1)) ys =
      xs.zipWith f ys :=
  foldl_modify f [] h

/-- Each element is put at its place. -/
theorem foldl_set_zipIdx {xs : List β} (h : xs.length = ys.length) :
    xs.zipIdx.foldl (fun zs p => zs.set p.2 p.1) ys = xs := by
  simp only [List.set_eq_modify]
  rw [foldl_modify_zipIdx (fun x _ => x) h]
  refine List.ext_getElem (by simp [h]) fun k _ _ => ?_
  rw [List.getElem_zipWith]

/-- What the greatest value is bounded by. -/
theorem foldl_max_le (f : α → Nat) {h m : Nat} :
    xs.foldl (fun h x => max h (f x)) h ≤ m ↔ h ≤ m ∧ ∀ x ∈ xs, f x ≤ m := by
  induction xs generalizing h with
  | nil => simp
  | cons x xs ih =>
      rw [List.foldl_cons, ih, Nat.max_le, List.forall_mem_cons, and_assoc]

end Filling

-- == the cell's lines

theorem cellLines_ne_nil (s : List Char) : cellLines s ≠ [] :=
  List.splitOn_ne_nil _ _

theorem cellLines_nil : cellLines [] = [[]] := rfl

theorem intercalate_cellLines (s : List Char) :
    ['\n'].intercalate (cellLines s) = s := List.intercalate_splitOn '\n'

/-- The line of a cell at a height, or a blank one below the cell. -/
def lineAt (k : Nat) (cell : List Char) : List Char :=
  (cellLines cell)[k]?.getD []

theorem lineAt_mem (k : Nat) (cell : List Char) :
    lineAt k cell ∈ cellLines cell ∨ lineAt k cell = [] := by
  unfold lineAt
  cases hk : (cellLines cell)[k]? with
  | none => exact .inr rfl
  | some line => exact .inl (List.mem_of_getElem? hk)

variable {cell s : List Char} {j : Justify} {c : Char} {r : Nat}

/-- From the top, a cell's lines come first and blank ones behind. -/
theorem map_lineAt {h : Nat} (hh : (cellLines cell).length ≤ h) :
    (List.range h).map (lineAt · cell) = cellLines cell ++
      List.replicate (h - (cellLines cell).length) [] := by
  refine List.ext_getElem (by simp; omega) fun k h₁ h₂ => ?_
  rw [List.getElem_map, List.getElem_range, lineAt, List.getElem_append]
  split
  · rw [List.getElem?_eq_getElem, Option.getD_some]
  · rw [List.getElem?_eq_none (by omega), List.getElem_replicate]
    rfl

theorem rdropWhile_blank {ls : List (List Char)} (n : Nat) :
    (ls ++ List.replicate n []).rdropWhile (· = []) =
      ls.rdropWhile (· = []) := by
  induction n with
  | zero => rw [List.replicate_zero, List.append_nil]
  | succ n ih =>
      rw [List.replicate_succ', ← List.append_assoc,
        List.rdropWhile_concat, if_pos (decide_eq_true rfl), ih]

-- == readable

/-- What a drawing keeps of a cell: each line is trimmed and bare of `|`, and
the last one is not blank, unless the cell is empty. -/
structure Clear (cell : List Char) : Prop where
  trimmed : ∀ line ∈ cellLines cell, trim line = line
  bare : ∀ line ∈ cellLines cell, '|' ∉ line
  ends : cell = [] ∨ (cellLines cell).getLast? ≠ some []

instance (cell : List Char) : Decidable (Clear cell) :=
  decidable_of_iff ((∀ line ∈ cellLines cell, trim line = line) ∧
      (∀ line ∈ cellLines cell, '|' ∉ line) ∧
      (cell = [] ∨ (cellLines cell).getLast? ≠ some []))
    ⟨fun ⟨htrimmed, hbare, hends⟩ => ⟨htrimmed, hbare, hends⟩,
      fun h => ⟨h.trimmed, h.bare, h.ends⟩⟩

/-- The cells are clear, and none of them is spread over its column. -/
structure Readable (t : Table) : Prop where
  clear : ∀ row ∈ t.cells, ∀ cell ∈ row, Clear cell
  plain : ∀ row ∈ t.justify, ∀ j ∈ row, j ≠ .full

theorem Clear.trim_lineAt (h : Clear cell) (k : Nat) :
    trim (lineAt k cell) = lineAt k cell := by
  rcases lineAt_mem k cell with hmem | hnil
  · exact h.trimmed _ hmem
  · rw [hnil]
    rfl

theorem Clear.bare_lineAt (h : Clear cell) (k : Nat) :
    '|' ∉ lineAt k cell := by
  rcases lineAt_mem k cell with hmem | hnil
  · exact h.bare _ hmem
  · rw [hnil]
    exact List.not_mem_nil

/-- The cell comes back from its lines with blank ones behind them. -/
theorem Clear.joined (h : Clear cell) {height : Nat}
    (hheight : (cellLines cell).length ≤ height) :
    ['\n'].intercalate
      (((List.range height).map (lineAt · cell)).rdropWhile (· = [])) =
      cell := by
  rw [map_lineAt hheight, rdropWhile_blank]
  rcases h.ends with rfl | hlast
  · rfl
  · have hkept : (cellLines cell).rdropWhile (· = []) = cellLines cell := by
      refine List.rdropWhile_eq_self_iff.mpr fun hne hblank => hlast ?_
      rw [List.getLast?_eq_some_getLast hne, of_decide_eq_true hblank]
    rw [hkept, intercalate_cellLines]

-- == justifying

theorem isWhitespace_space : isWhitespace ' ' = true := by decide

theorem dropWhile_spaces (n : Nat) (s : List Char) :
    (spaces n ++ s).dropWhile isWhitespace = s.dropWhile isWhitespace := by
  induction n with
  | zero => rfl
  | succ n ih =>
      rw [spaces, List.replicate_succ, List.cons_append,
        List.dropWhile_cons_of_pos isWhitespace_space, ← spaces, ih]

theorem trimEnd_spaces (s : List Char) (n : Nat) :
    trimEnd (s ++ spaces n) = trimEnd s := by
  induction n with
  | zero => rw [spaces, List.replicate_zero, List.append_nil]
  | succ n ih =>
      unfold trimEnd at ih ⊢
      rw [spaces, List.replicate_succ', ← List.append_assoc,
        List.rdropWhile_concat_pos _ _ _ isWhitespace_space, ← spaces, ih]

/-- Padding is trimmed away. -/
theorem trim_padded (h : trim s = s) (m n : Nat) :
    trim (spaces m ++ s ++ spaces n) = s := by
  obtain ⟨hdrop, hend⟩ := trim_eq_self_iff.mp h
  rw [trim, List.append_assoc, dropWhile_spaces]
  cases s with
  | nil =>
      have hnil : (spaces n ++ []).dropWhile isWhitespace = [] :=
        dropWhile_spaces n []
      rw [List.append_nil] at hnil
      rw [List.nil_append, hnil]
      rfl
  | cons c s =>
      have hc : isWhitespace c = false := head_not_whitespace h
      rw [List.cons_append, List.dropWhile_cons_of_neg (by simp [hc]),
        ← List.cons_append, trimEnd_spaces, hend]

/-- But for spreading, justifying is padding. -/
theorem justifyLine_eq (hj : j ≠ .full) (s : List Char) (w : Nat) :
    ∃ m n, justifyLine s w j = spaces m ++ s ++ spaces n := by
  unfold justifyLine
  split
  · exact ⟨0, 0, by simp [spaces]⟩
  · cases j with
    | left => exact ⟨0, w - s.length, by simp [spaces]⟩
    | right => exact ⟨w - s.length, 0, by simp [spaces]⟩
    | center => exact ⟨_, _, rfl⟩
    | full => exact absurd rfl hj

theorem trim_justifyLine (hj : j ≠ .full) (h : trim s = s) (w : Nat) :
    trim (justifyLine s w j) = s := by
  obtain ⟨m, n, heq⟩ := justifyLine_eq hj s w
  rw [heq, trim_padded h]

theorem bare_justifyLine (hj : j ≠ .full) (hc : c ≠ ' ') (h : c ∉ s)
    (w : Nat) : c ∉ justifyLine s w j := by
  obtain ⟨m, n, heq⟩ := justifyLine_eq hj s w
  rw [heq]
  simp [spaces, h, hc]

-- == widths

namespace Table

variable (t : Table)

theorem length_widths : t.widths.length = t.cols := by
  rw [widths, List.length_map, List.length_range]

/-- A field of a line of contents, with its gutters. -/
def field (r k : Nat) (p : Nat × Nat) : List Char :=
  ' ' :: justifyLine (lineAt k ((t.get r p.2).getD [])) p.1
    (t.getJustify r p.2) ++ [' ']

theorem contentLine_eq (r k : Nat) : t.contentLine r k =
    Fields.enclose '|' (t.widths.zipIdx.map (t.field r k)) := by
  unfold contentLine Fields.enclose
  rw [List.flatMap_map]
  refine congrArg ('|' :: ·) (congrArg (List.flatMap · _) (funext fun p => ?_))
  simp [field, lineAt]

theorem separator_eq (ws : List Nat) : separator ws =
    Fields.enclose '+' (ws.map fun w => List.replicate (w + 2) '-') := by
  unfold separator Fields.enclose
  rw [List.flatMap_map]

variable {r : Nat}

/-- The row of a table. -/
theorem get_row (hr : r < t.cells.length) (c : Nat) :
    t.get r c = (t.cells[r])[c]? := by
  rw [get, List.getElem?_eq_getElem hr, Option.bind_some]

/-- Every cell has a justification. -/
theorem getJustify_mem {c : Nat} (hr : r < t.rows) (hc : c < t.cols) :
    ∃ row ∈ t.justify, t.getJustify r c ∈ row := by
  have hr' : r < t.justify.length := by rw [t.justify_rows]; exact hr
  have hmem := List.getElem_mem hr'
  have hc' : c < (t.justify[r]).length := by
    rw [t.justify_cols _ hmem]
    exact hc
  refine ⟨t.justify[r], hmem, ?_⟩
  rw [getJustify, List.getElem?_eq_getElem hr', Option.bind_some,
    List.getElem?_eq_getElem hc', Option.getD_some]
  exact List.getElem_mem hc'

-- == the drawing

/-- The lines of a row's contents. -/
def rowLines (r : Nat) : List (List Char) :=
  (List.range (t.rowHeight r)).map (t.contentLine r)

/-- The lines of the drawing. -/
def gridLines : List (List Char) :=
  separator t.widths ::
    (List.range t.rows).flatMap fun r => t.rowLines r ++ [separator t.widths]

theorem render_eq : t.render = unlines t.gridLines := by
  unfold render gridLines unlines rowLines
  rw [List.flatMap_cons, List.flatMap_assoc]
  refine congrArg _ (congrArg (List.flatMap · _) (funext fun r => ?_))
  rw [List.flatMap_append, List.flatMap_map, List.flatMap_singleton]

theorem rowHeight_pos (r : Nat) : 0 < t.rowHeight r := by
  have hstart := (foldl_max_le textHeight).mp (Nat.le_refl (t.rowHeight r))
  omega

/-- A row is as high as each of its cells. -/
theorem le_rowHeight (hr : r < t.cells.length) {cell : List Char}
    (hcell : cell ∈ t.cells[r]) : (cellLines cell).length ≤ t.rowHeight r := by
  have hcells := ((foldl_max_le textHeight).mp
    (Nat.le_refl (t.rowHeight r))).2 cell
  rw [List.getElem?_eq_getElem hr, Option.getD_some] at hcells
  exact Nat.le_trans (Nat.le_max_left _ _) (hcells hcell)

end Table

-- == reading

theorem startsGrid_cons {d : Char} {line : List Char}
    (hd : isWhitespace d = false) :
    startsGrid c (d :: line) = decide (c = d) := by
  unfold startsGrid startsWith
  rw [List.dropWhile_cons_of_neg (by simp [hd])]
  simp [List.isPrefixOf]
  rfl

theorem stripCr_enclose {d : Char} {pieces : List (List Char)}
    (hd : d ≠ '\r') :
    stripCr (Fields.enclose d pieces) = Fields.enclose d pieces := by
  unfold stripCr
  rw [Fields.getLast?_enclose, if_neg (by simp [hd])]

theorem stripGutter_padded (s : List Char) :
    stripGutter (' ' :: s ++ [' ']) = s := by
  unfold stripGutter
  rw [List.cons_append, stripPrefix_cons, if_pos rfl, stripPrefix_nil,
    Option.getD_some]
  dsimp only
  rw [List.getLast?_concat, if_pos rfl, List.dropLast_concat]

/-- The fields of a line come back. -/
theorem extractFields_enclose {pieces : List (List Char)} {cols : Nat}
    (hlen : pieces.length = cols) (h : ∀ p ∈ pieces, '|' ∉ p) :
    extractFields (Fields.enclose '|' pieces) cols =
      some (pieces.map stripGutter) := by
  have hpipes : pipePositions (Fields.enclose '|' pieces) =
      Fields.places '|' 0 (Fields.enclose '|' pieces) := rfl
  unfold extractFields
  rw [hpipes]
  simp only [Fields.length_places_enclose h, hlen, ne_eq, not_true_eq_false,
    if_false]
  have hbetween := congrArg (List.map stripGutter) (Fields.between_enclose h)
  rw [List.map_map] at hbetween
  exact congrArg some hbetween

open Table (separator)

variable {t : Table}

theorem clear_nil : Clear [] where
  trimmed := by
    rw [cellLines_nil]
    exact List.forall_mem_singleton.mpr rfl
  bare := by
    rw [cellLines_nil]
    exact List.forall_mem_singleton.mpr List.not_mem_nil
  ends := .inl rfl

theorem Readable.clear_get (h : Readable t) (r c : Nat) :
    Clear ((t.get r c).getD []) := by
  unfold Table.get
  cases hr : t.cells[r]? with
  | none => exact clear_nil
  | some row =>
      rw [Option.bind_some]
      cases hc : row[c]? with
      | none => exact clear_nil
      | some cell =>
          exact h.clear row (List.mem_of_getElem? hr) cell
            (List.mem_of_getElem? hc)

theorem Readable.plain_get (h : Readable t) {c : Nat} (hr : r < t.rows)
    (hc : c < t.cols) : t.getJustify r c ≠ .full := by
  obtain ⟨row, hrow, hmem⟩ := t.getJustify_mem hr hc
  exact h.plain row hrow _ hmem

/-- A column of the widths. -/
theorem mem_widths {p : Nat × Nat} (hp : p ∈ t.widths.zipIdx) :
    p.2 < t.cols := by
  have hlt := List.snd_lt_of_mem_zipIdx hp
  rwa [t.length_widths] at hlt

/-- No char but spaces is in a field that is not in its line. -/
theorem Readable.not_mem_field (h : Readable t) {k : Nat} (hr : r < t.rows)
    (hc : c ≠ ' ') (hbare : ∀ col, c ∉ lineAt k ((t.get r col).getD [])) :
    ∀ p ∈ t.widths.zipIdx.map (t.field r k), c ∉ p := by
  refine List.forall_mem_map.mpr fun p hp => ?_
  have hj := h.plain_get hr (mem_widths hp)
  simp [Table.field, hc, bare_justifyLine hj hc (hbare p.2) p.1]

theorem Readable.bare_field (h : Readable t) (k : Nat) (hr : r < t.rows) :
    ∀ p ∈ t.widths.zipIdx.map (t.field r k), '|' ∉ p :=
  h.not_mem_field hr (by decide) fun c => (h.clear_get r c).bare_lineAt k

/-- The fields of a line of contents are the lines of the cells. -/
theorem Readable.fields (h : Readable t) (hr' : r < t.cells.length) (k : Nat) :
    ∃ fields, extractFields (t.contentLine r k) t.cols = some fields ∧
      fields.map trim = (t.cells[r]).map (lineAt k) := by
  have hr : r < t.rows := by rwa [t.cells_rows] at hr'
  have hcols := t.cells_cols _ (List.getElem_mem hr')
  refine ⟨(t.widths.zipIdx.map (t.field r k)).map stripGutter, ?_, ?_⟩
  · rw [t.contentLine_eq]
    exact extractFields_enclose
      (by rw [List.length_map, List.length_zipIdx, t.length_widths])
      (h.bare_field k hr)
  · refine List.ext_getElem (by simp [hcols, t.length_widths])
      fun c h₁ h₂ => ?_
    rw [List.length_map, hcols] at h₂
    have hc : c < t.cells[r].length := by rwa [hcols]
    have hget : t.get r c = some (t.cells[r])[c] := by
      rw [t.get_row hr', List.getElem?_eq_getElem]
    simp only [List.getElem_map, List.getElem_zipIdx, Table.field]
    rw [stripGutter_padded, Nat.zero_add, hget, Option.getD_some,
      trim_justifyLine (h.plain_get hr h₂)]
    have hclear := (h.clear_get r c).trim_lineAt k
    rwa [hget, Option.getD_some] at hclear

-- == the rows

/-- Lines of fields add up, column by column. -/
theorem foldl_pushFields {ls : List (List Char)} (row : List (List Char))
    {line : Nat → List Char} {ks : List Nat}
    (pre : List Char → List (List Char))
    (h : ∀ k, ∃ fields, extractFields (line k) row.length = some fields ∧
      fields.map trim = row.map (lineAt k))
    (hls : ls = ks.map line) :
    ls.foldl (pushFields row.length) (row.map pre) =
      row.map fun cell => pre cell ++ ks.map (lineAt · cell) := by
  subst hls
  induction ks generalizing pre with
  | nil => simp
  | cons k ks ih =>
      obtain ⟨fields, hextract, hfields⟩ := h k
      have hpush : pushFields row.length (row.map pre) (line k) =
          row.map fun cell => pre cell ++ [lineAt k cell] := by
        unfold pushFields
        rw [hextract]
        dsimp only
        have hright : List.zipWith (fun ls f => ls ++ [trim f]) (row.map pre)
            fields = List.zipWith (fun ls f => ls ++ [f]) (row.map pre)
              (fields.map trim) := by
          rw [List.zipWith_map_right]
        rw [hright, hfields, List.zipWith_map, List.zipWith_self]
      rw [List.map_cons, List.foldl_cons, hpush,
        ih fun cell => pre cell ++ [lineAt k cell]]
      simp

/-- The cells of a row come back from its lines. -/
theorem Readable.readRow_rowLines (h : Readable t) (hr : r < t.cells.length) :
    readRow t.cols (t.rowLines r) = t.cells[r] := by
  have hmem := List.getElem_mem hr
  have hcols := t.cells_cols _ hmem
  have hstart : List.replicate t.cols [] =
      (t.cells[r]).map fun _ => ([] : List (List Char)) := by
    rw [List.map_const', hcols]
  have hfold := foldl_pushFields t.cells[r] (fun _ => [])
    (fun k => hcols ▸ h.fields hr k) (rfl : t.rowLines r = _)
  rw [hcols] at hfold
  unfold readRow
  rw [hstart, hfold, List.map_map]
  calc (t.cells[r]).map _ = (t.cells[r]).map id := by
        refine List.map_congr_left fun cell hcell => ?_
        exact (h.clear _ hmem cell hcell).joined (t.le_rowHeight hr hcell)
    _ = t.cells[r] := List.map_id _

-- == the groups

theorem isWhitespace_plus : isWhitespace '+' = false := by decide

theorem isWhitespace_pipe : isWhitespace '|' = false := by decide

theorem startsGrid_separator (c : Char) (ws : List Nat) :
    startsGrid c (separator ws) = decide (c = '+') :=
  startsGrid_cons isWhitespace_plus

theorem startsGrid_contentLine (c : Char) (r k : Nat) :
    startsGrid c (t.contentLine r k) = decide (c = '|') :=
  startsGrid_cons isWhitespace_pipe

/-- Lines of contents collect. -/
theorem foldl_groupLine_rowLines (groups : List (List (List Char)))
    (cur : List (List Char)) (r : Nat) (ks : List Nat) :
    (ks.map (t.contentLine r)).foldl groupLine (groups, cur) =
      (groups, cur ++ ks.map (t.contentLine r)) := by
  induction ks generalizing cur with
  | nil => simp
  | cons k ks ih =>
      have hstep : groupLine (groups, cur) (t.contentLine r k) =
          (groups, cur ++ [t.contentLine r k]) := by
        unfold groupLine
        simp [startsGrid_contentLine]
      rw [List.map_cons, List.foldl_cons, hstep, ih, List.append_assoc,
        List.singleton_append]

/-- A border behind a row ends it. -/
theorem foldl_groupLine_row (groups : List (List (List Char))) (r : Nat) :
    (t.rowLines r ++ [separator t.widths]).foldl groupLine (groups, []) =
      (groups ++ [t.rowLines r], []) := by
  have hne : t.rowLines r ≠ [] := by
    intro hnil
    have hlen := congrArg List.length hnil
    rw [Table.rowLines, List.length_map, List.length_range] at hlen
    exact absurd hlen (Nat.ne_of_gt (t.rowHeight_pos r))
  rw [List.foldl_append, Table.rowLines, foldl_groupLine_rowLines,
    List.nil_append, ← Table.rowLines, List.foldl_cons, List.foldl_nil]
  unfold groupLine
  simp [startsGrid_separator, hne]

theorem foldl_groupLine_rows (groups : List (List (List Char)))
    (rs : List Nat) :
    (rs.flatMap fun r => t.rowLines r ++ [separator t.widths]).foldl groupLine
      (groups, []) = (groups ++ rs.map t.rowLines, []) := by
  induction rs generalizing groups with
  | nil => simp
  | cons r rs ih =>
      rw [List.flatMap_cons, List.foldl_append, foldl_groupLine_row, ih,
        List.map_cons, List.append_assoc, List.singleton_append]

/-- The groups of the drawing's lines are the rows. -/
theorem foldl_groupLine_gridLines :
    t.gridLines.foldl groupLine ([], []) =
      ((List.range t.rows).map t.rowLines, []) := by
  have hborder : groupLine ([], []) (separator t.widths) = ([], []) := by
    unfold groupLine
    simp [startsGrid_separator]
  rw [Table.gridLines, List.foldl_cons, hborder, foldl_groupLine_rows,
    List.nil_append]

-- == the table

theorem cells_foldl_set (r : Nat) (ps : List (List Char × Nat)) (t : Table) :
    (ps.foldl (fun table p => table.set r p.2 p.1) t).cells =
      t.cells.modify r (ps.foldl (fun row p => row.set p.2 p.1)) := by
  induction ps generalizing t with
  | nil => exact (List.modify_id r t.cells).symm
  | cons p ps ih =>
      rw [List.foldl_cons, ih, Table.set, List.modify_modify_eq]
      rfl

theorem foldl_keeps {α β γ : Type*} (f : β → α → β) (g : β → γ)
    (h : ∀ b a, g (f b a) = g b) (xs : List α) (b : β) :
    g (xs.foldl f b) = g b := by
  induction xs generalizing b with
  | nil => rfl
  | cons x xs ih => rw [List.foldl_cons, ih, h]

/-- A row of the new table is filled. -/
def fillRow (cols : Nat) (group : List (List Char)) (row : List (List Char)) :
    List (List Char) :=
  (readRow cols group).zipIdx.foldl (fun row p => row.set p.2 p.1) row

/-- What a group of lines becomes in the new table. -/
def setRow (cols : Nat) (table : Table) (p : List (List Char) × Nat) : Table :=
  (readRow cols p.1).zipIdx.foldl (fun table q => table.set p.2 q.2 q.1) table

theorem cells_setRow (cols : Nat) (table : Table)
    (p : List (List Char) × Nat) : (setRow cols table p).cells =
      table.cells.modify p.2 (fillRow cols p.1) :=
  cells_foldl_set _ _ _

theorem cells_foldl_setRow (cols : Nat)
    (ps : List (List (List Char) × Nat)) (table : Table) :
    (ps.foldl (setRow cols) table).cells =
      ps.foldl (fun cells p => cells.modify p.2 (fillRow cols p.1))
        table.cells := by
  induction ps generalizing table with
  | nil => rfl
  | cons p ps ih => rw [List.foldl_cons, ih, cells_setRow, List.foldl_cons]

theorem rows_setRow (cols : Nat) (table : Table)
    (p : List (List Char) × Nat) : (setRow cols table p).rows = table.rows :=
  foldl_keeps (fun (table : Table) (q : List Char × Nat) =>
    table.set p.2 q.2 q.1) Table.rows (fun _ _ => rfl) _ _

theorem cols_setRow (cols : Nat) (table : Table)
    (p : List (List Char) × Nat) : (setRow cols table p).cols = table.cols :=
  foldl_keeps (fun (table : Table) (q : List Char × Nat) =>
    table.set p.2 q.2 q.1) Table.cols (fun _ _ => rfl) _ _

/-- The groups of a drawing fill a new table with the cells. -/
theorem Readable.cells_filled (h : Readable t) :
    (((List.range t.rows).map t.rowLines).zipIdx.foldl (setRow t.cols)
      (Table.new t.rows t.cols)).cells = t.cells := by
  rw [cells_foldl_setRow, foldl_modify_zipIdx _ (by simp [Table.new])]
  refine List.ext_getElem (by simp [Table.new, t.cells_rows]) fun r h₁ h₂ => ?_
  have hcols := t.cells_cols _ (List.getElem_mem h₂)
  simp only [List.getElem_zipWith, List.getElem_map, List.getElem_range,
    Table.new, List.getElem_replicate]
  unfold fillRow
  rw [h.readRow_rowLines h₂, foldl_set_zipIdx (by simp [hcols])]

-- == the law

/-- A char that is no space and in no cell is not in the contents. -/
theorem Readable.not_mem_contentLine (h : Readable t) (hr : r < t.rows)
    (hspace : c ≠ ' ') (hpipe : c ≠ '|')
    (hcells : ∀ k col, c ∉ lineAt k ((t.get r col).getD [])) (k : Nat) :
    c ∉ t.contentLine r k := by
  rw [t.contentLine_eq]
  exact Fields.not_mem_enclose hpipe
    (h.not_mem_field hr hspace (hcells k))

theorem newline_lineAt (k : Nat) (cell : List Char) :
    '\n' ∉ lineAt k cell := by
  rcases lineAt_mem k cell with hmem | hnil
  · exact Merge.no_newline _ hmem
  · rw [hnil]
    exact List.not_mem_nil

theorem newline_separator (ws : List Nat) : '\n' ∉ separator ws := by
  rw [Table.separator_eq]
  refine Fields.not_mem_enclose (by decide)
    (List.forall_mem_map.mpr fun w _ hmem => ?_)
  exact absurd (List.eq_of_mem_replicate hmem) (by decide)

/-- A line of the drawing is a border or one of contents. -/
theorem mem_gridLines {line : List Char} (hline : line ∈ t.gridLines) :
    line = separator t.widths ∨
      ∃ r k, r < t.rows ∧ line = t.contentLine r k := by
  rcases List.mem_cons.mp hline with heq | hmem
  · exact .inl heq
  · obtain ⟨r, hr, hmem⟩ := List.mem_flatMap.mp hmem
    rcases List.mem_append.mp hmem with hmem | hmem
    · obtain ⟨k, -, heq⟩ := List.mem_map.mp hmem
      exact .inr ⟨r, k, List.mem_range.mp hr, heq.symm⟩
    · exact .inl (List.mem_singleton.mp hmem)

/-- The lines of the drawing's text. -/
theorem Readable.lines_render (h : Readable t) :
    lines t.render = t.gridLines := by
  have hnewline : ∀ line ∈ t.gridLines, '\n' ∉ line := by
    intro line hline
    rcases mem_gridLines hline with rfl | ⟨r, k, hr, rfl⟩
    · exact newline_separator t.widths
    · exact h.not_mem_contentLine hr (by decide) (by decide)
        (fun _ _ => newline_lineAt _ _) k
  rw [t.render_eq, lines_unlines hnewline]
  refine (List.map_congr_left fun line hline => ?_).trans (List.map_id _)
  rcases mem_gridLines hline with rfl | ⟨r, k, -, rfl⟩
  · rw [Table.separator_eq]
    exact stripCr_enclose (by decide)
  · rw [t.contentLine_eq]
    exact stripCr_enclose (by decide)

theorem filter_gridLines :
    (t.gridLines.filter fun l => startsGrid '+' l || startsGrid '|' l) =
      t.gridLines := by
  refine List.filter_eq_self.mpr fun line hline => ?_
  rcases mem_gridLines hline with rfl | ⟨r, k, -, rfl⟩
  · simp [startsGrid_separator]
  · simp [startsGrid_contentLine]

theorem Readable.length_pipes (h : Readable t) (k : Nat) (hr : r < t.rows) :
    (pipePositions (t.contentLine r k)).length = t.cols + 1 := by
  have hpipes : pipePositions (t.contentLine r k) =
      Fields.places '|' 0 (t.contentLine r k) := rfl
  rw [hpipes, t.contentLine_eq,
    Fields.length_places_enclose (h.bare_field k hr), List.length_map,
    List.length_zipIdx, t.length_widths]

/-- What is drawn of a table with clear cells, none of them spread, is
recognized as a table of the same cells, rows and columns. -/
theorem recognize_law (t : Table) (h : Readable t) (hrows : 0 < t.rows)
    (hcols : 0 < t.cols) :
    ∃ read, recognize t.render = some read ∧ read.cells = t.cells ∧
      read.rows = t.rows ∧ read.cols = t.cols := by
  refine ⟨((List.range t.rows).map t.rowLines).zipIdx.foldl (setRow t.cols)
    (Table.new t.rows t.cols), ?_, h.cells_filled, ?_, ?_⟩
  · obtain ⟨n, hn⟩ := Nat.exists_eq_succ_of_ne_zero (Nat.ne_of_gt hrows)
    have hgroups : (List.range t.rows).map t.rowLines =
        t.rowLines 0 :: ((List.range n).map Nat.succ).map t.rowLines := by
      rw [hn, List.range_succ_eq_map, List.map_cons]
    have hfirst : (t.rowLines 0).headD [] = t.contentLine 0 0 := by
      obtain ⟨m, hm⟩ := Nat.exists_eq_succ_of_ne_zero
        (Nat.ne_of_gt (t.rowHeight_pos 0))
      rw [Table.rowLines, hm, List.range_succ_eq_map]
      rfl
    unfold recognize
    rw [h.lines_render]
    simp only [filter_gridLines]
    rw [if_neg (by simp [Table.gridLines]), foldl_groupLine_gridLines]
    simp only [ne_eq, not_true_eq_false, if_false]
    rw [hgroups]
    simp only [hfirst, h.length_pipes 0 hrows]
    rw [if_neg (by omega), ← hgroups]
    simp only [List.length_map, List.length_range, Nat.add_sub_cancel]
    rfl
  · exact foldl_keeps _ Table.rows (rows_setRow t.cols) _ _
  · exact foldl_keeps _ Table.cols (cols_setRow t.cols) _ _

/-- Two rows of two columns: a cell of two lines, an empty one, one that a
blank line begins, and room to spare. -/
def sampleTable : Table where
  cells := [[['a', 'b', '\n', 'c'], []], [['d', ' ', 'e'], ['\n', '+']]]
  justify := [[.right, .left], [.center, .right]]
  minColWidth := [6, 0]
  minRowHeight := [1, 4]
  rows := 2
  cols := 2
  cells_rows := rfl
  cells_cols := by simp
  justify_rows := rfl
  justify_cols := by simp
  widths_cols := rfl
  heights_rows := rfl

theorem readable_sampleTable : Readable sampleTable where
  clear := by decide
  plain := by decide

theorem recognize_law_sample : ∃ read,
    recognize sampleTable.render = some read ∧
      read.cells = sampleTable.cells ∧ read.rows = 2 ∧ read.cols = 2 :=
  recognize_law sampleTable readable_sampleTable (by decide) (by decide)

end Zmax.TextTable
