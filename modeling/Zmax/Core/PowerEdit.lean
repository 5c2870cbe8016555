/-
zmax-core/src/power_edit.rs: the visual rows of a wrapped line, and the
regions that a selection grows to.
-/
import Zmax.Core.Unicode

namespace Zmax.PowerEdit

-- == soft wrap

/-- Where the row from `lineStart` on ends when it is full at `i`: at the last
break point, or in the middle of a word. -/
def rowBreak (lineStart : Nat) (lastBreak : Option Nat) (i : Nat) : Nat :=
  match lastBreak with
  | some b => if lineStart < b ∧ b ≤ i then b else i
  | none => i

theorem lt_rowBreak {lineStart i : Nat} (lastBreak : Option Nat)
    (h : lineStart < i) : lineStart < rowBreak lineStart lastBreak i := by
  unfold rowBreak
  split
  · split
    · exact And.left ‹_›
    · exact h
  · exact h

theorem rowBreak_le (lineStart : Nat) (lastBreak : Option Nat) (i : Nat) :
    rowBreak lineStart lastBreak i ≤ i := by
  unfold rowBreak
  split
  · split
    · exact And.right ‹_›
    · exact Nat.le_refl i
  · exact Nat.le_refl i

/-- The loop of `soft_wrap_offsets`: the offsets that it still pushes. -/
def softWrapLoop (chars : List Char) (width : Nat) (hwidth : 0 < width)
    (lineStart : Nat) (lastBreak : Option Nat) (i : Nat) : List Nat :=
  if h : i < chars.length then
    if hfull : width ≤ i - lineStart then
      let brk := rowBreak lineStart lastBreak i
      brk :: softWrapLoop chars width hwidth brk none brk
    else
      let lastBreak :=
        if chars[i] = ' ' ∨ chars[i] = '\t' then some (i + 1) else lastBreak
      softWrapLoop chars width hwidth lineStart lastBreak (i + 1)
  else []
termination_by (chars.length - lineStart, chars.length - i)
decreasing_by
  · have hlt := lt_rowBreak (i := i) lastBreak (show lineStart < i by omega)
    exact Prod.Lex.left _ _ (by omega)
  · exact Prod.Lex.right _ (by omega)

/-- `soft_wrap_offsets`: where each visual row begins. -/
def softWrapOffsets (line : List Char) (width : Nat) : List Nat :=
  if h : width = 0 then [0]
  else if line.length ≤ width then [0]
  else 0 :: softWrapLoop line width (Nat.pos_of_ne_zero h) 0 none 0

/-- The last of the rows, from row `r` on, that starts at a position or
before; `row` if none does. -/
def lastRow (charPos row r : Nat) : List Nat → Nat
  | [] => row
  | start :: offsets =>
      if start ≤ charPos then lastRow charPos r (r + 1) offsets else row

/-- `visual_row_col` -/
def visualRowCol (offsets : List Nat) (charPos : Nat) :
    Result (Nat × Nat) := do
  let row := lastRow charPos 0 0 offsets
  let start ← index offsets row
  let col ← checkedSub charPos start
  return (row, col)

/-- `visual_move_down`; `total` is the line's char length. -/
def visualMoveDown (offsets : List Nat) (total charPos : Nat) :
    Result Nat := do
  let (row, col) ← visualRowCol offsets charPos
  if row + 1 ≥ offsets.length then
    return charPos
  else
    let nextStart ← index offsets (row + 1)
    let nextEnd := offsets[row + 2]?.getD total
    return min (nextStart + col) nextEnd

/-- `visual_move_up` -/
def visualMoveUp (offsets : List Nat) (charPos : Nat) : Result Nat := do
  let (row, col) ← visualRowCol offsets charPos
  if row = 0 then
    return charPos
  else
    let prevStart ← index offsets (row - 1)
    let prevEnd ← index offsets row
    return min (prevStart + col) (max (prevEnd - 1) prevStart)

-- == expand region

/-- Left over the chars with a property: `while i > 0 && p(chars[i - 1])`. -/
def walkLeft (p : Char → Bool) (chars : List Char) : Nat → Nat
  | 0 => 0
  | i + 1 => if chars[i]?.any p then walkLeft p chars i else i + 1

/-- Right over them: `while i < chars.len() && p(chars[i])`. -/
def walkRight (p : Char → Bool) (chars : List Char) (i : Nat) : Nat :=
  i + ((chars.drop i).takeWhile p).length

attribute [grind =] lastRow walkLeft

theorem walkLeft_le (p : Char → Bool) (chars : List Char) (i : Nat) :
    walkLeft p chars i ≤ i := by
  induction i with
  | zero => exact Nat.le_refl 0
  | succ i ih =>
      rw [walkLeft]
      split
      · exact Nat.le_succ_of_le ih
      · exact Nat.le_refl _

theorem le_walkRight (p : Char → Bool) (chars : List Char) (i : Nat) :
    i ≤ walkRight p chars i := Nat.le_add_right _ _

section Word

variable (U : Unicode)

/-- `is_word_char` -/
def isWordChar (c : Char) : Bool := U.isAlphanumeric c || c == '_'

/-- Where the word is looked for: at the start of the selection, or right
before it. -/
def wordAnchor (chars : List Char) (s e : Nat) : Option (Nat × Nat) :=
  if chars[s]?.any (isWordChar U) then some (s, max e s)
  else if 0 < s ∧ chars[s - 1]?.any (isWordChar U) then some (s - 1, s - 1)
  else none

/-- `word_bounds` -/
def wordBounds (chars : List Char) (s e : Nat) : Option (Nat × Nat) := do
  let (start, stop) ← wordAnchor U chars s e
  let start := walkLeft (isWordChar U) chars start
  let stop := walkRight (isWordChar U) chars stop
  if start < s ∨ stop > e then some (start, stop) else none

end Word

/-- `PAIRS` -/
def PAIRS : List (Char × Char) := [('(', ')'), ('[', ']'), ('{', '}')]

/-- The nearest opener before `i` that no closer between them matches, but for
`depth` of them. -/
def openBefore (pair : Char × Char) (chars : List Char) :
    Nat → Nat → Option Nat
  | 0, _ => none
  | i + 1, depth =>
      if chars[i]? = some pair.2 then openBefore pair chars i (depth + 1)
      else if chars[i]? = some pair.1 then
        if depth = 0 then some i else openBefore pair chars i (depth - 1)
      else openBefore pair chars i depth

/-- The first closer that no opener between them matches, but for `depth` of
them; the chars start at `j`. -/
def closeAfter (pair : Char × Char) : Nat → Nat → List Char → Option Nat
  | _, _, [] => none
  | depth, j, c :: chars =>
      if c = pair.1 then closeAfter pair (depth + 1) (j + 1) chars
      else if c = pair.2 then
        if depth = 0 then some j else closeAfter pair (depth - 1) (j + 1) chars
      else closeAfter pair depth (j + 1) chars

/-- The pair of one kind, if it is found: its inside and the whole of it. -/
def enclosingOf (chars : List Char) (s e : Nat) (pair : Char × Char) :
    Option ((Nat × Nat) × (Nat × Nat)) := do
  let op ← openBefore pair chars s 0
  let cl ← closeAfter pair 0 (op + 1) (chars.drop (op + 1))
  if cl + 1 ≥ e then some ((op + 1, cl), (op, cl + 1)) else none

/-- `enclosing_pair` -/
def enclosingPair (chars : List Char) (s e : Nat) :
    Option ((Nat × Nat) × (Nat × Nat)) :=
  PAIRS.findSome? (enclosingOf chars s e)

/-- `line_bounds` -/
def lineBounds (chars : List Char) (s e : Nat) : Nat × Nat :=
  (walkLeft (· ≠ '\n') chars (min s chars.length),
    walkRight (· ≠ '\n') chars (min e chars.length))

/-- `is_blank_line_start` -/
def isBlankLineStart (chars : List Char) (idx : Nat) : Bool :=
  chars.length ≤ idx ∨ chars[idx]? = some '\n'

/-- Up over the lines that are not blank. -/
def paragraphStart (chars : List Char) (start : Nat) : Nat :=
  if h : start = 0 then start
  else
    let prev := walkLeft (· ≠ '\n') chars (start - 1)
    if isBlankLineStart chars prev then start else paragraphStart chars prev
termination_by start
decreasing_by
  have hle := walkLeft_le (· ≠ '\n') chars (start - 1)
  omega

/-- Down over them. -/
def paragraphEnd (chars : List Char) (stop : Nat) : Nat :=
  if h : chars.length ≤ stop then stop
  else if isBlankLineStart chars (stop + 1) then stop
  else paragraphEnd chars (walkRight (· ≠ '\n') chars (stop + 1))
termination_by chars.length - stop
decreasing_by
  have hle := le_walkRight (· ≠ '\n') chars (stop + 1)
  omega

/-- `paragraph_bounds` -/
def paragraphBounds (chars : List Char) (s e : Nat) : Nat × Nat :=
  (paragraphStart chars (lineBounds chars s e).1,
    paragraphEnd chars (lineBounds chars s e).2)

/-- One region strictly contains another. -/
def Beyond (r sel : Nat × Nat) : Prop :=
  r.1 ≤ sel.1 ∧ sel.2 ≤ r.2 ∧ (r.1 < sel.1 ∨ r.2 > sel.2)

instance (r sel : Nat × Nat) : Decidable (Beyond r sel) :=
  inferInstanceAs (Decidable (r.1 ≤ sel.1 ∧ sel.2 ≤ r.2 ∧
    (r.1 < sel.1 ∨ r.2 > sel.2)))

/-- The selection, within the text. -/
def clamp (text : List Char) (sel : Nat × Nat) : Nat × Nat :=
  (min sel.1 text.length, min sel.2 text.length)

/-- The candidates of `expand_region`, in order. -/
def candidates (U : Unicode) (chars : List Char) (s e : Nat) :
    List (Nat × Nat) :=
  (wordBounds U chars s e).toList ++
    (match enclosingPair chars s e with
      | some (inner, outer) => [inner, outer]
      | none => []) ++
    [lineBounds chars s e, paragraphBounds chars s e, (0, chars.length)]

/-- `expand_region` -/
def expandRegion (U : Unicode) (text : List Char) (sel : Nat × Nat) :
    Result (Option (Nat × Nat)) := do
  let (s, e) := clamp text sel
  let fits := (candidates U text s e).filter (Beyond · (s, e))
  let _ ← fits.mapM fun (cs, ce) => checkedSub ce cs
  return fits.minOn? fun (cs, ce) => ce - cs

attribute [grind =] openBefore closeAfter

end Zmax.PowerEdit
