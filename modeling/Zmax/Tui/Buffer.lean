/-
zmax-tui/src/buffer.rs: the difference between two buffers, as the cells
to draw, merging one buffer into another, and printing truncated text.

A cell's colours, underline and modifiers are compared and copied, and
nothing else: they are a parameter, the reset style its default.
-/
import Zmax.Tui.Text
import Zmax.View.Tree

namespace Zmax

/-- One cell of the terminal. -/
structure Cell (σ : Type) where
  symbol : String
  /-- Cached display width of `symbol`. -/
  width : Nat
  style : σ
  deriving DecidableEq, Repr

variable {σ : Type}

/-- `Default` -/
def Cell.default [Inhabited σ] : Cell σ := ⟨" ", 1, Inhabited.default⟩

/-- A buffer that maps to the desired content of the terminal. -/
structure Buffer (σ : Type) where
  area : Rect
  content : List (Cell σ)
  deriving DecidableEq, Repr

namespace Buffer

/-- The cells to draw from index `i` on. `invalidated` cells are changed
by multi-width characters in front, and `toSkip` are in their place. -/
def diffLoop [DecidableEq σ] (width : Nat) :
    List (Cell σ × Cell σ) → Nat → Nat → Nat → List (U16 × U16 × Cell σ)
  | [], _, _, _ => []
  | (current, previous) :: rest, i, invalidated, toSkip =>
      let updates :=
        if (current ≠ previous || 0 < invalidated) && toSkip = 0 then
          [(U16.ofUsize (i % width), U16.ofUsize (i / width), current)]
        else []
      let currentWidth := current.width
      let affectedWidth := max currentWidth previous.width
      updates ++ diffLoop width rest (i + 1)
        (max affectedWidth invalidated - 1) (currentWidth - 1)

/-- The updates from a buffer to another. -/
def diff [DecidableEq σ] (self other : Buffer σ) :
    List (U16 × U16 × Cell σ) :=
  diffLoop self.area.width.val (other.content.zip self.content) 0 0 0

-- == merge

/-- `pos_of`: where a cell is. A division by zero panics. -/
def posOf (self : Buffer σ) (i : Nat) : Result (U16 × U16) := do
  assert (i < self.content.length)
  assert (self.area.width.val ≠ 0)
  return (U16.ofUsize (self.area.x.val + i % self.area.width.val),
    U16.ofUsize (self.area.y.val + i / self.area.width.val))

/-- The new index of a cell in a larger area, computed as an `u16`. -/
def mergedIndex (area : Rect) (pos : U16 × U16) : Result Nat := do
  let row ← U16.checkedSub pos.2 area.y
  let start ← U16.checkedMul row area.width
  let right ← U16.checkedAdd start pos.1
  let k ← U16.checkedSub right area.x
  return k.val

/-- `content[i] = cell` -/
def setCell (content : List (Cell σ)) (i : Nat) (cell : Cell σ) :
    Result (List (Cell σ)) :=
  if i < content.length then .ok (content.set i cell)
  else .error .outOfBounds

/-- `content.resize(len, cell)` -/
def resize (content : List (Cell σ)) (len : Nat) (cell : Cell σ) :
    List (Cell σ) :=
  content.take len ++ List.replicate (len - content.length) cell

/-- Move one of the buffer's own cells to where it is in the new area. -/
def moveCell [Inhabited σ] (self area : Rect) (content : List (Cell σ))
    (i : Nat) : Result (List (Cell σ)) := do
  let pos ← posOf ⟨self, content⟩ i
  let k ← mergedIndex area pos
  if i ≠ k then
    let cell ← index content i
    let content ← setCell content k cell
    setCell content i .default
  else return content

/-- Write one of the other buffer's cells. -/
def pushCell (other : Buffer σ) (area : Rect) (content : List (Cell σ))
    (i : Nat) : Result (List (Cell σ)) := do
  let pos ← other.posOf i
  let k ← mergedIndex area pos
  let cell ← index other.content i
  setCell content k cell

/-- `merge` -/
def merge [Inhabited σ] (self other : Buffer σ) : Result (Buffer σ) := do
  let area ← self.area.union other.area
  let content := resize self.content area.area .default
  let content ← (List.range self.area.area).reverse.foldlM
    (moveCell self.area area) content
  let content ← (List.range other.area.area).foldlM (pushCell other area)
    content
  return ⟨area, content⟩

-- == changing the cells

/-- `Cell::set_symbol` -/
def setSymbol (G : Segmenter) (symbol : List Char) (cell : Cell σ) : Cell σ :=
  let symbol :=
    if (symbol.map Char.utf8Size).sum ≤ 28 then symbol else ['\uFFFD']
  { cell with
    symbol := String.ofList symbol
    width := G.width symbol % 256 }

/-- `Cell::set_style` -/
def setStyle (style : σ → σ) (cell : Cell σ) : Cell σ :=
  { cell with style := style cell.style }

/-- `&mut content[i]` -/
def change (content : List (Cell σ)) (i : Nat) (f : Cell σ → Cell σ) :
    Result (List (Cell σ)) := do
  let cell ← index content i
  setCell content i (f cell)

/-- The same for `n` cells from `i` on. -/
def changeRun (f : Cell σ → Cell σ) :
    Nat → Nat → List (Cell σ) → Result (List (Cell σ))
  | 0, _, content => return content
  | n + 1, i, content => do
      let content ← change content i f
      changeRun f n (i + 1) content

/-- `in_bounds` -/
def inBounds (self : Buffer σ) (x y : U16) : Bool :=
  self.area.x ≤ x ∧ x < self.area.x.saturatingAdd self.area.width ∧
    self.area.y ≤ y ∧ y < self.area.y.saturatingAdd self.area.height

/-- `index_of` -/
def indexOf (self : Buffer σ) (x y : U16) : Result Nat := do
  assert (self.inBounds x y)
  let row ← U16.checkedSub y self.area.y
  let col ← U16.checkedSub x self.area.x
  return row.val * self.area.width.val + col.val

section Printing

variable [Inhabited σ] (G : Segmenter)

/-- A grapheme in its cell, and the cells reset that it hides. -/
def putGrapheme (content : List (Cell σ)) (i : Nat) (s : List Char)
    (style : σ → σ) : Result (List (Cell σ)) := do
  let content ← change content i fun cell => setStyle style (setSymbol G s cell)
  changeRun (fun _ => Cell.default) (G.width s - 1) (i + 1) content

/-- `n` cells of ellipsis. -/
def putEllipsis (n i : Nat) (content : List (Cell σ)) :
    Result (List (Cell σ)) :=
  changeRun (setSymbol G ['…']) n i content

-- == anchored

/-- The graphemes of `set_string_anchored`; `rendered` is the width so far. -/
def anchoredLoop (truncateEnd : Bool) (width : Nat) (style : Nat → σ → σ) :
    List (Nat × List Char) → Nat → Nat → List (Cell σ) →
      Result (List (Cell σ) × Nat × Nat)
  | [], i, rendered, content => return (content, i, rendered)
  | (offset, s) :: graphemes, i, rendered, content =>
      if truncateEnd ∧ rendered + G.width s ≥ width then
        return (content, i, rendered)
      else if G.width s = 0 then
        anchoredLoop truncateEnd width style graphemes i rendered content
      else do
        let content ← putGrapheme G content i s (style offset)
        anchoredLoop truncateEnd width style graphemes (i + G.width s)
          (rendered + G.width s) content

/-- `set_string_anchored` -/
def setStringAnchored (self : Buffer σ) (x y : U16)
    (truncateStart truncateEnd : Bool) (string : List Char) (width : Nat)
    (style : Nat → σ → σ) : Result (Buffer σ × U16 × U16) := do
  if !self.inBounds x y ∨ width = 0 then
    return (self, x, y)
  else
    let i ← self.indexOf x y
    let graphemes := G.graphemeIndices string
    let marked := if truncateStart then
      (graphemes.head?.map fun g => G.width g.2).getD 0 else 0
    let content ← putEllipsis G marked i self.content
    let (content, i, rendered) ← anchoredLoop G truncateEnd width style
      (if truncateStart then graphemes.tail else graphemes) (i + marked) marked
      content
    let content ← putEllipsis G (if truncateEnd then width - rendered else 0)
      i content
    return ({ self with content := content }, x, y)

-- == truncated

/-- The graphemes of `set_string_truncated`, up to an edge. -/
def forwardLoop (maxOffset : Nat) (style : Nat → σ → σ) :
    List (Nat × List Char) → Nat → Nat → List (Cell σ) →
      Result (List (Cell σ) × Nat × Nat)
  | [], i, xOffset, content => return (content, i, xOffset)
  | (offset, s) :: graphemes, i, xOffset, content =>
      if G.width s = 0 then
        forwardLoop maxOffset style graphemes i xOffset content
      else if G.width s > maxOffset - xOffset then
        return (content, i, xOffset)
      else do
        let content ← putGrapheme G content i s (style offset)
        forwardLoop maxOffset style graphemes (i + G.width s)
          (xOffset + G.width s) content

/-- The graphemes from the last one on, each with its style, down to an
index. -/
def backwardLoop (startIndex : Nat) :
    List (List Char × (σ → σ)) → Nat → Nat → List (Cell σ) →
      Result (List (Cell σ) × Nat)
  | [], _, xOffset, content => return (content, xOffset)
  | (s, style) :: graphemes, i, xOffset, content =>
      if G.width s = 0 then
        backwardLoop startIndex graphemes i xOffset content
      else do
        let start ← checkedSub i (G.width s)
        if start < startIndex then return (content, xOffset)
        else do
          let content ← putGrapheme G content start s style
          backwardLoop startIndex graphemes start (xOffset + G.width s) content

/-- The end of a text that is `contentWidth` wide, right-aligned in `width`
columns; `ellipsis` marks a text that is wider. -/
def putEnd (self : Buffer σ) (x y : U16) (maxOffset : U16)
    (graphemes : List (List Char × (σ → σ))) (contentWidth width : Nat)
    (ellipsis : Bool) : Result (Buffer σ × U16 × U16) := do
  let startIndex ← self.indexOf x y
  let i ← self.indexOf maxOffset y
  let truncated := contentWidth > width
  let marked := if ellipsis ∧ truncated then 1 else 0
  let content ← putEllipsis G marked startIndex self.content
  let pad ← if truncated then .ok 0 else checkedSub width contentWidth
  let i ← checkedSub i pad
  let (content, xOffset) ← backwardLoop G (startIndex + marked)
    graphemes.reverse i x.val content
  return ({ self with content := content }, U16.ofUsize xOffset, y)

/-- `set_string_truncated` -/
def setStringTruncated (self : Buffer σ) (x y : U16) (string : List Char)
    (width : Nat) (style : Nat → σ → σ) (ellipsis truncateStart : Bool) :
    Result (Buffer σ × U16 × U16) := do
  if !self.inBounds x y ∨ width = 0 then
    return (self, x, y)
  else
    let width := if ellipsis then width - 1 else width
    let right := self.area.x.saturatingAdd self.area.width
    let maxOffset := min right.val (width + x.val)
    let graphemes := G.graphemeIndices string
    if truncateStart then
      putEnd G self x y (U16.ofUsize maxOffset)
        (graphemes.map fun (offset, s) => (s, style offset)) (G.width string)
        width ellipsis
    else
      let i ← self.indexOf x y
      let (content, i, xOffset) ← forwardLoop G maxOffset style graphemes i
        x.val self.content
      let marked := if ellipsis ∧ xOffset - x.val < G.width string then 1 else 0
      let content ← putEllipsis G marked i content
      return ({ self with content := content }, U16.ofUsize xOffset, y)

/-- `set_spans_truncated` -/
def setSpansTruncated (self : Buffer σ) (x y : U16) (spans : Tui.Spans σ)
    (width : U16) : Result (Buffer σ × U16 × U16) := do
  if !self.inBounds x y ∨ width = 0 then
    return (self, x, y)
  else
    let right := self.area.x.saturatingAdd self.area.width
    let maxOffset := min right (width.saturatingAdd x)
    putEnd G self x y maxOffset
      (spans.flatMap fun span => (G.graphemes span.content).map
        fun s => (s, span.style)) (Tui.spansWidth G spans) width.val true

attribute [grind =] diffLoop changeRun anchoredLoop forwardLoop backwardLoop

end Printing

end Buffer

end Zmax
