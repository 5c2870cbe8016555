/-
zmax-core/src/snippets/render.rs: the text of a snippet at every cursor,
with the ranges its tabstops have in the document.

# Parameters

`resolve_var` is a closure that may change its captures: it comes with a
state. `Environment` stands for what rendering asks of other code:
display widths, which rest on Unicode tables and on vim's `vartabstop`,
and what a transform makes of a variable's value, which is up to the
regex crate.

Rendering a tabstop renders its placeholder, which names tabstops again.
As many of them may be open at once as the table is long; with more, one
is open inside itself and rendering never ends (`Panic.diverges`).
-/
import Zmax.Core.Lines
import Zmax.Core.Snippets.Elaborate
import Zmax.Core.Transaction
import Zmax.Stdx.Range

namespace Zmax.Snippets

inductive IndentStyle where
  | tabs
  | spaces (n : Nat)
  deriving DecidableEq, Repr

namespace Render

inductive TabstopKind where
  | choice (choices : List Tendril)
  | placeholder
  | empty
  | transform (transform : Transform)
  deriving DecidableEq, Repr

structure Tabstop where
  ranges : List Stdx.Range
  parent : Option TabstopIdx
  kind : TabstopKind
  deriving DecidableEq, Repr

end Render

structure RenderedSnippet where
  tabstops : List Render.Tabstop
  /-- One for each instance, of all of its text. -/
  ranges : List Stdx.Range
  deriving DecidableEq, Repr

structure Environment where
  /-- The column of `visual_coords_at_pos` at the end of a prefix. -/
  prefixColumn : Rope → Nat → Nat
  tabWidthAt : Nat → Nat → Nat
  /-- `Transform::apply` to all of a value. -/
  applyTransform : Transform → Tendril → Tendril

/-- `ρ` is what the resolver captures. -/
structure SnippetRenderCtx (ρ : Type) where
  resolveVar : ρ → Tendril → Option Tendril × ρ
  tabWidth : Nat
  indentStyle : IndentStyle
  lineEnding : Tendril

-- == selections

inductive Direction where
  | forward
  | backward
  deriving DecidableEq, Repr

namespace Render.Tabstop

/-- The selection of a tabstop. -/
def selection (self : Tabstop) (direction : Direction)
    (primaryIdx snippetRanges : Nat) : Result Selection := do
  -- a division by zero is a panic like an overflow
  assert (0 < snippetRanges)
  Selection.new
    (self.ranges.map fun range =>
      if direction = .backward then .new range.stop range.start
      else .new range.start range.stop)
    (primaryIdx * (self.ranges.length / snippetRanges))

end Render.Tabstop

namespace RenderedSnippet

def firstSelection (self : RenderedSnippet) (direction : Direction)
    (primaryIdx : Nat) : Result Selection := do
  let tabstop ← index self.tabstops 0
  tabstop.selection direction primaryIdx self.ranges.length

/-- `IndexMut`: change a tabstop in place. -/
def modify (self : RenderedSnippet) (idx : TabstopIdx)
    (f : Render.Tabstop → Render.Tabstop) : Result RenderedSnippet :=
  if idx < self.tabstops.length then
    .ok { self with tabstops := self.tabstops.modify idx f }
  else .error .outOfBounds

end RenderedSnippet

-- == indentation

/-- The loop of `normalize_indentation`: the display width of the leading
blanks, and how many there are. -/
def indentation (tabWidthAt : Nat → Nat) (off : Nat) :
    List Char → Nat → Nat → Nat × Nat
  | [], len, originalLen => (len, originalLen)
  | ch :: line, len, originalLen =>
      if ch = '\t' then
        indentation tabWidthAt off line (len + tabWidthAt (len + off))
          (originalLen + 1)
      else if ch = ' ' then
        indentation tabWidthAt off line (len + 1) (originalLen + 1)
      else (len, originalLen)

variable {ρ : Type} (env : Environment) (ctx : SnippetRenderCtx ρ)

/-- `normalize_indentation`: what is appended for the leading blanks of a
line, and how many there are. -/
def normalizeIndentation (pre : Rope) (line : Tendril) : Tendril × Nat :=
  let off := env.prefixColumn pre ctx.tabWidth
  let (len, originalLen) :=
    indentation (env.tabWidthAt · ctx.tabWidth) off line 0 0
  match ctx.indentStyle with
  | .tabs =>
      (List.replicate (len / ctx.tabWidth) '\t'
        ++ List.replicate (len % ctx.tabWidth) ' ', originalLen)
  | .spaces _ => (List.replicate len ' ', originalLen)

-- == rendering

/-- `SnippetRender`, but for what it does not change. -/
structure SnippetRender (ρ : Type) where
  dst : RenderedSnippet
  text : Tendril
  off : Nat
  atNewline : Bool
  vars : ρ

namespace SnippetRender

variable (src : Snippet) (indent : Rope)

def pushStr (text : Tendril) (atNewline : Bool) (self : SnippetRender ρ) :
    SnippetRender ρ :=
  if atNewline then
    let (blanks, oldIndentLen) := normalizeIndentation env ctx indent text
    let self := { self with
      text := self.text ++ blanks
      off := self.off + blanks.length }
    let text := text.drop oldIndentLen
    if text.isEmpty then { self with atNewline := true }
    else { self with
      text := self.text ++ text
      off := self.off + text.length }
  else { self with
    text := self.text ++ text
    off := self.off + text.length }

def pushNewline (self : SnippetRender ρ) : SnippetRender ρ :=
  { self with
    text := self.text ++ ctx.lineEnding ++ indent
    off := self.off + (ctx.lineEnding.length + indent.length) }

/-- Lines of a text, each after a line break and the indentation. -/
def pushLines (self : SnippetRender ρ) : List Tendril → SnippetRender ρ
  | [] => self
  | line :: lines =>
      pushLines ((self.pushNewline ctx indent).pushStr env ctx indent line
        true) lines

def pushMultilineStr (text : Tendril) (self : SnippetRender ρ) :
    SnippetRender ρ :=
  match (text.splitOn '\n').map Text.stripCr with
  | [] => self
  | firstLine :: lines =>
      (self.pushStr env ctx indent firstLine self.atNewline).pushLines env
        ctx indent lines

/-- `resolve_var`, which may change its captures. -/
def resolveVar (name : Tendril) (self : SnippetRender ρ) :
    Option Tendril × SnippetRender ρ :=
  let (val, vars) := ctx.resolveVar self.vars name
  (val, { self with vars := vars })

/-- What is pushed for a variable that resolves. -/
def transformed (transform : Option Transform) (val : Tendril) : Tendril :=
  match transform with
  | some transform => env.applyTransform transform val
  | none => val

mutual

/-- One element, given how to render a tabstop. -/
def renderElement
    (tabstop : TabstopIdx → SnippetRender ρ → Result (SnippetRender ρ)) :
    SnippetElement → SnippetRender ρ → Result (SnippetRender ρ)
  | .tabstop idx, self => tabstop idx self
  | .variable name none transform, self =>
      match self.resolveVar ctx name with
      | (some val, self) =>
          .ok (self.pushMultilineStr env ctx indent
            (transformed env transform val))
      | (none, self) => .ok self
  | .variable name (some default) transform, self =>
      match self.resolveVar ctx name with
      | (some val, self) =>
          .ok (self.pushMultilineStr env ctx indent
            (transformed env transform val))
      | (none, self) => renderElements tabstop default self
  | .text text, self => .ok (self.pushMultilineStr env ctx indent text)

def renderElements
    (tabstop : TabstopIdx → SnippetRender ρ → Result (SnippetRender ρ)) :
    List SnippetElement → SnippetRender ρ → Result (SnippetRender ρ)
  | [], self => .ok self
  | element :: elements, self => do
      let self ← renderElement tabstop element self
      renderElements tabstop elements self

end

/-- Add a range from `start` to here to a tabstop. -/
def pushRange (idx : TabstopIdx) (start : Nat) (self : SnippetRender ρ) :
    Result (SnippetRender ρ) := do
  let dst ← self.dst.modify idx fun tabstop =>
    { tabstop with ranges := tabstop.ranges ++ [⟨start, self.off⟩] }
  return { self with dst := dst }

def renderTabstop : Nat → TabstopIdx → SnippetRender ρ →
    Result (SnippetRender ρ)
  | 0, _, _ => .error .diverges
  | fuel + 1, idx, self => do
      let start := self.off
      let tabstop ← index src.tabstops idx
      match tabstop.kind with
      | .placeholder (element :: default) => do
          let self ← renderElements env ctx indent (renderTabstop fuel)
            (element :: default) self
          let dst ← self.dst.modify idx fun tabstop =>
            { tabstop with kind := .placeholder }
          pushRange idx start { self with dst := dst }
      | _ => pushRange idx start self

attribute [grind =] renderElement renderTabstop

end SnippetRender

namespace Snippet

/-- Every tabstop starts out without ranges, and as empty: the first
non-empty placeholder changes this. -/
def prepareRender (self : Snippet) : RenderedSnippet where
  tabstops := self.tabstops.map fun tabstop =>
    { ranges := []
      parent := tabstop.parent
      kind :=
        match tabstop.kind with
        | .choice choices => .choice choices
        | .empty => .empty
        | .placeholder _ => .empty
        | .transform transform => .transform transform }
  ranges := []

/-- One instance, its first char at `pos`: the text, the snippet with its
ranges added, and what the resolver captures then. -/
def renderAt (self : Snippet) (snippet : RenderedSnippet) (indent : Rope)
    (atNewline : Bool) (vars : ρ) (pos : Nat) :
    Result (Tendril × Nat × RenderedSnippet × ρ) := do
  let render ← SnippetRender.renderElements env ctx indent
    (SnippetRender.renderTabstop env ctx self indent
      (self.tabstops.length + 1))
    self.elements ⟨snippet, [], pos, atNewline, vars⟩
  return (render.text, render.off - pos,
    { render.dst with ranges := render.dst.ranges ++ [⟨pos, render.off⟩] },
    render.vars)

end Snippet

-- == cursors

/-- What `render` carries from cursor to cursor. -/
structure RenderState (ρ : Type) where
  snippet : RenderedSnippet
  /-- How much longer the document has become. -/
  off : Int
  vars : ρ

variable (unicodeLines : Bool)

namespace Snippet

/-- The closure that creates the text for a cursor. -/
def renderCursor (self : Snippet) (doc : Rope) (replacementStart
    replacementEnd : Nat) (state : RenderState ρ) :
    Result (Tendril × RenderState ρ) := do
  let lineIdx ← charToLine unicodeLines doc replacementStart
  let lineStart ← lineToChar unicodeLines doc lineIdx
  let linePrefix ← slice doc lineStart replacementStart
  let indent := linePrefix.takeWhile Text.isWhitespace
  let atNewline := indent.length == replacementStart - lineStart
  let (replacement, replacementLen, snippet, vars) ←
    self.renderAt env ctx state.snippet indent atNewline state.vars
      (replacementStart + state.off).toNat
  let off := state.off
    + (replacementStart - replacementEnd + replacementLen : Int)
  return (replacement, ⟨snippet, off, vars⟩)

/-- `change_ignore_overlapping` with that closure: the changes, the places
of their cursors, and the state then. A range that starts before the end
of the one before it is ignored. -/
def renderCursors (self : Snippet) (doc : Rope) :
    List (Nat × Nat) → Nat → Nat → RenderState ρ →
      Result (List Change × List Nat × RenderState ρ)
  | [], _, _, state => .ok ([], [], state)
  | (start, stop) :: ranges, i, last, state =>
      if start < last then renderCursors self doc ranges (i + 1) last state
      else do
        let (text, state) ← self.renderCursor env ctx unicodeLines doc start
          stop state
        let (changes, kept, state) ← renderCursors self doc ranges (i + 1)
          stop state
        return ((start, stop, some text) :: changes, i :: kept, state)

/-- The new primary index of `change_by_selection_ignore_overlapping`:
the primary one, else the last before it that is kept. -/
def newPrimaryIdx (primaryIdx : Nat) : List Nat → Option Nat → Option Nat →
    Option Nat
  | [], _, newPrimary => newPrimary
  | idx :: kept, lastSelection, newPrimary =>
      if idx = primaryIdx then
        newPrimaryIdx primaryIdx kept lastSelection (some idx)
      else if newPrimary.isNone then
        if primaryIdx < idx then
          newPrimaryIdx primaryIdx kept lastSelection lastSelection
        else newPrimaryIdx primaryIdx kept (some idx) newPrimary
      else newPrimaryIdx primaryIdx kept lastSelection newPrimary

def render (self : Snippet) (doc : Rope) (selection : Selection)
    (changeRange : Range → Nat × Nat) (vars : ρ) :
    Result (Transaction × Selection × RenderedSnippet × ρ) := do
  let (changes, kept, state) ← self.renderCursors env ctx unicodeLines doc
    (selection.ranges.map changeRange) 0 0 ⟨self.prepareRender, 0, vars⟩
  let changes ← ChangeSet.fromChanges doc changes
  let ranges ← kept.mapM (index selection.ranges)
  let selection ← Selection.new ranges
    ((newPrimaryIdx selection.primaryIndex kept none none).getD 0)
  return (.ofChanges changes, selection, state.snippet, state.vars)

attribute [grind =] renderCursors

end Snippet

end Zmax.Snippets
