/-
What a rendered snippet looks like: plain text with its tabstops as
marked parts.

A placeholder shows the default of its tabstop, a variable its own default
where the resolver leaves it unresolved. `Shown` says which tabstops this
shows, by the answers of the resolver alone; it may change its captures,
which are handed on from call to call. `Laid` says in which text, whose
lines are indented like the line the snippet starts in. Nothing here
counts: places come from the layouts.
-/
import Zmax.Core.Snippets.Render
import Zmax.Lib.Marked

namespace Zmax.Snippets

open Marked

/-- A text with the tabstops of a snippet in it. -/
abbrev Layout := List (Piece TabstopIdx Char)

/-- What stands inside a tabstop at first. -/
def TabstopKind.default : TabstopKind → List SnippetElement
  | .placeholder default => default
  | _ => []

-- == shown

section

variable {ρ : Type} (src : Snippet) (ctx : SnippetRenderCtx ρ)

/-- The tabstops that are shown with elements, each before those inside
it, and the captures of the resolver before and after. -/
inductive Shown : ρ → List SnippetElement → List TabstopIdx → ρ → Prop
  | nil (v : ρ) : Shown v [] [] v
  | text {v w : ρ} {rest : List SnippetElement} {is : List TabstopIdx}
      (text : Tendril) :
      Shown v rest is w → Shown v (.text text :: rest) is w
  | tabstop {v v' w : ρ} {rest : List SnippetElement}
      {inner is : List TabstopIdx} {idx : TabstopIdx} {t : Tabstop} :
      src.tabstops[idx]? = some t → Shown v t.kind.default inner v' →
      Shown v' rest is w →
      Shown v (.tabstop idx :: rest) (idx :: inner ++ is) w
  | resolved {v v' w : ρ} {rest : List SnippetElement}
      {is : List TabstopIdx} {name val : Tendril}
      (default : Option (List SnippetElement))
      (transform : Option Transform) :
      ctx.resolveVar v name = (some val, v') → Shown v' rest is w →
      Shown v (.variable name default transform :: rest) is w
  | unresolved {v v' v'' w : ρ} {rest : List SnippetElement}
      {inner is : List TabstopIdx} {name : Tendril}
      {default : Option (List SnippetElement)}
      (transform : Option Transform) :
      ctx.resolveVar v name = (none, v') →
      Shown v' (default.getD []) inner v'' → Shown v'' rest is w →
      Shown v (.variable name default transform :: rest) (inner ++ is) w

/-- The tabstops shown in instance after instance. -/
inductive ShownAll : ρ → List (List TabstopIdx) → ρ → Prop
  | nil (v : ρ) : ShownAll v [] v
  | cons {v v' w : ρ} {is : List TabstopIdx}
      {iss : List (List TabstopIdx)} :
      Shown src ctx v src.elements is v' → ShownAll v' iss w →
      ShownAll v (is :: iss) w

/-- In each of `m` instances every tabstop is shown. -/
def ShowsAll (vars : ρ) (m : Nat) : Prop :=
  ∀ iss w, ShownAll src ctx vars iss w → iss.length = m →
    ∀ is ∈ iss, ∀ i, i < src.tabstops.length → i ∈ is

end

-- == texts

section

variable {ρ : Type} (env : Environment) (ctx : SnippetRenderCtx ρ)
  (indent : Rope)

/-- A line as it is shown, with its indentation normalized where a line
starts, and whether one is taken to start behind it. -/
def shownLine (normalized atNewline : Bool) (line : Tendril) :
    Tendril × Bool :=
  if normalized then
    let (blanks, oldIndentLen) := normalizeIndentation env ctx indent line
    (blanks ++ line.drop oldIndentLen,
      (line.drop oldIndentLen).isEmpty || atNewline)
  else (line, atNewline)

/-- Lines, each after a line break and the indentation. -/
def shownLines (atNewline : Bool) : List Tendril → Tendril × Bool
  | [] => ([], atNewline)
  | line :: lines =>
      let (shown, atNewline) := shownLine env ctx indent true atNewline line
      let (rest, atNewline) := shownLines atNewline lines
      (ctx.lineEnding ++ indent ++ shown ++ rest, atNewline)

def shownText (atNewline : Bool) (text : Tendril) : Tendril × Bool :=
  match (text.splitOn '\n').map Text.stripCr with
  | [] => ([], atNewline)
  | firstLine :: lines =>
      let (shown, atNewline) :=
        shownLine env ctx indent atNewline atNewline firstLine
      let (rest, atNewline) := shownLines env ctx indent atNewline lines
      (shown ++ rest, atNewline)

/-- The captures of the resolver, and whether a line starts here. -/
structure Point (ρ : Type) where
  vars : ρ
  atNewline : Bool

variable (src : Snippet)

/-- Elements laid out from a point to another. -/
inductive Laid : Point ρ → List SnippetElement → Layout → Point ρ → Prop
  | nil (p : Point ρ) : Laid p [] [] p
  | text {v : ρ} {b b' : Bool} {q : Point ρ} {rest : List SnippetElement}
      {ps : Layout} {text shown : Tendril} :
      shownText env ctx indent b text = (shown, b') →
      Laid ⟨v, b'⟩ rest ps q →
      Laid ⟨v, b⟩ (.text text :: rest) (.plain shown :: ps) q
  | tabstop {p p' q : Point ρ} {rest : List SnippetElement}
      {inner ps : Layout} {idx : TabstopIdx} {t : Tabstop} :
      src.tabstops[idx]? = some t → Laid p t.kind.default inner p' →
      Laid p' rest ps q →
      Laid p (.tabstop idx :: rest) (.mark idx inner :: ps) q
  | resolved {v v' : ρ} {b b' : Bool} {q : Point ρ}
      {rest : List SnippetElement} {ps : Layout}
      {name val shown : Tendril} {transform : Option Transform}
      (default : Option (List SnippetElement)) :
      ctx.resolveVar v name = (some val, v') →
      shownText env ctx indent b (SnippetRender.transformed env transform val)
        = (shown, b') →
      Laid ⟨v', b'⟩ rest ps q →
      Laid ⟨v, b⟩ (.variable name default transform :: rest)
        (.plain shown :: ps) q
  | unresolved {v v' : ρ} {b : Bool} {p q : Point ρ}
      {rest : List SnippetElement} {qs ps : Layout} {name : Tendril}
      {default : Option (List SnippetElement)}
      (transform : Option Transform) :
      ctx.resolveVar v name = (none, v') →
      Laid ⟨v', b⟩ (default.getD []) qs p → Laid p rest ps q →
      Laid ⟨v, b⟩ (.variable name default transform :: rest) (qs ++ ps) q

end

-- == instances

/-- An instance of a snippet in a document. -/
structure Instance where
  pos : Nat
  layout : Layout

namespace Instance

/-- The text rendered for it. -/
def text (self : Instance) : Tendril := content self.layout

def range (self : Instance) : Stdx.Range :=
  ⟨self.pos, self.pos + self.text.length⟩

/-- The ranges of a tabstop in it. -/
def rangesOf (self : Instance) (i : TabstopIdx) : List Stdx.Range :=
  (spansOf self.pos self.layout i).map fun (start, stop) => ⟨start, stop⟩

/-- The place of what stands `off` chars into it. -/
def place (self : Instance) (off : Nat) (inner : Layout) : Stdx.Range :=
  ⟨self.pos + off, self.pos + off + (content inner).length⟩

end Instance

/-- The instances of a snippet in a document, as they are recorded: the
range of each has its text, each tabstop has the places where it stands,
and there its content, inside the instance and inside the tabstops it is
nested in. -/
structure Recorded (src : Snippet) (doc : Rope) (instances : List Instance)
    (snippet : RenderedSnippet) : Prop where
  ranges : snippet.ranges = instances.map Instance.range
  text : ∀ inst ∈ instances,
    slice doc inst.range.start inst.range.stop = .ok inst.text
  count : snippet.tabstops.length = src.tabstops.length
  parents : ∀ (i : Nat) t t', snippet.tabstops[i]? = some t →
    src.tabstops[i]? = some t' → t.parent = t'.parent
  tabstops : ∀ (i : Nat) t, snippet.tabstops[i]? = some t →
    t.ranges = instances.flatMap (·.rangesOf i)
  stands : ∀ inst ∈ instances, ∀ i range, range ∈ inst.rangesOf i ↔
    ∃ off inner, Stands inst.layout off i inner
      ∧ range = inst.place off inner
  content : ∀ inst ∈ instances, ∀ off i inner,
    Stands inst.layout off i inner →
    slice doc (inst.place off inner).start (inst.place off inner).stop
        = .ok (content inner)
      ∧ inst.range.contains (inst.place off inner)
  nested : ∀ inst ∈ instances, ∀ off i inner off' j inner',
    Stands inst.layout off i inner → Stands inner off' j inner' →
    Stands inst.layout (off + off') j inner'
      ∧ (inst.place off inner).contains (inst.place (off + off') inner')

/-- Of change ranges those that do not start before the end of the last
one that was kept. -/
def keptRanges : Nat → List (Nat × Nat) → List (Nat × Nat)
  | _, [] => []
  | last, (start, stop) :: ranges =>
      if start < last then keptRanges last ranges
      else (start, stop) :: keptRanges stop ranges

section

variable {ρ : Type} (src : Snippet) (env : Environment)
  (ctx : SnippetRenderCtx ρ) (unicodeLines : Bool) (doc : Rope)

/-- The indentation of the line of a char, and whether it is all that is
in front of the char. -/
def indentAt (pos : Nat) : Result (Tendril × Bool) := do
  let lineIdx ← charToLine unicodeLines doc pos
  let lineStart ← lineToChar unicodeLines doc lineIdx
  let linePrefix ← slice doc lineStart pos
  let indent := linePrefix.takeWhile Text.isWhitespace
  return (indent, indent.length == pos - lineStart)

/-- Instances that are laid out for ranges of the document, one after the
other. -/
inductive LaidAll : ρ → List (Nat × Nat) → List Instance → ρ → Prop
  | nil (v : ρ) : LaidAll v [] [] v
  | cons {v v' w : ρ} {ranges : List (Nat × Nat)}
      {instances : List Instance} {start : Nat} {indent : Tendril}
      {atNewline b : Bool} {layout : Layout} (stop pos : Nat) :
      indentAt unicodeLines doc start = .ok (indent, atNewline) →
      Laid env ctx indent src ⟨v, atNewline⟩ src.elements layout ⟨v', b⟩ →
      LaidAll v' ranges instances w →
      LaidAll v ((start, stop) :: ranges) (⟨pos, layout⟩ :: instances) w

attribute [grind =] keptRanges

end

/-- The change list that puts instances in the place of ranges. -/
def replacements (ranges : List (Nat × Nat)) (instances : List Instance) :
    List Change :=
  List.zipWith (fun (start, stop) inst => (start, stop, some inst.text))
    ranges instances

end Zmax.Snippets
