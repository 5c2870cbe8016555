/-
zmax-core/src/snippets/elaborate.rs: a parsed snippet becomes a list of
elements and a table of its tabstops.

Every occurrence of a tabstop is pushed to the table, those inside a
placeholder before the placeholder itself. The table is then sorted by
number, one definition is kept for each number, and everything that names
a tabstop is renumbered to its place in the table.

A regex is what it was built from; `compiles` says whether building it
succeeds, which is the regex crate's to say. Logging is not modelled.
-/
import Mathlib.Data.List.Sort
import Zmax.Core.Snippets.Parser

namespace Zmax.Snippets

/-- `regex_automata::util::syntax::Config`, as far as it is set. -/
structure RegexConfig where
  caseInsensitive : Bool
  multiLine : Bool
  deriving DecidableEq, Repr

structure Regex where
  config : RegexConfig
  pattern : Tendril
  deriving DecidableEq, Repr

structure Transform where
  regex : Regex
  global : Bool
  replacement : List FormatItem
  deriving DecidableEq, Repr

/-- The number of a tabstop, later its place in the table. -/
abbrev TabstopIdx := Nat

/-- `TabstopIdx(usize::MAX)` -/
def lastTabstopIdx : TabstopIdx := Text.USIZE_MAX

/-- `TabstopIdx::elaborate`, with `wrapping_sub`: `$0` comes last. -/
def TabstopIdx.elaborate (idx : Nat) : TabstopIdx :=
  if idx = 0 then lastTabstopIdx else (idx - 1) % (Text.USIZE_MAX + 1)

inductive SnippetElement where
  | tabstop (idx : TabstopIdx)
  | variable (name : Tendril) (default : Option (List SnippetElement))
      (transform : Option Transform)
  | text (text : Tendril)
  deriving Repr

inductive TabstopKind where
  | choice (choices : List Tendril)
  | placeholder (default : List SnippetElement)
  | empty
  | transform (transform : Transform)
  deriving Repr

def TabstopKind.isEmpty : TabstopKind → Bool
  | .empty => true
  | _ => false

structure Tabstop where
  idx : TabstopIdx
  parent : Option TabstopIdx
  kind : TabstopKind
  deriving Repr

structure Snippet where
  elements : List SnippetElement
  tabstops : List Tabstop
  deriving Repr

variable (compiles : Regex → Bool)

/-- `Transform::new`: nothing if the regex does not compile. -/
def Transform.new (transform : Parser.Transform) : Option Transform :=
  let regex : Regex :=
    ⟨⟨transform.options.contains (Char.ofNat 105),
      transform.options.contains (Char.ofNat 109)⟩, transform.regex⟩
  if compiles regex then
    some ⟨regex, transform.options.contains (Char.ofNat 103),
      transform.replacement⟩
  else none

-- == elaborating

/-- What a transform leaves in the table. -/
def TabstopKind.ofTransform (transform : Parser.Transform) : TabstopKind :=
  match Transform.new compiles transform with
  | some transform => .transform transform
  | none => .empty

mutual

/-- One element inside `parent`, with the table pushed to. -/
def elaborateElement (parent : Option TabstopIdx) :
    Parser.SnippetElement → List Tabstop → SnippetElement × List Tabstop
  | .tabstop tabstop none, tabstops =>
      let idx := TabstopIdx.elaborate tabstop
      (.tabstop idx, tabstops ++ [⟨idx, parent, .placeholder []⟩])
  | .tabstop tabstop (some transform), tabstops =>
      let idx := TabstopIdx.elaborate tabstop
      (.tabstop idx,
        tabstops ++ [⟨idx, parent, .ofTransform compiles transform⟩])
  | .placeholder tabstop value, tabstops =>
      let idx := TabstopIdx.elaborate tabstop
      let (default, tabstops) :=
        -- the final tabstop does not keep a placeholder text
        if idx = lastTabstopIdx then ([], tabstops)
        else elaborate (some idx) value tabstops
      (.tabstop idx, tabstops ++ [⟨idx, parent, .placeholder default⟩])
  | .choice tabstop choices, tabstops =>
      let idx := TabstopIdx.elaborate tabstop
      (.tabstop idx, tabstops ++ [⟨idx, parent, .choice choices⟩])
  | .variable name none transform, tabstops =>
      (.variable name none (transform.bind (Transform.new compiles)),
        tabstops)
  | .variable name (some default) transform, tabstops =>
      let (default, tabstops) := elaborate parent default tabstops
      (.variable name (some default)
        (transform.bind (Transform.new compiles)), tabstops)
  | .text text, tabstops => (.text text, tabstops)

/-- Elements inside `parent`, one after the other. -/
def elaborate (parent : Option TabstopIdx) :
    List Parser.SnippetElement → List Tabstop →
      List SnippetElement × List Tabstop
  | [], tabstops => ([], tabstops)
  | element :: rest, tabstops =>
      let (element, tabstops) := elaborateElement parent element tabstops
      let (rest, tabstops) := elaborate parent rest tabstops
      (element :: rest, tabstops)

end

-- == fixup

/-- The `dedup_by`: `kept` is the tabstop kept last. The first non-empty
tabstop is used for all multicursor tabstops. -/
def dedup (kept : Tabstop) : List Tabstop → List Tabstop
  | [] => [kept]
  | tabstop :: rest =>
      if tabstop.idx ≠ kept.idx then kept :: dedup tabstop rest
      else if kept.kind.isEmpty then dedup tabstop rest
      else dedup kept rest

/-- Sorted by number, stably, with one tabstop for each number. -/
def fixupTabstops (tabstops : List Tabstop) : List Tabstop :=
  match tabstops.mergeSort fun a b => a.idx ≤ b.idx with
  | [] => []
  | tabstop :: rest => dedup tabstop rest

/-- Append the final tabstop if the snippet does not have it. -/
def Snippet.ensureLastTabstop (self : Snippet) : Snippet :=
  match self.tabstops.getLast? with
  | some tabstop =>
      if tabstop.idx = lastTabstopIdx then self
      else push
  | none => push
where
  push : Snippet :=
    { elements := self.elements ++ [.tabstop lastTabstopIdx]
      tabstops := self.tabstops ++ [⟨lastTabstopIdx, none, .empty⟩] }

-- == renumbering

/-- `binary_search_by_key(..).expect(..)` in a table sorted by numbers
that differ. -/
def resolve (tabstops : List Tabstop) (idx : TabstopIdx) :
    Result TabstopIdx :=
  match tabstops.findIdx? (·.idx = idx) with
  | some i => .ok i
  | none => .error .unwrapNone

mutual

def renumberElement (tabstops : List Tabstop) :
    SnippetElement → Result SnippetElement
  | .tabstop idx => do
      let idx ← resolve tabstops idx
      return .tabstop idx
  | .variable name (some default) transform => do
      let default ← renumberTabstopsIn tabstops default
      return .variable name (some default) transform
  | .variable name none transform => .ok (.variable name none transform)
  | .text text => .ok (.text text)

def renumberTabstopsIn (tabstops : List Tabstop) :
    List SnippetElement → Result (List SnippetElement)
  | [] => .ok []
  | element :: rest => do
      let element ← renumberElement tabstops element
      let rest ← renumberTabstopsIn tabstops rest
      return element :: rest

end

def renumberParent (tabstops : List Tabstop) :
    Option TabstopIdx → Result (Option TabstopIdx)
  | none => .ok none
  | some parent => do
      let parent ← resolve tabstops parent
      return some parent

def renumberKind (tabstops : List Tabstop) :
    TabstopKind → Result TabstopKind
  | .placeholder default => do
      let default ← renumberTabstopsIn tabstops default
      return .placeholder default
  | kind => .ok kind

/-- A round of the loop of `renumber_tabstops`; the numbers it looks up
are not changed by the loop. -/
def renumberTabstop (tabstops : List Tabstop) (tabstop : Tabstop) :
    Result Tabstop := do
  let parent ← renumberParent tabstops tabstop.parent
  let kind ← renumberKind tabstops tabstop.kind
  return ⟨tabstop.idx, parent, kind⟩

def Snippet.renumberTabstops (self : Snippet) : Result Snippet := do
  let elements ← renumberTabstopsIn self.tabstops self.elements
  let tabstops ← self.tabstops.mapM (renumberTabstop self.tabstops)
  return ⟨elements, tabstops⟩

/-- `Snippet::new` -/
def Snippet.new (elements : List Parser.SnippetElement) : Result Snippet :=
  let (elements, tabstops) := elaborate compiles none elements []
  let res : Snippet := ⟨elements, fixupTabstops tabstops⟩
  res.ensureLastTabstop.renumberTabstops

attribute [grind =] elaborateElement dedup renumberElement renumberTabstopsIn

end Zmax.Snippets
