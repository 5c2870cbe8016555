/-
The tabstops of a snippet as they stand in its text.

An occurrence of a tabstop is at the top level or directly inside a
placeholder; the text of a variable's default belongs to what is around
the variable. They are listed in the order in which they end, so that
what a placeholder contains comes before it. Of the occurrences of one
number one is its definition: the first that is not void, where void is
a transform whose regex does not compile; if all are void, the last.
-/
import Zmax.Core.Snippets.Elaborate
import Zmax.Lib.Acyclic

namespace Zmax.Snippets

/-- A tabstop where it stands in the text. -/
structure Occurrence where
  idx : TabstopIdx
  /-- The placeholder it is directly inside. -/
  around : Option TabstopIdx
  void : Bool
  /-- What is directly inside it, if it is a placeholder. -/
  shows : List TabstopIdx
  deriving DecidableEq, Repr

-- == in the text

mutual

/-- The tabstops that stand in an element, not counting those inside
placeholders. -/
def numbersOf : Parser.SnippetElement → List TabstopIdx
  | .tabstop tabstop _ => [.elaborate tabstop]
  | .placeholder tabstop _ => [.elaborate tabstop]
  | .choice tabstop _ => [.elaborate tabstop]
  | .variable _ none _ => []
  | .variable _ (some default) _ => numbers default
  | .text _ => []

def numbers : List Parser.SnippetElement → List TabstopIdx
  | [] => []
  | element :: rest => numbersOf element ++ numbers rest

end

variable (compiles : Regex → Bool)

/-- A transform that does not compile. -/
def isVoid : Option Parser.Transform → Bool
  | none => false
  | some transform => (Transform.new compiles transform).isNone

mutual

def occurrencesOf (around : Option TabstopIdx) :
    Parser.SnippetElement → List Occurrence
  | .tabstop tabstop transform =>
      [⟨.elaborate tabstop, around, isVoid compiles transform, []⟩]
  | .placeholder tabstop value =>
      -- what stands inside the final tabstop is ignored
      if TabstopIdx.elaborate tabstop = lastTabstopIdx then
        [⟨.elaborate tabstop, around, false, []⟩]
      else
        occurrences (some (.elaborate tabstop)) value
          ++ [⟨.elaborate tabstop, around, false, numbers value⟩]
  | .choice tabstop _ => [⟨.elaborate tabstop, around, false, []⟩]
  | .variable _ none _ => []
  | .variable _ (some default) _ => occurrences around default
  | .text _ => []

/-- The occurrences in a text directly inside `around`. -/
def occurrences (around : Option TabstopIdx) :
    List Parser.SnippetElement → List Occurrence
  | [] => []
  | element :: rest => occurrencesOf around element ++ occurrences around rest

end

/-- The occurrence that is kept: the first that is not void, else the
last. -/
def chosen (occs : List Occurrence) : Option Occurrence :=
  (occs.find? fun o => !o.void).or occs.getLast?

/-- The definition of a tabstop. -/
def definition (occs : List Occurrence) (idx : TabstopIdx) :
    Option Occurrence :=
  chosen (occs.filter (·.idx == idx))

/-- The definition of one tabstop stands directly inside another. -/
def DefinedIn (occs : List Occurrence) (idx around : TabstopIdx) : Prop :=
  ∃ o, definition occs idx = some o ∧ o.around = some around

/-- The definition of one tabstop has another directly inside it. -/
def DefinedWith (occs : List Occurrence) (idx inner : TabstopIdx) : Prop :=
  ∃ o, definition occs idx = some o ∧ inner ∈ o.shows

/-- No tabstop leads back to itself, neither from definitions to what is
around them, nor from definitions to what is inside them. -/
structure Untangled (occs : List Occurrence) : Prop where
  outward : Walk.Acyclic (DefinedIn occs)
  inward : Walk.Acyclic (DefinedWith occs)

-- == the simple texts

mutual

def openingsOf : Parser.SnippetElement → List TabstopIdx
  | .tabstop tabstop _ => [.elaborate tabstop]
  | .placeholder tabstop value =>
      if TabstopIdx.elaborate tabstop = lastTabstopIdx then
        [.elaborate tabstop]
      else .elaborate tabstop :: openings value
  | .choice tabstop _ => [.elaborate tabstop]
  | .variable _ none _ => []
  | .variable _ (some default) _ => openings default
  | .text _ => []

/-- The tabstops of a text, at any depth, in the order in which they
begin. -/
def openings : List Parser.SnippetElement → List TabstopIdx
  | [] => []
  | element :: rest => openingsOf element ++ openings rest

end

mutual

def PlainElement : Parser.SnippetElement → Prop
  | .tabstop _ transform => isVoid compiles transform = false
  | .placeholder tabstop value =>
      TabstopIdx.elaborate tabstop = lastTabstopIdx
        ∨ TabstopIdx.elaborate tabstop ∉ openings value ∧ Plain value
  | .choice _ _ => True
  | .variable _ none _ => True
  | .variable _ (some default) _ => Plain default
  | .text _ => True

/-- No placeholder contains its own number, and every transform
compiles. -/
def Plain : List Parser.SnippetElement → Prop
  | [] => True
  | element :: rest => PlainElement element ∧ Plain rest

end

-- == in the table

mutual

/-- The tabstops that an element names. -/
def SnippetElement.mentions : SnippetElement → List TabstopIdx
  | .tabstop idx => [idx]
  | .variable _ none _ => []
  | .variable _ (some default) _ => mentions default
  | .text _ => []

def mentions : List SnippetElement → List TabstopIdx
  | [] => []
  | element :: rest => element.mentions ++ mentions rest

end

def TabstopKind.mentions : TabstopKind → List TabstopIdx
  | .placeholder default => Snippets.mentions default
  | _ => []

attribute [grind =] numbersOf occurrencesOf openingsOf PlainElement mentions

namespace Snippet

/-- The parent link of a tabstop. -/
def ParentOf (s : Snippet) (i parent : TabstopIdx) : Prop :=
  ∃ t, s.tabstops[i]? = some t ∧ t.parent = some parent

/-- The default of a tabstop names another. -/
def DefaultNames (s : Snippet) (i j : TabstopIdx) : Prop :=
  ∃ t, s.tabstops[i]? = some t ∧ j ∈ t.kind.mentions

end Snippet

end Zmax.Snippets
