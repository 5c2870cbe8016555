/-
zmax-core/src/snippets/active.rs: the snippet being filled in, whose
ranges follow the edits of the document.

Closing the set of active tabstops walks up their parents. It is given as
many steps as there are tabstops; a longer walk has come by one twice and
never ends (`Panic.diverges`).
-/
import Zmax.Core.Snippets.Render

namespace Zmax.Snippets

variable (U : Unicode)

structure ActiveSnippet where
  ranges : List Stdx.Range
  /-- A set. -/
  activeTabstops : List TabstopIdx
  currentTabstop : TabstopIdx
  tabstops : List Render.Tabstop
  deriving DecidableEq, Repr

/-- Which side of a change the ends of a range stay with. -/
abbrev EndAssoc := Stdx.Range → Assoc × Assoc

/-- Ranges from the positions of their ends. -/
def pairUp : List Nat → List Stdx.Range
  | start :: stop :: rest => ⟨start, stop⟩ :: pairUp rest
  | _ => []

/-- Map ranges through a change set. -/
def mapRanges (changes : ChangeSet) (assoc : EndAssoc)
    (ranges : List Stdx.Range) : Result (List Stdx.Range) := do
  let positions ← changes.updatePositions U (ranges.flatMap fun range =>
    [(range.start, (assoc range).1), (range.stop, (assoc range).2)])
  return pairUp positions

/-- An active tabstop takes what is inserted at its ends. -/
def activeAssoc : EndAssoc := fun _ => (.after, .after)

def inactiveAssoc : EndAssoc := fun range =>
  (.after, if range.start = range.stop then .after else .before)

/-- The `retain_mut` of `map`: the ranges of a tabstop, `numRanges` for
each range of the snippet. Ranges that overlap the one before them are
pushed behind it. -/
def retainRanges (numRanges : Nat) (snippetRange : Stdx.Range)
    (snippetRanges : List Stdx.Range) (tabstopI : Nat)
    (prev : Stdx.Range) : List Stdx.Range → Result (List Stdx.Range)
  | [] => .ok []
  | range :: ranges => do
      let (snippetRange, snippetRanges, tabstopI) ←
        (if tabstopI = numRanges then
          match snippetRanges with
          | [] => .error .unwrapNone
          | next :: snippetRanges => .ok (next, snippetRanges, 0)
        else .ok (snippetRange, snippetRanges, tabstopI) :
          Result (Stdx.Range × List Stdx.Range × Nat))
      if snippetRange.start ≤ snippetRange.stop then do
        -- guaranteed by assoc
        assert (prev.start ≤ range.start)
        assert (range.start ≤ range.stop)
        let range : Stdx.Range :=
          if range.start < prev.stop then
            ⟨prev.stop, max range.stop prev.stop⟩
          else range
        let ranges ← retainRanges numRanges snippetRange snippetRanges
          (tabstopI + 1) range ranges
        return range :: ranges
      else
        retainRanges numRanges snippetRange snippetRanges (tabstopI + 1)
          prev ranges

/-- The walk up from `parent`, adding to the active tabstops. -/
def activateParents (tabstops : List Render.Tabstop) :
    Nat → Option TabstopIdx → List TabstopIdx → Result (List TabstopIdx)
  | _, none, active => .ok active
  | 0, some _, _ => .error .diverges
  | fuel + 1, some idx, active => do
      let tabstop ← index tabstops idx
      activateParents tabstops fuel tabstop.parent (idx :: active)

attribute [grind =] activateParents

namespace ActiveSnippet

def new (snippet : RenderedSnippet) : Option ActiveSnippet :=
  if snippet.tabstops.length ≠ 1 then
    some ⟨snippet.ranges, [], 0, snippet.tabstops⟩
  else none

/-- A tabstop after the changes. -/
def mapTabstop (changes : ChangeSet) (ranges : List Stdx.Range)
    (active : Bool) (tabstop : Render.Tabstop) :
    Result Render.Tabstop := do
  let mapped ← mapRanges U changes
    (if active then activeAssoc else inactiveAssoc) tabstop.ranges
  match ranges with
  | [] => .error .unwrapNone
  | snippetRange :: snippetRanges => do
      let numRanges := mapped.length / ranges.length
      let retained ← retainRanges numRanges snippetRange snippetRanges 0
        ⟨0, 0⟩ mapped
      return { tabstop with ranges := retained }

/-- Map all ranges through a change set, and whether all of the snippet is
gone. -/
def map (self : ActiveSnippet) (changes : ChangeSet) :
    Result (Bool × ActiveSnippet) := do
  let ranges ← mapRanges U changes activeAssoc self.ranges
  let tabstops ← self.tabstops.zipIdx.mapM fun (tabstop, i) =>
    mapTabstop U changes ranges (self.activeTabstops.contains i) tabstop
  return (ranges.all Stdx.Range.isEmpty,
    { self with ranges := ranges, tabstops := tabstops })

/-- Make the current tabstop active, with all around it, unless it is the
final one. -/
def activateTabstop (self : ActiveSnippet) :
    Result (Bool × ActiveSnippet) := do
  let last ← checkedSub self.tabstops.length 1
  if self.currentTabstop = last then return (false, self)
  let tabstop ← index self.tabstops self.currentTabstop
  let active ← activateParents self.tabstops self.tabstops.length
    tabstop.parent [self.currentTabstop]
  return (true, { self with activeTabstops := active })

/-- The instance the primary range is in, which may reach one over its
end. -/
def primaryIdx (self : ActiveSnippet) (currentSelection : Selection) :
    Result Nat :=
  let primary := currentSelection.primary
  match self.ranges.findIdx? fun range =>
    range.start ≤ primary.start && primary.stop ≤ range.stop + 1 with
  | some i => .ok i
  | none => .error .unreachable

def tabstopSelection (self : ActiveSnippet) (primaryIdx : Nat)
    (direction : Direction) : Result Selection := do
  let tabstop ← index self.tabstops self.currentTabstop
  tabstop.selection direction primaryIdx self.ranges.length

/-- The loop of `next_tabstop`, `n` tabstops from the end. -/
def nextLoop (primaryIdx : Nat) : Nat → ActiveSnippet →
    Result ((Selection × Bool) × ActiveSnippet)
  | 0, self => do
      let selection ← self.tabstopSelection primaryIdx .forward
      return ((selection, true), self)
  | n + 1, self => do
      let (activated, self) ← activateTabstop
        { self with currentTabstop := self.currentTabstop + 1 }
      if activated then do
        let selection ← self.tabstopSelection primaryIdx .forward
        return ((selection,
          self.currentTabstop + 1 == self.tabstops.length), self)
      else nextLoop primaryIdx n self

def nextTabstop (self : ActiveSnippet) (currentSelection : Selection) :
    Result ((Selection × Bool) × ActiveSnippet) := do
  let primaryIdx ← self.primaryIdx currentSelection
  self.nextLoop primaryIdx (self.tabstops.length - (self.currentTabstop + 1))

/-- The loop of `prev_tabstop`, at the `n`-th tabstop. -/
def prevLoop (primaryIdx : Nat) : Nat → ActiveSnippet →
    Result (Option Selection × ActiveSnippet)
  | 0, self => .ok (none, self)
  | n + 1, self => do
      let (activated, self) ← activateTabstop
        { self with currentTabstop := n }
      if activated then do
        let selection ← self.tabstopSelection primaryIdx .forward
        return (some selection, self)
      else prevLoop primaryIdx n self

def prevTabstop (self : ActiveSnippet) (currentSelection : Selection) :
    Result (Option Selection × ActiveSnippet) := do
  let primaryIdx ← self.primaryIdx currentSelection
  self.prevLoop primaryIdx self.currentTabstop

/-- Put the tabstops of a snippet rendered inside the current tabstop in
its place. -/
def insertSubsnippet (self : ActiveSnippet) (snippet : RenderedSnippet) :
    Result (Option ActiveSnippet) := do
  let multiple :=
    -- `is_multiple_of`
    if self.ranges.length = 0 then snippet.ranges.length == 0
    else snippet.ranges.length % self.ranges.length == 0
  if !multiple || !Stdx.isExactSubset self.ranges snippet.ranges then
    return new snippet
  let current ← index self.tabstops self.currentTabstop
  let tabstops := snippet.tabstops.map fun tabstop =>
    match tabstop.parent with
    | some parent =>
        { tabstop with parent := some (parent + self.currentTabstop) }
    | none => { tabstop with parent := current.parent }
  -- `splice`
  let (_, self) ← activateTabstop
    { self with
      tabstops := self.tabstops.take self.currentTabstop ++ tabstops
        ++ self.tabstops.drop (self.currentTabstop + 1) }
  return some self

end ActiveSnippet

end Zmax.Snippets
