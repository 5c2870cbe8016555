/-
zmax-view/src/view.rs: the jump list of a view, and how it follows the
history of a document.

A view maps its jumps lazily: `docRevisions` remembers at which revision
of a document its jumps were last mapped, and `syncChanges` maps them
from there to the current revision. A view that commits maps its jumps
at once.

Only what the jumps need is here: no layout, no gutters, no access
history. The global `jumpoptions` is handed to the function that reads
it.
-/
import Zmax.View.Document

namespace Zmax

variable (U : Unicode)

abbrev Jump := DocumentId × Selection

/-- A jump with the window's scroll position when it was recorded. -/
structure JumpEntry where
  jump : Jump
  viewPosition : ViewPosition
  deriving DecidableEq, Repr

/-- An entry whose recorded view is the top of the buffer. -/
def JumpEntry.new (jump : Jump) : JumpEntry := ⟨jump, .default⟩

structure JumpList where
  jumps : List JumpEntry
  current : Nat
  deriving DecidableEq, Repr

def jumpListCapacity : Nat := 30

structure View where
  id : ViewId
  doc : DocumentId
  jumps : JumpList
  /-- The revision of each document the jumps were last mapped at. -/
  docRevisions : Table DocumentId Nat
  deriving DecidableEq, Repr

namespace JumpEntry

/-- Map an entry of the document through changes, to its text. -/
def follow (transaction : Transaction) (doc : Document)
    (self : JumpEntry) : Result JumpEntry :=
  if self.jump.1 = doc.id then do
    let selection ←
      Document.mapSelection U transaction.changes doc.text self.jump.2
    let position ← Document.mapOffset U transaction.changes self.viewPosition
    return ⟨(self.jump.1, selection), position⟩
  else .ok self

end JumpEntry

namespace JumpList

def new (initial : Jump) : JumpList := ⟨[.new initial], 0⟩

/-- What a push discards first: with vim's `jumpoptions=stack` the
entries from the current position on, else an entry of the same jump. -/
def makeRoom (self : JumpList) (stack : Bool) (jump : Jump) :
    JumpList × Nat :=
  if stack then ({ self with jumps := self.jumps.take self.current }, 0)
  else
    match self.jumps.findIdx? (·.jump = jump) with
    | none => (self, 0)
    | some idx =>
        let jumps := self.jumps.eraseIdx idx
        if idx < self.current then (⟨jumps, self.current - 1⟩, 1)
        else (⟨jumps, self.current⟩, 0)

/-- Push an entry: the list then, and how many entries were dropped from
before the navigation cursor. -/
def pushImpl (self : JumpList) (stack : Bool) (entry : JumpEntry) :
    JumpList × Nat :=
  let (list, numRemoved) := self.makeRoom stack entry.jump
  -- don't push duplicates
  if list.jumps.getLast?.map JumpEntry.jump = some entry.jump then
    (list, numRemoved)
  else
    -- if the list is full, drop the oldest items
    let excess := list.jumps.length + 1 - jumpListCapacity
    let jumps := list.jumps.drop excess ++ [entry]
    (⟨jumps, jumps.length⟩, numRemoved + excess)

def push (self : JumpList) (stack : Bool) (jump : Jump)
    (viewPosition : ViewPosition) : JumpList :=
  (self.pushImpl stack ⟨jump, viewPosition⟩).1

/-- Map the entries of a document, so that no jump points to text that
no longer exists. -/
def apply (self : JumpList) (transaction : Transaction)
    (doc : Document) : Result JumpList := do
  let jumps ← self.jumps.mapM (JumpEntry.follow U transaction doc)
  return { self with jumps := jumps }

end JumpList

namespace View

/-- A view of a document, with its first jump to the top. -/
def new (id : ViewId) (doc : DocumentId) : View :=
  { id := id
    doc := doc
    jumps := .new (doc, .point 0)
    docRevisions := [] }

/-- Apply a transaction to the jumps; they are at the current revision
then. -/
def apply (self : View) (transaction : Transaction) (doc : Document) :
    Result View := do
  let jumps ← self.jumps.apply U transaction doc
  return { self with
    jumps := jumps
    docRevisions := self.docRevisions.insert doc.id doc.history.current }

/-- The changes since the jumps were last mapped. A view that has not met
the document takes the current revision for that. -/
def changesToSync (self : View) (doc : Document) :
    Result (Option Transaction × View) :=
  let latestRevision := doc.history.current
  match self.docRevisions.get doc.id with
  | none =>
      .ok (none, { self with
        docRevisions := self.docRevisions.insert doc.id latestRevision })
  | some currentRevision =>
      if currentRevision = latestRevision then .ok (none, self)
      else do
        let transaction ← doc.history.changesSince currentRevision
        return (transaction, self)

def syncChanges (self : View) (doc : Document) : Result View := do
  let (transaction, view) ← self.changesToSync doc
  match transaction with
  | none => return view
  | some transaction => view.apply U transaction doc

/-- Record a jump, at the document's current revision. -/
def pushJump (self : View) (stack : Bool) (doc : Document) (jump : Jump) :
    Result View := do
  let view ← self.syncChanges U doc
  let viewPosition ← doc.viewOffset view.id
  return { view with jumps := view.jumps.push stack jump viewPosition }

end View

end Zmax
