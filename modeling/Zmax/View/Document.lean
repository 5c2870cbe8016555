/-
zmax-view/src/document.rs: a document's text under edits, with what
follows the text: the selections and scroll positions of its views, the
changes not yet committed, the savepoints, and the record of when it was
last saved.

# The data

`changes` are the edits since the last commit, in one change set, and
`oldState` the buffer before them. `selectionHistory` is a second store
of selections, one walk of it for each view. `history` is behind a
`Cell` in the source, which only matters to the borrow checker.

The other positions that an edit carries along are left out, as nothing
here reads them: marks, the changelist, narrowing bounds, folds,
diagnostics, text properties, hints and highlights. So are the syntax
tree, the diff handle and the events that an edit dispatches.
-/
import Zmax.Core.History
import Zmax.Lib.Table

namespace Zmax

variable (U : Unicode)

abbrev ViewId := Nat

abbrev DocumentId := Nat

/-- zmax-view/src/view.rs: where a window is scrolled to. -/
structure ViewPosition where
  anchor : Nat
  horizontalOffset : Nat
  verticalOffset : Nat
  deriving DecidableEq, Repr

/-- `Default` -/
def ViewPosition.default : ViewPosition := ⟨0, 0, 0⟩

/-- The selections a view went through. The entries before `index` are
there to undo, the others to redo. -/
structure SelectionHistory where
  entries : List Selection
  index : Nat
  deriving DecidableEq, Repr

/-- How many selection changes a view remembers. -/
def selectionHistoryLen : Nat := 256

/-- A snapshot of the document, as the way back to it. -/
structure SavePoint where
  view : ViewId
  revert : Transaction
  deriving DecidableEq, Repr

structure Document where
  id : DocumentId
  text : Rope
  selections : Table ViewId Selection
  selectionHistory : Table ViewId SelectionHistory
  viewData : Table ViewId ViewPosition
  /-- Pending changes since the last commit to the history. -/
  changes : ChangeSet
  /-- State at the last commit. -/
  oldState : Option State
  /-- vim `:undojoin`: the next commit joins the current revision. -/
  undojoinPending : Bool
  history : History
  lastSavedRevision : Nat
  /-- The ones that are still referred to. -/
  savepoints : List SavePoint
  modifiable : Bool
  deriving DecidableEq, Repr

namespace SelectionHistory

/-- `Default` -/
def default : SelectionHistory := ⟨[], 0⟩

/-- Record a selection that is replaced: there is nothing left to redo,
and the oldest entry goes beyond the cap. -/
def record (self : SelectionHistory) (previous : Selection) :
    SelectionHistory :=
  let entries := self.entries.take self.index ++ [previous]
  let entries :=
    if selectionHistoryLen < entries.length then entries.drop 1
    else entries
  ⟨entries, entries.length⟩

end SelectionHistory

namespace Document

/-- `Document::from`: a text with no view on it. -/
def ofText (now : Instant) (text : Rope) : Document :=
  { id := 0
    text := text
    selections := []
    selectionHistory := []
    viewData := []
    changes := .new text
    oldState := none
    undojoinPending := false
    history := .default now
    lastSavedRevision := 0
    savepoints := []
    modifiable := true }

-- == selections

/-- The selection of a view, which has to have one. -/
def selection (self : Document) (viewId : ViewId) : Result Selection :=
  match self.selections.get viewId with
  | some selection => .ok selection
  | none => .error .outOfBounds

/-- Select text. What is replaced is recorded, unless it is the same. -/
def setSelection (self : Document) (viewId : ViewId)
    (selection : Selection) : Result Document := do
  let selection ← selection.ensureInvariants U self.text
  let selectionHistory :=
    match self.selections.get viewId with
    | none => self.selectionHistory
    | some previous =>
        if previous = selection then self.selectionHistory
        else
          let history :=
            (self.selectionHistory.get viewId).getD .default
          self.selectionHistory.insert viewId (history.record previous)
  return { self with
    selectionHistory := selectionHistory
    selections := self.selections.insert viewId selection }

/-- kakoune `<a-u>`: step back to the selection before the last change.
The selection we came from takes its place in the walk. -/
def undoSelection (self : Document) (viewId : ViewId) :
    Result (Bool × Document) :=
  match self.selectionHistory.get viewId with
  | none => .ok (false, self)
  | some history =>
      if history.index = 0 then .ok (false, self)
      else
        match self.selections.get viewId with
        | none => .ok (false, self)
        | some current => do
            let i := history.index - 1
            let restored ← index history.entries i
            return (true, { self with
              selectionHistory :=
                self.selectionHistory.insert viewId
                  ⟨history.entries.set i current, i⟩
              selections := self.selections.insert viewId restored })

/-- kakoune `<a-U>`: step forward again. -/
def redoSelection (self : Document) (viewId : ViewId) :
    Result (Bool × Document) :=
  match self.selectionHistory.get viewId with
  | none => .ok (false, self)
  | some history =>
      if history.entries.length ≤ history.index then .ok (false, self)
      else
        match self.selections.get viewId with
        | none => .ok (false, self)
        | some current => do
            let restored ← index history.entries history.index
            return (true, { self with
              selectionHistory :=
                self.selectionHistory.insert viewId
                  ⟨history.entries.set history.index current,
                    history.index + 1⟩
              selections := self.selections.insert viewId restored })

/-- Where a view is scrolled to; the view has to be known. -/
def viewOffset (self : Document) (viewId : ViewId) :
    Result ViewPosition :=
  match self.viewData.get viewId with
  | some position => .ok position
  | none => .error .unwrapNone

-- == editing

/-- The current selection is replaced by the transaction's, if it sets
one. -/
def takeSelection (self : Document) (transaction : Transaction)
    (viewId : ViewId) : Result Document :=
  match transaction.selection with
  | none => .ok self
  | some selection => do
      let selection ← selection.ensureInvariants U self.text
      return { self with
        selections := self.selections.insert viewId selection }

/-- Map a selection through changes, and make it fit the new text. -/
def mapSelection (changes : ChangeSet) (text : Rope)
    (selection : Selection) : Result Selection := do
  let selection ← selection.map U changes
  selection.ensureInvariants U text

/-- Map a scroll position through changes. -/
def mapOffset (changes : ChangeSet) (position : ViewPosition) :
    Result ViewPosition := do
  let anchor ← changes.mapPos U position.anchor .before
  return { position with anchor := anchor }

/-- Generate the revert to every savepoint. -/
def mapSavepoints (transaction : Transaction) (oldDoc : Rope)
    (savepoints : List SavePoint) : Result (List SavePoint) :=
  if savepoints.isEmpty then .ok []
  else do
    let revert ← transaction.invert oldDoc
    savepoints.mapM fun savepoint => do
      let revert ← revert.compose savepoint.revert
      return { savepoint with revert := revert }

/-- Apply a transaction: whether that was successful, and the document
then. -/
def applyImpl (self : Document) (transaction : Transaction)
    (viewId : ViewId) : Result (Bool × Document) := do
  let oldDoc := self.text
  let changes := transaction.changes
  let (applied, text) ← changes.apply self.text
  if applied = false then return (false, self)
  let doc := { self with text := text }
  if changes.isEmpty then
    let doc ← doc.takeSelection U transaction viewId
    return (true, doc)
  let selections ← doc.selections.mapValues (mapSelection U changes text)
  let viewData ← doc.viewData.mapValues (mapOffset U changes)
  let savepoints ← mapSavepoints transaction oldDoc doc.savepoints
  let doc := { doc with
    selections := selections
    viewData := viewData
    savepoints := savepoints }
  let doc ← doc.takeSelection U transaction viewId
  return (true, doc)

/-- Whether a `nomodifiable` buffer refuses this transaction. -/
def refusesChange (self : Document) (transaction : Transaction) : Bool :=
  !self.modifiable && !transaction.changes.isEmpty

/-- Store the state just before any changes are made. -/
def storeOldState (self : Document) (transaction : Transaction)
    (viewId : ViewId) : Result Document :=
  if self.changes.isEmpty && !transaction.changes.isEmpty then do
    let selection ← self.selection viewId
    return { self with oldState := some ⟨self.text, selection⟩ }
  else .ok self

/-- `apply_inner`: apply, and compose with the pending changes. -/
def applyInner (self : Document) (transaction : Transaction)
    (viewId : ViewId) : Result (Bool × Document) := do
  let doc ← self.storeOldState transaction viewId
  let (success, doc) ← doc.applyImpl U transaction viewId
  if transaction.changes.isEmpty then return (success, doc)
  let changes ← doc.changes.compose transaction.changes
  return (success, { doc with changes := changes })

/-- Apply a transaction, unless the buffer refuses it. -/
def apply (self : Document) (transaction : Transaction)
    (viewId : ViewId) : Result (Bool × Document) :=
  if self.refusesChange transaction then .ok (false, self)
  else self.applyInner U transaction viewId

-- == saving

/-- If there are unsaved modifications. -/
def isModified (self : Document) : Bool :=
  self.history.current != self.lastSavedRevision || !self.changes.isEmpty

/-- Set the latest saved revision to the given one. -/
def setLastSavedRevision (self : Document) (rev : Nat) : Document :=
  { self with lastSavedRevision := rev }

/-- From here on `isModified` returns false. -/
def resetModified (self : Document) : Document :=
  { self with lastSavedRevision := self.history.current }

/-- vim `:set modified`, `:set nomodified`. The index of a revision is
never `usize::MAX`, so that `wrapping_add` does not wrap. -/
def setModified (self : Document) (modified : Bool) : Document :=
  if modified then
    { self with lastSavedRevision := self.history.current + 1 }
  else self.resetModified

def setUndojoinPending (self : Document) : Document :=
  { self with undojoinPending := true }

end Document

end Zmax
