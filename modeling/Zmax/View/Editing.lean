/-
zmax-view/src/document.rs, the functions that take the view along:
committing the pending changes, moving through the history, reloading.

# Parameters

The global `undolevels` and `undoreload`, the clock, and on a reload the
file's number of lines and the transaction that `compare_ropes` made for
it, are handed to the functions that read them.
-/
import Zmax.View.View

namespace Zmax

variable (U : Unicode)

namespace Document

/-- The stored state, of which there has to be one. -/
def expectOldState (self : Document) : Result State :=
  match self.oldState with
  | some oldState => .ok oldState
  | none => .error .unwrapNone

/-- The history with a transaction committed. After `:undojoin` it is
merged into the current revision instead of starting a new one. -/
def commitTransaction (self : Document) (undoLevels : Nat) (now : Instant)
    (transaction : Transaction) (oldState : State) : Result History :=
  if self.undojoinPending then
    self.history.mergeLastRevision undoLevels transaction oldState now
  else
    self.history.commitRevisionAtTimestamp undoLevels transaction oldState now

/-- Commit pending changes to the history. -/
def appendChangesToHistory (self : Document) (undoLevels : Nat)
    (now : Instant) (view : View) : Result (Document × View) := do
  if self.changes.isEmpty then return (self, view)
  let selection ← self.selection view.id
  let transaction :=
    (Transaction.ofChanges self.changes).withSelection selection
  let oldState ← self.expectOldState
  let history ← self.commitTransaction undoLevels now transaction oldState
  let doc := { self with
    changes := .new self.text
    oldState := none
    undojoinPending := false
    history := history }
  let view ← view.apply U transaction doc
  return (doc, view)

/-- Apply what the history handed out: whether any of it was
successful. -/
def applyEach (self : Document) (viewId : ViewId) :
    List Transaction → Result (Bool × Document)
  | [] => .ok (false, self)
  | transaction :: rest => do
      let (applied, doc) ← self.applyImpl U transaction viewId
      let (success, doc) ← applyEach doc viewId rest
      return (applied || success, doc)

/-- The end of every move through the history: fix the length of the
pending changes, and sync the view's jumps. -/
def settle (success : Bool) (doc : Document) (view : View) :
    Result (Bool × Document × View) :=
  if success then do
    let doc := { doc with changes := .new doc.text }
    let view ← view.syncChanges U doc
    return (true, doc, view)
  else .ok (false, doc, view)

/-- `undo_redo_impl` up to the sync. An undo cancels a pending
`:undojoin`. The source puts the history back after the edit, which does
not read it. -/
def undoRedoMove (self : Document) (undoLevels : Nat) (now : Instant)
    (view : View) (undo : Bool) : Result (Bool × Document × View) := do
  let doc := { self with undojoinPending := false }
  if !undo && !doc.changes.isEmpty then return (false, doc, view)
  let (doc, view) ←
    if undo then doc.appendChangesToHistory U undoLevels now view
    else pure (doc, view)
  let (transaction, history) ←
    if undo then doc.history.undo else doc.history.redo
  let doc := { doc with history := history }
  let (success, doc) ← doc.applyEach U view.id transaction.toList
  return (success, doc, view)

/-- `undo_redo_impl` -/
def undoRedoImpl (self : Document) (undoLevels : Nat) (now : Instant)
    (view : View) (undo : Bool) : Result (Bool × Document × View) := do
  let (success, doc, view) ← self.undoRedoMove U undoLevels now view undo
  settle U success doc view

variable (clock : Clock)

/-- `earlier_later_impl` up to the sync. -/
def earlierLaterMove (self : Document) (undoLevels : Nat) (now : Instant)
    (view : View) (uk : UndoKind) (earlier : Bool) :
    Result (Bool × Document × View) := do
  if !earlier && !self.changes.isEmpty then return (false, self, view)
  let (doc, view) ←
    if earlier then self.appendChangesToHistory U undoLevels now view
    else pure (self, view)
  let (transactions, history) ←
    if earlier then doc.history.earlier clock uk
    else doc.history.later clock uk
  let doc := { doc with history := history }
  let (success, doc) ← doc.applyEach U view.id transactions
  return (success, doc, view)

/-- `earlier_later_impl` -/
def earlierLaterImpl (self : Document) (undoLevels : Nat) (now : Instant)
    (view : View) (uk : UndoKind) (earlier : Bool) :
    Result (Bool × Document × View) := do
  let (success, doc, view) ←
    self.earlierLaterMove U clock undoLevels now view uk earlier
  settle U success doc view

/-- `jump_to_revision` up to the sync. -/
def jumpToRevisionMove (self : Document) (undoLevels : Nat) (now : Instant)
    (view : View) (target : Nat) : Result (Bool × Document × View) := do
  let (doc, view) ← self.appendChangesToHistory U undoLevels now view
  let (transactions, history) ← doc.history.jumpToRevision target
  let doc := { doc with history := history }
  let (success, doc) ← doc.applyEach U view.id transactions
  return (success, doc, view)

/-- Jump to a revision of the undo history. -/
def jumpToRevision (self : Document) (undoLevels : Nat) (now : Instant)
    (view : View) (target : Nat) : Result (Bool × Document × View) := do
  let (success, doc, view) ←
    self.jumpToRevisionMove U undoLevels now view target
  settle U success doc view

/-- vim `undoreload`: whether a reload is undoable. -/
def undoreloadSavesUndo (lines : Nat) (limit : Int) : Bool :=
  limit < 0 || (lines : Int) < limit

/-- Reload from a file that could be read. `transaction` is what
`compare_ropes` gives for the text and the file's. -/
def reload (self : Document) (undoLevels : Nat) (now : Instant)
    (view : View) (transaction : Transaction) (lines : Nat)
    (undoreload : Int) : Result (Document × View) := do
  let (_, doc) ← self.apply U transaction view.id
  let (doc, view) ←
    if undoreloadSavesUndo lines undoreload then
      doc.appendChangesToHistory U undoLevels now view
    else
      pure ({ doc with
        history := .default now
        changes := .new doc.text
        oldState := none }, view)
  return (doc.resetModified, view)

attribute [grind =] applyEach

end Document

end Zmax
