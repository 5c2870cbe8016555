/-
A document and its views, taking step after step: the runs that the laws
of the document are about.

There are two machines. `Document.pick` is the document alone, with the
steps that move the selections of its views. `Session.exec` is the
document with its views, with the steps that edit, commit, move through
the history, save and reload. `recorded` and `saved` are ghosts of it:
the texts of the revisions, as in `Timeline`, and the text when the
document was last marked saved. No step reads them.
-/
import Zmax.Core.Timeline
import Zmax.View.Editing

namespace Zmax

variable (U : Unicode)

-- == selections

namespace Document

/-- The steps that read or write selections. -/
inductive Pick where
  | setSelection (viewId : ViewId) (selection : Selection)
  | apply (viewId : ViewId) (transaction : Transaction)
  | undoSelection (viewId : ViewId)
  | redoSelection (viewId : ViewId)
  deriving DecidableEq, Repr

/-- One step. -/
def pick (self : Document) : Pick → Result Document
  | .setSelection viewId selection => self.setSelection U viewId selection
  | .apply viewId transaction => do
      let (_, doc) ← self.apply U transaction viewId
      return doc
  | .undoSelection viewId => do
      let (_, doc) ← self.undoSelection viewId
      return doc
  | .redoSelection viewId => do
      let (_, doc) ← self.redoSelection viewId
      return doc

/-- So many steps of one kind. -/
def walk (step : Document → Result (Bool × Document)) :
    Nat → Document → Result Document
  | 0, doc => .ok doc
  | n + 1, doc => do
      let (_, doc) ← step doc
      walk step n doc

/-- How many selections of a view there are to undo. -/
def undoDepth (self : Document) (viewId : ViewId) : Nat :=
  ((self.selectionHistory.get viewId).getD .default).index

/-- How many selections of a view there are to redo. -/
def redoDepth (self : Document) (viewId : ViewId) : Nat :=
  let history := (self.selectionHistory.get viewId).getD .default
  history.entries.length - history.index

-- == history

/-- The history with the text of its current revision. -/
def timeline (self : Document) (recorded : List Rope) : Timeline :=
  ⟨self.history, textAt recorded self.history.current, recorded⟩

/-- What committing the pending changes is to the timeline. -/
def committing (self : Document) (undoLevels : Nat) (now : Instant)
    (viewId : ViewId) : Option Timeline.Action :=
  if self.changes.isEmpty then none
  else
    match self.oldState, self.selections.get viewId with
    | some oldState, some selection =>
        let transaction :=
          (Transaction.ofChanges self.changes).withSelection selection
        some (if self.undojoinPending ∧ self.history.current ≠ 0 then
          .join transaction oldState.selection now
        else .commit undoLevels transaction oldState.selection now)
    | _, _ => none

/-- Move through the history, up to the sync. -/
def move (clock : Clock) (self : Document) (undoLevels : Nat)
    (now : Instant) (view : View) :
    Navigation → Result (Bool × Document × View)
  | .undo => self.undoRedoMove U undoLevels now view true
  | .redo => self.undoRedoMove U undoLevels now view false
  | .jumpToRevision target => self.jumpToRevisionMove U undoLevels now view target
  | .earlier uk => self.earlierLaterMove U clock undoLevels now view uk true
  | .later uk => self.earlierLaterMove U clock undoLevels now view uk false

/-- Move through the history. -/
def navigate (clock : Clock) (self : Document) (undoLevels : Nat)
    (now : Instant) (view : View) :
    Navigation → Result (Bool × Document × View)
  | .undo => self.undoRedoImpl U undoLevels now view true
  | .redo => self.undoRedoImpl U undoLevels now view false
  | .jumpToRevision target => self.jumpToRevision U undoLevels now view target
  | .earlier uk => self.earlierLaterImpl U clock undoLevels now view uk true
  | .later uk => self.earlierLaterImpl U clock undoLevels now view uk false

/-- The document as a move finds it when it comes to committing. -/
def facing (self : Document) : Navigation → Document
  | .undo | .redo => { self with undojoinPending := false }
  | _ => self

attribute [grind =] walk

end Document

/-- Whether a move commits the pending changes first. -/
def Navigation.commits : Navigation → Bool
  | .undo | .jumpToRevision _ | .earlier _ => true
  | .redo | .later _ => false

-- == sessions

/-- A document with its views, the texts of the revisions, and the text
that was saved. -/
structure Session where
  doc : Document
  views : Table ViewId View
  recorded : List Rope
  saved : Rope
  deriving DecidableEq, Repr

/-- The global `undolevels` and the time, at some step. -/
structure Moment where
  undoLevels : Nat
  now : Instant
  deriving DecidableEq, Repr

namespace Session

inductive Action where
  | setSelection (viewId : ViewId) (selection : Selection)
  | apply (viewId : ViewId) (transaction : Transaction)
  | append (moment : Moment) (viewId : ViewId)
  /-- `:undojoin`, which commits first. -/
  | undojoin (moment : Moment) (viewId : ViewId)
  | navigate (moment : Moment) (viewId : ViewId) (nav : Navigation)
  | setModified (modified : Bool)
  /-- `:write`, which commits first. -/
  | save (moment : Moment) (viewId : ViewId)
  | reload (moment : Moment) (viewId : ViewId) (transaction : Transaction)
      (lines : Nat) (undoreload : Int)
  | syncChanges (viewId : ViewId)
  | pushJump (viewId : ViewId) (stack : Bool) (selection : Selection)
  deriving DecidableEq, Repr

/-- A document opened in some views, each with a selection. -/
def start (now : Instant) (text : Rope)
    (selections : Table ViewId Selection) : Session :=
  { doc := { Document.ofText now text with
      selections := selections
      viewData := selections.map fun p => (p.1, .default) }
    views := selections.map fun p => (p.1, .new p.1 0)
    recorded := [text]
    saved := text }

def view (self : Session) (viewId : ViewId) : Result View :=
  match self.views.get viewId with
  | some view => .ok view
  | none => .error .unwrapNone

/-- The recorded texts after the pending changes are committed. -/
def recordedAfter (clock : Clock) (recorded : List Rope) (doc : Document)
    (moment : Moment) (viewId : ViewId) : List Rope :=
  match doc.committing moment.undoLevels moment.now viewId with
  | none => recorded
  | some action =>
      match (doc.timeline recorded).exec clock action with
      | .ok timeline => timeline.recorded
      | .error _ => recorded

/-- Commit the pending changes through a view. -/
def append (clock : Clock) (self : Session) (moment : Moment)
    (viewId : ViewId) : Result Session := do
  let view ← self.view viewId
  let (doc, view') ←
    self.doc.appendChangesToHistory U moment.undoLevels moment.now view
  return { self with
    doc := doc
    views := self.views.insert viewId view'
    recorded := recordedAfter clock self.recorded self.doc moment view.id }

/-- One step. -/
def exec (clock : Clock) (self : Session) : Action → Result Session
  | .setSelection viewId selection => do
      let doc ← self.doc.setSelection U viewId selection
      return { self with doc := doc }
  | .apply viewId transaction => do
      let (_, doc) ← self.doc.apply U transaction viewId
      return { self with doc := doc }
  | .append moment viewId => self.append U clock moment viewId
  | .undojoin moment viewId => do
      let s ← self.append U clock moment viewId
      return { s with doc := s.doc.setUndojoinPending }
  | .navigate moment viewId nav => do
      let view ← self.view viewId
      let (_, doc, view') ←
        self.doc.navigate U clock moment.undoLevels moment.now view nav
      return { self with
        doc := doc
        views := self.views.insert viewId view'
        recorded :=
          if nav.commits then
            recordedAfter clock self.recorded (self.doc.facing nav) moment
              view.id
          else self.recorded }
  | .setModified modified =>
      .ok { self with
        doc := self.doc.setModified modified
        saved := if modified then self.saved else self.doc.text }
  | .save moment viewId => do
      let s ← self.append U clock moment viewId
      return { s with
        doc := s.doc.setLastSavedRevision s.doc.history.current
        saved := s.doc.text }
  | .reload moment viewId transaction lines undoreload => do
      let view ← self.view viewId
      let (_, applied) ← self.doc.apply U transaction view.id
      let (doc, view') ←
        self.doc.reload U moment.undoLevels moment.now view transaction lines
          undoreload
      return { self with
        doc := doc
        views := self.views.insert viewId view'
        recorded :=
          if Document.undoreloadSavesUndo lines undoreload then
            recordedAfter clock self.recorded applied moment view.id
          else [doc.text]
        saved := doc.text }
  | .syncChanges viewId => do
      let view ← self.view viewId
      let view ← view.syncChanges U self.doc
      return { self with views := self.views.insert viewId view }
  | .pushJump viewId stack selection => do
      let view ← self.view viewId
      let view ← view.pushJump U stack self.doc (self.doc.id, selection)
      return { self with views := self.views.insert viewId view }

end Session

end Zmax
