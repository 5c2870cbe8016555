/-
zmax-view/src/handlers/word_index.rs: the words of a text, the windows of a
change that are read again, the index that counts words, and the hook that
debounces what is reported of documents before the index is told; the loop
that runs it (zmax-event/src/debounce.rs).

Words and windows are iterators in the source and lists here, and offsets
are counted in chars. A slice out of bounds panics. The handle that cancels
a task may do so at any time, so what it says when it is asked for the
`n`-th time is a parameter.

Of a deadline only whether there is one is modelled. In which order a
`HashMap` is drained is not specified, so `fire` takes the order.
-/
import Zmax.Core.Diff
import Zmax.View.Document

namespace Zmax

namespace WordIndex

def MIN_WORD_GRAPHEMES : Nat := 3

def MAX_WORD_LEN : Nat := 50

def CANCEL_CHECK_INTERVAL : Nat := 4096

/-- `u32::MAX` -/
def COUNT_MAX : Nat := 0xffffffff

-- == words

/-- Whether a cluster is one of a word. -/
def isWord (U : Unicode) (grapheme : Tendril) : Bool :=
  grapheme.head?.any (charIsWord U)

/-- The run that is read satisfies the length bounds. -/
def qualify (text : Rope) (start stop charLen graphemesLen : Nat) :
    Option Tendril :=
  if MIN_WORD_GRAPHEMES ≤ graphemesLen ∧ charLen ≤ MAX_WORD_LEN then
    some ((text.drop start).take (stop - start))
  else none

/-- The loop of `words` over the clusters of a text, the next of which is
at `idx`: the run that is read starts at `start`, and there is none while
`graphemesLen` is zero. -/
def wordsLoop (U : Unicode) (text : Rope) :
    List Tendril → (idx start charLen graphemesLen : Nat) → List Tendril
  | [], _, start, charLen, graphemesLen =>
      (qualify text start text.length charLen graphemesLen).toList
  | grapheme :: graphemes, idx, start, charLen, graphemesLen =>
      let next := idx + grapheme.length
      if isWord U grapheme then
        if graphemesLen = 0 then
          wordsLoop U text graphemes next idx grapheme.length 1
        else
          wordsLoop U text graphemes next start (charLen + grapheme.length)
            (graphemesLen + 1)
      else if graphemesLen ≠ 0 then
        (qualify text start idx charLen graphemesLen).toList
          ++ wordsLoop U text graphemes next start charLen 0
      else wordsLoop U text graphemes next start charLen 0

def words (U : Unicode) (text : Rope) : List Tendril :=
  wordsLoop U text (graphemes U text) 0 0 0 0

-- == windows

/-- What is changed between two operations that retain: where it starts and
ends in the old text and in the new one. -/
structure Span where
  oldStart : Nat
  newStart : Nat
  oldPos : Nat
  newPos : Nat
  deriving DecidableEq, Repr

/-- Scan ahead until a `Retain` is found which would end a window. -/
def scanAhead : List Operation → (oldPos newPos : Nat) →
    List Operation × Nat × Nat
  | .retain n :: operations, oldPos, newPos =>
      if MAX_WORD_LEN < n then (.retain n :: operations, oldPos, newPos)
      else scanAhead operations (oldPos + n) (newPos + n)
  | .insert s :: operations, oldPos, newPos =>
      scanAhead operations oldPos (newPos + s.length)
  | .delete n :: operations, oldPos, newPos =>
      scanAhead operations (oldPos + n) newPos
  | [], oldPos, newPos => ([], oldPos, newPos)

attribute [grind =] wordsLoop scanAhead

theorem scanAhead_length (operations : List Operation)
    (oldPos newPos : Nat) :
    (scanAhead operations oldPos newPos).1.length ≤ operations.length := by
  induction operations generalizing oldPos newPos with
  | nil => exact Nat.le_refl _
  | cons operation operations ih =>
      cases operation with
      | retain n =>
          unfold scanAhead
          split
          · exact Nat.le_refl _
          · exact Nat.le_succ_of_le (ih _ _)
      | insert s => exact Nat.le_succ_of_le (ih _ _)
      | delete n => exact Nat.le_succ_of_le (ih _ _)

/-- The operations of `changed_windows`, from some position on. -/
def changedSpans (operations : List Operation) (oldPos newPos : Nat) :
    List Span :=
  match operations with
  | [] => []
  | .retain n :: operations =>
      changedSpans operations (oldPos + n) (newPos + n)
  | .insert s :: operations =>
      let ahead := scanAhead operations oldPos (newPos + s.length)
      ⟨oldPos, newPos, ahead.2.1, ahead.2.2⟩
        :: changedSpans ahead.1 ahead.2.1 ahead.2.2
  | .delete n :: operations =>
      let ahead := scanAhead operations (oldPos + n) newPos
      ⟨oldPos, newPos, ahead.2.1, ahead.2.2⟩
        :: changedSpans ahead.1 ahead.2.1 ahead.2.2
termination_by operations.length
decreasing_by
  · exact Nat.lt_succ_self _
  · exact Nat.lt_succ_of_le (scanAhead_length ..)
  · exact Nat.lt_succ_of_le (scanAhead_length ..)

/-- A span with the text around it that its words can reach. -/
def window (text : Rope) (start stop : Nat) : Result Tendril :=
  slice text (start - MAX_WORD_LEN) (min (stop + MAX_WORD_LEN) text.length)

-- == index

/-- How often each word is used in open buffers. -/
structure Inner where
  words : Table Tendril Nat
  deriving DecidableEq, Repr

namespace Inner

def insert (self : Inner) (word : Tendril) : Inner :=
  match self.words.get word with
  | some rc => ⟨self.words.insert word (min (rc + 1) COUNT_MAX)⟩
  | none => ⟨self.words.insert word 1⟩

def remove (self : Inner) (word : Tendril) : Result Inner :=
  match self.words.get word with
  | some 1 => .ok ⟨self.words.erase word⟩
  | some n => do
      let n ← checkedSub n 1
      return ⟨self.words.insert word n⟩
  | none => .ok self

end Inner

/-- `add_document`; the handle is asked before each word that is the first
of as many. -/
def addLoop (canceled : Nat → Bool) :
    List Tendril → (i : Nat) → Inner → Inner
  | [], _, inner => inner
  | word :: words, i, inner =>
      if i % CANCEL_CHECK_INTERVAL = 0
          ∧ canceled (i / CANCEL_CHECK_INTERVAL) = true then inner
      else addLoop canceled words (i + 1) (inner.insert word)

def addDocument (U : Unicode) (inner : Inner) (text : Rope)
    (canceled : Nat → Bool) : Inner :=
  addLoop canceled (words U text) 0 inner

/-- The loop of `update_document` over the windows: `sinceCheck` words are
processed since the handle was asked, `asked` times so far. -/
def updateLoop (U : Unicode) (oldText text : Rope)
    (canceled : Nat → Bool) :
    List Span → (sinceCheck asked : Nat) → Inner → Result Inner
  | [], _, _, inner => .ok inner
  | span :: spans, sinceCheck, asked, inner => do
      let oldWindow ← window oldText span.oldStart span.oldPos
      let newWindow ← window text span.newStart span.newPos
      let inner := (words U newWindow).foldl Inner.insert inner
      let inner ← (words U oldWindow).foldlM Inner.remove inner
      let sinceCheck := sinceCheck + (words U newWindow).length
        + (words U oldWindow).length
      if CANCEL_CHECK_INTERVAL ≤ sinceCheck then
        if canceled asked then return inner
        else updateLoop U oldText text canceled spans 0 (asked + 1) inner
      else updateLoop U oldText text canceled spans sinceCheck asked inner

def updateDocument (U : Unicode) (inner : Inner) (oldText text : Rope)
    (changes : ChangeSet) (canceled : Nat → Bool) : Result Inner :=
  updateLoop U oldText text canceled (changedSpans changes.changes 0 0) 0 0
    inner

/-- A change of a document's text. -/
structure Change where
  oldText : Rope
  text : Rope
  changes : ChangeSet
  /-- `changes` is stale and has to be computed again. -/
  dirty : Bool
  deriving DecidableEq, Repr

inductive Event where
  | insert (text : Rope)
  | update (doc : DocumentId) (change : Change)
  | delete (doc : DocumentId) (text : Rope)
  | clear
  deriving DecidableEq, Repr

/-- `is_changeset_significant` -/
def isChangesetSignificant (changes : ChangeSet) : Bool :=
  let diff := changes.changes.foldl (fun diff operation =>
    match operation with
    | .retain _ => diff
    | .delete n => diff + n
    | .insert s => diff + s.length) 0
  diff > 1000

structure Hook where
  changes : Table DocumentId Change
  /-- What the coordinator was sent. -/
  coordinator : List Event
  deriving DecidableEq, Repr

attribute [grind =] addLoop updateLoop

namespace Hook

variable (self : Hook)

def send (event : Event) : Hook :=
  { self with coordinator := self.coordinator ++ [event] }

/-- The hook, and whether there is a deadline. -/
def handleEvent (event : Event) (timeout : Bool) : Result (Hook × Bool) :=
  match event with
  | .insert _ => .error .unreachable
  | .update doc change =>
      match self.changes.get doc with
      | some pending =>
          let pending := { pending with text := change.text, dirty := true }
          .ok ({ self with changes := self.changes.insert doc pending }, true)
      | none =>
          if !isChangesetSignificant change.changes then
            .ok ({ self with changes := self.changes.insert doc change }, true)
          else .ok (self.send (.update doc change), timeout)
  | .delete doc text =>
      match self.changes.get doc with
      | some change =>
          let rest := { self with changes := self.changes.erase doc }
          .ok (rest.send (.delete doc change.oldText), timeout)
      | none => .ok (self.send (.delete doc text), timeout)
  | .clear => .error .unreachable

section

variable (unicodeLines : Bool) (imara : ImaraDiff)

/-- A coalesced change with its change set computed. -/
def refresh (change : Change) : Result Change :=
  if change.dirty then do
    let t ← compareRopes unicodeLines imara change.oldText change.text
    return { change with changes := t.changes, dirty := false }
  else .ok change

/-- `finish_debounce`, where the map is drained in some order -/
def finishDebounce (order : List (DocumentId × Change)) : Result Hook :=
  order.foldlM (fun hook entry => do
    return hook.send (.update entry.1 (← refresh unicodeLines imara entry.2)))
    { self with changes := [] }

end

end Hook

-- == runs

/-- The hook as it runs, with all that was reported to it. -/
structure Running where
  hook : Hook
  deadline : Bool
  reported : List Event
  deriving DecidableEq, Repr

def Running.start : Running := ⟨⟨[], []⟩, false, []⟩

inductive Action where
  | report (event : Event)
  /-- The deadline passes. -/
  | fire (order : List (DocumentId × Change))

/-- The document of a change or a deletion. -/
def Event.doc : Event → Option DocumentId
  | .update doc _ => some doc
  | .delete doc _ => some doc
  | _ => none

namespace Running

/-- Changes and deletions are reported, and the map is drained. -/
def Guard (self : Running) : Action → Prop
  | .report event => event.doc.isSome
  | .fire order => order.Perm self.hook.changes

def exec (unicodeLines : Bool) (imara : ImaraDiff) (self : Running) :
    Action → Result Running
  | .report event => do
      let r ← self.hook.handleEvent event self.deadline
      return ⟨r.1, r.2, self.reported ++ [event]⟩
  | .fire order => do
      let hook ← self.hook.finishDebounce unicodeLines imara order
      return ⟨hook, false, self.reported⟩

end Running

end WordIndex

end Zmax
