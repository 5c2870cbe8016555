/-
zmax-lsp/src/client.rs, `changeset_to_changes`: a change set as a list of
content changes for the language server, and what the server makes of
that list; zmax-lsp/src/lib.rs, `generate_transaction_from_edits`: the
edits of a language server as a transaction.

# The server

The changes are sequential: each one names a range of the text as the
changes before it left it. The server's lines end at `\n`, `\r\n` and
`\r`, and its columns count in the negotiated encoding; a character past
the end of its line is the end of that line.

The edits all speak of the document as it is. They are sorted by where they
start; one that overlaps an earlier one, or is inverted, is dropped. A
single edit of the whole document is compared with it instead.
`simultaneousEdits` is what the protocol says of such a list: every range is
one of the document's, and what edits put at one place stands in the order
of the list.

# What is here and what is not

`range_length` is always `None` and is left out. The change set and both
texts are the function's arguments, as in the source.
-/
import Zmax.Core.Diff
import Zmax.Lib.Patches
import Zmax.Lsp.Position

namespace Zmax.Lsp

/-- `lsp::Range` -/
structure Range where
  start : Position
  stop : Position
  deriving DecidableEq, Repr

/-- `lsp::TextDocumentContentChangeEvent` -/
structure TextDocumentContentChangeEvent where
  range : Range
  text : Tendril
  deriving DecidableEq, Repr

-- == the client

/-- `+=` on a `u32`, with its overflow check. -/
def addU32 (a : UInt32) (n : Nat) : Result UInt32 := do
  assert (a.toNat + n < 2 ^ 32)
  return .ofNat (a.toNat + n)

variable (offsetEncoding : OffsetEncoding)

/-- `traverse`: a position moved over a text; LSP only considers `\n`,
`\r` or `\r\n` as line endings. -/
def traverse : Position → Rope → Result Position
  | pos, [] => .ok pos
  -- consume a `\r\n`
  | pos, '\r' :: '\n' :: rest => do
      traverse ⟨← addU32 pos.line 1, 0⟩ rest
  | pos, ch :: rest => do
      if ch == '\n' || ch == '\r' then
        traverse ⟨← addU32 pos.line 1, 0⟩ rest
      else
        traverse ⟨pos.line, ← addU32 pos.character (offsetEncoding.len ch)⟩
          rest

/-- `RopeSlice::slice` -/
def slice (text : Rope) (start stop : Nat) : Result Rope :=
  if start ≤ stop ∧ stop ≤ text.length then
    .ok ((text.take stop).drop start)
  else .error .outOfBounds

variable (unicodeLines : Bool) (oldText newText : Rope)

/-- The loop of `changeset_to_changes`, with `old_pos` and `new_pos`. -/
def changesLoop : List Operation → Nat → Nat →
    Result (List TextDocumentContentChangeEvent)
  | [], _, _ => .ok []
  | .retain i :: rest, oldPos, newPos =>
      changesLoop rest (oldPos + i) (newPos + i)
  | .delete i :: rest, oldPos, newPos => do
      let start ← posToLspPos unicodeLines newText newPos offsetEncoding
      let stop ←
        traverse offsetEncoding start (← slice oldText oldPos (oldPos + i))
      let changes ← changesLoop rest (oldPos + i) newPos
      return ⟨⟨start, stop⟩, []⟩ :: changes
  -- a subsequent delete means a replace, consume it
  | .insert s :: .delete len :: rest, oldPos, newPos => do
      let start ← posToLspPos unicodeLines newText newPos offsetEncoding
      let stop ←
        traverse offsetEncoding start (← slice oldText oldPos (oldPos + len))
      let changes ← changesLoop rest (oldPos + len) (newPos + s.length)
      return ⟨⟨start, stop⟩, s⟩ :: changes
  | .insert s :: rest, oldPos, newPos => do
      let start ← posToLspPos unicodeLines newText newPos offsetEncoding
      let changes ← changesLoop rest oldPos (newPos + s.length)
      return ⟨⟨start, start⟩, s⟩ :: changes

/-- `Client::changeset_to_changes` -/
def changesetToChanges (changeset : ChangeSet) :
    Result (List TextDocumentContentChangeEvent) :=
  changesLoop offsetEncoding unicodeLines oldText newText changeset.changes
    0 0

-- == the server

/-- The line endings of the protocol. -/
def lspBreaks : Lines.Rule Char where
  breaks c := c == '\n' || c == '\r'
  pair a b := a == '\r' && b == '\n'
  breaks_snd := fun h => by
    rw [crlf_snd h]
    rfl
  pair_snd := crlf_pair_snd

/-- The place of a position in the server's text. -/
def serverPos (text : Rope) (pos : Position) : Nat :=
  Lines.locate lspBreaks offsetEncoding.len text pos.line.toNat
    pos.character.toNat

/-- The server takes one change. -/
def serverChange (text : Rope) (change : TextDocumentContentChangeEvent) :
    Rope :=
  text.take (serverPos offsetEncoding text change.range.start) ++ change.text
    ++ text.drop (serverPos offsetEncoding text change.range.stop)

/-- The server takes the changes one after the other. -/
def serverChanges (text : Rope)
    (changes : List TextDocumentContentChangeEvent) : Rope :=
  changes.foldl (serverChange offsetEncoding) text

-- == the splices

/-- What one emitted change stands for: `deleted` chars of the old text
from `oldPos`, replaced at `newPos` of the new text. -/
structure Splice where
  oldPos : Nat
  newPos : Nat
  deleted : Nat
  inserted : Tendril
  deriving DecidableEq, Repr

/-- The splices of a change set, one for each change the client emits. -/
def splices : List Operation → Nat → Nat → List Splice
  | [], _, _ => []
  | .retain i :: rest, oldPos, newPos => splices rest (oldPos + i) (newPos + i)
  | .delete i :: rest, oldPos, newPos =>
      ⟨oldPos, newPos, i, []⟩ :: splices rest (oldPos + i) newPos
  | .insert s :: .delete len :: rest, oldPos, newPos =>
      ⟨oldPos, newPos, len, s⟩
        :: splices rest (oldPos + len) (newPos + s.length)
  | .insert s :: rest, oldPos, newPos =>
      ⟨oldPos, newPos, 0, s⟩ :: splices rest oldPos (newPos + s.length)

attribute [grind =] traverse changesLoop splices

namespace Splice

/-- The text the server has when the change comes: new up to it, old from
it on. -/
def pending (s : Splice) : Rope :=
  newText.take s.newPos ++ oldText.drop s.oldPos

/-- The protocol can name the splice, and in the lines the client counts
in: before it ropey breaks where the protocol does, none of its ends lies
between a `\r` and a `\n`, and its positions are `u32`. -/
structure Addressed (s : Splice) : Prop where
  /-- Ropey and the protocol break alike. -/
  alike : ∀ i c, i < s.newPos → newText[i]? = some c →
    (lineBreaks unicodeLines).ends c newText[i + 1]?
      = lspBreaks.ends c newText[i + 1]?
  apartNew : Lines.splits lspBreaks newText s.newPos = false
  apart : Lines.splits lspBreaks (s.pending oldText newText) s.newPos
    = false
  apartOld : 0 < s.deleted →
    Lines.splits lspBreaks oldText (s.oldPos + s.deleted) = false
  fits : ∀ k ≤ s.deleted,
    Lines.splits lspBreaks (s.pending oldText newText) (s.newPos + k)
        = false →
      Lines.lineAt lspBreaks (s.pending oldText newText) (s.newPos + k)
          < 2 ^ 32 ∧
        Lines.colAt lspBreaks offsetEncoding.len
          (s.pending oldText newText) (s.newPos + k) < 2 ^ 32

/-- The change names, in the text the server has, what the splice
replaces, and carries what it inserts. -/
def Named (s : Splice) (change : TextDocumentContentChangeEvent) : Prop :=
  serverPos offsetEncoding (s.pending oldText newText) change.range.start
      = s.newPos ∧
    serverPos offsetEncoding (s.pending oldText newText) change.range.stop
      = s.newPos + s.deleted ∧
    change.text = s.inserted

end Splice

end Zmax.Lsp

namespace Zmax.Lsp

/-- `lsp::TextEdit` -/
structure TextEdit where
  range : Range
  newText : Tendril
  deriving DecidableEq, Repr

instance (a b : Position) : Decidable (a.le b) :=
  inferInstanceAs (Decidable
    (a.line < b.line ∨ a.line = b.line ∧ a.character ≤ b.character))

variable (unicodeLines : Bool) (imara : ImaraDiff)
  (offsetEncoding : OffsetEncoding) (doc : Rope)

/-- `sort_by_key`, which is stable. -/
def sortEdits (edits : List TextEdit) : List TextEdit :=
  edits.mergeSort fun a b => a.range.start.le b.range.start

/-- The edit is a full document replacement. -/
def isDocumentReplacement (edit : TextEdit) : Result Bool := do
  let start ← lspPosToPos unicodeLines doc edit.range.start offsetEncoding
  let stop ← lspPosToPos unicodeLines doc edit.range.stop offsetEncoding
  return start = some 0 ∧ stop = some doc.length

/-- The loop over the sorted edits, with `last_end`. -/
def resolveEdits : Nat → List TextEdit → Result (List Change)
  | _, [] => .ok []
  | lastEnd, edit :: edits => do
      let start ← lspPosToPos unicodeLines doc edit.range.start offsetEncoding
      let stop ← lspPosToPos unicodeLines doc edit.range.stop offsetEncoding
      match start, stop with
      | some start, some stop =>
          if start > stop then resolveEdits lastEnd edits
          -- overlapping
          else if start < lastEnd then resolveEdits lastEnd edits
          else do
            -- simplify "" into None for cleaner changesets
            let replacement :=
              if edit.newText.isEmpty then none else some edit.newText
            return (start, stop, replacement) :: (← resolveEdits stop edits)
      | _, _ => resolveEdits lastEnd edits

/-- `Transaction::change` of the resolved edits. -/
def changeEdits (edits : List TextEdit) : Result Transaction := do
  let changes ← resolveEdits unicodeLines offsetEncoding doc 0 edits
  return .ofChanges (← ChangeSet.fromChanges doc changes)

def generateTransactionFromEdits (edits : List TextEdit) :
    Result Transaction :=
  match sortEdits edits with
  | [edit] => do
      if ← isDocumentReplacement unicodeLines offsetEncoding doc edit then
        compareRopes unicodeLines imara doc edit.newText
      else changeEdits unicodeLines offsetEncoding doc [edit]
  | edits => changeEdits unicodeLines offsetEncoding doc edits

-- == the protocol

/-- The range of an edit, as the protocol reads it, and its text. -/
def protocolPatch (edit : TextEdit) : Patches.Patch Char :=
  ⟨serverPos offsetEncoding doc edit.range.start,
    serverPos offsetEncoding doc edit.range.stop, edit.newText⟩

/-- The document with all edits applied at once. -/
def simultaneousEdits (edits : List TextEdit) : Rope :=
  Patches.simultaneous doc (edits.map (protocolPatch offsetEncoding doc))

/-- Ranges that are none the other way round, and have nothing in
common. -/
structure NoOverlap (edits : List TextEdit) : Prop where
  proper : ∀ edit ∈ edits.map (protocolPatch offsetEncoding doc),
    edit.start ≤ edit.stop
  apart : (edits.map (protocolPatch offsetEncoding doc)).Pairwise Patches.Apart

/-- Ropey's lines put the edit where the protocol's do. -/
def Resolved (edit : TextEdit) : Prop :=
  ∀ pos ∈ [edit.range.start, edit.range.stop],
    lspPosToPos unicodeLines doc pos offsetEncoding =
      .ok (some (serverPos offsetEncoding doc pos))

/-- Sorted, no edit has a text for the start of a range before it, and what
is put at one place stands there as it does in the list. -/
structure InOrder (edits : List TextEdit) : Prop where
  noLate : Patches.NoLateInsert
    ((sortEdits edits).map (protocolPatch offsetEncoding doc))
  sameOrder : ∀ p,
    Patches.newAt ((sortEdits edits).map (protocolPatch offsetEncoding doc)) p =
      Patches.newAt (edits.map (protocolPatch offsetEncoding doc)) p

attribute [grind =] resolveEdits

end Zmax.Lsp
