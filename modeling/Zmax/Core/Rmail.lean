/-
zmax-core/src/email.rs: the headers and the body of a mail draft, and the
addresses of a header; zmax-core/src/rmail.rs: reading an mbox, going about
in it, marking and sorting its messages, and writing it back.

Lowercasing reads the tables of Unicode, so it is a parameter.
-/
import Mathlib.Data.List.Infix
import Zmax.Core.Merge
import Zmax.Core.Text

namespace Zmax.Email

open Text
open Merge (Line joinLines)

def HEADER_SEPARATOR : Line := "--text follows this line--".toList

/-- A parsed mail: the headers in the order of the text, twice if they are
there twice, and what follows them. -/
structure Message where
  headers : List (Line × Line)
  body : Rope
  deriving DecidableEq, Repr

/-- `eq_ignore_ascii_case` -/
def eqIgnoreAsciiCase (a b : Line) : Bool :=
  a.map Char.toLower = b.map Char.toLower

/-- The first value of a header. -/
def header (headers : List (Line × Line)) (name : Line) : Option Line :=
  (headers.find? fun kv => eqIgnoreAsciiCase kv.1 name).map Prod.snd

/-- `split_once(':')` -/
def splitOnce (line : Line) : Option (Line × Line) := breakAt [':'] line

/-- The line ends the headers. -/
def endsHeaders (line : Line) : Bool :=
  line = HEADER_SEPARATOR || line.isEmpty

/-- The line goes on with the header before it. -/
def continues (line : Line) : Bool :=
  startsWith line [' '] || startsWith line ['\t']

/-- A folded line joins the value of the last header. -/
def continueHeader (headers : List (Line × Line)) (line : Line) :
    List (Line × Line) :=
  headers.modify (headers.length - 1) fun kv =>
    (kv.1, kv.2 ++ ' ' :: trim line)

/-- What one line adds to the headers. A line without a colon is ignored. -/
def readHeader (headers : List (Line × Line)) (line : Line) :
    List (Line × Line) :=
  if continues line && !headers.isEmpty then continueHeader headers line
  else match splitOnce line with
    | some (k, v) => headers ++ [(trim k, trim v)]
    | none => headers

/-- The loop over the header lines, and the lines of the body if it starts. -/
def readHeaders (headers : List (Line × Line)) :
    List Line → List (Line × Line) × Option (List Line)
  | [] => (headers, none)
  | line :: rest =>
      if endsHeaders line then (headers, some rest)
      else readHeaders (readHeader headers line) rest

/-- Split a draft into its headers and its body. -/
def parseBuffer (text : Rope) : Message :=
  match readHeaders [] (lines text) with
  | (headers, some rest) => ⟨headers, joinLines rest⟩
  | (headers, none) => ⟨headers, []⟩

-- == addresses

/-- `rfind` -/
def rfind (c : Char) (s : Line) : Option Nat :=
  (s.reverse.findIdx? (· = c)).map (s.length - 1 - ·)

/-- The address of `Display Name <addr>`. -/
def unwrapAddress (s : Line) : Line :=
  match rfind '<' s, rfind '>' s with
  | some start, some stop =>
      if start < stop then trim ((s.take stop).drop (start + 1)) else s
  | _, _ => s

def parseAddresses (list : Line) : List Line :=
  (((list.splitOn ',').map trim).filter (· ≠ [])).map unwrapAddress

attribute [grind =] readHeaders

end Zmax.Email

namespace Zmax.Rmail

open Text Email
open Merge (Line splitLines joinLines)

/-- `"From "`, which opens a message. -/
def FROM : Line := "From ".toList

/-- One message of a mailbox. -/
structure Msg where
  /-- The line that opened it, behind `FROM`. -/
  envelope : Line
  headers : List (Line × Line)
  body : Rope
  deleted : Bool
  seen : Bool
  labels : List Line
  deriving DecidableEq, Repr

-- == sort keys

/-- The order of strings. -/
def strLe (a b : Line) : Bool :=
  !List.lex b a fun c d => Nat.blt c.toNat d.toNat

/-- The parts of a date found so far. -/
structure DateParts where
  year : Nat
  month : Nat
  day : Nat
  hh : Nat
  mm : Nat
  ss : Nat
  deriving DecidableEq, Repr

def MONTHS : List Line :=
  ["jan", "feb", "mar", "apr", "may", "jun", "jul", "aug", "sep", "oct",
    "nov", "dec"].map String.toList

/-- A month's name, in any case and from three letters on. -/
def monthNumber (tok : Line) : Option Nat :=
  let low := tok.map Char.toLower
  if low.length < 3 then none
  else (MONTHS.findIdx? fun m => startsWith low m).map (· + 1)

/-- `parse::<u32>` -/
def parseU32 (s : Line) : Option Nat :=
  (parseUsize s).filter (· ≤ 0xffffffff)

/-- What a token tells of the date. -/
def DateParts.token (d : DateParts) (tok : Line) : DateParts :=
  let tok := trim tok
  if tok = [] then d
  else match monthNumber tok with
    | some m => { d with month := m }
    | none =>
        if tok.contains ':' then
          let parts := tok.splitOn ':'
          let part i := ((parts[i]?).bind parseU32).getD 0
          { d with hh := part 0, mm := part 1, ss := part 2 }
        else match parseU32 tok with
          | some n =>
              if tok.length = 4 ∧ 1000 ≤ n ∧ n ≤ 9999 then { d with year := n }
              else if 1 ≤ n ∧ n ≤ 31 ∧ d.day = 0 then { d with day := n }
              else d
          | none => d

/-- `{n:0width}` -/
def padded (width n : Nat) : Line := (Nat.toDigits 10 n).leftpad width '0'

/-- A date as `YYYYMMDDhhmmss`. -/
def sortableDate (raw : Line) : Line :=
  let d := (raw.splitOnP fun c => isWhitespace c || c = ',').foldl
    DateParts.token ⟨0, 0, 0, 0, 0, 0⟩
  padded 4 d.year ++ padded 2 d.month ++ padded 2 d.day ++ padded 2 d.hh ++
    padded 2 d.mm ++ padded 2 d.ss

/-- A lowercased subject without its `re:`, `fwd:` or `fw:`. -/
def stripReply (lower : Line) : Option Line :=
  ((stripPrefix lower "re:".toList).or (stripPrefix lower "fwd:".toList)).or
    (stripPrefix lower "fw:".toList)

theorem length_stripReply {lower rest : Line}
    (h : stripReply lower = some rest) : rest.length < lower.length := by
  simp only [stripReply, Option.or_eq_some_iff, stripPrefix_eq_some] at h
  rcases h with (rfl | ⟨-, rfl⟩) | ⟨-, rfl⟩ <;>
  · rw [List.length_append]
    exact Nat.lt_add_of_pos_left (by decide)

/-- The loop over the prefixes of a subject. -/
def stripReplies (s : Line) : Line :=
  match h : stripReply (s.map Char.toLower) with
  | some rest =>
      stripReplies ((s.drop (s.length - rest.length)).dropWhile isWhitespace)
  | none => s
termination_by s.length
decreasing_by
  have hlen := length_stripReply h
  have hdrop := List.length_dropWhile_le isWhitespace
    (s.drop (s.length - rest.length))
  rw [List.length_drop] at hdrop
  rw [List.length_map] at hlen
  omega

def normalizeSubject (subject : Line) : Line := stripReplies (trim subject)

variable (toLowercase : Line → Line)

/-- The first address of a header's value, lowercased. -/
def firstAddress (value : Line) : Line :=
  toLowercase ((parseAddresses value).head?.getD [])

namespace Msg

def header (self : Msg) (name : String) : Option Line :=
  Email.header self.headers name.toList

def subject (self : Msg) : Line :=
  (self.header "Subject").getD "(no subject)".toList

/-- What follows the sender in the envelope. -/
def envelopeDate (self : Msg) : Line :=
  (self.envelope.dropWhile fun c => !isWhitespace c).dropWhile isWhitespace

def dateKey (self : Msg) : Line :=
  sortableDate ((self.header "Date").getD self.envelopeDate)

def subjectKey (self : Msg) : Line :=
  toLowercase (normalizeSubject self.subject)

def authorKey (self : Msg) : Line :=
  firstAddress toLowercase ((self.header "From").getD [])

def recipientKey (self : Msg) : Line :=
  firstAddress toLowercase ((self.header "To").getD [])

def correspondentKey (self : Msg) : Line :=
  let addresses := (["From", "To", "Cc"].filterMap self.header).map
    (firstAddress toLowercase)
  (addresses.find? (· ≠ [])).getD []

def lineCount (self : Msg) : Nat :=
  if self.body = [] then 0 else (splitLines self.body).length

def labelsKey (self : Msg) : Line :=
  [','].intercalate ((self.labels.map toLowercase).mergeSort strLe)

end Msg

/-- `message_contains`: a header or the body has the text in it. -/
def messageContains (msg : Msg) (needleLower : Line) : Bool :=
  needleLower <:+: toLowercase msg.body ||
    msg.headers.any fun kv =>
      needleLower <:+: toLowercase kv.1 || needleLower <:+: toLowercase kv.2

-- == reading

/-- A line that was quoted, once or more: `>From `, `>>From `. -/
def quoted (line : Line) : Bool :=
  startsWith (line.dropWhile (· = '>')) FROM && startsWith line ['>']

/-- Take one quote off a line. -/
def unquote (line : Line) : Line :=
  if quoted line then line.drop 1 else line

/-- How far the reader of an mbox is. -/
structure Scan where
  msgs : List Msg
  /-- The envelope of the open message. -/
  envelope : Option Line
  /-- The lines of the open message. -/
  chunk : List Line
  prevBlank : Bool
  deriving DecidableEq, Repr

/-- A message as it is read. -/
def Msg.read (envelope : Line) (chunk : List Line) : Msg :=
  let parsed := parseBuffer (joinLines (chunk.map unquote))
  { envelope := envelope
    headers := parsed.headers
    body := parsed.body
    deleted := false
    seen := false
    labels := [] }

/-- Close the open message. -/
def Scan.flush (s : Scan) : Scan :=
  { s with
    msgs := s.msgs ++ s.envelope.toList.map (Msg.read · s.chunk)
    envelope := none
    chunk := [] }

/-- The loop body: a line after a blank one may open a message. -/
def Scan.line (s : Scan) (line : Line) : Scan :=
  let isSeparator := s.prevBlank && startsWith line FROM
  let next :=
    if isSeparator then
      { s.flush with envelope := some (line.drop FROM.length) }
    else if s.envelope.isSome then { s with chunk := s.chunk ++ [line] }
    else s
  { next with prevBlank := line.isEmpty }

def parseMbox (text : Rope) : List Msg :=
  ((lines text).foldl Scan.line ⟨[], none, [], true⟩).flush.msgs

-- == mailbox

structure Mailbox where
  msgs : List Msg
  current : Nat
  deriving DecidableEq, Repr

/-- Read a mailbox and show its first message. -/
def fromMbox (text : Rope) : Mailbox :=
  ⟨(parseMbox text).modify 0 fun m => { m with seen := true }, 0⟩

/-- The next message after one that a test takes. -/
def forward (msgs : List Msg) (test : Msg → Bool) (i : Nat) : Option Nat :=
  if h : i + 1 < msgs.length then
    if test msgs[i + 1] then some (i + 1) else forward msgs test (i + 1)
  else none
termination_by msgs.length - i

/-- The last message before one that a test takes. -/
def backward (msgs : List Msg) (test : Msg → Bool) : Nat → Result (Option Nat)
  | 0 => return none
  | i + 1 => do
      let m ← index msgs i
      if test m then return some i else backward msgs test i

attribute [grind =] backward

namespace Mailbox

/-- The message the cursor is on, if any. -/
def currentMsg (self : Mailbox) : Option Msg := self.msgs[self.current]?

/-- Change the message the cursor is on, if there is one. -/
def modifyCurrent (self : Mailbox) (f : Msg → Msg) : Mailbox :=
  { self with msgs := self.msgs.modify self.current f }

/-- Put the cursor on a message, or the last, and mark it seen. -/
def goto (self : Mailbox) (idx : Nat) : Mailbox :=
  if self.msgs.isEmpty then self
  else
    let current := min idx (self.msgs.length - 1)
    ⟨self.msgs.modify current fun m => { m with seen := true }, current⟩

/-- Go on to what a test takes, or stay. -/
def gotoForward (self : Mailbox) (test : Msg → Bool) : Mailbox :=
  ((forward self.msgs test self.current).map self.goto).getD self

/-- Go back to what a test takes, or stay. -/
def gotoBackward (self : Mailbox) (test : Msg → Bool) : Result Mailbox := do
  let found ← backward self.msgs test self.current
  return (found.map self.goto).getD self

def next (self : Mailbox) (skipDeleted : Bool) : Mailbox :=
  self.gotoForward fun m => !skipDeleted || !m.deleted

def prev (self : Mailbox) (skipDeleted : Bool) : Result Mailbox :=
  self.gotoBackward fun m => !skipDeleted || !m.deleted

def first (self : Mailbox) : Mailbox := self.goto 0

def last (self : Mailbox) : Mailbox :=
  if self.msgs.isEmpty then self else self.goto (self.msgs.length - 1)

/-- Go to a message by its number, which counts from one. -/
def showNumber (self : Mailbox) (number : Nat) : Mailbox :=
  if 1 ≤ number then self.goto (number - 1) else self

def deleteForward (self : Mailbox) : Mailbox :=
  (self.modifyCurrent fun m => { m with deleted := true }).next true

def deleteBackward (self : Mailbox) : Result Mailbox :=
  (self.modifyCurrent fun m => { m with deleted := true }).prev true

/-- Undelete this message, or the last deleted one before it. -/
def undelete (self : Mailbox) : Result Mailbox := do
  if self.currentMsg.any Msg.deleted then
    return self.modifyCurrent fun m => { m with deleted := false }
  else
    match ← backward self.msgs Msg.deleted self.current with
    | some i =>
        return ⟨self.msgs.modify i fun m => { m with deleted := false }, i⟩
    | none => return self

/-- Remove what is deleted. The cursor stays on its message, or on the one
behind it. -/
def expunge (self : Mailbox) : Mailbox :=
  let deletedBefore :=
    (self.msgs.take (min self.current self.msgs.length)).countP Msg.deleted
  let msgs := self.msgs.filter fun m => !m.deleted
  ⟨msgs, if msgs.isEmpty then 0
    else min (self.current - deletedBefore) (msgs.length - 1)⟩

def addLabel (self : Mailbox) (label : Line) : Mailbox :=
  self.modifyCurrent fun m =>
    if label ∈ m.labels then m else { m with labels := m.labels ++ [label] }

def killLabel (self : Mailbox) (label : Line) : Mailbox :=
  self.modifyCurrent fun m =>
    { m with labels := m.labels.filter fun l => l ≠ label }

def nextLabeled (self : Mailbox) (label : Line) : Mailbox :=
  self.gotoForward fun m => label ∈ m.labels

def prevLabeled (self : Mailbox) (label : Line) : Result Mailbox :=
  self.gotoBackward fun m => label ∈ m.labels

/-- The messages in an order of their indices, each taken out of its slot. -/
def takeSlots (slots : List (Option Msg)) : List Nat → Result (List Msg)
  | [] => return []
  | i :: order => do
      match ← index slots i with
      | some m => return m :: (← takeSlots (slots.set i none) order)
      | none => .error .unwrapNone

/-- Reorder the messages by a key, and keep the cursor on its message. -/
def sortByKey {κ : Type} (le : κ → κ → Bool) (key : Msg → κ)
    (self : Mailbox) : Result Mailbox :=
  if self.msgs.length < 2 then return self
  else do
    let keys := self.msgs.map key
    let order := (List.range self.msgs.length).mergeSort fun i j =>
      match keys[i]?, keys[j]? with
      | some a, some b => le a b
      | _, _ => true
    let msgs ← takeSlots (self.msgs.map some) order
    return ⟨msgs, (order.findIdx? (· = self.current)).getD self.current⟩

def sortByDate : Mailbox → Result Mailbox := sortByKey strLe Msg.dateKey

def sortBySubject : Mailbox → Result Mailbox :=
  sortByKey strLe (Msg.subjectKey toLowercase)

def sortByAuthor : Mailbox → Result Mailbox :=
  sortByKey strLe (Msg.authorKey toLowercase)

def sortByRecipient : Mailbox → Result Mailbox :=
  sortByKey strLe (Msg.recipientKey toLowercase)

def sortByCorrespondent : Mailbox → Result Mailbox :=
  sortByKey strLe (Msg.correspondentKey toLowercase)

def sortByLines : Mailbox → Result Mailbox :=
  sortByKey Nat.ble Msg.lineCount

def sortByLabels : Mailbox → Result Mailbox :=
  sortByKey strLe (Msg.labelsKey toLowercase)

/-- Undelete every message; how many that were. -/
def undeleteAll (self : Mailbox) : Mailbox × Nat :=
  ({ self with msgs := self.msgs.map fun m => { m with deleted := false } },
    self.msgs.countP Msg.deleted)

/-- Go on to a message with a text in it; whether there is one. -/
def search (self : Mailbox) (needle : Line) : Mailbox × Bool :=
  let needle := toLowercase needle
  match forward self.msgs (messageContains toLowercase · needle)
      self.current with
  | some i => (self.goto i, true)
  | none => (self, false)

def nextSameSubject (self : Mailbox) : Mailbox :=
  match self.currentMsg with
  | some m => self.gotoForward fun m' =>
      normalizeSubject m'.subject = normalizeSubject m.subject
  | none => self

def prevSameSubject (self : Mailbox) : Result Mailbox :=
  match self.currentMsg with
  | some m => self.gotoBackward fun m' =>
      normalizeSubject m'.subject = normalizeSubject m.subject
  | none => return self

attribute [grind =] takeSlots

end Mailbox

-- == writing

/-- A body line as it is written. -/
def requote (line : Line) : Line :=
  if startsWith line FROM then '>' :: line else line

def Msg.toMbox (m : Msg) : Rope :=
  FROM ++ m.envelope ++ ['\n'] ++
    m.headers.flatMap (fun kv => kv.1 ++ ": ".toList ++ kv.2 ++ ['\n']) ++
    ['\n'] ++ (splitLines m.body).flatMap (requote · ++ ['\n']) ++ ['\n']

def Mailbox.toMbox (self : Mailbox) : Rope := self.msgs.flatMap Msg.toMbox

-- == operations

/-- The operations on a mailbox. -/
inductive Op where
  | next (skipDeleted : Bool)
  | prev (skipDeleted : Bool)
  | first
  | last
  | showNumber (number : Nat)
  | deleteForward
  | deleteBackward
  | undelete
  | undeleteAll
  | expunge
  | addLabel (label : Line)
  | killLabel (label : Line)
  | nextLabeled (label : Line)
  | prevLabeled (label : Line)
  | sortByDate
  | sortBySubject
  | sortByAuthor
  | sortByRecipient
  | sortByCorrespondent
  | sortByLines
  | sortByLabels
  | search (needle : Line)
  | nextSameSubject
  | prevSameSubject

def Mailbox.exec (mb : Mailbox) : Op → Result Mailbox
  | .next skip => return mb.next skip
  | .prev skip => mb.prev skip
  | .first => return mb.first
  | .last => return mb.last
  | .showNumber number => return mb.showNumber number
  | .deleteForward => return mb.deleteForward
  | .deleteBackward => mb.deleteBackward
  | .undelete => mb.undelete
  | .undeleteAll => return mb.undeleteAll.1
  | .expunge => return mb.expunge
  | .addLabel label => return mb.addLabel label
  | .killLabel label => return mb.killLabel label
  | .nextLabeled label => return mb.nextLabeled label
  | .prevLabeled label => mb.prevLabeled label
  | .sortByDate => mb.sortByDate
  | .sortBySubject => mb.sortBySubject toLowercase
  | .sortByAuthor => mb.sortByAuthor toLowercase
  | .sortByRecipient => mb.sortByRecipient toLowercase
  | .sortByCorrespondent => mb.sortByCorrespondent toLowercase
  | .sortByLines => mb.sortByLines
  | .sortByLabels => mb.sortByLabels toLowercase
  | .search needle => return (mb.search toLowercase needle).1
  | .nextSameSubject => return mb.nextSameSubject
  | .prevSameSubject => mb.prevSameSubject

end Zmax.Rmail
