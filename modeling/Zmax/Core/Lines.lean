/-
zmax-core/src/line_ending.rs, and the line index of ropey under it: where
the lines of a text start and end, and what a position is in bytes and in
UTF-16 code units.

# The build

The crate is built with or without its feature `unicode-lines`, and ropey
with it. Without, a line ends at `\n` alone (so at `\r\n` too); with it,
at any break Unicode names, a lone `\r` among them. The feature is the
flag `unicodeLines` of every definition below.

# Failures

Ropey panics at an index past the end of the text, and at a line past the
one after the last. Its `try_` conversions give `None` there. A unit
inside a char stands for that char.
-/
import Zmax.Basic
import Zmax.Lib.Lines

namespace Zmax

/-- `LineEnding`: one of the valid Unicode line endings. -/
inductive LineEnding where
  | crlf
  | lf
  | vt
  | ff
  | cr
  | nel
  | ls
  | ps
  deriving DecidableEq, Repr

namespace LineEnding

def asStr : LineEnding → Tendril
  | crlf => ['\r', '\n']
  | lf => ['\n']
  | vt => ['\x0b']
  | ff => ['\x0c']
  | cr => ['\r']
  | nel => ['\u0085']
  | ls => ['\u2028']
  | ps => ['\u2029']

def lenChars : LineEnding → Nat
  | crlf => 2
  | _ => 1

/-- `LineEnding::from_str`; the endings past the first two are there with
the feature only. -/
def fromStr (unicodeLines : Bool) (g : Tendril) : Option LineEnding :=
  if g = ['\r', '\n'] then some crlf
  else if g = ['\n'] then some lf
  else if !unicodeLines then none
  else if g = ['\x0b'] then some vt
  else if g = ['\x0c'] then some ff
  else if g = ['\r'] then some cr
  else if g = ['\u0085'] then some nel
  else if g = ['\u2028'] then some ls
  else if g = ['\u2029'] then some ps
  else none

end LineEnding

-- == ropey's lines

theorem crlf_snd {a b : Char} (h : (a == '\r' && b == '\n') = true) :
    b = '\n' := by
  rw [Bool.and_eq_true] at h
  exact eq_of_beq h.2

theorem crlf_pair_snd {a b : Char} (c : Char)
    (h : (a == '\r' && b == '\n') = true) :
    (b == '\r' && c == '\n') = false := by
  rw [crlf_snd h]
  rfl

/-- The breaks ropey is built with. -/
def lineBreaks (unicodeLines : Bool) : Lines.Rule Char where
  breaks c := c == '\n' || (unicodeLines &&
    (c == '\x0b' || c == '\x0c' || c == '\r' || c == '\u0085'
      || c == '\u2028' || c == '\u2029'))
  pair a b := a == '\r' && b == '\n'
  breaks_snd := fun h => by
    rw [crlf_snd h]
    rfl
  pair_snd := crlf_pair_snd

/-- The length of a char in UTF-16 code units. -/
def lenUtf16 (c : Char) : Nat := if c.val ≤ 0xffff then 1 else 2

variable (unicodeLines : Bool) (doc : Rope)

def lenLines : Nat := Lines.lineCount (lineBreaks unicodeLines) doc

def charToLine (charIdx : Nat) : Result Nat :=
  if charIdx ≤ doc.length then
    .ok (Lines.lineAt (lineBreaks unicodeLines) doc charIdx)
  else .error .outOfBounds

/-- One line past the last is allowed, and gives the end of the text. -/
def lineToChar (lineIdx : Nat) : Result Nat :=
  if lineIdx ≤ lenLines unicodeLines doc then
    .ok (Lines.lineStart (lineBreaks unicodeLines) doc lineIdx)
  else .error .outOfBounds

/-- A line with its ending. -/
def line (lineIdx : Nat) : Result Rope :=
  if lineIdx < lenLines unicodeLines doc then do
    let start ← lineToChar unicodeLines doc lineIdx
    let stop ← lineToChar unicodeLines doc (lineIdx + 1)
    return (doc.drop start).take (stop - start)
  else .error .outOfBounds

def charToByte (charIdx : Nat) : Result Nat :=
  if charIdx ≤ doc.length then
    .ok (Lines.offset Char.utf8Size doc charIdx)
  else .error .outOfBounds

def charToUtf16Cu (charIdx : Nat) : Result Nat :=
  if charIdx ≤ doc.length then .ok (Lines.offset lenUtf16 doc charIdx)
  else .error .outOfBounds

def lineToByte (lineIdx : Nat) : Result Nat := do
  charToByte doc (← lineToChar unicodeLines doc lineIdx)

def tryByteToChar (byteIdx : Nat) : Option Nat :=
  if byteIdx ≤ Lines.width Char.utf8Size doc then
    some (Lines.itemAt Char.utf8Size doc byteIdx)
  else none

def tryUtf16CuToChar (utf16CuIdx : Nat) : Option Nat :=
  if utf16CuIdx ≤ Lines.width lenUtf16 doc then
    some (Lines.itemAt lenUtf16 doc utf16CuIdx)
  else none

-- == endings

/-- `get_line_ending`: the last two chars, then the last one. Chars of
`line` that are not in one chunk are no ending, and ropey keeps `\r\n` in
one. -/
def getLineEnding (line : Rope) : Option LineEnding :=
  (LineEnding.fromStr unicodeLines (line.drop (line.length - 2))).or
    (LineEnding.fromStr unicodeLines (line.drop (line.length - 1)))

/-- `line_end_char_index`: the end of a line, not including its line
ending. -/
def lineEndCharIndex (lineIdx : Nat) : Result Nat := do
  let stop ← lineToChar unicodeLines doc (lineIdx + 1)
  let text ← line unicodeLines doc lineIdx
  checkedSub stop
    (((getLineEnding unicodeLines text).map LineEnding.lenChars).getD 0)

/-- `line_end_byte_index` -/
def lineEndByteIndex (lineIdx : Nat) : Result Nat := do
  let stop ← lineToByte unicodeLines doc (lineIdx + 1)
  let text ← line unicodeLines doc lineIdx
  checkedSub stop
    (((getLineEnding unicodeLines text).map
      fun le => Lines.width Char.utf8Size le.asStr).getD 0)

end Zmax
