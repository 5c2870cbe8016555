/-
zmax-lsp/src/lib.rs, positions: between the char indices of a document
and the line and character of the language server protocol, in each of
the three offset encodings.

Both numbers of an LSP position are `u32`, and `as u32` wraps.
-/
import Mathlib.Algebra.Group.Nat.Defs
import Zmax.Core.Lines

namespace Zmax

inductive OffsetEncoding where
  /-- UTF-8 code units aka bytes -/
  | utf8
  /-- UTF-32 code units aka chars -/
  | utf32
  /-- UTF-16 code units -/
  | utf16
  deriving DecidableEq, Repr

/-- The length of a char in the code units of the encoding. -/
def OffsetEncoding.len : OffsetEncoding → Char → Nat
  | .utf8 => Char.utf8Size
  | .utf16 => lenUtf16
  | .utf32 => fun _ => 1

namespace Lsp

/-- `lsp::Position` -/
structure Position where
  line : UInt32
  character : UInt32
  deriving DecidableEq, Repr

/-- The derived order: by line, then by character. -/
def Position.le (a b : Position) : Prop :=
  a.line < b.line ∨ a.line = b.line ∧ a.character ≤ b.character

variable (unicodeLines : Bool) (doc : Rope)

/-- The start and the end of a line, before its line ending, in units of
the encoding. -/
def lineRange (posLine : Nat) : OffsetEncoding → Result (Nat × Nat)
  | .utf8 => do
      let lineStart ← lineToByte unicodeLines doc posLine
      let lineEnd ← lineEndByteIndex unicodeLines doc posLine
      return (lineStart, lineEnd)
  | .utf16 => do
      let lineStart ← lineToChar unicodeLines doc posLine
      let lineEnd ← lineEndCharIndex unicodeLines doc posLine
      return (← charToUtf16Cu doc lineStart, ← charToUtf16Cu doc lineEnd)
  | .utf32 => do
      let lineStart ← lineToChar unicodeLines doc posLine
      let lineEnd ← lineEndCharIndex unicodeLines doc posLine
      return (lineStart, lineEnd)

/-- `lsp_pos_to_pos`: a line past the last is the end of the document,
and the offset is capped to the end of the line. -/
def lspPosToPos (pos : Position) (offsetEncoding : OffsetEncoding) :
    Result (Option Nat) := do
  let posLine := pos.line.toNat
  let last ← checkedSub (lenLines unicodeLines doc) 1
  if posLine > last then return some doc.length
  let line ← lineRange unicodeLines doc posLine offsetEncoding
  -- past `usize::MAX` the source takes the line's end, as the cap does
  let pos := min (line.1 + pos.character.toNat) line.2
  match offsetEncoding with
  | .utf8 => return tryByteToChar doc pos
  | .utf16 => return tryUtf16CuToChar doc pos
  | .utf32 => return some pos

/-- `pos_to_lsp_pos` -/
def posToLspPos (pos : Nat) (offsetEncoding : OffsetEncoding) :
    Result Position :=
  match offsetEncoding with
  | .utf8 => do
      let line ← charToLine unicodeLines doc pos
      let lineStart ← lineToByte unicodeLines doc line
      let col ← checkedSub (← charToByte doc pos) lineStart
      return ⟨.ofNat line, .ofNat col⟩
  | .utf16 => do
      let line ← charToLine unicodeLines doc pos
      let lineStart ←
        charToUtf16Cu doc (← lineToChar unicodeLines doc line)
      let col ← checkedSub (← charToUtf16Cu doc pos) lineStart
      return ⟨.ofNat line, .ofNat col⟩
  | .utf32 => do
      let line ← charToLine unicodeLines doc pos
      let lineStart ← lineToChar unicodeLines doc line
      let col ← checkedSub pos lineStart
      return ⟨.ofNat line, .ofNat col⟩

end Lsp

end Zmax
