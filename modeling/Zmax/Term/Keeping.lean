/-
What parinfer is to keep: the brackets of a text pair up, and the rest of
each line stays what it was.

`residue` is what a line has besides its live brackets: its code without
them, less the whitespace at its ends, and its comment. Indent mode drops
the whitespace among the closers that end the code of a line along with
them, so the whitespace between code and comment is no part of it.
-/
import Zmax.Term.Parinfer

namespace Zmax.Parinfer

def Cell.isBracket (self : Cell) : Bool := self.isOpen || self.isClose

/-- The live brackets of cells. -/
def brackets (cells : List Cell) : Tendril :=
  chars (cells.filter Cell.isBracket)

/-- All but the live brackets of cells. -/
def payload (cells : List Cell) : Tendril :=
  chars (cells.filter fun cell => !cell.isBracket)

def residue (l : LineScan) : Tendril × Tendril :=
  (Text.trim (payload (l.cells.take (codeEnd l))),
    chars (l.cells.drop (codeEnd l)))

/-- What brackets leave open, the last one first, where each closer is of
the kind of the last one that is open. -/
def pair : Tendril → List Char → Option (List Char)
  | [], stack => some stack
  | c :: cs, stack =>
      if isOpen c then pair cs (c :: stack)
      else
        match stack with
        | opener :: stack =>
            if closerFor opener = c then pair cs stack else none
        | [] => none

/-- Whether what follows a text is escaped. -/
def escapedAfter : Bool → Tendril → Bool
  | escaped, [] => escaped
  | escaped, c :: cs => escapedAfter (!escaped && c == '\\') cs

/-- No closer is put, and no comment left, directly behind a backslash
that escapes it. -/
def Sealed (o : OutLine) : Prop :=
  escapedAfter false o.code = true →
    o.closers = [] ∧ (o.changed = false ∨ o.gap ≠ [] ∨ o.comment = [])

instance (o : OutLine) : Decidable (Sealed o) :=
  inferInstanceAs (Decidable (_ → _))

/-- The lines that a text is processed by. A newline at its end starts
none. -/
def bodyLines (text : Tendril) : List LineScan :=
  scan (if text.getLast? = some '\n' then text.dropLast else text)

/-- On lines that begin inside a string, which are copied as they are,
each closer closes the last bracket that the indentation of the lines
before has left open. -/
def Matched (opts : Options) : List LineScan → IndentState → Prop
  | [], _ => True
  | l :: lines, self =>
      (l.startsInString = true →
        (pair (brackets l.cells) (self.stack.map Prod.fst)).isSome)
      ∧ Matched opts lines (indentLine opts self l)

instance decMatched (opts : Options) :
    ∀ lines self, Decidable (Matched opts lines self)
  | [], _ => isTrue trivial
  | l :: lines, self =>
      have := decMatched opts lines (indentLine opts self l)
      inferInstanceAs (Decidable (_ ∧ _))

-- == paren mode

/-- What is not whitespace in the code of a line, as a scan marks it. -/
def solids (l : LineScan) : List Cell :=
  (l.cells.take (codeEnd l)).filter fun cell => !cell.isWhitespace

def lineComment (l : LineScan) : Tendril :=
  chars (l.cells.drop (codeEnd l))

/-- The lines of some kind that do not begin inside a string are indented
to the right of the innermost bracket that is open at their start. -/
def Indented (kind : LineScan → Prop) :
    List LineScan → List OpenAt → Prop
  | [], _ => True
  | l :: lines, stack =>
      (l.startsInString = false → kind l →
        ∀ form ∈ stack.head?, form.2 < (splitLine l).indentLen)
      ∧ Indented kind lines (stringBrackets l.cells 0 stack)

/-- Where a line begins inside a string, which is copied as it is, the
brackets that it leaves open are right of those that were open before. -/
def Nested : List LineScan → ParenState → Prop
  | [], _ => True
  | l :: lines, self =>
      (l.startsInString = true →
        ((parenLine self l).stack.map Open.xNew).Pairwise (· > ·))
      ∧ Nested lines (parenLine self l)

instance decNested : ∀ lines self, Decidable (Nested lines self)
  | [], _ => isTrue trivial
  | l :: lines, self =>
      have := decNested lines (parenLine self l)
      inferInstanceAs (Decidable (_ ∧ _))

/-- Whether the code of a line, trimmed, ends in a backslash that would
escape what is put behind it. -/
def endsEscaped (l : LineScan) : Bool :=
  escapedAfter false
    (chars ((l.cells.take (codeEnd l)).rdropWhile Cell.isWhitespace))

/-- No line begins with closers where the last code before it ends in an
escape. -/
def Unescaped : List LineScan → (escaped : Bool) → Prop
  | [], _ => True
  | l :: lines, escaped =>
      (l.startsInString = false → (solids l).head?.any Cell.isClose = true →
        escaped = false)
      ∧ Unescaped lines
        (if (solids l).any (fun cell => !cell.isClose) = true
          then endsEscaped l else escaped)

instance decUnescaped : ∀ lines escaped, Decidable (Unescaped lines escaped)
  | [], _ => isTrue trivial
  | l :: lines, escaped =>
      have := decUnescaped lines
        (if (solids l).any (fun cell => !cell.isClose) = true
          then endsEscaped l else escaped)
      inferInstanceAs (Decidable (_ ∧ _))

end Zmax.Parinfer
