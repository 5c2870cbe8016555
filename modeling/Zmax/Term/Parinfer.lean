/-
zmax-term/src/parinfer.rs: parinfer, which keeps the indentation of a
Lisp text and its brackets in agreement by inferring one from the other.

A scanned line is a list of cells, chars that are marked live or inert;
the code indexes two vectors of the length of the line instead. Where it
walks along a line this is a recursion over cells, with the column where
one is used. The output is built line by line: a line is not touched
before its turn, and after it only to add closers.
-/
import Zmax.Core.Text

namespace Zmax.Parinfer

inductive Mode where
  | indent
  | paren
  | smart
  deriving DecidableEq, Repr

/-- Where the caret is. -/
structure Options where
  cursorLine : Option Nat
  cursorX : Option Nat
  deriving DecidableEq, Repr

structure Answer where
  text : Tendril
  cursorX : Option Nat
  error : Option Tendril
  deriving DecidableEq, Repr

-- == scanning

/-- A char, and whether it is live (bracket-significant) or inert (inside
a string, a comment, or escaped). -/
structure Cell where
  char : Char
  live : Bool
  deriving DecidableEq, Repr

structure LineScan where
  cells : List Cell
  /-- Index of the `;` that starts a line comment, if there is one. -/
  commentAt : Option Nat
  startsInString : Bool
  endsInString : Bool
  deriving DecidableEq, Repr

def chars (cells : List Cell) : Tendril := cells.map Cell.char

def inert (text : Tendril) : List Cell := text.map fun c => ⟨c, false⟩

/-- What a scan of a line yields from some place on. -/
structure Scanned where
  cells : List Cell
  commentAt : Option Nat
  inString : Bool

def Scanned.push (cell : Cell) (self : Scanned) : Scanned :=
  { self with cells := cell :: self.cells }

/-- The loop of `scan` over the chars of a line, the `i`-th and on. -/
def scanChars (inString escaped : Bool) (i : Nat) : Tendril → Scanned
  | [] => ⟨[], none, inString⟩
  | c :: cs =>
      -- The escaped character, `(` in `\(` included, is inert.
      if escaped then
        (scanChars inString false (i + 1) cs).push ⟨c, false⟩
      else if c = '\\' then
        (scanChars inString true (i + 1) cs).push ⟨c, false⟩
      else if c = '"' then
        (scanChars (!inString) false (i + 1) cs).push ⟨c, false⟩
      else if c = ';' ∧ inString = false then
        ⟨inert (c :: cs), some i, inString⟩
      else (scanChars inString false (i + 1) cs).push ⟨c, !inString⟩

def scanLine (inString : Bool) (raw : Tendril) : LineScan :=
  let scanned := scanChars inString false 0 raw
  ⟨scanned.cells, scanned.commentAt, inString, scanned.inString⟩

def scanLines (inString : Bool) : List Tendril → List LineScan
  | [] => []
  | raw :: raws =>
      scanLine inString raw
        :: scanLines (scanLine inString raw).endsInString raws

def scan (text : Tendril) : List LineScan :=
  scanLines false (text.splitOn '\n')

def isOpen (c : Char) : Bool := c == '(' || c == '[' || c == '{'

def isClose (c : Char) : Bool := c == ')' || c == ']' || c == '}'

/-- Of an open bracket. -/
def closerFor (c : Char) : Char :=
  if c = '(' then ')' else if c = '[' then ']' else '}'

attribute [grind =] scanChars scanLines

namespace Cell

def isOpen (self : Cell) : Bool := self.live && Parinfer.isOpen self.char

def isClose (self : Cell) : Bool := self.live && Parinfer.isClose self.char

def isWhitespace (self : Cell) : Bool := Text.isWhitespace self.char

end Cell

def mismatch (i : Nat) (opener : Char) (depth : Nat) (closer : Char) :
    Tendril :=
  "line ".toList ++ Nat.toDigits 10 (i + 1) ++ ": ".toList ++ [opener]
    ++ " opened at depth ".toList ++ Nat.toDigits 10 depth
    ++ " is closed by ".toList ++ [closer]

/-- The open brackets, the last one first, and whether a bracket was
closed that was not open. -/
structure Brackets where
  stack : List Char
  extraClose : Bool

def validateCells (i : Nat) : List Cell → Brackets →
    Except Tendril Brackets
  | [], self => .ok self
  | cell :: cells, self =>
      if cell.isOpen then
        validateCells i cells { self with stack := cell.char :: self.stack }
      else if cell.isClose then
        match self.stack with
        | opener :: stack =>
            if closerFor opener = cell.char then
              validateCells i cells { self with stack := stack }
            else .error (mismatch i opener (stack.length + 1) cell.char)
        | [] => validateCells i cells { self with extraClose := true }
      else validateCells i cells self

def validateLines (i : Nat) : List LineScan → Brackets →
    Except Tendril Brackets
  | [], self => .ok self
  | l :: lines, self => do
      let self ← validateCells i l.cells self
      validateLines (i + 1) lines self

/-- Whether every live bracket pairs up exactly; an error on a bracket
closed by the wrong kind or an unterminated string. -/
def validate (lines : List LineScan) : Except Tendril Bool := do
  let brackets ← validateLines 0 lines ⟨[], false⟩
  if lines.getLast?.any LineScan.endsInString then
    .error "unclosed string".toList
  else return brackets.stack.isEmpty && !brackets.extraClose

-- == output lines

structure OutLine where
  indent : Tendril
  code : Tendril
  /-- Close-parens inferred (indent mode) or moved up (paren mode). -/
  closers : Tendril
  /-- Whitespace between the code and a trailing comment. -/
  gap : Tendril
  /-- The trailing comment including its `;`, or empty. -/
  comment : Tendril
  raw : Tendril
  changed : Bool
  deriving DecidableEq, Repr

attribute [grind =] validateCells validateLines

namespace OutLine

def new (l : LineScan) : OutLine := ⟨[], [], [], [], [], chars l.cells, false⟩

def render (self : OutLine) : Tendril :=
  if !self.changed && self.closers.isEmpty then self.raw
  else if self.code.isEmpty && self.closers.isEmpty
      && self.comment.isEmpty then []
  else self.indent ++ self.code ++ self.closers ++ self.gap ++ self.comment

end OutLine

/-- A line split into indentation, code, the whitespace before a comment,
and the comment. -/
structure Split where
  indentLen : Nat
  /-- One past the last code character, trailing whitespace excluded. -/
  bodyEnd : Nat
  gap : Tendril
  comment : Tendril

def codeEnd (l : LineScan) : Nat := l.commentAt.getD l.cells.length

def splitLine (l : LineScan) : Split :=
  let code := l.cells.take (codeEnd l)
  let indentLen := (code.takeWhile Cell.isWhitespace).length
  let bodyEnd := indentLen
    + ((code.drop indentLen).rdropWhile Cell.isWhitespace).length
  ⟨indentLen, bodyEnd, chars (code.drop bodyEnd),
    chars (l.cells.drop (codeEnd l))⟩

/-- A line that begins inside a string, copied verbatim, and whether it
can receive closers. -/
def takeStringLine (l : LineScan) : OutLine × Bool :=
  let code := l.cells.take (codeEnd l)
  let body := code.rdropWhile Cell.isWhitespace
  ({ OutLine.new l with
      code := chars body
      gap := chars (code.drop body.length)
      comment := chars (l.cells.drop (codeEnd l)) },
    !l.endsInString && !body.isEmpty)

/-- Add closers to a line that is out already. -/
def pushClosers (closers : Tendril) (lastCode : Option Nat)
    (out : List OutLine) : List OutLine :=
  match lastCode with
  | some idx =>
      out.modify idx fun o => { o with closers := o.closers ++ closers }
  | none => out

-- == indent mode

/-- An open bracket and its column. -/
abbrev OpenAt := Char × Nat

structure IndentState where
  out : List OutLine
  /-- The innermost bracket first. -/
  stack : List OpenAt
  lastCode : Option Nat
  deriving DecidableEq, Repr

/-- The brackets of a line that is copied verbatim, from column `j` on. -/
def stringBrackets : List Cell → Nat → List OpenAt → List OpenAt
  | [], _, stack => stack
  | cell :: cells, j, stack =>
      if cell.isOpen then
        stringBrackets cells (j + 1) ((cell.char, j) :: stack)
      else if cell.isClose then stringBrackets cells (j + 1) stack.tail
      else stringBrackets cells (j + 1) stack

/-- The loop of `strip_leading_closers`: `start` is one past the last
closer, `k` the column of the cells. -/
def stripLoop : List Cell → (start k : Nat) → Nat
  | [], start, _ => start
  | cell :: cells, start, k =>
      if cell.isWhitespace then stripLoop cells start (k + 1)
      else if cell.isClose then stripLoop cells (k + 1) (k + 1)
      else start

/-- The column where the rest of a line starts behind the closers that
open its code, and whether there are any. -/
def stripLeadingClosers (l : LineScan) (indentLen bodyEnd : Nat) :
    Nat × Bool :=
  let body := l.cells.take bodyEnd
  let start := stripLoop (body.drop indentLen) indentLen indentLen
  if start = indentLen then (start, false)
  else (start
    + ((body.drop start).takeWhile Cell.isWhitespace).length, true)

/-- The closers of the forms that open at or right of a column, and the
forms that are left open. -/
def closeForms (start : Nat) : List OpenAt → Tendril × List OpenAt
  | [] => ([], [])
  | (opener, x) :: stack =>
      if start ≤ x then
        let (closers, stack) := closeForms start stack
        (closerFor opener :: closers, stack)
      else ([], (opener, x) :: stack)

def inTrail (cell : Cell) : Bool := cell.isWhitespace || cell.isClose

/-- Where the run of closers, and the whitespace among them, starts that
ends the code of a line. -/
def trailStart (l : LineScan) (start bodyEnd : Nat) : Nat :=
  let body := (l.cells.take bodyEnd).drop start
  let kept := body.rdropWhile inTrail
  if (body.drop kept.length).any Cell.isClose then start + kept.length
  else bodyEnd

/-- The caret protects what is left of it. -/
def caretStart (opts : Options) (i bodyEnd trailStart : Nat) : Nat :=
  if opts.cursorLine = some i then
    match opts.cursorX with
    | some cx => if trailStart < cx then min cx bodyEnd else trailStart
    | none => trailStart
  else trailStart

structure CodeState where
  code : Tendril
  stack : List OpenAt
  dropped : Bool

def CodeState.push (c : Char) (self : CodeState) : CodeState :=
  { self with code := c :: self.code }

/-- The code of a line from column `k` on. A closer of nothing that is
open is dropped. -/
def codeLoop : List Cell → (k : Nat) → List OpenAt → CodeState
  | [], _, stack => ⟨[], stack, false⟩
  | cell :: cells, k, stack =>
      if cell.isOpen then
        (codeLoop cells (k + 1) ((cell.char, k) :: stack)).push cell.char
      else if cell.isClose then
        match stack with
        | (opener, x) :: stack =>
            if closerFor opener = cell.char then
              (codeLoop cells (k + 1) stack).push cell.char
            else { codeLoop cells (k + 1) ((opener, x) :: stack) with
              dropped := true }
        | [] => { codeLoop cells (k + 1) [] with dropped := true }
      else (codeLoop cells (k + 1) stack).push cell.char

def isBlank (c : Char) : Bool := c == ' ' || c == '\t'

/-- The body of the loop of `indent_mode`. -/
def indentLine (opts : Options) (self : IndentState) (l : LineScan) :
    IndentState :=
  let i := self.out.length
  if l.startsInString then
    let (o, takesClosers) := takeStringLine l
    { out := self.out ++ [o]
      stack := stringBrackets l.cells 0 self.stack
      lastCode := if takesClosers then some i else self.lastCode }
  else
    let sp := splitLine l
    let (start, stripped) := stripLeadingClosers l sp.indentLen sp.bodyEnd
    -- A line left with nothing but whitespace never moves any paren.
    if sp.bodyEnd ≤ start ∧ sp.comment = [] then
      { self with
        out := self.out ++ [{ OutLine.new l with changed := stripped }] }
    else
      let (closers, stack) := closeForms start self.stack
      let out := pushClosers closers self.lastCode self.out
      let trail := caretStart opts i sp.bodyEnd
        (trailStart l start sp.bodyEnd)
      let loop := codeLoop ((l.cells.take trail).drop start) start stack
      let code := loop.code.rdropWhile isBlank
      let o : OutLine :=
        { OutLine.new l with
          indent :=
            if stripped then List.replicate start ' '
            else chars (l.cells.take sp.indentLen)
          code := code
          gap := sp.gap
          comment := sp.comment
          changed := stripped || loop.dropped || trail < sp.bodyEnd }
      { out := out ++ [o]
        stack := loop.stack
        lastCode := if code.isEmpty then self.lastCode else some i }

def indentLines (opts : Options) (lines : List LineScan) : IndentState :=
  lines.foldl (indentLine opts) ⟨[], [], none⟩

def indentMode (lines : List LineScan) (opts : Options) :
    List OutLine × List Int :=
  let self := indentLines opts lines
  (pushClosers (self.stack.map fun (opener, _) => closerFor opener)
    self.lastCode self.out, lines.map fun _ => 0)

-- == paren mode

/-- An open bracket: the column it ends up in and the shift applied to the
line that opened it. -/
structure Open where
  xNew : Int
  delta : Int
  deriving DecidableEq, Repr

structure ParenState where
  out : List OutLine
  deltas : List Int
  /-- The innermost bracket first. -/
  stack : List Open
  lastCode : Option Nat
  deriving DecidableEq, Repr

/-- The brackets of cells from column `k` on, in a line that is
shifted. -/
def parenBrackets (delta : Int) : List Cell → Nat → List Open → List Open
  | [], _, stack => stack
  | cell :: cells, k, stack =>
      if cell.isOpen then
        parenBrackets delta cells (k + 1) (⟨k + delta, delta⟩ :: stack)
      else if cell.isClose then parenBrackets delta cells (k + 1) stack.tail
      else parenBrackets delta cells (k + 1) stack

/-- The closers that open the code of a line, and one past the last of
them: `start` is behind those so far, `k` the column of the cells. -/
def movedLoop : List Cell → (start k : Nat) → Tendril × Nat
  | [], start, _ => ([], start)
  | cell :: cells, start, k =>
      if cell.isWhitespace then movedLoop cells start (k + 1)
      else if cell.isClose then
        let (moved, start) := movedLoop cells (k + 1) (k + 1)
        (cell.char :: moved, start)
      else ([], start)

/-- The body of the loop of `paren_mode`. -/
def parenLine (self : ParenState) (l : LineScan) : ParenState :=
  let i := self.out.length
  if l.startsInString then
    let (o, takesClosers) := takeStringLine l
    { out := self.out ++ [o]
      deltas := self.deltas ++ [0]
      stack := parenBrackets 0 l.cells 0 self.stack
      lastCode := if takesClosers then some i else self.lastCode }
  else
    let sp := splitLine l
    let body := l.cells.take sp.bodyEnd
    let (moved, start) :=
      movedLoop (body.drop sp.indentLen) sp.indentLen sp.indentLen
    let stripped := !moved.isEmpty
    let stack := self.stack.drop moved.length
    let start := if stripped then
        start + ((body.drop start).takeWhile Cell.isWhitespace).length
      else start
    let out := if stripped then pushClosers moved self.lastCode self.out
      else self.out
    if sp.bodyEnd ≤ start ∧ sp.comment = [] then
      { out := out ++ [{ OutLine.new l with changed := stripped }]
        deltas := self.deltas ++ [0]
        stack := stack
        lastCode := self.lastCode }
    else
      let newIndent : Int := match stack with
        | p :: _ => max (start + p.delta) (p.xNew + 1)
        | [] => start
      let delta := newIndent - start
      let code := chars (body.drop start)
      let o : OutLine :=
        { OutLine.new l with
          indent := List.replicate newIndent.toNat ' '
          code := code
          gap := sp.gap
          comment := sp.comment
          changed := stripped || delta ≠ 0 }
      { out := out ++ [o]
        deltas := self.deltas ++ [delta]
        stack := parenBrackets delta (body.drop start) start stack
        lastCode := if code.isEmpty then self.lastCode else some i }

def parenMode (lines : List LineScan) : List OutLine × List Int :=
  let self := lines.foldl parenLine ⟨[], [], [], none⟩
  (self.out, self.deltas)

-- == process

/-- The lines of a text, one newline in between. -/
def joinLines (lines : List Tendril) : Tendril :=
  List.intercalate ['\n'] lines

def finish (out : List OutLine) (deltas : List Int) (hadNewline : Bool)
    (opts : Options) : Answer :=
  let rendered := out.map OutLine.render
  let text := joinLines rendered
  { text := if hadNewline then text ++ ['\n'] else text
    cursorX :=
      match opts.cursorLine, opts.cursorX with
      | some l, some x =>
          let moved := (x + deltas.getD l 0 : Int).toNat
          some (min moved ((rendered[l]?.map List.length).getD moved))
      | _, x => x
    error := none }

def failed (text : Tendril) (opts : Options) (error : Tendril) : Answer :=
  ⟨text, opts.cursorX, some error⟩

/-- The live bracket characters of one line, in order. -/
def lineBrackets (l : LineScan) : Tendril :=
  chars (l.cells.filter fun cell => cell.isOpen || cell.isClose)

/-- Whether the output of indent mode changed which brackets sit on the
cursor line. -/
def cursorLineBracketsChanged (lines : List LineScan) (outText : Tendril)
    (opts : Options) : Bool :=
  match opts.cursorLine with
  | none => false
  | some l =>
      let outLines := scan
        (if outText.getLast? = some '\n' then outText.dropLast else outText)
      match lines[l]?, outLines[l]? with
      | some a, some b => lineBrackets a != lineBrackets b
      | _, _ => false

def process (text : Tendril) (mode : Mode) (opts : Options) : Answer :=
  let hadNewline := text.getLast? == some '\n'
  let body := if hadNewline then text.dropLast else text
  let lines := scan body
  match validate lines with
  | .error e => failed text opts e
  | .ok balanced =>
      match mode with
      | .indent =>
          let (out, deltas) := indentMode lines opts
          finish out deltas hadNewline opts
      | .paren =>
          if !balanced then failed text opts "unbalanced parens".toList
          else
            let (out, deltas) := parenMode lines
            finish out deltas hadNewline opts
      | .smart =>
          let (out, deltas) := indentMode lines opts
          let answer := finish out deltas hadNewline opts
          if balanced
              && cursorLineBracketsChanged lines answer.text opts then
            let (out, deltas) := parenMode lines
            finish out deltas hadNewline opts
          else answer

attribute [grind =] stringBrackets stripLoop closeForms codeLoop parenBrackets
  movedLoop

end Zmax.Parinfer
