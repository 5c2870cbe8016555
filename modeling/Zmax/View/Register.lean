/-
zmax-view/src/register.rs: the registers, and how yanked and deleted text
is spread over them.

A value is the text of one selection, and a register holds one for each.
The map keeps them in reverse. The clipboards and the editor are
parameters: what `set_contents` answers, and what the registers that are
computed read as.
-/
import Zmax.Basic
import Zmax.Lib.Table

namespace Zmax

inductive ClipboardType where
  | clipboard
  | selection
  deriving DecidableEq, Repr

/-- The map from register to values, reversed, and the search register. -/
structure Registers where
  inner : Table Char (List (List Char)) := []
  lastSearchRegister : Char := '/'
  deriving DecidableEq, Repr

/-- The clipboard provider, and the line ending of the platform. -/
structure Clipboard where
  setContents : List Char → ClipboardType → Except String Unit
  nativeLineEnding : List Char

/-- Whether yanks and deletes into a register also reach other ones. -/
def isVimDistributed (name : Char) : Bool :=
  name == '"' || name == '-' || name.isAlphanum

/-- The register of a digit: `char::from_digit`. -/
def fromDigit (i : Nat) : Char := i.digitChar

/-- The text appended to one value. A trailing newline marks a value
linewise. -/
def joinValue (existing incoming : List Char) : List Char :=
  let existingLinewise := existing.getLast? == some '\n'
  if !existingLinewise && incoming.getLast? != some '\n' then
    existing ++ incoming
  else
    let existing :=
      if !existingLinewise && !existing.isEmpty then existing ++ ['\n']
      else existing
    let existing := existing ++ incoming
    if existing.getLast? == some '\n' then existing else existing ++ ['\n']

/-- The loop of `append_values`: values beyond the register's are added as
they are. -/
def joinValues : List (List Char) → List (List Char) → List (List Char)
  | logical, [] => logical
  | [], incoming => incoming
  | existing :: logical, incoming :: values =>
      joinValue existing incoming :: joinValues logical values

attribute [grind =] joinValues

namespace Registers

variable (C : Clipboard)

/-- The values of a register; `computed` are those of the registers that
the editor or a clipboard answers for. -/
def read (self : Registers) (computed : Char → List (List Char))
    (name : Char) : Option (List (List Char)) :=
  match name with
  | '_' => some []
  | '#' | '.' | '%' | '*' | '+' => some (computed name)
  | _ => (self.inner.get name).map List.reverse

/-- Put values under a name, in the order they are kept in. -/
def store (self : Registers) (name : Char) (values : List (List Char)) :
    Registers :=
  { self with inner := self.inner.insert name values.reverse }

/-- Joined for a clipboard, which then holds them; on an error nothing
is stored. -/
def writeClipboard (self : Registers) (name : Char)
    (values : List (List Char)) (type : ClipboardType) :
    Except String Registers := do
  C.setContents (C.nativeLineEnding.intercalate values) type
  return self.store name values

def write (self : Registers) (name : Char) (values : List (List Char)) :
    Except String Registers :=
  match name with
  | '_' => .ok self
  | '#' | '.' | '%' =>
      .error ("Register " ++ name.toString ++ " does not support writing")
  | '+' => self.writeClipboard C name values .clipboard
  | '*' => self.writeClipboard C name values .selection
  | _ => .ok (self.store name values)

/-- Append to a register, value by value. What writing answers is
dropped. -/
def appendValues (self : Registers) (name : Char)
    (values : List (List Char)) : Registers :=
  let logical := ((self.inner.get name).map List.reverse).getD []
  match self.write C name (joinValues logical values) with
  | .ok out => out
  | .error _ => self

def writeYanked (self : Registers) (register : Option Char)
    (values : List (List Char)) : Except String Registers := do
  let name := register.getD '"'
  if !isVimDistributed name then
    return ← self.write C name values
  let out ←
    if name.isUpper then pure (self.appendValues C name.toLower values)
    else if name ≠ '"' then self.write C name values
    else pure self
  let out ← out.write C '"' values
  if register.isNone || name == '"' then out.write C '0' values
  else return out

/-- One slot of the ring: register `i` into register `i + 1`. -/
def shift (self : Registers) (i : Nat) : Registers :=
  match self.inner.get (fromDigit i) with
  | some vals =>
      { self with inner := self.inner.insert (fromDigit (i + 1)) vals }
  | none => self

/-- The loop over the slots, from the given one down to the first. -/
def rotate (self : Registers) : Nat → Registers
  | 0 => self
  | i + 1 => (self.shift (i + 1)).rotate i

attribute [grind =] rotate

def writeDeleted (self : Registers) (register : Option Char)
    (values : List (List Char)) (small : Bool) :
    Except String Registers := do
  let name := register.getD '"'
  if !isVimDistributed name then
    return ← self.write C name values
  match register.filter (· ≠ '"') with
  | some reg =>
      let out ←
        if reg.isUpper then pure (self.appendValues C reg.toLower values)
        else self.write C reg values
      out.write C '"' values
  | none =>
      let out ← self.write C '"' values
      if small then out.write C '-' values
      else (out.rotate 8).write C '1' values

end Registers

-- == clipboards

/-- Why a clipboard could not be read, by its message otherwise. -/
inductive ClipboardError where
  | readingNotSupported
  | other (message : String)
  deriving DecidableEq, Repr

def ClipboardError.message : ClipboardError → String
  | readingNotSupported =>
      "This clipboard provider does not support reading"
  | other message => message

/-- The loop of `contents_are_saved` over the values behind the first. -/
def savedLoop (lineEnding : List Char) :
    List Char → List (List Char) → Bool
  | _, [] => true
  | contents, value :: values =>
      if lineEnding.isPrefixOf contents &&
          value.isPrefixOf (contents.drop lineEnding.length) then
        savedLoop lineEnding
          (contents.drop (lineEnding.length + value.length)) values
      else false

attribute [grind =] savedLoop

def contentsAreSaved (lineEnding : List Char)
    (savedValues : List (List Char)) (contents : List Char) : Bool :=
  match savedValues.reverse with
  | first :: values =>
      if first.isPrefixOf contents then
        savedLoop lineEnding (contents.drop first.length) values
      else false
  | [] => contents.isEmpty

/-- Same values as were saved are pasted value by value. -/
def readFromClipboard (C : Clipboard)
    (getContents : ClipboardType → Except ClipboardError (List Char))
    (savedValues : Option (List (List Char))) (type : ClipboardType) :
    List (List Char) :=
  match getContents type with
  | .ok contents =>
      match savedValues with
      | none => [contents]
      | some values =>
          if contentsAreSaved C.nativeLineEnding values contents then
            values.reverse
          else [contents]
  | .error .readingNotSupported => (savedValues.map List.reverse).getD []
  | .error (.other _) => []

namespace Registers

variable (C : Clipboard)

/-- `push` onto a clipboard register; its entry is there afterwards in any
case. -/
def pushClipboard (self : Registers)
    (getContents : ClipboardType → Except ClipboardError (List Char))
    (name : Char) (value : List Char) (type : ClipboardType) :
    Registers × Except String Unit :=
  match getContents type with
  | .error err => (self, .error err.message)
  | .ok contents =>
      let savedValues := (self.inner.get name).getD []
      if contentsAreSaved C.nativeLineEnding savedValues contents then
        let pushed := if contents.isEmpty then value
          else value ++ C.nativeLineEnding
        ({ self with
            inner := self.inner.insert name (savedValues ++ [value]) },
          C.setContents (pushed ++ contents) type)
      else
        ({ self with inner := self.inner.insert name savedValues },
          .error ("Failed to push to register " ++ name.toString ++
            ": clipboard does not match register contents"))

/-- The oldest entries of a history go first. -/
def keepHistory (historyLimit : Nat) (name : Char)
    (values : List (List Char)) : List (List Char) :=
  if (name == ':' || name == '/') && 0 < historyLimit &&
      historyLimit < values.length then
    values.drop (values.length - historyLimit)
  else values

def push (self : Registers)
    (getContents : ClipboardType → Except ClipboardError (List Char))
    (historyLimit : Nat) (name : Char) (value : List Char) :
    Registers × Except String Unit :=
  match name with
  | '_' => (self, .ok ())
  | '#' | '.' | '%' =>
      (self, .error
        ("Register " ++ name.toString ++ " does not support pushing"))
  | '+' => self.pushClipboard C getContents name value .clipboard
  | '*' => self.pushClipboard C getContents name value .selection
  | _ =>
      let values := (self.inner.get name).getD [] ++ [value]
      ({ self with
          inner := self.inner.insert name
            (keepHistory historyLimit name values) }, .ok ())

end Registers

end Zmax
