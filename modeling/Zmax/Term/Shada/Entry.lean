/-
zmax-term/src/shada.rs, the entry model: what an entry says, and the
object that its data is written as.

A path is its bytes, as on Unix. A `usize` has 64 bits. The key of an
entry that is not modelled prints its data by `Debug`, which is a
parameter.
-/
import Zmax.Term.Shada.Value

namespace Zmax.Shada

-- Entry type numbers. Type 0 is not a valid entry.
def TYPE_HEADER : UInt64 := 1
def TYPE_SEARCH_PATTERN : UInt64 := 2
def TYPE_SUB_STRING : UInt64 := 3
def TYPE_HISTORY : UInt64 := 4
def TYPE_REGISTER : UInt64 := 5
def TYPE_GLOBAL_MARK : UInt64 := 7
def TYPE_JUMP : UInt64 := 8
def TYPE_BUFFER_LIST : UInt64 := 9
def TYPE_LOCAL_MARK : UInt64 := 10
def TYPE_CHANGE : UInt64 := 11

/-- A position in a file. -/
structure Position where
  file : Bytes
  /-- 1-based. -/
  line : UInt64
  col : UInt64
  deriving DecidableEq, Repr

structure Register where
  name : Char
  kind : UInt64
  width : UInt64
  contents : List Tendril
  unnamed : Bool
  /-- How many lines each value of the register occupies, if there is more
  than one. -/
  valueLines : List UInt64
  deriving DecidableEq, Repr

/-- The last search or substitute pattern, with the documented
defaults. -/
structure SearchPattern where
  pattern : Tendril := []
  substitute : Bool := false
  lastUsed : Bool := false
  magic : Bool := true
  smartcase : Bool := false
  lineOffset : Bool := true
  endOffset : Bool := false
  offset : Int64 := 0
  hlsearch : Bool := false
  backward : Bool := false
  deriving DecidableEq

/-- One entry's data, by type. -/
inductive EntryKind where
  | header (generator version encoding : Tendril) (maxKbyte pid : UInt64)
  | searchPattern (p : SearchPattern)
  | subString (s : Tendril)
  | history (kind : UInt64) (line : Tendril) (sep : Option UInt8)
  | register (r : Register)
  | mark (isGlobal : Bool) (name : Char) (pos : Position)
  | jump (pos : Position)
  | change (pos : Position)
  | bufferList (buffers : List Position)
  /-- Any entry that is not modelled, kept verbatim. -/
  | unknown (typ : UInt64) (data : Value)

structure Entry where
  timestamp : UInt64
  kind : EntryKind

-- == objects

def pair (key : String) (value : Value) : Value × Value :=
  (.str key.toList, value)

/-- Text goes out as bin. -/
def textValue (s : Tendril) : Value := .bin (Utf8.encode s)

/-- A file name goes out as bin: `to_string_lossy`. -/
def fileValue (path : Bytes) : Value := textValue (Utf8.lossy path)

def charValue (c : Char) : Value := .uint (.ofNat c.toNat)

/-- `char::from_u32` of a number that is cast to 32 bits. -/
def charFromU32 (n : UInt64) : Option Char :=
  if (n.toNat % 0x100000000).isValidChar then
    some (.ofNat (n.toNat % 0x100000000))
  else none

/-- A key with a value that is left out where it has its default. -/
def unlessDefault (isDefault : Bool) (key : String) (value : Value) :
    List (Value × Value) :=
  if isDefault then [] else [pair key value]

namespace Position

def toPairs (self : Position) (name : Option Char) : List (Value × Value) :=
  [pair "f" (fileValue self.file)]
    ++ unlessDefault (self.line == 1) "l" (.uint self.line)
    ++ unlessDefault (self.col == 0) "c" (.uint self.col)
    ++ match name.filter (· != '"') with
      | some name => [pair "n" (charValue name)]
      | none => []

def fromValue (value : Value) : Option Position :=
  ((value.mapGet ['f']).bind Value.asText).bind fun file =>
    if file.isEmpty then none
    else some
      { file := Utf8.encode file
        line := max (((value.mapGet ['l']).bind Value.asU64).getD 1) 1
        col := ((value.mapGet ['c']).bind Value.asU64).getD 0 }

/-- The mark name a position map carries. -/
def nameFromValue (value : Value) : Char :=
  (charFromU32 (((value.mapGet ['n']).bind Value.asU64).getD 34)).getD '"'

end Position

def SearchPattern.toPairs (p : SearchPattern) : List (Value × Value) :=
  let d : SearchPattern := {}
  let flag (key : String) (on default : Bool) :=
    unlessDefault (on == default) key (.bool on)
  [pair "sp" (textValue p.pattern)]
    ++ flag "sm" p.magic d.magic
    ++ flag "sc" p.smartcase d.smartcase
    ++ flag "sl" p.lineOffset d.lineOffset
    ++ flag "se" p.endOffset d.endOffset
    ++ flag "su" p.lastUsed d.lastUsed
    ++ flag "ss" p.substitute d.substitute
    ++ flag "sh" p.hlsearch d.hlsearch
    ++ flag "sb" p.backward d.backward
    ++ unlessDefault (p.offset == d.offset) "so" (.int p.offset)

def Register.toPairs (r : Register) : List (Value × Value) :=
  [pair "n" (charValue r.name),
      pair "rc" (.array (r.contents.map textValue))]
    ++ unlessDefault (r.kind == 0) "rt" (.uint r.kind)
    ++ unlessDefault (r.width == 0) "rw" (.uint r.width)
    ++ unlessDefault (!r.unnamed) "ru" (.bool true)
    ++ unlessDefault (r.valueLines.length ≤ 1) "zv"
      (.array (r.valueLines.map Value.uint))

def textKey (data : Value) (key : String) : Tendril :=
  ((data.mapGet key.toList).bind Value.asText).getD []

def numKey (data : Value) (key : String) (default : UInt64) : UInt64 :=
  ((data.mapGet key.toList).bind Value.asU64).getD default

def boolKey (data : Value) (key : String) (default : Bool) : Bool :=
  ((data.mapGet key.toList).bind Value.asBool).getD default

namespace EntryKind

/-- The entry's type number on its own. -/
def entryType : EntryKind → UInt64
  | .header .. => TYPE_HEADER
  | .searchPattern _ => TYPE_SEARCH_PATTERN
  | .subString _ => TYPE_SUB_STRING
  | .history .. => TYPE_HISTORY
  | .register _ => TYPE_REGISTER
  | .mark true .. => TYPE_GLOBAL_MARK
  | .mark .. => TYPE_LOCAL_MARK
  | .jump _ => TYPE_JUMP
  | .change _ => TYPE_CHANGE
  | .bufferList _ => TYPE_BUFFER_LIST
  | .unknown typ _ => typ

/-- The entry's type number and its data object. -/
def toObject : EntryKind → UInt64 × Value
  | .header generator version encoding maxKbyte pid =>
      (TYPE_HEADER, .map
        [pair "generator" (textValue generator),
          pair "version" (textValue version),
          pair "encoding" (textValue encoding),
          pair "max_kbyte" (.uint maxKbyte),
          pair "pid" (.uint pid)])
  | .searchPattern p => (TYPE_SEARCH_PATTERN, .map p.toPairs)
  | .subString s => (TYPE_SUB_STRING, .array [textValue s])
  | .history kind line sep =>
      (TYPE_HISTORY, .array ([.uint kind, textValue line]
        ++ match sep with
          | some sep => [.uint (.ofNat sep.toNat)]
          | none => []))
  | .register r => (TYPE_REGISTER, .map r.toPairs)
  | .mark isGlobal name pos =>
      (if isGlobal then TYPE_GLOBAL_MARK else TYPE_LOCAL_MARK,
        .map (pos.toPairs (some name)))
  | .jump pos => (TYPE_JUMP, .map (pos.toPairs none))
  | .change pos => (TYPE_CHANGE, .map (pos.toPairs none))
  | .bufferList buffers =>
      (TYPE_BUFFER_LIST,
        .array (buffers.map fun pos => .map (pos.toPairs none)))
  | .unknown typ data => (typ, data)

def searchPatternFrom (data : Value) : Option EntryKind := do
  let pattern ← (← data.mapGet ['s', 'p']).asText
  let d : SearchPattern := {}
  return .searchPattern
    { pattern := pattern
      substitute := boolKey data "ss" d.substitute
      lastUsed := boolKey data "su" d.lastUsed
      magic := boolKey data "sm" d.magic
      smartcase := boolKey data "sc" d.smartcase
      lineOffset := boolKey data "sl" d.lineOffset
      endOffset := boolKey data "se" d.endOffset
      offset := ((data.mapGet ['s', 'o']).bind Value.asI64).getD d.offset
      hlsearch := boolKey data "sh" d.hlsearch
      backward := boolKey data "sb" d.backward }

def subStringFrom (data : Value) : Option EntryKind := do
  let first ← (← data.asArray).head?
  return .subString (← first.asText)

def historyFrom (data : Value) : Option EntryKind := do
  let items := data.asArray.getD []
  let kind ← items[0]?.bind Value.asU64
  let line ← items[1]?.bind Value.asText
  return .history kind line
    -- `u8::try_from`
    ((items[2]?.bind Value.asU64).bind fun n =>
      if n.toNat < 256 then some (.ofNat n.toNat) else none)

def registerFrom (data : Value) : Option EntryKind := do
  let name ← ((data.mapGet ['n']).bind Value.asU64).bind charFromU32
  let contents ← (data.mapGet ['r', 'c']).bind Value.asArray
  return .register
    { name := name
      kind := numKey data "rt" 0
      width := numKey data "rw" 0
      contents := contents.map fun v => v.asText.getD []
      unnamed := boolKey data "ru" false
      valueLines :=
        (((data.mapGet ['z', 'v']).bind Value.asArray).map fun lens =>
          lens.map fun v => v.asU64.getD 0).getD [] }

/-- What is read from the data of an entry of a type, where it fits. -/
def modelFrom (typ : UInt64) (data : Value) : Option EntryKind :=
  if typ = TYPE_HEADER then
    some (.header (textKey data "generator") (textKey data "version")
      (textKey data "encoding") (numKey data "max_kbyte" 0)
      (numKey data "pid" 0))
  else if typ = TYPE_SEARCH_PATTERN then searchPatternFrom data
  else if typ = TYPE_SUB_STRING then subStringFrom data
  else if typ = TYPE_HISTORY then historyFrom data
  else if typ = TYPE_REGISTER then registerFrom data
  else if typ = TYPE_GLOBAL_MARK ∨ typ = TYPE_LOCAL_MARK then
    (Position.fromValue data).map
      (.mark (typ == TYPE_GLOBAL_MARK) (Position.nameFromValue data))
  else if typ = TYPE_JUMP then (Position.fromValue data).map .jump
  else if typ = TYPE_CHANGE then (Position.fromValue data).map .change
  else if typ = TYPE_BUFFER_LIST then
    data.asArray.map fun items =>
      .bufferList (items.filterMap Position.fromValue)
  else none

/-- Data that does not fit its type degrades to an unknown entry. -/
def fromObject (typ : UInt64) (data : Value) : EntryKind :=
  (modelFrom typ data).getD (.unknown typ data)

def isHeader : EntryKind → Bool
  | .header .. => true
  | _ => false

end EntryKind

-- == merge keys

section

variable (debug : Value → Tendril)

def decimal (n : Nat) : Tendril := Nat.toDigits 10 n

/-- `\u{1}`, between the parts of a key. -/
def separator : Char := Char.ofNat 1

def Position.key (self : Position) : Tendril :=
  Utf8.lossy self.file ++ [separator] ++ decimal self.line.toNat
    ++ [separator] ++ decimal self.col.toNat

/-- What makes two entries "the same thing". -/
def EntryKind.mergeKey (self : EntryKind) : UInt64 × Tendril :=
  (self.entryType,
    match self with
    | .header .. | .subString _ | .bufferList _ => []
    | .searchPattern p =>
        (if p.substitute then "true" else "false").toList
    | .history kind line _ => decimal kind.toNat ++ [separator] ++ line
    | .register r => [r.name]
    | .mark true name _ => [name]
    | .mark false name pos => [name, separator] ++ Utf8.lossy pos.file
    | .jump pos | .change pos => pos.key
    | .unknown _ data => debug data)

end

end Zmax.Shada
