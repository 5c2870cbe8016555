/-
zmax-term/src/shada.rs, files: entries one after the other, each with its
type, its timestamp and the length of its data in front; and the merge of
the entries of a file with those of a session.

# What survives writing and reading

The length of a string, of binary data, of an array or a map is written in
32 bits at most. An integer that is not negative is read as an unsigned
one, and a register with a single value has no value lines; besides,
entries are read as they were written.
-/
import Zmax.Lib.Table
import Zmax.Term.Shada.Entry

namespace Zmax.Shada

-- == writing

/-- Whether the size limit, in KiB of data, lets an entry through. -/
def letThrough (maxKbyte : Nat) (entry : Entry) : Bool :=
  let (typ, data) := entry.kind.toObject
  typ == TYPE_HEADER || typ == TYPE_BUFFER_LIST
    -- `saturating_mul`
    || !(maxKbyte == 0
      || min (maxKbyte * 1024) Text.USIZE_MAX < data.encode.length)

/-- The four objects of an entry. -/
def encodeEntry (entry : Entry) : Bytes :=
  let (typ, data) := entry.kind.toObject
  (Value.uint typ).encode ++ (Value.uint entry.timestamp).encode
    ++ (Value.uint (.ofNat data.encode.length)).encode ++ data.encode

def encodeFile (entries : List Entry) (maxKbyte : Nat) : Bytes :=
  (entries.filter (letThrough maxKbyte)).flatMap encodeEntry

-- == reading

section

variable (widen : UInt32 → UInt64)

def notUnsigned (what : String) : Tendril :=
  "entry ".toList ++ what.toList ++ " is not an unsigned integer".toList

/-- An object that has to be an unsigned integer. -/
def decodeNumber (what : String) (bytes : Bytes) :
    Except Tendril (UInt64 × Bytes) := do
  let (value, bytes) ← decode widen bytes
  match value.asU64 with
  | some n => return (n, bytes)
  | none => .error (notUnsigned what)

/-- The next entry, and the bytes behind it. -/
def decodeEntry (bytes : Bytes) : Except Tendril (Entry × Bytes) := do
  let (typ, bytes) ← decodeNumber widen "type" bytes
  let (timestamp, bytes) ← decodeNumber widen "timestamp" bytes
  let (len, bytes) ← decodeNumber widen "length" bytes
  if typ = 0 then .error "entry with zero type".toList
  else if bytes.length < len.toNat then
    .error "entry length runs past the end of the file".toList
  else do
    let (data, rest) ← decode widen bytes
    if bytes.length ≠ len.toNat + rest.length then
      .error "entry data does not match the declared length".toList
    else return (⟨timestamp, .fromObject typ data⟩, rest)

/-- The loop of `decode_file`. An entry has a byte at least, so as many
turns are enough as there are bytes. -/
def decodeEntries : Nat → Bytes → List Entry × Option Tendril
  | 0, _ => ([], none)
  | _ + 1, [] => ([], none)
  | turns + 1, b :: bytes =>
      match decodeEntry widen (b :: bytes) with
      | .ok (entry, rest) =>
          let (entries, error) := decodeEntries turns rest
          (entry :: entries, error)
      | .error e => ([], some ("E576: ".toList ++ e))

/-- Everything that is decoded before the first critical error, and that
error. -/
def decodeFile (bytes : Bytes) : List Entry × Option Tendril :=
  decodeEntries widen bytes.length bytes

attribute [grind =] decodeEntries

end

-- == merging

/-- The entries so far, and which of them has a key. -/
structure Merged where
  merged : List Entry
  keys : Table (UInt64 × Tendril) Nat

section

variable (debug : Value → Tendril)

/-- `merged[i] = entry` -/
def Merged.assign (self : Merged) (i : Nat) (entry : Entry) : Result Merged :=
  if i < self.merged.length then
    .ok { self with merged := self.merged.set i entry }
  else .error .outOfBounds

def Merged.push (self : Merged) (key : UInt64 × Tendril) (entry : Entry) :
    Merged :=
  ⟨self.merged ++ [entry], self.keys.insert key self.merged.length⟩

/-- The first loop of `merge`: an entry of this session. -/
def mergeNew (self : Merged) (entry : Entry) : Result Merged :=
  let key := entry.kind.mergeKey debug
  match self.keys.get key with
  | some i => self.assign i entry
  | none => .ok (self.push key entry)

/-- The second loop: an entry of the file. -/
def mergeOld (self : Merged) (entry : Entry) : Result Merged :=
  -- The header being written now replaces the old one outright.
  if entry.kind.isHeader then .ok self
  else
    let key := entry.kind.mergeKey debug
    match self.keys.get key with
    | some i => do
        let current ← index self.merged i
        if current.timestamp < entry.timestamp then self.assign i entry
        else return self
    | none => .ok (self.push key entry)

def merge (old new : List Entry) : Result (List Entry) := do
  let self ← new.foldlM (mergeNew debug) ⟨[], []⟩
  let self ← old.foldlM (mergeOld debug) self
  return self.merged

end

/-- What a length has to stay below. -/
def LENGTH_MAX : Nat := 0x100000000

namespace Value

mutual

/-- No length in an object is too long. -/
def Fits : Value → Prop
  | .str s => (Utf8.encode s).length < LENGTH_MAX
  | .bin b => b.length < LENGTH_MAX
  | .array items => items.length < LENGTH_MAX ∧ ItemsFit items
  | .map pairs => pairs.length < LENGTH_MAX ∧ PairsFit pairs
  | .nil | .bool _ | .uint _ | .int _ | .f64 _ => True

def ItemsFit : List Value → Prop
  | [] => True
  | item :: items => item.Fits ∧ ItemsFit items

def PairsFit : List (Value × Value) → Prop
  | [] => True
  | (k, v) :: pairs => k.Fits ∧ v.Fits ∧ PairsFit pairs

end

mutual

/-- The object with its integers unsigned where they can be. -/
def canonical : Value → Value
  | .int n => if 0 ≤ n.toInt then .uint (.ofNat n.toInt.toNat) else .int n
  | .array items => .array (canonicalItems items)
  | .map pairs => .map (canonicalPairs pairs)
  | .nil => .nil
  | .bool b => .bool b
  | .uint n => .uint n
  | .f64 bits => .f64 bits
  | .str s => .str s
  | .bin b => .bin b

def canonicalItems : List Value → List Value
  | [] => []
  | item :: items => item.canonical :: canonicalItems items

def canonicalPairs : List (Value × Value) → List (Value × Value)
  | [] => []
  | (k, v) :: pairs => (k.canonical, v.canonical) :: canonicalPairs pairs

end

attribute [grind =] canonical canonicalItems canonicalPairs

end Value

/-- A position with a file name that is UTF-8, and with a line. -/
structure Position.Named (pos : Position) : Prop where
  file : ∃ name, name ≠ [] ∧ pos.file = Utf8.encode name
  line : 1 ≤ pos.line.toNat

namespace EntryKind

/-- The positions of an entry. -/
def positions : EntryKind → List Position
  | .mark _ _ pos | .jump pos | .change pos => [pos]
  | .bufferList buffers => buffers
  | _ => []

/-- An entry is of an unknown kind only where its data fits none. -/
def Modelled : EntryKind → Prop
  | .unknown typ data => modelFrom typ data.canonical = none
  | _ => True

def canonical : EntryKind → EntryKind
  | .register r =>
      .register { r with
        valueLines := if r.valueLines.length ≤ 1 then [] else r.valueLines }
  | .unknown typ data => .unknown typ data.canonical
  | kind => kind

end EntryKind

/-- An entry that can be written: its data is no longer than a vector can
be. -/
structure Entry.Writable (entry : Entry) : Prop where
  typ : entry.kind.entryType ≠ 0
  fits : entry.kind.toObject.2.Fits
  length : entry.kind.toObject.2.encode.length ≤ Text.USIZE_MAX
  named : ∀ pos ∈ entry.kind.positions, pos.Named
  modelled : entry.kind.Modelled

def Entry.canonical (self : Entry) : Entry :=
  { self with kind := self.kind.canonical }

end Zmax.Shada
