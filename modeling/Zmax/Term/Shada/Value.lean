/-
zmax-term/src/shada.rs, the MessagePack subset: objects, and the bytes
that they are written as and read from.

Strings are texts, file names and binary data bytes; a float is the 64
bits it has in memory. Encoding appends to its output, here it yields what
is appended. Decoding goes through the bytes, here it takes them off the
front; the bytes that are left bound the depth of the objects.
-/
import Zmax.Core.Text

namespace Zmax.Shada

abbrev Bytes := List UInt8

/-- One MessagePack object. -/
inductive Value where
  | nil
  | bool (b : Bool)
  | uint (n : UInt64)
  | int (n : Int64)
  | f64 (bits : UInt64)
  | str (s : Tendril)
  | bin (b : Bytes)
  | array (items : List Value)
  | map (pairs : List (Value × Value))

-- == encoding

/-- `to_be_bytes` of an integer that is cast to some bytes. -/
def beBytes : (width : Nat) → Nat → Bytes
  | 0, _ => []
  | width + 1, n => UInt8.ofNat (n / Nat.pow 256 width) :: beBytes width n

/-- A positive integer in the narrowest encoding that holds it. -/
def encodeUint (n : Nat) : Bytes :=
  if n < 0x80 then [UInt8.ofNat n]
  else if n ≤ 0xff then [0xcc, UInt8.ofNat n]
  else if n ≤ 0xffff then 0xcd :: beBytes 2 n
  else if n ≤ 0xffffffff then 0xce :: beBytes 4 n
  else 0xcf :: beBytes 8 n

/-- The bits of an integer that is cast to some bytes. -/
def castBits (width : Nat) (n : Int) : Nat := (n % Nat.pow 256 width).toNat

/-- A negative integer, likewise narrowest-first. -/
def encodeInt (n : Int) : Bytes :=
  if -32 ≤ n then [UInt8.ofNat (castBits 1 n)]
  else if -0x80 ≤ n then 0xd0 :: beBytes 1 (castBits 1 n)
  else if -0x8000 ≤ n then 0xd1 :: beBytes 2 (castBits 2 n)
  else if -0x80000000 ≤ n then 0xd2 :: beBytes 4 (castBits 4 n)
  else 0xd3 :: beBytes 8 (castBits 8 n)

/-- The header of an array or a map. -/
def encodeLen (len : Nat) (fixed wide16 wide32 : UInt8) : Bytes :=
  if len < 16 then [fixed ||| UInt8.ofNat len]
  else if len ≤ 0xffff then wide16 :: beBytes 2 len
  else wide32 :: beBytes 4 len

def encodeStr (s : Tendril) : Bytes :=
  let b := Utf8.encode s
  (if b.length < 32 then [0xa0 ||| UInt8.ofNat b.length]
    else if b.length ≤ 0xff then [0xd9, UInt8.ofNat b.length]
    else if b.length ≤ 0xffff then 0xda :: beBytes 2 b.length
    else 0xdb :: beBytes 4 b.length) ++ b

def encodeBin (b : Bytes) : Bytes :=
  (if b.length ≤ 0xff then [0xc4, UInt8.ofNat b.length]
    else if b.length ≤ 0xffff then 0xc5 :: beBytes 2 b.length
    else 0xc6 :: beBytes 4 b.length) ++ b

attribute [grind =] beBytes

namespace Value

mutual

def encode : Value → Bytes
  | .nil => [0xc0]
  | .bool false => [0xc2]
  | .bool true => [0xc3]
  | .uint n => encodeUint n.toNat
  | .int n =>
      if 0 ≤ n.toInt then encodeUint n.toInt.toNat else encodeInt n.toInt
  | .f64 bits => 0xcb :: beBytes 8 bits.toNat
  | .str s => encodeStr s
  | .bin b => encodeBin b
  | .array items =>
      encodeLen items.length 0x90 0xdc 0xdd ++ encodeItems items
  | .map pairs => encodeLen pairs.length 0x80 0xde 0xdf ++ encodePairs pairs

def encodeItems : List Value → Bytes
  | [] => []
  | item :: items => item.encode ++ encodeItems items

def encodePairs : List (Value × Value) → Bytes
  | [] => []
  | (k, v) :: pairs => k.encode ++ (v.encode ++ encodePairs pairs)

end

-- == accessors

def asU64 : Value → Option UInt64
  | .uint n => some n
  | .int n => if 0 ≤ n.toInt then some (.ofNat n.toInt.toNat) else none
  | _ => none

def asI64 : Value → Option Int64
  -- `i64::try_from`
  | .uint n =>
      if n.toNat < 0x8000000000000000 then some (.ofNat n.toNat) else none
  | .int n => some n
  | _ => none

def asBool : Value → Option Bool
  | .bool b => some b
  | _ => none

/-- The object as text: both str and bin are accepted. -/
def asText : Value → Option Tendril
  | .str s => some s
  | .bin b => some (Utf8.lossy b)
  | _ => none

def asArray : Value → Option (List Value)
  | .array items => some items
  | _ => none

/-- The value stored under a map key, comparing the key as text. -/
def mapGet (self : Value) (key : Tendril) : Option Value :=
  match self with
  | .map pairs => (pairs.find? fun p => p.1.asText == some key).map Prod.snd
  | _ => none

attribute [grind =] encode encodeItems encodePairs

end Value

-- == decoding

def truncated : Tendril := "truncated MessagePack object".toList

/-- The next `n` bytes, and those behind them. -/
def take (n : Nat) (bytes : Bytes) : Except Tendril (Bytes × Bytes) :=
  if n ≤ bytes.length then .ok (bytes.take n, bytes.drop n)
  else .error truncated

/-- Not more than eight bytes are shifted together, so none is lost. -/
def beUint (n : Nat) (bytes : Bytes) : Except Tendril (Nat × Bytes) := do
  let (read, bytes) ← take n bytes
  return (read.foldl (fun acc b => acc * 256 + b.toNat) 0, bytes)

/-- The integer that bits stand for as `width` bytes with a sign. -/
def signed (width bits : Nat) : Int :=
  if bits < Nat.pow 256 width / 2 then bits else bits - Nat.pow 256 width

def decodeStr (n : Nat) (bytes : Bytes) : Except Tendril (Value × Bytes) := do
  let (raw, bytes) ← take n bytes
  return (.str (Utf8.lossy raw), bytes)

def decodeBin (n : Nat) (bytes : Bytes) : Except Tendril (Value × Bytes) := do
  let (raw, bytes) ← take n bytes
  return (.bin raw, bytes)

def decodeUint (width : Nat) (bytes : Bytes) :
    Except Tendril (Value × Bytes) := do
  let (n, bytes) ← beUint width bytes
  return (.uint (.ofNat n), bytes)

def decodeInt (width : Nat) (bytes : Bytes) :
    Except Tendril (Value × Bytes) := do
  let (n, bytes) ← beUint width bytes
  return (.int (.ofInt (signed width n)), bytes)

section

variable (decode : Bytes → Except Tendril (Value × Bytes))

def decodeItems : Nat → Bytes → Except Tendril (List Value × Bytes)
  | 0, bytes => .ok ([], bytes)
  | n + 1, bytes => do
      let (item, bytes) ← decode bytes
      let (items, bytes) ← decodeItems n bytes
      return (item :: items, bytes)

def decodePairs : Nat → Bytes → Except Tendril (List (Value × Value) × Bytes)
  | 0, bytes => .ok ([], bytes)
  | n + 1, bytes => do
      let (k, bytes) ← decode bytes
      let (v, bytes) ← decode bytes
      let (pairs, bytes) ← decodePairs n bytes
      return ((k, v) :: pairs, bytes)

def decodeArray (n : Nat) (bytes : Bytes) :
    Except Tendril (Value × Bytes) := do
  let (items, bytes) ← decodeItems decode n bytes
  return (.array items, bytes)

def decodeMap (n : Nat) (bytes : Bytes) :
    Except Tendril (Value × Bytes) := do
  let (pairs, bytes) ← decodePairs decode n bytes
  return (.map pairs, bytes)

/-- An object behind its length, which has `width` bytes. -/
def decodeLong (body : Nat → Bytes → Except Tendril (Value × Bytes))
    (width : Nat) (bytes : Bytes) : Except Tendril (Value × Bytes) := do
  let (n, bytes) ← beUint width bytes
  body n bytes

variable (widen : UInt32 → UInt64)

/-- What is behind the first byte of an object. -/
def decodeBody (head : UInt8) (bytes : Bytes) :
    Except Tendril (Value × Bytes) :=
  let h := head.toNat
  if h ≤ 0x7f then .ok (.uint (.ofNat h), bytes)
  else if h ≤ 0x8f then decodeMap decode (head &&& 0x0f).toNat bytes
  else if h ≤ 0x9f then decodeArray decode (head &&& 0x0f).toNat bytes
  else if h ≤ 0xbf then decodeStr (head &&& 0x1f).toNat bytes
  else if 0xe0 ≤ h then .ok (.int (.ofInt (signed 1 h)), bytes)
  else if h = 0xc0 then .ok (.nil, bytes)
  else if h = 0xc2 then .ok (.bool false, bytes)
  else if h = 0xc3 then .ok (.bool true, bytes)
  else if h = 0xc4 then decodeLong decodeBin 1 bytes
  else if h = 0xc5 then decodeLong decodeBin 2 bytes
  else if h = 0xc6 then decodeLong decodeBin 4 bytes
  else if h = 0xca then do
    let (bits, bytes) ← beUint 4 bytes
    return (.f64 (widen (.ofNat bits)), bytes)
  else if h = 0xcb then do
    let (bits, bytes) ← beUint 8 bytes
    return (.f64 (.ofNat bits), bytes)
  else if h = 0xcc then decodeUint 1 bytes
  else if h = 0xcd then decodeUint 2 bytes
  else if h = 0xce then decodeUint 4 bytes
  else if h = 0xcf then decodeUint 8 bytes
  else if h = 0xd0 then decodeInt 1 bytes
  else if h = 0xd1 then decodeInt 2 bytes
  else if h = 0xd2 then decodeInt 4 bytes
  else if h = 0xd3 then decodeInt 8 bytes
  else if h = 0xd9 then decodeLong decodeStr 1 bytes
  else if h = 0xda then decodeLong decodeStr 2 bytes
  else if h = 0xdb then decodeLong decodeStr 4 bytes
  else if h = 0xdc then decodeLong (decodeArray decode) 2 bytes
  else if h = 0xdd then decodeLong (decodeArray decode) 4 bytes
  else if h = 0xde then decodeLong (decodeMap decode) 2 bytes
  else if h = 0xdf then decodeLong (decodeMap decode) 4 bytes
  else .error ("unsupported MessagePack type 0x".toList ++ Nat.toDigits 16 h)

end

section

variable (widen : UInt32 → UInt64)

/-- Decoding with a bound on the depth. An object in another one has fewer
bytes left, so a bound of all of them is only met behind the last one. -/
def decodeWithin : Nat → Bytes → Except Tendril (Value × Bytes)
  | 0, _ => .error truncated
  | _ + 1, [] => .error truncated
  | depth + 1, head :: bytes =>
      decodeBody (decodeWithin depth) widen head bytes

/-- One object, and the bytes behind it. `widen` makes a double of a
float. -/
def decode (bytes : Bytes) : Except Tendril (Value × Bytes) :=
  decodeWithin widen bytes.length bytes

end

end Zmax.Shada
