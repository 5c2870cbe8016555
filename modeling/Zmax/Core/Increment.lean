/-
zmax-core/src/increment/integer.rs: the number that a text writes, moved by
an amount.

A text whose number parses has ASCII chars only, so its length in bytes is
the number of its chars. The width of a formatted number is a `u16`, and the
formatting panics beyond that. The loop that adds separators has as many
turns as there are chars in front of the first one, unless it makes no
progress.
-/
import Mathlib.Algebra.Order.Ring.Int
import Zmax.Core.Text

namespace Zmax.Increment

open Text

def SEPARATOR : Char := '_'

inductive Radix where
  | binary
  | octal
  | decimal
  | hexadecimal
  deriving DecidableEq, Repr

namespace Radix

def base : Radix → Nat
  | binary => 2
  | octal => 8
  | decimal => 10
  | hexadecimal => 16

/-- What a literal of the radix starts with. -/
def marker : Radix → List Char
  | binary => ['0', 'b']
  | octal => ['0', 'o']
  | decimal => []
  | hexadecimal => ['0', 'x']

end Radix

-- == numbers

/-- `char::to_digit` -/
def toDigit (radix : Nat) (c : Char) : Option Nat :=
  let n := c.toNat
  let digit :=
    if 48 ≤ n ∧ n ≤ 57 then n - 48
    else if 97 ≤ n ∧ n ≤ 122 then n - 97 + 10
    else if 65 ≤ n ∧ n ≤ 90 then n - 65 + 10
    else 36
  if digit < radix then some digit else none

/-- The value of some digits, if they all are. -/
def digitsValue (radix : Nat) (digits : List Char) : Option Nat :=
  digits.foldlM (fun n c => (toDigit radix c).map (n * radix + ·)) 0

def I128_MIN : Int := -170141183460469231731687303715884105728

def I128_MAX : Int := 170141183460469231731687303715884105727

def U128_MAX : Nat := 340282366920938463463374607431768211455

/-- `i128::from_str_radix` -/
def i128FromStrRadix (s : List Char) (radix : Nat) : Option Int := do
  let (negative, digits) := match s with
    | '-' :: digits => (true, digits)
    | '+' :: digits => (false, digits)
    | digits => (false, digits)
  if digits = [] then none
  else
    let n ← digitsValue radix digits
    let value := if negative then -(n : Int) else n
    if I128_MIN ≤ value ∧ value ≤ I128_MAX then some value else none

/-- `u128::from_str_radix` -/
def u128FromStrRadix (s : List Char) (radix : Nat) : Option Nat := do
  let digits := match s with
    | '+' :: digits => digits
    | digits => digits
  if digits = [] then none
  else
    let n ← digitsValue radix digits
    if n ≤ U128_MAX then some n else none

/-- `as i128` -/
def asI128 (n : Nat) : Int :=
  if (n : Int) ≤ I128_MAX then n
  else n - 340282366920938463463374607431768211456

/-- `i128::saturating_add` -/
def saturatingAdd (a b : Int) : Int := max I128_MIN (min (a + b) I128_MAX)

/-- `format!("{:01$}", value, width)` in some radix: the sign counts, and the
zeros stand behind it. -/
def format (radix : Nat) (value : Int) (width : Nat) : Result (List Char) := do
  assert (width ≤ 65535)
  let sign := if value < 0 then ['-'] else []
  let digits := Nat.toDigits radix value.natAbs
  return sign ++
    List.replicate (width - (sign.length + digits.length)) '0' ++ digits

-- == separators

/-- Separator indexes from right to left. -/
def separatorRtlIndexes (selectedText : List Char) : List Nat :=
  selectedText.reverse.zipIdx.filterMap fun c =>
    if c.1 = SEPARATOR then some c.2 else none

/-- `insert` -/
def insertAt (text : List Char) (i : Nat) (c : Char) : List Char :=
  text.take i ++ c :: text.drop i

/-- One separator of the original number, put back. -/
def putBack (newText : List Char) (rtlIndex : Nat) : List Char :=
  if rtlIndex < newText.length then
    let newIndex := newText.length - rtlIndex
    if newIndex > 0 then insertAt newText newIndex SEPARATOR else newText
  else newText

/-- The distance of the leftmost two separators, or of the only one from the
end. -/
def spacingOf (separatorRtlIndexes : List Nat) : Result Nat :=
  match separatorRtlIndexes.reverse with
  | a :: b :: _ => do
      let d ← checkedSub a b
      checkedSub d 1
  | _ => index separatorRtlIndexes 0

/-- `while index - prefix_length > spacing { … }` -/
def addSeparators (prefixLength spacing : Nat) :
    Nat → Nat → List Char → Result (List Char)
  | 0, _, _ => .error .diverges
  | fuel + 1, index, newText => do
      let room ← checkedSub index prefixLength
      if room > spacing then
        let index ← checkedSub index spacing
        addSeparators prefixLength spacing fuel index
          (insertAt newText index SEPARATOR)
      else return newText

/-- The separators of a number for its new digits: those of the original
number, and additional ones if necessary. -/
def withSeparators (selectedText : List Char) (separators : List Nat)
    (prefixLength : Nat) (newText : List Char) : Result (List Char) := do
  let newText := separators.foldl putBack newText
  if newText.length > selectedText.length ∧ separators ≠ [] then
    let spacing ← spacingOf separators
    match newText.findIdx? (· = SEPARATOR) with
    | some index =>
        addSeparators prefixLength spacing (index + 1) index newText
    | none => return newText
  else return newText

-- == increment

def radixOf (selectedText : List Char) : Radix :=
  if startsWith selectedText ['0', 'x'] then .hexadecimal
  else if startsWith selectedText ['0', 'o'] then .octal
  else if startsWith selectedText ['0', 'b'] then .binary
  else .decimal

/-- How long the new number is in base 10, if no digits come or go. -/
def decimalLength (number : List Char) (value newValue : Int) : Result Nat :=
  if value < 0 ∧ 0 ≤ newValue then checkedSub number.length 1
  else if 0 ≤ value ∧ newValue < 0 then .ok (number.length + 1)
  else .ok number.length

/-- The digits of the new number in base 10, without separators. -/
def newDecimal (word : List Char) (separators : Nat) (amount : Int) :
    Result (Option (List Char)) := do
  match i128FromStrRadix word 10 with
  | none => return none
  | some value =>
      let newValue := saturatingAdd value amount
      let length ← decimalLength word value newValue
      let formatLength ← checkedSub length separators
      if startsWith word ['0'] ∨ startsWith word ['-', '0'] then
        (format 10 newValue formatLength).map some
      else
        (format 10 newValue 0).map some

/-- And in another base, with its prefix. -/
def newPrefixed (radix : Radix) (selectedText word : List Char)
    (separators : Nat) (amount : Int) : Result (Option (List Char)) := do
  let number := word.drop 2
  match u128FromStrRadix number radix.base with
  | none => return none
  | some value =>
      let newValue := max 0 (saturatingAdd (asI128 value) amount)
      let length ← checkedSub selectedText.length 2
      let formatLength ← checkedSub length separators
      let digits ← format radix.base newValue formatLength
      let lowerCount := number.countP Char.isLower
      let upperCount := number.countP Char.isUpper
      let digits := if radix = .hexadecimal ∧ upperCount > lowerCount then
        digits.map Char.toUpper else digits
      return some (radix.marker ++ digits)

def newDigits (radix : Radix) (selectedText word : List Char)
    (separators : Nat) (amount : Int) : Result (Option (List Char)) :=
  if radix = .decimal then newDecimal word separators amount
  else newPrefixed radix selectedText word separators amount

def increment (selectedText : List Char) (amount : Int) :
    Result (Option (List Char)) := do
  if selectedText = [] ∨ endsWith selectedText [SEPARATOR] ∨
      startsWith selectedText [SEPARATOR] then
    return none
  else
    let radix := radixOf selectedText
    let separators := separatorRtlIndexes selectedText
    let word := selectedText.filter (· ≠ SEPARATOR)
    let new ← newDigits radix selectedText word separators.length amount
    match new with
    | none => return none
    | some newText =>
        (withSeparators selectedText separators radix.marker.length
          newText).map some

attribute [grind =] addSeparators

end Zmax.Increment
