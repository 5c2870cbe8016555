/-
zmax-core/src/transaction.rs, the change set: a list of operations that
turns one text into another, with the lengths of both texts on record.

# The data

An `Operation` is an edit step over chars. A `ChangeSet` keeps its
operations with `len`, the length of the text it applies to, and
`lenAfter`, the length of the text it leaves. The builders
`delete` / `insert` / `retain` keep the operation list canonical: steps
of one kind are merged, and an insert next to a delete stands before it.

# What is here and what is not

Capacities are not modelled. `ChangeSet::map` is unimplemented in the
source and left out. Position mapping has a file of its own
(Core/Positions.lean).
-/
import Zmax.Basic
import Zmax.Lib.Script

namespace Zmax

open Script (Edit oldLen newLen run)

-- == operations

/-- One operation: retain or delete a number of chars, or insert a
text. -/
abbrev Operation := Edit Char

/-- (from, to, replacement) -/
abbrev Change := Nat × Nat × Option Tendril

/-- A list of operations with the lengths of the texts it relates. -/
structure ChangeSet where
  changes : List Operation
  /-- The required document length. -/
  len : Nat
  lenAfter : Nat
  deriving DecidableEq, Repr

namespace ChangeSet

/-- `ChangeSet::with_capacity`, also `Default`: no operations on no
text. -/
def withCapacity : ChangeSet := ⟨[], 0, 0⟩

/-- `ChangeSet::new`: no operations on `doc`. -/
def new (doc : Rope) : ChangeSet := ⟨[], doc.length, doc.length⟩

-- == builders

/-- Append a delete, merged into a delete already last. -/
def delete (self : ChangeSet) (n : Nat) : ChangeSet :=
  if n = 0 then self
  else
    { changes :=
        match self.changes.reverse with
        | .delete count :: init => (.delete (count + n) :: init).reverse
        | _ => self.changes ++ [.delete n]
      len := self.len + n
      lenAfter := self.lenAfter }

/-- Append an insert: into an insert that is last or last but a delete,
else in front of a delete that is last, else at the end. -/
def insert (self : ChangeSet) (fragment : Tendril) : ChangeSet :=
  if fragment.isEmpty then self
  else
    { changes :=
        match self.changes.reverse with
        | .insert prev :: init => (.insert (prev ++ fragment) :: init).reverse
        | .delete n :: .insert prev :: init =>
            (.delete n :: .insert (prev ++ fragment) :: init).reverse
        | .delete n :: init => (.delete n :: .insert fragment :: init).reverse
        | _ => self.changes ++ [.insert fragment]
      len := self.len
      lenAfter := self.lenAfter + fragment.length }

/-- Append a retain, merged into a retain already last. -/
def retain (self : ChangeSet) (n : Nat) : ChangeSet :=
  if n = 0 then self
  else
    { changes :=
        match self.changes.reverse with
        | .retain count :: init => (.retain (count + n) :: init).reverse
        | _ => self.changes ++ [.retain n]
      len := self.len + n
      lenAfter := self.lenAfter + n }

-- == applying

/-- The loop of `apply`: `pos` is the cursor in the text being edited
in place. `Rope::remove` and `Rope::insert` panic past the end. -/
def applyLoop : List Operation → Nat → Rope → Result Rope
  | [], _, text => .ok text
  | .retain n :: rest, pos, text => applyLoop rest (pos + n) text
  | .delete n :: rest, pos, text =>
      if pos + n ≤ text.length then
        applyLoop rest pos (text.take pos ++ text.drop (pos + n))
      else .error .outOfBounds
  | .insert s :: rest, pos, text =>
      if pos ≤ text.length then
        applyLoop rest (pos + s.length)
          (text.take pos ++ s ++ text.drop pos)
      else .error .outOfBounds

/-- Apply to a text: whether it was applied, and the text then. -/
def apply (self : ChangeSet) (text : Rope) : Result (Bool × Rope) :=
  if text.length ≠ self.len then .ok (false, text)
  else do
    let text' ← applyLoop self.changes 0 text
    return (true, text')

/-- `true` when the set is empty. -/
def isEmpty (self : ChangeSet) : Bool :=
  self.changes.isEmpty || self.changes == [.retain self.len]

-- == composing

/-- Split a string at a char index, as `char_indices().nth(j).unwrap()`
and the cut at that byte do. -/
def splitAtChar (s : Tendril) (j : Nat) : Result (Tendril × Tendril) :=
  match s[j]? with
  | some _ => .ok (s.take j, s.drop j)
  | none => .error .unwrapNone

/-- The loop of `compose`: both operation lists with their heads, the
heads possibly already partly consumed, and the change set built so
far. -/
def composeLoop : List Operation → List Operation → ChangeSet →
    Result ChangeSet
  | [], [], changes => .ok changes
  -- deletion in A
  | .delete i :: a, b, changes => composeLoop a b (changes.delete i)
  -- insertion in B
  | a, .insert current :: b, changes =>
      composeLoop a b (changes.insert current)
  | [], _ :: _, _ => .error .unreachable
  | _ :: _, [], _ => .error .unreachable
  | .retain i :: a, .retain j :: b, changes =>
      if i < j then
        composeLoop a (.retain (j - i) :: b) (changes.retain i)
      else if i = j then composeLoop a b (changes.retain i)
      else composeLoop (.retain (i - j) :: a) b (changes.retain j)
  | .insert s :: a, .delete j :: b, changes =>
      if s.length < j then composeLoop a (.delete (j - s.length) :: b) changes
      else if s.length = j then composeLoop a b changes
      else
        match splitAtChar s j with
        | .error e => .error e
        | .ok (_, s') => composeLoop (.insert s' :: a) b changes
  | .insert s :: a, .retain j :: b, changes =>
      if s.length < j then
        composeLoop a (.retain (j - s.length) :: b) (changes.insert s)
      else if s.length = j then composeLoop a b (changes.insert s)
      else
        match splitAtChar s j with
        | .error e => .error e
        | .ok (before, after) =>
            composeLoop (.insert after :: a) b (changes.insert before)
  | .retain i :: a, .delete j :: b, changes =>
      if i < j then
        composeLoop a (.delete (j - i) :: b) (changes.delete i)
      else if i = j then composeLoop a b (changes.delete j)
      else composeLoop (.retain (i - j) :: a) b (changes.delete j)
termination_by a b => a.length + b.length

/-- Combine two change sets: if `self` goes from A to B and `other`
from B to C, the result goes from A to C. -/
def compose (self other : ChangeSet) : Result ChangeSet := do
  assert (self.lenAfter == other.len)
  -- composing fails in weird ways if one of the sets is empty
  if self.changes.isEmpty then return other
  if other.changes.isEmpty then return self
  let changes ← composeLoop self.changes other.changes withCapacity
  -- starting len should still equal original starting len
  assert (changes.len == self.len)
  return changes

-- == inverting

/-- The loop of `invert`: `pos` is the cursor in the original text.
`Rope::slice` panics past the end. -/
def invertLoop (originalDoc : Rope) : List Operation → Nat → ChangeSet →
    Result ChangeSet
  | [], _, changes => .ok changes
  | .retain n :: rest, pos, changes =>
      invertLoop originalDoc rest (pos + n) (changes.retain n)
  | .delete n :: rest, pos, changes =>
      if pos + n ≤ originalDoc.length then
        invertLoop originalDoc rest (pos + n)
          (changes.insert ((originalDoc.drop pos).take n))
      else .error .outOfBounds
  | .insert s :: rest, pos, changes =>
      invertLoop originalDoc rest pos (changes.delete s.length)

/-- A change set that reverts this one; `originalDoc` is the text
before this change. -/
def invert (self : ChangeSet) (originalDoc : Rope) : Result ChangeSet := do
  assert (originalDoc.length == self.len)
  invertLoop originalDoc self.changes 0 withCapacity

-- == change lists, both ways

/-- The loop of `from_changes`: `last` is where the previous change
ended. Ranges have to be ordered and not overlapping. -/
def fromChangesLoop : List Change → Nat → ChangeSet →
    Result (Nat × ChangeSet)
  | [], last, changeset => .ok (last, changeset)
  | (start, stop, tendril) :: rest, last, changeset => do
      assert (last ≤ start)
      assert (start ≤ stop)
      -- Retain from last "to" to current "from"
      let gap ← checkedSub start last
      let span ← checkedSub stop start
      let changeset := changeset.retain gap
      fromChangesLoop rest stop
        (match tendril with
        | some text => (changeset.insert text).delete span
        | none => changeset.delete span)

/-- Generate a change set from a list of changes. -/
def fromChanges (doc : Rope) (changes : List Change) :
    Result ChangeSet := do
  let (last, changeset) ← fromChangesLoop changes 0 withCapacity
  let gap ← checkedSub doc.length last
  return changeset.retain gap

/-- `ChangeIterator`, drained: the changes of a change set in the
coordinates of the old text, an insert paired with the delete after
it. -/
def changesIterLoop : List Operation → Nat → List Change
  | [], _ => []
  | .retain len :: rest, pos => changesIterLoop rest (pos + len)
  | .delete len :: rest, pos =>
      (pos, pos + len, none) :: changesIterLoop rest (pos + len)
  -- a subsequent delete means a replace, consume it
  | .insert s :: .delete len :: rest, pos =>
      (pos, pos + len, some s) :: changesIterLoop rest (pos + len)
  | .insert s :: rest, pos => (pos, pos, some s) :: changesIterLoop rest pos

/-- `ChangeSet::changes_iter` -/
def changesIter (self : ChangeSet) : List Change :=
  changesIterLoop self.changes 0

attribute [grind =] applyLoop composeLoop invertLoop fromChangesLoop
  changesIterLoop

end ChangeSet

end Zmax
