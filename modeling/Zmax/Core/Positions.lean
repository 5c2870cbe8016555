/-
zmax-core/src/transaction.rs, position mapping: `Assoc` and
`ChangeSet::update_positions` with its special case `map_pos`.

# The sweep

`update_positions` walks the operations once and moves every position
as it comes by. A turn of its outer loop takes the next operation (an
insert takes a delete right after it along), and the `map!` loop of the
turn moves positions until one is not in the range of the operation.
A position behind the operation makes the walk go back over the
operations it has seen. `Cursor` is the state the turns share: the
operation iterator with its `enumerate` index, and the positions in the
old and the new text.

The outer loop is given a bound on its turns (`Panic.diverges` beyond
it); Core/Proofs/Positions.lean shows that the bound is enough.
-/
import Zmax.Core.ChangeSet
import Zmax.Core.Unicode

namespace Zmax

open Script (Edit)

variable (U : Unicode)

/-- Which side of a change a position stays with. -/
inductive Assoc where
  | before
  | after
  /-- Acts like `after` if a word character is inserted after the
  position, otherwise acts like `before`. -/
  | afterWord
  /-- Acts like `before` if a word character is inserted before the
  position, otherwise acts like `after`. -/
  | beforeWord
  /-- `before`, but inside an exact replacement (same size) the offset
  to its start is kept. -/
  | beforeSticky
  /-- `after`, but inside an exact replacement (same size) the offset
  to its start is kept. -/
  | afterSticky
  deriving DecidableEq, Repr

namespace Assoc

/-- Whether to stick to gaps. -/
def stayAtGaps : Assoc → Bool
  | beforeWord | afterWord => false
  | _ => true

/-- Where in an inserted text the position ends up. -/
def insertOffset (self : Assoc) (s : Tendril) : Nat :=
  match self with
  | after | afterSticky => s.length
  | afterWord => (s.takeWhile (charIsWord U)).length
  -- return position before inserted text
  | before | beforeSticky => 0
  | beforeWord => s.length - (s.reverse.takeWhile (charIsWord U)).length

def sticky : Assoc → Bool
  | beforeSticky | afterSticky => true
  | _ => false

end Assoc

namespace ChangeSet

/-- The state between two turns: the rest of the operations under the
index `enumerate` gives its head, and how far the walk is in the old and
the new text. -/
structure Cursor where
  index : Nat
  rest : List Operation
  oldPos : Nat
  newPos : Nat
  deriving DecidableEq, Repr

namespace Cursor

/-- The `$i` of the turn: the index of its operation, the number of
operations at the end. -/
def turnIndex (self : Cursor) (len : Nat) : Nat :=
  match self.rest with
  | [] => len
  | _ :: _ => self.index

/-- The closure the turn hands to `map!`. `map!` has checked that the
position is not behind `oldPos`, so the offset into the operation cannot
underflow. -/
def map (self : Cursor) (pos : Nat) (assoc : Assoc) : Option Nat :=
  match self.rest with
  | [] => if self.oldPos = pos then some self.newPos else none
  | .retain len :: _ =>
      if pos < self.oldPos + len then
        some (self.newPos + (pos - self.oldPos))
      else none
  | .delete len :: _ =>
      -- in range
      if pos < self.oldPos + len then some self.newPos else none
  | .insert s :: .delete len :: _ =>
      -- in range of replaced text
      if pos < self.oldPos + len then
        -- at point or tracking before
        if pos = self.oldPos ∧ assoc.stayAtGaps then some self.newPos
        -- if the deleted and inserted text have the exact same size
        -- keep the relative offset into the new text
        else if len = assoc.insertOffset U s ∧ assoc.sticky then
          some (self.newPos + (pos - self.oldPos))
        else some (self.newPos + assoc.insertOffset U s)
      else none
  | .insert s :: _ =>
      -- at insert point
      if self.oldPos = pos then some (self.newPos + assoc.insertOffset U s)
      else none

/-- The state after the turn; nothing at the end of the operations. -/
def next (self : Cursor) : Option Cursor :=
  match self.rest with
  | [] => none
  | .retain len :: rest =>
      some ⟨self.index + 1, rest, self.oldPos + len, self.newPos + len⟩
  | .delete len :: rest =>
      some ⟨self.index + 1, rest, self.oldPos + len, self.newPos⟩
  -- a subsequent delete means a replace, consume it
  | .insert s :: .delete len :: rest =>
      some ⟨self.index + 2, rest, self.oldPos + len,
        self.newPos + s.length⟩
  | .insert s :: rest =>
      some ⟨self.index + 1, rest, self.oldPos, self.newPos + s.length⟩

end Cursor

/-- The walk back from a turn, over the operations before it in reverse
with their indices: the iterator restarts at every operation that is not
past `pos`, so in the end at the first one. -/
def rewindLoop (changes : List Operation) (pos : Nat) :
    List (Operation × Nat) → Cursor → Result Cursor
  | [], cursor => .ok cursor
  | (change, i) :: rest, cursor => do
      let oldPos ← checkedSub cursor.oldPos change.old
      let newPos ← checkedSub cursor.newPos change.new
      rewindLoop changes pos rest
        (if oldPos ≤ pos then ⟨0, changes.drop i, oldPos, newPos⟩
        else ⟨cursor.index, cursor.rest, oldPos, newPos⟩)

/-- A position is behind the turn's operation, which has index `i`:
revert to an operation that contains it. -/
def rewind (self : ChangeSet) (pos i : Nat) (cursor : Cursor) :
    Result Cursor := do
  let cursor ← rewindLoop self.changes pos
    (self.changes.take i).zipIdx.reverse cursor
  assert (cursor.oldPos ≤ pos)
  return cursor

/-- The `map!` loop of a turn: the positions it moved, and the ones left
when it ran out of positions, met one behind the operation, or one
outside its range. -/
def mapLoop (cursor : Cursor) :
    List (Nat × Assoc) → List Nat × List (Nat × Assoc)
  | [] => ([], [])
  | (pos, assoc) :: positions =>
      if pos < cursor.oldPos then ([], (pos, assoc) :: positions)
      else
        match cursor.map U pos assoc with
        | none => ([], (pos, assoc) :: positions)
        | some newPos =>
            let (moved, left) := mapLoop cursor positions
            (newPos :: moved, left)

/-- The outer loop. -/
def updateLoop (self : ChangeSet) :
    Nat → Cursor → List (Nat × Assoc) → Result (List Nat)
  | 0, _, _ => .error .diverges
  | fuel + 1, cursor, positions =>
      match mapLoop U cursor positions with
      | (moved, []) => .ok moved
      | (moved, (pos, assoc) :: left) => do
          if pos < cursor.oldPos then
            let cursor ← self.rewind pos
              (cursor.turnIndex self.changes.length) cursor
            let out ← updateLoop self fuel cursor ((pos, assoc) :: left)
            return moved ++ out
          else
            match cursor.next with
            -- positions are out of range for the change set
            | none => .error .outOfBounds
            | some cursor =>
                let out ← updateLoop self fuel cursor ((pos, assoc) :: left)
                return moved ++ out

/-- Map a list of positions through the changes. -/
def updatePositions (self : ChangeSet) (positions : List (Nat × Assoc)) :
    Result (List Nat) :=
  updateLoop U self (positions.length * (self.changes.length + 3) + 1)
    ⟨0, self.changes, 0, 0⟩ positions

/-- Map a position through the changes. -/
def mapPos (self : ChangeSet) (pos : Nat) (assoc : Assoc) : Result Nat := do
  let out ← updatePositions U self [(pos, assoc)]
  index out 0

attribute [grind =] rewindLoop mapLoop updateLoop

end ChangeSet

end Zmax
