/-
zmax-core/src/transaction.rs, the transactions made of a change or a
deletion for each range of a selection.

A callback of the source is `FnMut`: it may answer differently every
time. Here it is a function of the number of the call as well, which is
the index of the range where it is called once per range.
-/
import Zmax.Core.Transaction

namespace Zmax

variable (U : Unicode)

/-- (from, to) -/
abbrev Deletion := Nat × Nat

/-- `as usize` of an `isize`. -/
def asUsize (x : Int) : Nat :=
  if x < 0 then (x + 18446744073709551616).toNat else x.toNat

/-- Map a range through a set of changes. -/
def Range.map (self : Range) (changes : ChangeSet) : Result Range :=
  if changes.isEmpty then .ok self
  else do
    let out ← changes.updatePositions U self.positions
    match out with
    | [first, second] => return self.updated first second
    | _ => .error .unreachable

namespace Transaction

-- == lists of changes

/-- Generate a transaction from a set of changes. -/
def change (doc : Rope) (changes : List Change) : Result Transaction := do
  let changes ← ChangeSet.fromChanges doc changes
  return ofChanges changes

/-- The `filter_map` of `change_ignore_overlapping`, with the state that
`process_change` closes over: `last` is where the last change that was
not ignored ended. -/
def filterOverlapping {σ α : Type}
    (processChange : Nat → Nat → α → σ → σ × Option Tendril) :
    List (Nat × Nat × α) → Nat → σ → σ × List Change
  | [], _, s => (s, [])
  | (start, stop, data) :: rest, last, s =>
      if start < last then filterOverlapping processChange rest last s
      else
        let (s, tendril) := processChange start stop data s
        let (s, changes) := filterOverlapping processChange rest stop s
        (s, (start, stop, tendril) :: changes)

/-- Generate a transaction from potentially overlapping changes; one that
overlaps with a previous one is ignored. -/
def changeIgnoreOverlapping {σ α : Type} (doc : Rope)
    (changeRanges : List (Nat × Nat × α))
    (processChange : Nat → Nat → α → σ → σ × Option Tendril) (s : σ) :
    Result (Transaction × σ) := do
  let (s, changes) := filterOverlapping processChange changeRanges 0 s
  let transaction ← change doc changes
  return (transaction, s)

/-- The loop of `delete`: `last` is where the previous deletion ended. -/
def deleteLoop : List Deletion → Nat → ChangeSet →
    Result (Nat × ChangeSet)
  | [], last, changeset => .ok (last, changeset)
  | (start, stop) :: rest, last, changeset =>
      if stop < last then deleteLoop rest last changeset
      else do
        let start := if start < last then last else start
        assert (start ≤ stop)
        -- Retain from last "to" to current "from"
        let gap ← checkedSub start last
        let span ← checkedSub stop start
        deleteLoop rest stop ((changeset.retain gap).delete span)

/-- Generate a transaction from potentially overlapping deletions, by
merging overlapping ones together. -/
def delete (doc : Rope) (deletions : List Deletion) :
    Result Transaction := do
  let (last, changeset) ← deleteLoop deletions 0 .withCapacity
  let gap ← checkedSub doc.length last
  return ofChanges (changeset.retain gap)

-- == one for each range, and on

/-- The variables that `change_by_selection_ignore_overlapping` collects
the kept ranges in. -/
structure Kept where
  lastSelectionIdx : Option Nat
  newPrimaryIdx : Option Nat
  ranges : List Range

/-- Keep a range, and follow the index of the primary one. -/
def Kept.note (primaryIndex : Nat) (self : Kept) (idx : Nat)
    (range : Range) : Kept :=
  let self :=
    if idx = primaryIndex then { self with newPrimaryIdx := some idx }
    else if self.newPrimaryIdx.isNone then
      if primaryIndex < idx then
        { self with newPrimaryIdx := self.lastSelectionIdx }
      else { self with lastSelectionIdx := some idx }
    else self
  { self with ranges := self.ranges ++ [range] }

/-- The `process_change` of `change_by_selection_ignore_overlapping`; its
calls of `create_tendril` are as many as the ranges kept. -/
def Kept.process (primaryIndex : Nat)
    (createTendril : Nat → Nat → Nat → Option Tendril)
    (changeStart changeEnd : Nat) (data : Nat × Range) (self : Kept) :
    Kept × Option Tendril :=
  (self.note primaryIndex data.1 data.2,
    createTendril self.ranges.length changeStart changeEnd)

/-- The change ranges, each with the range it is for and its index. -/
def changeRanges (selection : Selection)
    (changeRange : Nat → Range → Nat × Nat) :
    List (Nat × Nat × Nat × Range) :=
  selection.ranges.zipIdx.map fun x =>
    ((changeRange x.2 x.1).1, (changeRange x.2 x.1).2, x.2, x.1)

/-- A change for each range, those that overlap with a previous one
ignored, and the ranges of the others as a selection. -/
def changeBySelectionIgnoreOverlapping (doc : Rope) (selection : Selection)
    (changeRange : Nat → Range → Nat × Nat)
    (createTendril : Nat → Nat → Nat → Option Tendril) :
    Result (Transaction × Selection) := do
  let (transaction, kept) ← changeIgnoreOverlapping doc
    (changeRanges selection changeRange)
    (Kept.process selection.primaryIndex createTendril) ⟨none, none, []⟩
  let selection ← Selection.new kept.ranges (kept.newPrimaryIdx.getD 0)
  return (transaction, selection)

-- == a new selection as well

/-- The number of chars a change adds. -/
def changeSize : Change → Int
  | (start, stop, some text) => text.length - ((stop : Int) - start)
  | (start, stop, none) => -((stop : Int) - start)

/-- What the callback made of a range, or else the range mapped through
the change as usual. -/
def newRange (doc : Rope) (change : Change) (endRange : Option Range)
    (startRange : Range) : Result Range :=
  match endRange with
  | some endRange => .ok endRange
  | none => do
      let changeset ← ChangeSet.fromChanges doc [change]
      startRange.map U changeset

/-- The closure of `change_by_and_with_selection`, called for the ranges
one after the other: the changes and the new ranges. `offset` is by how
much the changes so far move what is behind them. -/
def changeRangesLoop (doc : Rope)
    (f : Nat → Range → Change × Option Range) :
    List (Range × Nat) → Int → Result (List Change × List Range)
  | [], _ => .ok ([], [])
  | (startRange, n) :: rest, offset => do
      let (change, endRange) := f n startRange
      let newRange ← newRange U doc change endRange startRange
      let offsetRange := Range.new (asUsize (newRange.anchor + offset))
        (asUsize (newRange.head + offset))
      let (changes, endRanges) ← changeRangesLoop doc f rest
        (offset + changeSize change)
      return (change :: changes, offsetRange :: endRanges)

/-- A change for each range, and a new selection of the ranges, shifted
by the changes in front of them. -/
def changeByAndWithSelection (doc : Rope) (selection : Selection)
    (f : Nat → Range → Change × Option Range) : Result Transaction := do
  let (changes, endRanges) ← changeRangesLoop U doc f
    selection.ranges.zipIdx 0
  let transaction ← change doc changes
  let selection ← Selection.new endRanges selection.primaryIndex
  return transaction.withSelection selection

/-- The closure of `delete_by_and_with_selection`. `last` is where the
previous deletion ended. -/
def deleteRangesLoop (doc : Rope)
    (f : Nat → Range → Deletion × Option Range) :
    List (Range × Nat) → Nat → Nat →
      Result (List Deletion × List Range)
  | [], _, _ => .ok ([], [])
  | (startRange, n) :: rest, offset, last => do
      let ((start, stop), endRange) := f n startRange
      -- must account for possibly overlapping deletes
      let changeSize ←
        if start < last then checkedSub stop last
        else checkedSub stop start
      let newRange ← newRange U doc (start, stop, none) endRange startRange
      let offsetRange := Range.new (newRange.anchor - offset)
        (newRange.head - offset)
      let (deletions, endRanges) ← deleteRangesLoop doc f rest
        (offset + changeSize) stop
      return ((start, stop) :: deletions, offsetRange :: endRanges)

/-- A deletion for each range, merged where they overlap, and a new
selection of the ranges. -/
def deleteByAndWithSelection (doc : Rope) (selection : Selection)
    (f : Nat → Range → Deletion × Option Range) : Result Transaction := do
  let (deletions, endRanges) ← deleteRangesLoop U doc f
    selection.ranges.zipIdx 0 0
  let transaction ← delete doc deletions
  let selection ← Selection.new endRanges selection.primaryIndex
  return transaction.withSelection selection

attribute [grind =] filterOverlapping deleteLoop changeRangesLoop
  deleteRangesLoop

end Transaction

end Zmax
