/-
zmax-core/src/history.rs: the undo history of a buffer, a tree of
revisions in a vector.

# The data

Every revision but the root has a parent, a transaction from the
parent's text to its own, and the inversion of that transaction. A
revision's index is larger than its parent's; the root is its own
parent. `current` is the revision the buffer shows.

# Parameters

The global `undolevels` is handed to the functions that read it, and the
time of a commit is part of the call. An instant is a number of
nanoseconds; `Clock` says which instants the platform can represent,
which is all that `checked_add` and `checked_sub` depend on.

The loops that walk up the tree are given as many steps as there are
revisions (`Panic.diverges` beyond that).
-/
import Zmax.Core.Transaction

namespace Zmax

abbrev Instant := Int

abbrev Duration := Nat

/-- What the platform's clock can represent. -/
structure Clock where
  representable : Instant → Bool

namespace Clock

variable (clock : Clock)

/-- `Instant::checked_sub` -/
def checkedSub (instant : Instant) (duration : Duration) : Option Instant :=
  if clock.representable (instant - duration) then some (instant - duration)
  else none

/-- `Instant::checked_add` -/
def checkedAdd (instant : Instant) (duration : Duration) : Option Instant :=
  if clock.representable (instant + duration) then some (instant + duration)
  else none

end Clock

/-- `Instant::duration_since`, which saturates at zero. -/
def durationSince (self earlier : Instant) : Duration :=
  (self - earlier).toNat

/-- A buffer with its selection, before a change. -/
structure State where
  doc : Rope
  selection : Selection
  deriving DecidableEq, Repr

/-- A single point in history. -/
structure Revision where
  parent : Nat
  /-- Never zero: the root is nobody's child. -/
  lastChild : Option Nat
  transaction : Transaction
  /-- We need an inversion for undos because delete transactions don't
  store the deleted text. -/
  inversion : Transaction
  timestamp : Instant
  deriving DecidableEq, Repr

/-- The history of changes to a buffer. -/
structure History where
  revisions : List Revision
  current : Nat
  /-- Per-history override of `undolevels`; `none` follows the global
  value. -/
  maxRevisions : Option Nat
  deriving DecidableEq, Repr

/-- `NonZeroUsize::new` -/
def nonZero (n : Nat) : Option Nat := if n = 0 then none else some n

namespace History

/-- `Default`: a dummy root revision with an empty transaction. -/
def default (now : Instant) : History :=
  { revisions :=
      [⟨0, none, .ofChanges (.new []), .ofChanges (.new []), now⟩]
    current := 0
    maxRevisions := none }

-- == committing

/-- A revision after `drop` revisions before it were dropped. A child
always has a higher index than its parent, so a kept revision's
`last_child` is always kept too. -/
def reindexed (drop : Nat) (self : Revision) : Result Revision := do
  let lastChild ←
    match self.lastChild with
    | none => pure none
    | some child => do
        let child ← checkedSub child drop
        pure (nonZero child)
  return { self with
    -- reattached to the root if the parent was dropped
    parent := self.parent - drop
    lastChild := lastChild }

/-- Forget the oldest revisions once more than `undolevels` are held. -/
def trimToUndoLevels (self : History) (undoLevels : Nat) :
    Result History := do
  let max := self.maxRevisions.getD undoLevels
  if max = 0 then return self
  -- revisions[0] is the dummy root and is never dropped
  let real ← checkedSub self.revisions.length 1
  if real ≤ max then return self
  -- never drop the current revision, nor any revision after it
  let drop := min (real - max) (self.current - 1)
  if drop = 0 then return self
  match self.revisions with
  | [] => .error .outOfBounds
  | root :: revisions => do
      let kept ← (revisions.drop drop).mapM (reindexed drop)
      return { self with
        -- the oldest surviving revision is now the root's child
        revisions := { root with lastChild := nonZero 1 } :: kept
        current := self.current - drop }

def setMaxRevisions (self : History) (undoLevels : Nat) (max : Option Nat) :
    Result History :=
  let capped : History := { self with maxRevisions := max }
  capped.trimToUndoLevels undoLevels

/-- Append a revision as the last child of the current one. -/
def commitRevisionAtTimestamp (self : History) (undoLevels : Nat)
    (transaction : Transaction) (original : State) (timestamp : Instant) :
    Result History := do
  let inversion ← transaction.invert original.doc
  -- store the current cursor position
  let inversion := inversion.withSelection original.selection
  let newCurrent := self.revisions.length
  let revision ← index self.revisions self.current
  let revisions := self.revisions.set self.current
    { revision with lastChild := nonZero newCurrent }
  let pushed : History :=
    { self with
      revisions := revisions ++
        [⟨self.current, none, transaction, inversion, timestamp⟩]
      current := newCurrent }
  pushed.trimToUndoLevels undoLevels

/-- Merge `transaction` into the current revision instead of creating a
new one; `original` is the state just before it. At the root there is no
revision to join into. -/
def mergeLastRevision (self : History) (undoLevels : Nat)
    (transaction : Transaction) (original : State) (now : Instant) :
    Result History :=
  if self.current = 0 then
    self.commitRevisionAtTimestamp undoLevels transaction original now
  else do
    let newInversion ← transaction.invert original.doc
    let newInversion := newInversion.withSelection original.selection
    let cur ← index self.revisions self.current
    -- S0 -> S1 (cur) then S1 -> S2 (transaction) = S0 -> S2
    let forward ← cur.transaction.compose transaction
    -- S2 -> S1 (newInversion) then S1 -> S0 (cur.inversion) = S2 -> S0
    let inversion ← newInversion.compose cur.inversion
    return { self with
      revisions := self.revisions.set self.current
        { cur with
          transaction := forward
          inversion := inversion
          timestamp := now } }

-- == the tree

/-- The loop of `lowest_common_ancestor`, with the sets of the nodes
seen on the way up from either side. -/
def lowestCommonAncestorLoop (self : History) :
    Nat → List Nat → List Nat → Nat → Nat → Result Nat
  | 0, _, _, _, _ => .error .diverges
  | fuel + 1, aPathSet, bPathSet, a, b =>
      let aPathSet := a :: aPathSet
      let bPathSet := b :: bPathSet
      if b ∈ aPathSet then .ok b
      else if a ∈ bPathSet then .ok a
      else do
        -- relies on the parent of 0 being 0
        let a ← index self.revisions a
        let b ← index self.revisions b
        lowestCommonAncestorLoop self fuel aPathSet bPathSet a.parent b.parent

def lowestCommonAncestor (self : History) (a b : Nat) : Result Nat :=
  self.lowestCommonAncestorLoop self.revisions.length [] [] a b

/-- The loop of `path_up`. -/
def pathUpLoop (self : History) (a : Nat) : Nat → Nat → Result (List Nat)
  | fuel, n =>
      if n = a then .ok []
      else
        match fuel with
        | 0 => .error .diverges
        | fuel + 1 => do
            let revision ← index self.revisions n
            let path ← pathUpLoop self a fuel revision.parent
            return n :: path

/-- List of nodes on the way from `n` to `a`, without `a`, which must be
an ancestor of `n`. -/
def pathUp (self : History) (n a : Nat) : Result (List Nat) :=
  self.pathUpLoop a self.revisions.length n

/-- Jump to a revision of the history: the transactions that lead
there. -/
def jumpTo (self : History) (target : Nat) :
    Result (List Transaction × History) := do
  let lca ← self.lowestCommonAncestor self.current target
  let up ← self.pathUp self.current lca
  let down ← self.pathUp target lca
  let upTxns ← up.mapM (index self.revisions)
  let downTxns ← down.reverse.mapM (index self.revisions)
  return (upTxns.map Revision.inversion ++ downTxns.map Revision.transaction,
    { self with current := target })

/-- Jump to an arbitrary revision, clamped to the valid range. -/
def jumpToRevision (self : History) (target : Nat) :
    Result (List Transaction × History) :=
  self.jumpTo (min target (self.revisions.length - 1))

/-- `reduce` of `changes_since`: every transaction goes in front of what
was composed so far. -/
def composeUnder : Transaction → List Transaction → Result Transaction
  | acc, [] => .ok acc
  | acc, tx :: rest => do
      let acc ← tx.compose acc
      composeUnder acc rest

/-- The changes since a revision composed into one transaction; nothing
if there are none. -/
def changesSince (self : History) (revision : Nat) :
    Result (Option Transaction) := do
  let lca ← self.lowestCommonAncestor revision self.current
  let up ← self.pathUp revision lca
  let down ← self.pathUp self.current lca
  let upTxns ← up.reverse.mapM (index self.revisions)
  let downTxns ← down.mapM (index self.revisions)
  match downTxns.map Revision.transaction
      ++ upTxns.map Revision.inversion with
  | [] => return none
  | tx :: rest =>
      let acc ← composeUnder tx rest
      return some acc

-- == navigating

/-- Undo the last edit. -/
def undo (self : History) : Result (Option Transaction × History) :=
  if self.current = 0 then .ok (none, self)
  else do
    let currentRevision ← index self.revisions self.current
    return (some currentRevision.inversion,
      { self with current := currentRevision.parent })

/-- Redo the last edit. -/
def redo (self : History) : Result (Option Transaction × History) := do
  let currentRevision ← index self.revisions self.current
  match currentRevision.lastChild with
  | none => return (none, self)
  | some lastChild =>
      let child ← index self.revisions lastChild
      return (some child.transaction, { self with current := lastChild })

/-- Undo `delta` revisions. -/
def jumpBackward (self : History) (delta : Nat) :
    Result (List Transaction × History) :=
  self.jumpTo (self.current - delta)

/-- Redo `delta` revisions. -/
def jumpForward (self : History) (delta : Nat) :
    Result (List Transaction × History) := do
  let last ← checkedSub self.revisions.length 1
  self.jumpTo (min (self.current + delta) last)

/-- The loop of `slice::binary_search_by`: `size` elements from `base`
on are left, at least one. -/
def binarySearchLoop (revisions : List Revision) (instant : Instant) :
    Nat → Nat → Nat → Nat
  | 0, base, _ => base
  | fuel + 1, base, size =>
      if 1 < size then
        let half := size / 2
        let mid := base + half
        let greater : Bool :=
          match revisions[mid]? with
          | some rev => instant < rev.timestamp
          | none => false
        binarySearchLoop revisions instant fuel
          (if greater then base else mid) (size - half)
      else base

/-- `slice::binary_search_by`: where the instant is, or else where it
would be inserted. -/
def binarySearch (revisions : List Revision) (instant : Instant) :
    Nat ⊕ Nat :=
  let base := binarySearchLoop revisions instant revisions.length 0
    revisions.length
  match revisions[base]? with
  | none => .inr 0
  | some rev =>
      if rev.timestamp = instant then .inl base
      else if rev.timestamp < instant then .inr (base + 1)
      else .inr base

/-- Helper for the binary search case below. -/
def revisionCloserToInstant (self : History) (i : Nat) (instant : Instant) :
    Result Nat := do
  let im1 ← checkedSub i 1
  let before ← index self.revisions im1
  let after ← index self.revisions i
  if durationSince instant before.timestamp
      < durationSince after.timestamp instant then return im1
  else return i

/-- Jump to a revision created at around `instant`. -/
def jumpInstant (self : History) (instant : Instant) :
    Result (List Transaction × History) := do
  let revision ← (match binarySearch self.revisions instant with
    | .inl revision => .ok revision
    | .inr insertPoint =>
        if insertPoint = 0 then .ok 0
        else if insertPoint = self.revisions.length then
          .ok (insertPoint - 1)
        else self.revisionCloserToInstant insertPoint instant :
    Result Nat)
  self.jumpTo revision

variable (clock : Clock)

/-- Jump `duration` back from the timestamp of the current revision. -/
def jumpDurationBackward (self : History) (duration : Duration) :
    Result (List Transaction × History) := do
  let current ← index self.revisions self.current
  match clock.checkedSub current.timestamp duration with
  | some instant => self.jumpInstant instant
  | none => self.jumpTo 0

/-- Jump `duration` ahead of the timestamp of the current revision. -/
def jumpDurationForward (self : History) (duration : Duration) :
    Result (List Transaction × History) := do
  let current ← index self.revisions self.current
  match clock.checkedAdd current.timestamp duration with
  | some instant => self.jumpInstant instant
  | none => do
      let last ← checkedSub self.revisions.length 1
      self.jumpTo last

attribute [grind =] lowestCommonAncestorLoop pathUpLoop composeUnder
  binarySearchLoop

end History

/-- Whether to undo by a number of edits or a duration of time. -/
inductive UndoKind where
  | steps (n : Nat)
  | timePeriod (duration : Duration)
  deriving DecidableEq, Repr

namespace History

variable (clock : Clock)

def earlier (self : History) : UndoKind → Result (List Transaction × History)
  | .steps n => self.jumpBackward n
  | .timePeriod d => self.jumpDurationBackward clock d

def later (self : History) : UndoKind → Result (List Transaction × History)
  | .steps n => self.jumpForward n
  | .timePeriod d => self.jumpDurationForward clock d

end History

end Zmax
