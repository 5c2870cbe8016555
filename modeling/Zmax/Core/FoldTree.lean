/-
zmax-core/src/fold_tree.rs: nested folds, and how an edit moves them.

The top of a fold is a line number, of a nested fold relative to its
parent's top. Line numbers of the functions are signed; a fold's own are
not, and `max(0)` is in the way back. None of them comes near the bounds of
its type in a buffer that fits into memory.

A loop that looks a fold up again after every change is a recursion with a
bound, `diverges` if that is used up.
-/
import Zmax.Basic

namespace Zmax.FoldTree

inductive FoldFlag where
  /-- Nested folds may still be closed. -/
  | «open»
  | closed
  /-- Follows `'foldlevel'`, and so do nested folds. -/
  | level
  deriving DecidableEq, Repr

/-- Whether a fold is smaller than `'foldminlines'`. -/
inductive TriState where
  | yes
  | no
  /-- Not yet determined. -/
  | none
  deriving DecidableEq, Repr

structure Fold where
  /-- The first line; relative to the parent for a nested fold. -/
  top : Nat
  /-- The number of lines. -/
  len : Nat
  nested : List Fold
  flags : FoldFlag
  small : TriState
  deriving Repr

/-- The line behind the fold. -/
def Fold.stop (f : Fold) : Nat := f.top + f.len

/-- Stands for deleted lines, as an amount. -/
def MAXLNUM : Int := 0x7fffffff

-- == adjusting

/-- `fold_mark_adjust_recurse`: lines `line1` to `line2` changed by `amount`,
what is below them by `amountAfter`. The cases are the source's. -/
def foldMarkAdjustRecurse (line1 line2 amount amountAfter : Int)
    (insertMode : Bool) : List Fold → List Fold
  | [] => []
  | ⟨fdTop, fdLen, nested, flags, small⟩ :: rest =>
      -- an inserted line at the top of a fold is part of it in Insert mode
      let top :=
        if insertMode ∧ amount = 1 ∧ line2 = MAXLNUM then line1 + 1 else line1
      let last : Int := fdTop + fdLen - 1
      let adjusted := foldMarkAdjustRecurse line1 line2 amount amountAfter
        insertMode rest
      -- 1
      if last < line1 then ⟨fdTop, fdLen, nested, flags, small⟩ :: adjusted
      -- 6
      else if fdTop > line2 then
        if amountAfter = 0 then ⟨fdTop, fdLen, nested, flags, small⟩ :: rest
        else
          ⟨(fdTop + amountAfter).toNat, fdLen, nested, flags, small⟩ ::
            adjusted
      -- 4
      else if fdTop ≥ top ∧ last ≤ line2 then
        if amount = MAXLNUM then adjusted
        else
          ⟨(fdTop + amount).toNat, fdLen, nested, flags, small⟩ :: adjusted
      else if fdTop < top then
        let nested := foldMarkAdjustRecurse (line1 - fdTop) (line2 - fdTop)
          amount amountAfter insertMode nested
        -- 2
        if last ≤ line2 then
          let len :=
            if amount = MAXLNUM then line1 - fdTop else fdLen + amount
          ⟨fdTop, len.toNat, nested, flags, small⟩ :: adjusted
        -- 3
        else
          ⟨fdTop, (fdLen + amountAfter).toNat, nested, flags, small⟩ ::
            adjusted
      -- 5
      else if amount = MAXLNUM then
        let nested := foldMarkAdjustRecurse 0 (line2 - fdTop) amount
          (amountAfter + (fdTop - top)) insertMode nested
        let len := fdLen - (line2 - fdTop + 1)
        ⟨line1.toNat, len.toNat, nested, flags, small⟩ :: adjusted
      else
        let nested := foldMarkAdjustRecurse 0 (line2 - fdTop) amount
          (amountAfter - amount) insertMode nested
        let len := fdLen + amountAfter - amount
        ⟨(fdTop + amount).toNat, len.toNat, nested, flags, small⟩ :: adjusted
termination_by folds => sizeOf folds
decreasing_by
  all_goals
    simp only [List.cons.sizeOf_spec, Fold.mk.sizeOf_spec]
    omega

/-- `fold_mark_adjust`: an edit changed lines `line1` to `line2` by `amount`,
and shifted everything below by `amountAfter`. -/
def foldMarkAdjust (folds : List Fold) (line1 line2 amount amountAfter : Int)
    (insertMode : Bool) : List Fold :=
  let line2 :=
    if amount = MAXLNUM ∧ line2 ≥ line1 ∧ line2 - line1 ≥ -amountAfter then
      line1 - amountAfter - 1
    else line2
  let line2 := if line2 < line1 then line1 else line2
  let line1 :=
    if insertMode ∧ amount = 1 ∧ line2 = MAXLNUM then line1 - 1 else line1
  foldMarkAdjustRecurse line1 line2 amount amountAfter insertMode folds

-- == finding

/-- The binary search of `fold_find`. -/
def findLoop (gap : List Fold) (lnum : Int) (low : Nat) (high : Int) :
    Result (Nat × Bool) :=
  if low ≤ high then
    let i := ((low + high) / 2).toNat
    match gap[i]? with
    | none => .error .outOfBounds
    | some f =>
        -- fold below lnum, adjust high
        if f.top > lnum then findLoop gap lnum low (i - 1)
        -- fold above lnum, adjust low
        else if f.stop ≤ lnum then findLoop gap lnum (i + 1) high
        else .ok (i, true)
  else .ok (low, false)
termination_by (high + 1 - low).toNat

/-- `fold_find`: the fold that contains a line, or else the first one below
it. -/
def foldFind (gap : List Fold) (lnum : Int) : Result (Nat × Bool) :=
  if gap.isEmpty then .ok (0, false) else findLoop gap lnum 0 (gap.length - 1)

-- == removing

/-- `fold_split`: cut lines `top` to `bot` out of fold `i`. Nested folds
below them move to the new fold behind it. -/
def foldSplit (gap : List Fold) (i : Nat) (top bot : Int) :
    Result (List Fold) := do
  let fp ← index gap i
  let newTop := bot + 1
  let delta := newTop - fp.top
  let (idx, _) ← foldFind fp.nested delta
  let moved := (fp.nested.drop idx).map fun f =>
    { f with top := (f.top - delta).toNat }
  return gap.take i ++
    { fp with
      len := (top - fp.top).toNat
      nested := fp.nested.take idx
      small := .none } ::
    { fp with
      top := newTop.toNat
      len := (fp.len - delta).toNat
      nested := moved
      small := .none } :: gap.drop (i + 1)

/-- `fold_remove`, once around its loop: nothing to do, or another fold. -/
def removeLoop : Nat → List Fold → Int → Int → Result (List Fold)
  | 0, _, _, _ => .error .diverges
  | fuel + 1, gap, top, bot =>
      if bot < top ∨ gap.isEmpty then .ok gap
      else do
        -- find fold that includes top or a following one
        let (i, found) ← foldFind gap top
        match gap[i]? with
        | none => if found then .error .outOfBounds else return gap
        | some fp =>
            let last : Int := fp.top + fp.len - 1
            if found ∧ fp.top < top then
              -- 2 or 3: need to delete nested folds
              let nested ←
                removeLoop fuel fp.nested (top - fp.top) (bot - fp.top)
              let fp := { fp with nested }
              if last > bot then
                removeLoop fuel (← foldSplit (gap.set i fp) i top bot) top bot
              else
                let fp := { fp with len := (top - fp.top).toNat }
                removeLoop fuel (gap.set i fp) top bot
            -- 6
            else if fp.top > bot then return gap
            else if fp.top ≥ top then
              -- 5: make fold that includes bot start below bot
              if last > bot then
                return gap.set i
                  { fp with
                    top := (bot + 1).toNat
                    len := (fp.len - (bot - fp.top + 1)).toNat
                    nested := foldMarkAdjustRecurse 0 (bot - fp.top) MAXLNUM
                      (fp.top - bot - 1) false fp.nested }
              -- 4: delete completely contained fold
              else removeLoop fuel (gap.eraseIdx i) top bot
            else return gap

/-- More rounds than `fold_remove` ever needs. -/
def removeBound : List Fold → Nat
  | [] => 2
  | ⟨_, _, nested, _, _⟩ :: rest => removeBound nested + removeBound rest + 1

/-- `fold_remove`: remove folds within `top` to `bot`. -/
def foldRemove (gap : List Fold) (top bot : Int) : Result (List Fold) :=
  removeLoop (removeBound gap) gap top bot

-- == merging

/-- The end of `fold_merge`: `fp2` is taken over into `fp1`. -/
def takeOver (fp1 fp2 : Fold) : Fold :=
  { fp1 with
    nested := fp1.nested ++
      fp2.nested.map fun f => { f with top := f.top + fp1.len }
    len := fp1.len + fp2.len }

theorem sizeOf_nested_lt {fp f : Fold} {i : Nat}
    (h : fp.nested[i]? = some f) : sizeOf f < sizeOf fp := by
  have hmem := List.sizeOf_lt_of_mem (List.mem_of_getElem? h)
  obtain ⟨top, len, nested, flags, small⟩ := fp
  rw [Fold.mk.sizeOf_spec]
  exact Nat.lt_of_lt_of_le hmem (by dsimp only; omega)

/-- `fold_merge`, with both folds at hand. -/
def mergeFolds (fp1 fp2 : Fold) : Result Fold := do
  let (i3, found3) ← foldFind fp1.nested (fp1.len - 1)
  let (i4, found4) ← foldFind fp2.nested 0
  if found3 ∧ found4 then
    -- nested folds that touch are merged
    match _ : fp1.nested[i3]?, fp2.nested[i4]? with
    | some fp3, some child =>
        let fp3 ← mergeFolds fp3 child
        return takeOver { fp1 with nested := fp1.nested.set i3 fp3 }
          { fp2 with nested := fp2.nested.eraseIdx i4 }
    | _, _ => .error .outOfBounds
  else return takeOver fp1 fp2
termination_by sizeOf fp1
decreasing_by exact sizeOf_nested_lt ‹_›

/-- `fold_merge`: `i2` goes into `i1`, which ends just above it. -/
def foldMerge (gap : List Fold) (i1 i2 : Nat) : Result (List Fold) := do
  let fp2 ← index gap i2
  let gap := gap.eraseIdx i2
  let fp1 ← index gap i1
  return gap.set i1 (← mergeFolds fp1 fp2)

-- == closed

def isSmall (fold : Fold) (foldminlines : Nat) : Bool :=
  fold.len ≤ foldminlines

/-- `check_closed`, with `use_level` as it is behind it. -/
def checkClosed (fold : Fold) (useLevel : Bool) (level foldlevel : Int)
    (foldminlines : Nat) : Bool × Bool :=
  let useLevel := useLevel || fold.flags == .level
  let closed :=
    if useLevel then decide (level ≥ foldlevel) else fold.flags == .closed
  (closed && !isSmall fold foldminlines, useLevel)

def collectClosed (foldlevel : Int) (foldminlines : Nat) :
    List Fold → Int → Nat → Bool → List (Nat × Nat)
  | [], _, _, _ => []
  | ⟨top, len, nested, flags, small⟩ :: rest, level, off, useLevel =>
      let absTop := off + top
      let (closed, ul) := checkClosed ⟨top, len, nested, flags, small⟩ useLevel
        level foldlevel foldminlines
      (if closed then [(absTop, absTop + (len - 1))]
        else collectClosed foldlevel foldminlines nested (level + 1) absTop
          ul) ++
        collectClosed foldlevel foldminlines rest level off useLevel

/-- The closed folds, as lines from and to. -/
def closedRanges (gap : List Fold) (foldlevel : Int) (foldminlines : Nat) :
    List (Nat × Nat) :=
  collectClosed foldlevel foldminlines gap 0 0 false

-- == lines

/-- How many folds a line is in. -/
def depth : List Fold → Int → Nat
  | [], _ => 0
  | ⟨top, len, nested, _, _⟩ :: rest, line =>
      (if top ≤ line ∧ line < top + len then depth nested (line - top) + 1
        else 0) + depth rest line

/-- Siblings sorted and apart, nested folds inside their parent, and no fold
without a line. -/
def WellFormed : List Fold → Prop
  | [] => True
  | ⟨top, len, nested, _, _⟩ :: rest =>
      0 < len ∧ (∀ f ∈ nested, f.stop ≤ len) ∧ WellFormed nested ∧
        (∀ f ∈ rest, top + len ≤ f.top) ∧ WellFormed rest

/-- The line is in a fold that is closed, however deep. -/
def Hidden (foldlevel : Int) (foldminlines : Nat) :
    List Fold → Int → Bool → Int → Prop
  | [], _, _, _ => False
  | ⟨top, len, nested, flags, small⟩ :: rest, level, useLevel, line =>
      let (closed, ul) := checkClosed ⟨top, len, nested, flags, small⟩ useLevel
        level foldlevel foldminlines
      (closed = true ∧ top ≤ line ∧ line < top + len) ∨
        Hidden foldlevel foldminlines nested (level + 1) ul (line - top) ∨
        Hidden foldlevel foldminlines rest level useLevel line

/-- A fold starts at the line. -/
def Starts : List Fold → Int → Prop
  | [], _ => False
  | ⟨top, _, nested, _, _⟩ :: rest, line =>
      line = top ∨ Starts nested (line - top) ∨ Starts rest line

/-- A nested fold starts at the line. -/
def NestedStarts (folds : List Fold) (line : Int) : Prop :=
  ∃ f ∈ folds, Starts f.nested (line - f.top)

attribute [grind =] removeLoop

end Zmax.FoldTree
