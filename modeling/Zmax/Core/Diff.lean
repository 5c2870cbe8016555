/-
zmax-core/src/diff.rs: the transaction from one text to another.

The texts are compared line by line, and a hunk of lines is compared char
by char unless it is one-sided, lopsided or long; then it is replaced as a
whole.

# What is not here

How lists are compared is `imara_diff`'s, a parameter. Interning gives
equal tokens one number and is left out, and so are the capacities and the
timing. Token numbers are `u32` in the source. A hunk so long that five
times its length wraps has more than 200 lines all the same, so that it is
replaced as a whole either way.
-/
import Zmax.Core.Lines
import Zmax.Core.Transaction
import Zmax.Lib.Hunks

namespace Zmax

open Hunks

/-- What `imara_diff` compares, and with which algorithm. -/
structure ImaraDiff where
  /-- `Histogram`, its hunks then moved by the indent heuristic. -/
  lines : Differ Rope
  /-- `Myers` -/
  chars : Differ Char

/-- The lines of a text, each with its ending: ropey's `lines`. -/
def ropeLines (unicodeLines : Bool) (doc : Rope) : List Rope :=
  (List.range (lenLines unicodeLines doc)).map fun i =>
    (Extent.mk (Lines.lineStart (lineBreaks unicodeLines) doc i)
      (Lines.lineStart (lineBreaks unicodeLines) doc (i + 1))).of doc

/-- `map(len_chars).sum()` -/
def lenChars : List Rope → Nat
  | [] => 0
  | line :: lines => line.length + lenChars lines

/-- The hunk is not compared char by char. -/
def isCoarse (lenBefore lenAfter : Nat) : Bool :=
  lenBefore = 0
    || lenAfter = 0
    || lenAfter > 5 * lenBefore
    || (5 * lenAfter < lenBefore && lenBefore > 10)
    || lenBefore + lenAfter > 200

/-- The hunks of chars, from `pos` on. -/
def charHunks (old new : Rope) :
    List Hunk → Nat → ChangeSet → Result ChangeSet
  | [], pos, res => do return res.retain (← checkedSub old.length pos)
  | h :: hunks, pos, res => do
      let gap ← checkedSub h.before.start pos
      let fragment ← slice new h.after.start h.after.stop
      charHunks old new hunks h.before.stop
        (((res.retain gap).delete h.before.len).insert fragment)

structure ChangeSetBuilder where
  res : ChangeSet
  pos : Nat

attribute [grind =] lenChars charHunks

namespace ChangeSetBuilder

variable (unicodeLines : Bool) (imara : ImaraDiff)
  (before after : List Rope) (text : Rope)

/-- Many lines of `text`: cut out of the rope as one. -/
def longFragment (lines : Extent) : Result Tendril :=
  if after.length = lines.stop then
    if lines.start = 0 then .ok text
    else do
      let start ← lineToChar unicodeLines text lines.start
      slice text start text.length
  else if lines.start = 0 then do
    let stop ← lineToChar unicodeLines text lines.stop
    slice text 0 stop
  else do
    let start ← lineToChar unicodeLines text lines.start
    let stop ← lineToChar unicodeLines text lines.stop
    slice text start stop

def fragment (lines : Extent) : Result Tendril :=
  if lines.len > 500 then longFragment unicodeLines after text lines
  else do return (← slice after lines.start lines.stop).flatten

def processHunk (self : ChangeSetBuilder) (h : Hunk) :
    Result ChangeSetBuilder := do
  let kept ← slice before self.pos h.before.start
  let res := self.res.retain (lenChars kept)
  let lenBefore ← checkedSub h.before.stop h.before.start
  let lenAfter ← checkedSub h.after.stop h.after.start
  let old ← slice before h.before.start h.before.stop
  if isCoarse lenBefore lenAfter then
    let new ← fragment unicodeLines after text h.after
    return ⟨(res.delete (lenChars old)).insert new, h.before.stop⟩
  else
    let new ← slice after h.after.start h.after.stop
    let hunks := imara.chars old.flatten new.flatten
    return ⟨← charHunks old.flatten new.flatten hunks 0 res, h.before.stop⟩

def finish (self : ChangeSetBuilder) : Result ChangeSet := do
  let kept ← slice before self.pos before.length
  return self.res.retain (lenChars kept)

end ChangeSetBuilder

/-- `compare_ropes`: the steps required to get from `before` to
`after`. -/
def compareRopes (unicodeLines : Bool) (imara : ImaraDiff)
    (before after : Rope) : Result Transaction := do
  let old := ropeLines unicodeLines before
  let new := ropeLines unicodeLines after
  let builder ← (imara.lines old new).foldlM
    (ChangeSetBuilder.processHunk unicodeLines imara old new after)
    ⟨.withCapacity, 0⟩
  return .ofChanges (← builder.finish old)

end Zmax
