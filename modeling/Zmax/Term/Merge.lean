/-
zmax-term/src/ui/merge.rs: conflict markers, read out of a text and written
back; two texts side by side, row by row, and what comes of it where each
block of changed rows takes one side; a three-way merge, from the alignments
of the base with either side. The keys that 'diffopt' compares lines by are
in zmax-term/src/commands/typed.rs.

How lists of lines are compared is `imara_diff`'s, a parameter, and so are
the hunks of 'diffexpr' and the lower case of a line. Line numbers are
`u32` in the source. The ranges that `unifiedDiff` cuts the rows at are in
bounds by how they are made, so that cutting is `take` and `drop` here.

Lines of the base that are unchanged in both sides are stable. The sweep of
the three-way merge goes from one to the next and resolves what lies between
them.
-/
import Zmax.Core.Text
import Zmax.Lib.Hunks

namespace Zmax.DiffView

open Hunks Text

/-- One line of a text, without its newline. -/
abbrev Line := List Char

/-- `strip_suffix(c).unwrap_or(l)` -/
def stripSuffix (c : Char) (l : Line) : Line :=
  if l.getLast? = some c then l.dropLast else l

/-- `imara_diff::sources::lines`: each line with its newline, and no line
behind the last newline. -/
def sourceLines (text : Rope) : List Line :=
  let pieces := text.splitOn '\n'
  pieces.dropLast.map (· ++ ['\n']) ++ pieces.getLast?.toList.filter (· ≠ [])

def splitLines (text : Rope) : List Line :=
  ((sourceLines text).map (stripSuffix '\n')).map (stripSuffix '\r')

-- == resolutions

inductive Resolution where
  | left
  | right
  | both
  | none
  deriving DecidableEq, Repr

/-- A contiguous run of changed rows together with its chosen
resolution. -/
structure Block where
  start : Nat
  stop : Nat
  resolution : Resolution
  deriving DecidableEq, Repr

inductive Segment where
  | context (lines : List Line)
  | conflict (ours base theirs : List Line)
  deriving DecidableEq, Repr

-- == parsing

def OURS : Line := "<<<<<<<".toList
def BASE : Line := "|||||||".toList
def SPLIT : Line := "=======".toList
def THEIRS : Line := ">>>>>>>".toList

def startsWithAny (markers : List Line) (l : Line) : Bool :=
  markers.any (startsWith l)

/-- The lines up to one that starts with a marker, and the others. -/
def upTo (markers : List Line) (lines : List Line) :
    List Line × List Line :=
  (lines.takeWhile (!startsWithAny markers ·),
    lines.dropWhile (!startsWithAny markers ·))

/-- The section behind a marker, where the next line starts with it. -/
def behind (marker : Line) (markers : List Line) :
    List Line → List Line × List Line
  | [] => ([], [])
  | l :: lines =>
      if startsWith l marker then upTo markers lines else ([], l :: lines)

/-- The closing marker is skipped. -/
def closing : List Line → List Line
  | [] => []
  | l :: lines => if startsWith l THEIRS then lines else l :: lines

/-- A conflict behind its first marker, and the lines behind it. -/
def parseConflict (lines : List Line) : Segment × List Line :=
  let (ours, lines) := upTo [BASE, SPLIT, THEIRS] lines
  let (base, lines) := behind BASE [SPLIT, THEIRS] lines
  let (theirs, lines) := behind SPLIT [THEIRS] lines
  (.conflict ours base theirs, closing lines)

/-- The pending context, unless there is none. -/
def flush (context : List Line) : List Segment :=
  if context.isEmpty then [] else [.context context]

theorem length_upTo_le (markers lines : List Line) :
    (upTo markers lines).2.length ≤ lines.length :=
  (List.dropWhile_suffix _).length_le

theorem length_behindle (marker : Line) (markers lines : List Line) :
    (behind marker markers lines).2.length ≤ lines.length := by
  cases lines with
  | nil => exact Nat.le_refl _
  | cons l lines =>
      rw [behind]
      by_cases hl : startsWith l marker
      · rw [if_pos hl]
        exact Nat.le_succ_of_le (length_upTo_le markers lines)
      · rw [if_neg hl]

theorem length_closing_le (lines : List Line) :
    (closing lines).length ≤ lines.length := by
  cases lines with
  | nil => exact Nat.le_refl _
  | cons l lines =>
      rw [closing]
      by_cases hl : startsWith l THEIRS
      · rw [if_pos hl]
        exact Nat.le_succ _
      · rw [if_neg hl]

theorem length_parseConflict_le (lines : List Line) :
    (parseConflict lines).2.length ≤ lines.length :=
  (length_closing_le _).trans <| (length_behindle _ _ _).trans <|
    (length_behindle _ _ _).trans (length_upTo_le _ _)

/-- The loop of `parse_conflicts`. -/
def parseLines (context : List Line) : List Line → List Segment
  | [] => flush context
  | l :: lines =>
      if startsWith l OURS then
        flush context ++ (parseConflict lines).1
          :: parseLines [] (parseConflict lines).2
      else parseLines (context ++ [l]) lines
  termination_by lines => lines.length
  decreasing_by
    · exact Nat.lt_succ_of_le (length_parseConflict_le lines)
    · exact Nat.lt_succ_self _

def parseConflicts (text : Rope) : Option (List Segment) :=
  let lines := splitLines text
  if lines.any (startsWith · OURS) then some (parseLines [] lines)
  else none

-- == writing

def emit (lines : List Line) : Rope := lines.flatMap (· ++ ['\n'])

/-- What a conflict is written as. -/
def emitConflict (ours base theirs : List Line) : Resolution → Rope
  | .left => emit ours
  | .right => emit theirs
  | .both => emit ours ++ emit theirs
  | .none =>
      emit [OURS] ++ emit ours
        ++ (if base.isEmpty then [] else emit [BASE] ++ emit base)
        ++ emit [SPLIT] ++ emit theirs ++ emit [THEIRS]

/-- Conflicts take the blocks in order, and are left as they are where
there is none. -/
def conflictResultText : List Segment → List Block → Rope
  | [], _ => []
  | .context lines :: segments, blocks =>
      emit lines ++ conflictResultText segments blocks
  | .conflict ours base theirs :: segments, blocks =>
      emitConflict ours base theirs
          ((blocks.head?.map Block.resolution).getD .none)
        ++ conflictResultText segments blocks.tail

inductive RowKind where
  | unchanged
  | added
  | removed
  | changed
  deriving DecidableEq, Repr

/-- One aligned row: a line of either text, or a blank. -/
structure DiffRow where
  left : Option Nat
  right : Option Nat
  kind : RowKind
  deriving DecidableEq, Repr

/-- What a comparison depends on, besides the texts. -/
structure Settings where
  /-- `diffexpr_hunks` -/
  diffexpr : Rope → Rope → Option (List Hunk)
  diffopt : Option Rope
  /-- `to_lowercase` -/
  toLowercase : Line → Line
  imara : Differ Line

-- == diffopt keys

def IWHITE : Line := "iwhite".toList
def IWHITEALL : Line := "iwhiteall".toList
def IWHITEEOL : Line := "iwhiteeol".toList
def ICASE : Line := "icase".toList

attribute [grind =] parseLines conflictResultText

namespace Settings

variable (self : Settings)

def diffoptLineKey (line : Line) (flags : List Line) : Line :=
  let key :=
    if flags.contains IWHITEALL then line.filter (!isWhitespace ·)
    else if flags.contains IWHITE then [' '].intercalate (splitWhitespace line)
    else if flags.contains IWHITEEOL then trimEnd line
    else line
  if flags.contains ICASE then self.toLowercase key else key

def diffoptNormalize (text : Rope) : Rope :=
  match self.diffopt with
  | none => text
  | some opt =>
      let flags := (opt.splitOn ',').map trim
      if flags.any ([IWHITE, IWHITEALL, IWHITEEOL, ICASE].contains ·) then
        let keys := (Text.lines text).map (self.diffoptLineKey · flags)
        ['\n'].intercalate keys ++ if endsWith text ['\n'] then ['\n'] else []
      else text

-- == alignment

/-- Rows that pair lines from `b` and `d` on. -/
def pairs (kind : RowKind) (b d n : Nat) : List DiffRow :=
  (List.range n).map fun i => ⟨some (b + i), some (d + i), kind⟩

/-- The longer side of a hunk, below what is paired. -/
def spill (b d : Nat) (h : Hunk) : List DiffRow :=
  (List.range (h.before.stop - b)).map
      (fun i => ⟨some (b + i), none, .removed⟩)
    ++ (List.range (h.after.stop - d)).map
      fun i => ⟨none, some (d + i), .added⟩

/-- How many lines of a hunk are paired. -/
def common (h : Hunk) : Nat := min h.before.len h.after.len

/-- The rows from the lines `b` and `d` on. -/
def alignFrom (nBase nDoc : Nat) : List Hunk → (b d : Nat) → List DiffRow
  | [], b, d => pairs .unchanged b d (min (nBase - b) (nDoc - d))
  | h :: hunks, b, d =>
      let kept := h.before.start - b
      let b' := b + kept + common h
      let d' := d + kept + common h
      pairs .unchanged b d kept
        ++ pairs .changed (b + kept) (d + kept) (common h)
        ++ spill b' d' h
        ++ alignFrom nBase nDoc hunks (max b' h.before.stop)
          (max d' h.after.stop)

def hunks (base doc : Rope) : List Hunk :=
  match self.diffexpr base doc with
  | some hunks => hunks
  | none =>
      self.imara (sourceLines (self.diffoptNormalize base))
        (sourceLines (self.diffoptNormalize doc))

def align (base doc : Rope) : List DiffRow :=
  alignFrom (splitLines base).length (splitLines doc).length
    (self.hunks base doc) 0 0

attribute [grind =] alignFrom

end Settings

-- == results

def DiffRow.isChange (row : DiffRow) : Bool := row.kind ≠ .unchanged

/-- The line of a text that a row has. -/
def lineOf (lines : List Line) (i : Option Nat) : Option Line :=
  i.bind (lines[·]?)

/-- The rows at which a run of changed rows begins, from a row on. -/
def changeBlocksFrom (i : Nat) (prevChanged : Bool) :
    List DiffRow → List Nat
  | [] => []
  | row :: rows =>
      (if row.isChange && !prevChanged then [i] else [])
        ++ changeBlocksFrom (i + 1) row.isChange rows

def changeBlocks (rows : List DiffRow) : List Nat :=
  changeBlocksFrom 0 false rows

/-- The change blocks, each resolved to the right. -/
def computeBlocks (rows : List DiffRow) : List Block :=
  (changeBlocks rows).map fun start =>
    let stop := start
      + ((rows.drop start).takeWhile DiffRow.isChange).length
    ⟨start, stop, .right⟩

/-- `row_res[i] = Some(resolution)` -/
def assign (resolution : Resolution) (rowRes : List (Option Resolution))
    (i : Nat) : Result (List (Option Resolution)) :=
  if i < rowRes.length then .ok (rowRes.set i (some resolution))
  else .error .outOfBounds

def assignBlock (rowRes : List (Option Resolution)) (block : Block) :
    Result (List (Option Resolution)) :=
  (List.range' block.start (block.stop - block.start)).foldlM
    (assign block.resolution) rowRes

/-- The line that a row gives to the result. -/
def rowLine (baseLines docLines : List Line) (row : DiffRow) :
    Option Resolution → Option Line
  | none =>
      (lineOf docLines row.right).or (lineOf baseLines row.left)
  | some .left => lineOf baseLines row.left
  | some _ => lineOf docLines row.right

def resultText (rows : List DiffRow) (blocks : List Block)
    (baseLines docLines : List Line) : Result Rope := do
  let rowRes ← blocks.foldlM assignBlock (rows.map fun _ => none)
  return emit ((rows.zip rowRes).filterMap fun p =>
    rowLine baseLines docLines p.1 p.2)

-- == unified diffs

def CONTEXT : Nat := 3

/-- The last change of a hunk that has a change, and the changes behind
it. -/
def lastChange (last : Nat) : List Nat → Nat × List Nat
  | [] => (last, [])
  | c :: changed =>
      if c ≤ last + 2 * CONTEXT + 1 then lastChange c changed
      else (last, c :: changed)

/-- Where a side begins, for the header of the hunk from `start` up to
`stop`. -/
def first (rows : List DiffRow) (start stop : Nat)
    (pick : DiffRow → Option Nat) : Nat :=
  ((((rows.take stop).drop start).findSome? pick).or
    (((rows.take start).reverse.findSome? pick).map (· + 1))).getD 0

def decimal (n : Nat) : List Char := Nat.toDigits 10 n

/-- One range of a header. -/
def headerRange (start count : Nat) : List Char :=
  decimal (if count = 0 then start else start + 1) ++ [','] ++ decimal count

/-- The lines of a hunk: within a run of changed rows, the removed lines
come before the added. -/
def hunkBody (left right : List Line) : List DiffRow → List Line
  | [] => []
  | row :: rows =>
      if row.isChange then
        let run := row :: rows.takeWhile DiffRow.isChange
        run.filterMap (fun row => (lineOf left row.left).map ('-' :: ·))
          ++ run.filterMap (fun row => (lineOf right row.right).map ('+' :: ·))
          ++ hunkBody left right (rows.dropWhile DiffRow.isChange)
      else
        ((lineOf right row.right).map (' ' :: ·)).toList
          ++ hunkBody left right rows
  termination_by rows => rows.length
  decreasing_by
    · exact Nat.lt_succ_of_le (List.dropWhile_suffix _).length_le
    · exact Nat.lt_succ_self _

/-- The lines of the hunk of the rows from `start` up to `stop`. -/
def hunkLines (rows : List DiffRow) (left right : List Line)
    (start stop : Nat) : List Line :=
  let hunk := (rows.take stop).drop start
  let header := "@@ -".toList
    ++ headerRange (first rows start stop DiffRow.left)
      (hunk.filter (·.left.isSome)).length
    ++ " +".toList
    ++ headerRange (first rows start stop DiffRow.right)
      (hunk.filter (·.right.isSome)).length
    ++ " @@".toList
  header :: hunkBody left right hunk

attribute [grind =] changeBlocksFrom lastChange

theorem length_lastChange_le (last : Nat) (changed : List Nat) :
    (lastChange last changed).2.length ≤ changed.length := by
  induction changed generalizing last with
  | nil => exact Nat.le_refl _
  | cons c changed ih =>
      rw [lastChange]
      by_cases hc : c ≤ last + 2 * CONTEXT + 1
      · rw [if_pos hc]
        exact Nat.le_succ_of_le (ih c)
      · rw [if_neg hc]

/-- The hunks of the changed rows. -/
def hunksFrom (rows : List DiffRow) (left right : List Line) :
    List Nat → List Line
  | [] => []
  | c :: changed =>
      let last := (lastChange c changed).1
      hunkLines rows left right (c - CONTEXT)
          (min (last + CONTEXT + 1) rows.length)
        ++ hunksFrom rows left right (lastChange c changed).2
  termination_by changed => changed.length
  decreasing_by exact Nat.lt_succ_of_le (length_lastChange_le _ _)

def unifiedDiff (name : Line) (rows : List DiffRow)
    (left right : List Line) : Rope :=
  let changed := (List.range rows.length).filter fun i =>
    rows[i]?.any DiffRow.isChange
  emit (("--- a/".toList ++ name) :: ("+++ b/".toList ++ name)
    :: hunksFrom rows left right changed)

-- == matches

/-- `map[b] = Some(o)`, for an unchanged row -/
def recordRow (map : List (Option Nat)) (row : DiffRow) :
    Result (List (Option Nat)) :=
  if row.kind = .unchanged then
    match row.left, row.right with
    | some b, some o =>
        if b < map.length then .ok (map.set b (some o))
        else .error .outOfBounds
    | _, _ => .ok map
  else .ok map

/-- For each line of `base`, the line of `other` that it is unchanged in. -/
def Settings.baseMatchMap (s : Settings) (base other : Rope) :
    Result (List (Option Nat)) :=
  (s.align base other).foldlM recordRow
    (List.replicate (splitLines base).length none)

-- == regions

/-- The segments so far, and the context behind them. -/
structure Merging where
  segments : List Segment
  ctx : List Line
  deriving DecidableEq, Repr

/-- The segments with the context as one of them, unless it is empty. -/
def Merging.flush (m : Merging) : List Segment :=
  m.segments ++ if m.ctx.isEmpty then [] else [.context m.ctx]

def resolveRegion (m : Merging) (ours base theirs : List Line) : Merging :=
  if ours = base then { m with ctx := m.ctx ++ theirs }
  else if theirs = base ∨ ours = theirs then { m with ctx := m.ctx ++ ours }
  else ⟨m.flush ++ [.conflict ours base theirs], []⟩

-- == sweep

/-- How far a merge is in base, ours and theirs. -/
structure Cursor where
  b : Nat
  o : Nat
  t : Nat
  deriving DecidableEq, Repr

def Cursor.next (c : Cursor) : Cursor := ⟨c.b + 1, c.o + 1, c.t + 1⟩

/-- What the sweep reads. -/
structure Sides where
  base : List Line
  ours : List Line
  theirs : List Line
  oursMatch : List (Option Nat)
  theirsMatch : List (Option Nat)

namespace Sides

variable (s : Sides)

/-- The base line is unchanged in both sides, as the lines of a cursor. -/
def StableAt (c : Cursor) : Prop :=
  c.b < s.base.length ∧ s.oursMatch[c.b]? = some (some c.o)
    ∧ s.theirsMatch[c.b]? = some (some c.t)

instance (c : Cursor) : Decidable (s.StableAt c) :=
  inferInstanceAs (Decidable (_ ∧ _ ∧ _))

/-- The run of stable lines that are consecutive on all sides. -/
def stableRun (ctx : List Line) (c : Cursor) : Result (List Line × Cursor) :=
  do
    let line ← index s.base c.b
    if s.StableAt c.next then stableRun (ctx ++ [line]) c.next
    else return (ctx ++ [line], c.next)
  termination_by s.base.length - c.b
  decreasing_by
    have hlt : c.b + 1 < s.base.length := by
      rename_i h
      exact h.1
    simp only [Cursor.next]
    omega

theorem stableRun_lt {ctx : List Line} {c : Cursor}
    {r : List Line × Cursor} (h : s.stableRun ctx c = .ok r) :
    c.b < r.2.b := by
  induction ctx, c using stableRun.induct s with
  | case1 ctx c ih =>
      rw [stableRun] at h
      obtain ⟨line, -, h⟩ := bind_eq_ok.mp h
      by_cases hstable : s.StableAt c.next
      · rw [if_pos hstable] at h
        exact Nat.lt_of_succ_lt (ih line hstable h)
      · rw [if_neg hstable] at h
        cases h
        exact Nat.lt_succ_self _

/-- The merge from the base line `bi` on. -/
def sweep (m : Merging) (c : Cursor) (bi : Nat) : Result (Merging × Cursor) :=
  if bi < s.base.length then
    match s.oursMatch[bi]?, s.theirsMatch[bi]? with
    | some (some oi), some (some ti) => do
        let ours ← slice s.ours c.o oi
        let base ← slice s.base c.b bi
        let theirs ← slice s.theirs c.t ti
        let m := resolveRegion m ours base theirs
        match _hrun : s.stableRun m.ctx ⟨bi, oi, ti⟩ with
        | .error e => .error e
        | .ok r => sweep { m with ctx := r.1 } r.2 r.2.b
    | _, _ => sweep m c (bi + 1)
  else .ok (m, c)
  termination_by s.base.length - bi
  decreasing_by
    · have hlt : bi < r.2.b := s.stableRun_lt _hrun
      omega
    · omega

/-- The region behind the last stable line. -/
def trailing (m : Merging) (c : Cursor) : Result Merging := do
  let ours ← slice s.ours c.o s.ours.length
  let base ← slice s.base c.b s.base.length
  let theirs ← slice s.theirs c.t s.theirs.length
  return resolveRegion m ours base theirs

end Sides

def Settings.diff3 (s : Settings) (base ours theirs : Rope) :
    Result (List Segment) := do
  let sides : Sides := {
    base := splitLines base
    ours := splitLines ours
    theirs := splitLines theirs
    oursMatch := ← s.baseMatchMap base ours
    theirsMatch := ← s.baseMatchMap base theirs }
  let r ← sides.sweep ⟨[], []⟩ ⟨0, 0, 0⟩ 0
  return (← sides.trailing r.1 r.2).flush

end Zmax.DiffView
