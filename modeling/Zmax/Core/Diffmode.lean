/-
zmax-core/src/diffmode.rs: parsing a unified diff, and applying its hunks to
a file.

The loops of this file go over a diff's lines and take a `--- ` line and a
`+++ ` line below it together; `items` does that for all of them.
-/
import Zmax.Core.Merge
import Zmax.Core.Text

namespace Zmax.Diffmode

open Text Merge

/-- What a line of a diff is. -/
inductive LineKind where
  | context
  | added
  | removed
  | header
  | fileHeader
  | hunkHeader
  deriving DecidableEq, Repr

structure DiffLine where
  kind : LineKind
  text : Line
  deriving DecidableEq, Repr

structure Hunk where
  oldStart : Nat
  oldLen : Nat
  newStart : Nat
  newLen : Nat
  header : Line
  lines : List DiffLine
  deriving DecidableEq, Repr

structure FileDiff where
  oldPath : List Char
  newPath : List Char
  hunks : List Hunk
  deriving DecidableEq, Repr

structure Diff where
  files : List FileDiff
  deriving DecidableEq, Repr

-- == lines

/-- `to_lines`: the lines of a text, and whether it ends with a newline. -/
def toLines (text : Rope) : List Line × Bool :=
  (lines text, text.getLast? = some '\n')

/-- `from_lines` -/
def fromLines (lines : List Line) (trailingNl : Bool) : Rope :=
  if lines = [] then []
  else joinLines lines ++ if trailingNl then ['\n'] else []

/-- A header pair, what follows `--- ` and `+++ `, or another line. -/
inductive Item where
  | pair (old new : List Char)
  | line (l : Line)
  deriving DecidableEq, Repr

/-- Lines, with header pairs taken together. -/
def items : List Line → List Item
  | [] => []
  | [l] => [.line l]
  | l :: next :: rest =>
      match stripPrefix l "--- ".toList, stripPrefix next "+++ ".toList with
      | some old, some new => .pair old new :: items rest
      | _, _ => .line l :: items (next :: rest)

-- == parsing

/-- `clean_path` -/
def cleanPath (raw : List Char) : List Char :=
  let path := trim (raw.takeWhile (· ≠ '\t'))
  ((stripPrefix path "a/".toList).or (stripPrefix path "b/".toList)).getD path

/-- `parse_range` -/
def parseRange (s : List Char) : Nat × Nat :=
  let it := s.splitOn ','
  ((it[0]?.bind parseUsize).getD 0, (it[1]?.bind parseUsize).getD 1)

/-- A word of a hunk's header. -/
def readWord (ranges : (Nat × Nat) × (Nat × Nat)) (tok : List Char) :
    (Nat × Nat) × (Nat × Nat) :=
  match stripPrefix tok ['-'], stripPrefix tok ['+'] with
  | some r, _ => (parseRange r, ranges.2)
  | none, some r => (ranges.1, parseRange r)
  | none, none => ranges

/-- `line.split("@@").nth(1)`, nothing if there is none. -/
def innerHeader (line : Line) : List Char :=
  match breakAt "@@".toList line with
  | none => []
  | some (_, rest) =>
      match breakAt "@@".toList rest with
      | none => rest
      | some (inner, _) => inner

/-- `parse_hunk_header`: the range in the old file, and that in the new. -/
def parseHunkHeader (line : Line) : (Nat × Nat) × (Nat × Nat) :=
  (splitWhitespace (trim (innerHeader line))).foldl readWord ((0, 1), (0, 1))

/-- `classify_body` -/
def classifyBody (line : Line) : LineKind :=
  match line with
  | '+' :: _ => .added
  | '-' :: _ => .removed
  | _ => .context

/-- What `parse` has got so far. -/
structure Parser where
  files : List FileDiff
  file : Option FileDiff
  hunk : Option Hunk
  deriving DecidableEq, Repr

/-- Put the hunk in progress into the current file. -/
def Parser.flushHunk (s : Parser) : Parser :=
  match s.file, s.hunk with
  | some f, some h =>
      { s with file := some { f with hunks := f.hunks ++ [h] }, hunk := none }
  | _, _ => { s with hunk := none }

/-- Put the current file into the list. -/
def Parser.flushFile (s : Parser) : Parser :=
  match s.file with
  | some f => { s with files := s.files ++ [f], file := none }
  | none => s

/-- A header pair. -/
def Parser.pair (s : Parser) (old new : List Char) : Parser :=
  let old := cleanPath old
  let new := cleanPath new
  let s := s.flushHunk
  match s.file with
  | some f =>
      -- freshly opened by a `diff --git` banner
      if f.hunks = [] then
        { s with file := some { f with oldPath := old, newPath := new } }
      else { s.flushFile with file := some ⟨old, new, []⟩ }
  | none => { s.flushFile with file := some ⟨old, new, []⟩ }

/-- Any other line. -/
def Parser.line (s : Parser) (l : Line) : Parser :=
  match stripPrefix l "diff --git ".toList with
  | some rest =>
      -- fallback paths from the banner
      let parts := splitWhitespace rest
      let old := (parts[0]?.map cleanPath).getD []
      let new := (parts[1]?.map cleanPath).getD old
      { s.flushHunk.flushFile with file := some ⟨old, new, []⟩ }
  | none =>
      if startsWith l "@@".toList then
        let s := s.flushHunk
        let (old, new) := parseHunkHeader l
        { s with
          file := some (s.file.getD ⟨[], [], []⟩)
          hunk := some ⟨old.1, old.2, new.1, new.2, l, []⟩ }
      else
        { s with
          hunk := s.hunk.map fun h =>
            { h with lines := h.lines ++ [⟨classifyBody l, l⟩] } }

def Parser.item (s : Parser) : Item → Parser
  | .pair old new => s.pair old new
  | .line l => s.line l

def parse (diff : Rope) : Diff :=
  let s := (items (lines diff)).foldl Parser.item ⟨[], none, none⟩
  ⟨s.flushHunk.flushFile.files⟩

-- == applying

/-- `is_no_newline_marker` -/
def isNoNewlineMarker (line : Line) : Bool := startsWith line ['\\']

/-- `text.get(1..).unwrap_or("")`: empty if the first char is no byte. -/
def content (text : Line) : Line :=
  match text with
  | c :: rest => if c.utf8Size = 1 then rest else []
  | [] => []

/-- The lines a hunk is to replace. -/
def oldImg (ls : List DiffLine) : List Line :=
  ls.flatMap fun dl =>
    if isNoNewlineMarker dl.text then []
    else match dl.kind with
      | .context => [content dl.text]
      | .removed => [content dl.text]
      | _ => []

/-- The lines in their place. -/
def newImg (ls : List DiffLine) : List Line :=
  ls.flatMap fun dl =>
    if isNoNewlineMarker dl.text then []
    else match dl.kind with
      | .context => [content dl.text]
      | .added => [content dl.text]
      | _ => []

def matchesAt (lines old : List Line) (p : Nat) : Bool :=
  p + old.length ≤ lines.length ∧ (lines.drop p).take old.length = old

/-- `splice` -/
def splice (lines : List Line) (pos len : Nat) (new : List Line) : List Line :=
  lines.take pos ++ new ++ lines.drop (pos + len)

/-- `apply_hunk`: the old image is looked for where the header says, and
else everywhere. -/
def applyHunk (target : Rope) (hunk : Hunk) : Except String Rope :=
  let (tlines, nl) := toLines target
  let old := oldImg hunk.lines
  let new := newImg hunk.lines
  if old = [] then
    .ok (fromLines (splice tlines (min hunk.oldStart tlines.length) 0 new) nl)
  else
    let want := hunk.oldStart - 1
    let pos :=
      if matchesAt tlines old want then some want
      else (List.range (tlines.length - old.length + 1)).find?
        (matchesAt tlines old)
    match pos with
    | some pos => .ok (fromLines (splice tlines pos old.length new) nl)
    | none => .error "hunk does not apply (context mismatch)"

/-- The hunks of a file from the last to the first. -/
def applyHunks (target : Rope) : List Hunk → Except String Rope
  | [] => .ok target
  | hunk :: hunks => do applyHunk (← applyHunks target hunks) hunk

/-- `apply_file_diff` -/
def applyFileDiff (target : Rope) (file : FileDiff) : Except String Rope :=
  applyHunks target file.hunks

attribute [grind =] items readWord applyHunks

end Zmax.Diffmode
