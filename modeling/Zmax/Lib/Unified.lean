/-
Unified diffs: what they say of two files, and how they are written.

A `Patch` holds all lines of both files, those between its hunks too, so
that the files are functions of it (`old`, `new`) and so are the positions
in its headers. The text is a function of it as well; where writers differ,
in what a header may leave out or what stands around the hunks, there is a
field for it.
-/
import Mathlib.Data.List.Basic

namespace Unified

/-- A line of a file. Only the last one may be without its newline. -/
structure Line where
  text : List Char
  newline : Bool
  deriving DecidableEq, Repr

/-- A line in a hunk's body. -/
inductive Entry where
  /-- An empty one may be written without the space in front. -/
  | context (line : Line) (bare : Bool)
  | delete (line : Line)
  | insert (line : Line)
  deriving DecidableEq, Repr

/-- Lines in front of a hunk. -/
inductive Head where
  /-- `diff --git`, `index`, `Index:` and so on. -/
  | chrome (text : List Char)
  | files (old new : List Char)
  deriving DecidableEq, Repr

structure Hunk where
  head : List Head
  /-- The unchanged lines since the hunk before. -/
  kept : List Line
  body : List Entry
  /-- A length of one is left out of the range. -/
  terseOld : Bool
  terseNew : Bool
  /-- What follows the ranges in the header. -/
  heading : List Char
  deriving DecidableEq, Repr

structure Patch where
  hunks : List Hunk
  /-- The unchanged lines behind the last hunk. -/
  kept : List Line
  deriving DecidableEq, Repr

-- == files

@[simp] def Entry.old : Entry → List Line
  | .context line _ => [line]
  | .delete line => [line]
  | .insert _ => []

@[simp] def Entry.new : Entry → List Line
  | .context line _ => [line]
  | .delete _ => []
  | .insert line => [line]

def oldSide (body : List Entry) : List Line := body.flatMap Entry.old

def newSide (body : List Entry) : List Line := body.flatMap Entry.new

/-- Lines without their newlines. -/
def texts (lines : List Line) : List (List Char) := lines.map Line.text

/-- The lines of the old file from some hunk on. -/
def oldFrom (kept : List Line) : List Hunk → List Line
  | [] => kept
  | h :: hs => h.kept ++ oldSide h.body ++ oldFrom kept hs

/-- The lines of the new file from some hunk on. -/
def newFrom (kept : List Line) : List Hunk → List Line
  | [] => kept
  | h :: hs => h.kept ++ newSide h.body ++ newFrom kept hs

/-- The file a patch is from. -/
def Patch.old (p : Patch) : List Line := oldFrom p.kept p.hunks

/-- The file a patch leads to. -/
def Patch.new (p : Patch) : List Line := newFrom p.kept p.hunks

-- == the text

def marker : List Char := "\\ No newline at end of file".toList

/-- What is written below a line. -/
def Line.note (line : Line) : List (List Char) :=
  if line.newline then [] else [marker]

def Entry.written : Entry → List (List Char)
  | .context line bare =>
      (if bare ∧ line.text = [] then [] else ' ' :: line.text) :: line.note
  | .delete line => ('-' :: line.text) :: line.note
  | .insert line => ('+' :: line.text) :: line.note

def Head.written : Head → List (List Char)
  | .chrome text => [text]
  | .files old new => ["--- ".toList ++ old, "+++ ".toList ++ new]

/-- The number of a side's first line in a header: the number of the line
in front if the side is empty. -/
def start (before len : Nat) : Nat := if len = 0 then before else before + 1

def range (terse : Bool) (before len : Nat) : List Char :=
  Nat.toDigits 10 (start before len) ++
    if terse ∧ len = 1 then [] else ',' :: Nat.toDigits 10 len

/-- A hunk's header, with so many lines before it in the two files. -/
def Hunk.header (h : Hunk) (o n : Nat) : List Char :=
  "@@ -".toList ++ range h.terseOld o (oldSide h.body).length ++
    " +".toList ++ range h.terseNew n (newSide h.body).length ++
    " @@".toList ++ h.heading

attribute [grind =] oldFrom newFrom

-- The equation Lean derives from the definition evaluates the literals.
theorem Hunk.header_def (h : Hunk) (o n : Nat) :
    h.header o n =
      "@@ -".toList ++ range h.terseOld o (oldSide h.body).length ++
        " +".toList ++ range h.terseNew n (newSide h.body).length ++
        " @@".toList ++ h.heading := rfl

/-- The lines of the diff from some hunk on. -/
def writtenFrom (o n : Nat) : List Hunk → List (List Char)
  | [] => []
  | h :: hs =>
      h.head.flatMap Head.written ++
        h.header (o + h.kept.length) (n + h.kept.length) ::
        h.body.flatMap Entry.written ++
        writtenFrom (o + h.kept.length + (oldSide h.body).length)
          (n + h.kept.length + (newSide h.body).length) hs

/-- The lines of the diff. -/
def Patch.lines (p : Patch) : List (List Char) := writtenFrom 0 0 p.hunks

/-- Lines with their newlines. -/
def unlines (lines : List (List Char)) : List Char :=
  lines.flatMap (· ++ ['\n'])

/-- The diff. -/
def Patch.written (p : Patch) : List Char := unlines p.lines

-- == well formed

@[simp] def Entry.line : Entry → Line
  | .context line _ => line
  | .delete line => line
  | .insert line => line

/-- Two lines in a row that could be file headers. -/
def LooksLikeFiles (lines : List (List Char)) : Prop :=
  ∃ old new, ["--- ".toList ++ old, "+++ ".toList ++ new] <:+: lines

def Entry.IsChange : Entry → Prop
  | .context _ _ => False
  | .delete _ => True
  | .insert _ => True

/-- A line of chrome does not begin like any other line of a diff. -/
def Head.WellFormed : Head → Prop
  | .chrome text =>
      (∃ c rest, text = c :: rest ∧ (c.isAlphanum ∨ c = '=')) ∧ '\n' ∉ text
  | .files old new => '\n' ∉ old ∧ '\n' ∉ new

structure Hunk.WellFormed (h : Hunk) : Prop where
  head : ∀ x ∈ h.head, x.WellFormed
  heading : '\n' ∉ h.heading
  change : ∃ e ∈ h.body, e.IsChange

/-- The lines of a file. -/
structure IsFile (lines : List Line) : Prop where
  text : ∀ line ∈ lines, '\n' ∉ line.text
  newline : ∀ line ∈ lines.dropLast, line.newline = true

/-- A diff of one file to another. -/
structure Patch.WellFormed (p : Patch) : Prop where
  hunks : ∀ h ∈ p.hunks, h.WellFormed
  old : IsFile p.old
  new : IsFile p.new

-- == lemmas

attribute [grind =] writtenFrom

@[simp] theorem texts_nil : texts [] = [] := rfl

@[simp] theorem texts_cons (line : Line) (lines : List Line) :
    texts (line :: lines) = line.text :: texts lines := rfl

@[simp] theorem texts_append (xs ys : List Line) :
    texts (xs ++ ys) = texts xs ++ texts ys := List.map_append

@[simp] theorem length_texts (lines : List Line) :
    (texts lines).length = lines.length := List.length_map _

@[simp] theorem oldSide_nil : oldSide [] = [] := rfl

@[simp] theorem newSide_nil : newSide [] = [] := rfl

@[simp] theorem oldSide_cons (e : Entry) (body : List Entry) :
    oldSide (e :: body) = e.old ++ oldSide body := rfl

@[simp] theorem newSide_cons (e : Entry) (body : List Entry) :
    newSide (e :: body) = e.new ++ newSide body := rfl

/-- A line of a hunk is one of a file. -/
theorem mem_sides {e : Entry} {body : List Entry} (he : e ∈ body) :
    e.line ∈ oldSide body ∨ e.line ∈ newSide body := by
  cases e with
  | context line bare =>
      exact .inl (List.mem_flatMap.mpr ⟨_, he, List.mem_singleton_self _⟩)
  | delete line =>
      exact .inl (List.mem_flatMap.mpr ⟨_, he, List.mem_singleton_self _⟩)
  | insert line =>
      exact .inr (List.mem_flatMap.mpr ⟨_, he, List.mem_singleton_self _⟩)

theorem mem_oldFrom {kept : List Line} {hs : List Hunk} {h : Hunk}
    (hh : h ∈ hs) {line : Line} (hline : line ∈ oldSide h.body) :
    line ∈ oldFrom kept hs := by
  induction hs with
  | nil => cases hh
  | cons x hs ih =>
      rw [oldFrom]
      rcases List.mem_cons.mp hh with rfl | hh
      · exact List.mem_append_left _ (List.mem_append_right _ hline)
      · exact List.mem_append_right _ (ih hh)

theorem mem_newFrom {kept : List Line} {hs : List Hunk} {h : Hunk}
    (hh : h ∈ hs) {line : Line} (hline : line ∈ newSide h.body) :
    line ∈ newFrom kept hs := by
  induction hs with
  | nil => cases hh
  | cons x hs ih =>
      rw [newFrom]
      rcases List.mem_cons.mp hh with rfl | hh
      · exact List.mem_append_left _ (List.mem_append_right _ hline)
      · exact List.mem_append_right _ (ih hh)

theorem IsFile.texts {ls : List Line} (h : IsFile ls) :
    ∀ l ∈ Unified.texts ls, '\n' ∉ l := by
  intro l hl
  obtain ⟨line, hline, rfl⟩ := List.mem_map.mp hl
  exact h.text line hline

/-- No line of a well-formed diff's hunks has a newline in it. -/
theorem Patch.WellFormed.text {p : Patch} (hp : p.WellFormed) :
    ∀ h ∈ p.hunks, ∀ e ∈ h.body, '\n' ∉ e.line.text := by
  intro h hh e he
  rcases mem_sides he with he | he
  · exact hp.old.text _ (mem_oldFrom hh he)
  · exact hp.new.text _ (mem_newFrom hh he)

end Unified
