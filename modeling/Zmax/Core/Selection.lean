/-
zmax-core/src/selection.rs: ranges, selections, and how both follow a
change of the text.

A `Selection` always has a primary range; the structure carries that as
a field, so `normalize` owes a proof that the primary range is still
there after merging (`mem_mergeOverlaps`). This is what the
`position(..).unwrap()` of the source relies on.

Only what the document and the history use is here, and the set
algebra: no line ranges, no fragments.
-/
import Mathlib.Data.List.Sort
import Zmax.Core.Positions

namespace Zmax

variable (U : Unicode)

-- == ranges

/-- A single selection range, in gap indices: `anchor` stays when
extending, `head` moves. -/
structure Range where
  anchor : Nat
  head : Nat
  /-- The previous visual offset (softwrapped lines and columns) from
  the start of the line. -/
  oldVisualPosition : Option (Nat × Nat)
  deriving DecidableEq, Repr

namespace Range

def new (anchor head : Nat) : Range := ⟨anchor, head, none⟩

def point (head : Nat) : Range := new head head

/-- Start of the range. -/
def start (self : Range) : Nat := min self.anchor self.head

/-- End of the range. -/
def stop (self : Range) : Nat := max self.anchor self.head

/-- Check two ranges for overlap. -/
def overlaps (self other : Range) : Bool :=
  self.start == other.start
    || (other.start < self.stop && self.start < other.stop)

def containsRange (self other : Range) : Bool :=
  self.start ≤ other.start && other.stop ≤ self.stop

def contains (self : Range) (pos : Nat) : Bool :=
  self.start ≤ pos && pos < self.stop

/-- A range that encompasses both. -/
def merge (self other : Range) : Range :=
  if self.head < self.anchor ∧ other.head < other.anchor then
    ⟨max self.anchor other.anchor, min self.head other.head, none⟩
  else ⟨min self.start other.start, max self.stop other.stop, none⟩

/-- Shift the ends to grapheme boundaries. -/
def graphemeAligned (self : Range) (slice : Rope) : Result Range := do
  let (newAnchor, newHead) ←
    if self.anchor = self.head then do
      let pos ← ensureGraphemeBoundaryPrev U slice self.anchor
      pure (pos, pos)
    else if self.anchor < self.head then do
      let newAnchor ← ensureGraphemeBoundaryPrev U slice self.anchor
      let newHead ← ensureGraphemeBoundaryNext U slice self.head
      pure (newAnchor, newHead)
    else do
      let newAnchor ← ensureGraphemeBoundaryNext U slice self.anchor
      let newHead ← ensureGraphemeBoundaryPrev U slice self.head
      pure (newAnchor, newHead)
  return ⟨newAnchor, newHead,
    if newAnchor = self.anchor then self.oldVisualPosition else none⟩

/-- Shift the head forward to a width of at least one char, unless the
range is at the end of the text. -/
def minWidth1 (self : Range) (slice : Rope) : Result Range :=
  if self.anchor = self.head then do
    let newHead ← nextGraphemeBoundary U slice self.head
    return { self with head := newHead }
  else .ok self

/-- The ends of a range with their associations, in the order in which
`map` hands them to `update_positions`. -/
def positions (self : Range) : List (Nat × Assoc) :=
  if self.anchor = self.head then
    [(self.anchor, .afterSticky), (self.head, .afterSticky)]
  else if self.anchor < self.head then
    [(self.anchor, .afterSticky), (self.head, .beforeSticky)]
  else [(self.head, .afterSticky), (self.anchor, .beforeSticky)]

/-- The range whose ends, in the order of `positions`, were updated to
these. -/
def updated (self : Range) (first second : Nat) : Range :=
  if self.anchor ≤ self.head then new first second else new second first

/-- The overlapping parts of two sorted lists of ranges: each overlap is
kept, and whichever range ends first is left behind. -/
def intersect : List Range → List Range → List Range
  | r₁ :: a, r₂ :: b =>
      let start := max r₁.start r₂.start
      let stop := min r₁.stop r₂.stop
      let rest :=
        if r₁.stop < r₂.stop then intersect a (r₂ :: b)
        else intersect (r₁ :: a) b
      if start < stop then .new start stop :: rest else rest
  | [], _ => []
  | _, [] => []
termination_by a b => a.length + b.length

/-- The loop of `complement`: the gaps from `pos` on. -/
def complementFrom (len pos : Nat) : List Range → List Range
  | [] => if pos < len then [.new pos len] else []
  | range :: rest =>
      if pos < range.start then
        .new pos range.start :: complementFrom len range.stop rest
      else complementFrom len range.stop rest

/-- The gaps that ranges leave in `0..len`. -/
def complement (ranges : List Range) (len : Nat) : List Range :=
  complementFrom len 0 ranges

attribute [grind =] intersect complementFrom

/-- A range that encompasses both starts where the first of them does. -/
theorem start_merge (a b : Range) :
    (a.merge b).start = min a.start b.start := by
  unfold merge start stop
  split <;> dsimp only <;> omega

end Range

-- == selections

/-- One or more ranges, one of them the primary one. -/
structure Selection where
  ranges : List Range
  primaryIndex : Nat
  /-- A selection can never be empty. -/
  primary_lt : primaryIndex < ranges.length
  deriving DecidableEq, Repr

namespace Selection

def primary (self : Selection) : Range :=
  self.ranges.get ⟨self.primaryIndex, self.primary_lt⟩

/-- A selection holding a single range. -/
def single (anchor head : Nat) : Selection :=
  ⟨[.new anchor head], 0, Nat.zero_lt_one⟩

/-- A selection holding a single cursor. -/
def point (pos : Nat) : Selection := single pos pos

/-- The `dedup_by` of `normalize`: `prev` is the range kept last. Ranges
that overlap are merged into it, and the primary range follows. -/
def mergeOverlaps (prev primary : Range) :
    List Range → List Range × Range
  | [] => ([prev], primary)
  | curr :: rest =>
      if prev.overlaps curr then
        let merged := curr.merge prev
        mergeOverlaps merged
          (if prev = primary ∨ curr = primary then merged else primary) rest
      else
        let (kept, primary) := mergeOverlaps curr primary rest
        (prev :: kept, primary)

/-- `sort_unstable_by_key(Range::from)`, with equal keys left as they
are. -/
def startLE (a b : Range) : Bool := a.start ≤ b.start

/-- Sorted by start. -/
abbrev Sorted (ranges : List Range) : Prop :=
  ranges.Pairwise fun a b => a.start ≤ b.start

attribute [grind =] mergeOverlaps

/-- What merging makes of the range kept last starts where it did. -/
theorem Sorted.merge {prev curr : Range} {rest : List Range}
    (h : Sorted (prev :: curr :: rest)) :
    Sorted (curr.merge prev :: rest) ∧ (curr.merge prev).start = prev.start := by
  obtain ⟨hprev, hrest⟩ := List.pairwise_cons.mp h
  have hstart : (curr.merge prev).start = prev.start := by
    have := hprev curr List.mem_cons_self
    rw [Range.start_merge]
    omega
  refine ⟨List.pairwise_cons.mpr ⟨fun r hr => ?_, ?_⟩, hstart⟩
  · rw [hstart]
    exact hprev r (List.mem_cons_of_mem _ hr)
  · exact (List.pairwise_cons.mp hrest).2

/-- A primary range in front of all that is left is not merged again. -/
private theorem mergeOverlaps_of_lt {primary : Range} {rest : List Range} :
    ∀ {prev : Range}, Sorted (prev :: rest) → primary.start < prev.start →
      (mergeOverlaps prev primary rest).2 = primary := by
  induction rest with
  | nil =>
      intro prev _ _
      rfl
  | cons curr rest ih =>
      intro prev h hlt
      obtain ⟨hprev, hrest⟩ := List.pairwise_cons.mp h
      have hcurr := hprev curr List.mem_cons_self
      rw [mergeOverlaps]
      split
      · obtain ⟨hmerge, hstart⟩ := h.merge
        have hne : ¬ (prev = primary ∨ curr = primary) := by
          rintro (rfl | rfl) <;> omega
        dsimp only
        rw [if_neg hne]
        exact ih hmerge (by omega)
      · exact ih hrest (by omega)

/-- Merging keeps the primary range among the ranges. -/
theorem mem_mergeOverlaps {rest : List Range} :
    ∀ {prev primary : Range}, Sorted (prev :: rest) →
      primary ∈ prev :: rest →
      (mergeOverlaps prev primary rest).2
        ∈ (mergeOverlaps prev primary rest).1 := by
  induction rest with
  | nil =>
      intro prev primary _ h
      exact h
  | cons curr rest ih =>
      intro prev primary hs h
      obtain ⟨hprev, hrest⟩ := List.pairwise_cons.mp hs
      rw [mergeOverlaps]
      split
      · obtain ⟨hmerge, -⟩ := hs.merge
        split
        · exact ih hmerge List.mem_cons_self
        · next hne =>
            refine ih hmerge ?_
            rw [List.mem_cons, List.mem_cons] at h
            rcases h with h | h | h
            · exact absurd (.inl h.symm) hne
            · exact absurd (.inr h.symm) hne
            · exact List.mem_cons_of_mem _ h
      · next hov =>
          rcases List.mem_cons.mp h with rfl | h
          · -- the primary range itself stays behind the merging
            have hlt : primary.start < curr.start := by
              have hle := hprev curr List.mem_cons_self
              simp only [Range.overlaps, Bool.or_eq_true, beq_iff_eq,
                not_or] at hov
              omega
            dsimp only
            rw [mergeOverlaps_of_lt hrest hlt]
            exact List.mem_cons_self
          · exact List.mem_cons_of_mem _ (ih hrest h)

/-- Sorted by start, overlapping ranges merged: the ranges and what
became of the primary one. -/
def mergeSorted (primary : Range) : List Range → List Range × Range
  | [] => ([], primary)
  | first :: rest => mergeOverlaps first primary rest

/-- Merging a sorted list finds the primary range again. -/
theorem mem_mergeSorted {primary : Range} {ranges : List Range}
    (hs : Sorted ranges) (h : primary ∈ ranges) :
    (mergeSorted primary ranges).2 ∈ (mergeSorted primary ranges).1 := by
  cases ranges with
  | nil => cases h
  | cons first rest => exact mem_mergeOverlaps hs h

theorem sorted_mergeSort (ranges : List Range) :
    Sorted (ranges.mergeSort startLE) := by
  refine (List.pairwise_mergeSort ?_ ?_ ranges).imp ?_
  · simp only [startLE, decide_eq_true_eq]
    omega
  · simp only [startLE, Bool.or_eq_true, decide_eq_true_eq]
    omega
  · simp [startLE]

/-- Ranges are sorted by start, with overlapping ranges merged. -/
def normalize (self : Selection) : Selection :=
  if self.ranges.length < 2 then self
  else
    let merged := mergeSorted self.primary (self.ranges.mergeSort startLE)
    ⟨merged.1, merged.1.idxOf merged.2,
      List.idxOf_lt_length_iff.mpr
        (mem_mergeSorted (sorted_mergeSort _)
          (List.mem_mergeSort.mpr (List.get_mem _ _)))⟩

/-- A selection of these ranges, normalized. -/
def new (ranges : List Range) (primaryIndex : Nat) : Result Selection :=
  if h : primaryIndex < ranges.length then
    .ok (normalize ⟨ranges, primaryIndex, h⟩)
  else .error .assertion

/-- Add a range and make it the primary one. -/
def push (self : Selection) (range : Range) : Selection :=
  normalize ⟨self.ranges ++ [range], self.ranges.length, by
    rw [List.length_append]
    exact Nat.lt_succ_self _⟩

/-- Replace a range. -/
def replace (self : Selection) (index : Nat) (range : Range) :
    Result Selection :=
  if index < self.ranges.length then
    .ok (normalize ⟨self.ranges.set index range, self.primaryIndex, by
      rw [List.length_set]
      exact self.primary_lt⟩)
  else .error .outOfBounds

/-- Give the ranges the ends that `update_positions` made of their
positions. -/
def restore : List Range → List Nat → List Range
  | range :: ranges, first :: second :: out =>
      range.updated first second :: restore ranges out
  | ranges, _ => ranges

attribute [grind =] restore

theorem length_restore : ∀ (ranges : List Range) (out : List Nat),
    (restore ranges out).length = ranges.length
  | range :: ranges, first :: second :: out => by
      rw [restore, List.length_cons, List.length_cons, length_restore]
  | [], _ => by
      rw [restore]
      intro range ranges first second out h
      cases h
  | range :: ranges, [] => by
      rw [restore]
      intro range ranges first second out _ h
      cases h
  | range :: ranges, [_] => by
      rw [restore]
      intro range ranges first second out _ h
      cases h

/-- Map over a set of changes, without normalizing. -/
def mapNoNormalize (self : Selection) (changes : ChangeSet) :
    Result Selection :=
  if changes.isEmpty then .ok self
  else do
    let out ← changes.updatePositions U (self.ranges.flatMap Range.positions)
    return ⟨restore self.ranges out, self.primaryIndex, by
      rw [length_restore]
      exact self.primary_lt⟩

/-- Map over a set of changes, to follow the text after applying them. -/
def map (self : Selection) (changes : ChangeSet) : Result Selection := do
  let mapped ← self.mapNoNormalize U changes
  return mapped.normalize

/-- Map each range over a closure. -/
def transform (self : Selection) (f : Range → Result Range) :
    Result Selection :=
  match h : self.ranges.mapM f with
  | .error e => .error e
  | .ok ranges =>
      .ok (normalize ⟨ranges, self.primaryIndex, by
        rw [← (mapM_eq_ok.mp h).length_eq]
        exact self.primary_lt⟩)

/-- Grapheme aligned, at least one char wide unless at the end of the
text, not overlapping, sorted. -/
def ensureInvariants (self : Selection) (text : Rope) :
    Result Selection := do
  let selection ← self.transform fun r => do
    let r ← r.minWidth1 U text
    r.graphemeAligned U text
  return selection.normalize

-- == set algebra

/-- A selection of these ranges, unless there is none. -/
def ofRanges (ranges : List Range) : Result (Option Selection) :=
  if ranges.isEmpty then .ok none
  else do
    let selection ← new ranges 0
    return some selection

/-- The chars covered by either selection. -/
def union (self other : Selection) : Result Selection :=
  new (self.ranges ++ other.ranges) 0

/-- The chars covered by both selections. -/
def intersection (self other : Selection) : Result (Option Selection) :=
  ofRanges (Range.intersect self.ranges other.ranges)

/-- The chars of `0..len` this selection does not cover. -/
def complement (self : Selection) (len : Nat) : Result (Option Selection) :=
  ofRanges (Range.complement self.ranges len)

/-- The chars this selection covers and `other` does not. -/
def minus (self other : Selection) (len : Nat) :
    Result (Option Selection) :=
  ofRanges (Range.intersect self.ranges (Range.complement other.ranges len))

end Selection

end Zmax
