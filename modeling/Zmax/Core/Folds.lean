/-
zmax-core/src/fold.rs: the folds of a view and their operations.

A closed fold hides the lines behind its first one. Folds are inclusive
ranges of lines, kept sorted; whether they form a tree is checked where
they are created, and nowhere else.

`foldclose` and the moves from fold to fold are left out: no operation
here reads them.

The folds of a view form a tree, as long as no edit makes two disjoint
ones share a line.

All but three kinds of operation leave the ranges as they are or drop
some of them. Creation checks the new range against every other one. An
edit moves both ends of every fold through its line map, which keeps
nested folds nested but may take the last line of one fold and the first
line of the next to the same line: `Separates` says it does not, and
`remap_lawful_iff` that nothing else can go wrong.
-/
import Mathlib.Data.List.MinMax
import Mathlib.Data.List.Sort
import Zmax.Basic
import Zmax.Lib.Laminar
import Zmax.Lib.Reach

namespace Zmax

/-- A fold over the lines from `start` to `stop`, both included. -/
structure Fold where
  start : Nat
  stop : Nat
  /-- Collapsed: all lines but the first are hidden. -/
  closed : Bool
  deriving DecidableEq, Repr

namespace Fold

/-- Number of lines spanned. -/
def len (self : Fold) : Nat := self.stop - self.start + 1

def contains (self : Fold) (line : Nat) : Bool :=
  self.start ≤ line && line ≤ self.stop

/-- A closed fold hides what is behind its first line. -/
def hides (self : Fold) (line : Nat) : Bool :=
  self.closed && self.start < line && line ≤ self.stop

/-- The range is inside the fold, or the fold inside the range. -/
def nested (self : Fold) (start stop : Nat) : Bool :=
  (self.start ≤ start && stop ≤ self.stop)
    || (start ≤ self.start && self.stop ≤ stop)

/-- The range and the fold share no line. -/
def disjoint (self : Fold) (start stop : Nat) : Bool :=
  stop < self.start || self.stop < start

/-- The order folds are kept in: by start, the longer one first. -/
def Sorts (a b : Fold) : Prop :=
  a.start < b.start ∨ (a.start = b.start ∧ b.stop ≤ a.stop)

instance (a b : Fold) : Decidable (a.Sorts b) :=
  inferInstanceAs (Decidable (_ ∨ _))

end Fold

/-- All folds of a view, and its `foldlevel`. -/
structure Folds where
  folds : List Fold
  level : Nat
  deriving DecidableEq, Repr

namespace Folds

/-- No folds. -/
def empty : Folds := ⟨[], 0⟩

-- == creation

/-- Create a closed fold, unless it is a single line or overlaps another
fold in part. -/
def create (self : Folds) (a b : Nat) : Folds × Bool :=
  let start := min a b
  let stop := max a b
  if start = stop then (self, false)
  else
    match self.folds.findIdx? fun f => f.start == start && f.stop == stop with
    | some i =>
        -- an identical range is closed again
        ({ self with
            folds := self.folds.modify i fun f => { f with closed := true } },
          true)
    | none =>
        if self.folds.all fun f => f.nested start stop || f.disjoint start stop
        then
          let fold : Fold := ⟨start, stop, true⟩
          ({ self with
              folds := (self.folds ++ [fold]).insertionSort Fold.Sorts },
            true)
        else (self, false)

/-- Create a closed fold, dropping those that overlap it in part. -/
def createEvicting (self : Folds) (a b : Nat) : Folds × Bool :=
  let start := min a b
  let stop := max a b
  if start = stop then (self, false)
  else
    create
      { self with
        folds := self.folds.filter fun f =>
          f.nested start stop || f.disjoint start stop } start stop

-- == remapping

/-- Of neighbours over the same lines the first is kept. -/
def dedup : List Fold → List Fold
  | [] => []
  | [f] => [f]
  | f :: g :: rest =>
      if f.start = g.start ∧ f.stop = g.stop then dedup (f :: rest)
      else f :: dedup (g :: rest)
termination_by folds => folds.length

/-- A fold whose ends are where a line map takes them, unless a line is
gone or they are on one line now. -/
def remapFold (map : Nat → Option Nat) (f : Fold) : Option Fold :=
  match map f.start, map f.stop with
  | some start, some stop =>
      if start < stop then some ⟨start, stop, f.closed⟩ else none
  | _, _ => none

/-- Re-pin every fold after an edit. -/
def remap (self : Folds) (map : Nat → Option Nat) : Folds :=
  { self with
    folds := dedup
      ((self.folds.filterMap (remapFold map)).insertionSort Fold.Sorts) }

-- == looking up

/-- Index of the innermost fold containing a line. -/
def innermostIdx (self : Folds) (line : Nat) : Option Nat :=
  let containing := self.folds.zipIdx.filter fun p => p.1.contains line
  (containing.argmin fun p => p.1.len).map fun p => p.2

/-- A line behind the first one of a closed fold. -/
def isLineHidden (self : Folds) (line : Nat) : Bool :=
  self.folds.any fun f => f.hides line

/-- The first line of the outermost closed fold that hides a line. -/
def visibleAnchor (self : Folds) (line : Nat) : Nat :=
  match (self.folds.filter fun f => f.hides line).argmin Fold.start with
  | some f => f.start
  | none => line

/-- The level of the fold at an index: 1 for an outermost fold, and one
more for each fold around it. -/
def foldLevel (self : Folds) (idx : Nat) (f : Fold) : Nat :=
  1 + (self.folds.zipIdx.filter fun p =>
    p.2 != idx && p.1.start ≤ f.start && f.stop ≤ p.1.stop).length

/-- The deepest fold level. -/
def maxLevel (self : Folds) : Nat :=
  ((self.folds.mapIdx self.foldLevel).max?).getD 0

-- == opening and closing

/-- Set the closed flags, fold by fold: the folds, and whether a flag
changed. -/
def setClosed (self : Folds) (closed : Nat → Fold → Bool) : Folds × Bool :=
  ({ self with
      folds := self.folds.mapIdx fun i f => { f with closed := closed i f } },
    (self.folds.mapIdx fun i f => f.closed != closed i f).any id)

/-- Open or close the innermost fold at a line, if it is not so
already. -/
def setInnermost (self : Folds) (line : Nat) (closed : Bool) :
    Folds × Bool :=
  match self.innermostIdx line with
  | some i => self.setClosed fun j f => if j = i then closed else f.closed
  | none => (self, false)

/-- `zo` -/
def «open» (self : Folds) (line : Nat) : Folds × Bool :=
  self.setInnermost line false

/-- `zc` -/
def close (self : Folds) (line : Nat) : Folds × Bool :=
  self.setInnermost line true

/-- `za`; whether there is a fold. -/
def toggle (self : Folds) (line : Nat) : Folds × Bool :=
  match self.innermostIdx line with
  | some i =>
      ((self.setClosed fun j f => if j = i then !f.closed else f.closed).1, true)
  | none => (self, false)

/-- Open or close the innermost fold at a line and all folds inside. -/
def setRecursive (self : Folds) (line : Nat) (closed : Bool) :
    Folds × Bool :=
  match (self.innermostIdx line).bind fun i => self.folds[i]? with
  | some g =>
      self.setClosed fun _ f =>
        if g.start ≤ f.start ∧ f.stop ≤ g.stop then closed else f.closed
  | none => (self, false)

def openRecursive (self : Folds) (line : Nat) : Folds × Bool :=
  self.setRecursive line false

def closeRecursive (self : Folds) (line : Nat) : Folds × Bool :=
  self.setRecursive line true

/-- `zA`; whether there is a fold. -/
def toggleRecursive (self : Folds) (line : Nat) : Folds × Bool :=
  match (self.innermostIdx line).bind fun i => self.folds[i]? with
  | some g => ((self.setRecursive line !g.closed).1, true)
  | none => (self, false)

/-- `zv`: open every fold around a line. -/
def viewLine (self : Folds) (line : Nat) : Folds × Bool :=
  self.setClosed fun _ f => f.closed && !f.contains line

/-- Close every fold that is not around a line. -/
def closeAllExcept (self : Folds) (line : Nat) : Folds × Bool :=
  self.setClosed fun _ f => f.closed || !f.contains line

/-- `:set foldlevel`: folds deeper than the level close, the others
open. -/
def setLevel (self : Folds) (level : Nat) : Folds × Bool :=
  { self with level := level }.setClosed fun i f =>
    level < self.foldLevel i f

/-- `zm` -/
def foldMore (self : Folds) : Folds :=
  (self.setLevel (min self.level self.maxLevel - 1)).1

/-- `zr` -/
def foldLess (self : Folds) : Folds :=
  (self.setLevel (min (self.level + 1) self.maxLevel)).1

/-- `zR` -/
def openAll (self : Folds) : Folds := (self.setLevel self.maxLevel).1

/-- `zM` -/
def closeAll (self : Folds) : Folds := (self.setLevel 0).1

-- == deletion

/-- `zd`; whether there was a fold. -/
def delete (self : Folds) (line : Nat) : Folds × Bool :=
  match self.innermostIdx line with
  | some i => ({ self with folds := self.folds.eraseIdx i }, true)
  | none => (self, false)

/-- `zD`: delete the innermost fold and all folds inside. -/
def deleteRecursive (self : Folds) (line : Nat) : Folds × Bool :=
  match (self.innermostIdx line).bind fun i => self.folds[i]? with
  | some g =>
      let kept := self.folds.filter fun f =>
        !(g.start ≤ f.start && f.stop ≤ g.stop)
      ({ self with folds := kept }, kept.length != self.folds.length)
  | none => (self, false)

/-- `zE` -/
def clear (_ : Folds) : Folds := ⟨[], 0⟩

/-- Drop folds that end behind a line. -/
def clamp (self : Folds) (lastLine : Nat) : Folds :=
  { self with
    folds := self.folds.filter fun f =>
      f.stop ≤ lastLine && f.start < f.stop }

-- == runs

inductive Action where
  | create (start stop : Nat)
  | createEvicting (start stop : Nat)
  | remap (map : Nat → Option Nat)
  | «open» (line : Nat)
  | close (line : Nat)
  | toggle (line : Nat)
  | openRecursive (line : Nat)
  | closeRecursive (line : Nat)
  | toggleRecursive (line : Nat)
  | viewLine (line : Nat)
  | closeAllExcept (line : Nat)
  | setLevel (level : Nat)
  | foldMore
  | foldLess
  | openAll
  | closeAll
  | delete (line : Nat)
  | deleteRecursive (line : Nat)
  | clear
  | clamp (lastLine : Nat)

/-- One operation. -/
def step (self : Folds) : Action → Folds
  | .create start stop => (self.create start stop).1
  | .createEvicting start stop => (self.createEvicting start stop).1
  | .remap map => self.remap map
  | .open line => (self.open line).1
  | .close line => (self.close line).1
  | .toggle line => (self.toggle line).1
  | .openRecursive line => (self.openRecursive line).1
  | .closeRecursive line => (self.closeRecursive line).1
  | .toggleRecursive line => (self.toggleRecursive line).1
  | .viewLine line => (self.viewLine line).1
  | .closeAllExcept line => (self.closeAllExcept line).1
  | .setLevel level => (self.setLevel level).1
  | .foldMore => self.foldMore
  | .foldLess => self.foldLess
  | .openAll => self.openAll
  | .closeAll => self.closeAll
  | .delete line => (self.delete line).1
  | .deleteRecursive line => (self.deleteRecursive line).1
  | .clear => self.clear
  | .clamp lastLine => self.clamp lastLine

end Folds

end Zmax

namespace Zmax

open Laminar

namespace Fold

/-- The lines a fold spans, first and last. -/
def range (self : Fold) : Nat × Nat := (self.start, self.stop)

/-- In front of, or around and starting with. -/
def Before (r s : Nat × Nat) : Prop := r.1 < s.1 ∨ (r.1 = s.1 ∧ s.2 ≤ r.2)

instance (r s : Nat × Nat) : Decidable (Before r s) :=
  inferInstanceAs (Decidable (_ ∨ _))

theorem hides_iff {f : Fold} {line : Nat} :
    f.hides line ↔ f.closed ∧ f.start < line ∧ line ≤ f.stop := by
  simp [hides, and_assoc]

/-- The check of `create` against one fold. -/
theorem compatible_iff {f : Fold} {start stop : Nat} :
    (f.nested start stop || f.disjoint start stop)
      ↔ Compatible f.range (start, stop) := by
  simp only [nested, disjoint, Compatible, Holds, Clear, range,
    Bool.or_eq_true, Bool.and_eq_true, decide_eq_true_eq]
  omega

end Fold

namespace Folds

/-- The ranges of the folds, in the order they are kept in. -/
def ranges (self : Folds) : List (Nat × Nat) := self.folds.map Fold.range

/-- Sorted by start and then backwards by end, each over two lines at
least, no two over the same lines, any two nested or disjoint. -/
structure Tree (s : Folds) : Prop where
  sorted : s.ranges.Pairwise Fold.Before
  proper : ∀ r ∈ s.ranges, r.1 < r.2
  nodup : s.ranges.Nodup
  laminar : Family s.ranges

/-- What the folds of a view are to be: a tree, and one in which no line
that hidden lines are shown at is hidden. -/
structure Lawful (s : Folds) : Prop where
  tree : s.Tree
  anchor : ∀ line, ¬ s.isLineHidden (s.visibleAnchor line)

variable {s s' : Folds} {line : Nat}

theorem tree_empty : empty.Tree :=
  ⟨.nil, (fun r hr => by cases hr), .nil, (fun r hr => by cases hr)⟩

/-- Only the ranges matter. -/
theorem Tree.congr (h : s.Tree) (heq : s'.ranges = s.ranges) : s'.Tree := by
  obtain ⟨h₁, h₂, h₃, h₄⟩ := h
  rw [← heq] at h₁ h₂ h₃ h₄
  exact ⟨h₁, h₂, h₃, h₄⟩

/-- Folds may be dropped. -/
theorem Tree.sublist (h : s.Tree) (hsub : s'.ranges.Sublist s.ranges) :
    s'.Tree :=
  ⟨h.sorted.sublist hsub, fun r hr => h.proper r (hsub.subset hr),
    h.nodup.sublist hsub, h.laminar.mono fun _ hr => hsub.subset hr⟩

-- == the anchor

/-- In a tree the outermost closed fold that hides a line is not hidden
itself: what hides its first line hides all of it, and starts sooner. -/
theorem Tree.anchor (h : s.Tree) (line : Nat) :
    ¬ s.isLineHidden (s.visibleAnchor line) := by
  intro hhidden
  obtain ⟨g, hg, hghides⟩ := List.any_eq_true.mp hhidden
  obtain ⟨hclosed, hlt, hle⟩ := Fold.hides_iff.mp hghides
  unfold visibleAnchor at hlt hle
  cases harg : (s.folds.filter fun f => f.hides line).argmin Fold.start with
  | none =>
      -- nothing hides the line, so `g` does not either
      rw [harg] at hlt hle
      have hmem : g ∈ s.folds.filter fun f => f.hides line :=
        List.mem_filter.mpr ⟨hg, Fold.hides_iff.mpr ⟨hclosed, hlt, hle⟩⟩
      rw [List.argmin_eq_none.mp harg] at hmem
      cases hmem
  | some f =>
      rw [harg] at hlt hle
      obtain ⟨hf, hfhides⟩ := List.mem_filter.mp (List.argmin_mem harg)
      obtain ⟨-, hflt, hfle⟩ := Fold.hides_iff.mp hfhides
      have hholds : Holds g.range f.range :=
        h.laminar.hides (List.mem_map_of_mem hf) (List.mem_map_of_mem hg)
          hlt hle
      have hmem : g ∈ s.folds.filter fun f => f.hides line :=
        List.mem_filter.mpr ⟨hg, Fold.hides_iff.mpr
          ⟨hclosed, hlt.trans hflt, hfle.trans hholds.2⟩⟩
      exact List.not_lt_of_mem_argmin hmem harg hlt

theorem Tree.lawful (h : s.Tree) : s.Lawful := ⟨h, h.anchor⟩

-- == opening and closing

/-- Opening and closing leaves the ranges alone. -/
theorem ranges_setClosed (s : Folds) (closed : Nat → Fold → Bool) :
    (s.setClosed closed).1.ranges = s.ranges := by
  unfold setClosed ranges
  refine List.ext_getElem ?_ fun i h₁ h₂ => ?_
  · simp
  · simp [Fold.range]

theorem ranges_setInnermost (s : Folds) (line : Nat) (closed : Bool) :
    (s.setInnermost line closed).1.ranges = s.ranges := by
  unfold setInnermost
  split
  · exact ranges_setClosed s _
  · rfl

theorem ranges_setRecursive (s : Folds) (line : Nat) (closed : Bool) :
    (s.setRecursive line closed).1.ranges = s.ranges := by
  unfold setRecursive
  split
  · exact ranges_setClosed s _
  · rfl

theorem ranges_setLevel (s : Folds) (level : Nat) :
    (s.setLevel level).1.ranges = s.ranges :=
  ranges_setClosed { s with level := level } _

-- == creation

instance : Std.Total Fold.Sorts := ⟨fun a b => by
  unfold Fold.Sorts
  omega⟩

instance : IsTrans Fold Fold.Sorts := ⟨fun a b c hab hbc => by
  unfold Fold.Sorts at *
  omega⟩

/-- Sorting the folds sorts their ranges. -/
theorem sorted_insertionSort (folds : List Fold) :
    ((folds.insertionSort Fold.Sorts).map Fold.range).Pairwise
      Fold.Before := by
  rw [List.pairwise_map]
  exact List.pairwise_insertionSort Fold.Sorts folds

/-- A new fold may be sorted in that fits all the others. -/
theorem Tree.insert (h : s.Tree) {f : Fold} (hf : f.start < f.stop)
    (hnew : f.range ∉ s.ranges) (hfits : ∀ r ∈ s.ranges, Compatible r f.range)
    (heq : s'.folds = (s.folds ++ [f]).insertionSort Fold.Sorts) :
    s'.Tree := by
  have hranges : s'.ranges
      = ((s.folds ++ [f]).insertionSort Fold.Sorts).map Fold.range :=
    congrArg (List.map Fold.range) heq
  have hperm : s'.ranges.Perm (s.ranges ++ [f.range]) := by
    rw [hranges]
    refine ((List.perm_insertionSort _ _).map Fold.range).trans ?_
    rw [List.map_append]
    rfl
  have hmem : ∀ r ∈ s'.ranges, r = f.range ∨ r ∈ s.ranges := by
    intro r hr
    rcases List.mem_append.mp (hperm.subset hr) with hr | hr
    · exact .inr hr
    · exact .inl (List.mem_singleton.mp hr)
  refine ⟨?_, fun r hr => ?_, ?_, h.laminar.insert hfits hmem⟩
  · rw [hranges]
    exact sorted_insertionSort _
  · rcases hmem r hr with rfl | hr
    · exact hf
    · exact h.proper r hr
  · rw [hperm.nodup_iff, List.nodup_append]
    refine ⟨h.nodup, List.pairwise_singleton _ _, fun r hr r' hr' => ?_⟩
    rw [List.mem_singleton.mp hr']
    rintro rfl
    exact hnew hr

/-- A fold over these lines is found, or there is none. -/
theorem notMem_ranges {start stop : Nat}
    (h : s.folds.findIdx? (fun f => f.start == start && f.stop == stop)
      = none) : (start, stop) ∉ s.ranges := by
  intro hmem
  obtain ⟨f, hf, hrange⟩ := List.mem_map.mp hmem
  have hno := List.findIdx?_eq_none_iff.mp h f hf
  obtain ⟨rfl, rfl⟩ := Prod.mk.inj hrange
  simp at hno

theorem Tree.create (h : s.Tree) (a b : Nat) : (s.create a b).1.Tree := by
  unfold Folds.create
  dsimp only
  split
  · exact h
  · next hne =>
      split
      · refine h.congr (List.ext_getElem ?_ fun i h₁ h₂ => ?_)
        · simp [ranges]
        · simp only [ranges, List.getElem_map, List.getElem_modify]
          split <;> rfl
      · next hfind =>
          split
          · next hall =>
              refine h.insert (f := ⟨min a b, max a b, true⟩) ?_
                (notMem_ranges hfind) ?_ rfl
              · show min a b < max a b
                omega
              · intro r hr
                obtain ⟨f, hf, rfl⟩ := List.mem_map.mp hr
                exact Fold.compatible_iff.mp (List.all_eq_true.mp hall f hf)
          · exact h

theorem Tree.filter (h : s.Tree) (p : Fold → Bool) :
    Tree { s with folds := s.folds.filter p } :=
  h.sublist ((List.filter_sublist).map Fold.range)

theorem Tree.createEvicting (h : s.Tree) (a b : Nat) :
    (s.createEvicting a b).1.Tree := by
  unfold Folds.createEvicting
  dsimp only
  split
  · exact h
  · exact (h.filter _).create _ _

-- == deletion

theorem Tree.delete (h : s.Tree) (line : Nat) : (s.delete line).1.Tree := by
  unfold Folds.delete
  split
  · exact h.sublist ((List.eraseIdx_sublist _ _).map Fold.range)
  · exact h

theorem Tree.deleteRecursive (h : s.Tree) (line : Nat) :
    (s.deleteRecursive line).1.Tree := by
  unfold Folds.deleteRecursive
  split
  · exact h.filter _
  · exact h

-- == remapping

/-- A line map that keeps the order of the lines it keeps. -/
def Monotonic (map : Nat → Option Nat) : Prop :=
  ∀ i j, i ≤ j → ∀ a ∈ map i, ∀ b ∈ map j, a ≤ b

/-- The ends of a fold stay, in this order and not on one line. -/
def Survives (map : Nat → Option Nat) (f : Fold) : Prop :=
  ∃ a ∈ map f.start, ∃ b ∈ map f.stop, a < b

/-- No two folds that survive, one in front of the other, come to share
a line. -/
def Separates (s : Folds) (map : Nat → Option Nat) : Prop :=
  ∀ f ∈ s.folds, ∀ g ∈ s.folds, Survives map f → Survives map g →
    f.stop < g.start → map f.stop ≠ map g.start

instance (map : Nat → Option Nat) (f : Fold) : Decidable (Survives map f) :=
  inferInstanceAs (Decidable (∃ a ∈ map f.start, ∃ b ∈ map f.stop, a < b))

instance (s : Folds) (map : Nat → Option Nat) : Decidable (s.Separates map) :=
  inferInstanceAs (Decidable (∀ f ∈ s.folds, ∀ g ∈ s.folds, Survives map f →
    Survives map g → f.stop < g.start → map f.stop ≠ map g.start))

variable {map : Nat → Option Nat}

theorem remapFold_eq_some {f g : Fold} :
    remapFold map f = some g ↔
      map f.start = some g.start ∧ map f.stop = some g.stop ∧
        g.start < g.stop ∧ g.closed = f.closed := by
  unfold remapFold
  constructor
  · intro h
    split at h
    · next a b ha hb =>
        split at h
        · next hlt =>
            cases h
            exact ⟨ha, hb, hlt, rfl⟩
        · cases h
    · cases h
  · rintro ⟨ha, hb, hlt, hclosed⟩
    rw [ha, hb]
    dsimp only
    rw [if_pos hlt, ← hclosed]

theorem survives_iff {f : Fold} :
    Survives map f ↔ ∃ g, remapFold map f = some g := by
  constructor
  · rintro ⟨a, ha, b, hb, hlt⟩
    exact ⟨⟨a, b, f.closed⟩, remapFold_eq_some.mpr ⟨ha, hb, hlt, rfl⟩⟩
  · rintro ⟨g, hg⟩
    obtain ⟨ha, hb, hlt, -⟩ := remapFold_eq_some.mp hg
    exact ⟨g.start, ha, g.stop, hb, hlt⟩

/-- Deduplicating drops folds, and no range. -/
theorem dedup_sublist (folds : List Fold) : (dedup folds).Sublist folds := by
  fun_induction dedup folds with
  | case1 => exact .slnil
  | case2 f => exact .refl _
  | case3 f g rest _ ih =>
      exact ih.trans ((List.sublist_cons_self g rest).cons_cons f)
  | case4 f g rest _ ih => exact ih.cons_cons f

theorem mem_ranges_dedup (folds : List Fold) :
    ∀ f ∈ folds, f.range ∈ (dedup folds).map Fold.range := by
  fun_induction dedup folds with
  | case1 => intro f hf; cases hf
  | case2 f =>
      intro g hg
      exact List.mem_map_of_mem hg
  | case3 f g rest hsame ih =>
      intro x hx
      rcases List.mem_cons.mp hx with rfl | hx
      · exact ih x List.mem_cons_self
      · rcases List.mem_cons.mp hx with rfl | hx
        · have hrange : x.range = f.range := Prod.ext hsame.1.symm hsame.2.symm
          rw [hrange]
          exact ih f List.mem_cons_self
        · exact ih x (List.mem_cons_of_mem _ hx)
  | case4 f g rest _ ih =>
      intro x hx
      rcases List.mem_cons.mp hx with rfl | hx
      · exact List.mem_cons_self
      · exact List.mem_cons_of_mem _ (ih x hx)

/-- In a sorted list folds over the same lines are neighbours, so none
are left. -/
theorem nodup_dedup (folds : List Fold)
    (h : (folds.map Fold.range).Pairwise Fold.Before) :
    ((dedup folds).map Fold.range).Nodup := by
  fun_induction dedup folds with
  | case1 => exact .nil
  | case2 f => exact List.pairwise_singleton _ _
  | case3 f g rest _ ih =>
      exact ih (h.sublist (((List.sublist_cons_self g rest).cons_cons f).map _))
  | case4 f g rest hne ih =>
      obtain ⟨hf, hrest⟩ := List.pairwise_cons.mp h
      refine List.nodup_cons.mpr ⟨fun hmem => hne ?_, ih hrest⟩
      have hmem := ((dedup_sublist (g :: rest)).map Fold.range).subset hmem
      -- a later fold over the same lines has `g` between it and `f`
      have hback : Fold.Before g.range f.range := by
        rcases List.mem_cons.mp hmem with heq | hmem
        · rw [heq]
          exact .inr ⟨rfl, le_rfl⟩
        · exact (List.pairwise_cons.mp hrest).1 _ hmem
      obtain hfg | ⟨hstart, hstop⟩ := hf _ List.mem_cons_self
      · rcases hback with hgf | ⟨heq, -⟩
        · exact absurd hfg (not_lt.mpr hgf.le)
        · exact absurd hfg heq.not_gt
      · rcases hback with hgf | ⟨-, hle⟩
        · exact absurd hstart hgf.ne'
        · exact ⟨hstart, le_antisymm hle hstop⟩

/-- The ranges after an edit are those of the folds that survive. -/
theorem mem_ranges_remap {r : Nat × Nat} :
    r ∈ (s.remap map).ranges ↔
      ∃ f ∈ s.folds, ∃ g, remapFold map f = some g ∧ g.range = r := by
  unfold remap ranges
  constructor
  · intro hr
    have hr := ((dedup_sublist _).map Fold.range).subset hr
    obtain ⟨g, hg, rfl⟩ := List.mem_map.mp hr
    obtain ⟨f, hf, hfg⟩ := List.mem_filterMap.mp ((List.mem_insertionSort _).mp hg)
    exact ⟨f, hf, g, hfg, rfl⟩
  · rintro ⟨f, hf, g, hfg, rfl⟩
    exact mem_ranges_dedup _ g
      ((List.mem_insertionSort _).mpr (List.mem_filterMap.mpr ⟨f, hf, hfg⟩))

/-- Folds that fit fit after a monotone line map, unless it takes the end
of one and the start of the next to the same line. -/
theorem compatible_remap (hm : Monotonic map) {f g f' g' : Fold}
    (h : Compatible f.range g.range) (hf : remapFold map f = some f')
    (hg : remapFold map g = some g')
    (hfg : f.stop < g.start → map f.stop ≠ map g.start)
    (hgf : g.stop < f.start → map g.stop ≠ map f.start) :
    Compatible f'.range g'.range := by
  obtain ⟨hfs, hft, -, -⟩ := remapFold_eq_some.mp hf
  obtain ⟨hgs, hgt, -, -⟩ := remapFold_eq_some.mp hg
  refine h.image ?_ ?_ ?_ ?_ ?_ ?_
  · exact fun hle => hm _ _ hle _ hfs _ hgs
  · exact fun hle => hm _ _ hle _ hgt _ hft
  · exact fun hle => hm _ _ hle _ hgs _ hfs
  · exact fun hle => hm _ _ hle _ hft _ hgt
  · intro hlt
    have hne := hfg hlt
    rw [hft, hgs] at hne
    exact lt_of_le_of_ne (hm _ _ hlt.le _ hft _ hgs) fun h => hne (congrArg some h)
  · intro hlt
    have hne := hgf hlt
    rw [hgt, hfs] at hne
    exact lt_of_le_of_ne (hm _ _ hlt.le _ hgt _ hfs) fun h => hne (congrArg some h)

theorem Tree.remap (h : s.Tree) (hm : Monotonic map)
    (hsep : s.Separates map) : (s.remap map).Tree := by
  have hsorted := sorted_insertionSort (s.folds.filterMap (remapFold map))
  refine ⟨?_, fun r hr => ?_, nodup_dedup _ hsorted, fun r hr r' hr' => ?_⟩
  · exact hsorted.sublist ((dedup_sublist _).map Fold.range)
  · obtain ⟨f, -, g, hg, rfl⟩ := mem_ranges_remap.mp hr
    exact (remapFold_eq_some.mp hg).2.2.1
  · obtain ⟨f, hf, f', hf', rfl⟩ := mem_ranges_remap.mp hr
    obtain ⟨g, hg, g', hg', rfl⟩ := mem_ranges_remap.mp hr'
    have hsf := survives_iff.mpr ⟨f', hf'⟩
    have hsg := survives_iff.mpr ⟨g', hg'⟩
    exact compatible_remap hm
      (h.laminar _ (List.mem_map_of_mem hf) _ (List.mem_map_of_mem hg)) hf' hg'
      (hsep f hf g hg hsf hsg) (hsep g hg f hf hsg hsf)

/-- What a monotone line map makes of a tree is one exactly when no two
surviving folds come to share a line. -/
theorem remap_lawful_iff (h : s.Tree) (hm : Monotonic map) :
    (s.remap map).Lawful ↔ s.Separates map := by
  constructor
  · intro hlawful f hf g hg hsf hsg hlt heq
    obtain ⟨f', hf'⟩ := survives_iff.mp hsf
    obtain ⟨g', hg'⟩ := survives_iff.mp hsg
    obtain ⟨-, hft, hflt, -⟩ := remapFold_eq_some.mp hf'
    obtain ⟨hgs, -, hglt, -⟩ := remapFold_eq_some.mp hg'
    rw [hft, hgs] at heq
    refine not_compatible_of_touch (r := f'.range) (s := g'.range) hflt hglt
      (Option.some.inj heq) ?_
    exact hlawful.tree.laminar _ (mem_ranges_remap.mpr ⟨f, hf, f', hf', rfl⟩)
      _ (mem_ranges_remap.mpr ⟨g, hg, g', hg', rfl⟩)
  · exact fun hsep => (h.remap hm hsep).lawful

-- == runs

/-- An edit's line map keeps the order of lines, and any two folds
apart. -/
def Meets (s : Folds) : Action → Prop
  | .remap map => Monotonic map ∧ s.Separates map
  | _ => True

theorem Tree.step (h : s.Tree) (a : Action) (ha : s.Meets a) :
    (s.step a).Tree := by
  cases a with
  | create a b => exact h.create a b
  | createEvicting a b => exact h.createEvicting a b
  | remap map => exact h.remap ha.1 ha.2
  | «open» line => exact h.congr (ranges_setInnermost s line false)
  | close line => exact h.congr (ranges_setInnermost s line true)
  | toggle line =>
      refine h.congr ?_
      show (s.toggle line).1.ranges = s.ranges
      unfold toggle
      split
      · exact ranges_setClosed s _
      · rfl
  | openRecursive line => exact h.congr (ranges_setRecursive s line false)
  | closeRecursive line => exact h.congr (ranges_setRecursive s line true)
  | toggleRecursive line =>
      refine h.congr ?_
      show (s.toggleRecursive line).1.ranges = s.ranges
      unfold toggleRecursive
      split
      · exact ranges_setRecursive s line _
      · rfl
  | viewLine line => exact h.congr (ranges_setClosed s _)
  | closeAllExcept line => exact h.congr (ranges_setClosed s _)
  | setLevel level => exact h.congr (ranges_setLevel s level)
  | foldMore => exact h.congr (ranges_setLevel s _)
  | foldLess => exact h.congr (ranges_setLevel s _)
  | openAll => exact h.congr (ranges_setLevel s _)
  | closeAll => exact h.congr (ranges_setLevel s 0)
  | delete line => exact h.delete line
  | deleteRecursive line => exact h.deleteRecursive line
  | clear => exact tree_empty
  | clamp lastLine => exact h.filter _

/-- One operation, as a step of a run. -/
def exec (s : Folds) (a : Action) : Result Folds := .ok (s.step a)

/-- In every run whose edits keep the folds apart, the folds are a tree
and no line that hidden lines are shown at is hidden; and an edit leaves
them so exactly when it keeps them apart. -/
theorem fold_law (hs : Reach.Reaches Meets exec empty s) :
    s.Lawful ∧ ∀ map, Monotonic map →
      ((s.remap map).Lawful ↔ s.Separates map) := by
  have htree : s.Tree := by
    refine hs.invariant tree_empty fun s a s' h ha hx => ?_
    injection hx with hx
    subst hx
    exact h.step a ha
  exact ⟨htree.lawful, fun map hm => remap_lawful_iff htree hm⟩

/-- The line map of an edit that joins a line and the next one. -/
def joinLine (line : Nat) (l : Nat) : Option Nat :=
  some (if l ≤ line then l else l - 1)

theorem monotonic_joinLine (line : Nat) : Monotonic (joinLine line) := by
  rintro i j hij a ⟨⟩ b ⟨⟩
  split <;> split <;> omega

/-- Two folds with a line between them, which an edit joins to the
first. -/
theorem fold_law_apart :
    let s := (((empty.step (.create 1 2)).step (.create 4 6)).step
      (.remap (joinLine 2)))
    s.Lawful ∧ ∀ map, Monotonic map →
      ((s.remap map).Lawful ↔ s.Separates map) :=
  fold_law <| .step (.remap (joinLine 2))
    (.step (.create 4 6) (.step (.create 1 2) .start trivial rfl) trivial rfl)
    ⟨monotonic_joinLine 2, by decide⟩ rfl

/-- An edit that joins the last line of a fold and the first line of the
next one leaves two folds that share a line, and the line that the second
one's lines are shown at is hidden by the first. -/
theorem not_fold_law_join :
    ∃ s, Reach.Reaches
        (fun _ a => ∀ map, a = .remap map → Monotonic map) exec empty s ∧
      ¬ Family s.ranges ∧ s.isLineHidden (s.visibleAnchor 3) := by
  refine ⟨((empty.step (.create 1 2)).step (.create 3 4)).step
    (.remap (joinLine 2)), ?_, by decide +kernel, by decide +kernel⟩
  refine .step (.remap (joinLine 2)) (.step (.create 3 4)
    (.step (.create 1 2) .start ?_ rfl) ?_ rfl) ?_ rfl
  · intro map h
    cases h
  · intro map h
    cases h
  · intro map h
    cases h
    exact monotonic_joinLine 2

end Folds

end Zmax
