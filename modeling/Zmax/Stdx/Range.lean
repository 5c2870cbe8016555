/-
zmax-stdx/src/range.rs: ranges of chars within a text, and the walks
over two sorted lists of them.
-/
import Zmax.Basic

namespace Zmax.Stdx

/-- A range of chars within the text. -/
structure Range where
  start : Nat
  stop : Nat
  deriving DecidableEq, Repr

namespace Range

def contains (self other : Range) : Bool :=
  self.start ≤ other.start && other.stop ≤ self.stop

def isEmpty (self : Range) : Bool := self.stop ≤ self.start

end Range

/-- Whether every range of `subSet` is in one of `superSet`. -/
def isSubset (allowEmpty : Bool) : List Range → List Range → Bool
  | ra :: superSet, rb :: subSet =>
      if ra.stop ≤ rb.start ∧ (ra.start ≠ rb.start ∨ !allowEmpty) then
        isSubset allowEmpty superSet (rb :: subSet)
      else if ra.contains rb then isSubset allowEmpty (ra :: superSet) subSet
      else false
  | [], _ :: _ => false
  | _, [] => true
termination_by superSet subSet => superSet.length + subSet.length

/-- Whether every range of `subSet` is in one of `superSet`, and each of
these matched: the loop of `is_exact_subset`. An irrelevant range of
`superSet` is skipped once it was matched. -/
def isExactSubsetLoop (matched : Bool) :
    List Range → List Range → Bool
  | ra :: superSet, rb :: subSet =>
      if ra.stop ≤ rb.start ∧ ra.start < rb.start then
        if matched then isExactSubsetLoop false superSet (rb :: subSet)
        else false
      else if ra.contains rb then
        isExactSubsetLoop true (ra :: superSet) subSet
      else false
  | [], _ :: _ => false
  -- the range at hand is not asked about any more
  | superSet, [] => superSet.tail.isEmpty
termination_by superSet subSet => superSet.length + subSet.length

/-- Like `is_subset`, but each element of `superSet` has to be matched. -/
def isExactSubset (superSet subSet : List Range) : Bool :=
  isExactSubsetLoop true superSet subSet

end Zmax.Stdx
