/-
zmax-core/src/merge_ops.rs: longest common subsequences and the three-way
merge of texts.

Texts are split at every `'\n'` and joined again, so a trailing newline is
an empty last line. The numbers in the table of `lcsPairs` are `u32` in the source, which no
table that fits into memory exhausts.
-/
import Zmax.Basic

namespace Zmax.Merge

/-- One line of a text, without its newline. -/
abbrev Line := List Char

/-- `split('\n')` -/
def splitLines (text : Rope) : List Line := text.splitOn '\n'

/-- `join("\n")` -/
def joinLines (lines : List Line) : Rope := ['\n'].intercalate lines

-- == common subsequences

section Lcs

variable {T : Type _} [DecidableEq T]

/-- A row of the table, from the row below it: how long the common
subsequences of `x` with what follows it and each suffix of `b` get. -/
def lcsRow (x : T) : List T → List Nat → List Nat
  | [], _ => [0]
  | y :: b, below =>
      let right := lcsRow x b below.tail
      (if x = y then below.tail.headD 0 + 1
      else max (below.headD 0) (right.headD 0)) :: right

/-- The rows of all suffixes of `a`, the empty one last. -/
def lcsTable (a b : List T) : List (List Nat) :=
  a.foldr (fun x rows => lcsRow x b (rows.headD []) :: rows)
    [List.replicate (b.length + 1) 0]

/-- `dp[i][j]` -/
def entry (dp : List (List Nat)) (i j : Nat) : Nat :=
  (dp.getD i []).getD j 0

/-- Walk through the table and pair up what matches. -/
def lcsWalk (a b : List T) (dp : List (List Nat)) :
    Nat → Nat → Nat → List (Nat × Nat)
  | 0, _, _ => []
  | fuel + 1, i, j =>
      match a[i]?, b[j]? with
      | some x, some y =>
          if x = y then (i, j) :: lcsWalk a b dp fuel (i + 1) (j + 1)
          else if entry dp i (j + 1) ≤ entry dp (i + 1) j then
            lcsWalk a b dp fuel (i + 1) j
          else lcsWalk a b dp fuel i (j + 1)
      | _, _ => []

/-- The index pairs of a longest common subsequence. A step of the walk
goes forward in one of the lists, which bounds it. -/
def lcsPairs (a b : List T) : List (Nat × Nat) :=
  lcsWalk a b (lcsTable a b) (a.length + b.length) 0 0

attribute [grind =] lcsRow lcsWalk

end Lcs

-- == merge

structure MergeResult where
  text : Rope
  conflicts : Nat
  deriving DecidableEq, Repr

/-- A region of the base and what the two sides have there: the merged
lines, and how many conflicts that is. -/
def resolve (os as bs : List Line) : List Line × Nat :=
  -- ours unchanged, theirs unchanged, or the same change on both sides
  if as = os then (bs, 0)
  else if bs = os then (as, 0)
  else if as = bs then (as, 0)
  else
    (["<<<<<<< OURS".toList] ++ as ++ ["||||||| BASE".toList] ++ os ++
      ["=======".toList] ++ bs ++ [">>>>>>> THEIRS".toList], 1)

/-- Base lines that are matched on both sides, with where they are there. -/
def syncPoints (o a b : List Line) : List (Nat × Nat × Nat) :=
  let mapA := lcsPairs o a
  let mapB := lcsPairs o b
  (List.range o.length).filterMap fun bi =>
    match mapA.lookup bi, mapB.lookup bi with
    | some ai, some ti => some (bi, ai, ti)
    | _, _ => none

/-- The order of tuples. -/
def syncLe (x y : Nat × Nat × Nat) : Bool :=
  if x.1 ≠ y.1 then x.1 < y.1
  else if x.2.1 ≠ y.2.1 then x.2.1 < y.2.1
  else x.2.2 ≤ y.2.2

/-- Merge from one sync point to the next, and what is left at the end. -/
def mergeFrom (o a b : List Line) :
    List (Nat × Nat × Nat) → Nat → Nat → Nat → Result (List Line × Nat)
  | [], bo, ao, to' => do
      if bo < o.length ∨ ao < a.length ∨ to' < b.length then
        let os ← slice o bo o.length
        let as ← slice a ao a.length
        let bs ← slice b to' b.length
        return resolve os as bs
      else return ([], 0)
  | (bi, ai, ti) :: syncs, bo, ao, to' => do
      if bo < bi ∨ ao < ai ∨ to' < ti then
        let os ← slice o bo bi
        let as ← slice a ao ai
        let bs ← slice b to' ti
        let shared ← index o bi
        let (out, conflicts) ←
          mergeFrom o a b syncs (bi + 1) (ai + 1) (ti + 1)
        return ((resolve os as bs).1 ++ shared :: out,
          (resolve os as bs).2 + conflicts)
      else
        let shared ← index o bi
        let (out, conflicts) ←
          mergeFrom o a b syncs (bi + 1) (ai + 1) (ti + 1)
        return (shared :: out, conflicts)

/-- Merge two texts that come from a common base. -/
def threeWayMerge (base ours theirs : Rope) : Result MergeResult := do
  let o := splitLines base
  let a := splitLines ours
  let b := splitLines theirs
  let syncs := (syncPoints o a b).mergeSort syncLe
  let (out, conflicts) ← mergeFrom o a b syncs 0 0 0
  return ⟨joinLines out, conflicts⟩

/-- The base lines that both sides keep, in order. -/
def keptLines (base ours theirs : Rope) : List Line :=
  let o := splitLines base
  let mapA := lcsPairs o (splitLines ours)
  let mapB := lcsPairs o (splitLines theirs)
  (List.range o.length).filterMap fun i =>
    if (mapA.lookup i).isSome ∧ (mapB.lookup i).isSome then o[i]? else none

attribute [grind =] mergeFrom

end Zmax.Merge
