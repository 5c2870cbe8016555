/-
zmax-vcs/src/diff.rs: looking for hunks by line.

Of several elements with the key a binary search may return any, so the search
is a parameter, and what its documentation promises is a property (`Searches`).

Looking for hunks by line, against a scan.

A search may return any hunk with the key, so a lookup is right exactly if it
is for each of them (`starting`, `ending`). The starts of sorted hunks go up
with their ends, and what lies before a found hunk or behind it is known from
that. The iterator over line ranges keeps the hunks that reach a range's first
line or lie behind it, and one that ends there does not share a line with it.
-/
import Zmax.Basic

namespace Zmax.Vcs

/-- `Range<u32>` -/
structure LineRange where
  start : Nat
  stop : Nat
  deriving DecidableEq, Repr

/-- `is_empty` -/
def LineRange.isEmpty (r : LineRange) : Bool := r.stop ≤ r.start

/-- A change: which lines of the old text became which lines of the new. -/
structure Hunk where
  before : LineRange
  after : LineRange
  deriving DecidableEq, Repr

/-- The hunks of a diff, and whether the two texts change roles. -/
structure Diff where
  hunks : List Hunk
  inverted : Bool
  deriving DecidableEq, Repr

/-- The lines of a hunk that a line number is about. -/
def Diff.hunkRange (self : Diff) (hunk : Hunk) : LineRange :=
  if self.inverted then hunk.before else hunk.after

-- == binary searches

/-- What a binary search for a key in sorted keys returns: where the key is,
or where it could be inserted. -/
def Found (keys : List Nat) (key : Nat) : Except Nat Nat → Prop
  | .ok pos => keys[pos]? = some key
  | .error pos => pos ≤ keys.length ∧
      (∀ j k, keys[j]? = some k → j < pos → k < key) ∧
        ∀ j k, keys[j]? = some k → pos ≤ j → key < k

/-- `binary_search_by_key`, on the keys -/
def Searches (search : List Nat → Nat → Except Nat Nat) : Prop :=
  ∀ keys key, keys.Pairwise (· ≤ ·) → Found keys key (search keys key)

/-- `partition_point` -/
def partitionPoint {α : Type _} (p : α → Bool) (xs : List α) : Nat :=
  (xs.takeWhile p).length

theorem partitionPoint_pos {α : Type _} {p : α → Bool} {xs : List α} {i : Nat}
    (hi : i < xs.length) (hp : p xs[i] = true) :
    0 < partitionPoint p (xs.drop i) := by
  unfold partitionPoint
  rw [List.drop_eq_getElem_cons hi, List.takeWhile_cons_of_pos hp]
  exact Nat.succ_pos _

-- == lookups

namespace Diff

variable (search : List Nat → Nat → Except Nat Nat)

/-- `next_hunk` -/
def nextHunk (self : Diff) (line : Nat) : Option Nat :=
  match search (self.hunks.map fun h => (self.hunkRange h).start) line with
  | .ok pos => if pos + 1 = self.hunks.length then none else some (pos + 1)
  | .error pos => if pos = self.hunks.length then none else some pos

/-- `prev_hunk` -/
def prevHunk (self : Diff) (line : Nat) : Result (Option Nat) :=
  match search (self.hunks.map fun h => (self.hunkRange h).stop) line with
  | .ok pos => do
      let hunk ← index self.hunks pos
      -- a removal is shown as a line, and we are inside of it
      if (self.hunkRange hunk).isEmpty then
        return if pos = 0 then none else some (pos - 1)
      else return some pos
  | .error pos => return if pos = 0 then none else some (pos - 1)

/-- `hunk_at` -/
def hunkAt (self : Diff) (line : Nat) (includeRemoval : Bool) :
    Result (Option Nat) :=
  match search (self.hunks.map fun h => (self.hunkRange h).start) line with
  | .ok pos => return some pos
  | .error 0 => return none
  | .error (pos + 1) => do
      let hunk ← index self.hunks pos
      let range := self.hunkRange hunk
      return if range.stop > line ∨
          includeRemoval ∧ range.start = line ∧ range.isEmpty then some pos
        else none

-- == line ranges

/-- `HunksInLineRangesIter::next`, from the line ranges and the cursor that are
left: the hunk, and what is left then. -/
def nextInLineRanges (self : Diff) (lineRanges : List (Nat × Nat))
    (cursor : Nat) : Option (Hunk × List (Nat × Nat) × Nat) :=
  match lineRanges with
  | [] => none
  | (startLine, endLine) :: rest =>
      if hcursor : cursor < self.hunks.length then
        let hunk := self.hunks[cursor]
        if hskip : (self.hunkRange hunk).stop < startLine then
          self.nextInLineRanges ((startLine, endLine) :: rest)
            (cursor + partitionPoint
              (fun hunk => (self.hunkRange hunk).stop < startLine)
              (self.hunks.drop cursor))
        else if (self.hunkRange hunk).start ≤ endLine then
          some (hunk, (startLine, endLine) :: rest, cursor + 1)
        else self.nextInLineRanges rest cursor
      else none
termination_by (lineRanges.length, self.hunks.length - cursor)
decreasing_by
  · refine Prod.Lex.right _ ?_
    have hpos := partitionPoint_pos
      (p := fun hunk => decide ((self.hunkRange hunk).stop < startLine))
      hcursor (decide_eq_true hskip)
    omega
  · exact Prod.Lex.left _ _ (Nat.lt_succ_self _)

theorem nextInLineRanges_cursor {self : Diff} {lineRanges rest}
    {cursor cursor' : Nat} {hunk : Hunk}
    (h : self.nextInLineRanges lineRanges cursor =
      some (hunk, rest, cursor')) :
    cursor < cursor' ∧ cursor' ≤ self.hunks.length := by
  fun_induction nextInLineRanges self lineRanges cursor with
  | case1 cursor => cases h
  | case2 cursor startLine endLine rest' hcursor hunk' hskip ih =>
      have := ih h
      omega
  | case3 cursor startLine endLine rest' hcursor hunk' hskip hle =>
      simp only [Option.some.injEq, Prod.mk.injEq] at h
      omega
  | case4 cursor startLine endLine rest' hcursor hunk' hskip hle ih =>
      exact ih h
  | case5 cursor startLine endLine rest' hcursor => cases h

/-- All that the iterator still yields. -/
def collectInLineRanges (self : Diff) (lineRanges : List (Nat × Nat))
    (cursor : Nat) : List Hunk :=
  match _h : self.nextInLineRanges lineRanges cursor with
  | none => []
  | some (hunk, rest, cursor') =>
      hunk :: self.collectInLineRanges rest cursor'
termination_by self.hunks.length - cursor
decreasing_by
  have := nextInLineRanges_cursor _h
  omega

/-- `hunks_intersecting_line_ranges` -/
def hunksIntersectingLineRanges (self : Diff)
    (lineRanges : List (Nat × Nat)) : List Hunk :=
  self.collectInLineRanges lineRanges 0

end Diff

end Zmax.Vcs

namespace Zmax.Vcs

variable {r : LineRange} {rs : List LineRange} {line i j : Nat}

-- == scans

/-- The ranges are in order and do not overlap. -/
def Sorted (rs : List LineRange) : Prop :=
  (∀ r ∈ rs, r.start ≤ r.stop) ∧ rs.Pairwise fun a b => a.stop ≤ b.start

/-- What a scan for the first range with a property returns. -/
def First (p : LineRange → Prop) (rs : List LineRange) : Option Nat → Prop
  | none => ∀ r ∈ rs, ¬p r
  | some i => ∃ r, rs[i]? = some r ∧ p r ∧
      ∀ j r', rs[j]? = some r' → j < i → ¬p r'

/-- And for the last one. -/
def Last (p : LineRange → Prop) (rs : List LineRange) : Option Nat → Prop
  | none => ∀ r ∈ rs, ¬p r
  | some i => ∃ r, rs[i]? = some r ∧ p r ∧
      ∀ j r', rs[j]? = some r' → i < j → ¬p r'

/-- What a scan for a range with a property returns. -/
def Any (p : LineRange → Prop) (rs : List LineRange) : Option Nat → Prop
  | none => ∀ r ∈ rs, ¬p r
  | some i => ∃ r, rs[i]? = some r ∧ p r

/-- The range is behind the line. -/
def After (line : Nat) (r : LineRange) : Prop := line < r.start

/-- The range is before the line. A removal takes the line where it is. -/
def Before (line : Nat) (r : LineRange) : Prop :=
  if r.isEmpty then r.stop < line else r.stop ≤ line

/-- The range covers the line, or is a removal at it. -/
def Covers (includeRemoval : Bool) (line : Nat) (r : LineRange) : Prop :=
  if r.isEmpty then includeRemoval ∧ r.start = line
  else r.start ≤ line ∧ line < r.stop

/-- The range has one of some lines, or is a removal at one. -/
def intersects (r : LineRange) (lines : Nat × Nat) : Bool :=
  if r.isEmpty then lines.1 ≤ r.start ∧ r.start ≤ lines.2
  else lines.1 < r.stop ∧ r.start ≤ lines.2

/-- The ranges of a diff's hunks on the side that is looked at. -/
def Diff.ranges (self : Diff) : List LineRange :=
  self.hunks.map self.hunkRange

theorem isEmpty_iff : r.isEmpty ↔ r.stop ≤ r.start := decide_eq_true_iff

-- == sorted ranges

theorem Sorted.le (h : Sorted rs) {r' : LineRange} (hi : rs[i]? = some r)
    (hj : rs[j]? = some r') (hlt : i < j) :
    r.start ≤ r.stop ∧ r.stop ≤ r'.start ∧ r'.start ≤ r'.stop := by
  refine ⟨h.1 r (List.mem_of_getElem? hi), ?_,
    h.1 r' (List.mem_of_getElem? hj)⟩
  obtain ⟨hlen, rfl⟩ := List.getElem?_eq_some_iff.mp hi
  obtain ⟨hlen', rfl⟩ := List.getElem?_eq_some_iff.mp hj
  exact List.pairwise_iff_getElem.mp h.2 i j hlen hlen' hlt

theorem Sorted.starts (h : Sorted rs) :
    (rs.map LineRange.start).Pairwise (· ≤ ·) := by
  refine List.pairwise_map.mpr (h.2.imp_of_mem fun {a b} ha _ hab => ?_)
  exact Nat.le_trans (h.1 a ha) hab

theorem Sorted.stops (h : Sorted rs) :
    (rs.map LineRange.stop).Pairwise (· ≤ ·) := by
  refine List.pairwise_map.mpr (h.2.imp_of_mem fun {a b} _ hb hab => ?_)
  exact Nat.le_trans hab (h.1 b hb)

-- == searches

/-- A search that returns the first place, whatever is there. -/
def searchFirst (keys : List Nat) (key : Nat) : Except Nat Nat :=
  let pos := keys.findIdx fun k => key ≤ k
  if keys[pos]? = some key then .ok pos else .error pos

theorem searches_first : Searches searchFirst := by
  intro keys key hsorted
  unfold searchFirst
  dsimp only
  split
  · assumption
  · rename_i hne
    refine ⟨List.findIdx_le_length, ?_, ?_⟩
    · intro j k hj hlt
      obtain ⟨hlen, rfl⟩ := List.getElem?_eq_some_iff.mp hj
      have := List.not_of_lt_findIdx hlt
      simpa using this
    · intro j k hj hle
      obtain ⟨hlen, rfl⟩ := List.getElem?_eq_some_iff.mp hj
      have hpos : keys.findIdx (fun k => key ≤ k) < keys.length := by omega
      have hget := List.findIdx_getElem (w := hpos)
      have hkey : key ≠ keys[keys.findIdx fun k => key ≤ k] := fun heq =>
        hne (List.getElem?_eq_some_iff.mpr ⟨hpos, heq.symm⟩)
      have hlt : key < keys[keys.findIdx fun k => key ≤ k] :=
        Nat.lt_of_le_of_ne (of_decide_eq_true hget) hkey
      rcases Nat.eq_or_lt_of_le hle with heq | hbelow
      · simp only [heq] at hlt
        exact hlt
      · exact Nat.lt_of_lt_of_le hlt
          (List.pairwise_iff_getElem.mp hsorted _ j hpos hlen hbelow)

/-- A search may return any place with the key. -/
theorem exists_search {keys : List Nat} {key pos : Nat}
    (h : keys[pos]? = some key) :
    ∃ search, Searches search ∧ search keys key = .ok pos := by
  refine ⟨fun keys' key' =>
    if keys' = keys ∧ key' = key then .ok pos else searchFirst keys' key', ?_,
    if_pos ⟨rfl, rfl⟩⟩
  intro keys' key' hsorted
  dsimp only
  split
  · rename_i heq
    obtain ⟨rfl, rfl⟩ := heq
    exact h
  · exact searches_first keys' key' hsorted

-- == lookups

section Lookups

variable {d : Diff} {search : List Nat → Nat → Except Nat Nat}

theorem Diff.starts_eq : (d.hunks.map fun h => (d.hunkRange h).start) =
    d.ranges.map LineRange.start := by
  unfold Diff.ranges
  rw [List.map_map]
  rfl

theorem Diff.stops_eq : (d.hunks.map fun h => (d.hunkRange h).stop) =
    d.ranges.map LineRange.stop := by
  unfold Diff.ranges
  rw [List.map_map]
  rfl

theorem Diff.length_ranges : d.ranges.length = d.hunks.length :=
  List.length_map _

variable {pos : Nat} {includeRemoval : Bool}

theorem Diff.exists_hunk (h : d.ranges[pos]? = some r) :
    ∃ hunk, d.hunks[pos]? = some hunk ∧ d.hunkRange hunk = r := by
  unfold Diff.ranges at h
  rw [List.getElem?_map] at h
  exact Option.map_eq_some_iff.mp h

theorem getElem?_starts {k : Nat} :
    (rs.map LineRange.start)[i]? = some k ↔
      ∃ r, rs[i]? = some r ∧ r.start = k := by
  rw [List.getElem?_map, Option.map_eq_some_iff]

theorem getElem?_stops {k : Nat} :
    (rs.map LineRange.stop)[i]? = some k ↔
      ∃ r, rs[i]? = some r ∧ r.stop = k := by
  rw [List.getElem?_map, Option.map_eq_some_iff]

theorem getElem?_of_lt (h : i < rs.length) : ∃ r, rs[i]? = some r :=
  ⟨rs[i], List.getElem?_eq_getElem h⟩

theorem Diff.nextHunk_ok
    (h : search (d.ranges.map LineRange.start) line = .ok pos) :
    d.nextHunk search line =
      if pos + 1 = d.ranges.length then none else some (pos + 1) := by
  unfold Diff.nextHunk
  rw [d.starts_eq, h, d.length_ranges]

/-- The search finds the only hunk that starts at the line, or the place of the
next one. -/
theorem Diff.nextHunk_first (h : Sorted d.ranges) (hsearch : Searches search)
    (hone : d.ranges.Pairwise fun a b => ¬(a.start = line ∧ b.start = line)) :
    First (After line) d.ranges (d.nextHunk search line) := by
  have hfound := hsearch _ line h.starts
  cases heq : search (d.ranges.map LineRange.start) line with
  | ok pos =>
      rw [heq] at hfound
      obtain ⟨r, hr, hstart⟩ := getElem?_starts.mp hfound
      rw [d.nextHunk_ok heq]
      have hlen := (List.getElem?_eq_some_iff.mp hr).1
      have hbefore : ∀ j r', d.ranges[j]? = some r' → j < pos + 1 →
          ¬After line r' := by
        intro j r' hr' hlt
        unfold After
        rcases Nat.lt_succ_iff_lt_or_eq.mp hlt with hlt | rfl
        · have := h.le hr' hr hlt
          omega
        · rw [hr] at hr'
          cases hr'
          omega
      split
      · rename_i hlast
        intro r' hr'
        obtain ⟨j, hj⟩ := List.getElem?_of_mem hr'
        exact hbefore j r' hj
          (hlast ▸ (List.getElem?_eq_some_iff.mp hj).1)
      · rename_i hlast
        obtain ⟨next, hnext⟩ := getElem?_of_lt
          (show pos + 1 < d.ranges.length by omega)
        refine ⟨next, hnext, ?_, hbefore⟩
        have hle := h.le hr hnext (Nat.lt_succ_self pos)
        obtain ⟨hlen', hget'⟩ := List.getElem?_eq_some_iff.mp hnext
        have hne := List.pairwise_iff_getElem.mp hone pos (pos + 1) hlen
          hlen' (Nat.lt_succ_self pos)
        rw [(List.getElem?_eq_some_iff.mp hr).2, hget'] at hne
        unfold After
        omega
  | error pos =>
      rw [heq] at hfound
      obtain ⟨hpos, hbelow, habove⟩ := hfound
      have hbefore : ∀ j r', d.ranges[j]? = some r' → j < pos →
          ¬After line r' := by
        intro j r' hr' hlt
        have := hbelow j _ (getElem?_starts.mpr ⟨r', hr', rfl⟩) hlt
        unfold After
        omega
      rw [List.length_map] at hpos
      unfold Diff.nextHunk
      rw [d.starts_eq, heq, ← d.length_ranges]
      dsimp only
      split
      · rename_i hlast
        intro r' hr'
        obtain ⟨j, hj⟩ := List.getElem?_of_mem hr'
        exact hbefore j r' hj
          (hlast ▸ (List.getElem?_eq_some_iff.mp hj).1)
      · rename_i hlast
        obtain ⟨next, hnext⟩ := getElem?_of_lt
          (show pos < d.ranges.length by omega)
        exact ⟨next, hnext, habove pos _
          (getElem?_starts.mpr ⟨next, hnext, rfl⟩) (Nat.le_refl pos), hbefore⟩

theorem Diff.nextHunk_iff (h : Sorted d.ranges) :
    (∀ search, Searches search →
      First (After line) d.ranges (d.nextHunk search line)) ↔
      d.ranges.Pairwise fun a b => ¬(a.start = line ∧ b.start = line) := by
  refine ⟨fun hall => ?_,
    fun hone search hsearch => d.nextHunk_first h hsearch hone⟩
  refine List.pairwise_iff_getElem.mpr fun i j hi hj hlt hboth => ?_
  have hri := List.getElem?_eq_getElem hi
  obtain ⟨search, hsearch, heq⟩ :=
    exists_search (getElem?_starts.mpr ⟨_, hri, hboth.1⟩)
  have hfirst := hall search hsearch
  rw [d.nextHunk_ok heq, if_neg (by omega)] at hfirst
  obtain ⟨next, hnext, hafter, -⟩ := hfirst
  unfold After at hafter
  rcases Nat.eq_or_lt_of_le hlt with rfl | hbelow
  · rw [List.getElem?_eq_getElem hj] at hnext
    cases hnext
    omega
  · have := h.le hnext (List.getElem?_eq_getElem hj) hbelow
    omega

theorem Diff.prevHunk_ok
    (h : search (d.ranges.map LineRange.stop) line = .ok pos)
    (hr : d.ranges[pos]? = some r) :
    d.prevHunk search line = .ok (if r.isEmpty then
      if pos = 0 then none else some (pos - 1) else some pos) := by
  obtain ⟨hunk, hhunk, rfl⟩ := Diff.exists_hunk hr
  unfold Diff.prevHunk
  rw [d.stops_eq, h]
  dsimp only
  rw [index_eq_ok.mpr hhunk, ok_bind]
  split <;> rfl

/-- What lies behind a hunk that ends at a line is not before the line. -/
theorem Sorted.not_before (h : Sorted rs) {r' : LineRange}
    (hi : rs[i]? = some r) (hj : rs[j]? = some r') (hstop : r.stop = line)
    (hlt : i < j) : ¬Before line r' := by
  have hle := h.le hi hj hlt
  unfold Before
  split
  · omega
  · rename_i hfull
    rw [isEmpty_iff] at hfull
    omega

/-- The search finds the hunk that ends at the line, or a removal there, which
only one hunk can share its end with. -/
theorem Diff.prevHunk_last (h : Sorted d.ranges) (hsearch : Searches search)
    (hone : d.ranges.Pairwise fun a b => ¬(a = ⟨line, line⟩ ∧
      b = ⟨line, line⟩)) :
    ∃ found, d.prevHunk search line = .ok found ∧
      Last (Before line) d.ranges found := by
  have hfound := hsearch _ line h.stops
  cases heq : search (d.ranges.map LineRange.stop) line with
  | ok pos =>
      rw [heq] at hfound
      obtain ⟨r, hr, hstop⟩ := getElem?_stops.mp hfound
      have hself := h.1 r (List.mem_of_getElem? hr)
      rw [d.prevHunk_ok heq hr]
      refine ⟨_, rfl, ?_⟩
      split
      · rename_i hempty
        have hrange : r = ⟨line, line⟩ := by
          rw [isEmpty_iff] at hempty
          cases r
          simp only [LineRange.mk.injEq] at hstop hempty hself ⊢
          omega
        have hafter : ∀ j r', d.ranges[j]? = some r' → pos ≤ j →
            ¬Before line r' := by
          intro j r' hr' hle
          rcases Nat.eq_or_lt_of_le hle with rfl | hlt
          · rw [hr] at hr'
            cases hr'
            unfold Before
            rw [if_pos hempty]
            omega
          · exact h.not_before hr hr' hstop hlt
        split
        · rename_i hzero
          intro r' hr'
          obtain ⟨j, hj⟩ := List.getElem?_of_mem hr'
          exact hafter j r' hj (hzero ▸ Nat.zero_le j)
        · rename_i hpos
          have hlen := (List.getElem?_eq_some_iff.mp hr).1
          obtain ⟨prev, hprev⟩ := getElem?_of_lt
            (show pos - 1 < d.ranges.length by omega)
          refine ⟨prev, hprev, ?_, fun j r' hr' hlt =>
            hafter j r' hr' (by omega)⟩
          have hle := h.le hprev hr (by omega)
          unfold Before
          split
          · rename_i hnone
            rw [isEmpty_iff] at hnone
            obtain ⟨hlen', hget'⟩ := List.getElem?_eq_some_iff.mp hprev
            have hne := List.pairwise_iff_getElem.mp hone (pos - 1) pos hlen'
              hlen (by omega)
            rw [(List.getElem?_eq_some_iff.mp hr).2, hget'] at hne
            by_contra hnot
            refine hne ⟨?_, hrange⟩
            cases prev
            simp only [LineRange.mk.injEq] at hle hnone hnot ⊢
            omega
          · omega
      · rename_i hfull
        refine ⟨r, hr, ?_, fun j r' hr' hlt =>
          h.not_before hr hr' hstop hlt⟩
        unfold Before
        rw [if_neg hfull]
        omega
  | error pos =>
      rw [heq] at hfound
      obtain ⟨hpos, hbelow, habove⟩ := hfound
      have hafter : ∀ j r', d.ranges[j]? = some r' → pos ≤ j →
          ¬Before line r' := by
        intro j r' hr' hle
        have := habove j _ (getElem?_stops.mpr ⟨r', hr', rfl⟩) hle
        unfold Before
        split <;> omega
      rw [List.length_map] at hpos
      have hprev : d.prevHunk search line =
          .ok (if pos = 0 then none else some (pos - 1)) := by
        unfold Diff.prevHunk
        rw [d.stops_eq, heq]
        rfl
      refine ⟨_, hprev, ?_⟩
      split
      · rename_i hzero
        intro r' hr'
        obtain ⟨j, hj⟩ := List.getElem?_of_mem hr'
        exact hafter j r' hj (hzero ▸ Nat.zero_le j)
      · rename_i hne
        obtain ⟨prev, hprev⟩ := getElem?_of_lt
          (show pos - 1 < d.ranges.length by omega)
        have hlt := hbelow (pos - 1) _
          (getElem?_stops.mpr ⟨prev, hprev, rfl⟩) (by omega)
        refine ⟨prev, hprev, ?_, fun j r' hr' hlt' =>
          hafter j r' hr' (by omega)⟩
        unfold Before
        split <;> omega

theorem Diff.prevHunk_iff (h : Sorted d.ranges) :
    (∀ search, Searches search → ∃ found,
      d.prevHunk search line = .ok found ∧
        Last (Before line) d.ranges found) ↔
      d.ranges.Pairwise fun a b => ¬(a = ⟨line, line⟩ ∧
        b = ⟨line, line⟩) := by
  refine ⟨fun hall => ?_,
    fun hone search hsearch => d.prevHunk_last h hsearch hone⟩
  refine List.pairwise_iff_getElem.mpr fun i j hi hj hlt hboth => ?_
  have hri := List.getElem?_eq_getElem hi
  have hrj := List.getElem?_eq_getElem hj
  rw [hboth.1] at hri
  rw [hboth.2] at hrj
  obtain ⟨search, hsearch, heq⟩ :=
    exists_search (getElem?_stops.mpr ⟨_, hrj, rfl⟩)
  obtain ⟨found, hfound, hlast⟩ := hall search hsearch
  have hempty : (⟨line, line⟩ : LineRange).isEmpty :=
    isEmpty_iff.mpr (Nat.le_refl line)
  rw [d.prevHunk_ok heq hrj, if_pos hempty, if_neg (by omega)] at hfound
  cases hfound
  obtain ⟨prev, hprev, hbefore, -⟩ := hlast
  have hstart : prev = ⟨line, line⟩ := by
    by_cases hsame : i = j - 1
    · rw [← hsame, hri] at hprev
      exact (Option.some.inj hprev).symm
    · have hbelow := h.le hri hprev (by omega)
      have habove := h.le hprev hrj (by omega)
      cases prev
      simp only [LineRange.mk.injEq] at hbelow habove ⊢
      omega
  rw [hstart] at hbefore
  unfold Before at hbefore
  rw [if_pos hempty] at hbefore
  exact Nat.lt_irrefl line hbefore

theorem Diff.hunkAt_ok
    (h : search (d.ranges.map LineRange.start) line = .ok pos) :
    d.hunkAt search line includeRemoval = .ok (some pos) := by
  unfold Diff.hunkAt
  rw [d.starts_eq, h]
  rfl

theorem Diff.hunkAt_error
    (h : search (d.ranges.map LineRange.start) line = .error (pos + 1))
    (hr : d.ranges[pos]? = some r) :
    d.hunkAt search line includeRemoval = .ok (if r.stop > line ∨
      includeRemoval ∧ r.start = line ∧ r.isEmpty then some pos
        else none) := by
  obtain ⟨hunk, hhunk, rfl⟩ := Diff.exists_hunk hr
  unfold Diff.hunkAt
  rw [d.starts_eq, h]
  dsimp only
  rw [index_eq_ok.mpr hhunk, ok_bind]
  rfl

theorem not_covers (h : line < r.start) : ¬Covers includeRemoval line r := by
  unfold Covers
  split <;> omega

/-- A hunk that starts at the line is taken, whether it is a removal or not.
-/
theorem Diff.hunkAt_any (h : Sorted d.ranges) (hsearch : Searches search)
    (hremoval : includeRemoval ∨ (⟨line, line⟩ : LineRange) ∉ d.ranges) :
    ∃ found, d.hunkAt search line includeRemoval = .ok found ∧
      Any (Covers includeRemoval line) d.ranges found := by
  have hfound := hsearch _ line h.starts
  cases heq : search (d.ranges.map LineRange.start) line with
  | ok pos =>
      rw [heq] at hfound
      obtain ⟨r, hr, hstart⟩ := getElem?_starts.mp hfound
      have hmem := List.mem_of_getElem? hr
      have hself := h.1 r hmem
      refine ⟨_, d.hunkAt_ok heq, r, hr, ?_⟩
      unfold Covers
      split
      · rename_i hempty
        rw [isEmpty_iff] at hempty
        refine ⟨hremoval.resolve_right fun hnot => hnot ?_, hstart⟩
        have hrange : r = ⟨line, line⟩ := by
          cases r
          simp only [LineRange.mk.injEq] at hstart hempty hself ⊢
          omega
        exact hrange ▸ hmem
      · rename_i hfull
        rw [isEmpty_iff] at hfull
        omega
  | error pos =>
      rw [heq] at hfound
      obtain ⟨hpos, hbelow, habove⟩ := hfound
      rw [List.length_map] at hpos
      have hafter : ∀ j r', d.ranges[j]? = some r' → pos ≤ j →
          ¬Covers includeRemoval line r' := fun j r' hr' hle =>
        not_covers (habove j _ (getElem?_starts.mpr ⟨r', hr', rfl⟩) hle)
      cases pos with
      | zero =>
          refine ⟨none, ?_, fun r hr => ?_⟩
          · unfold Diff.hunkAt
            rw [d.starts_eq, heq]
            rfl
          · obtain ⟨j, hj⟩ := List.getElem?_of_mem hr
            exact hafter j r hj (Nat.zero_le j)
      | succ pos =>
          obtain ⟨r, hr⟩ := getElem?_of_lt (show pos < d.ranges.length from hpos)
          have hstart := hbelow pos _ (getElem?_starts.mpr ⟨r, hr, rfl⟩)
            (Nat.lt_succ_self pos)
          refine ⟨_, d.hunkAt_error heq hr, ?_⟩
          split
          · rename_i hend
            refine ⟨r, hr, ?_⟩
            unfold Covers
            split
            · rename_i hempty
              rw [isEmpty_iff] at hempty
              omega
            · omega
          · rename_i hend
            rw [not_or, Nat.not_lt] at hend
            intro r' hr' hcovers
            obtain ⟨j, hj⟩ := List.getElem?_of_mem hr'
            rcases Nat.lt_trichotomy j pos with hlt | rfl | hlt
            · have hle := h.le hj hr hlt
              unfold Covers at hcovers
              split at hcovers <;> omega
            · rw [hr] at hj
              cases hj
              unfold Covers at hcovers
              split at hcovers <;> omega
            · exact hafter j r' hj hlt hcovers

theorem Diff.hunkAt_iff (h : Sorted d.ranges) :
    (∀ search, Searches search → ∃ found,
      d.hunkAt search line includeRemoval = .ok found ∧
        Any (Covers includeRemoval line) d.ranges found) ↔
      includeRemoval ∨ (⟨line, line⟩ : LineRange) ∉ d.ranges := by
  refine ⟨fun hall => ?_,
    fun hremoval search hsearch => d.hunkAt_any h hsearch hremoval⟩
  by_contra hnot
  rw [not_or, Classical.not_not] at hnot
  obtain ⟨pos, hpos⟩ := List.getElem?_of_mem hnot.2
  obtain ⟨search, hsearch, heq⟩ :=
    exists_search (getElem?_starts.mpr ⟨_, hpos, rfl⟩)
  obtain ⟨found, hfound, hany⟩ := hall search hsearch
  rw [d.hunkAt_ok heq] at hfound
  cases hfound
  obtain ⟨r, hr, hcovers⟩ := hany
  rw [hpos] at hr
  cases hr
  unfold Covers at hcovers
  rw [if_pos (isEmpty_iff.mpr (Nat.le_refl line))] at hcovers
  exact hnot.1 hcovers.1

end Lookups

-- == line ranges

section LineRanges

variable {d : Diff} {lineRanges : List (Nat × Nat)} {cursor : Nat}

/-- A range that the iterator takes for one with some of the lines: it may also
end where they begin. -/
def touches (r : LineRange) (lines : Nat × Nat) : Bool :=
  lines.1 ≤ r.stop ∧ r.start ≤ lines.2

variable {lines : Nat × Nat}

theorem touches_iff : touches r lines ↔ lines.1 ≤ r.stop ∧ r.start ≤ lines.2 :=
  decide_eq_true_iff

/-- The hunks from the cursor on that the iterator keeps. -/
def Diff.touching (self : Diff) (lineRanges : List (Nat × Nat))
    (cursor : Nat) : List Hunk :=
  (self.hunks.drop cursor).filter fun hunk =>
    lineRanges.any (touches (self.hunkRange hunk))

/-- The line ranges are in the order of their first lines. -/
def Ascending (lineRanges : List (Nat × Nat)) : Prop :=
  lineRanges.Pairwise fun a b => a.1 ≤ b.1

/-- What a call of the iterator gives: the first hunk that it keeps. -/
def Diff.Yields (self : Diff) (lineRanges : List (Nat × Nat))
    (cursor : Nat) : Option (Hunk × List (Nat × Nat) × Nat) → Prop
  | none => self.touching lineRanges cursor = []
  | some (hunk, rest, cursor') =>
      self.touching lineRanges cursor = hunk :: self.touching rest cursor' ∧
        Ascending rest

theorem Diff.touching_skip (cursor : Nat) {startLine endLine : Nat}
    (h : Ascending ((startLine, endLine) :: lineRanges)) :
    d.touching ((startLine, endLine) :: lineRanges) cursor =
      d.touching ((startLine, endLine) :: lineRanges) (cursor +
        partitionPoint (fun hunk => (d.hunkRange hunk).stop < startLine)
          (d.hunks.drop cursor)) := by
  have hsplit := List.prefix_iff_eq_append.mp (List.takeWhile_prefix
    (l := d.hunks.drop cursor)
    fun hunk => (d.hunkRange hunk).stop < startLine)
  rw [List.drop_drop] at hsplit
  unfold Diff.touching partitionPoint
  conv_lhs => rw [← hsplit]
  rw [List.filter_append, List.append_left_eq_self, List.filter_eq_nil_iff]
  intro hunk hhunk hany
  obtain ⟨lines, hlines, htouch⟩ := List.any_eq_true.mp hany
  have hstop : (d.hunkRange hunk).stop < startLine := by
    have hall := List.all_eq_true.mp List.all_takeWhile hunk hhunk
    exact of_decide_eq_true hall
  have hfirst : startLine ≤ lines.1 := by
    rcases List.mem_cons.mp hlines with rfl | hlines
    · exact Nat.le_refl _
    · exact (List.pairwise_cons.mp h).1 lines hlines
  have := touches_iff.mp htouch
  omega

theorem Diff.touching_cons (h : cursor < d.hunks.length)
    (hmem : lines ∈ lineRanges)
    (htouch : touches (d.hunkRange d.hunks[cursor]) lines) :
    d.touching lineRanges cursor =
      d.hunks[cursor] :: d.touching lineRanges (cursor + 1) := by
  unfold Diff.touching
  rw [List.drop_eq_getElem_cons h, List.filter_cons_of_pos]
  exact List.any_eq_true.mpr ⟨lines, hmem, htouch⟩

/-- Lines that the hunk at the cursor lies behind have no further hunks. -/
theorem Diff.touching_tail (h : Sorted d.ranges)
    (hcursor : cursor < d.hunks.length)
    (hstart : lines.2 < (d.hunkRange d.hunks[cursor]).start) :
    d.touching (lines :: lineRanges) cursor =
      d.touching lineRanges cursor := by
  refine List.filter_congr fun hunk hhunk => ?_
  have hstarts := List.pairwise_map.mp (d.starts_eq ▸ h.starts)
  have htail := hstarts.sublist (List.drop_sublist cursor d.hunks)
  rw [List.drop_eq_getElem_cons hcursor] at htail hhunk
  have hle : (d.hunkRange d.hunks[cursor]).start ≤
      (d.hunkRange hunk).start := by
    rcases List.mem_cons.mp hhunk with rfl | hhunk
    · exact Nat.le_refl _
    · exact (List.pairwise_cons.mp htail).1 hunk hhunk
  have hnot : touches (d.hunkRange hunk) lines = false := by
    refine Bool.eq_false_iff.mpr fun htouch => ?_
    have := touches_iff.mp htouch
    omega
  rw [List.any_cons, hnot, Bool.false_or]

theorem Diff.nextInLineRanges_yields (cursor : Nat) (h : Sorted d.ranges)
    (hlines : Ascending lineRanges) :
    d.Yields lineRanges cursor (d.nextInLineRanges lineRanges cursor) := by
  fun_induction Diff.nextInLineRanges d lineRanges cursor with
  | case1 cursor =>
      exact List.filter_eq_nil_iff.mpr fun _ _ hany => Bool.noConfusion hany
  | case2 cursor startLine endLine rest hcursor hunk hskip ih =>
      have hyields := ih hlines
      have htouching := d.touching_skip cursor hlines
      revert hyields
      generalize d.nextInLineRanges _ _ = result
      intro hyields
      cases result with
      | none => exact htouching.trans hyields
      | some result => exact ⟨htouching.trans hyields.1, hyields.2⟩
  | case3 cursor startLine endLine rest hcursor hunk hskip hle =>
      refine ⟨d.touching_cons hcursor List.mem_cons_self ?_, hlines⟩
      exact touches_iff.mpr ⟨Nat.le_of_not_lt hskip, hle⟩
  | case4 cursor startLine endLine rest hcursor hunk hskip hle ih =>
      have hyields := ih (List.pairwise_cons.mp hlines).2
      have htouching : d.touching ((startLine, endLine) :: rest) cursor =
          d.touching rest cursor :=
        d.touching_tail h hcursor (Nat.lt_of_not_le hle)
      revert hyields
      generalize d.nextInLineRanges _ _ = result
      intro hyields
      cases result with
      | none => exact htouching.trans hyields
      | some result => exact ⟨htouching.trans hyields.1, hyields.2⟩
  | case5 cursor startLine endLine rest hcursor =>
      show d.touching _ _ = []
      unfold Diff.touching
      rw [List.drop_eq_nil_of_le (Nat.le_of_not_lt hcursor), List.filter_nil]

theorem Diff.collectInLineRanges_eq (h : Sorted d.ranges)
    (hlines : Ascending lineRanges) :
    d.collectInLineRanges lineRanges cursor =
      d.touching lineRanges cursor := by
  fun_induction Diff.collectInLineRanges d lineRanges cursor with
  | case1 lineRanges cursor hnext =>
      have hyields := d.nextInLineRanges_yields cursor h hlines
      rw [hnext] at hyields
      exact hyields.symm
  | case2 lineRanges cursor hunk rest cursor' hnext ih =>
      have hyields := d.nextInLineRanges_yields cursor h hlines
      rw [hnext] at hyields
      rw [ih hyields.2]
      exact hyields.1.symm

theorem Diff.hunksIntersecting_iff (h : Sorted d.ranges)
    (hlines : Ascending lineRanges) :
    d.hunksIntersectingLineRanges lineRanges =
        d.hunks.filter (fun hunk =>
          lineRanges.any (intersects (d.hunkRange hunk))) ↔
      ∀ r ∈ d.ranges, r.start < r.stop →
        (∃ lines ∈ lineRanges, r.stop = lines.1 ∧ r.start ≤ lines.2) →
        ∃ lines ∈ lineRanges, intersects r lines := by
  unfold Diff.hunksIntersectingLineRanges
  rw [d.collectInLineRanges_eq h hlines, Diff.touching, List.drop_zero]
  constructor
  · intro heq r hr hfull hend
    obtain ⟨hunk, hhunk, rfl⟩ := List.mem_map.mp hr
    obtain ⟨lines, hmem, hstop, hstart⟩ := hend
    have hkept : hunk ∈ d.hunks.filter fun hunk =>
        lineRanges.any (touches (d.hunkRange hunk)) := by
      refine List.mem_filter.mpr ⟨hhunk, List.any_eq_true.mpr ⟨lines, hmem, ?_⟩⟩
      exact touches_iff.mpr ⟨Nat.le_of_eq hstop.symm, hstart⟩
    rw [heq] at hkept
    exact List.any_eq_true.mp (List.mem_filter.mp hkept).2
  · intro hall
    refine List.filter_congr fun hunk hhunk => Bool.eq_iff_iff.mpr ?_
    have hmem : d.hunkRange hunk ∈ d.ranges := List.mem_map_of_mem hhunk
    have hself := h.1 _ hmem
    rw [List.any_eq_true, List.any_eq_true]
    constructor
    · rintro ⟨lines, hlines', htouch⟩
      have htouch' := touches_iff.mp htouch
      by_cases hend : (d.hunkRange hunk).start < (d.hunkRange hunk).stop ∧
          (d.hunkRange hunk).stop = lines.1
      · exact hall _ hmem hend.1 ⟨lines, hlines', hend.2, htouch'.2⟩
      · refine ⟨lines, hlines', ?_⟩
        unfold intersects
        split
        · rename_i hempty
          rw [isEmpty_iff] at hempty
          refine decide_eq_true ?_
          omega
        · rename_i hfull
          rw [isEmpty_iff] at hfull
          refine decide_eq_true ?_
          omega
    · rintro ⟨lines, hlines', hin⟩
      refine ⟨lines, hlines', touches_iff.mpr ?_⟩
      unfold intersects at hin
      split at hin
      · have := of_decide_eq_true hin
        omega
      · have := of_decide_eq_true hin
        omega

end LineRanges

-- == law

/-- Each lookup does what a scan does, whatever hunk with the key the search
returns, exactly if there are no more hunks with the key than it can deal with;
and the iterator yields the hunks with some of the lines exactly if no other one
ends where some of the lines begin. -/
theorem hunk_search_law (d : Diff) (h : Sorted d.ranges) (line : Nat)
    (includeRemoval : Bool) (lineRanges : List (Nat × Nat))
    (hlines : Ascending lineRanges) :
    ((∀ search, Searches search →
        First (After line) d.ranges (d.nextHunk search line)) ↔
      d.ranges.Pairwise fun a b => ¬(a.start = line ∧ b.start = line)) ∧
    ((∀ search, Searches search → ∃ found,
        d.prevHunk search line = .ok found ∧
          Last (Before line) d.ranges found) ↔
      d.ranges.Pairwise fun a b => ¬(a = ⟨line, line⟩ ∧
        b = ⟨line, line⟩)) ∧
    ((∀ search, Searches search → ∃ found,
        d.hunkAt search line includeRemoval = .ok found ∧
          Any (Covers includeRemoval line) d.ranges found) ↔
      includeRemoval ∨ (⟨line, line⟩ : LineRange) ∉ d.ranges) ∧
    (d.hunksIntersectingLineRanges lineRanges =
        d.hunks.filter (fun hunk =>
          lineRanges.any (intersects (d.hunkRange hunk))) ↔
      ∀ r ∈ d.ranges, r.start < r.stop →
        (∃ lines ∈ lineRanges, r.stop = lines.1 ∧ r.start ≤ lines.2) →
        ∃ lines ∈ lineRanges, intersects r lines) :=
  ⟨d.nextHunk_iff h, d.prevHunk_iff h, d.hunkAt_iff h,
    d.hunksIntersecting_iff h hlines⟩

/-- Lines that are changed and, further down, removed. -/
def sample : Diff :=
  ⟨[⟨⟨10, 13⟩, ⟨10, 13⟩⟩, ⟨⟨20, 21⟩, ⟨20, 20⟩⟩], false⟩

theorem sample_sorted : Sorted sample.ranges := ⟨by decide, by decide⟩

theorem hunk_search_law_sample :
    ∃ found, sample.hunkAt searchFirst 11 false = .ok found ∧
      Any (Covers false 11) sample.ranges found :=
  (hunk_search_law sample sample_sorted 11 false []
    List.Pairwise.nil).2.2.1.mpr (.inr (by decide)) searchFirst searches_first

/-- A removal that was not asked for, and a hunk before the lines. -/
theorem not_hunk_search_law_removal :
    (Sorted sample.ranges ∧ Searches searchFirst ∧
      sample.hunkAt searchFirst 20 false = .ok (some 1) ∧
      ¬Any (Covers false 20) sample.ranges (some 1)) ∧
    sample.hunksIntersectingLineRanges [(13, 13)] =
        [⟨⟨10, 13⟩, ⟨10, 13⟩⟩] ∧
      sample.hunks.filter (fun hunk =>
        [(13, 13)].any (intersects (sample.hunkRange hunk))) = [] := by
  refine ⟨⟨sample_sorted, searches_first, by decide, ?_⟩, ?_, by decide⟩
  · rintro ⟨r, hr, hcovers⟩
    cases hr
    exact absurd hcovers.1 Bool.false_ne_true
  · unfold Diff.hunksIntersectingLineRanges
    rw [Diff.collectInLineRanges_eq sample_sorted (List.pairwise_singleton _ _)]
    decide

end Zmax.Vcs
