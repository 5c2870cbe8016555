/-
Selections that follow the changes of their ranges.

Both `change_by_and_with_selection` and `delete_by_and_with_selection` map
a range through its own change and shift it by the changes in front of it;
`Selection::map` maps every end through all the changes. What an end is
mapped to is the same `shift` on both sides, of the range's own change or
of all of them, so the two agree on the ends where the shifts add up
(`shift_split` for changes within their ranges).
-/
import Mathlib.Algebra.Ring.Int.Defs
import Zmax.Core.Proofs.Deletions
import Zmax.Core.Proofs.Normalize
import Zmax.Core.Proofs.Placing
import Zmax.Core.Proofs.Selection

namespace Zmax

open Script ChangeSet Transaction

variable {U : Unicode}

-- == mapping a range

namespace Range

/-- The range without its visual position. -/
def bare (self : Range) : Range := new self.anchor self.head

/-- The association of the end of a range. -/
def edge (self : Range) : Assoc :=
  if self.anchor = self.head then .afterSticky else .beforeSticky

/-- The range with its ends moved. -/
def moved (place : Assoc → Nat → Nat) (self : Range) : Range :=
  self.updated (place .afterSticky self.start) (place self.edge self.stop)

theorem positions_eq (r : Range) :
    r.positions = [(r.start, .afterSticky), (r.stop, r.edge)] := by
  unfold positions edge start stop
  split
  · next h => simp [h]
  · next h =>
      split
      · next hlt => rw [Nat.min_eq_left hlt.le, Nat.max_eq_right hlt.le]
      · next hlt =>
          have hle : r.head ≤ r.anchor := Nat.le_of_not_lt hlt
          rw [Nat.min_eq_right hle, Nat.max_eq_left hle]

/-- An end sticks behind what is inserted at the start of the range, and
in front of it elsewhere. -/
theorem sides {r : Range} {p : Nat × Assoc} (hp : p ∈ r.positions) :
    r.start ≤ p.1 ∧ p.1 ≤ r.stop
      ∧ (p.1 = r.start → p.2 = .afterSticky)
      ∧ (r.start < p.1 → p.2 = .beforeSticky) := by
  have hle := r.start_le_stop
  rw [positions_eq] at hp
  rcases List.mem_cons.mp hp with rfl | hp
  · exact ⟨le_rfl, hle, fun _ => rfl, fun h => absurd h (lt_irrefl _)⟩
  · rw [List.mem_singleton.mp hp]
    unfold edge
    refine ⟨hle, le_rfl, fun h => if_pos ?_, fun h => if_neg ?_⟩
    · unfold start stop at h
      dsimp only at h
      omega
    · unfold start stop at h
      dsimp only at h
      omega

/-- A range whose ends stay where they are. -/
theorem moved_self {place : Assoc → Nat → Nat} {r : Range}
    (h : ∀ x ∈ r.positions, place x.2 x.1 = x.1) : r.moved place = r.bare := by
  rw [positions_eq] at h
  have h₁ := h _ List.mem_cons_self
  have h₂ := h _ (List.mem_cons_of_mem _ List.mem_cons_self)
  dsimp only at h₁ h₂
  unfold moved updated bare
  rw [h₁, h₂]
  unfold start stop
  split
  · next hle => rw [Nat.min_eq_left hle, Nat.max_eq_right hle]
  · next hgt =>
      have hle : r.head ≤ r.anchor := by omega
      rw [Nat.min_eq_right hle, Nat.max_eq_left hle]

theorem moved_congr {place place' : Assoc → Nat → Nat} {r : Range}
    (h : ∀ x ∈ r.positions, place x.2 x.1 = place' x.2 x.1) :
    r.moved place = r.moved place' := by
  rw [positions_eq] at h
  have h₁ := h _ List.mem_cons_self
  have h₂ := h _ (List.mem_cons_of_mem _ List.mem_cons_self)
  dsimp only at h₁ h₂
  unfold moved
  rw [h₁, h₂]

end Range

-- == sorted positions

namespace ChangeSet

variable {c : ChangeSet}

/-- The operations cover the text, however many there are. -/
structure Spanning (c : ChangeSet) (len : Nat) : Prop where
  wf : c.WellFormed
  len : c.len = len

/-- Positions in order are moved one by one along the operations. -/
theorem updatePositions_placeIn {len : Nat} (hc : c.Spanning len)
    {positions : List (Nat × Assoc)}
    (hle : ∀ x ∈ positions, x.1 ≤ len)
    (hsorted : positions.Pairwise fun a b => a.1 ≤ b.1) :
    updatePositions U c positions
      = .ok (positions.map fun x => placeIn U x.2 c.changes x.1) := by
  have hin : ∀ x ∈ positions, x.1 ≤ oldLen c.changes := by
    intro x hx
    rw [hc.wf.old, hc.len]
    exact hle x hx
  rw [updatePositions_sorted hsorted hin]
  congr 1
  refine List.map_congr_left fun x hx => ?_
  exact mapped_eq_placeIn (hin x hx)

/-- An empty change set leaves positions where they are. -/
theorem placeIn_of_isEmpty (h : c.isEmpty) (assoc : Assoc) (pos : Nat) :
    placeIn U assoc c.changes pos = pos := by
  simp only [isEmpty, Bool.or_eq_true, List.isEmpty_iff, beq_iff_eq] at h
  rcases h with h | h
  · rw [h, placeIn]
  · rw [h, placeIn, placeIn]
    split <;> omega

end ChangeSet

namespace Range

variable {c : ChangeSet} {len : Nat}

theorem positions_sorted (r : Range) :
    r.positions.Pairwise fun a b => a.1 ≤ b.1 := by
  rw [positions_eq]
  refine List.pairwise_cons.mpr ⟨fun x hx => ?_, List.pairwise_singleton ..⟩
  rw [List.mem_singleton.mp hx]
  exact r.start_le_stop

/-- Mapped through changes, a range is moved along them. -/
theorem map_spec (hc : c.Spanning len) {r : Range} (hr : r.Within len) :
    ∃ new, r.map U c = .ok new
      ∧ new.bare = r.moved fun assoc => placeIn U assoc c.changes := by
  unfold map
  by_cases he : c.isEmpty
  · rw [if_pos he]
    exact ⟨r, rfl, (moved_self fun x _ => placeIn_of_isEmpty he _ _).symm⟩
  · rw [if_neg he, updatePositions_placeIn hc hr.positions r.positions_sorted,
      positions_eq]
    refine ⟨_, rfl, ?_⟩
    unfold moved updated bare
    dsimp only
    split <;> rfl

end Range

-- == mapping a selection

namespace Selection

variable {c : ChangeSet} {len : Nat}

/-- Two selections with the same ends and the same primary range. -/
structure SameRanges (a b : Selection) : Prop where
  ranges : a.ranges.map Range.bare = b.ranges.map Range.bare
  primary : a.primaryIndex = b.primaryIndex

/-- The positions of ranges that are apart are in order. -/
theorem positions_sorted {ranges : List Range} (h : Normal ranges) :
    (ranges.flatMap Range.positions).Pairwise fun a b => a.1 ≤ b.1 := by
  rw [List.pairwise_flatMap]
  refine ⟨fun r _ => r.positions_sorted, h.apart_stop.imp ?_⟩
  intro a b hab x hx y hy
  rw [Range.positions_eq] at hx hy
  have ha := a.start_le_stop
  have hb := b.start_le_stop
  have hxle : x.1 ≤ a.stop := by
    rcases List.mem_cons.mp hx with rfl | hx
    · exact ha
    · rw [List.mem_singleton.mp hx]
  have hyge : b.start ≤ y.1 := by
    rcases List.mem_cons.mp hy with rfl | hy
    · exact le_rfl
    · rw [List.mem_singleton.mp hy]
      exact hb
  exact hxle.trans (Nat.le_trans hab hyge)

/-- Ends moved one by one move the ranges one by one. -/
theorem restore_moved (place : Assoc → Nat → Nat) (ranges : List Range) :
    restore ranges ((ranges.flatMap Range.positions).map
        fun x => place x.2 x.1)
      = ranges.map (Range.moved place) := by
  induction ranges with
  | nil =>
      rw [restore]
      · rfl
      · intro range ranges first second out h
        cases h
  | cons r ranges ih =>
      rw [List.flatMap_cons, Range.positions_eq, List.map_append]
      exact congrArg (r.moved place :: ·) ih

theorem bare_moved (place : Assoc → Nat → Nat) (r : Range) :
    (r.moved place).bare = r.moved place := by
  unfold Range.moved Range.updated Range.bare
  split <;> rfl

/-- Mapped through changes, a selection is moved along them. -/
theorem mapNoNormalize_spec (hc : c.Spanning len) {s : Selection}
    (hs : Normal s.ranges) (hwithin : s.Within len) :
    ∃ new, s.mapNoNormalize U c = .ok new
      ∧ new.primaryIndex = s.primaryIndex
      ∧ new.ranges.map Range.bare
        = s.ranges.map (Range.moved fun assoc => placeIn U assoc c.changes)
      ∧ (¬ c.isEmpty → new.ranges
        = s.ranges.map
            (Range.moved fun assoc => placeIn U assoc c.changes)) := by
  unfold mapNoNormalize
  by_cases he : c.isEmpty
  · rw [if_pos he]
    refine ⟨s, rfl, rfl, ?_, fun hne => absurd he hne⟩
    refine List.map_congr_left fun r _ => ?_
    exact (Range.moved_self fun x _ => placeIn_of_isEmpty he _ _).symm
  · have hle : ∀ x ∈ s.ranges.flatMap Range.positions, x.1 ≤ len := by
      intro x hx
      obtain ⟨r, hr, hx⟩ := List.mem_flatMap.mp hx
      exact (hwithin r hr).positions x hx
    have hmoved := restore_moved
      (fun assoc => placeIn U assoc c.changes) s.ranges
    rw [if_neg he, updatePositions_placeIn hc hle (positions_sorted hs)]
    refine ⟨_, rfl, rfl, ?_, fun _ => hmoved⟩
    show (restore s.ranges _).map Range.bare = _
    rw [hmoved, List.map_map]
    exact List.map_congr_left fun r _ => bare_moved _ r

end Selection

-- == changes within their ranges

namespace Transaction

/-- A range with its change. -/
abbrev Changed := Range × Change

/-- The changes lie within their ranges, and the ranges are apart. -/
structure Inside (xs : List Changed) : Prop where
  apart : xs.Pairwise fun a b =>
    a.1.stop ≤ b.1.start ∧ a.1.start < b.1.start
  within : ∀ x ∈ xs, x.1.start ≤ x.2.1 ∧ x.2.1 ≤ x.2.2.1
    ∧ x.2.2.1 ≤ x.1.stop

/-- The sizes of changes add up. -/
def offset (changes : List Change) : Int := (changes.map changeSize).sum

/-- Changes that a position is past move it by their sizes. -/
theorem shift_append {assoc : Assoc} {pos : Nat} {rest : List Change} :
    ∀ {front : List Change},
      (∀ x ∈ front, x.1 ≤ x.2.1 ∧ Past assoc x pos) →
      shift assoc (front ++ rest) pos
        = offset front + shift assoc rest pos := by
  intro front
  induction front with
  | nil =>
      intro _
      exact (Int.zero_add _).symm
  | cons x front ih =>
      intro h
      obtain ⟨⟨hx, hpast⟩, hfront⟩ := List.forall_mem_cons.mp h
      rw [List.cons_append, shift_past hx hpast, ih hfront, offset, offset,
        List.map_cons, List.sum_cons]
      omega

/-- Changes that do not move a position may be left out behind one. -/
theorem shift_singleton {assoc : Assoc} {pos : Nat} {x : Change}
    {rest : List Change} (hx : x.1 ≤ x.2.1)
    (h : shift assoc rest pos = 0) :
    shift assoc (x :: rest) pos = shift assoc [x] pos := by
  by_cases hfront : pos < x.1
  · rw [shift_front hfront, shift_front hfront]
  · by_cases hpast : Past assoc x pos
    · rw [shift_past hx hpast, shift_past hx hpast, h, shift]
    · rw [shift_within (by omega) hpast, shift_within (by omega) hpast]

/-- An end of a range is moved by the changes in front of it and by the
change of the range. -/
theorem shift_split {front back : List Changed} {x : Changed}
    (h : Inside (front ++ x :: back)) {p : Nat × Assoc}
    (hp : p ∈ x.1.positions) :
    shift p.2 ((front ++ x :: back).map (·.2)) p.1
      = offset (front.map (·.2)) + shift p.2 [x.2] p.1 := by
  obtain ⟨hapart, hwithin⟩ := h
  obtain ⟨-, hxback, hfront⟩ := List.pairwise_append.mp hapart
  have hback := (List.pairwise_cons.mp hxback).1
  have hx := hwithin x (by simp)
  -- an end of the range, on which side it sticks at the start of it
  have hend : x.1.start ≤ p.1 ∧ p.1 ≤ x.1.stop
      ∧ (p.1 = x.1.start → p.2 = .afterSticky)
      ∧ (x.1.start < p.1 → p.2 = .beforeSticky) :=
    Range.sides hp
  obtain ⟨hlow, hhigh, hstart, hstop⟩ := hend
  rw [List.map_append, List.map_cons, shift_append, shift_singleton hx.2.1]
  · refine shift_of_le ?_ ?_ ?_
    · intro y hy
      obtain ⟨z, hz, rfl⟩ := List.mem_map.mp hy
      exact (hwithin z (by simp [hz])).2.1
    · intro y hy
      obtain ⟨z, hz, rfl⟩ := List.mem_map.mp hy
      have hzin := hwithin z (by simp [hz])
      have := (hback z hz).1
      omega
    · intro y hy heq
      obtain ⟨z, hz, rfl⟩ := List.mem_map.mp hy
      have hzin := hwithin z (by simp [hz])
      have hzx := hback z hz
      left
      rw [hstop (by omega)]
      decide
  · intro y hy
    obtain ⟨z, hz, rfl⟩ := List.mem_map.mp hy
    have hzin := hwithin z (by simp [hz])
    have hzx := hfront z hz x List.mem_cons_self
    refine ⟨hzin.2.1, ?_⟩
    rcases Nat.lt_or_ge z.2.2.1 p.1 with hlt | hge
    · exact .inl hlt
    · exact .inr ⟨by omega, .inr (hstart (by omega))⟩

-- == change by range

theorem asUsize_natCast (n : Nat) : asUsize (n : Int) = n := by
  unfold asUsize
  rw [if_neg (by omega), Int.toNat_natCast]

/-- Shifting a moved range is moving it further. -/
theorem shifted_moved {place place' : Assoc → Nat → Nat} {off : Int}
    {r : Range} (h : ∀ p ∈ r.positions,
      (place p.2 p.1 : Int) + off = place' p.2 p.1) :
    Range.new (asUsize ((r.moved place).anchor + off))
        (asUsize ((r.moved place).head + off))
      = r.moved place' := by
  rw [Range.positions_eq] at h
  have hfirst := h _ List.mem_cons_self
  have hsecond := h _ (List.mem_cons_of_mem _ List.mem_cons_self)
  dsimp only at hfirst hsecond
  unfold Range.moved Range.updated Range.new
  split
  · dsimp only
    rw [hfirst, hsecond, asUsize_natCast, asUsize_natCast]
  · dsimp only
    rw [hfirst, hsecond, asUsize_natCast, asUsize_natCast]

section Changes

variable {doc : Rope} {f : Nat → Range → Change × Option Range}

/-- The change the callback returns for a range. -/
def changeOf (f : Nat → Range → Change × Option Range) (x : Range × Nat) :
    Change := (f x.2 x.1).1

/-- Each range of the loop ends up where all the changes move it, if that
is its own change and the ones before it. -/
theorem changeRangesLoop_spec {place : Assoc → Nat → Nat}
    {xs : List (Range × Nat)} : ∀ {off : Int},
    (∀ x ∈ xs, (f x.2 x.1).2 = none) →
    (∀ front x back, xs = front ++ x :: back →
      ∃ c, fromChanges doc [changeOf f x] = .ok c
        ∧ c.Spanning doc.length ∧ x.1.Within doc.length
        ∧ ∀ p ∈ x.1.positions, (placeIn U p.2 c.changes p.1 : Int)
            + (off + offset (front.map (changeOf f))) = place p.2 p.1) →
    changeRangesLoop U doc f xs off
      = .ok (xs.map (changeOf f), xs.map fun x => x.1.moved place) := by
  induction xs with
  | nil =>
      intro off _ _
      rfl
  | cons x xs ih =>
      intro off hnone hplace
      obtain ⟨c, hc, hspan, hwithin, hends⟩ := hplace [] x xs rfl
      obtain ⟨new, hnew, hbare⟩ := Range.map_spec (U := U) hspan hwithin
      obtain ⟨hx, hnone⟩ := List.forall_mem_cons.mp hnone
      have hrest := @ih (off + changeSize (changeOf f x)) hnone (by
        intro front y back heq
        obtain ⟨d, hd, hspan, hwithin, hends⟩ :=
          hplace (x :: front) y back (by rw [heq]; rfl)
        refine ⟨d, hd, hspan, hwithin, fun p hp => ?_⟩
        rw [← hends p hp, List.map_cons, offset, offset, List.map_cons,
          List.sum_cons]
        omega)
      have hshift : Range.new (asUsize (new.anchor + off))
          (asUsize (new.head + off)) = x.1.moved place := by
        have hoff := @shifted_moved
          (fun assoc => placeIn U assoc c.changes) place off x.1 (by
            intro p hp
            have := hends p hp
            rwa [List.map_nil, offset, List.map_nil, List.sum_nil,
              Int.add_zero] at this)
        rwa [← hbare] at hoff
      have hnewRange : newRange U doc (f x.2 x.1).1 (f x.2 x.1).2 x.1
          = .ok new := by
        rw [hx]
        unfold newRange
        dsimp only
        rw [show fromChanges doc [(f x.2 x.1).1] = .ok c from hc]
        exact hnew
      obtain ⟨r, n⟩ := x
      rw [changeRangesLoop]
      dsimp only at hnewRange ⊢
      rw [hnewRange]
      simp only [ok_bind]
      rw [hshift, show changeSize (f n r).1 = changeSize (changeOf f (r, n))
        from rfl, hrest]
      rfl

/-- Changes of ranges that are apart, each within its range, are
ordered. -/
theorem Inside.ordered {len : Nat} {xs : List Changed} (h : Inside xs)
    (hlen : ∀ x ∈ xs, x.1.stop ≤ len) : ∀ {last : Nat}, last ≤ len →
      (∀ x ∈ xs, last ≤ x.1.start) → Ordered len last (xs.map (·.2)) := by
  induction xs with
  | nil =>
      intro last hlast _
      exact hlast
  | cons x xs ih =>
      intro last _ hlast
      obtain ⟨hapart, hwithin⟩ := h
      obtain ⟨hx, hxs⟩ := List.pairwise_cons.mp hapart
      have hin := hwithin x List.mem_cons_self
      have hxlen := hlen x List.mem_cons_self
      have hxlast := hlast x List.mem_cons_self
      have hstart : last ≤ x.2.1 := hxlast.trans hin.1
      refine ⟨hstart, hin.2.1, ?_⟩
      refine ih ⟨hxs, fun y hy => hwithin y (List.mem_cons_of_mem _ hy)⟩
        (fun y hy => hlen y (List.mem_cons_of_mem _ hy))
        (hin.2.2.trans hxlen) fun y hy => ?_
      exact hin.2.2.trans (hx y hy).1

/-- A change set of a list of changes that do not mix moves positions by
the shifts of the changes. -/
theorem placeIn_fromChanges {changes : List Change}
    (hord : Ordered doc.length 0 changes) (hun : Unmixed changes) :
    ∃ c, fromChanges doc changes = .ok c ∧ c.Spanning doc.length
      ∧ ∀ pos assoc, assoc.sticky →
        (placeIn U assoc c.changes pos : Int)
          = pos + shift assoc changes pos := by
  obtain ⟨c, hc, hwf, hlen, -⟩ := fromChanges_spec hord
  refine ⟨c, hc, ⟨hwf, hlen⟩, fun pos assoc hst => ?_⟩
  have hplace := placeIn_changesScript (U := U) hst hord hun
    (Nat.zero_le pos)
  rw [fromChanges_normalForm hord hc]
  rw [Nat.sub_zero] at hplace
  rw [hplace]
  omega

theorem unmixed_singleton (x : Change) : Unmixed [x] := by
  unfold Unmixed
  by_cases h : x.effective
  · rw [List.filter_cons_of_pos h]
    exact .singleton x
  · rw [List.filter_cons_of_neg h]
    exact .nil

theorem sticky_of_mem {r : Range} {p : Nat × Assoc}
    (hp : p ∈ r.positions) : p.2.sticky := by
  rw [Range.positions_eq] at hp
  rcases List.mem_cons.mp hp with rfl | hp
  · rfl
  · rw [List.mem_singleton.mp hp]
    unfold Range.edge
    dsimp only
    split <;> rfl

/-- Without their visual positions, ranges are as apart as before. -/
theorem normal_bare {ranges : List Range} (h : Selection.Normal ranges) :
    Selection.Normal (ranges.map Range.bare) :=
  ⟨List.pairwise_map.mpr h.sorted, List.pairwise_map.mpr h.apart⟩

/-- The selection of ranges that were moved as `map` moves them. -/
theorem sameRanges_of_moved {c : ChangeSet} {len : Nat}
    (hc : c.Spanning len) {selection : Selection}
    (hnormal : Selection.Normal selection.ranges)
    (hwithin : selection.Within len) {new : Selection}
    (hnew : Selection.new (selection.ranges.map
      (Range.moved fun assoc => placeIn U assoc c.changes))
      selection.primaryIndex = .ok new) :
    ∃ mapped, selection.map U c = .ok mapped
      ∧ new.SameRanges mapped ∧ (¬ c.isEmpty → new = mapped) := by
  obtain ⟨m, hm, hprimary, hbare, hfull⟩ :=
    Selection.mapNoNormalize_spec (U := U) hc hnormal hwithin
  have hmap : selection.map U c = .ok m.normalize := by
    unfold Selection.map
    rw [hm]
    rfl
  refine ⟨m.normalize, hmap, ?_⟩
  unfold Selection.new at hnew
  split at hnew
  · next hlt =>
    injection hnew with hnew
    by_cases he : c.isEmpty
    · -- nothing is moved, and normal ranges stay as they are
      unfold Selection.mapNoNormalize at hm
      rw [if_pos he] at hm
      injection hm with hm
      subst hm
      have hmoved := normal_bare hnormal
      rw [hbare] at hmoved
      rw [Selection.normalize_of_normal hmoved] at hnew
      rw [Selection.normalize_of_normal hnormal]
      subst hnew
      refine ⟨⟨?_, rfl⟩, fun hne => absurd he hne⟩
      dsimp only
      rw [← hbare, List.map_map]
      rfl
    · obtain ⟨ranges, primaryIndex, hlt'⟩ := m
      dsimp only at hprimary hfull
      have hranges := hfull he
      subst hprimary hranges hnew
      exact ⟨⟨rfl, rfl⟩, fun _ => rfl⟩
  · cases hnew

/-- The ranges of a normalized selection, numbered, with their
changes. -/
theorem inside_zipIdx {selection : Selection}
    (hnormal : Selection.Normal selection.ranges)
    (hinside : ∀ x ∈ selection.ranges.zipIdx,
      x.1.start ≤ (changeOf f x).1 ∧ (changeOf f x).1 ≤ (changeOf f x).2.1
        ∧ (changeOf f x).2.1 ≤ x.1.stop) :
    Inside (selection.ranges.zipIdx.map fun x => (x.1, changeOf f x)) := by
  constructor
  · have hapart : (selection.ranges.zipIdx.map (·.1)).Pairwise
        fun a b => a.stop ≤ b.start ∧ a.start < b.start := by
      rw [List.zipIdx_map_fst]
      refine (hnormal.apart_stop.and (hnormal.sorted.and
        hnormal.apart)).imp fun {a b} hab => ?_
      obtain ⟨hstop, hle, hov⟩ := hab
      rw [Range.overlaps_iff hle] at hov
      exact ⟨hstop, by omega⟩
    exact List.pairwise_map.mpr (List.pairwise_map.mp hapart)
  · intro y hy
    obtain ⟨x, hx, rfl⟩ := List.mem_map.mp hy
    exact hinside x hx

/-- Each range ends up where the changes move it, whether it is mapped
through its own change and shifted or mapped through all of them, if every
change lies within its range and no two of them mix. -/
theorem change_selection_law (U : Unicode) (doc : Rope)
    (selection : Selection) (f : Nat → Range → Change × Option Range)
    (hnormal : Selection.Normal selection.ranges)
    (hwithin : selection.Within doc.length)
    (hnone : ∀ x ∈ selection.ranges.zipIdx, (f x.2 x.1).2 = none)
    (hinside : ∀ x ∈ selection.ranges.zipIdx,
      x.1.start ≤ (changeOf f x).1 ∧ (changeOf f x).1 ≤ (changeOf f x).2.1
        ∧ (changeOf f x).2.1 ≤ x.1.stop)
    (hun : Unmixed (selection.ranges.zipIdx.map (changeOf f))) :
    ∃ tx new mapped, changeByAndWithSelection U doc selection f = .ok tx
      ∧ tx.selection = some new
      ∧ selection.map U tx.changes = .ok mapped
      ∧ new.SameRanges mapped
      ∧ (¬ tx.changes.isEmpty → new = mapped) := by
  have hin := inside_zipIdx hnormal hinside
  have hends : ∀ x ∈ selection.ranges.zipIdx, x.1.Within doc.length :=
    fun x hx => hwithin x.1 (List.fst_mem_of_mem_zipIdx hx)
  have hmap : (selection.ranges.zipIdx.map fun x =>
      (x.1, changeOf f x)).map (·.2)
      = selection.ranges.zipIdx.map (changeOf f) := by
    rw [List.map_map]
    rfl
  have hord : Ordered doc.length 0
      (selection.ranges.zipIdx.map (changeOf f)) := by
    rw [← hmap]
    refine hin.ordered ?_ (Nat.zero_le _) fun y _ => Nat.zero_le _
    intro y hy
    obtain ⟨x, hx, rfl⟩ := List.mem_map.mp hy
    exact Nat.max_le.mpr (hends x hx)
  obtain ⟨c, hc, hspan, hplace⟩ := placeIn_fromChanges (U := U) hord hun
  -- the loop moves every range as the whole change set does
  have hloop := @changeRangesLoop_spec U doc f
    (fun assoc => placeIn U assoc c.changes) selection.ranges.zipIdx 0
    hnone (by
      intro front x back heq
      have hx : x ∈ selection.ranges.zipIdx := by simp [heq]
      have hxin := hinside x hx
      have hxlen : (changeOf f x).2.1 ≤ doc.length :=
        hxin.2.2.trans (Nat.max_le.mpr (hends x hx))
      have hsingle : Ordered doc.length 0 [changeOf f x] :=
        ⟨Nat.zero_le _, hxin.2.1, hxlen⟩
      obtain ⟨d, hd, hdspan, hdplace⟩ := placeIn_fromChanges (U := U)
        hsingle (unmixed_singleton _)
      refine ⟨d, hd, hdspan, hends x hx, fun p hp => ?_⟩
      have hsticky := sticky_of_mem hp
      have hlist : selection.ranges.zipIdx.map (fun x =>
          (x.1, changeOf f x))
          = front.map (fun x => (x.1, changeOf f x))
            ++ (x.1, changeOf f x) ::
              back.map fun x => (x.1, changeOf f x) := by
        rw [heq, List.map_append, List.map_cons]
      have hsplit := shift_split (hlist ▸ hin) hp
      rw [← hlist, hmap, List.map_map] at hsplit
      rw [hdplace _ _ hsticky, hplace _ _ hsticky, hsplit]
      show _ = (p.1 : Int) + (offset (front.map (changeOf f))
        + shift p.2 [changeOf f x] p.1)
      omega)
  have hmoved : (selection.ranges.zipIdx.map fun x =>
      x.1.moved fun assoc => placeIn U assoc c.changes)
      = selection.ranges.map
          (Range.moved fun assoc => placeIn U assoc c.changes) := by
    have hfst := List.zipIdx_map_fst 0 selection.ranges
    conv_rhs => rw [← hfst, List.map_map]
    rfl
  rw [hmoved] at hloop
  obtain ⟨new, hnew⟩ : ∃ new, Selection.new (selection.ranges.map
      (Range.moved fun assoc => placeIn U assoc c.changes))
      selection.primaryIndex = .ok new := by
    unfold Selection.new
    rw [dif_pos (by rw [List.length_map]; exact selection.primary_lt)]
    exact ⟨_, rfl⟩
  obtain ⟨mapped, hm, hsame, hfull⟩ :=
    sameRanges_of_moved hspan hnormal hwithin hnew
  refine ⟨(ofChanges c).withSelection new, new, mapped, ?_, rfl, hm, hsame,
    hfull⟩
  unfold changeByAndWithSelection change
  rw [hloop]
  simp only [ok_bind]
  rw [hc]
  simp only [ok_bind, pure, Except.pure]
  rw [hnew]
  rfl

/-- The changes of a callback that returns these. -/
def changesOf (changes : List Change) (n : Nat) (_ : Range) :
    Change × Option Range :=
  (changes.getD n (0, 0, none), none)

/-- A replacement that grows and a deletion behind it. -/
theorem change_selection_law_grow :
    let doc : Rope := ['a', 'b', 'c', 'd']
    let selection : Selection := ⟨[.new 1 0, .new 2 4], 1, by decide⟩
    let f := changesOf [(0, 1, some ['x', 'y']), (3, 4, none)]
    ∃ tx new mapped,
      changeByAndWithSelection .ascii doc selection f = .ok tx
      ∧ tx.selection = some new
      ∧ selection.map .ascii tx.changes = .ok mapped
      ∧ new.SameRanges mapped
      ∧ (¬ tx.changes.isEmpty → new = mapped) :=
  change_selection_law .ascii _ _ _ ⟨by decide, by decide⟩ (by decide)
    (by decide) (by decide) (.cons_cons (by decide) (.singleton _))

/-- Normal ranges are a selection as they are. -/
theorem new_of_normal {ranges : List Range} {i : Nat}
    (h : Selection.Normal ranges) (hi : i < ranges.length) :
    Selection.new ranges i = .ok ⟨ranges, i, hi⟩ := by
  unfold Selection.new
  rw [dif_pos hi]
  exact congrArg Except.ok (Selection.normalize_of_normal h)

/-- A replacement up to the cursor at which the next change inserts: the
first range covers its new text, and is mapped to cover the other's as
well. -/
theorem not_change_selection_law_touching :
    let doc : Rope := ['a', 'b', 'c']
    let selection : Selection := ⟨[.new 3 0, .new 3 3], 0, by decide⟩
    let f := changesOf [(1, 3, some ['x']), (3, 3, some ['y', 'z'])]
    ∃ tx new mapped,
      changeByAndWithSelection .ascii doc selection f = .ok tx
      ∧ tx.selection = some new
      ∧ selection.map .ascii tx.changes = .ok mapped
      ∧ ¬ new.SameRanges mapped := by
  intro doc selection f
  have hloop : changeRangesLoop .ascii doc f selection.ranges.zipIdx 0
      = .ok ([(1, 3, some ['x']), (3, 3, some ['y', 'z'])],
        [.new 2 0, .new 4 4]) := rfl
  have hchange : change doc [(1, 3, some ['x']), (3, 3, some ['y', 'z'])]
      = .ok ⟨⟨[.retain 1, .insert ['x', 'y', 'z'], .delete 2], 3, 4⟩,
        none⟩ := rfl
  have hmap : selection.mapNoNormalize .ascii
      ⟨[.retain 1, .insert ['x', 'y', 'z'], .delete 2], 3, 4⟩
      = .ok ⟨[.new 4 0, .new 4 4], 0, by decide⟩ := rfl
  have hnew : Selection.new [.new 2 0, .new 4 4] 0
      = .ok ⟨[.new 2 0, .new 4 4], 0, by decide⟩ :=
    new_of_normal ⟨by decide, by decide⟩ (by decide)
  refine ⟨⟨⟨[.retain 1, .insert ['x', 'y', 'z'], .delete 2], 3, 4⟩,
      some ⟨[.new 2 0, .new 4 4], 0, by decide⟩⟩, _,
    ⟨[.new 4 0, .new 4 4], 0, by decide⟩, ?_, rfl, ?_, ?_⟩
  · unfold changeByAndWithSelection
    rw [hloop]
    simp only [ok_bind]
    rw [hchange]
    simp only [ok_bind]
    rw [hnew]
    rfl
  · unfold Selection.map
    rw [hmap]
    simp only [ok_bind, pure, Except.pure]
    rw [Selection.normalize_of_normal ⟨by decide, by decide⟩]
  · intro h
    exact absurd h.ranges (by decide)

end Changes

end Transaction

end Zmax
