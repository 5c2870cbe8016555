/-
Selections that follow the deletions of their ranges.

Deletions may overlap, so `Transaction::delete` cuts off what an earlier
one has deleted (`trimmed`); what is left of them are ordered changes, and
an end of a range moves by the positions in front of it that some deletion
covers (`deletedBefore`). `delete_by_and_with_selection` subtracts instead
what the range's own deletion covers in front of the end and everything
the earlier ones do, and `Settled` says when that comes to the same.
-/
import Zmax.Core.Proofs.Following

namespace Zmax

open Script ChangeSet

variable {U : Unicode}

namespace Transaction

-- == positions

/-- How many positions from `first` on and in front of `pos` are in some
of the ranges. -/
def deletedBetween (deletions : List Deletion) (first pos : Nat) : Nat :=
  ((List.range' first (pos - first)).filter
    fun i => !outside deletions i).length

/-- How many positions in front of `pos` are in some of the ranges. -/
def deletedBefore (deletions : List Deletion) (pos : Nat) : Nat :=
  deletedBetween deletions 0 pos

/-- No deletion ends before the previous one does. -/
def Unnested : Nat → List Deletion → Prop
  | _, [] => True
  | last, d :: rest => last ≤ d.2 ∧ Unnested d.2 rest

instance : ∀ (last : Nat) (ds : List Deletion), Decidable (Unnested last ds)
  | _, [] => .isTrue trivial
  | last, d :: rest =>
      have := instDecidableUnnested d.2 rest
      inferInstanceAs (Decidable (last ≤ d.2 ∧ Unnested d.2 rest))

variable {d : Deletion} {rest ds : List Deletion} {last pos : Nat}

theorem outside_cons (d : Deletion) (rest : List Deletion) (i : Nat) :
    outside (d :: rest) i = ((i < d.1 || d.2 ≤ i) && outside rest i) := rfl

/-- A position in front of all the ranges is in none of them. -/
theorem outside_of_lt {i : Nat} (h : ∀ d ∈ ds, i < d.1) :
    outside ds i = true := by
  refine outside_iff.mpr fun d hd hle => ?_
  have := h d hd
  omega

private theorem filter_of_all {p : Nat → Bool} {first n : Nat}
    (h : ∀ i, first ≤ i → i < first + n → p i = true) :
    ((List.range' first n).filter p).length = n := by
  rw [List.filter_eq_self.mpr, List.length_range']
  intro i hi
  obtain ⟨hle, hlt⟩ := List.mem_range'_1.mp hi
  exact h i hle hlt

private theorem filter_of_none {p : Nat → Bool} {first n : Nat}
    (h : ∀ i, first ≤ i → i < first + n → p i = false) :
    ((List.range' first n).filter p).length = 0 := by
  rw [List.filter_eq_nil_iff.mpr, List.length_nil]
  intro i hi
  obtain ⟨hle, hlt⟩ := List.mem_range'_1.mp hi
  rw [h i hle hlt]
  exact Bool.false_ne_true

/-- Where the deletion starts, behind what is deleted already. -/
def trimStart (d : Deletion) (last : Nat) : Nat :=
  if d.1 < last then last else d.1

theorem trimStart_spec (d : Deletion) (last : Nat) :
    last ≤ trimStart d last ∧ d.1 ≤ trimStart d last
      ∧ (trimStart d last = last ∨ trimStart d last = d.1) := by
  unfold trimStart
  split <;> omega

/-- Nothing in front of the first deletion is deleted. -/
theorem deletedBetween_front (hsorted : ∀ e ∈ rest, d.1 ≤ e.1)
    (h : pos ≤ trimStart d last) :
    deletedBetween (d :: rest) last pos = 0 := by
  obtain ⟨-, -, heq⟩ := trimStart_spec d last
  refine filter_of_none fun i hle hlt => ?_
  have hi : i < d.1 := by omega
  rw [outside_of_lt]
  · rfl
  · intro e he
    rcases List.mem_cons.mp he with rfl | he
    · exact hi
    · exact Nat.lt_of_lt_of_le hi (hsorted e he)

/-- Within the first deletion everything is. -/
theorem deletedBetween_within (hsorted : ∀ e ∈ rest, d.1 ≤ e.1)
    (hle : trimStart d last ≤ pos) (hpos : pos ≤ d.2) :
    deletedBetween (d :: rest) last pos = pos - trimStart d last := by
  obtain ⟨hlast, hstart, heq⟩ := trimStart_spec d last
  have hsplit : pos - last
      = (trimStart d last - last) + (pos - trimStart d last) := by omega
  have hfront : deletedBetween (d :: rest) last (trimStart d last) = 0 :=
    deletedBetween_front hsorted le_rfl
  unfold deletedBetween at hfront ⊢
  rw [hsplit, List.range'_append_1.symm, List.filter_append,
    List.length_append, hfront, Nat.zero_add,
    show last + (trimStart d last - last) = trimStart d last from by omega]
  refine filter_of_all fun i hi hlt => ?_
  rw [outside_cons, decide_eq_false (show ¬ i < d.1 by omega),
    decide_eq_false (show ¬ d.2 ≤ i by omega)]
  rfl

/-- Behind the first deletion the others add what they cover there. -/
theorem deletedBetween_cons (hsorted : ∀ e ∈ rest, d.1 ≤ e.1)
    (hd : d.1 ≤ d.2) (hlast : last ≤ d.2) (hpos : d.2 ≤ pos) :
    deletedBetween (d :: rest) last pos
      = (d.2 - trimStart d last) + deletedBetween rest d.2 pos := by
  obtain ⟨hlow, hstart, heq⟩ := trimStart_spec d last
  have hle : trimStart d last ≤ d.2 := by omega
  have hsplit : pos - last = (d.2 - last) + (pos - d.2) := by omega
  have hwithin := deletedBetween_within hsorted hle le_rfl
  unfold deletedBetween at hwithin ⊢
  rw [hsplit, List.range'_append_1.symm, List.filter_append,
    List.length_append, hwithin,
    show last + (d.2 - last) = d.2 from by omega]
  congr 2
  refine List.filter_congr fun i hi => ?_
  obtain ⟨hi, -⟩ := List.mem_range'_1.mp hi
  rw [outside_cons, decide_eq_true (show d.2 ≤ i from hi), Bool.or_true,
    Bool.true_and]

theorem deletedBetween_le (ds : List Deletion) (first pos : Nat) :
    deletedBetween ds first pos ≤ pos - first := by
  refine (List.length_filter_le _ _).trans ?_
  rw [List.length_range']

-- == trimmed deletions

/-- The deletions as changes, without what the ones in front delete. -/
def trimmed : List Deletion → Nat → List Change
  | [], _ => []
  | d :: rest, last => (trimStart d last, d.2, none) :: trimmed rest d.2

attribute [grind =] trimmed

/-- Unless they are nested, deleting is making these changes. -/
theorem deleteLoop_eq {c : ChangeSet} (hspan : ∀ d ∈ ds, d.1 ≤ d.2)
    (h : Unnested last ds) :
    deleteLoop ds last c = fromChangesLoop (trimmed ds last) last c := by
  induction ds generalizing last c with
  | nil => rfl
  | cons d rest ih =>
      obtain ⟨hlast, hrest⟩ := h
      obtain ⟨hd, hspan⟩ := List.forall_mem_cons.mp hspan
      obtain ⟨hlow, -, heq⟩ := trimStart_spec d last
      have hle : trimStart d last ≤ d.2 := by omega
      rw [deleteLoop, if_neg (by omega), trimmed, fromChangesLoop]
      rw [show (if d.1 < last then last else d.1) = trimStart d last from rfl]
      simp only [hlow, hle, decide_true, assert_true, ok_bind,
        checkedSub_of_le hlow, checkedSub_of_le hle]
      exact ih hspan hrest

theorem delete_eq {doc : Rope} (hspan : ∀ d ∈ ds, d.1 ≤ d.2)
    (h : Unnested 0 ds) : delete doc ds = change doc (trimmed ds 0) := by
  unfold delete change fromChanges
  rw [deleteLoop_eq hspan h]
  cases fromChangesLoop (trimmed ds 0) 0 withCapacity with
  | error e => rfl
  | ok r =>
      obtain ⟨last, c⟩ := r
      simp only [ok_bind]
      cases checkedSub doc.length last <;> rfl

/-- What is left of the deletions is ordered. -/
theorem ordered_trimmed {len : Nat}
    (hfit : ∀ d ∈ ds, d.1 ≤ d.2 ∧ d.2 ≤ len) (hle : last ≤ len)
    (h : Unnested last ds) : Ordered len last (trimmed ds last) := by
  induction ds generalizing last with
  | nil => exact hle
  | cons d rest ih =>
      obtain ⟨hlast, hrest⟩ := h
      obtain ⟨⟨hd, hlen⟩, hfit⟩ := List.forall_mem_cons.mp hfit
      obtain ⟨hlow, -, heq⟩ := trimStart_spec d last
      exact ⟨hlow, by omega, ih hfit hlen hrest⟩

theorem trimmed_not_inserts : ∀ {ds : List Deletion} {last : Nat},
    ∀ x ∈ trimmed ds last, ¬ Change.inserts x
  | d :: rest, last, x, hx => by
      rcases List.mem_cons.mp hx with rfl | hx
      · exact Bool.false_ne_true
      · exact trimmed_not_inserts x hx

/-- Deletions do not mix. -/
theorem unmixed_trimmed (ds : List Deletion) (last : Nat) :
    Unmixed (trimmed ds last) := by
  refine List.Pairwise.isChain
    (List.pairwise_of_forall_mem_list fun x hx y hy _ => .inl ⟨?_, ?_⟩)
  · exact trimmed_not_inserts x (List.mem_of_mem_filter hx)
  · exact trimmed_not_inserts y (List.mem_of_mem_filter hy)

/-- A position moves back by what is deleted in front of it. -/
theorem shift_trimmed {assoc : Assoc} (hspan : ∀ d ∈ ds, d.1 ≤ d.2)
    (hsorted : ds.Pairwise fun a b => a.1 ≤ b.1)
    (h : Unnested last ds) :
    shift assoc (trimmed ds last) pos
      = -(deletedBetween ds last pos : Int) := by
  induction ds generalizing last with
  | nil =>
      have hnone : deletedBetween [] last pos = 0 :=
        filter_of_none fun _ _ _ => rfl
      rw [hnone]
      rfl
  | cons d rest ih =>
      obtain ⟨hlast, hrest⟩ := h
      obtain ⟨hd, hspan⟩ := List.forall_mem_cons.mp hspan
      obtain ⟨hlater, hsorted⟩ := List.pairwise_cons.mp hsorted
      obtain ⟨hlow, -, heq⟩ := trimStart_spec d last
      have hle : trimStart d last ≤ d.2 := by omega
      have hno : ¬ Change.inserts (trimStart d last, d.2, none) :=
        Bool.false_ne_true
      rw [trimmed]
      by_cases hfront : pos < trimStart d last
      · rw [shift_front hfront, deletedBetween_front hlater hfront.le]
        rfl
      · by_cases hpast : Past assoc (trimStart d last, d.2, none) pos
        · have hge : d.2 ≤ pos := by
            rcases hpast with h | ⟨h, -⟩
            · exact h.le
            · exact h.le
          rw [shift_past hle hpast, ih hspan hsorted hrest,
            deletedBetween_cons hlater hd hlast hge]
          simp only [changeSize]
          omega
        · have hpos : pos ≤ d.2 := by
            by_contra hgt
            exact hpast (.inl (by dsimp only; omega))
          rw [shift_within (by dsimp only; omega) hpast,
            if_pos (.inr (.inl hno)),
            deletedBetween_within hlater (by omega) hpos]
          dsimp only
          omega

-- == delete by range

section Deletions

variable {doc : Rope} {f : Nat → Range → Deletion × Option Range}

/-- The deletion the callback returns for a range. -/
def deletionOf (f : Nat → Range → Deletion × Option Range)
    (x : Range × Nat) : Deletion := (f x.2 x.1).1

/-- The range with both ends moved alike. -/
theorem moved_const (g : Nat → Nat) (r : Range) :
    r.moved (fun _ => g) = .new (g r.anchor) (g r.head) := by
  unfold Range.moved Range.updated Range.start Range.stop
  split
  · next h => rw [Nat.min_eq_left h, Nat.max_eq_right h]
  · next h =>
      have h : r.head ≤ r.anchor := by omega
      rw [Nat.min_eq_right h, Nat.max_eq_left h]

/-- Mapped through one deletion, a range moves back by what is deleted in
front of its ends. -/
theorem newRange_deletion {d : Deletion} (hd : d.1 ≤ d.2)
    (hlen : d.2 ≤ doc.length) {r : Range} (hr : r.Within doc.length) :
    ∃ new, newRange U doc (d.1, d.2, none) none r = .ok new
      ∧ new.bare = .new (r.anchor - deletedBefore [d] r.anchor)
          (r.head - deletedBefore [d] r.head) := by
  have htrim : trimmed [d] 0 = [(d.1, d.2, none)] := rfl
  have hfit : ∀ e ∈ [d], e.1 ≤ e.2 ∧ e.2 ≤ doc.length := by
    intro e he
    rw [List.mem_singleton.mp he]
    exact ⟨hd, hlen⟩
  have hord : Ordered doc.length 0 (trimmed [d] 0) :=
    ordered_trimmed hfit (Nat.zero_le _) ⟨Nat.zero_le _, trivial⟩
  obtain ⟨c, hc, hspan, hplace⟩ := placeIn_fromChanges (U := U) hord
    (unmixed_trimmed [d] 0)
  obtain ⟨new, hnew, hbare⟩ := Range.map_spec (U := U) hspan hr
  refine ⟨new, ?_, ?_⟩
  · unfold newRange
    rw [htrim] at hc
    dsimp only
    rw [hc]
    exact hnew
  · rw [hbare, ← moved_const fun pos => pos - deletedBefore [d] pos]
    refine Range.moved_congr fun p hp => ?_
    have h := hplace p.1 p.2 (sticky_of_mem hp)
    have hle := deletedBetween_le [d] 0 p.1
    rw [shift_trimmed (fun e he => (hfit e he).1)
      (List.pairwise_singleton ..) ⟨Nat.zero_le _, trivial⟩] at h
    unfold deletedBefore
    omega

/-- Each range of the loop ends up back by what its own deletion deletes
in front of its ends, and by all that those in front delete. -/
theorem deleteRangesLoop_spec {g : Range × Nat → Range}
    {xs : List (Range × Nat)} : ∀ {off last : Nat},
    (∀ x ∈ xs, (f x.2 x.1).2 = none) →
    (∀ x ∈ xs, (deletionOf f x).1 ≤ (deletionOf f x).2
      ∧ (deletionOf f x).2 ≤ doc.length ∧ x.1.Within doc.length) →
    (xs.map (deletionOf f)).Pairwise (fun a b => a.1 ≤ b.1) →
    Unnested last (xs.map (deletionOf f)) →
    (∀ front x back, xs = front ++ x :: back →
      g x = .new
        (x.1.anchor - deletedBefore [deletionOf f x] x.1.anchor
          - (off + deletedBetween (front.map (deletionOf f)) last
            doc.length))
        (x.1.head - deletedBefore [deletionOf f x] x.1.head
          - (off + deletedBetween (front.map (deletionOf f)) last
            doc.length))) →
    deleteRangesLoop U doc f xs off last
      = .ok (xs.map (deletionOf f), xs.map g) := by
  induction xs with
  | nil =>
      intro off last _ _ _ _ _
      rfl
  | cons x xs ih =>
      intro off last hnone hfit hsorted hunnested hg
      obtain ⟨hx, hnone⟩ := List.forall_mem_cons.mp hnone
      obtain ⟨⟨hd, hlen, hr⟩, hfit⟩ := List.forall_mem_cons.mp hfit
      obtain ⟨hlater, hsorted⟩ := List.pairwise_cons.mp hsorted
      obtain ⟨hlast, hunnested⟩ := hunnested
      obtain ⟨new, hnew, hbare⟩ := newRange_deletion (U := U) hd hlen hr
      have hsize : (if (deletionOf f x).1 < last
            then checkedSub (deletionOf f x).2 last
            else checkedSub (deletionOf f x).2 (deletionOf f x).1)
          = .ok ((deletionOf f x).2 - trimStart (deletionOf f x) last) := by
        unfold trimStart
        split
        · exact checkedSub_of_le hlast
        · exact checkedSub_of_le hd
      have hrest := @ih (off + ((deletionOf f x).2
          - trimStart (deletionOf f x) last)) (deletionOf f x).2 hnone hfit
        hsorted hunnested (by
          intro front y back heq
          have hfront : ∀ e ∈ front.map (deletionOf f),
              (deletionOf f x).1 ≤ e.1 := by
            intro e he
            refine hlater e ?_
            rw [heq, List.map_append]
            exact List.mem_append_left _ he
          rw [hg (x :: front) y back (by rw [heq]; rfl), List.map_cons,
            deletedBetween_cons hfront hd hlast hlen, Nat.add_assoc])
      have hshift : Range.new (new.anchor - off) (new.head - off) = g x := by
        have hanchor : new.anchor = x.1.anchor
            - deletedBefore [deletionOf f x] x.1.anchor :=
          congrArg Range.anchor hbare
        have hhead : new.head = x.1.head
            - deletedBefore [deletionOf f x] x.1.head :=
          congrArg Range.head hbare
        have hnone : deletedBetween [] last doc.length = 0 :=
          filter_of_none fun _ _ _ => rfl
        rw [hg [] x xs rfl, List.map_nil, hnone, Nat.add_zero, hanchor,
          hhead]
      obtain ⟨r, n⟩ := x
      have hfx : f n r = (deletionOf f (r, n), none) := Prod.ext rfl hx
      rw [List.map_cons, List.map_cons, deleteRangesLoop, hfx]
      generalize deletionOf f (r, n) = d at *
      obtain ⟨start, stop⟩ := d
      dsimp only at hsize hnew hrest ⊢
      rcases Nat.lt_or_ge start last with hlt | hge
      · rw [if_pos hlt] at hsize ⊢
        rw [hsize]
        simp only [ok_bind]
        rw [hnew]
        simp only [ok_bind]
        rw [hshift, hrest]
        rfl
      · rw [if_neg (Nat.not_lt.mpr hge)] at hsize ⊢
        rw [hsize]
        simp only [ok_bind]
        rw [hnew]
        simp only [ok_bind]
        rw [hshift, hrest]
        rfl

/-- At a deletion that ends before the previous one does, the size
underflows. -/
theorem deleteRangesLoop_underflow {xs : List (Range × Nat)} :
    ∀ {off last : Nat}, (∀ x ∈ xs, (f x.2 x.1).2 = none) →
    (∀ x ∈ xs, (deletionOf f x).1 ≤ (deletionOf f x).2
      ∧ (deletionOf f x).2 ≤ doc.length ∧ x.1.Within doc.length) →
    ¬ Unnested last (xs.map (deletionOf f)) →
    deleteRangesLoop U doc f xs off last = .error .underflow := by
  induction xs with
  | nil =>
      intro off last _ _ h
      exact absurd trivial h
  | cons x xs ih =>
      intro off last hnone hfit h
      obtain ⟨hx, hnones⟩ := List.forall_mem_cons.mp hnone
      obtain ⟨⟨hd, hlen, hr⟩, hfits⟩ := List.forall_mem_cons.mp hfit
      obtain ⟨new, hnew, -⟩ := newRange_deletion (U := U) hd hlen hr
      rw [List.map_cons] at h
      obtain ⟨r, n⟩ := x
      have hfx : f n r = (deletionOf f (r, n), none) := Prod.ext rfl hx
      rw [deleteRangesLoop, hfx]
      generalize deletionOf f (r, n) = d at *
      obtain ⟨start, stop⟩ := d
      dsimp only at hnew hd ⊢
      rcases Nat.lt_or_ge stop last with hlt | hge
      · have hsub : checkedSub stop last = .error .underflow := by
          unfold checkedSub
          rw [if_neg (Nat.not_le.mpr hlt)]
        rw [if_pos (Nat.lt_of_le_of_lt hd hlt), hsub]
        rfl
      · have hrest : ∀ off, deleteRangesLoop U doc f xs off stop
            = .error .underflow :=
          fun off => ih hnones hfits fun hun => h ⟨hge, hun⟩
        rcases Nat.lt_or_ge start last with hlt | hge'
        · rw [if_pos hlt, checkedSub_of_le hge]
          simp only [ok_bind]
          rw [hnew]
          simp only [ok_bind]
          rw [hrest]
          rfl
        · rw [if_neg (Nat.not_lt.mpr hge'), checkedSub_of_le hd]
          simp only [ok_bind]
          rw [hnew]
          simp only [ok_bind]
          rw [hrest]
          rfl

/-- The deletions of the ranges. -/
def deletionsOf (selection : Selection)
    (f : Nat → Range → Deletion × Option Range) : List Deletion :=
  selection.ranges.zipIdx.map (deletionOf f)

/-- In front of every end of a range, what its own deletion deletes there
and all that the ones in front delete come to what is deleted there, or
both leave nothing. -/
def Settled (doc : Rope) (selection : Selection)
    (f : Nat → Range → Deletion × Option Range) : Prop :=
  ∀ x ∈ selection.ranges.zipIdx, ∀ pos ∈ [x.1.anchor, x.1.head],
    pos - deletedBefore [deletionOf f x] pos
        - deletedBefore ((deletionsOf selection f).take x.2) doc.length
      = pos - deletedBefore (deletionsOf selection f) pos

/-- Where the loop puts a range. -/
def backBy (doc : Rope) (selection : Selection)
    (f : Nat → Range → Deletion × Option Range) (x : Range × Nat) :
    Range :=
  .new
    (x.1.anchor - deletedBefore [deletionOf f x] x.1.anchor
      - deletedBefore ((deletionsOf selection f).take x.2) doc.length)
    (x.1.head - deletedBefore [deletionOf f x] x.1.head
      - deletedBefore ((deletionsOf selection f).take x.2) doc.length)

/-- The ranges of the loop are those that `map` makes if and only if the
deletions are settled. -/
theorem backBy_eq_iff (doc : Rope) (selection : Selection)
    (f : Nat → Range → Deletion × Option Range) :
    selection.ranges.zipIdx.map (backBy doc selection f)
        = selection.ranges.map (Range.moved fun _ pos =>
            pos - deletedBefore (deletionsOf selection f) pos)
      ↔ Settled doc selection f := by
  have hfst : selection.ranges.map (Range.moved fun _ pos =>
        pos - deletedBefore (deletionsOf selection f) pos)
      = selection.ranges.zipIdx.map fun x => x.1.moved fun _ pos =>
          pos - deletedBefore (deletionsOf selection f) pos := by
    conv_lhs => rw [← List.zipIdx_map_fst 0 selection.ranges, List.map_map]
    rfl
  rw [hfst, List.map_inj_left]
  refine forall₂_congr fun x _ => ?_
  rw [moved_const fun pos =>
    pos - deletedBefore (deletionsOf selection f) pos]
  unfold backBy Range.new
  simp only [Range.mk.injEq, and_true, List.mem_cons, List.not_mem_nil,
    or_false, forall_eq_or_imp, forall_eq]

theorem getElem?_of_split {α : Type} {xs : List α} {front back}
    {x : α × Nat} (h : xs.zipIdx = front ++ x :: back) :
    x.2 = front.length := by
  have hlen : front.length < xs.zipIdx.length := by
    rw [h, List.length_append, List.length_cons]
    omega
  have hget : xs.zipIdx[front.length]? = some x := by
    rw [h, List.getElem?_append_right (Nat.le_refl _), Nat.sub_self]
    rfl
  rw [List.getElem?_zipIdx] at hget
  obtain ⟨y, -, hy⟩ := Option.map_eq_some_iff.mp hget
  rw [← hy]
  exact Nat.zero_add _

/-- Nested deletions underflow. Other ones give the ranges that `map`
makes if and only if they are settled, and then the selection is the
mapped one; unless ranges merge, only then. -/
theorem delete_selection_law (U : Unicode) (doc : Rope)
    (selection : Selection) (f : Nat → Range → Deletion × Option Range)
    (hnormal : Selection.Normal selection.ranges)
    (hwithin : selection.Within doc.length)
    (hnone : ∀ x ∈ selection.ranges.zipIdx, (f x.2 x.1).2 = none)
    (hfit : ∀ d ∈ deletionsOf selection f, d.1 ≤ d.2 ∧ d.2 ≤ doc.length)
    (hsorted : (deletionsOf selection f).Pairwise fun a b => a.1 ≤ b.1) :
    (¬ Unnested 0 (deletionsOf selection f) →
      deleteByAndWithSelection U doc selection f = .error .underflow) ∧
    (Unnested 0 (deletionsOf selection f) →
      ∃ tx ends new unmerged mapped,
        deleteByAndWithSelection U doc selection f = .ok tx
        ∧ tx.selection = some new
        ∧ Selection.new ends selection.primaryIndex = .ok new
        ∧ selection.mapNoNormalize U tx.changes = .ok unmerged
        ∧ selection.map U tx.changes = .ok mapped
        ∧ (ends = unmerged.ranges.map Range.bare
          ↔ Settled doc selection f)
        ∧ (Settled doc selection f → new.SameRanges mapped
          ∧ (¬ tx.changes.isEmpty → new = mapped))
        ∧ (Selection.Normal ends → Selection.Normal unmerged.ranges →
          (new.SameRanges mapped ↔ Settled doc selection f))) := by
  have hends : ∀ x ∈ selection.ranges.zipIdx, x.1.Within doc.length :=
    fun x hx => hwithin x.1 (List.fst_mem_of_mem_zipIdx hx)
  have hfits : ∀ x ∈ selection.ranges.zipIdx,
      (deletionOf f x).1 ≤ (deletionOf f x).2
        ∧ (deletionOf f x).2 ≤ doc.length ∧ x.1.Within doc.length := by
    intro x hx
    obtain ⟨h₁, h₂⟩ := hfit _ (List.mem_map_of_mem hx)
    exact ⟨h₁, h₂, hends x hx⟩
  constructor
  · intro hnested
    unfold deleteByAndWithSelection
    rw [deleteRangesLoop_underflow hnone hfits hnested]
    rfl
  · intro hunnested
    have hspan : ∀ d ∈ deletionsOf selection f, d.1 ≤ d.2 :=
      fun d hd => (hfit d hd).1
    have hord : Ordered doc.length 0 (trimmed (deletionsOf selection f) 0) :=
      ordered_trimmed hfit (Nat.zero_le _) hunnested
    obtain ⟨c, hc, hspanning, hplace⟩ := placeIn_fromChanges (U := U) hord
      (unmixed_trimmed _ 0)
    have hdelete : delete doc (deletionsOf selection f)
        = .ok (ofChanges c) := by
      rw [delete_eq hspan hunnested]
      unfold change
      rw [hc]
      rfl
    have hloop : deleteRangesLoop U doc f selection.ranges.zipIdx 0 0 = _ :=
      deleteRangesLoop_spec (g := backBy doc selection f) hnone hfits
      hsorted hunnested (by
        intro front x back heq
        have htake : (deletionsOf selection f).take x.2
            = front.map (deletionOf f) := by
          rw [getElem?_of_split heq, deletionsOf, heq, List.map_append,
            List.take_left' (List.length_map _)]
        unfold backBy deletedBefore
        rw [htake, Nat.zero_add])
    have hmoved : selection.ranges.map
          (Range.moved fun assoc => placeIn U assoc c.changes)
        = selection.ranges.map (Range.moved fun _ pos =>
            pos - deletedBefore (deletionsOf selection f) pos) := by
      refine List.map_congr_left fun r hr => Range.moved_congr ?_
      intro p hp
      have h := hplace p.1 p.2 (sticky_of_mem hp)
      have hle := deletedBetween_le (deletionsOf selection f) 0 p.1
      rw [shift_trimmed hspan hsorted hunnested] at h
      unfold deletedBefore
      omega
    obtain ⟨unmerged, hm, hprimary, hbare, -⟩ := Selection.mapNoNormalize_spec
      (U := U) hspanning hnormal hwithin
    have hmap : selection.map U c = .ok unmerged.normalize := by
      unfold Selection.map
      rw [hm]
      rfl
    have hiff : selection.ranges.zipIdx.map (backBy doc selection f)
          = unmerged.ranges.map Range.bare ↔ Settled doc selection f := by
      rw [hbare, hmoved]
      exact backBy_eq_iff doc selection f
    have hlt : selection.primaryIndex
        < (selection.ranges.zipIdx.map (backBy doc selection f)).length := by
      rw [List.length_map, List.length_zipIdx]
      exact selection.primary_lt
    obtain ⟨new, hnew⟩ : ∃ new, Selection.new
        (selection.ranges.zipIdx.map (backBy doc selection f))
        selection.primaryIndex = .ok new := by
      unfold Selection.new
      rw [dif_pos hlt]
      exact ⟨_, rfl⟩
    refine ⟨(ofChanges c).withSelection new, _, new, unmerged, _, ?_, rfl,
      hnew, hm, hmap, hiff, ?_, ?_⟩
    · unfold deleteByAndWithSelection
      rw [hloop]
      simp only [ok_bind]
      rw [show selection.ranges.zipIdx.map (deletionOf f)
        = deletionsOf selection f from rfl, hdelete]
      simp only [ok_bind]
      rw [hnew]
      rfl
    · intro hsettled
      rw [hiff.mpr hsettled, hbare] at hnew
      obtain ⟨mapped, hmapped, hsame⟩ :=
        sameRanges_of_moved hspanning hnormal hwithin hnew
      rw [hmap] at hmapped
      injection hmapped with hmapped
      subst hmapped
      exact hsame
    · intro hends hunmerged
      rw [new_of_normal hends hlt] at hnew
      injection hnew with hnew
      rw [Selection.normalize_of_normal hunmerged, ← hiff, ← hnew]
      have hplain : (selection.ranges.zipIdx.map
          (backBy doc selection f)).map Range.bare
          = selection.ranges.zipIdx.map (backBy doc selection f) := by
        rw [List.map_map]
        rfl
      constructor
      · intro hsame
        rw [← hplain]
        exact hsame.ranges
      · intro heq
        refine ⟨?_, ?_⟩
        · rw [hplain]
          exact heq
        · exact hprimary.symm

/-- The deletions of a callback that returns these. -/
def deletionsAt (deletions : List Deletion) (n : Nat) (_ : Range) :
    Deletion × Option Range :=
  (deletions.getD n (0, 0), none)

/-- Two deletions, the second one reaching past its range. -/
theorem delete_selection_law_apart :
    let doc : Rope := ['a', 'b', 'c', 'd', 'e', 'f']
    let selection : Selection := ⟨[.new 0 2, .new 3 5], 0, by decide⟩
    let f := deletionsAt [(0, 1), (4, 6)]
    ∃ tx new mapped,
      deleteByAndWithSelection .ascii doc selection f = .ok tx
      ∧ tx.selection = some new
      ∧ selection.map .ascii tx.changes = .ok mapped
      ∧ new.SameRanges mapped := by
  intro doc selection f
  obtain ⟨tx, ends, new, unmerged, mapped, htx, hnew, -, -, hmap, -, hsame,
    -⟩ := (delete_selection_law .ascii doc selection f
      ⟨by decide, by decide⟩ (by decide) (by decide) (by decide)
      (by decide)).2 (by decide)
  exact ⟨tx, new, mapped, htx, hnew, hmap,
    (hsame (by unfold Settled; decide)).1⟩

/-- A nested deletion underflows; and where two overlap, the end behind
them both goes back by the shared char twice. -/
theorem not_delete_selection_law_overlap :
    let doc : Rope := ['a', 'b', 'c', 'd', 'e', 'f']
    let selection : Selection := ⟨[.new 0 2, .new 5 5], 0, by decide⟩
    deleteByAndWithSelection .ascii doc selection
        (deletionsAt [(0, 5), (1, 2)]) = .error .underflow
      ∧ ∃ tx new mapped,
          deleteByAndWithSelection .ascii doc selection
              (deletionsAt [(1, 3), (2, 4)]) = .ok tx
          ∧ tx.selection = some new
          ∧ selection.map .ascii tx.changes = .ok mapped
          ∧ ¬ new.SameRanges mapped := by
  intro doc selection
  have hloop : deleteRangesLoop .ascii doc (deletionsAt [(1, 3), (2, 4)])
      selection.ranges.zipIdx 0 0
      = .ok ([(1, 3), (2, 4)], [.new 0 1, .new 1 1]) := rfl
  have hdelete : delete doc [(1, 3), (2, 4)]
      = .ok ⟨⟨[.retain 1, .delete 3, .retain 2], 6, 3⟩, none⟩ := rfl
  have hmap : selection.mapNoNormalize .ascii
      ⟨[.retain 1, .delete 3, .retain 2], 6, 3⟩
      = .ok ⟨[.new 0 1, .new 2 2], 0, by decide⟩ := rfl
  have hnew : Selection.new [.new 0 1, .new 1 1] 0
      = .ok ⟨[.new 0 1, .new 1 1], 0, by decide⟩ :=
    new_of_normal ⟨by decide, by decide⟩ (by decide)
  refine ⟨rfl, ⟨⟨[.retain 1, .delete 3, .retain 2], 6, 3⟩,
      some ⟨[.new 0 1, .new 1 1], 0, by decide⟩⟩, _,
    ⟨[.new 0 1, .new 2 2], 0, by decide⟩, ?_, rfl, ?_, ?_⟩
  · unfold deleteByAndWithSelection
    rw [hloop]
    simp only [ok_bind]
    rw [hdelete]
    simp only [ok_bind]
    rw [hnew]
    rfl
  · unfold Selection.map
    rw [hmap]
    simp only [ok_bind, pure, Except.pure]
    rw [Selection.normalize_of_normal ⟨by decide, by decide⟩]
  · intro h
    exact absurd h.ranges (by decide)

end Deletions

end Transaction

end Zmax
