/-
The set algebra of selections, read as sets of chars.

The two sweeps are where the work is: `intersect` never leaves behind a
range that could still meet one of the other list (`chars_intersect`),
and what `complement` emits are the gaps, apart again (`chars_gaps`,
`apart_gaps`), so that `minus` may sweep over them.
-/
import Zmax.Core.Proofs.Normalize
import Zmax.Core.Proofs.Selection

namespace Zmax

open Cover

namespace Range

variable {a b ranges : List Range} {r r₁ r₂ : Range} {len pos : Nat}

/-- Every range covers something. -/
def Filled (ranges : List Range) : Prop := ∀ r ∈ ranges, r.start < r.stop

-- == emitting

/-- A range that is only kept when it covers something covers the same
either way. -/
private theorem covered_emit (first last : Nat) (rest : List Range) :
    covered start stop
        (if first < last then .new first last :: rest else rest)
      = Set.Ico first last ∪ covered start stop rest := by
  split
  · next h =>
      have hs : (Range.new first last).start = first := min_eq_left h.le
      have ht : (Range.new first last).stop = last := max_eq_right h.le
      rw [covered_cons, hs, ht]
  · next h => rw [Set.Ico_eq_empty h, Set.empty_union]

private theorem filled_emit {first last : Nat} {rest : List Range}
    (h : Filled rest) :
    Filled (if first < last then .new first last :: rest else rest) := by
  split
  · next hlt =>
      refine List.forall_mem_cons.mpr ⟨?_, h⟩
      show min first last < max first last
      omega
  · exact h

-- == intersection

theorem intersect_cons :
    intersect (r₁ :: a) (r₂ :: b)
      = if max r₁.start r₂.start < min r₁.stop r₂.stop then
          .new (max r₁.start r₂.start) (min r₁.stop r₂.stop) ::
            if r₁.stop < r₂.stop then intersect a (r₂ :: b)
            else intersect (r₁ :: a) b
        else
          if r₁.stop < r₂.stop then intersect a (r₂ :: b)
          else intersect (r₁ :: a) b := by
  rw [intersect]

/-- The sweep over two lists keeps exactly what both cover. -/
theorem covered_intersect (a b : List Range) (ha : Apart start stop a)
    (hb : Apart start stop b) :
    covered start stop (intersect a b)
      = covered start stop a ∩ covered start stop b := by
  match a, b with
  | [], b => simp [intersect]
  | r₁ :: a, [] => simp [intersect]
  | r₁ :: a, r₂ :: b =>
      rw [intersect_cons, covered_emit, ← Set.Ico_inter_Ico]
      split
      · next hlt =>
          -- the first list moves on: its head meets nothing behind `r₂`
          have hmiss := inter_covered_eq_empty hb hlt.le r₁.start
          rw [covered_intersect a (r₂ :: b) ha.tail hb, covered_cons,
            covered_cons (b := r₁), Set.union_inter_distrib_right,
            Set.inter_union_distrib_left (Set.Ico r₁.start r₁.stop), hmiss,
            Set.union_empty]
      · next hge =>
          have hmiss : covered start stop a ∩ Set.Ico r₂.start r₂.stop = ∅ := by
            rw [Set.inter_comm]
            exact inter_covered_eq_empty ha (not_lt.mp hge) r₂.start
          rw [covered_intersect (r₁ :: a) b ha hb.tail, covered_cons (b := r₂),
            Set.inter_union_distrib_left _ (Set.Ico r₂.start r₂.stop),
            covered_cons (l := a),
            Set.union_inter_distrib_right _ _ (Set.Ico r₂.start r₂.stop),
            hmiss, Set.union_empty]
termination_by a.length + b.length

theorem filled_intersect (a b : List Range) : Filled (intersect a b) := by
  match a, b with
  | [], b => simp [intersect, Filled]
  | r₁ :: a, [] => simp [intersect, Filled]
  | r₁ :: a, r₂ :: b =>
      rw [intersect_cons]
      refine filled_emit ?_
      split
      · exact filled_intersect a (r₂ :: b)
      · exact filled_intersect (r₁ :: a) b
termination_by a.length + b.length

-- == complement

/-- What the loop of `complement` emits are the chars in front of `len`,
from `pos` on, that no range covers. -/
theorem covered_complementFrom (h : Apart start stop ranges)
    (hpos : ∀ r ∈ ranges, pos ≤ r.start) (hlen : ∀ r ∈ ranges, r.stop ≤ len) :
    covered start stop (complementFrom len pos ranges)
      = Set.Ico pos len \ covered start stop ranges := by
  induction ranges generalizing pos with
  | nil =>
      rw [complementFrom, covered_emit]
      simp
  | cons r ranges ih =>
      obtain ⟨hr, -⟩ := List.forall_mem_cons.mp hpos
      obtain ⟨hstop, hlen⟩ := List.forall_mem_cons.mp hlen
      have hle := r.start_le_stop
      rw [complementFrom, covered_emit,
        ih h.tail (List.pairwise_cons.mp h).1 hlen]
      ext x
      simp only [Set.mem_union, Set.mem_sdiff, Set.mem_Ico, covered_cons]
      by_cases hx : x ∈ covered start stop ranges
      · have := h.le_of_mem hx
        simp only [hx, not_true_eq_false, or_true, and_false, or_false,
          iff_false]
        omega
      · simp only [hx, not_false_eq_true, or_false, and_true]
        omega

theorem filled_complementFrom : Filled (complementFrom len pos ranges) := by
  induction ranges generalizing pos with
  | nil => exact filled_emit fun r hr => by cases hr
  | cons r ranges ih =>
      rw [complementFrom]
      exact filled_emit ih

/-- The gaps are apart, and none starts before `pos`. -/
theorem apart_complementFrom (h : Apart start stop ranges)
    (hpos : ∀ r ∈ ranges, pos ≤ r.start) :
    Apart start stop (complementFrom len pos ranges) ∧
      ∀ r ∈ complementFrom len pos ranges, pos ≤ r.start := by
  induction ranges generalizing pos with
  | nil =>
      rw [complementFrom]
      split
      · next hlt =>
          refine ⟨List.pairwise_singleton _ _, fun r hr => ?_⟩
          rw [List.mem_singleton.mp hr]
          exact le_min le_rfl hlt.le
      · exact ⟨.nil, fun r hr => by cases hr⟩
  | cons r ranges ih =>
      obtain ⟨hr, -⟩ := List.forall_mem_cons.mp hpos
      obtain ⟨hapart, hge⟩ := ih h.tail (List.pairwise_cons.mp h).1
      have hle := r.start_le_stop
      rw [complementFrom]
      split
      · next hlt =>
          refine ⟨List.pairwise_cons.mpr ⟨fun c hc => ?_, hapart⟩, ?_⟩
          · have hstop : (Range.new pos r.start).stop = r.start :=
              max_eq_right hlt.le
            rw [hstop]
            exact hle.trans (hge c hc)
          · refine List.forall_mem_cons.mpr ⟨le_min le_rfl hlt.le, ?_⟩
            exact fun c hc => hr.trans (hle.trans (hge c hc))
      · exact ⟨hapart, fun c hc => hr.trans (hle.trans (hge c hc))⟩

/-- What `complement` emits are the chars of the buffer that no range
covers. -/
theorem covered_complement (h : Apart start stop ranges)
    (hlen : ∀ r ∈ ranges, r.stop ≤ len) :
    covered start stop (complement ranges len)
      = Set.Ico 0 len \ covered start stop ranges :=
  covered_complementFrom h (fun _ _ => Nat.zero_le _) hlen

theorem apart_complement (h : Apart start stop ranges) :
    Apart start stop (complement ranges len) :=
  (apart_complementFrom h fun _ _ => Nat.zero_le _).1

end Range

-- == selections

namespace Selection

variable {ranges : List Range} {s : Selection} {len : Nat}

theorem Within.stop_le (h : s.Within len) :
    ∀ r ∈ s.ranges, r.stop ≤ len := fun r hr =>
  max_le (h r hr).1 (h r hr).2

/-- A selection of the first range and the others covers what they
do. -/
theorem new_chars (h : ranges ≠ []) :
    ∃ s, new ranges 0 = .ok s ∧
      s.chars = covered Range.start Range.stop ranges := by
  have hlt : 0 < ranges.length := List.length_pos_of_ne_nil h
  refine ⟨normalize ⟨ranges, 0, hlt⟩, ?_, ?_⟩
  · unfold new
    rw [dif_pos hlt]
  · rw [(normalize_spec ⟨ranges, 0, hlt⟩).covers, Range.chars_eq]

/-- `o` is the selection of the chars of a set, which is none at all
exactly when the set is empty. -/
structure Shows (o : Option Selection) (chars : Set Nat) : Prop where
  none_iff : o = none ↔ chars = ∅
  some : ∀ s ∈ o, s.chars = chars

theorem ofRanges_shows (h : Range.Filled ranges) :
    ∃ o, ofRanges ranges = .ok o ∧
      Shows o (covered Range.start Range.stop ranges) := by
  cases ranges with
  | nil =>
      refine ⟨none, rfl, ⟨fun _ => covered_nil, fun _ => rfl⟩, ?_⟩
      intro s hs
      cases hs
  | cons first rest =>
      obtain ⟨s, hs, hchars⟩ := new_chars (List.cons_ne_nil first rest)
      refine ⟨some s, ?_, ⟨(fun h => by cases h), fun hempty => ?_⟩, ?_⟩
      · unfold ofRanges
        rw [List.isEmpty_cons, hs]
        rfl
      · have hfirst := h first List.mem_cons_self
        have hmem : first.start ∈
            covered Range.start Range.stop (first :: rest) :=
          ⟨first, List.mem_cons_self, le_rfl, hfirst⟩
        rw [hempty] at hmem
        exact absurd hmem (Set.notMem_empty _)
      · intro s' hs'
        cases hs'
        exact hchars

/-- The four operations are those of sets of chars: `union`,
`intersection`, `complement` in the buffer and `minus`, the last three
giving no selection exactly when no char is left. -/
theorem set_algebra (a b : Selection) (len : Nat) (ha : Normal a.ranges)
    (hb : Normal b.ranges) (hwa : a.Within len) (hwb : b.Within len) :
    (∃ s, a.union b = .ok s ∧ s.chars = a.chars ∪ b.chars) ∧
    (∃ o, a.intersection b = .ok o ∧ Shows o (a.chars ∩ b.chars)) ∧
    (∃ o, a.complement len = .ok o ∧ Shows o (Set.Ico 0 len \ a.chars)) ∧
    (∃ o, a.minus b len = .ok o ∧ Shows o (a.chars \ b.chars)) := by
  unfold chars
  rw [Range.chars_eq, Range.chars_eq]
  have ha := ha.apart_stop
  have hb := hb.apart_stop
  refine ⟨?_, ?_, ?_, ?_⟩
  · rw [← covered_append]
    refine new_chars (List.append_ne_nil_of_left_ne_nil ?_ _)
    exact List.ne_nil_of_length_pos (Nat.zero_lt_of_lt a.primary_lt)
  · rw [← Range.covered_intersect a.ranges b.ranges ha hb]
    exact ofRanges_shows (Range.filled_intersect _ _)
  · rw [← Range.covered_complement ha hwa.stop_le]
    exact ofRanges_shows Range.filled_complementFrom
  · have hminus : covered Range.start Range.stop a.ranges
          \ covered Range.start Range.stop b.ranges
        = covered Range.start Range.stop
            (Range.intersect a.ranges (Range.complement b.ranges len)) := by
      rw [Range.covered_intersect _ _ ha (Range.apart_complement hb),
        Range.covered_complement hb hwb.stop_le]
      ext x
      simp only [Set.mem_sdiff, Set.mem_inter_iff, Set.mem_Ico]
      constructor
      · rintro ⟨hx, hxb⟩
        obtain ⟨r, hr, hrx⟩ := id hx
        exact ⟨hx, ⟨Nat.zero_le x,
          hrx.2.trans_le (hwa.stop_le r hr)⟩, hxb⟩
      · rintro ⟨hx, -, hxb⟩
        exact ⟨hx, hxb⟩
    rw [hminus]
    exact ofRanges_shows (Range.filled_intersect _ _)

/-- A reversed range and a cursor against one range, in five chars. -/
theorem set_algebra_cursor :
    let a : Selection := ⟨[.new 2 0, .point 4], 0, by decide⟩
    let b : Selection := .single 1 5
    (∃ s, a.union b = .ok s ∧ s.chars = a.chars ∪ b.chars) ∧
    (∃ o, a.intersection b = .ok o ∧ Shows o (a.chars ∩ b.chars)) ∧
    (∃ o, a.complement 5 = .ok o ∧ Shows o (Set.Ico 0 5 \ a.chars)) ∧
    (∃ o, a.minus b 5 = .ok o ∧ Shows o (a.chars \ b.chars)) :=
  set_algebra ⟨[.new 2 0, .point 4], 0, by decide⟩ (.single 1 5) 5
    ⟨by decide, by decide⟩ ⟨by decide, by decide⟩ (by decide) (by decide)

end Selection

end Zmax
