/-
What normalizing makes of a list of ranges.

Sorted by start, the ranges fall into runs of overlapping ones, and each
run becomes one range: this is `merged`, the loop of `normalize` without
its primary range. Swapping two ranges of equal starts does not change it
(`merged_swap`), so neither does the order the ranges come in
(`merged_perm`): the sort of the source may be unstable. The primary range
only ever grows (`mergeSorted_contains`).
-/
import Zmax.Core.Selection
import Zmax.Lib.Cover

namespace Zmax

open Cover

variable {U : Unicode}

-- == ranges

namespace Range

variable {a b c : Range}

theorem start_le_stop (a : Range) : a.start ≤ a.stop := by
  unfold start stop
  omega

/-- `Direction::Backward`. -/
def backward (self : Range) : Bool := self.head < self.anchor

/-- The merged range between these ends. -/
def spanning (back : Bool) (first last : Nat) : Range :=
  if back then ⟨last, first, none⟩ else ⟨first, last, none⟩

/-- A merged range is known by its ends and its direction. -/
theorem merge_eq (a b : Range) :
    a.merge b = spanning (a.backward && b.backward)
      (min a.start b.start) (max a.stop b.stop) := by
  unfold merge spanning backward start stop
  by_cases h : a.head < a.anchor ∧ b.head < b.anchor
  · have ha := h.1.le
    have hb := h.2.le
    rw [if_pos h, decide_eq_true h.1, decide_eq_true h.2, min_eq_right ha,
      min_eq_right hb, max_eq_left ha, max_eq_left hb]
    rfl
  · have hback : (decide (a.head < a.anchor)
        && decide (b.head < b.anchor)) = false := by
      rw [← Bool.decide_and, decide_eq_false h]
    rw [if_neg h, hback]
    rfl

theorem stop_merge (a b : Range) :
    (a.merge b).stop = max a.stop b.stop := by
  unfold merge start stop
  split <;> dsimp only <;> omega

theorem backward_merge (a b : Range) :
    (a.merge b).backward = (a.backward && b.backward) := by
  unfold merge backward start stop
  by_cases h : a.head < a.anchor ∧ b.head < b.anchor
  · rw [if_pos h, ← Bool.decide_and, decide_eq_true h, decide_eq_true_eq]
    dsimp only
    omega
  · rw [if_neg h, ← Bool.decide_and, decide_eq_false h, decide_eq_false_iff_not]
    dsimp only
    omega

theorem merge_comm (a b : Range) : a.merge b = b.merge a := by
  rw [merge_eq, merge_eq b, Bool.and_comm, min_comm, max_comm]

/-- Three ranges merge into one that is backward only if all of them
are. -/
theorem merge_left_comm (a b c : Range) :
    a.merge (b.merge c) = b.merge (a.merge c) := by
  rw [merge_eq a, merge_eq b (a.merge c), backward_merge, backward_merge,
    start_merge, start_merge, stop_merge, stop_merge, Bool.and_left_comm,
    min_left_comm, max_left_comm]

/-- Whether a range overlaps one further back is up to where it starts:
a zero-width range overlaps what starts with it. -/
theorem overlaps_iff (h : a.start ≤ b.start) :
    a.overlaps b ↔ a.start = b.start ∨ b.start < a.stop := by
  have := b.start_le_stop
  simp only [overlaps, Bool.or_eq_true, beq_iff_eq, Bool.and_eq_true,
    decide_eq_true_eq]
  omega

theorem containsRange_iff :
    a.containsRange b ↔ a.start ≤ b.start ∧ b.stop ≤ a.stop := by
  simp [containsRange]

theorem containsRange_refl (a : Range) : a.containsRange a :=
  containsRange_iff.mpr ⟨le_rfl, le_rfl⟩

theorem containsRange_trans (h₁ : a.containsRange b)
    (h₂ : b.containsRange c) : a.containsRange c := by
  obtain ⟨hs, ht⟩ := containsRange_iff.mp h₁
  obtain ⟨hs', ht'⟩ := containsRange_iff.mp h₂
  exact containsRange_iff.mpr ⟨hs.trans hs', ht'.trans ht⟩

theorem merge_contains_left : (a.merge b).containsRange a := by
  rw [containsRange_iff, start_merge, stop_merge]
  omega

theorem merge_contains_right : (a.merge b).containsRange b := by
  rw [containsRange_iff, start_merge, stop_merge]
  omega

/-- The chars that ranges cover. -/
def chars (ranges : List Range) : Set Nat :=
  {pos | ∃ r ∈ ranges, r.contains pos}

theorem chars_eq (ranges : List Range) :
    chars ranges = covered start stop ranges := by
  ext pos
  simp [chars, covered, contains]

/-- Ranges that overlap cover together what merging makes of them. -/
theorem merge_chars (h : a.start ≤ b.start) (hov : a.overlaps b) :
    Set.Ico (b.merge a).start (b.merge a).stop
      = Set.Ico a.start a.stop ∪ Set.Ico b.start b.stop := by
  have ha := a.start_le_stop
  have hb := b.start_le_stop
  have hov := (overlaps_iff h).mp hov
  rw [start_merge, stop_merge, Set.Ico_union_Ico' (by omega) (by omega),
    min_comm, max_comm]

end Range

namespace Selection

-- == merging

/-- The ranges that `normalize` makes of a sorted list, given the one
kept last. -/
def merged : Option Range → List Range → List Range
  | none, [] => []
  | some prev, [] => [prev]
  | none, curr :: rest => merged (some curr) rest
  | some prev, curr :: rest =>
      if prev.overlaps curr then merged (some (curr.merge prev)) rest
      else prev :: merged (some curr) rest

attribute [grind =] merged

theorem mergeOverlaps_fst (prev primary : Range) (rest : List Range) :
    (mergeOverlaps prev primary rest).1 = merged (some prev) rest := by
  induction rest generalizing prev primary with
  | nil => rfl
  | cons curr rest ih =>
      rw [mergeOverlaps, merged]
      split
      · exact ih _ _
      · exact congrArg (prev :: ·) (ih _ _)

theorem mergeSorted_fst (primary : Range) (ranges : List Range) :
    (mergeSorted primary ranges).1 = merged none ranges := by
  cases ranges with
  | nil => rfl
  | cons first rest => exact mergeOverlaps_fst first primary rest

variable {prev : Range} {rest ranges : List Range}

/-- What starts the merged ranges starts with the first of them. -/
theorem start_le_merged (h : Sorted (prev :: rest)) :
    ∀ r ∈ merged (some prev) rest, prev.start ≤ r.start := by
  induction rest generalizing prev with
  | nil =>
      intro r hr
      rw [List.mem_singleton.mp hr]
  | cons curr rest ih =>
      obtain ⟨hprev, hrest⟩ := List.pairwise_cons.mp h
      rw [merged]
      split
      · obtain ⟨hsorted, hstart⟩ := h.merge
        intro r hr
        rw [← hstart]
        exact ih hsorted r hr
      · intro r hr
        rcases List.mem_cons.mp hr with rfl | hr
        · exact le_rfl
        · exact (hprev curr List.mem_cons_self).trans (ih hrest r hr)

/-- Sorted by start, and no two ranges overlap. -/
structure Normal (ranges : List Range) : Prop where
  sorted : Sorted ranges
  apart : ranges.Pairwise fun a b => ¬ a.overlaps b

theorem normal_nil : Normal [] := ⟨.nil, .nil⟩

/-- A range in front of all the others, overlapping none. -/
theorem Normal.cons {prev : Range} {ranges : List Range}
    (h : Normal ranges)
    (hprev : ∀ r ∈ ranges, prev.start ≤ r.start ∧ ¬ prev.overlaps r) :
    Normal (prev :: ranges) :=
  ⟨List.pairwise_cons.mpr ⟨fun r hr => (hprev r hr).1, h.sorted⟩,
    List.pairwise_cons.mpr ⟨fun r hr => (hprev r hr).2, h.apart⟩⟩

/-- Each range of a normalized list stops before the next one starts. -/
theorem Normal.apart_stop (h : Normal ranges) :
    Apart Range.start Range.stop ranges := by
  refine (h.sorted.and h.apart).imp fun {a b} hab => ?_
  rw [Range.overlaps_iff hab.1] at hab
  omega

theorem normal_merged (h : Sorted (prev :: rest)) :
    Normal (merged (some prev) rest) := by
  induction rest generalizing prev with
  | nil => exact normal_nil.cons fun r hr => by cases hr
  | cons curr rest ih =>
      obtain ⟨hprev, hrest⟩ := List.pairwise_cons.mp h
      have hcurr := hprev curr List.mem_cons_self
      rw [merged]
      split
      · exact ih h.merge.1
      · next hov =>
          rw [Range.overlaps_iff hcurr] at hov
          refine (ih hrest).cons fun r hr => ?_
          have hle := start_le_merged hrest r hr
          rw [Range.overlaps_iff (hcurr.trans hle)]
          omega

theorem chars_merged (h : Sorted (prev :: rest)) :
    covered Range.start Range.stop (merged (some prev) rest)
      = covered Range.start Range.stop (prev :: rest) := by
  induction rest generalizing prev with
  | nil => rfl
  | cons curr rest ih =>
      obtain ⟨hprev, hrest⟩ := List.pairwise_cons.mp h
      rw [merged]
      split
      · next hov =>
          rw [ih h.merge.1, covered_cons, covered_cons, covered_cons,
            Range.merge_chars (hprev curr List.mem_cons_self) hov,
            Set.union_assoc]
      · rw [covered_cons, ih hrest, covered_cons (b := prev)]

-- == order independence

variable {kept : Option Range} {l l₁ l₂ : List Range} {x y : Range}

/-- Two lists that merge alike after every range kept up to here merge
alike behind one more range. -/
theorem merged_cons_congr
    (h : ∀ prev : Range, prev.start ≤ x.start →
      merged (some prev) l₁ = merged (some prev) l₂)
    (hkept : ∀ prev ∈ kept, prev.start ≤ x.start) :
    merged kept (x :: l₁) = merged kept (x :: l₂) := by
  cases kept with
  | none => exact h x le_rfl
  | some prev =>
      have hle := hkept prev rfl
      rw [merged, merged]
      split
      · refine h _ ?_
        rw [Range.start_merge]
        omega
      · rw [h x le_rfl]

/-- Two ranges that start together may be swapped. -/
theorem merged_swap (hxy : x.start = y.start)
    (hkept : ∀ prev ∈ kept, prev.start ≤ x.start) :
    merged kept (x :: y :: l) = merged kept (y :: x :: l) := by
  have hx : x.overlaps y := (Range.overlaps_iff hxy.le).mpr (.inl hxy)
  have hy : y.overlaps x := (Range.overlaps_iff hxy.ge).mpr (.inl hxy.symm)
  cases kept with
  | none =>
      show merged (some x) (y :: l) = merged (some y) (x :: l)
      rw [merged, if_pos hx, merged, if_pos hy, Range.merge_comm]
  | some prev =>
      have hle := hkept prev rfl
      by_cases hov : prev.overlaps x
      · -- what is kept goes on to overlap the second one too
        have hovy : prev.overlaps y := by
          rw [Range.overlaps_iff (hxy ▸ hle), ← hxy]
          exact (Range.overlaps_iff hle).mp hov
        have hgrown : ∀ z w : Range, prev.overlaps w →
            z.start = x.start → w.start = x.start →
            (z.merge prev).overlaps w := by
          intro z w hw hz hwx
          rw [Range.overlaps_iff (by rw [hwx]; exact hle)] at hw
          rw [Range.overlaps_iff (by rw [Range.start_merge]; omega),
            Range.start_merge, Range.stop_merge]
          omega
        have h₁ := hgrown x y hovy rfl hxy.symm
        have h₂ := hgrown y x hov hxy.symm rfl
        rw [merged, if_pos hov, merged, if_pos h₁, merged, if_pos hovy,
          merged, if_pos h₂, Range.merge_left_comm]
      · have hovy : ¬ prev.overlaps y := by
          rw [Range.overlaps_iff (hxy ▸ hle), ← hxy]
          exact fun h => hov ((Range.overlaps_iff hle).mpr h)
        rw [merged, if_neg hov, merged, if_pos hx, merged, if_neg hovy,
          merged, if_pos hy, Range.merge_comm]

/-- A range may be moved in front of those that start where it does. -/
theorem merged_bubble (hl : ∀ y ∈ l₁, y.start = x.start)
    (hkept : ∀ prev ∈ kept, prev.start ≤ x.start) :
    merged kept (l₁ ++ x :: l₂) = merged kept (x :: (l₁ ++ l₂)) := by
  induction l₁ generalizing kept with
  | nil => rfl
  | cons y l₁ ih =>
      obtain ⟨hy, hl⟩ := List.forall_mem_cons.mp hl
      calc merged kept (y :: (l₁ ++ x :: l₂))
          = merged kept (y :: x :: (l₁ ++ l₂)) := by
            refine merged_cons_congr (fun prev hprev => ih hl ?_) ?_
            · intro p hp
              cases hp
              exact hprev.trans hy.le
            · intro prev hprev
              exact (hkept prev hprev).trans hy.ge
        _ = merged kept (x :: y :: (l₁ ++ l₂)) := by
            refine merged_swap hy fun prev hprev => ?_
            exact (hkept prev hprev).trans hy.ge

/-- Sorted lists of the same ranges merge alike, however ranges that
start together are ordered in them. -/
theorem merged_perm (h : l₁.Perm l₂) (h₁ : Sorted l₁) (h₂ : Sorted l₂)
    (hkept : ∀ prev ∈ kept, ∀ r ∈ l₁, prev.start ≤ r.start) :
    merged kept l₁ = merged kept l₂ := by
  induction l₁ generalizing l₂ kept with
  | nil => rw [h.nil_eq]
  | cons x l₁ ih =>
      obtain ⟨hx, hsorted⟩ := List.pairwise_cons.mp h₁
      obtain ⟨front, back, rfl⟩ :=
        List.append_of_mem (h.subset List.mem_cons_self)
      have hfront : ∀ y ∈ front, y.start = x.start := by
        intro y hy
        have hle : y.start ≤ x.start :=
          (List.pairwise_append.mp h₂).2.2 y hy x List.mem_cons_self
        have hmem : y ∈ x :: l₁ :=
          h.symm.subset (List.mem_append_left _ hy)
        rcases List.mem_cons.mp hmem with rfl | hmem
        · rfl
        · exact le_antisymm hle (hx y hmem)
      have hperm : l₁.Perm (front ++ back) :=
        (h.trans List.perm_middle).cons_inv
      have hback : Sorted (front ++ back) :=
        h₂.sublist ((List.sublist_cons_self x back).append_left front)
      rw [merged_bubble hfront fun prev hp => hkept prev hp x List.mem_cons_self]
      refine merged_cons_congr (fun prev hprev => ?_)
        fun prev hp => hkept prev hp x List.mem_cons_self
      refine ih hperm hsorted hback fun p hp r hr => ?_
      cases hp
      exact hprev.trans (hx r hr)

-- == the primary

/-- The primary range ends up inside what it has been merged into. -/
theorem mergeOverlaps_contains (prev primary : Range)
    (rest : List Range) :
    (mergeOverlaps prev primary rest).2.containsRange primary := by
  induction rest generalizing prev primary with
  | nil => exact primary.containsRange_refl
  | cons curr rest ih =>
      rw [mergeOverlaps]
      split
      · split
        · next h =>
            refine Range.containsRange_trans (ih _ _) ?_
            rcases h with rfl | rfl
            · exact Range.merge_contains_right
            · exact Range.merge_contains_left
        · exact ih _ _
      · exact ih _ _

theorem mergeSorted_contains (primary : Range) (ranges : List Range) :
    (mergeSorted primary ranges).2.containsRange primary := by
  cases ranges with
  | nil => exact primary.containsRange_refl
  | cons first rest => exact mergeOverlaps_contains first primary rest

-- == normalize

/-- The chars a selection covers. -/
def chars (self : Selection) : Set Nat := Range.chars self.ranges

/-- `s` is what normalizing makes of `ranges`, of which `primary` is
the primary one. -/
structure Normalizes (ranges : List Range) (primary : Range)
    (s : Selection) : Prop where
  normal : Normal s.ranges
  covers : s.chars = Range.chars ranges
  contains : s.primary.containsRange primary
  /-- Sorted whichever way, the ranges merge to these, and the primary
  one is found among them. -/
  sort : ∀ sorted : List Range, sorted.Perm ranges → Sorted sorted →
    (mergeSorted primary sorted).1 = s.ranges ∧
    (mergeSorted primary sorted).2 ∈ s.ranges ∧
    (mergeSorted primary sorted).2.containsRange primary
  /-- Given in another order, the ranges normalize to the same ones. -/
  order : ∀ other : Selection, other.ranges.Perm ranges →
    other.normalize.ranges = s.ranges

/-- A single range is its own normal form, so the early return of
`normalize` makes no difference to the ranges. -/
theorem normalize_ranges (s : Selection) :
    s.normalize.ranges = merged none (s.ranges.mergeSort startLE) := by
  unfold normalize
  split
  · next hlen =>
      obtain ⟨r, hr⟩ : ∃ r, s.ranges = [r] := by
        rw [← List.length_eq_one_iff]
        have := s.primary_lt
        omega
      rw [hr, List.mergeSort_singleton]
      rfl
  · exact mergeSorted_fst _ _

/-- Looked up by its value, the primary range is that value. -/
theorem primary_idxOf {primary : Range}
    (h : ranges.idxOf primary < ranges.length) :
    Selection.primary ⟨ranges, ranges.idxOf primary, h⟩ = primary :=
  List.getElem_idxOf h

/-- The primary range of a normalized selection contains the one it was
normalized from. -/
theorem normalize_primary (s : Selection) :
    s.normalize.primary.containsRange s.primary := by
  unfold normalize
  split
  · exact s.primary.containsRange_refl
  · rw [primary_idxOf]
    exact mergeSorted_contains _ _

theorem normalize_spec (s : Selection) :
    Normalizes s.ranges s.primary s.normalize := by
  have hsorted := sorted_mergeSort s.ranges
  have hperm := List.mergeSort_perm s.ranges startLE
  have hmerged : ∀ sorted : List Range, sorted.Perm s.ranges →
      Sorted sorted → merged none sorted = s.normalize.ranges := by
    intro sorted hp hs
    rw [normalize_ranges]
    exact merged_perm (hp.trans hperm.symm) hs hsorted
      fun prev h => by cases h
  have hmem : s.primary ∈ s.ranges := List.get_mem s.ranges ⟨_, s.primary_lt⟩
  refine ⟨?_, ?_, normalize_primary s, fun sorted hp hs =>
    ⟨?_, ?_, mergeSorted_contains s.primary sorted⟩, ?_⟩
  · rw [normalize_ranges]
    cases hcase : s.ranges.mergeSort startLE with
    | nil => exact normal_nil
    | cons first rest =>
        rw [hcase] at hsorted
        exact normal_merged hsorted
  · unfold chars
    rw [normalize_ranges, Range.chars_eq, Range.chars_eq,
      ← covered_perm hperm]
    cases hcase : s.ranges.mergeSort startLE with
    | nil => rfl
    | cons first rest =>
        rw [hcase] at hsorted
        exact chars_merged hsorted
  · rw [mergeSorted_fst]
    exact hmerged sorted hp hs
  · rw [← hmerged sorted hp hs, ← mergeSorted_fst s.primary]
    exact mem_mergeSorted hs (hp.symm.subset hmem)
  · intro other hp
    rw [normalize_ranges]
    exact hmerged _ ((List.mergeSort_perm _ _).trans hp)
      (sorted_mergeSort _)

theorem mergeOverlaps_of_normal {primary : Range} (h : Normal (prev :: rest)) :
    mergeOverlaps prev primary rest = (prev :: rest, primary) := by
  induction rest generalizing prev with
  | nil => rfl
  | cons curr rest ih =>
      obtain ⟨hapart, htail⟩ := List.pairwise_cons.mp h.apart
      have hov := hapart curr List.mem_cons_self
      rw [mergeOverlaps, if_neg hov,
        ih ⟨(List.pairwise_cons.mp h.sorted).2, htail⟩]

/-- No range is twice in a normalized list. -/
theorem Normal.nodup (h : Normal ranges) : ranges.Nodup := by
  refine h.apart.imp fun {a b} hab heq => hab ?_
  subst heq
  exact (Range.overlaps_iff le_rfl).mpr (.inl rfl)

/-- Normalizing changes nothing in a normalized selection. -/
theorem normalize_of_normal {self : Selection} (h : Normal self.ranges) :
    self.normalize = self := by
  obtain ⟨ranges, primaryIndex, hlt⟩ := self
  unfold normalize
  split
  · rfl
  · have hsort : ranges.mergeSort startLE = ranges :=
      List.mergeSort_of_pairwise (h.sorted.imp fun hab => by
        simpa [startLE] using hab)
    have hmerged : mergeSorted (primary ⟨ranges, primaryIndex, hlt⟩) ranges
        = (ranges, primary ⟨ranges, primaryIndex, hlt⟩) := by
      cases ranges with
      | nil => exact absurd hlt (Nat.not_lt_zero _)
      | cons first rest => exact mergeOverlaps_of_normal h
    have hidx : ranges.idxOf (primary ⟨ranges, primaryIndex, hlt⟩)
        = primaryIndex := h.nodup.idxOf_getElem primaryIndex hlt
    simp only [hsort, hmerged, hidx]

/-- Whatever ranges a selection is made of, and whichever way it is made
of them, they end up sorted and apart, covering the same chars, with the
primary one inside the primary one; and in the same ranges, whichever
order they came in. -/
theorem normalized_law (U : Unicode) :
    (∀ (ranges : List Range) (i : Nat) (hi : i < ranges.length),
      ∃ s, new ranges i = .ok s ∧ Normalizes ranges ranges[i] s) ∧
    (∀ (s : Selection) (range : Range),
      Normalizes (s.ranges ++ [range]) range (s.push range)) ∧
    (∀ (s : Selection) (i : Nat) (range : Range), i < s.ranges.length →
      ∃ s' primary, s.replace i range = .ok s' ∧
        (s.ranges.set i range)[s.primaryIndex]? = some primary ∧
        Normalizes (s.ranges.set i range) primary s') ∧
    (∀ (s : Selection) (f : Range → Result Range) (ranges : List Range),
      s.ranges.mapM f = .ok ranges →
      ∃ s' primary, s.transform f = .ok s' ∧
        ranges[s.primaryIndex]? = some primary ∧
        Normalizes ranges primary s') ∧
    (∀ (s : Selection) (changes : ChangeSet) (mapped : Selection),
      s.mapNoNormalize U changes = .ok mapped →
      ∃ s', s.map U changes = .ok s' ∧
        Normalizes mapped.ranges mapped.primary s') := by
  refine ⟨?_, ?_, ?_, ?_, ?_⟩
  · intro ranges i hi
    refine ⟨normalize ⟨ranges, i, hi⟩, ?_, normalize_spec ⟨ranges, i, hi⟩⟩
    unfold new
    rw [dif_pos hi]
  · intro s range
    have h := normalize_spec ⟨s.ranges ++ [range], s.ranges.length, by
      rw [List.length_append]
      exact Nat.lt_succ_self _⟩
    have hp : Selection.primary ⟨s.ranges ++ [range], s.ranges.length, by
        rw [List.length_append]
        exact Nat.lt_succ_self _⟩ = range := by
      show (s.ranges ++ [range]).get _ = range
      rw [List.get_eq_getElem]
      exact List.getElem_concat_length rfl _
    rw [hp] at h
    exact h
  · intro s i range hi
    unfold replace
    rw [if_pos hi]
    have hlt : s.primaryIndex < (s.ranges.set i range).length := by
      rw [List.length_set]
      exact s.primary_lt
    exact ⟨_, _, rfl, List.getElem?_eq_getElem hlt, normalize_spec ⟨_, _, hlt⟩⟩
  · intro s f ranges hf
    unfold transform
    split
    · next e he =>
        rw [hf] at he
        cases he
    · next ranges' hranges =>
        rw [hf] at hranges
        cases hranges
        have hlt : s.primaryIndex < ranges.length := by
          rw [← (mapM_eq_ok.mp hf).length_eq]
          exact s.primary_lt
        exact ⟨_, _, rfl, List.getElem?_eq_getElem hlt,
          normalize_spec ⟨_, _, hlt⟩⟩
  · intro s changes mapped h
    refine ⟨mapped.normalize, ?_, normalize_spec mapped⟩
    unfold map
    rw [h]
    rfl

end Selection

end Zmax
