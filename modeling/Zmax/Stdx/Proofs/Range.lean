/-
Subsets of ranges against their definitions.

Both walks are sweeps, so a range of the subset is looked for in the first
range of the superset that does not lie behind it. What the definitions ask
for comes apart from that at zero-width ranges only, which can lie at the end
of a range or at the start of the one behind it, and at the first range of
the superset, which the exact walk takes for matched.
-/
import Zmax.Lib.Sweep
import Zmax.Stdx.Range

namespace Zmax.Stdx

open Sweep

-- == definitions

/-- Every range of the subset is inside of one of the superset. -/
def naiveSubset (superSet subSet : List Range) : Bool :=
  subSet.all fun rb => superSet.any fun ra => ra.contains rb

/-- And every range of the superset has one inside. -/
def naiveExactSubset (superSet subSet : List Range) : Bool :=
  naiveSubset superSet subSet &&
    superSet.all fun ra => subSet.any fun rb => ra.contains rb

/-- Ranges in their order, without overlaps. -/
def Sorted (rs : List Range) : Prop :=
  (∀ r ∈ rs, r.start ≤ r.stop) ∧ rs.Pairwise fun a b => a.stop ≤ b.start

variable {allowEmpty : Bool} {superSet subSet : List Range} {a b : Range}

theorem naiveSubset_iff : naiveSubset superSet subSet ↔
    ∀ b ∈ subSet, ∃ a ∈ superSet, a.contains b := by
  simp [naiveSubset]

theorem naiveExactSubset_iff : naiveExactSubset superSet subSet ↔
    naiveSubset superSet subSet ∧
      ∀ a ∈ superSet, ∃ b ∈ subSet, a.contains b := by
  simp [naiveExactSubset]

theorem contains_iff :
    a.contains b ↔ a.start ≤ b.start ∧ b.stop ≤ a.stop := by
  simp [Range.contains]

-- == the sweeps

/-- A range that does not reach beyond the start of another one. -/
def passed (a b : Range) : Bool := a.stop ≤ b.start

/-- And starts before it. -/
def behind (a b : Range) : Bool := a.stop ≤ b.start ∧ a.start < b.start

theorem passed_iff : passed a b ↔ a.stop ≤ b.start := decide_eq_true_iff

theorem behind_iff : behind a b ↔ a.stop ≤ b.start ∧ a.start < b.start :=
  decide_eq_true_iff

theorem isSubset_false : isSubset false superSet subSet =
    sweep passed Range.contains superSet subSet := by
  fun_induction isSubset false superSet subSet with
  | case1 ra superSet rb subSet hskip ih =>
      rw [sweep, if_pos (passed_iff.mpr hskip.1), ih]
  | case2 ra superSet rb subSet hstay hin ih =>
      have hnot : ¬passed ra rb := fun h =>
        hstay ⟨passed_iff.mp h, .inr rfl⟩
      rw [sweep, if_neg hnot, if_pos hin, ih]
  | case3 ra superSet rb subSet hstay hin =>
      have hnot : ¬passed ra rb := fun h =>
        hstay ⟨passed_iff.mp h, .inr rfl⟩
      rw [sweep, if_neg hnot, if_neg hin]
  | case4 rb subSet => rw [sweep]
  | case5 superSet => rw [sweep]

theorem isSubset_true (h : ∀ r ∈ superSet, r.start ≤ r.stop) :
    isSubset true superSet subSet =
      sweep behind Range.contains superSet subSet := by
  fun_induction isSubset true superSet subSet with
  | case1 ra superSet rb subSet hskip ih =>
      have hle := h ra List.mem_cons_self
      have hne : ra.start ≠ rb.start := hskip.2.resolve_right (by decide)
      rw [sweep, if_pos (behind_iff.mpr ⟨hskip.1, by omega⟩),
        ih fun r hr => h r (List.mem_cons_of_mem ra hr)]
  | case2 ra superSet rb subSet hstay hin ih =>
      have hnot : ¬behind ra rb := fun h =>
        hstay ⟨(behind_iff.mp h).1, .inl (Nat.ne_of_lt (behind_iff.mp h).2)⟩
      rw [sweep, if_neg hnot, if_pos hin, ih h]
  | case3 ra superSet rb subSet hstay hin =>
      have hnot : ¬behind ra rb := fun h =>
        hstay ⟨(behind_iff.mp h).1, .inl (Nat.ne_of_lt (behind_iff.mp h).2)⟩
      rw [sweep, if_neg hnot, if_neg hin]
  | case4 rb subSet => rw [sweep]
  | case5 superSet => rw [sweep]

theorem isExactSubsetLoop_eq (matched : Bool) :
    isExactSubsetLoop matched superSet subSet =
      sweepAll behind Range.contains matched superSet subSet := by
  fun_induction isExactSubsetLoop matched superSet subSet with
  | case1 ra superSet rb subSet hskip ih =>
      rw [sweepAll, if_pos (behind_iff.mpr hskip), if_pos rfl, ih]
  | case2 matched ra superSet rb subSet hskip hmatched =>
      rw [sweepAll, if_pos (behind_iff.mpr hskip), if_neg hmatched]
  | case3 matched ra superSet rb subSet hstay hin ih =>
      rw [sweepAll, if_neg fun h => hstay (behind_iff.mp h), if_pos hin, ih]
  | case4 matched ra superSet rb subSet hstay hin =>
      rw [sweepAll, if_neg fun h => hstay (behind_iff.mp h), if_neg hin]
  | case5 matched rb subSet => rw [sweepAll]
  | case6 matched superSet => rw [sweepAll]

theorem Sorted.starts (h : Sorted subSet) :
    subSet.Pairwise fun b b' => b.start ≤ b'.start := by
  obtain ⟨hle, hpair⟩ := h
  refine hpair.imp_of_mem fun {b b'} hb _ hbb => ?_
  exact Nat.le_trans (hle b hb) hbb

theorem monotone_passed (h : Sorted subSet) :
    Sweep.Monotone passed superSet subSet := by
  refine fun a _ => h.starts.imp fun {b b'} hbb hpast => ?_
  rw [passed_iff] at hpast ⊢
  omega

theorem monotone_behind (h : Sorted subSet) :
    Sweep.Monotone behind superSet subSet := by
  refine fun a _ => h.starts.imp fun {b b'} hbb hpast => ?_
  rw [behind_iff] at hpast ⊢
  omega

-- == where a range is found

/-- The ranges before a range of the superset end where it starts, or
before. -/
theorem Sorted.before {pre post : List Range} (h : Sorted superSet)
    (hsplit : superSet = pre ++ a :: post) :
    (∀ r ∈ pre, r.start ≤ r.stop ∧ r.stop ≤ a.start) ∧
      ∀ r ∈ post, a.stop ≤ r.start := by
  obtain ⟨hle, hpair⟩ := h
  rw [hsplit] at hpair
  obtain ⟨-, htail, hcross⟩ := List.pairwise_append.mp hpair
  constructor
  · intro r hr
    refine ⟨hle r ?_, hcross r hr a List.mem_cons_self⟩
    rw [hsplit]
    exact List.mem_append_left _ hr
  · exact (List.pairwise_cons.mp htail).1

/-- The strict walk finds a range in one that goes on behind its start. -/
theorem covered_passed (h : Sorted superSet) :
    Covered passed Range.contains superSet b ↔
      ∃ a ∈ superSet, a.contains b ∧ b.start < a.stop := by
  rw [covered_iff]
  constructor
  · rintro ⟨pre, a, post, rfl, -, hstay, hin⟩
    rw [passed_iff, Nat.not_le] at hstay
    exact ⟨a, List.mem_append_right _ List.mem_cons_self, hin, hstay⟩
  · rintro ⟨a, ha, hin, hlt⟩
    obtain ⟨pre, post, rfl⟩ := List.append_of_mem ha
    refine ⟨pre, a, post, rfl, fun r hr => ?_, ?_, hin⟩
    · have hr' := (h.before rfl).1 r hr
      have hin' := contains_iff.mp hin
      rw [passed_iff]
      omega
    · rw [passed_iff]
      omega

/-- Whether the walk that allows empty ranges can find a range: a zero-width
one has to lie before the end of a range or at its start, and no empty range
may stand at the start of another one. -/
def Reached (superSet : List Range) (b : Range) : Prop :=
  (b.start = b.stop → ∃ a ∈ superSet,
    a.start ≤ b.start ∧ (b.start < a.stop ∨ a.start = b.start)) ∧
  (b.start < b.stop → ⟨b.start, b.start⟩ ∉ superSet)

theorem not_behind_empty : ¬behind ⟨b.start, b.start⟩ b := by
  rw [behind_iff]
  exact fun h => Nat.lt_irrefl _ h.2

theorem covered_behind (h : Sorted superSet) (hb : b.start ≤ b.stop) :
    Covered behind Range.contains superSet b ↔
      (∃ a ∈ superSet, a.contains b) ∧ Reached superSet b := by
  rw [covered_iff]
  constructor
  · rintro ⟨pre, a, post, hsplit, hpre, hstay, hin⟩
    have hmem : a ∈ superSet := by
      rw [hsplit]
      exact List.mem_append_right _ List.mem_cons_self
    have hin' := contains_iff.mp hin
    refine ⟨⟨a, hmem, hin⟩, fun hempty => ⟨a, hmem, hin'.1, ?_⟩,
      fun hlt hpoint => ?_⟩
    · rw [behind_iff] at hstay
      omega
    · rw [hsplit] at hpoint
      rcases List.mem_append.mp hpoint with hp | hp
      · exact not_behind_empty (hpre _ hp)
      · rcases List.mem_cons.mp hp with heq | hp
        · rw [← heq] at hin'
          simp only at hin'
          omega
        · have hpost := (h.before hsplit).2 _ hp
          simp only at hpost
          omega
  · rintro ⟨⟨a, ha, hin⟩, hempty, hpoint⟩
    have hin' := contains_iff.mp hin
    rcases Nat.eq_or_lt_of_le hb with heq | hlt
    · obtain ⟨a', ha', hstart, hreach⟩ := hempty heq
      have hstay : ¬behind a' b := by
        rw [behind_iff]
        omega
      obtain ⟨pre, first, post, hsplit, hpre, hfirst, hlate⟩ :=
        exists_first ha' hstay
      refine ⟨pre, first, post, hsplit, hpre, hfirst, contains_iff.mpr ?_⟩
      have hmem : first ∈ superSet := by
        rw [hsplit]
        exact List.mem_append_right _ List.mem_cons_self
      have hle := h.1 first hmem
      rw [behind_iff] at hfirst
      rcases hlate with rfl | hpost
      · omega
      · have hafter := (h.before hsplit).2 a' hpost
        omega
    · obtain ⟨pre, post, hsplit⟩ := List.append_of_mem ha
      refine ⟨pre, a, post, hsplit, fun r hr => ?_, ?_, hin⟩
      · have hr' := (h.before hsplit).1 r hr
        rw [behind_iff]
        refine ⟨by omega, ?_⟩
        by_contra hge
        refine hpoint hlt ?_
        have heq : r = ⟨b.start, b.start⟩ := by
          cases r
          simp only [Range.mk.injEq] at hr' hge ⊢
          omega
        rw [hsplit, ← heq]
        exact List.mem_append_left _ hr
      · rw [behind_iff]
        omega

-- == laws

/-- Each range that a further range of the superset contains is a zero-width
one at its end, or belongs to an empty range before it. -/
def Late (subSet pre : List Range) (a : Range) : Prop :=
  ∀ b ∈ subSet, a.contains b →
    (a.stop ≤ b.start ∧ a.start < b.start) ∨ ⟨b.start, b.start⟩ ∈ pre

theorem not_late_iff {pre : List Range} : ¬Late subSet pre a ↔
    ∃ b ∈ subSet, a.contains b ∧ ¬(a.stop ≤ b.start ∧ a.start < b.start) ∧
      ⟨b.start, b.start⟩ ∉ pre := by
  unfold Late
  constructor
  · intro hlate
    by_contra hnone
    refine hlate fun b hb hin => ?_
    by_contra hstay
    exact hnone ⟨b, hb, hin, fun hend => hstay (.inl hend),
      fun hpoint => hstay (.inr hpoint)⟩
  · rintro ⟨b, hb, hin, hstay, hpoint⟩ hlate
    exact (hlate b hb hin).elim hstay hpoint

/-- What the exact walk asks for. -/
def Neat (superSet subSet : List Range) : Prop :=
  (∀ b ∈ subSet, (∃ a ∈ superSet, a.contains b) ∧ Reached superSet b) ∧
    ∀ pre a post, superSet = pre ++ a :: post → pre ≠ [] →
      ¬Late subSet pre a

theorem isExactSubset_iff (h : Sorted superSet) (h' : Sorted subSet) :
    isExactSubset superSet subSet ↔ Neat superSet subSet := by
  rw [isExactSubset, isExactSubsetLoop_eq,
    sweepAll_iff (monotone_behind h') (.inl rfl)]
  have hcovered : (∀ b ∈ subSet, Covered behind Range.contains superSet b) ↔
      ∀ b ∈ subSet, (∃ a ∈ superSet, a.contains b) ∧ Reached superSet b :=
    forall₂_congr fun b hb => covered_behind h (h'.1 b hb)
  rw [hcovered]
  refine and_congr_right fun hall => ?_
  have hstop : ∀ {pre a post b}, superSet = pre ++ a :: post → b ∈ subSet →
      (stop behind superSet b = pre.length ↔ a.contains b ∧
        ¬(a.stop ≤ b.start ∧ a.start < b.start) ∧
          ⟨b.start, b.start⟩ ∉ pre) := by
    intro pre a post b hsplit hb
    rw [stop_eq_iff hsplit, ← behind_iff]
    constructor
    · rintro ⟨hpre, hstay⟩
      obtain ⟨pre', a', post', hsplit', hpre', hstay', hin⟩ :=
        covered_iff.mp (hcovered.mpr hall b hb)
      have hlen : pre'.length = pre.length := by
        rw [← (stop_eq_iff hsplit').mpr ⟨hpre', hstay'⟩,
          ← (stop_eq_iff hsplit).mpr ⟨hpre, hstay⟩]
      obtain ⟨-, heq⟩ := List.append_inj (hsplit'.symm.trans hsplit) hlen
      obtain ⟨rfl, -⟩ := List.cons.inj heq
      exact ⟨hin, hstay, fun hp => not_behind_empty (hpre _ hp)⟩
    · rintro ⟨hin, hstay, hpoint⟩
      refine ⟨fun r hr => ?_, hstay⟩
      have hr' := (h.before hsplit).1 r hr
      have hin' := contains_iff.mp hin
      rw [behind_iff]
      refine ⟨by omega, ?_⟩
      by_contra hge
      refine hpoint ?_
      have heq : r = ⟨b.start, b.start⟩ := by
        cases r
        simp only [Range.mk.injEq] at hr' hge ⊢
        omega
      exact heq ▸ hr
  constructor
  · intro hfirst pre a post hsplit hpre hlate
    have hpos := List.length_pos_iff.mpr hpre
    obtain ⟨b, hb, heq⟩ := hfirst pre.length
      (by rw [hsplit, List.length_append, List.length_cons]; omega)
      fun hzero => by omega
    obtain ⟨hin, hstay, hpoint⟩ := (hstop hsplit hb).mp heq
    exact (hlate b hb hin).elim hstay hpoint
  · intro hlate i hi hfirst
    have hpos : i ≠ 0 := fun hzero => Bool.noConfusion (hfirst hzero)
    have hsplit : superSet = superSet.take i ++
        superSet[i] :: superSet.drop (i + 1) := by
      rw [List.getElem_cons_drop, List.take_append_drop]
    have hlen : (superSet.take i).length = i := by
      rw [List.length_take]
      omega
    have hne : superSet.take i ≠ [] := by
      intro hnil
      rw [hnil, List.length_nil] at hlen
      exact hpos hlen.symm
    obtain ⟨b, hb, hin, hstay, hpoint⟩ :=
      not_late_iff.mp (hlate _ _ _ hsplit hne)
    exact ⟨b, hb, ((hstop hsplit hb).mpr ⟨hin, hstay, hpoint⟩).trans hlen⟩

/-- The two walks agree with their definitions exactly as far as the
zero-width ranges and the first range of the superset allow. -/
theorem subset_law (superSet subSet : List Range) (h : Sorted superSet)
    (h' : Sorted subSet) :
    (isSubset false superSet subSet = naiveSubset superSet subSet ↔
      (naiveSubset superSet subSet → ∀ b ∈ subSet, b.start = b.stop →
        ∃ a ∈ superSet, a.start ≤ b.start ∧ b.start < a.stop)) ∧
    (isSubset true superSet subSet = naiveSubset superSet subSet ↔
      (naiveSubset superSet subSet → ∀ b ∈ subSet, Reached superSet b)) ∧
    (isExactSubset superSet subSet = naiveExactSubset superSet subSet ↔
      (naiveExactSubset superSet subSet → Neat superSet subSet) ∧
        (Neat superSet subSet → ∀ a ∈ superSet.head?, ∃ b ∈ subSet,
          a.contains b)) := by
  refine ⟨?_, ?_, ?_⟩
  · rw [Bool.eq_iff_iff, isSubset_false, sweep_iff (monotone_passed h'),
      forall₂_congr fun b _ => covered_passed h, naiveSubset_iff]
    constructor
    · intro hiff hall b hb _
      obtain ⟨a, ha, hin, hlt⟩ := hiff.mpr hall b hb
      exact ⟨a, ha, (contains_iff.mp hin).1, hlt⟩
    · intro hempty
      refine ⟨fun hall b hb => ?_, fun hall b hb => ?_⟩
      · obtain ⟨a, ha, hin, -⟩ := hall b hb
        exact ⟨a, ha, hin⟩
      · rcases Nat.eq_or_lt_of_le (h'.1 b hb) with heq | hlt
        · obtain ⟨a, ha, hstart, hstop⟩ := hempty hall b hb heq
          exact ⟨a, ha, contains_iff.mpr ⟨hstart, by omega⟩, hstop⟩
        · obtain ⟨a, ha, hin⟩ := hall b hb
          have hin' := contains_iff.mp hin
          exact ⟨a, ha, hin, by omega⟩
  · rw [Bool.eq_iff_iff, isSubset_true h.1, sweep_iff (monotone_behind h'),
      forall₂_congr fun b hb => covered_behind h (h'.1 b hb), naiveSubset_iff]
    constructor
    · intro hiff hall b hb
      exact (hiff.mpr hall b hb).2
    · intro hreached
      exact ⟨fun hall b hb => (hall b hb).1,
        fun hall b hb => ⟨hall b hb, hreached hall b hb⟩⟩
  · rw [Bool.eq_iff_iff, isExactSubset_iff h h', naiveExactSubset_iff,
      naiveSubset_iff]
    constructor
    · intro hiff
      refine ⟨hiff.mpr, fun hneat a ha => ?_⟩
      exact (hiff.mp hneat).2 a (List.mem_of_mem_head? ha)
    · rintro ⟨hneat, hfirst⟩
      refine ⟨fun hn => ⟨fun b hb => (hn.1 b hb).1, fun a ha => ?_⟩, hneat⟩
      obtain ⟨pre, post, hsplit⟩ := List.append_of_mem ha
      by_cases hpre : pre = []
      · refine hfirst hn a ?_
        rw [hsplit, hpre]
        rfl
      · obtain ⟨b, hb, hin, -⟩ :=
          not_late_iff.mp (hn.2 pre a post hsplit hpre)
        exact ⟨b, hb, hin⟩

theorem subset_law_cursor :
    isSubset true [⟨4, 8⟩] [⟨4, 4⟩] = naiveSubset [⟨4, 8⟩] [⟨4, 4⟩] := by
  refine (subset_law [⟨4, 8⟩] [⟨4, 4⟩] ⟨by decide, by simp⟩
    ⟨by decide, by simp⟩).2.1.mpr fun _ b hb => ?_
  obtain rfl := List.mem_singleton.mp hb
  exact ⟨fun _ => ⟨⟨4, 8⟩, by decide⟩, fun hlt => absurd hlt (by decide)⟩

/-- A cursor at the end of a range, and a first range that nothing is in. -/
theorem not_subset_law_end :
    (Sorted [⟨4, 8⟩] ∧ Sorted [⟨8, 8⟩] ∧
      isSubset true [⟨4, 8⟩] [⟨8, 8⟩] ≠ naiveSubset [⟨4, 8⟩] [⟨8, 8⟩]) ∧
    Sorted [⟨0, 10⟩, ⟨20, 30⟩] ∧ Sorted [⟨20, 25⟩] ∧
      isExactSubset [⟨0, 10⟩, ⟨20, 30⟩] [⟨20, 25⟩] ≠
        naiveExactSubset [⟨0, 10⟩, ⟨20, 30⟩] [⟨20, 25⟩] := by
  refine ⟨⟨⟨by decide, by simp⟩, ⟨by decide, by simp⟩, ?_⟩,
    ⟨by decide, by simp⟩, ⟨by decide, by simp⟩, ?_⟩
  · simp [isSubset, naiveSubset, Range.contains]
  · simp [isExactSubset, isExactSubsetLoop, naiveExactSubset, naiveSubset,
      Range.contains]

end Zmax.Stdx
