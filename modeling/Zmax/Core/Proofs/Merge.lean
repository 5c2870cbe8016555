/-
What the three-way merge keeps.

The walk through the table pairs up equal lines, forward in both lists, so
the sync points go forward in all three (`Aligned`). Then no slice is out
of its list, and the merge is `merged`: the resolved regions with the shared
lines between them. The laws are inductions over the sync points.
-/
import Zmax.Core.Merge

namespace Zmax.Merge

-- == matching

section Lcs

variable {T : Type _} [DecidableEq T] {a b : List T}

variable {i j : Nat}

/-- A pair of the walk is of equal elements, not before where it starts. -/
theorem lcsWalk_matches {dp : List (List Nat)} {fuel : Nat} {p : Nat × Nat}
    (hp : p ∈ lcsWalk a b dp fuel i j) :
    i ≤ p.1 ∧ j ≤ p.2 ∧ ∃ x, a[p.1]? = some x ∧ b[p.2]? = some x := by
  induction fuel generalizing i j with
  | zero => cases hp
  | succ fuel ih =>
      rw [lcsWalk] at hp
      split at hp
      · next x y hx hy =>
        split at hp
        · next heq =>
          rcases List.mem_cons.mp hp with rfl | hp
          · exact ⟨Nat.le_refl _, Nat.le_refl _, x, hx, heq ▸ hy⟩
          · obtain ⟨h₁, h₂, h₃⟩ := ih hp
            exact ⟨by omega, by omega, h₃⟩
        · split at hp
          · obtain ⟨h₁, h₂, h₃⟩ := ih hp
            exact ⟨by omega, h₂, h₃⟩
          · obtain ⟨h₁, h₂, h₃⟩ := ih hp
            exact ⟨h₁, by omega, h₃⟩
      · cases hp

/-- The walk goes forward in both lists. -/
theorem lcsWalk_forward (dp : List (List Nat)) (fuel i j : Nat) :
    (lcsWalk a b dp fuel i j).Pairwise fun p q => p.1 < q.1 ∧ p.2 < q.2 := by
  induction fuel generalizing i j with
  | zero => exact .nil
  | succ fuel ih =>
      rw [lcsWalk]
      split
      · split
        · refine .cons (fun q hq => ?_) (ih _ _)
          obtain ⟨h₁, h₂, -⟩ := lcsWalk_matches hq
          exact ⟨h₁, h₂⟩
        · split
          · exact ih _ _
          · exact ih _ _
      · exact .nil

theorem mem_of_lookup {ps : List (Nat × Nat)} (h : ps.lookup i = some j) :
    (i, j) ∈ ps := by
  induction ps with
  | nil => cases h
  | cons p ps ih =>
      rw [List.lookup_cons] at h
      split at h
      · next heq =>
        cases h
        have := beq_iff_eq.mp heq
        exact this ▸ List.mem_cons_self
      · exact List.mem_cons_of_mem _ (ih h)

theorem lcsPairs_matches (h : (lcsPairs a b).lookup i = some j) :
    ∃ x, a[i]? = some x ∧ b[j]? = some x :=
  (lcsWalk_matches (mem_of_lookup h)).2.2

/-- Pairs that go forward in both lists, looked up. -/
theorem lookup_lt {ps : List (Nat × Nat)} {i' j' : Nat} (hi : i < i')
    (hps : ps.Pairwise fun p q => p.1 < q.1 ∧ p.2 < q.2)
    (h : ps.lookup i = some j) (h' : ps.lookup i' = some j') : j < j' := by
  induction ps with
  | nil => cases h
  | cons p ps ih =>
      obtain ⟨hp, hps⟩ := List.pairwise_cons.mp hps
      rw [List.lookup_cons] at h h'
      by_cases hip : i = p.1
      · have hne : (i' == p.1) = false := beq_eq_false_iff_ne.mpr (by omega)
        rw [hne] at h'
        rw [beq_iff_eq.mpr hip] at h
        cases h
        exact (hp _ (mem_of_lookup h')).2
      · rw [beq_eq_false_iff_ne.mpr hip] at h
        have hlt := (hp _ (mem_of_lookup h)).1
        have hne : (i' == p.1) = false :=
          beq_eq_false_iff_ne.mpr (by simp only at hlt; omega)
        rw [hne] at h'
        exact ih hps h h'

/-- Later lines are matched later. -/
theorem lcsPairs_monotone {i' j' : Nat} (hi : i < i')
    (h : (lcsPairs a b).lookup i = some j)
    (h' : (lcsPairs a b).lookup i' = some j') : j < j' :=
  lookup_lt hi (lcsWalk_forward _ _ _ _) h h'

/-- Against itself, every element is matched with itself. -/
theorem lcsWalk_self (dp : List (List Nat)) {fuel k : Nat} (hik : i ≤ k)
    (hk : k < a.length) (hfuel : a.length ≤ i + fuel) :
    (lcsWalk a a dp fuel i i).lookup k = some k := by
  induction fuel generalizing i with
  | zero => omega
  | succ fuel ih =>
      have hget : a[i]? = some a[i] := List.getElem?_eq_getElem (by omega)
      rw [lcsWalk, hget]
      simp only [if_true]
      rw [List.lookup_cons]
      by_cases heq : k = i
      · simp [heq]
      · rw [beq_eq_false_iff_ne.mpr heq]
        exact ih (by omega) (by omega)

theorem lcsPairs_self {k : Nat} (hk : k < a.length) :
    (lcsPairs a a).lookup k = some k :=
  lcsWalk_self _ (Nat.zero_le _) hk (by omega)

end Lcs

-- == sync points

variable {o a b : List Line} {syncs : List (Nat × Nat × Nat)}
  {bo ao to' : Nat}

/-- Sync points that go forward from the given positions, each the same
line in all three lists. -/
def Aligned (o a b : List Line) :
    List (Nat × Nat × Nat) → Nat → Nat → Nat → Prop
  | [], bo, ao, to' => bo ≤ o.length ∧ ao ≤ a.length ∧ to' ≤ b.length
  | (bi, ai, ti) :: syncs, bo, ao, to' =>
      bo ≤ bi ∧ ao ≤ ai ∧ to' ≤ ti ∧
        (∃ x, o[bi]? = some x ∧ a[ai]? = some x ∧ b[ti]? = some x) ∧
        Aligned o a b syncs (bi + 1) (ai + 1) (ti + 1)

/-- One sync point is before another one in all three lists. -/
def Before (s t : Nat × Nat × Nat) : Prop :=
  s.1 < t.1 ∧ s.2.1 < t.2.1 ∧ s.2.2 < t.2.2

theorem mem_syncPoints {bi ai ti : Nat} :
    (bi, ai, ti) ∈ syncPoints o a b ↔
      bi < o.length ∧ (lcsPairs o a).lookup bi = some ai ∧
        (lcsPairs o b).lookup bi = some ti := by
  simp only [syncPoints, List.mem_filterMap, List.mem_range]
  constructor
  · rintro ⟨i, hi, h⟩
    split at h
    · next ai' ti' ha hb =>
      cases h
      exact ⟨hi, ha, hb⟩
    · cases h
  · rintro ⟨hi, ha, hb⟩
    exact ⟨bi, hi, by simp [ha, hb]⟩

theorem syncPoints_before : (syncPoints o a b).Pairwise Before := by
  unfold syncPoints
  refine List.Pairwise.filterMap _ ?_ List.pairwise_lt_range
  intro i i' hi s hs t ht
  split at hs
  · next ai ti ha hb =>
    cases hs
    split at ht
    · next ai' ti' ha' hb' =>
      cases ht
      exact ⟨hi, lcsPairs_monotone hi ha ha', lcsPairs_monotone hi hb hb'⟩
    · cases ht
  · cases hs

theorem aligned_of_before (hbefore : syncs.Pairwise Before)
    (hall : ∀ s ∈ syncs, bo ≤ s.1 ∧ ao ≤ s.2.1 ∧ to' ≤ s.2.2 ∧
      ∃ x, o[s.1]? = some x ∧ a[s.2.1]? = some x ∧ b[s.2.2]? = some x)
    (ho : bo ≤ o.length) (ha : ao ≤ a.length) (hb : to' ≤ b.length) :
    Aligned o a b syncs bo ao to' := by
  induction syncs generalizing bo ao to' with
  | nil => exact ⟨ho, ha, hb⟩
  | cons s syncs ih =>
      obtain ⟨bi, ai, ti⟩ := s
      obtain ⟨hs, hbefore⟩ := List.pairwise_cons.mp hbefore
      obtain ⟨⟨h₁, h₂, h₃, x, hx⟩, hall⟩ := List.forall_mem_cons.mp hall
      obtain ⟨hxo, -⟩ := List.getElem?_eq_some_iff.mp hx.1
      obtain ⟨hxa, -⟩ := List.getElem?_eq_some_iff.mp hx.2.1
      obtain ⟨hxb, -⟩ := List.getElem?_eq_some_iff.mp hx.2.2
      refine ⟨h₁, h₂, h₃, ⟨x, hx⟩, ih hbefore (fun t ht => ?_) hxo hxa hxb⟩
      exact ⟨(hs t ht).1, (hs t ht).2.1, (hs t ht).2.2, (hall t ht).2.2.2⟩

theorem syncPoints_aligned : Aligned o a b (syncPoints o a b) 0 0 0 := by
  refine aligned_of_before syncPoints_before (fun s hs => ?_)
    (Nat.zero_le _) (Nat.zero_le _) (Nat.zero_le _)
  obtain ⟨bi, ai, ti⟩ := s
  obtain ⟨-, ha, hb⟩ := mem_syncPoints.mp hs
  obtain ⟨x, hxo, hxa⟩ := lcsPairs_matches ha
  obtain ⟨y, hyo, hyb⟩ := lcsPairs_matches hb
  rw [hxo] at hyo
  cases hyo
  exact ⟨Nat.zero_le _, Nat.zero_le _, Nat.zero_le _, x, hxo, hxa, hyb⟩

/-- The sync points are sorted as they come. -/
theorem sort_syncPoints :
    (syncPoints o a b).mergeSort syncLe = syncPoints o a b := by
  refine List.mergeSort_of_pairwise (syncPoints_before.imp ?_)
  intro s t h
  simp [syncLe, Nat.ne_of_lt h.1, h.1]

-- == merging

/-- The lines from one position to another. -/
def seg (xs : List Line) (i j : Nat) : List Line :=
  (xs.drop i).take (j - i)

/-- The merge without its bounds checks. -/
def merged (o a b : List Line) :
    List (Nat × Nat × Nat) → Nat → Nat → Nat → List Line × Nat
  | [], bo, ao, to' => resolve (o.drop bo) (a.drop ao) (b.drop to')
  | (bi, ai, ti) :: syncs, bo, ao, to' =>
      let chunk := resolve (seg o bo bi) (seg a ao ai) (seg b to' ti)
      let rest := merged o a b syncs (bi + 1) (ai + 1) (ti + 1)
      (chunk.1 ++ (o[bi]?.toList ++ rest.1), chunk.2 + rest.2)

attribute [grind =] merged

theorem resolve_nil : resolve [] [] [] = ([], 0) := rfl

theorem seg_self (xs : List Line) (i : Nat) : seg xs i i = [] := by
  simp [seg]

variable {i j : Nat} {xs : List Line}

theorem slice_eq (hij : i ≤ j) (hj : j ≤ xs.length) :
    slice xs i j = .ok (seg xs i j) :=
  slice_of_le hij hj

theorem slice_drop (hi : i ≤ xs.length) :
    slice xs i xs.length = .ok (xs.drop i) := by
  rw [slice_of_le hi (Nat.le_refl _), List.take_of_length_le (by simp)]

/-- Aligned sync points keep every slice in its list. -/
theorem mergeFrom_eq (h : Aligned o a b syncs bo ao to') :
    mergeFrom o a b syncs bo ao to' = .ok (merged o a b syncs bo ao to') := by
  induction syncs generalizing bo ao to' with
  | nil =>
      obtain ⟨ho, ha, hb⟩ := h
      rw [mergeFrom, merged]
      by_cases hmore : bo < o.length ∨ ao < a.length ∨ to' < b.length
      · rw [if_pos hmore, slice_drop ho, slice_drop ha, slice_drop hb]
        rfl
      · rw [if_neg hmore, List.drop_eq_nil_of_le (by omega),
          List.drop_eq_nil_of_le (by omega), List.drop_eq_nil_of_le (by omega)]
        rfl
  | cons s syncs ih =>
      obtain ⟨bi, ai, ti⟩ := s
      obtain ⟨ho, ha, hb, ⟨x, hxo, hxa, hxb⟩, hrest⟩ := h
      obtain ⟨hlo, -⟩ := List.getElem?_eq_some_iff.mp hxo
      obtain ⟨hla, -⟩ := List.getElem?_eq_some_iff.mp hxa
      obtain ⟨hlb, -⟩ := List.getElem?_eq_some_iff.mp hxb
      rw [mergeFrom, merged, ih hrest, index_eq_ok.mpr hxo, hxo]
      by_cases hmore : bo < bi ∨ ao < ai ∨ to' < ti
      · rw [if_pos hmore, slice_eq ho (by omega), slice_eq ha (by omega),
          slice_eq hb (by omega)]
        rfl
      · rw [if_neg hmore, show bo = bi by omega, show ao = ai by omega,
          show to' = ti by omega, seg_self, seg_self, seg_self, resolve_nil]
        simp

-- == identities

theorem seg_append {x : Line} (hij : i ≤ j) (hx : xs[j]? = some x) :
    seg xs i j ++ x :: xs.drop (j + 1) =
      xs.drop i := by
  obtain ⟨hj, rfl⟩ := List.getElem?_eq_some_iff.mp hx
  have hdrop : xs.drop i = seg xs i j ++ xs.drop j := by
    rw [seg, ← Nat.add_sub_cancel' hij, ← List.drop_drop,
      Nat.add_sub_cancel_left, List.take_append_drop]
  rw [hdrop, List.drop_eq_getElem_cons hj]

/-- Theirs is the base: ours is what comes out. -/
theorem resolve_base (os as : List Line) : resolve os as os = (as, 0) := by
  unfold resolve
  by_cases h : as = os
  · rw [if_pos h, h]
  · rw [if_neg h, if_pos rfl]

/-- The same on both sides comes out. -/
theorem resolve_same (os as : List Line) : resolve os as as = (as, 0) := by
  unfold resolve
  by_cases h : as = os
  · rw [if_pos h]
  · rw [if_neg h, if_neg h, if_pos rfl]

theorem merged_base (h : Aligned o a o syncs bo ao bo)
    (hsame : ∀ s ∈ syncs, s.2.2 = s.1) :
    merged o a o syncs bo ao bo = (a.drop ao, 0) := by
  induction syncs generalizing bo ao with
  | nil => exact resolve_base _ _
  | cons s syncs ih =>
      obtain ⟨bi, ai, ti⟩ := s
      obtain ⟨hti, hlater⟩ := List.forall_mem_cons.mp hsame
      obtain ⟨-, ha, -, ⟨x, hxo, hxa, -⟩, hrest⟩ := h
      simp only at hti
      subst hti
      rw [merged, ih hrest hlater, resolve_base, hxo]
      simp [seg_append ha hxa]

theorem merged_same (h : Aligned o a a syncs bo ao ao)
    (hsame : ∀ s ∈ syncs, s.2.2 = s.2.1) :
    merged o a a syncs bo ao ao = (a.drop ao, 0) := by
  induction syncs generalizing bo ao with
  | nil => exact resolve_same _ _
  | cons s syncs ih =>
      obtain ⟨bi, ai, ti⟩ := s
      obtain ⟨hti, hlater⟩ := List.forall_mem_cons.mp hsame
      obtain ⟨-, ha, -, ⟨x, hxo, hxa, -⟩, hrest⟩ := h
      simp only at hti
      subst hti
      rw [merged, ih hrest hlater, resolve_same, hxo]
      simp [seg_append ha hxa]

-- == symmetry

/-- The same conflicts either way, and the same lines when there is
none. -/
theorem resolve_swap (os as bs : List Line) :
    (resolve os bs as).2 = (resolve os as bs).2 ∧
      ((resolve os as bs).2 = 0 →
        (resolve os bs as).1 = (resolve os as bs).1) := by
  unfold resolve
  by_cases ha : as = os
  · by_cases hb : bs = os
    · simp [ha, hb]
    · simp [ha, hb]
  · by_cases hb : bs = os
    · simp [ha, hb]
    · by_cases hab : as = bs
      · simp [hab, hb]
      · simp [ha, hb, hab, Ne.symm hab]

def swapSync (s : Nat × Nat × Nat) : Nat × Nat × Nat := (s.1, s.2.2, s.2.1)

theorem merged_swap :
    (merged o b a (syncs.map swapSync) bo to' ao).2 =
        (merged o a b syncs bo ao to').2 ∧
      ((merged o a b syncs bo ao to').2 = 0 →
        (merged o b a (syncs.map swapSync) bo to' ao).1 =
          (merged o a b syncs bo ao to').1) := by
  induction syncs generalizing bo ao to' with
  | nil => exact resolve_swap _ _ _
  | cons s syncs ih =>
      obtain ⟨bi, ai, ti⟩ := s
      obtain ⟨hcount, hlines⟩ :=
        resolve_swap (seg o bo bi) (seg a ao ai) (seg b to' ti)
      obtain ⟨ihcount, ihlines⟩ := @ih (bi + 1) (ai + 1) (ti + 1)
      simp only [List.map_cons, swapSync, merged]
      refine ⟨by rw [hcount]; exact congrArg _ ihcount, fun h => ?_⟩
      obtain ⟨h₁, h₂⟩ := Nat.add_eq_zero_iff.mp h
      rw [hlines h₁]
      exact congrArg _ (congrArg _ (ihlines h₂))

theorem syncPoints_swap :
    syncPoints o b a = (syncPoints o a b).map swapSync := by
  unfold syncPoints
  rw [List.map_filterMap]
  refine congrArg (List.filterMap · _) (funext fun bi => ?_)
  cases (lcsPairs o a).lookup bi <;> cases (lcsPairs o b).lookup bi <;> rfl

-- == what a merge contains

/-- Without a conflict, a region is that of one of the sides. -/
theorem resolve_mem {os as bs : List Line} (h : (resolve os as bs).2 = 0) :
    (resolve os as bs).1 = as ∨ (resolve os as bs).1 = bs := by
  unfold resolve at h ⊢
  by_cases ha : as = os
  · simp [ha]
  · by_cases hb : bs = os
    · simp [ha, hb]
    · by_cases hab : as = bs
      · simp [hab]
      · simp [ha, hb, hab] at h

theorem mem_of_seg {x : Line} (hx : x ∈ seg xs i j) : x ∈ xs :=
  List.mem_of_mem_drop (List.mem_of_mem_take hx)

/-- Every line of a merge without conflicts is a line of a side. -/
theorem merged_mem {line : Line} (h : Aligned o a b syncs bo ao to')
    (hnone : (merged o a b syncs bo ao to').2 = 0)
    (hline : line ∈ (merged o a b syncs bo ao to').1) :
    line ∈ a ∨ line ∈ b := by
  induction syncs generalizing bo ao to' with
  | nil =>
      rw [merged] at hnone hline
      rcases resolve_mem hnone with heq | heq
      · exact .inl (List.mem_of_mem_drop (heq ▸ hline))
      · exact .inr (List.mem_of_mem_drop (heq ▸ hline))
  | cons s syncs ih =>
      obtain ⟨bi, ai, ti⟩ := s
      obtain ⟨-, -, -, ⟨x, hxo, hxa, -⟩, hrest⟩ := h
      rw [merged] at hnone hline
      obtain ⟨h₁, h₂⟩ := Nat.add_eq_zero_iff.mp hnone
      simp only [hxo, Option.toList_some, List.mem_append,
        List.mem_singleton] at hline
      rcases hline with hline | hline | hline
      · rcases resolve_mem h₁ with heq | heq
        · exact .inl (mem_of_seg (heq ▸ hline))
        · exact .inr (mem_of_seg (heq ▸ hline))
      · exact .inl (hline ▸ List.mem_of_getElem? hxa)
      · exact ih hrest h₂ hline

/-- The shared lines are in the merge, in order. -/
theorem merged_kept :
    (syncs.filterMap fun s => o[s.1]?).Sublist
      (merged o a b syncs bo ao to').1 := by
  induction syncs generalizing bo ao to' with
  | nil => exact List.nil_sublist _
  | cons s syncs ih =>
      obtain ⟨bi, ai, ti⟩ := s
      rw [merged]
      refine List.Sublist.trans ?_ (List.sublist_append_right _ _)
      cases hx : o[bi]? with
      | none => simpa [hx] using ih
      | some x => simpa [hx] using ih

-- == texts

theorem splitLines_cons (c : Char) (text : Rope) :
    splitLines (c :: text) =
      if c = '\n' then [] :: splitLines text
      else (splitLines text).modifyHead (c :: ·) := by
  simp [splitLines, List.splitOn_cons_eq_if_modifyHead]

theorem splitLines_ne_nil (text : Rope) : splitLines text ≠ [] :=
  List.splitOn_ne_nil _ _

/-- No line has a newline in it. -/
theorem no_newline {text : Rope} :
    ∀ line ∈ splitLines text, '\n' ∉ line := by
  induction text with
  | nil => simp [splitLines]
  | cons c text ih =>
      rw [splitLines_cons]
      by_cases hc : c = '\n'
      · simpa [hc] using ih
      · rw [if_neg hc]
        obtain ⟨line, lines, hlines⟩ :=
          List.exists_cons_of_ne_nil (splitLines_ne_nil text)
        rw [hlines] at ih ⊢
        obtain ⟨hline, hrest⟩ := List.forall_mem_cons.mp ih
        exact List.forall_mem_cons.mpr
          ⟨by simp [hline, Ne.symm hc], hrest⟩

theorem join_split (text : Rope) : joinLines (splitLines text) = text :=
  List.intercalate_splitOn '\n'

theorem split_join {lines : List Line} (hne : lines ≠ [])
    (h : ∀ line ∈ lines, '\n' ∉ line) : splitLines (joinLines lines) = lines :=
  List.splitOn_intercalate '\n' h hne

/-- What comes out of a merge of two texts, as lines. -/
def mergedLines (base ours theirs : Rope) : List Line × Nat :=
  let o := splitLines base
  let a := splitLines ours
  let b := splitLines theirs
  merged o a b (syncPoints o a b) 0 0 0

theorem threeWayMerge_eq (base ours theirs : Rope) :
    threeWayMerge base ours theirs =
      .ok ⟨joinLines (mergedLines base ours theirs).1,
        (mergedLines base ours theirs).2⟩ := by
  simp only [threeWayMerge, sort_syncPoints, mergeFrom_eq syncPoints_aligned,
    mergedLines]
  rfl

/-- A merge without conflicts has a line. -/
theorem merged_ne_nil (ho : a ≠ []) (hb : b ≠ [])
    (hnone : (merged o a b syncs 0 0 0).2 = 0) (h : Aligned o a b syncs 0 0 0) :
    (merged o a b syncs 0 0 0).1 ≠ [] := by
  cases syncs with
  | nil =>
      rw [merged] at hnone ⊢
      rcases resolve_mem hnone with heq | heq
      · rw [heq]; exact ho
      · rw [heq]; exact hb
  | cons s syncs =>
      obtain ⟨bi, ai, ti⟩ := s
      obtain ⟨-, -, -, ⟨x, hx, -⟩, -⟩ := h
      simp [merged, hx]

/-- The lines of a merged text without conflicts. -/
theorem splitLines_merged {base ours theirs : Rope}
    (hnone : (mergedLines base ours theirs).2 = 0) :
    splitLines (joinLines (mergedLines base ours theirs).1) =
      (mergedLines base ours theirs).1 := by
  refine split_join (merged_ne_nil (splitLines_ne_nil _) (splitLines_ne_nil _)
    hnone syncPoints_aligned) fun line hline => ?_
  rcases merged_mem syncPoints_aligned hnone hline with h | h
  · exact no_newline line h
  · exact no_newline line h

/-- Base lines are kept where there is a sync point. -/
theorem keptLines_eq (base ours theirs : Rope) :
    keptLines base ours theirs =
      (syncPoints (splitLines base) (splitLines ours)
        (splitLines theirs)).filterMap fun s => (splitLines base)[s.1]? := by
  unfold keptLines syncPoints
  rw [List.filterMap_filterMap]
  refine congrArg (List.filterMap · _) (funext fun bi => ?_)
  cases (lcsPairs (splitLines base) (splitLines ours)).lookup bi <;>
    cases (lcsPairs (splitLines base) (splitLines theirs)).lookup bi <;> simp

theorem mergedLines_theirs_base (base x : Rope) :
    mergedLines base x base = (splitLines x, 0) := by
  refine merged_base syncPoints_aligned fun s hs => ?_
  obtain ⟨bi, ai, ti⟩ := s
  obtain ⟨hlt, -, hti⟩ := mem_syncPoints.mp hs
  rw [lcsPairs_self hlt] at hti
  exact (Option.some.inj hti).symm

theorem mergedLines_same (base x : Rope) :
    mergedLines base x x = (splitLines x, 0) := by
  refine merged_same syncPoints_aligned fun s hs => ?_
  obtain ⟨bi, ai, ti⟩ := s
  obtain ⟨-, hai, hti⟩ := mem_syncPoints.mp hs
  rw [hai] at hti
  exact (Option.some.inj hti).symm

theorem mergedLines_swap (base ours theirs : Rope) :
    (mergedLines base theirs ours).2 = (mergedLines base ours theirs).2 ∧
      ((mergedLines base ours theirs).2 = 0 →
        (mergedLines base theirs ours).1 =
          (mergedLines base ours theirs).1) := by
  unfold mergedLines
  simp only
  rw [syncPoints_swap]
  exact merged_swap

theorem mergedLines_ours_base (base x : Rope) :
    mergedLines base base x = (splitLines x, 0) := by
  have htheirs := mergedLines_theirs_base base x
  obtain ⟨hcount, hlines⟩ := mergedLines_swap base x base
  rw [htheirs] at hcount hlines
  exact Prod.ext (hlines rfl) hcount

/-- A merge in which one side is the base, or both are the same, is the other
side. Sides can be swapped. A merge without conflicts has the lines both sides
keep, and lines of the sides only. -/
theorem merge_law (base ours theirs : Rope) :
    threeWayMerge base ours base = .ok ⟨ours, 0⟩ ∧
    threeWayMerge base base theirs = .ok ⟨theirs, 0⟩ ∧
    threeWayMerge base ours ours = .ok ⟨ours, 0⟩ ∧
    ∃ merge swapped : MergeResult,
      threeWayMerge base ours theirs = .ok merge ∧
      threeWayMerge base theirs ours = .ok swapped ∧
      swapped.conflicts = merge.conflicts ∧
      (merge.conflicts = 0 →
        swapped.text = merge.text ∧
        (keptLines base ours theirs).Sublist (splitLines merge.text) ∧
        ∀ line ∈ splitLines merge.text,
          line ∈ splitLines ours ∨ line ∈ splitLines theirs) := by
  obtain ⟨hcount, hlines⟩ := mergedLines_swap base ours theirs
  refine ⟨?_, ?_, ?_, _, _, threeWayMerge_eq _ _ _, threeWayMerge_eq _ _ _,
    hcount, fun hnone => ⟨congrArg joinLines (hlines hnone), ?_, ?_⟩⟩
  · rw [threeWayMerge_eq, mergedLines_theirs_base, join_split]
  · rw [threeWayMerge_eq, mergedLines_ours_base, join_split]
  · rw [threeWayMerge_eq, mergedLines_same, join_split]
  · rw [splitLines_merged hnone, keptLines_eq]
    exact merged_kept
  · rw [splitLines_merged hnone]
    exact fun line hline => merged_mem syncPoints_aligned hnone hline

end Zmax.Merge
