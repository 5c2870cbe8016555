/-
The three-way merge of the resolver.

A merge comes apart into what lies between stable lines and these
(`Parts`), which is determined (`Parts.unique`), and the code adds the parts
up (`sweep_spec`). What holds of merges then holds of parts: swapped sides
give swapped parts, a conflict is a part whose sides are three, and where
one side is the base, or both are the same, each part is one text's, but
for the stable lines, which are the base's.
-/
import Zmax.Term.Proofs.MergeKeys

namespace Zmax.DiffView

open Hunks

-- == parts

/-- A part of a merge: what lies between stable lines, or one of these. -/
inductive Part where
  | region (ours base theirs : List Line)
  | stable (base ours theirs : Line)

def Merging.add (m : Merging) : Part → Merging
  | .region ours base theirs => resolveRegion m ours base theirs
  | .stable line _ _ => { m with ctx := m.ctx ++ [line] }

/-- What lies from an item up to another. -/
def part {α : Type} (xs : List α) (i j : Nat) : List α :=
  (xs.drop i).take (j - i)

/-- Some lines have one of another text, in order. -/
structure Matches (nBase nOther : Nat) (map : List (Option Nat)) : Prop where
  length : map.length = nBase
  lt : ∀ {b o : Nat}, map[b]? = some (some o) → o < nOther
  mono : ∀ {b b' o o' : Nat}, map[b]? = some (some o) →
    map[b']? = some (some o') → b < b' → o < o'

theorem resolveRegion_empty (m : Merging) : resolveRegion m [] [] [] = m := by
  unfold resolveRegion
  rw [if_pos rfl, List.append_nil]

theorem part_self {α : Type} (xs : List α) (i : Nat) : part xs i i = [] := by
  unfold part
  rw [Nat.sub_self, List.take_zero]

theorem part_length {α : Type} (xs : List α) (i : Nat) :
    part xs i xs.length = xs.drop i := by
  unfold part
  rw [← List.length_drop, List.take_length]

namespace Sides

variable (s : Sides)

/-- No base line from one up to another is stable. -/
def Unstable (i j : Nat) : Prop :=
  ∀ c : Cursor, i ≤ c.b → c.b < j → ¬ s.StableAt c

/-- What lies between two cursors. -/
def between (c c' : Cursor) : Part :=
  .region (part s.ours c.o c'.o) (part s.base c.b c'.b)
    (part s.theirs c.t c'.t)

/-- The parts of a merge from a cursor on. -/
inductive Parts : Cursor → List Part → Prop where
  | last {c : Cursor} (hnone : s.Unstable c.b s.base.length) :
      Parts c [.region (s.ours.drop c.o) (s.base.drop c.b)
        (s.theirs.drop c.t)]
  | cons {c c' : Cursor} {l lo lt : Line} {parts : List Part}
      (hb : c.b ≤ c'.b) (ho : c.o ≤ c'.o) (ht : c.t ≤ c'.t)
      (hnone : s.Unstable c.b c'.b) (hstable : s.StableAt c')
      (hl : s.base[c'.b]? = some l) (hlo : s.ours[c'.o]? = some lo)
      (hlt : s.theirs[c'.t]? = some lt) (hparts : Parts c'.next parts) :
      Parts c (s.between c c' :: .stable l lo lt :: parts)

structure Sound : Prop where
  ours : Matches s.base.length s.ours.length s.oursMatch
  theirs : Matches s.base.length s.theirs.length s.theirsMatch

/-- A cursor that no stable line ahead is in front of. -/
structure Fits (c : Cursor) : Prop where
  b : c.b ≤ s.base.length
  o : c.o ≤ s.ours.length
  t : c.t ≤ s.theirs.length
  ahead : ∀ c', s.StableAt c' → c.b ≤ c'.b → c.o ≤ c'.o ∧ c.t ≤ c'.t

variable {s}

variable {c : Cursor} {m : Merging}

theorem StableAt.unique {c' : Cursor} (h : s.StableAt c) (h' : s.StableAt c')
    (hb : c.b = c'.b) : c = c' := by
  obtain ⟨-, ho, ht⟩ := h
  obtain ⟨-, ho', ht'⟩ := h'
  obtain ⟨b, o, t⟩ := c
  obtain ⟨b', o', t'⟩ := c'
  cases hb
  cases Option.some.inj (Option.some.inj (ho.symm.trans ho'))
  cases Option.some.inj (Option.some.inj (ht.symm.trans ht'))
  rfl

/-- The parts are determined. -/
theorem Parts.unique {parts parts' : List Part} (h : s.Parts c parts)
    (h' : s.Parts c parts') : parts = parts' := by
  induction h generalizing parts' with
  | @last c hnone =>
      cases h' with
      | last => rfl
      | cons hb _ _ _ hstable => exact absurd hstable (hnone _ hb hstable.1)
  | @cons c c₁ l lo lt parts hb ho ht hnone hstable hl hlo hlt hparts ih =>
      cases h' with
      | last hnone' => exact absurd hstable (hnone' _ hb hstable.1)
      | @cons _ c₂ l' lo' lt' parts' hb' ho' ht' hnone' hstable' hl' hlo'
          hlt' hparts' =>
          have heq : c₁ = c₂ := by
            refine hstable.unique hstable' ?_
            rcases Nat.lt_trichotomy c₁.b c₂.b with h | h | h
            · exact absurd hstable (hnone' _ hb h)
            · exact h
            · exact absurd hstable' (hnone _ hb' h)
          subst heq
          cases hl.symm.trans hl'
          cases hlo.symm.trans hlo'
          cases hlt.symm.trans hlt'
          rw [ih hparts']

theorem fits_zero : s.Fits ⟨0, 0, 0⟩ :=
  ⟨Nat.zero_le _, Nat.zero_le _, Nat.zero_le _,
    fun _ _ _ => ⟨Nat.zero_le _, Nat.zero_le _⟩⟩

namespace Sound

variable (hs : s.Sound)

include hs

variable {c : Cursor}

theorem fits_next (h : s.StableAt c) : s.Fits c.next where
  b := h.1
  o := hs.ours.lt h.2.1
  t := hs.theirs.lt h.2.2
  ahead _ h' hb := ⟨hs.ours.mono h.2.1 h'.2.1 hb,
    hs.theirs.mono h.2.2 h'.2.2 hb⟩

theorem lines (h : s.StableAt c) :
    ∃ l lo lt, s.base[c.b]? = some l ∧ s.ours[c.o]? = some lo
      ∧ s.theirs[c.t]? = some lt :=
  ⟨_, _, _, List.getElem?_eq_getElem h.1,
    List.getElem?_eq_getElem (hs.ours.lt h.2.1),
    List.getElem?_eq_getElem (hs.theirs.lt h.2.2)⟩

/-- A run of stable lines is as many parts, with nothing in between. -/
theorem stableRun_spec (segments : List Segment) (ctx : List Line)
    {line : Line} (h : s.StableAt c) (hline : s.base[c.b]? = some line) :
    ∃ r, s.stableRun ctx c = .ok r
      ∧ (∃ c', s.StableAt c' ∧ r.2 = c'.next ∧ c.b ≤ c'.b)
      ∧ ∀ tail, s.Parts r.2 tail → ∃ parts, s.Parts c.next parts
        ∧ parts.foldl Merging.add ⟨segments, ctx ++ [line]⟩
          = tail.foldl Merging.add ⟨segments, r.1⟩ := by
  induction ctx, c using stableRun.induct s generalizing line with
  | case1 ctx c ih =>
      rw [stableRun, index_eq_ok.mpr hline, ok_bind]
      by_cases hnext : s.StableAt c.next
      · obtain ⟨l, lo, lt, hl, hlo, hlt⟩ := hs.lines hnext
        obtain ⟨r, hrun, ⟨c', hc', hr, hb⟩, hparts⟩ :=
          ih line hnext hnext hl
        refine ⟨r, ?_, ⟨c', hc', hr, (Nat.le_succ _).trans hb⟩, ?_⟩
        · rw [if_pos hnext]
          exact hrun
        · intro tail htail
          obtain ⟨parts, hcons, hfold⟩ := hparts tail htail
          refine ⟨_, .cons (Nat.le_refl _) (Nat.le_refl _) (Nat.le_refl _)
            ?_ hnext hl hlo hlt hcons, ?_⟩
          · exact fun _ hle hlt => absurd hlt (Nat.not_lt.mpr hle)
          · rw [List.foldl_cons, List.foldl_cons, between, part_self,
              part_self, part_self, Merging.add, resolveRegion_empty]
            exact hfold
      · refine ⟨_, if_neg hnext, ⟨c, h, rfl, Nat.le_refl _⟩, ?_⟩
        exact fun tail htail => ⟨tail, htail, rfl⟩

end Sound

theorem sweep_unstable {bi : Nat} (hlt : bi < s.base.length)
    (h : ∀ o t, ¬ s.StableAt ⟨bi, o, t⟩) :
    s.sweep m c bi = s.sweep m c (bi + 1) := by
  conv_lhs => rw [sweep, if_pos hlt]
  split
  · rename_i oi ti hoi hti
    exact absurd ⟨hlt, hoi, hti⟩ (h oi ti)
  · rfl

theorem sweep_stable {c' : Cursor} (hfits : s.Fits c) (h : s.StableAt c')
    (hb : c.b ≤ c'.b) (ho : c'.o ≤ s.ours.length)
    (ht : c'.t ≤ s.theirs.length) {r : List Line × Cursor}
    (hrun : s.stableRun (m.add (s.between c c')).ctx c' = .ok r) :
    s.sweep m c c'.b
      = s.sweep { m.add (s.between c c') with ctx := r.1 } r.2 r.2.b := by
  obtain ⟨hco, hct⟩ := hfits.ahead c' h hb
  rw [sweep, if_pos h.1]
  split
  · rename_i oi ti hoi hti
    cases Option.some.inj (Option.some.inj (hoi.symm.trans h.2.1))
    cases Option.some.inj (Option.some.inj (hti.symm.trans h.2.2))
    rw [slice_of_le hco ho, ok_bind, slice_of_le hb h.1.le, ok_bind,
      slice_of_le hct ht, ok_bind]
    dsimp only
    split
    · rename_i e he
      cases he.symm.trans hrun
    · rename_i r' hr'
      cases hr'.symm.trans hrun
      rfl
  · rename_i hother
    exact absurd h.2.2 (hother _ _ h.2.1)

theorem trailing_eq (h : s.Fits c) :
    s.trailing m c = .ok (m.add (.region (s.ours.drop c.o)
      (s.base.drop c.b) (s.theirs.drop c.t))) := by
  unfold trailing
  rw [slice_of_le h.o (Nat.le_refl _), ok_bind,
    slice_of_le h.b (Nat.le_refl _), ok_bind,
    slice_of_le h.t (Nat.le_refl _), ok_bind]
  rw [← part, ← part, ← part, part_length, part_length, part_length]
  rfl

/-- The sweep adds up the parts. -/
theorem sweep_spec (hs : s.Sound) {bi : Nat} (hfits : s.Fits c)
    (hb : c.b ≤ bi) (hlen : bi ≤ s.base.length) (hnone : s.Unstable c.b bi) :
    ∃ parts r, s.Parts c parts ∧ s.sweep m c bi = .ok r
      ∧ s.trailing r.1 r.2 = .ok (parts.foldl Merging.add m) := by
  induction hn : s.base.length - bi using Nat.strong_induction_on
    generalizing m c bi with
  | _ n ih =>
      by_cases hlt : bi < s.base.length
      · by_cases hstable : ∃ o t, s.StableAt ⟨bi, o, t⟩
        · obtain ⟨o, t, hstable⟩ := hstable
          obtain ⟨ho, ht⟩ := hfits.ahead _ hstable hb
          obtain ⟨l, lo, lt, hl, hlo, hlt'⟩ := hs.lines hstable
          have hnext := hs.fits_next hstable
          obtain ⟨r, hrun, ⟨c', hc', hr, hbi⟩, hparts⟩ :=
            hs.stableRun_spec (m.add (s.between c ⟨bi, o, t⟩)).segments
              (m.add (s.between c ⟨bi, o, t⟩)).ctx hstable hl
          have hstep := sweep_stable hfits hstable hb
            ((Nat.le_succ _).trans hnext.o) ((Nat.le_succ _).trans hnext.t)
            hrun
          have hafter : s.Fits r.2 := hr ▸ hs.fits_next hc'
          have hbi' : bi < r.2.b := by
            rw [hr]
            exact Nat.lt_succ_of_le hbi
          obtain ⟨tail, r', htail, hsweep, htrailing⟩ :=
            ih (s.base.length - r.2.b) (by omega) hafter (Nat.le_refl _)
              hafter.b (fun _ hle hlt => absurd hlt (Nat.not_lt.mpr hle)) rfl
          obtain ⟨parts, hcons, hfold⟩ := hparts tail htail
          refine ⟨_, r', .cons hb ho ht hnone hstable hl hlo hlt' hcons,
            hstep.trans hsweep, ?_⟩
          rw [htrailing, List.foldl_cons, List.foldl_cons]
          exact congrArg _ hfold.symm
        · have hunstable : ∀ o t, ¬ s.StableAt ⟨bi, o, t⟩ :=
            fun o t h => hstable ⟨o, t, h⟩
          rw [sweep_unstable hlt hunstable]
          refine ih _ (by omega) hfits (Nat.le_succ_of_le hb) hlt ?_ rfl
          intro c' hle hlt'
          rcases Nat.lt_succ_iff_lt_or_eq.mp hlt' with hlt' | heq
          · exact hnone c' hle hlt'
          · rw [← heq] at hunstable
            exact hunstable c'.o c'.t
      · have heq : bi = s.base.length := by omega
        refine ⟨_, (m, c), .last (heq ▸ hnone), ?_, trailing_eq hfits⟩
        rw [sweep, if_neg hlt]

end Sides

-- == matches

variable {rows : List DiffRow} {m : Merging}

/-- The map has the pairs of unchanged rows. -/
theorem recordRows_spec {map : List (Option Nat)}
    (h : ∀ row ∈ rows, ∀ b ∈ row.left, b < map.length) :
    ∃ map', rows.foldlM recordRow map = .ok map'
      ∧ map'.length = map.length
      ∧ ∀ b o : Nat, map'[b]? = some (some o) →
        (∃ row ∈ rows, row.isChange = false ∧ row.left = some b
          ∧ row.right = some o) ∨ map[b]? = some (some o) := by
  induction rows generalizing map with
  | nil => exact ⟨map, rfl, rfl, fun _ _ h => .inr h⟩
  | cons row rows ih =>
      obtain ⟨hrow, hrows⟩ := List.forall_mem_cons.mp h
      have hstep : ∃ map', recordRow map row = .ok map'
          ∧ map'.length = map.length
          ∧ ∀ b o : Nat, map'[b]? = some (some o) →
            (row.isChange = false ∧ row.left = some b ∧ row.right = some o)
              ∨ map[b]? = some (some o) := by
        unfold recordRow
        by_cases hkind : row.kind = .unchanged
        · rw [if_pos hkind]
          split
          · rename_i b o hb ho
            rw [if_pos (hrow b hb)]
            refine ⟨_, rfl, List.length_set, fun b' o' hget => ?_⟩
            by_cases heq : b = b'
            · subst heq
              rw [List.getElem?_set_self (hrow b hb)] at hget
              cases hget
              exact .inl ⟨by simp [DiffRow.isChange, hkind], hb, ho⟩
            · rw [List.getElem?_set_ne heq] at hget
              exact .inr hget
          · exact ⟨map, rfl, rfl, fun _ _ h => .inr h⟩
        · rw [if_neg hkind]
          exact ⟨map, rfl, rfl, fun _ _ h => .inr h⟩
      obtain ⟨map₁, hmap₁, hlen₁, hget₁⟩ := hstep
      obtain ⟨map₂, hmap₂, hlen₂, hget₂⟩ := ih fun row hrow b hb => by
        rw [hlen₁]
        exact hrows row hrow b hb
      refine ⟨map₂, ?_, hlen₂.trans hlen₁, fun b o hget => ?_⟩
      · rw [List.foldlM_cons, hmap₁, ok_bind, hmap₂]
      · rcases hget₂ b o hget with ⟨r, hr, hsame⟩ | hget
        · exact .inl ⟨r, List.mem_cons_of_mem _ hr, hsame⟩
        · rcases hget₁ b o hget with hsame | hget
          · exact .inl ⟨row, List.mem_cons_self, hsame⟩
          · exact .inr hget

/-- Rows that count both sides up are in the order of either. -/
theorem Counts.lt {b d : Nat} (h : Counts 0 b 0 d rows) {row row' : DiffRow}
    (hrow : row ∈ rows) (hrow' : row' ∈ rows) {i i' j j' : Nat}
    (hi : row.left = some i) (hi' : row'.left = some i')
    (hj : row.right = some j) (hj' : row'.right = some j') (hlt : i < i') :
    j < j' := by
  have hleft : (rows.filterMap DiffRow.left).Pairwise (· < ·) := by
    rw [h.left]
    exact List.pairwise_lt_range'
  have hright : (rows.filterMap DiffRow.right).Pairwise (· < ·) := by
    rw [h.right]
    exact List.pairwise_lt_range'
  rw [List.pairwise_filterMap, List.pairwise_iff_getElem] at hleft hright
  obtain ⟨p, hp, rfl⟩ := List.mem_iff_getElem.mp hrow
  obtain ⟨q, hq, rfl⟩ := List.mem_iff_getElem.mp hrow'
  rcases Nat.lt_trichotomy p q with hpq | heq | hpq
  · exact hright p q hp hq hpq j hj j' hj'
  · subst heq
    cases hi.symm.trans hi'
    exact absurd hlt (Nat.lt_irrefl _)
  · exact absurd (hleft q p hq hp hpq i' hi' i hi) (Nat.lt_asymm hlt)

theorem Counts.matches {b d nBase nOther : Nat} (h : Counts 0 b 0 d rows)
    (hb : b ≤ nBase) (hd : d ≤ nOther) :
    ∃ map, rows.foldlM recordRow (List.replicate nBase none) = .ok map
      ∧ Matches nBase nOther map
      ∧ ∀ i j : Nat, map[i]? = some (some j) → ∃ row ∈ rows,
        row.isChange = false ∧ row.left = some i ∧ row.right = some j := by
  have hleft : ∀ row ∈ rows, ∀ i ∈ row.left,
      i < (List.replicate nBase (none : Option Nat)).length := by
    intro row hrow i hi
    have hmem : i ∈ rows.filterMap DiffRow.left :=
      List.mem_filterMap.mpr ⟨row, hrow, hi⟩
    rw [h.left, List.mem_range'_1] at hmem
    rw [List.length_replicate]
    omega
  obtain ⟨map, hmap, hlen, hget⟩ := recordRows_spec hleft
  have hpairs : ∀ i j : Nat, map[i]? = some (some j) → ∃ row ∈ rows,
      row.isChange = false ∧ row.left = some i ∧ row.right = some j := by
    intro i j hij
    rcases hget i j hij with hrow | hnone
    · exact hrow
    · rw [List.getElem?_replicate] at hnone
      split at hnone <;> cases hnone
  refine ⟨map, hmap, ⟨?_, ?_, ?_⟩, hpairs⟩
  · rw [hlen, List.length_replicate]
  · intro i j hij
    obtain ⟨row, hrow, -, -, hj⟩ := hpairs i j hij
    have hmem : j ∈ rows.filterMap DiffRow.right :=
      List.mem_filterMap.mpr ⟨row, hrow, hj⟩
    rw [h.right, List.mem_range'_1] at hmem
    omega
  · intro i i' j j' hij hij' hlt
    obtain ⟨row, hrow, -, hi, hj⟩ := hpairs i j hij
    obtain ⟨row', hrow', -, hi', hj'⟩ := hpairs i' j' hij'
    exact h.lt hrow hrow' hi hi' hj hj' hlt

-- == the maps

/-- The comparison is that of 'diffopt' ('diffexpr' is not set), and the
differ and lower case are what they are documented to be. -/
structure Settings.Comparing (s : Settings) : Prop where
  diffexpr : ∀ base doc, s.diffexpr base doc = none
  sound : s.imara.Sound
  /-- Equal texts have no hunks. -/
  refl : ∀ xs, s.imara xs xs = []
  lower : ∀ l, '\n' ∉ l → '\n' ∉ s.toLowercase l

namespace Settings

variable {s : Settings}

theorem Comparing.hunks_eq (h : s.Comparing) (base doc : Rope) :
    s.hunks base doc = s.imara (sourceLines (s.diffoptNormalize base))
      (sourceLines (s.diffoptNormalize doc)) := by
  unfold Settings.hunks
  rw [h.diffexpr]

theorem Comparing.baseMatchMap_spec (h : s.Comparing) (base other : Rope) :
    ∃ map, s.baseMatchMap base other = .ok map
      ∧ Matches (splitLines base).length (splitLines other).length map := by
  have hbetween := h.sound (sourceLines (s.diffoptNormalize base))
    (sourceLines (s.diffoptNormalize other))
  obtain ⟨b, d, hcounts, hb, hd, -⟩ := alignFrom_counts
    (length_keys_le h.lower base) (length_keys_le h.lower other)
    (Nat.zero_le _) (Nat.zero_le _) hbetween
  obtain ⟨map, hmap, hmatches, -⟩ := hcounts.matches hb hd
  refine ⟨map, ?_, hmatches⟩
  unfold Settings.baseMatchMap Settings.align
  rw [h.hunks_eq, hmap]

theorem recordRows_pairs (done : List (Option Nat)) (n : Nat) :
    ((List.range' done.length n).map
        fun j => (⟨some j, some j, .unchanged⟩ : DiffRow)).foldlM recordRow
        (done ++ List.replicate n none)
      = .ok (done ++ (List.range' done.length n).map some) := by
  induction n generalizing done with
  | zero => rfl
  | succ n ih =>
      have hrow : recordRow (done ++ (none :: List.replicate n none))
          ⟨some done.length, some done.length, .unchanged⟩
          = .ok ((done ++ [some done.length]) ++ List.replicate n none) := by
        unfold recordRow
        rw [if_pos rfl]
        dsimp only
        rw [if_pos (by simp), List.append_assoc, List.singleton_append]
        simp
      have ih := ih (done ++ [some done.length])
      rw [List.length_append, List.length_singleton] at ih
      rw [List.range'_succ, List.replicate_succ, List.map_cons,
        List.foldlM_cons, hrow, ok_bind, ih, List.append_assoc]
      rfl

/-- Against itself each line has itself. -/
theorem Comparing.baseMatchMap_self (h : s.Comparing) (base : Rope) :
    s.baseMatchMap base base
      = .ok ((List.range (splitLines base).length).map some) := by
  have hrows : s.align base base
      = (List.range' 0 (splitLines base).length).map
        fun j => (⟨some j, some j, .unchanged⟩ : DiffRow) := by
    unfold Settings.align
    rw [h.hunks_eq, h.refl, Settings.alignFrom, Nat.min_self, Nat.sub_zero,
      ← List.range_eq_range']
    unfold Settings.pairs
    simp only [Nat.zero_add]
  unfold Settings.baseMatchMap
  rw [hrows, List.range_eq_range']
  exact recordRows_pairs [] _

/-- The base lines that are unchanged for the comparison are the lines that
they are unchanged in. -/
def Agrees (s : Settings) (base x : Rope) : Prop :=
  ∀ map, s.baseMatchMap base x = .ok map →
    ∀ b o : Nat, map[b]? = some (some o) →
      (splitLines base)[b]? = (splitLines x)[o]?

end Settings

/-- What the merge of three texts sweeps over. -/
def sidesOf (base ours theirs : Rope)
    (oursMatch theirsMatch : List (Option Nat)) : Sides :=
  ⟨splitLines base, splitLines ours, splitLines theirs, oursMatch,
    theirsMatch⟩

theorem diff3_eq {s : Settings} {base ours theirs : Rope}
    {om tm : List (Option Nat)} (hom : s.baseMatchMap base ours = .ok om)
    (htm : s.baseMatchMap base theirs = .ok tm)
    (hs : (sidesOf base ours theirs om tm).Sound) :
    ∃ parts, (sidesOf base ours theirs om tm).Parts ⟨0, 0, 0⟩ parts
      ∧ s.diff3 base ours theirs
        = .ok (parts.foldl Merging.add ⟨[], []⟩).flush := by
  obtain ⟨parts, r, hparts, hsweep, htrailing⟩ :=
    Sides.sweep_spec hs Sides.fits_zero (m := ⟨[], []⟩) (Nat.le_refl _)
      (Nat.zero_le _)
      (fun _ hle hlt => absurd hlt (Nat.not_lt.mpr hle))
  refine ⟨parts, hparts, ?_⟩
  unfold Settings.diff3
  rw [hom, htm]
  show ((sidesOf base ours theirs om tm).sweep ⟨[], []⟩ ⟨0, 0, 0⟩ 0 >>= _) = _
  rw [hsweep, ok_bind]
  show ((sidesOf base ours theirs om tm).trailing r.1 r.2 >>= _) = _
  rw [htrailing, ok_bind]
  rfl

-- == swapped sides

def Segment.swap : Segment → Segment
  | .context lines => .context lines
  | .conflict ours base theirs => .conflict theirs base ours

def Part.swap : Part → Part
  | .region ours base theirs => .region theirs base ours
  | .stable base ours theirs => .stable base theirs ours

def Merging.swap (m : Merging) : Merging :=
  { m with segments := m.segments.map Segment.swap }

def Cursor.swap (c : Cursor) : Cursor := ⟨c.b, c.t, c.o⟩

def Sides.swap (s : Sides) : Sides :=
  ⟨s.base, s.theirs, s.ours, s.theirsMatch, s.oursMatch⟩

theorem Merging.flush_swap (m : Merging) :
    m.swap.flush = m.flush.map Segment.swap := by
  unfold Merging.flush Merging.swap
  dsimp only
  rw [List.map_append]
  cases m.ctx <;> rfl

theorem Merging.add_swap (m : Merging) (p : Part) :
    m.swap.add p.swap = (m.add p).swap := by
  cases p with
  | stable => rfl
  | region ours base theirs =>
      show resolveRegion m.swap theirs base ours
        = (resolveRegion m ours base theirs).swap
      unfold resolveRegion
      by_cases ho : ours = base
      · subst ho
        by_cases ht : theirs = ours
        · subst ht
          rw [if_pos rfl, if_pos rfl]
          rfl
        · rw [if_neg ht, if_pos (.inl rfl), if_pos rfl]
          rfl
      · by_cases ht : theirs = base
        · rw [if_pos ht, if_neg ho, if_pos (.inl ht)]
          rfl
        · by_cases hot : ours = theirs
          · subst hot
            rw [if_neg ho, if_pos (.inr rfl), if_neg ho, if_pos (.inr rfl)]
            rfl
          · rw [if_neg ht, if_neg (not_or.mpr ⟨ho, Ne.symm hot⟩), if_neg ho,
              if_neg (not_or.mpr ⟨ht, hot⟩), Merging.flush_swap]
            unfold Merging.swap
            dsimp only
            rw [List.map_append]
            rfl

theorem foldl_swap (m : Merging) (parts : List Part) :
    (parts.map Part.swap).foldl Merging.add m.swap
      = (parts.foldl Merging.add m).swap := by
  induction parts generalizing m with
  | nil => rfl
  | cons p parts ih =>
      rw [List.map_cons, List.foldl_cons, List.foldl_cons,
        Merging.add_swap, ih]

namespace Sides

variable {s : Sides}

theorem StableAt.swap {c : Cursor} (h : s.StableAt c) :
    s.swap.StableAt c.swap := ⟨h.1, h.2.2, h.2.1⟩

theorem Unstable.swap {i j : Nat} (h : s.Unstable i j) :
    s.swap.Unstable i j :=
  fun c hle hlt hc => h c.swap hle hlt ⟨hc.1, hc.2.2, hc.2.1⟩

theorem Parts.swap {c : Cursor} {parts : List Part} (h : s.Parts c parts) :
    s.swap.Parts c.swap (parts.map Part.swap) := by
  induction h with
  | last hnone => exact .last hnone.swap
  | @cons c c' l lo lt parts hb ho ht hnone hstable hl hlo hlt hparts ih =>
      have hbase : c.swap.b ≤ c'.swap.b := hb
      exact .cons hbase ht ho hnone.swap hstable.swap hl hlt hlo ih

end Sides

-- == conflicts

/-- Each conflict has three sides. -/
def Distinct (segments : List Segment) : Prop :=
  ∀ ours base theirs : List Line, .conflict ours base theirs ∈ segments →
    ours ≠ base ∧ theirs ≠ base ∧ ours ≠ theirs

theorem Distinct.flush (h : Distinct m.segments) : Distinct m.flush := by
  intro ours base theirs hmem
  unfold Merging.flush at hmem
  rcases List.mem_append.mp hmem with hmem | hmem
  · exact h _ _ _ hmem
  · cases hctx : m.ctx with
    | nil =>
        rw [hctx] at hmem
        cases hmem
    | cons l ls =>
        rw [hctx] at hmem
        cases List.mem_singleton.mp hmem

theorem Distinct.add (h : Distinct m.segments) (p : Part) :
    Distinct (m.add p).segments := by
  cases p with
  | stable => exact h
  | region ours base theirs =>
      show Distinct (resolveRegion m ours base theirs).segments
      unfold resolveRegion
      by_cases ho : ours = base
      · rw [if_pos ho]
        exact h
      · rw [if_neg ho]
        by_cases hsame : theirs = base ∨ ours = theirs
        · rw [if_pos hsame]
          exact h
        · rw [if_neg hsame]
          intro ours' base' theirs' hmem
          rcases List.mem_append.mp hmem with hmem | hmem
          · exact h.flush _ _ _ hmem
          · obtain ⟨ht, hot⟩ := not_or.mp hsame
            cases List.mem_singleton.mp hmem
            exact ⟨ho, ht, hot⟩

theorem Distinct.foldl (h : Distinct m.segments) (parts : List Part) :
    Distinct (parts.foldl Merging.add m).segments := by
  induction parts generalizing m with
  | nil => exact h
  | cons p parts ih => exact ih (h.add p)

-- == contexts

def contextLines (segments : List Segment) : List Line :=
  segments.flatMap fun
    | .context lines => lines
    | .conflict .. => []

/-- What a part gives that is no conflict. -/
def Part.taken : Part → List Line
  | .region ours base theirs => if ours = base then theirs else ours
  | .stable line _ _ => [line]

def Part.ours : Part → List Line
  | .region ours _ _ => ours
  | .stable _ line _ => [line]

/-- One of the sides is the base or the sides are the same. -/
def Part.Settled : Part → Prop
  | .region ours base theirs => theirs = base ∨ ours = theirs
  | .stable .. => True

theorem Part.Settled.taken_region {ours base theirs : List Line}
    (h : (Part.region ours base theirs).Settled) :
    (Part.region ours base theirs).taken = ours := by
  rw [Part.taken]
  by_cases ho : ours = base
  · rw [if_pos ho]
    rcases h with h | h
    · exact h.trans ho.symm
    · exact h.symm
  · rw [if_neg ho]

theorem add_settled {p : Part} (h : p.Settled) (m : Merging) :
    m.add p = { m with ctx := m.ctx ++ p.taken } := by
  cases p with
  | stable => rfl
  | region ours base theirs =>
      show resolveRegion m ours base theirs = _
      unfold resolveRegion
      rw [Part.taken]
      by_cases ho : ours = base
      · rw [if_pos ho, if_pos ho]
      · rw [if_neg ho, if_neg ho]
        exact if_pos h

theorem foldl_settled {parts : List Part} (h : ∀ p ∈ parts, p.Settled)
    (m : Merging) :
    parts.foldl Merging.add m
      = { m with ctx := m.ctx ++ parts.flatMap Part.taken } := by
  induction parts generalizing m with
  | nil =>
      rw [List.flatMap_nil, List.append_nil]
      rfl
  | cons p parts ih =>
      obtain ⟨hp, hparts⟩ := List.forall_mem_cons.mp h
      rw [List.foldl_cons, add_settled hp, ih hparts, List.flatMap_cons,
        List.append_assoc]

/-- Lists that are as long part by part are equal part by part. -/
theorem flatMap_eq_iff {f g : Part → List Line} {parts : List Part}
    (hlen : ∀ p ∈ parts, (f p).length = (g p).length) :
    parts.flatMap f = parts.flatMap g ↔ ∀ p ∈ parts, f p = g p := by
  induction parts with
  | nil => simp
  | cons p parts ih =>
      obtain ⟨hp, hparts⟩ := List.forall_mem_cons.mp hlen
      rw [List.flatMap_cons, List.flatMap_cons, List.forall_mem_cons,
        ← ih hparts]
      exact ⟨fun h => List.append_inj h hp, fun h => by rw [h.1, h.2]⟩

namespace Sides

variable {s : Sides}

variable {c : Cursor} {parts : List Part}

/-- The parts have all of one side. -/
theorem Parts.ours (h : s.Parts c parts) :
    parts.flatMap Part.ours = s.ours.drop c.o := by
  induction h with
  | last hnone => exact List.append_nil _
  | @cons c c' l lo lt parts hb ho ht hnone hstable hl hlo hlt hparts ih =>
      have hdrop : s.ours.drop c'.o = lo :: s.ours.drop (c'.o + 1) :=
        List.drop_eq_getElem?_toList_append.trans (by rw [hlo]; rfl)
      rw [List.flatMap_cons, List.flatMap_cons, ih]
      show part s.ours c.o c'.o ++ ([lo] ++ s.ours.drop (c'.o + 1)) = _
      rw [List.singleton_append, ← hdrop, part]
      have happend := List.take_append_drop (c'.o - c.o) (s.ours.drop c.o)
      rwa [List.drop_drop, Nat.add_sub_cancel' ho] at happend

/-- Each stable line is one of the parts. -/
theorem Parts.mem {c' : Cursor} (h : s.Parts c parts)
    (hstable : s.StableAt c') (hb : c.b ≤ c'.b) :
    ∃ l lo lt, .stable l lo lt ∈ parts ∧ s.base[c'.b]? = some l
      ∧ s.ours[c'.o]? = some lo := by
  induction h with
  | last hnone => exact absurd hstable (hnone _ hb hstable.1)
  | @cons c c₁ l lo lt parts hb₁ ho ht hnone hstable₁ hl hlo hlt hparts ih =>
      rcases Nat.lt_trichotomy c'.b c₁.b with hlt' | heq | hgt
      · exact absurd hstable (hnone _ hb hlt')
      · rw [hstable.unique hstable₁ heq]
        exact ⟨l, lo, lt, by simp, hl, hlo⟩
      · obtain ⟨l', lo', lt', hmem, hlines⟩ := ih hgt
        exact ⟨l', lo', lt', by simp [hmem], hlines⟩

theorem Parts.of_mem (h : s.Parts c parts) {l lo lt : Line}
    (hmem : .stable l lo lt ∈ parts) :
    ∃ c', s.StableAt c' ∧ s.base[c'.b]? = some l
      ∧ s.ours[c'.o]? = some lo := by
  induction h with
  | last hnone => cases List.mem_singleton.mp hmem
  | @cons c c₁ l' lo' lt' parts hb ho ht hnone hstable hl hlo hlt hparts ih =>
      rcases List.mem_cons.mp hmem with heq | hmem
      · cases heq
      · rcases List.mem_cons.mp hmem with heq | hmem
        · cases heq
          exact ⟨c₁, hstable, hl, hlo⟩
        · exact ih hmem

/-- What holds between any two cursors holds of each region. -/
theorem Parts.settled {Q : Cursor → Prop} (h : s.Parts c parts) (hc : Q c)
    (hstable : ∀ c', s.StableAt c' → Q c' ∧ Q c'.next)
    (hbetween : ∀ c c', Q c → Q c' → (s.between c c').Settled)
    (hlast : ∀ c, Q c → (Part.region (s.ours.drop c.o) (s.base.drop c.b)
      (s.theirs.drop c.t)).Settled) : ∀ p ∈ parts, p.Settled := by
  induction h with
  | last hnone => exact List.forall_mem_singleton.mpr (hlast _ hc)
  | cons hb ho ht hnone hst hl hlo hlt hparts ih =>
      obtain ⟨hc', hnext⟩ := hstable _ hst
      exact List.forall_mem_cons.mpr ⟨hbetween _ _ hc hc',
        List.forall_mem_cons.mpr ⟨trivial, ih hnext⟩⟩

/-- A merge in which each region is settled gives the lines of one side, if
stable lines are the lines of that side. -/
theorem Parts.taken_iff (h : s.Parts ⟨0, 0, 0⟩ parts)
    (hsettled : ∀ p ∈ parts, p.Settled) :
    parts.flatMap Part.taken = s.ours
      ↔ ∀ c, s.StableAt c → s.base[c.b]? = s.ours[c.o]? := by
  have hours : parts.flatMap Part.ours = s.ours := h.ours
  have hregion : ∀ o b t, .region o b t ∈ parts →
      (Part.region o b t).taken = o :=
    fun _ _ _ hmem => (hsettled _ hmem).taken_region
  have hlen : ∀ p ∈ parts, p.taken.length = p.ours.length := by
    intro p hp
    cases p with
    | region o b t => exact congrArg _ (hregion o b t hp)
    | stable => rfl
  conv_lhs => rw [← hours]
  rw [flatMap_eq_iff hlen]
  constructor
  · intro hsame c hc
    obtain ⟨l, lo, lt, hmem, hl, hlo⟩ := h.mem hc (Nat.zero_le _)
    have hline : [l] = [lo] := hsame _ hmem
    rw [hl, hlo, List.singleton_inj.mp hline]
  · intro hstable p hp
    cases p with
    | region o b t => exact hregion o b t hp
    | stable l lo lt =>
        obtain ⟨c, hc, hl, hlo⟩ := h.of_mem hp
        have hline := hstable c hc
        rw [hl, hlo] at hline
        exact congrArg (fun l => [l]) (Option.some.inj hline)

end Sides

-- == law

section

variable {s : Settings}

/-- The merge gives one text's lines, with no conflict. -/
def Merges (s : Settings) (base ours theirs x : Rope) : Prop :=
  ∃ segments, s.diff3 base ours theirs = .ok segments
    ∧ (∀ ours base theirs, .conflict ours base theirs ∉ segments)
    ∧ contextLines segments = splitLines x

theorem contextLines_flush (ctx : List Line) :
    (∀ ours base theirs,
        .conflict ours base theirs ∉ (Merging.mk [] ctx).flush)
      ∧ contextLines (Merging.mk [] ctx).flush = ctx := by
  cases ctx with
  | nil =>
      refine ⟨fun ours base theirs hmem => ?_, rfl⟩
      cases hmem
  | cons l ls =>
      refine ⟨fun ours base theirs hmem => ?_, List.append_nil _⟩
      cases List.mem_singleton.mp hmem

theorem merges_iff {base ours theirs : Rope} {om tm : List (Option Nat)}
    (hom : s.baseMatchMap base ours = .ok om)
    (htm : s.baseMatchMap base theirs = .ok tm)
    (hs : (sidesOf base ours theirs om tm).Sound) {Q : Cursor → Prop}
    (hzero : Q ⟨0, 0, 0⟩)
    (hstable : ∀ c, (sidesOf base ours theirs om tm).StableAt c →
      Q c ∧ Q c.next)
    (hbetween : ∀ c c', Q c → Q c' →
      ((sidesOf base ours theirs om tm).between c c').Settled)
    (hlast : ∀ c, Q c → (Part.region ((splitLines ours).drop c.o)
      ((splitLines base).drop c.b) ((splitLines theirs).drop c.t)).Settled) :
    Merges s base ours theirs ours
      ↔ ∀ c, (sidesOf base ours theirs om tm).StableAt c →
        (splitLines base)[c.b]? = (splitLines ours)[c.o]? := by
  obtain ⟨parts, hparts, hdiff⟩ := diff3_eq hom htm hs
  have hsettled := hparts.settled hzero hstable hbetween hlast
  rw [foldl_settled hsettled] at hdiff
  obtain ⟨hnone, hlines⟩ :=
    contextLines_flush ([] ++ parts.flatMap Part.taken)
  refine Iff.trans ?_ (hparts.taken_iff hsettled)
  constructor
  · rintro ⟨segments, hsegments, -, hcontext⟩
    cases hdiff.symm.trans hsegments
    exact hlines.symm.trans hcontext
  · exact fun h => ⟨_, hdiff, hnone, hlines.trans h⟩

/-- A merge with the base on one side gives the other. -/
theorem merges_left (h : s.Comparing) (base x : Rope) :
    Merges s base x base x ↔ s.Agrees base x := by
  obtain ⟨map, hmap, hmatches⟩ := h.baseMatchMap_spec base x
  obtain ⟨own, hself, hmatches'⟩ := h.baseMatchMap_spec base base
  have hown {b : Nat} (hb : b < (splitLines base).length) :
      own[b]? = some (some b) := by
    cases (h.baseMatchMap_self base).symm.trans hself
    rw [List.getElem?_map, List.getElem?_range hb]
    rfl
  have hsame {c : Cursor} (hc : (sidesOf base x base map own).StableAt c) :
      c.b = c.t := by
    have ht := (hown hc.1).symm.trans hc.2.2
    exact Option.some.inj (Option.some.inj ht)
  refine (merges_iff hmap hself ⟨hmatches, hmatches'⟩
    (Q := fun c => c.b = c.t) rfl ?_ ?_ ?_).trans ?_
  · exact fun c hc => ⟨hsame hc, congrArg (· + 1) (hsame hc)⟩
  · rintro ⟨b, o, t⟩ ⟨b', o', t'⟩ hc hc'
    cases hc
    cases hc'
    exact .inl rfl
  · rintro ⟨b, o, t⟩ hc
    cases hc
    exact .inl rfl
  · constructor
    · intro hstable map' hmap' b o hbo
      cases hmap.symm.trans hmap'
      have hb : b < (splitLines base).length := by
        rw [← hmatches.length]
        exact (List.getElem?_eq_some_iff.mp hbo).1
      exact hstable ⟨b, o, b⟩ ⟨hb, hbo, hown hb⟩
    · exact fun hagree c hc => hagree map hmap c.b c.o hc.2.1

/-- A merge of one text with itself gives it. -/
theorem merges_both (h : s.Comparing) (base x : Rope) :
    Merges s base x x x ↔ s.Agrees base x := by
  obtain ⟨map, hmap, hmatches⟩ := h.baseMatchMap_spec base x
  have hsame {c : Cursor} (hc : (sidesOf base x x map map).StableAt c) :
      c.o = c.t :=
    Option.some.inj (Option.some.inj (hc.2.1.symm.trans hc.2.2))
  refine (merges_iff hmap hmap ⟨hmatches, hmatches⟩
    (Q := fun c => c.o = c.t) rfl ?_ ?_ ?_).trans ?_
  · exact fun c hc => ⟨hsame hc, congrArg (· + 1) (hsame hc)⟩
  · rintro ⟨b, o, t⟩ ⟨b', o', t'⟩ hc hc'
    cases hc
    cases hc'
    exact .inr rfl
  · rintro ⟨b, o, t⟩ hc
    cases hc
    exact .inr rfl
  · constructor
    · intro hstable map' hmap' b o hbo
      cases hmap.symm.trans hmap'
      have hb : b < (splitLines base).length := by
        rw [← hmatches.length]
        exact (List.getElem?_eq_some_iff.mp hbo).1
      exact hstable ⟨b, o, o⟩ ⟨hb, hbo, hbo⟩
    · exact fun hagree c hc => hagree map hmap c.b c.o hc.2.1

/-- Swapped sides give swapped conflicts, each of which has three sides. -/
theorem diff3_swap (h : s.Comparing) (base ours theirs : Rope) :
    ∃ segments, s.diff3 base ours theirs = .ok segments
      ∧ s.diff3 base theirs ours = .ok (segments.map Segment.swap)
      ∧ Distinct segments := by
  obtain ⟨om, hom, hmo⟩ := h.baseMatchMap_spec base ours
  obtain ⟨tm, htm, hmt⟩ := h.baseMatchMap_spec base theirs
  obtain ⟨parts, hparts, hdiff⟩ := diff3_eq hom htm ⟨hmo, hmt⟩
  obtain ⟨parts', hparts', hdiff'⟩ := diff3_eq htm hom ⟨hmt, hmo⟩
  have hswap : parts' = parts.map Part.swap := hparts'.unique hparts.swap
  refine ⟨_, hdiff, ?_, ?_⟩
  · rw [hdiff', hswap, ← Merging.flush_swap]
    exact congrArg (fun m : Merging => Except.ok m.flush)
      (foldl_swap ⟨[], []⟩ parts)
  · have hnil : Distinct (Merging.mk [] []).segments :=
      fun _ _ _ hmem => by cases hmem
    exact (hnil.foldl parts).flush

theorem merges_swap (h : s.Comparing) {base ours theirs x : Rope}
    (hm : Merges s base ours theirs x) : Merges s base theirs ours x := by
  obtain ⟨segments, hdiff, hnone, hlines⟩ := hm
  obtain ⟨segments', hdiff', hswap, -⟩ := diff3_swap h base ours theirs
  cases hdiff.symm.trans hdiff'
  refine ⟨_, hswap, fun o b t hmem => ?_, ?_⟩
  · obtain ⟨seg, hseg, heq⟩ := List.mem_map.mp hmem
    cases seg with
    | context => cases heq
    | conflict o' b' t' => exact hnone o' b' t' hseg
  · rw [← hlines]
    unfold contextLines
    rw [List.flatMap_map]
    refine List.flatMap_congr fun seg _ => ?_
    cases seg <;> rfl

/-- What a three-way merge gives, for any comparison options. -/
theorem diff3_law (s : Settings) (h : s.Comparing) :
    (∀ base x, (Merges s base x base x ↔ s.Agrees base x)
        ∧ (Merges s base base x x ↔ s.Agrees base x)
        ∧ (Merges s base x x x ↔ s.Agrees base x))
      ∧ ∀ base ours theirs, ∃ segments,
        s.diff3 base ours theirs = .ok segments
          ∧ s.diff3 base theirs ours = .ok (segments.map Segment.swap)
          ∧ Distinct segments := by
  refine ⟨fun base x => ⟨merges_left h base x, ?_, merges_both h base x⟩,
    diff3_swap h⟩
  rw [← merges_left h base x]
  exact ⟨merges_swap h, merges_swap h⟩

end

/-- 'diffopt' with `icase`, for texts whose only capital letter is an A. -/
def icase : Settings where
  diffexpr _ _ := none
  diffopt := some ICASE
  toLowercase l := l.map fun c => if c = 'A' then 'a' else c
  imara := coarse

theorem icase_comparing : icase.Comparing where
  diffexpr _ _ := rfl
  sound := coarse_sound
  refl _ := if_pos rfl
  lower l h hmem := by
    obtain ⟨c, hc, heq⟩ := List.mem_map.mp hmem
    by_cases ha : c = 'A'
    · rw [if_pos ha] at heq
      exact absurd heq (by decide)
    · rw [if_neg ha] at heq
      exact h (heq ▸ hc)

theorem diff3_law_icase :
    ∃ segments,
      icase.diff3 ['A', '\n'] ['b', '\n'] ['c', '\n'] = .ok segments
        ∧ icase.diff3 ['A', '\n'] ['c', '\n'] ['b', '\n']
          = .ok (segments.map Segment.swap)
        ∧ Distinct segments :=
  (diff3_law icase icase_comparing).2 ['A', '\n'] ['b', '\n'] ['c', '\n']

/-- A line that only its case tells from the base's comes out as that. -/
theorem not_diff3_law_icase :
    ¬ ∀ s : Settings, s.Comparing → ∀ base x, Merges s base x base x := by
  intro h
  obtain ⟨segments, hdiff, -, hlines⟩ :=
    h icase icase_comparing ['A', '\n'] ['a', '\n']
  have heval : icase.diff3 ['A', '\n'] ['a', '\n'] ['A', '\n']
      = .ok [.context [['A']]] := by decide +kernel
  cases heval.symm.trans hdiff
  exact absurd hlines (by decide)

end Zmax.DiffView
