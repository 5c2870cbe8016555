/-
What the aligned rows of two texts are.

The rows have the lines of either side in order, each once (`left_lines`,
`right_lines`), and a row is unchanged only where it has a line of both
that are the same to the comparison (`unchanged_lines`). All of it comes of
the hunks being a sound difference, by induction on these.
-/
import Zmax.Term.Proofs.MergeText

namespace Zmax.DiffView

open Hunks

-- == statement vocabulary

/-- No option changes what counts as a difference. -/
structure Settings.Plain (s : Settings) : Prop where
  diffexpr : ∀ base doc, s.diffexpr base doc = none
  diffopt : ∀ opt, s.diffopt = some opt →
    ∀ flag ∈ (opt.splitOn ',').map Text.trim,
      flag ∉ [IWHITE, IWHITEALL, IWHITEEOL, ICASE]

theorem Settings.Plain.normalize {s : Settings} (h : s.Plain) (text : Rope) :
    s.diffoptNormalize text = text := by
  unfold Settings.diffoptNormalize
  cases hopt : s.diffopt with
  | none => rfl
  | some opt =>
      have hany : ((opt.splitOn ',').map Text.trim).any
          ([IWHITE, IWHITEALL, IWHITEEOL, ICASE].contains ·) = false := by
        rw [List.any_eq_false]
        intro flag hflag hmem
        exact h.diffopt opt hopt flag hflag (List.contains_iff_mem.mp hmem)
      simp only [hany]
      rfl

/-- The rows count the lines of both sides up, from `b` to `nBase` and from
`d` to `nDoc`. -/
structure Counts (b nBase d nDoc : Nat) (rows : List DiffRow) : Prop where
  left : rows.filterMap DiffRow.left = List.range' b (nBase - b)
  right : rows.filterMap DiffRow.right = List.range' d (nDoc - d)
  left_le : b ≤ nBase
  right_le : d ≤ nDoc

/-- An unchanged row has a line of either list, and the same one. -/
def Same {α : Type} (xs ys : List α) (row : DiffRow) : Prop :=
  row.isChange = false →
    ∃ i j, row.left = some i ∧ row.right = some j ∧ xs[i]? = ys[j]?

-- == pieces

theorem filterMap_range (f : Nat → DiffRow) (pick : DiffRow → Option Nat)
    {b n : Nat} (h : ∀ i, pick (f i) = some (b + i)) :
    ((List.range n).map f).filterMap pick = List.range' b n := by
  have hpick : pick ∘ f = some ∘ (b + ·) := funext h
  rw [List.filterMap_map, hpick, List.filterMap_eq_map,
    List.range'_eq_map_range]

theorem filterMap_none (f : Nat → DiffRow) (pick : DiffRow → Option Nat)
    {n : Nat} (h : ∀ i, pick (f i) = none) :
    ((List.range n).map f).filterMap pick = [] := by
  rw [List.filterMap_map, List.filterMap_eq_nil_iff]
  exact fun i _ => h i

theorem Counts.append {b b' b'' d d' d'' : Nat} {rows rows' : List DiffRow}
    (h : Counts b b' d d' rows) (h' : Counts b' b'' d' d'' rows') :
    Counts b b'' d d'' (rows ++ rows') := by
  have hrange {b b' b'' : Nat} (h : b ≤ b') (h' : b' ≤ b'') :
      List.range' b (b' - b) ++ List.range' b' (b'' - b')
        = List.range' b (b'' - b) := by
    have hstart : b' = b + (b' - b) := by omega
    have hlen : b'' - b = (b' - b) + (b'' - b') := by omega
    rw [hlen, ← List.range'_append_1, ← hstart]
  refine ⟨?_, ?_, h.left_le.trans h'.left_le, h.right_le.trans h'.right_le⟩
  · rw [List.filterMap_append, h.left, h'.left, hrange h.left_le h'.left_le]
  · rw [List.filterMap_append, h.right, h'.right,
      hrange h.right_le h'.right_le]

theorem pairs_counts (kind : RowKind) (b d n : Nat) :
    Counts b (b + n) d (d + n) (Settings.pairs kind b d n) where
  left := by
    rw [Nat.add_sub_cancel_left]
    exact filterMap_range _ _ fun _ => rfl
  right := by
    rw [Nat.add_sub_cancel_left]
    exact filterMap_range _ _ fun _ => rfl
  left_le := Nat.le_add_right _ _
  right_le := Nat.le_add_right _ _

theorem spill_counts {b d : Nat} {h : Hunk} (hb : b ≤ h.before.stop)
    (hd : d ≤ h.after.stop) :
    Counts b h.before.stop d h.after.stop (Settings.spill b d h) where
  left := by
    unfold Settings.spill
    rw [List.filterMap_append, filterMap_range _ _ fun _ => rfl,
      filterMap_none _ _ fun _ => rfl, List.append_nil]
  right := by
    unfold Settings.spill
    rw [List.filterMap_append, filterMap_none _ _ fun _ => rfl,
      filterMap_range _ _ fun _ => rfl, List.nil_append]
  left_le := hb
  right_le := hd

-- == alignments

section

variable {α : Type} {xs ys : List α} {nBase nDoc : Nat}

/-- Between two hunks both sides have as many lines. -/
theorem gap_eq {p q p' q' : Nat} (hp : p ≤ p') (hp' : p' ≤ xs.length)
    (hq : q ≤ q') (hq' : q' ≤ ys.length)
    (h : (Extent.mk p p').of xs = (Extent.mk q q').of ys) :
    q' = q + (p' - p) := by
  have hlen := congrArg List.length h
  simp only [Extent.of, Extent.len, List.length_take, List.length_drop] at hlen
  omega

variable {b d : Nat} {hunks : List Hunk}

/-- The lines of either side at the parts of a hunk's rows. -/
theorem hunk_ends {h : Hunk} (hbefore : h.before.Fits b xs)
    (hafter : h.after.Fits d ys)
    (hsame : (Extent.mk b h.before.start).of xs
      = (Extent.mk d h.after.start).of ys) :
    max (b + (h.before.start - b) + Settings.common h) h.before.stop
        = h.before.stop
      ∧ max (d + (h.before.start - b) + Settings.common h) h.after.stop
        = h.after.stop
      ∧ b + (h.before.start - b) = h.before.start
      ∧ d + (h.before.start - b) = h.after.start
      ∧ b + (h.before.start - b) + Settings.common h ≤ h.before.stop
      ∧ d + (h.before.start - b) + Settings.common h ≤ h.after.stop := by
  have hbs := hbefore.pos_le
  have hbe := hbefore.le
  have has := hafter.pos_le
  have hae := hafter.le
  have hgap := gap_eq hbs (hbe.trans hbefore.le_length) has
    (hae.trans hafter.le_length) hsame
  unfold Settings.common Extent.len
  omega

/-- Where the rows end, on either side. -/
theorem alignFrom_counts (hx : xs.length ≤ nBase) (hy : ys.length ≤ nDoc)
    (hb : b ≤ xs.length) (hd : d ≤ ys.length) (h : Between xs ys hunks b d) :
    ∃ b' d', Counts b b' d d' (Settings.alignFrom nBase nDoc hunks b d)
      ∧ b' ≤ nBase ∧ d' ≤ nDoc
      ∧ (xs.length = nBase → ys.length = nDoc →
        b' = nBase ∧ d' = nDoc) := by
  induction hunks generalizing b d with
  | nil =>
      have hlen := congrArg List.length h
      rw [List.length_drop, List.length_drop] at hlen
      refine ⟨_, _, pairs_counts .unchanged b d _, ?_, ?_, ?_⟩
      · omega
      · omega
      · intro hx hy
        omega
  | cons h hunks ih =>
      obtain ⟨hbefore, hafter, hsame, hrest⟩ := h
      obtain ⟨hb', hd', hbk, hdk, hbc, hdc⟩ := hunk_ends hbefore hafter hsame
      obtain ⟨b', d', hcounts, hends⟩ :=
        ih hbefore.le_length hafter.le_length hrest
      refine ⟨b', d', ?_, hends⟩
      unfold Settings.alignFrom
      dsimp only
      rw [hb', hd']
      exact (((pairs_counts .unchanged b d _).append
        (pairs_counts .changed _ _ _)).append
          (spill_counts hbc hdc)).append hcounts

/-- An unchanged row has a line of both sides, and the same one. -/
theorem alignFrom_same (h : Between xs ys hunks b d) :
    ∀ row ∈ Settings.alignFrom nBase nDoc hunks b d, Same xs ys row := by
  have hpairs {b d n : Nat} (h : ∀ i < n, xs[b + i]? = ys[d + i]?) :
      ∀ row ∈ Settings.pairs .unchanged b d n, Same xs ys row := by
    refine List.forall_mem_map.mpr fun i hi _ => ?_
    exact ⟨b + i, d + i, rfl, rfl, h i (List.mem_range.mp hi)⟩
  have hchange {rows : List DiffRow} (h : ∀ row ∈ rows, row.isChange) :
      ∀ row ∈ rows, Same xs ys row := fun row hrow hfalse => by
    rw [h row hrow] at hfalse
    cases hfalse
  induction hunks generalizing b d with
  | nil =>
      refine hpairs fun i _ => ?_
      have hget := congrArg (·[i]?) h
      simpa only [List.getElem?_drop] using hget
  | cons h hunks ih =>
      obtain ⟨hbefore, hafter, hsame, hrest⟩ := h
      obtain ⟨hb', hd', hbk, hdk, -⟩ := hunk_ends hbefore hafter hsame
      unfold Settings.alignFrom
      dsimp only
      rw [hb', hd']
      refine List.forall_mem_append.mpr ⟨?_, ih hrest⟩
      refine List.forall_mem_append.mpr ⟨?_, hchange ?_⟩
      · refine List.forall_mem_append.mpr ⟨hpairs fun i hi => ?_, hchange ?_⟩
        · have hget := congrArg (·[i]?) hsame
          simp only [Extent.of, Extent.len, List.getElem?_take,
            List.getElem?_drop] at hget
          rwa [if_pos (by omega), if_pos (by omega)] at hget
        · exact List.forall_mem_map.mpr fun i _ => rfl
      · refine List.forall_mem_append.mpr ⟨?_, ?_⟩
        · exact List.forall_mem_map.mpr fun i _ => rfl
        · exact List.forall_mem_map.mpr fun i _ => rfl

/-- A changed row has a line of one side at least. -/
theorem alignFrom_some :
    ∀ row ∈ Settings.alignFrom nBase nDoc hunks b d,
      row.left.isSome ∨ row.right.isSome := by
  have hpairs {kind : RowKind} {b d n : Nat} :
      ∀ row ∈ Settings.pairs kind b d n,
        row.left.isSome ∨ row.right.isSome :=
    List.forall_mem_map.mpr fun i _ => .inl rfl
  induction hunks generalizing b d with
  | nil => exact hpairs
  | cons h hunks ih =>
      refine List.forall_mem_append.mpr ⟨?_, ih⟩
      refine List.forall_mem_append.mpr ⟨?_, ?_⟩
      · exact List.forall_mem_append.mpr ⟨hpairs, hpairs⟩
      · refine List.forall_mem_append.mpr ⟨?_, ?_⟩
        · exact List.forall_mem_map.mpr fun i _ => .inl rfl
        · exact List.forall_mem_map.mpr fun i _ => .inr rfl

end

-- == texts

/-- The rows of two lists of lines. -/
structure Aligned (old new : List Line) (rows : List DiffRow) : Prop where
  left : rows.filterMap DiffRow.left = List.range old.length
  right : rows.filterMap DiffRow.right = List.range new.length
  same : ∀ row ∈ rows, Same old new row
  filled : ∀ row ∈ rows, row.left.isSome ∨ row.right.isSome

theorem length_splitLines (text : Rope) :
    (splitLines text).length = (sourceLines text).length := by
  rw [splitLines, List.length_map, List.length_map]

/-- Lines that are the same with their ends are the same without them. -/
theorem Same.splitLines {base doc : Rope} {row : DiffRow}
    (h : Same (sourceLines base) (sourceLines doc) row) :
    Same (splitLines base) (splitLines doc) row := by
  intro hrow
  obtain ⟨i, j, hi, hj, hsame⟩ := h hrow
  refine ⟨i, j, hi, hj, ?_⟩
  simp only [DiffView.splitLines, List.getElem?_map, hsame]

theorem align_plain {s : Settings} (hplain : s.Plain)
    (hsound : s.imara.Sound) (base doc : Rope) :
    Aligned (splitLines base) (splitLines doc) (s.align base doc) := by
  have hhunks : s.hunks base doc
      = s.imara (sourceLines base) (sourceLines doc) := by
    unfold Settings.hunks
    rw [hplain.diffexpr, hplain.normalize, hplain.normalize]
  have hbetween := hsound (sourceLines base) (sourceLines doc)
  unfold Settings.align
  rw [hhunks]
  have hbase := length_splitLines base
  have hdoc := length_splitLines doc
  obtain ⟨b, d, hcounts, -, -, hends⟩ := alignFrom_counts hbase.ge hdoc.ge
    (Nat.zero_le _) (Nat.zero_le _) hbetween
  obtain ⟨rfl, rfl⟩ := hends hbase.symm hdoc.symm
  refine ⟨?_, ?_, fun row hrow => ?_, alignFrom_some⟩
  · rw [hcounts.left, List.range_eq_range', Nat.sub_zero]
  · rw [hcounts.right, List.range_eq_range', Nat.sub_zero]
  · exact (alignFrom_same hbetween row hrow).splitLines

/-- The lines that rows have of a side. -/
theorem filterMap_lineOf {lines : List Line} {rows : List DiffRow}
    (pick : DiffRow → Option Nat) :
    rows.filterMap (fun row => lineOf lines (pick row))
      = (rows.filterMap pick).filterMap (lines[·]?) := by
  rw [List.filterMap_filterMap]
  rfl

theorem filterMap_getElem? (lines : List Line) :
    (List.range lines.length).filterMap (lines[·]?) = lines := by
  induction lines with
  | nil => rfl
  | cons l lines ih =>
      rw [List.length_cons, List.range_succ_eq_map, List.filterMap_cons,
        List.filterMap_map]
      exact congrArg (l :: ·) ih

namespace Aligned

variable {old new : List Line} {rows : List DiffRow}

theorem left_lines (h : Aligned old new rows) :
    rows.filterMap (fun row => lineOf old row.left) = old := by
  rw [filterMap_lineOf DiffRow.left, h.left, filterMap_getElem?]

theorem right_lines (h : Aligned old new rows) :
    rows.filterMap (fun row => lineOf new row.right) = new := by
  rw [filterMap_lineOf DiffRow.right, h.right, filterMap_getElem?]

/-- An unchanged row has one line on both sides. -/
theorem same_line (h : Aligned old new rows) {row : DiffRow}
    (hrow : row ∈ rows) (hkind : row.isChange = false) :
    ∃ l, lineOf old row.left = some l ∧ lineOf new row.right = some l := by
  obtain ⟨i, j, hi, hj, hsame⟩ := h.same row hrow hkind
  have hmem : i ∈ rows.filterMap DiffRow.left :=
    List.mem_filterMap.mpr ⟨row, hrow, hi⟩
  rw [h.left, List.mem_range] at hmem
  refine ⟨old[i], ?_, ?_⟩
  · rw [hi]
    exact List.getElem?_eq_getElem hmem
  · rw [hj]
    exact hsame.symm.trans (List.getElem?_eq_getElem hmem)

end Aligned

end Zmax.DiffView
