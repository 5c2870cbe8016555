/-
The unified diff of the aligned rows.

As the rows count the lines of either side up, where a side begins in a
hunk is how many of its lines are in front (`first_eq`). The changes of a
hunk are those up to one that the next change is too far from
(`lastChange_spec`), so that hunks do not meet, and by induction on the
changes the text is that of a patch of the two lists of lines
(`hunksFrom_written`).
-/
import Zmax.Term.Proofs.MergeResult

namespace Zmax.DiffView

open Unified (Entry Hunk Patch oldSide newSide texts)

-- == bodies

/-- A line with its newline. -/
def full (l : Line) : Unified.Line := ⟨l, true⟩

section

variable (old new : List Line)

/-- The entries of an unchanged row, or of a run. -/
def Piece.entries : Piece → List Entry
  | .kept row =>
      ((lineOf new row.right).map fun l => .context (full l) false).toList
  | .block row rows =>
      (row :: rows).filterMap
          (fun row => (lineOf old row.left).map fun l => .delete (full l))
        ++ (row :: rows).filterMap
          fun row => (lineOf new row.right).map fun l => .insert (full l)

/-- The entries of rows. -/
def entries (rows : List DiffRow) : List Entry :=
  (pieces rows).flatMap (Piece.entries old new)

end

variable {old new : List Line} {rows : List DiffRow}

theorem filterMap_written (pick : DiffRow → Option Line) (c : Char)
    (entry : Unified.Line → Entry)
    (h : ∀ l, (entry (full l)).written = [c :: l]) (rows : List DiffRow) :
    (rows.filterMap fun row => (pick row).map fun l => entry (full l)).flatMap
        Entry.written
      = rows.filterMap fun row => (pick row).map (c :: ·) := by
  induction rows with
  | nil => rfl
  | cons row rows ih =>
      cases hrow : pick row with
      | none => simp [hrow, ih]
      | some l => simp [hrow, ih, h]

/-- The body of a hunk is its entries, as they are written. -/
theorem hunkBody_eq (rows : List DiffRow) :
    hunkBody old new rows = (entries old new rows).flatMap Entry.written := by
  unfold entries
  induction rows using pieces.induct with
  | case1 => rw [hunkBody, pieces]; rfl
  | case2 row rows hrow ih =>
      rw [hunkBody, if_pos hrow, pieces, if_pos hrow, List.flatMap_cons,
        List.flatMap_append, ← ih, Piece.entries, List.flatMap_append,
        filterMap_written (fun row => lineOf old row.left) '-' .delete
          (fun _ => rfl),
        filterMap_written (fun row => lineOf new row.right) '+' .insert
          (fun _ => rfl)]
  | case3 row rows hrow ih =>
      rw [hunkBody, if_neg hrow, pieces, if_neg hrow, List.flatMap_cons,
        List.flatMap_append, ← ih, Piece.entries]
      cases lineOf new row.right <;> rfl

/-- The rows whose unchanged ones have one line on both sides. -/
def Paired (old new : List Line) (rows : List DiffRow) : Prop :=
  ∀ row ∈ rows, row.isChange = false →
    ∃ l, lineOf old row.left = some l ∧ lineOf new row.right = some l

def leftLines (old : List Line) (rows : List DiffRow) : List Line :=
  rows.filterMap fun row => lineOf old row.left

def rightLines (new : List Line) (rows : List DiffRow) : List Line :=
  rows.filterMap fun row => lineOf new row.right

theorem flatMap_side (pick : DiffRow → Option Line)
    (entry : Unified.Line → Entry) (side : Entry → List Unified.Line)
    (h : ∀ l, side (entry l) = [l]) (rows : List DiffRow) :
    (rows.filterMap fun row => (pick row).map fun l => entry (full l)).flatMap
        side
      = (rows.filterMap pick).map full := by
  induction rows with
  | nil => rfl
  | cons row rows ih =>
      cases hrow : pick row with
      | none => simp [hrow, ih]
      | some l => simp [hrow, ih, h]

theorem flatMap_other (pick : DiffRow → Option Line)
    (entry : Unified.Line → Entry) (side : Entry → List Unified.Line)
    (h : ∀ l, side (entry l) = []) (rows : List DiffRow) :
    (rows.filterMap fun row => (pick row).map fun l => entry (full l)).flatMap
        side = [] := by
  refine List.flatMap_eq_nil_iff.mpr fun e he => ?_
  obtain ⟨row, -, hrow⟩ := List.mem_filterMap.mp he
  obtain ⟨l, -, rfl⟩ := Option.map_eq_some_iff.mp hrow
  exact h _

theorem Piece.sides {p : Piece} (h : ∀ row, p = .kept row →
      ∃ l, lineOf old row.left = some l ∧ lineOf new row.right = some l) :
    oldSide (p.entries old new) = (leftLines old p.rows).map full
      ∧ newSide (p.entries old new) = (rightLines new p.rows).map full := by
  unfold leftLines rightLines
  cases p with
  | kept row =>
      obtain ⟨l, hl, hl'⟩ := h row rfl
      rw [Piece.entries, Piece.rows, filterMap_one, filterMap_one, hl, hl']
      exact ⟨rfl, rfl⟩
  | block row rows =>
      rw [Piece.entries, Piece.rows]
      unfold oldSide newSide
      rw [List.flatMap_append, List.flatMap_append]
      rw [flatMap_side (fun row => lineOf old row.left) .delete Entry.old
          (fun _ => rfl),
        flatMap_other (fun row => lineOf new row.right) .insert Entry.old
          (fun _ => rfl),
        flatMap_other (fun row => lineOf old row.left) .delete Entry.new
          (fun _ => rfl),
        flatMap_side (fun row => lineOf new row.right) .insert Entry.new
          (fun _ => rfl)]
      exact ⟨List.append_nil _, List.nil_append _⟩

/-- The two sides of the entries are the lines of the rows. -/
theorem entries_sides (h : Paired old new rows) :
    oldSide (entries old new rows) = (leftLines old rows).map full
      ∧ newSide (entries old new rows) = (rightLines new rows).map full := by
  have hpieces : ∀ p ∈ pieces rows,
      oldSide (p.entries old new) = (leftLines old p.rows).map full
        ∧ newSide (p.entries old new) = (rightLines new p.rows).map full := by
    intro p hp
    refine Piece.sides fun row hkept => ?_
    subst hkept
    obtain ⟨hmem, hkind⟩ := kept_mem hp
    exact h row hmem hkind
  have hlines (pick : DiffRow → Option Line) : rows.filterMap pick
      = (pieces rows).flatMap fun p => p.rows.filterMap pick := by
    conv_lhs => rw [← pieces_rows rows]
    exact List.filterMap_flatMap
  unfold entries oldSide newSide leftLines rightLines
  rw [List.flatMap_assoc, List.flatMap_assoc, hlines, hlines,
    List.map_flatMap, List.map_flatMap]
  exact ⟨List.flatMap_congr fun p hp => (hpieces p hp).1,
    List.flatMap_congr fun p hp => (hpieces p hp).2⟩

-- == headers

variable {start stop p q : Nat} {part : List DiffRow}

/-- Rows up to one come apart at one in front of it. -/
theorem take_cut (rows : List DiffRow) (h : start ≤ stop) :
    rows.take stop = rows.take start ++ (rows.take stop).drop start := by
  have hcut := List.take_append_drop start (rows.take stop)
  rw [List.take_take, Nat.min_eq_left h] at hcut
  exact hcut.symm

/-- What is counted up from zero has its place as value. -/
theorem eq_length {xs zs : List Nat} {y n : Nat}
    (h : xs ++ y :: zs = List.range n) : y = xs.length := by
  have hlen := congrArg List.length h
  rw [List.length_append, List.length_cons, List.length_range] at hlen
  have hget : (xs ++ y :: zs)[xs.length]? = (List.range n)[xs.length]? :=
    congrArg (·[xs.length]?) h
  rw [List.getElem?_append_right (Nat.le_refl _), Nat.sub_self,
    List.getElem?_cons_zero, List.getElem?_range (by omega)] at hget
  exact Option.some.inj hget

/-- Where a side begins is how many of its lines are in front. -/
theorem first_eq {pick : DiffRow → Option Nat} {n : Nat}
    (h : rows.filterMap pick = List.range n) (hs : start ≤ stop) :
    first rows start stop pick
      = ((rows.take start).filterMap pick).length := by
  have hrange : (rows.take start).filterMap pick
      ++ (((rows.take stop).drop start).filterMap pick
        ++ (rows.drop stop).filterMap pick) = List.range n := by
    rw [← List.filterMap_append, ← List.filterMap_append,
      ← List.append_assoc, ← take_cut rows hs, List.take_append_drop, h]
  unfold first
  rw [← List.head?_filterMap, ← List.head?_filterMap, List.filterMap_reverse,
    List.head?_reverse]
  generalize (rows.take start).filterMap pick = xs at *
  generalize ((rows.take stop).drop start).filterMap pick = ys at *
  cases ys with
  | cons y ys => exact eq_length hrange
  | nil =>
      rcases List.eq_nil_or_concat xs with rfl | ⟨front, x, rfl⟩
      · rfl
      · rw [List.concat_eq_append] at hrange ⊢
        rw [List.append_assoc, List.singleton_append] at hrange
        rw [List.getLast?_concat, eq_length hrange, List.length_append]
        rfl

-- == hunks

/-- The changes behind some of them that go up to `last`. -/
theorem lastChange_spec {c : Nat} {changed : List Nat}
    (h : (c :: changed).Pairwise (· < ·)) :
    (lastChange c changed).1 ∈ c :: changed
      ∧ (∀ i ∈ c :: changed,
        i ≤ (lastChange c changed).1 ∨ i ∈ (lastChange c changed).2)
      ∧ (∀ i ∈ (lastChange c changed).2, i ∈ changed
        ∧ (lastChange c changed).1 + 2 * CONTEXT + 1 < i)
      ∧ (lastChange c changed).2.Pairwise (· < ·) := by
  induction changed generalizing c with
  | nil =>
      refine ⟨List.mem_cons_self, ?_, List.forall_mem_nil _, .nil⟩
      rintro i (_ | ⟨_, ⟨⟩⟩)
      exact .inl (Nat.le_refl _)
  | cons d changed ih =>
      obtain ⟨hc, hd⟩ := List.pairwise_cons.mp h
      rw [lastChange]
      by_cases hle : d ≤ c + 2 * CONTEXT + 1
      · rw [if_pos hle]
        obtain ⟨hmem, hup, hmore, hsorted⟩ := ih hd
        refine ⟨List.mem_cons_of_mem _ hmem, ?_, ?_, hsorted⟩
        · refine List.forall_mem_cons.mpr ⟨.inl ?_, hup⟩
          exact (hc _ hmem).le
        · exact fun i hi => ⟨List.mem_cons_of_mem _ (hmore i hi).1,
            (hmore i hi).2⟩
      · rw [if_neg hle]
        refine ⟨List.mem_cons_self, ?_, ?_, hd⟩
        · exact List.forall_mem_cons.mpr ⟨.inl (Nat.le_refl _),
            fun i hi => .inr hi⟩
        · refine fun i hi => ⟨hi, ?_⟩
          rcases List.mem_cons.mp hi with rfl | hi
          · omega
          · have hlt := (List.pairwise_cons.mp hd).1 i hi
            omega

/-- The changed rows from a row on. -/
structure Changes (rows : List DiffRow) (p : Nat) (cs : List Nat) :
    Prop where
  sorted : cs.Pairwise (· < ·)
  mem : ∀ i, i ∈ cs ↔ p ≤ i ∧ ∃ row, rows[i]? = some row ∧ row.isChange

/-- The rows from one up to another. -/
def cut (rows : List DiffRow) (p q : Nat) : List DiffRow :=
  (rows.take q).drop p

theorem mem_cut {row : DiffRow} (h : row ∈ cut rows p q) :
    ∃ i, p ≤ i ∧ i < q ∧ rows[i]? = some row := by
  obtain ⟨i, hi⟩ := List.mem_iff_getElem?.mp h
  unfold cut at hi
  rw [List.getElem?_drop, List.getElem?_take] at hi
  by_cases hlt : p + i < q
  · rw [if_pos hlt] at hi
    exact ⟨p + i, Nat.le_add_right _ _, hlt, hi⟩
  · rw [if_neg hlt] at hi
    cases hi

theorem getElem?_mem_cut {i : Nat} {row : DiffRow} (hp : p ≤ i) (hq : i < q)
    (h : rows[i]? = some row) : row ∈ cut rows p q := by
  refine List.mem_iff_getElem?.mpr ⟨i - p, ?_⟩
  unfold cut
  rw [List.getElem?_drop, List.getElem?_take, Nat.add_sub_cancel' hp,
    if_pos hq, h]

theorem drop_cut (h : p ≤ q) (hq : q ≤ rows.length) :
    rows.drop p = cut rows p q ++ rows.drop q := by
  have hrows : rows = rows.take p ++ (cut rows p q ++ rows.drop q) := by
    rw [← List.append_assoc, cut, ← take_cut rows h, List.take_append_drop]
  conv_lhs => rw [hrows]
  rw [List.drop_append_of_le_length, List.drop_of_length_le, List.nil_append]
  · exact List.length_take_le _ _
  · rw [List.length_take]
    omega

namespace Aligned

variable (h : Aligned old new rows)

include h

theorem paired : Paired old new rows := fun _ hrow hkind =>
  h.same_line hrow hkind

/-- A row has a line where it has the number of one. -/
theorem left_isSome {row : DiffRow} (hrow : row ∈ rows) :
    (lineOf old row.left).isSome = row.left.isSome := by
  cases hi : row.left with
  | none => rfl
  | some i =>
      have hmem : i ∈ rows.filterMap DiffRow.left :=
        List.mem_filterMap.mpr ⟨row, hrow, hi⟩
      rw [h.left, List.mem_range] at hmem
      simp [lineOf, hmem]

theorem right_isSome {row : DiffRow} (hrow : row ∈ rows) :
    (lineOf new row.right).isSome = row.right.isSome := by
  cases hi : row.right with
  | none => rfl
  | some i =>
      have hmem : i ∈ rows.filterMap DiffRow.right :=
        List.mem_filterMap.mpr ⟨row, hrow, hi⟩
      rw [h.right, List.mem_range] at hmem
      simp [lineOf, hmem]

end Aligned

/-- Rows are counted by their lines or by the numbers of these. -/
theorem length_filterMap_eq {α β : Type} {f : DiffRow → Option α}
    {g : DiffRow → Option β}
    (h : ∀ row ∈ part, (f row).isSome = (g row).isSome) :
    (part.filterMap f).length = (part.filterMap g).length := by
  rw [List.length_filterMap_eq_countP, List.length_filterMap_eq_countP]
  refine List.countP_congr fun row hrow => ?_
  rw [h row hrow]

theorem length_filter_eq {β : Type} (g : DiffRow → Option β)
    (part : List DiffRow) :
    (part.filter fun row => (g row).isSome).length
      = (part.filterMap g).length := by
  rw [List.length_filterMap_eq_countP, List.countP_eq_length_filter]

theorem headerRange_eq (before len : Nat) :
    headerRange before len = Unified.range false before len := by
  unfold headerRange Unified.range Unified.start decimal
  simp

/-- A hunk of the rows, behind some kept lines. -/
def hunkOf (old new : List Line) (kept : List Line)
    (part : List DiffRow) : Hunk :=
  { head := []
    kept := kept.map full
    body := entries old new part
    terseOld := false
    terseNew := false
    heading := [] }

/-- A hunk is written as one of the patch. -/
theorem hunkLines_eq (h : Aligned old new rows) (kept : List Line)
    (hs : start ≤ stop) :
    hunkLines rows old new start stop
      = (hunkOf old new kept (cut rows start stop)).header
          (leftLines old (rows.take start)).length
          (rightLines new (rows.take start)).length
        :: (entries old new (cut rows start stop)).flatMap Entry.written := by
  have htake : (rows.take start).Sublist rows := List.take_sublist _ _
  have hcut : (cut rows start stop).Sublist rows :=
    (List.drop_sublist _ _).trans (List.take_sublist _ _)
  have hpaired : Paired old new (cut rows start stop) :=
    fun row hrow => h.paired row (hcut.mem hrow)
  obtain ⟨hold, hnew⟩ := entries_sides hpaired
  have hleft {part : List DiffRow} (hpart : part.Sublist rows) :
      (leftLines old part).length = (part.filterMap DiffRow.left).length :=
    length_filterMap_eq fun row hrow => h.left_isSome (hpart.mem hrow)
  have hright {part : List DiffRow} (hpart : part.Sublist rows) :
      (rightLines new part).length = (part.filterMap DiffRow.right).length :=
    length_filterMap_eq fun row hrow => h.right_isSome (hpart.mem hrow)
  have hlefts := length_filter_eq DiffRow.left (cut rows start stop)
  have hrights := length_filter_eq DiffRow.right (cut rows start stop)
  unfold hunkLines
  dsimp only
  rw [first_eq h.left hs, first_eq h.right hs, ← hleft htake,
    ← hright htake]
  rw [← cut, hlefts, hrights, ← hleft hcut, ← hright hcut, headerRange_eq,
    headerRange_eq, hunkBody_eq, Unified.Hunk.header_def]
  unfold hunkOf
  dsimp only
  rw [hold, hnew, List.length_map, List.length_map, List.append_nil]

/-- Rows that are not changed have the same lines on both sides. -/
theorem lines_eq (h : Paired old new part)
    (hpart : ∀ row ∈ part, row.isChange = false) :
    leftLines old part = rightLines new part := by
  unfold leftLines rightLines
  refine List.filterMap_congr fun row hrow => ?_
  obtain ⟨l, hl, hl'⟩ := h row hrow (hpart row hrow)
  rw [hl, hl']

/-- Rows with a changed one have an entry that is a change. -/
theorem exists_change
    (hfilled : ∀ row ∈ part,
      (lineOf old row.left).isSome ∨ (lineOf new row.right).isSome)
    (h : ∃ row ∈ part, row.isChange) :
    ∃ e ∈ entries old new part, e.IsChange := by
  unfold entries
  induction part using pieces.induct with
  | case1 =>
      obtain ⟨row, hrow, -⟩ := h
      cases hrow
  | case2 row rows hrow ih =>
      rw [pieces, if_pos hrow]
      rcases hfilled row List.mem_cons_self with hl | hl
      · obtain ⟨l, hl⟩ := Option.isSome_iff_exists.mp hl
        refine ⟨.delete (full l), List.mem_append_left _ ?_, trivial⟩
        refine List.mem_append_left _ (List.mem_filterMap.mpr ?_)
        exact ⟨row, List.mem_cons_self, by rw [hl]; rfl⟩
      · obtain ⟨l, hl⟩ := Option.isSome_iff_exists.mp hl
        refine ⟨.insert (full l), List.mem_append_left _ ?_, trivial⟩
        refine List.mem_append_right _ (List.mem_filterMap.mpr ?_)
        exact ⟨row, List.mem_cons_self, by rw [hl]; rfl⟩
  | case3 row rows hrow ih =>
      obtain ⟨change, hmem, hchange⟩ := h
      rcases List.mem_cons.mp hmem with rfl | hmem
      · exact absurd hchange hrow
      · obtain ⟨e, he, hechange⟩ := ih
          (fun row hrow => hfilled row (List.mem_cons_of_mem _ hrow))
          ⟨change, hmem, hchange⟩
        rw [pieces, if_neg hrow]
        exact ⟨e, List.mem_append_right _ he, hechange⟩

/-- Behind a hunk come the changes that it did not take. -/
theorem Changes.behind {c : Nat} {changed : List Nat}
    (h : Changes rows p (c :: changed)) :
    Changes rows
      (min ((lastChange c changed).1 + CONTEXT + 1) rows.length)
      (lastChange c changed).2 := by
  obtain ⟨hmem, hup, hmore, hsorted⟩ := lastChange_spec h.sorted
  refine ⟨hsorted, fun i => ⟨fun hi => ?_, fun ⟨hle, hrow⟩ => ?_⟩⟩
  · obtain ⟨hchanged, hlt⟩ := hmore i hi
    exact ⟨by omega, ((h.mem i).mp (List.mem_cons_of_mem _ hchanged)).2⟩
  · obtain ⟨row, hget, hchange⟩ := hrow
    have hi : i < rows.length := (List.getElem?_eq_some_iff.mp hget).1
    have hp : p ≤ i := by
      have hlast := ((h.mem _).mp hmem).1
      omega
    rcases hup i ((h.mem i).mpr ⟨hp, row, hget, hchange⟩) with hlast | hmore
    · omega
    · exact hmore

/-- Lines of the diff are those of hunks of a patch, from a row on. -/
def Writes (rows : List DiffRow) (old new : List Line) (p : Nat)
    (lines : List Line) (hunks : List Hunk)
    (kept : List Unified.Line) : Prop :=
  lines = Unified.writtenFrom (leftLines old (rows.take p)).length
      (rightLines new (rows.take p)).length hunks
    ∧ (∀ x ∈ hunks, x.head = [] ∧ x.WellFormed)
    ∧ Unified.oldFrom kept hunks = (leftLines old (rows.drop p)).map full
    ∧ Unified.newFrom kept hunks = (rightLines new (rows.drop p)).map full

/-- A hunk in front, with the unchanged lines in front of it. -/
theorem Writes.cons (h : Aligned old new rows) {p start stop : Nat}
    (hp : p ≤ start) (hs : start ≤ stop) (hstop : stop ≤ rows.length)
    (hkept : ∀ row ∈ cut rows p start, row.isChange = false)
    (hchange : ∃ row ∈ cut rows start stop, row.isChange)
    {lines : List Line} {hunks : List Hunk} {kept : List Unified.Line}
    (hw : Writes rows old new stop lines hunks kept) :
    Writes rows old new p (hunkLines rows old new start stop ++ lines)
      (hunkOf old new (leftLines old (cut rows p start))
        (cut rows start stop) :: hunks) kept := by
  obtain ⟨hwritten, hwell, hold, hnew⟩ := hw
  have hsub {q r : Nat} : (cut rows q r).Sublist rows :=
    (List.drop_sublist _ _).trans (List.take_sublist _ _)
  have hpaired {q r : Nat} : Paired old new (cut rows q r) :=
    fun row hrow => h.paired row (hsub.mem hrow)
  have hlines := lines_eq hpaired hkept
  obtain ⟨hsold, hsnew⟩ := entries_sides (hpaired (q := start) (r := stop))
  have hleft (xs ys : List DiffRow) :
      leftLines old (xs ++ ys) = leftLines old xs ++ leftLines old ys :=
    List.filterMap_append
  have hright (xs ys : List DiffRow) :
      rightLines new (xs ++ ys) = rightLines new xs ++ rightLines new ys :=
    List.filterMap_append
  have hfilled : ∀ row ∈ cut rows start stop,
      (lineOf old row.left).isSome ∨ (lineOf new row.right).isSome := by
    intro row hrow
    have hmem := hsub.mem hrow
    rw [h.left_isSome hmem, h.right_isSome hmem]
    exact h.filled row hmem
  have hbody : (oldSide (entries old new (cut rows start stop))).length
      = (leftLines old (cut rows start stop)).length := by
    rw [hsold, List.length_map]
  have hbody' : (newSide (entries old new (cut rows start stop))).length
      = (rightLines new (cut rows start stop)).length := by
    rw [hsnew, List.length_map]
  have hlen : (leftLines old (rows.take start)).length
      = (leftLines old (rows.take p)).length
        + (leftLines old (cut rows p start)).length := by
    rw [take_cut rows hp, hleft, List.length_append]
    rfl
  have hlen' : (rightLines new (rows.take start)).length
      = (rightLines new (rows.take p)).length
        + (leftLines old (cut rows p start)).length := by
    rw [take_cut rows hp, hright, List.length_append, hlines]
    rfl
  have hstopLen : (leftLines old (rows.take stop)).length
      = (leftLines old (rows.take start)).length
        + (leftLines old (cut rows start stop)).length := by
    rw [take_cut rows hs, hleft, List.length_append]
    rfl
  have hstopLen' : (rightLines new (rows.take stop)).length
      = (rightLines new (rows.take start)).length
        + (rightLines new (cut rows start stop)).length := by
    rw [take_cut rows hs, hright, List.length_append]
    rfl
  refine ⟨?_, ?_, ?_, ?_⟩
  · rw [hunkLines_eq h (leftLines old (cut rows p start)) hs, hwritten,
      Unified.writtenFrom, hstopLen, hstopLen', hlen, hlen']
    unfold hunkOf
    dsimp only
    rw [hbody, hbody', List.length_map]
    rfl
  · refine List.forall_mem_cons.mpr ⟨⟨rfl, ?_, ?_, ?_⟩, hwell⟩
    · exact List.forall_mem_nil _
    · exact List.not_mem_nil
    · exact exists_change hfilled hchange
  · rw [drop_cut hp (hs.trans hstop), drop_cut hs hstop, hleft, hleft,
      Unified.oldFrom, hold]
    unfold hunkOf
    dsimp only
    rw [hsold, List.map_append, List.map_append, List.append_assoc]
  · rw [drop_cut hp (hs.trans hstop), drop_cut hs hstop, hright, hright,
      Unified.newFrom, hnew]
    unfold hunkOf
    dsimp only
    rw [hsnew, List.map_append, List.map_append, List.append_assoc, hlines]

/-- From a row on, the hunks are those of a patch of the lines that are
left on either side. -/
theorem hunksFrom_written (h : Aligned old new rows) {cs : List Nat}
    (hcs : Changes rows p cs) (hhead : ∀ c ∈ cs.head?, p ≤ c - CONTEXT)
    (hp : p ≤ rows.length) :
    ∃ hunks kept,
      Writes rows old new p (hunksFrom rows old new cs) hunks kept := by
  induction cs using hunksFrom.induct generalizing p with
  | case1 =>
      have hkind : ∀ row ∈ rows.drop p, row.isChange = false := by
        intro row hrow
        obtain ⟨i, hi⟩ := List.mem_iff_getElem?.mp hrow
        rw [List.getElem?_drop] at hi
        refine Bool.eq_false_iff.mpr fun hchange => ?_
        have hmem := (hcs.mem (p + i)).mpr
          ⟨Nat.le_add_right _ _, row, hi, hchange⟩
        cases hmem
      have hlines := lines_eq
        (fun row hrow => h.paired row (List.mem_of_mem_drop hrow)) hkind
      refine ⟨[], (leftLines old (rows.drop p)).map full, ?_, ?_, rfl, ?_⟩
      · rw [hunksFrom]
        rfl
      · exact List.forall_mem_nil _
      · exact congrArg _ hlines
  | case2 c changed ih =>
      obtain ⟨hmem, hup, hmore, hsorted⟩ := lastChange_spec hcs.sorted
      obtain ⟨hpc, row, hrow, hchange⟩ := (hcs.mem c).mp List.mem_cons_self
      have hclen : c < rows.length := (List.getElem?_eq_some_iff.mp hrow).1
      have hclast : c ≤ (lastChange c changed).1 := by
        rcases List.mem_cons.mp hmem with heq | hmem
        · exact heq.ge
        · exact ((List.pairwise_cons.mp hcs.sorted).1 _ hmem).le
      have hpstart : p ≤ c - CONTEXT := hhead c rfl
      have hbehind := hcs.behind
      rw [hunksFrom]
      generalize hlast : (lastChange c changed).1 = last at *
      generalize hrest : (lastChange c changed).2 = more at *
      generalize hstart : c - CONTEXT = start at *
      have hsc : start ≤ c := hstart ▸ Nat.sub_le _ _
      have hcstop : c < min (last + CONTEXT + 1) rows.length := by omega
      have hstoplen : min (last + CONTEXT + 1) rows.length ≤ rows.length :=
        Nat.min_le_right _ _
      have hmorehead : ∀ i ∈ more.head?,
          min (last + CONTEXT + 1) rows.length ≤ i - CONTEXT := by
        intro i hi
        have hlt := (hmore i (List.mem_of_mem_head? hi)).2
        unfold CONTEXT at *
        omega
      obtain ⟨hunks, kept, hwrites⟩ := ih hbehind hmorehead hstoplen
      generalize hstop : min (last + CONTEXT + 1) rows.length = stop at *
      have hss : start ≤ stop := by omega
      have hK : ∀ row ∈ cut rows p start, row.isChange = false := by
        intro row hrow
        obtain ⟨i, hpi, hilt, hi⟩ := mem_cut hrow
        refine Bool.eq_false_iff.mpr fun hchange => ?_
        have hmem := (hcs.mem i).mpr ⟨hpi, row, hi, hchange⟩
        rcases List.mem_cons.mp hmem with rfl | hmem
        · omega
        · have hlt := (List.pairwise_cons.mp hcs.sorted).1 i hmem
          omega
      exact ⟨_, _, hwrites.cons h hpstart hss hstoplen hK
        ⟨row, getElem?_mem_cut hsc hcstop hrow, hchange⟩⟩

-- == law

theorem changes_init (rows : List DiffRow) :
    Changes rows 0 ((List.range rows.length).filter fun i =>
      rows[i]?.any DiffRow.isChange) where
  sorted := List.Pairwise.filter _ List.pairwise_lt_range
  mem i := by
    rw [List.mem_filter, List.mem_range, Option.any_eq_true]
    refine ⟨fun ⟨_, hrow⟩ => ⟨Nat.zero_le _, hrow⟩, ?_⟩
    rintro ⟨-, row, hrow, hchange⟩
    exact ⟨(List.getElem?_eq_some_iff.mp hrow).1, row, hrow, hchange⟩

theorem isFile_full {lines : List Line} (h : ∀ l ∈ lines, '\n' ∉ l) :
    Unified.IsFile (lines.map full) where
  text := List.forall_mem_map.mpr h
  newline line hline := by
    obtain ⟨l, -, rfl⟩ := List.mem_map.mp (List.dropLast_subset _ hline)
    rfl

theorem texts_full (lines : List Line) : texts (lines.map full) = lines := by
  unfold texts
  rw [List.map_map]
  exact List.map_id _

/-- The diff is that of a patch of the two lists of lines. -/
theorem unifiedDiff_written (h : Aligned old new rows) (name : Line)
    (hold : ∀ l ∈ old, '\n' ∉ l) (hnew : ∀ l ∈ new, '\n' ∉ l) :
    ∃ patch : Patch, patch.WellFormed ∧ (∀ x ∈ patch.hunks, x.head = [])
      ∧ unifiedDiff name rows old new
        = emit ["--- a/".toList ++ name, "+++ b/".toList ++ name]
          ++ patch.written
      ∧ texts patch.old = old ∧ texts patch.new = new := by
  obtain ⟨hunks, kept, hwritten, hwell, hpold, hpnew⟩ :=
    hunksFrom_written h (changes_init rows) (fun _ _ => Nat.zero_le _)
      (Nat.zero_le _)
  have hleft : leftLines old rows = old := h.left_lines
  have hright : rightLines new rows = new := h.right_lines
  rw [List.drop_zero, hleft] at hpold
  rw [List.drop_zero, hright] at hpnew
  rw [List.take_zero] at hwritten
  refine ⟨⟨hunks, kept⟩, ⟨fun x hx => (hwell x hx).2, ?_, ?_⟩,
    fun x hx => (hwell x hx).1, ?_, ?_, ?_⟩
  · unfold Patch.old
    rw [hpold]
    exact isFile_full hold
  · unfold Patch.new
    rw [hpnew]
    exact isFile_full hnew
  · unfold unifiedDiff
    dsimp only
    rw [hwritten]
    exact emit_append [_, _] _
  · unfold Patch.old
    rw [hpold, texts_full]
  · unfold Patch.new
    rw [hpnew, texts_full]

/-- The result and the diff of two texts side by side. -/
theorem viewer_law (s : Settings) (hplain : s.Plain)
    (hsound : s.imara.Sound) (base doc : Rope) (name : Line) :
    (∀ choose : Nat → Resolution,
      resultText (s.align base doc)
          (resolveFrom choose 0 (computeBlocks (s.align base doc)))
          (splitLines base) (splitLines doc)
        = .ok (emit (chosenLines choose (splitLines base) (splitLines doc) 0
          (pieces (s.align base doc)))))
      ∧ chosenLines (fun _ => .right) (splitLines base) (splitLines doc) 0
          (pieces (s.align base doc)) = splitLines doc
      ∧ chosenLines (fun _ => .left) (splitLines base) (splitLines doc) 0
          (pieces (s.align base doc)) = splitLines base
      ∧ ∃ patch : Patch, patch.WellFormed
        ∧ (∀ x ∈ patch.hunks, x.head = [])
        ∧ unifiedDiff name (s.align base doc) (splitLines base)
            (splitLines doc)
          = emit ["--- a/".toList ++ name, "+++ b/".toList ++ name]
            ++ patch.written
        ∧ texts patch.old = splitLines base
        ∧ texts patch.new = splitLines doc := by
  have halign := align_plain hplain hsound base doc
  exact ⟨resultText_eq halign, chosenLines_new halign,
    chosenLines_old halign, unifiedDiff_written halign name
      (splitLines_no_newline base) (splitLines_no_newline doc)⟩

/-- Settings with no options, and a coarse difference. -/
def plainSettings : Settings :=
  ⟨fun _ _ => none, none, id, Hunks.coarse⟩

theorem viewer_law_coarse :
    resultText (plainSettings.align ['a', '\n'] ['b', '\n'])
        (resolveFrom (fun _ => .left) 0
          (computeBlocks (plainSettings.align ['a', '\n'] ['b', '\n'])))
        (splitLines ['a', '\n']) (splitLines ['b', '\n'])
      = .ok (emit (chosenLines (fun _ => .left) (splitLines ['a', '\n'])
        (splitLines ['b', '\n']) 0
        (pieces (plainSettings.align ['a', '\n'] ['b', '\n'])))) :=
  (viewer_law plainSettings ⟨fun _ _ => rfl, fun _ h => nomatch h⟩
    Hunks.coarse_sound ['a', '\n'] ['b', '\n'] ['f']).1 _

end Zmax.DiffView
