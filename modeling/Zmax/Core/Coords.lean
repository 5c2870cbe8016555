/-
zmax-core/src/position.rs: between char positions and rows with columns,
where a column counts grapheme clusters.

Rows and columns name the grapheme boundaries of their lines.

A line starts at a boundary, since a line break is a cluster's end. So the
clusters of a line, or of a piece at its start, are cut where the text has
its boundaries (`starts_slice`), and the loop over them ends at the
boundary of its column (`colCharOffset_eq`). A boundary has as many
boundaries of its line in front of it as its column says, and is found
again.
-/
import Zmax.Core.Proofs.Lines
import Zmax.Core.Unicode

namespace Zmax.Coords

structure Position where
  row : Nat
  col : Nat
  deriving DecidableEq, Repr

variable (U : Unicode) (unicodeLines : Bool)

def coordsAtPos (text : Rope) (pos : Nat) : Result Position := do
  let line ← charToLine unicodeLines text pos
  let lineStart ← lineToChar unicodeLines text line
  let pos ← ensureGraphemeBoundaryPrev U text pos
  let before ← slice text lineStart pos
  return ⟨line, (graphemes U before).length⟩

/-- The loop of `pos_at_coords` over the clusters of a line. -/
def colCharOffset (col : Nat) : List Tendril → (i offset : Nat) → Nat
  | [], _, offset => offset
  | g :: rest, i, offset =>
      if i = col then offset
      else colCharOffset col rest (i + 1) (offset + g.length)

attribute [grind =] colCharOffset

/-- The last row a cursor goes to: if the last line is empty, it does not
jump to it. -/
def lastRow (text : Rope) : Result Nat := do
  let lines ← checkedSub (lenLines unicodeLines text) 1
  if (getLineEnding unicodeLines text).isSome then checkedSub lines 1
  else return lines

def posAtCoords (text : Rope) (coords : Position)
    (limitBeforeLineEnding : Bool) : Result Nat := do
  let row ←
    if limitBeforeLineEnding then do
      let last ← lastRow unicodeLines text
      pure (min coords.row last)
    else pure coords.row
  let lineStart ← lineToChar unicodeLines text row
  let lineEnd ←
    if limitBeforeLineEnding then lineEndCharIndex unicodeLines text row
    else
      lineToChar unicodeLines text
        (min (row + 1) (lenLines unicodeLines text))
  let text ← slice text lineStart lineEnd
  return lineStart + colCharOffset coords.col (graphemes U text) 0 0

end Zmax.Coords

namespace Zmax

/-- What the program relies on of Unicode's segmentation: a boundary is
told by what is in front of it and the next char, what is in front of one
is not seen behind it, and a cluster ends with a line break. -/
structure Unicode.Segments (U : Unicode) : Prop where
  reading : Clusters.Lawful U.isGraphemeBoundary
  breaks : ∀ (u v : Rope) (c d : Char),
    (lineBreaks true).ends c (some d) = true →
      U.isGraphemeBoundary (u ++ c :: d :: v) (u.length + 1) = true

namespace Coords

open Lines

/-- A grapheme boundary of a text; its ends are. -/
def isBoundary (U : Unicode) (text : Rope) (p : Nat) : Bool :=
  p == 0 || p == text.length || U.isGraphemeBoundary text p

/-- The column-th boundary from `start` on, or `stop` when there are not
as many in front of it. -/
def nthBoundary (U : Unicode) (text : Rope) (start stop col : Nat) : Nat :=
  ((List.range' start (stop - start)).filter (isBoundary U text)).getD col
    stop

variable {U : Unicode} {unicodeLines : Bool} {text : Rope}

-- == boundaries

theorem ends_true {c d : Char}
    (h : (lineBreaks unicodeLines).ends c (some d) = true) :
    (lineBreaks true).ends c (some d) = true := by
  unfold Rule.ends at h ⊢
  rw [Bool.and_eq_true] at h ⊢
  refine ⟨?_, h.2⟩
  cases unicodeLines with
  | true => exact h.1
  | false =>
      have hc : (c == '\n') = true := by simpa [lineBreaks] using h.1
      show (c == '\n' || _) = true
      rw [hc, Bool.true_or]

/-- Lines start at boundaries. -/
theorem isBoundary_lineStart (hU : U.Segments) (l : Nat) :
    isBoundary U text (lineStart (lineBreaks unicodeLines) text l) := by
  unfold isBoundary
  by_cases h0 : 0 < lineStart (lineBreaks unicodeLines) text l
  · by_cases hlen :
        lineStart (lineBreaks unicodeLines) text l < text.length
    · obtain ⟨u, c, d, v, ht, hu, hends⟩ := ends_of_lineStart h0 hlen
      have hbreak := hU.breaks u v c d (ends_true hends)
      rw [← ht, hu] at hbreak
      rw [hbreak, Bool.or_true]
    · have heq : lineStart (lineBreaks unicodeLines) text l = text.length :=
        Nat.le_antisymm (lineStart_le _ _) (Nat.le_of_not_lt hlen)
      rw [heq, BEq.rfl, Bool.or_true, Bool.true_or]
  · rw [Nat.eq_zero_of_not_pos h0]
    rfl

/-- Behind a boundary a piece of a text has the boundaries of the text. -/
theorem isGraphemeBoundary_slice (hU : U.Segments) {start stop k : Nat}
    (hstart : isBoundary U text start) (hstop : stop ≤ text.length)
    (h0 : 0 < k) (hk : k < stop - start) :
    U.isGraphemeBoundary ((text.drop start).take (stop - start)) k =
      isBoundary U text (start + k) := by
  have hlen : (text.drop start).length = text.length - start :=
    List.length_drop
  have hpiece : U.isGraphemeBoundary
      ((text.drop start).take (stop - start)) k =
      U.isGraphemeBoundary (text.drop start) k := by
    have hahead := hU.reading.ahead ((text.drop start).take (stop - start))
      ((text.drop start).drop (stop - start)) k
      (by rw [List.length_take, hlen]; omega)
    rw [List.take_append_drop] at hahead
    exact hahead.symm
  have hwhole : U.isGraphemeBoundary (text.drop start) k =
      U.isGraphemeBoundary text (start + k) := by
    by_cases hs : start = 0
    · rw [hs, List.drop_zero, Nat.zero_add]
    · have htake : (text.take start).length = start := by
        rw [List.length_take]
        omega
      have hbd : U.isGraphemeBoundary text start = true := by
        unfold isBoundary at hstart
        simpa [hs, show start ≠ text.length by omega] using hstart
      have hrestart := hU.reading.restart (text.take start)
        (text.drop start) (by rw [List.take_append_drop, htake, hbd]) k h0
        (by rw [hlen]; omega)
      rw [List.take_append_drop, htake] at hrestart
      exact hrestart.symm
  unfold isBoundary
  rw [hpiece, hwhole, beq_eq_false_iff_ne.mpr (show start + k ≠ 0 by omega),
    beq_eq_false_iff_ne.mpr (show start + k ≠ text.length by omega),
    Bool.false_or, Bool.false_or]

/-- The clusters of a piece behind a boundary start at the boundaries of
the text. -/
theorem starts_slice (hU : U.Segments) {start stop : Nat}
    (hstart : isBoundary U text start) (hstop : stop ≤ text.length) :
    (Clusters.offsets (graphemes U
        ((text.drop start).take (stop - start)))).map (start + ·) =
      (List.range' start (stop - start)).filter (isBoundary U text) := by
  have hlen : ((text.drop start).take (stop - start)).length =
      stop - start := by
    rw [List.length_take, List.length_drop]
    omega
  unfold graphemes Clusters.clusters
  rw [Clusters.offsets_cut, Clusters.starts, hlen, List.range'_eq_map_range,
    List.filter_map]
  congr 1
  refine List.filter_congr fun k hk => ?_
  rw [List.mem_range] at hk
  rw [Function.comp_apply, Nat.zero_add]
  by_cases h0 : k = 0
  · rw [h0, BEq.rfl, Bool.true_or, Nat.add_zero, hstart]
  · rw [beq_eq_false_iff_ne.mpr h0, Bool.false_or,
      isGraphemeBoundary_slice hU hstart hstop (Nat.pos_of_ne_zero h0) hk]

-- == the functions

theorem colCharOffset_eq (col : Nat) (gs : List Tendril) (i offset : Nat)
    (h : i ≤ col) :
    colCharOffset col gs i offset =
      offset + (gs.take (col - i)).flatten.length := by
  induction gs generalizing i offset with
  | nil =>
      rw [List.take_nil]
      rfl
  | cons g gs ih =>
      rw [colCharOffset]
      split
      · next heq =>
          rw [heq, Nat.sub_self]
          rfl
      · next hne =>
          have hsub : col - i = (col - (i + 1)) + 1 := by omega
          rw [ih _ _ (by omega), hsub, List.take_succ_cons,
            List.flatten_cons, List.length_append, Nat.add_assoc]

/-- The loop ends at the boundary of its column. -/
theorem add_colCharOffset (hU : U.Segments) {start stop : Nat}
    (hstart : isBoundary U text start) (hle : start ≤ stop)
    (hstop : stop ≤ text.length) (col : Nat) :
    start + colCharOffset col
        (graphemes U ((text.drop start).take (stop - start))) 0 0 =
      nthBoundary U text start stop col := by
  have htotal : (graphemes U
      ((text.drop start).take (stop - start))).flatten.length =
      stop - start := by
    unfold graphemes Clusters.clusters
    rw [Clusters.flatten_cut, List.length_take, List.length_drop]
    omega
  unfold nthBoundary
  rw [colCharOffset_eq col _ 0 0 (Nat.zero_le _), Nat.zero_add, Nat.sub_zero,
    Clusters.length_flatten_take, htotal, ← starts_slice hU hstart hstop]
  refine (List.getD_map _ _ (start + ·)).symm.trans ?_
  rw [Nat.add_sub_cancel' hle]

/-- A boundary is named by the number of those of its line before it. -/
theorem nthBoundary_length {start stop p : Nat} (hp : isBoundary U text p)
    (hle : start ≤ p) (hstop : p ≤ stop) :
    nthBoundary U text start stop
      ((List.range' start (p - start)).filter (isBoundary U text)).length =
      p := by
  have hsplit : List.range' start (stop - start) =
      List.range' start (p - start) ++ List.range' p (stop - p) := by
    have happ := List.range'_append_1 (s := start) (m := p - start)
      (n := stop - p)
    rw [Nat.add_sub_cancel' hle] at happ
    rw [happ]
    congr 1
    omega
  unfold nthBoundary
  rw [hsplit, List.filter_append, List.getD_append_right _ _ _ _ le_rfl,
    Nat.sub_self]
  rcases Nat.lt_or_ge p stop with hlt | hge
  · obtain ⟨m, hm⟩ := Nat.exists_eq_add_of_lt hlt
    have hsucc : stop - p = m + 1 := by omega
    rw [hsucc, List.range'_succ, List.filter_cons, if_pos hp]
    rfl
  · rw [show stop - p = 0 by omega]
    show stop = p
    omega

theorem prevGraphemeBoundary_of_isBoundary {p : Nat} (hp : p ≤ text.length)
    (h : isBoundary U text p) :
    ensureGraphemeBoundaryPrev U text p = .ok p := by
  unfold ensureGraphemeBoundaryPrev
  split
  · rfl
  · next hne =>
      unfold prevGraphemeBoundary
      rw [if_pos (by omega), List.range_succ, List.reverse_concat,
        List.find?_cons]
      unfold isBoundary at h
      rw [beq_eq_false_iff_ne.mpr hne, Bool.or_false, Bool.or_eq_true] at h
      rcases h with h | h
      · rw [eq_of_beq h]
        cases U.isGraphemeBoundary text 0 <;> rfl
      · rw [h]
        rfl

/-- The column of a boundary is the number of those in front of it. -/
theorem coordsAtPos_eq (hU : U.Segments) {p : Nat} (hp : p ≤ text.length)
    (h : isBoundary U text p) :
    coordsAtPos U unicodeLines text p =
      .ok ⟨lineAt (lineBreaks unicodeLines) text p,
        ((List.range' (lineStart (lineBreaks unicodeLines) text
            (lineAt (lineBreaks unicodeLines) text p))
          (p - lineStart (lineBreaks unicodeLines) text
            (lineAt (lineBreaks unicodeLines) text p))).filter
              (isBoundary U text)).length⟩ := by
  have hle : lineAt (lineBreaks unicodeLines) text p ≤
      lenLines unicodeLines text :=
    (lineAt_lt p).le
  have hstart : isBoundary U text (lineStart (lineBreaks unicodeLines) text
      (lineAt (lineBreaks unicodeLines) text p)) :=
    isBoundary_lineStart hU _
  unfold coordsAtPos
  rw [charToLine_ok hp, ok_bind, lineToChar_ok hle, ok_bind,
    prevGraphemeBoundary_of_isBoundary hp h, ok_bind,
    slice_of_le (lineStart_lineAt_le p) hp, ok_bind,
    ← starts_slice hU hstart hp, List.length_map, Clusters.length_offsets]
  rfl

-- == rows

/-- A text ends in a line ending when its last char is a break. -/
theorem isSome_getLineEnding :
    (getLineEnding unicodeLines text).isSome =
      text.getLast?.any (lineBreaks unicodeLines).breaks := by
  have hending : (getLineEnding unicodeLines text).isSome =
      !(endingOf unicodeLines text).isEmpty := by
    unfold endingOf
    cases getLineEnding unicodeLines text with
    | none => rfl
    | some le => cases le <;> rfl
  rw [hending]
  clear hending
  induction text with
  | nil =>
      rw [endingOf_nil]
      rfl
  | cons c rest ih =>
      cases rest with
      | nil =>
          rw [endingOf_singleton]
          show _ = (lineBreaks unicodeLines).breaks c
          cases (lineBreaks unicodeLines).breaks c <;> rfl
      | cons d rest =>
          cases rest with
          | nil =>
              rw [endingOf_pair, List.getLast?_cons_cons]
              split
              · next hpair =>
                  exact ((lineBreaks unicodeLines).breaks_snd hpair).symm
              · exact ih
          | cons e rest =>
              rw [endingOf_cons, List.getLast?_cons_cons]
              exact ih

/-- The last char of a text ends a line when it is a break. -/
theorem lineAt_length (c : Char) :
    lineAt (lineBreaks unicodeLines) (text ++ [c]) (text.length + 1) =
      lineAt (lineBreaks unicodeLines) (text ++ [c]) text.length +
        if (lineBreaks unicodeLines).breaks c then 1 else 0 := by
  induction text with
  | nil =>
      show (if (lineBreaks unicodeLines).ends c none then 1 else 0) + 0 = _
      rw [Rule.ends, Option.any_none, Bool.not_false, Bool.and_true]
      exact Nat.add_comm _ _
  | cons a rest ih =>
      rw [List.cons_append, List.length_cons, lineAt, lineAt, ih]
      omega

/-- The last line, or the one before it where the last line is empty. -/
def finalRow (unicodeLines : Bool) (text : Rope) : Nat :=
  if lineStart (lineBreaks unicodeLines) text
        (lenLines unicodeLines text - 1) = text.length ∧
      1 < lenLines unicodeLines text then
    lenLines unicodeLines text - 2
  else lenLines unicodeLines text - 1

theorem lastRow_eq (unicodeLines : Bool) (text : Rope) :
    lastRow unicodeLines text = .ok (finalRow unicodeLines text) := by
  rcases List.eq_nil_or_concat text with rfl | ⟨init, c, htext⟩
  · cases unicodeLines <;> rfl
  · rw [List.concat_eq_append] at htext
    subst htext
    have hlen : (init ++ [c]).length = init.length + 1 := by simp
    have hcount : lenLines unicodeLines (init ++ [c]) - 1 =
        lineAt (lineBreaks unicodeLines) (init ++ [c]) init.length +
          if (lineBreaks unicodeLines).breaks c then 1 else 0 := by
      rw [← lineAt_length, ← hlen]
      rfl
    have hle := le_lineAt (r := lineBreaks unicodeLines) (t := init ++ [c])
      (l := lenLines unicodeLines (init ++ [c]) - 1) init.length le_rfl
    have hbound := lineStart_le (r := lineBreaks unicodeLines)
      (init ++ [c]) (lenLines unicodeLines (init ++ [c]) - 1)
    have hpos : 1 ≤ lenLines unicodeLines (init ++ [c]) :=
      Nat.succ_le_succ (Nat.zero_le _)
    unfold lastRow finalRow
    rw [checkedSub_of_le hpos, ok_bind,
      isSome_getLineEnding, List.getLast?_concat, Option.any_some]
    cases hb : (lineBreaks unicodeLines).breaks c with
    | true =>
        rw [hb, if_pos rfl] at hcount
        rw [if_pos rfl, if_pos ⟨by omega, by omega⟩,
          checkedSub_of_le (by omega)]
        rfl
    | false =>
        rw [hb, if_neg Bool.false_ne_true] at hcount
        rw [if_neg Bool.false_ne_true, if_neg fun h => by omega]
        rfl

theorem finalRow_lt (unicodeLines : Bool) (text : Rope) :
    finalRow unicodeLines text < lenLines unicodeLines text := by
  have hpos : 0 < lenLines unicodeLines text := Nat.succ_pos _
  unfold finalRow
  split <;> omega

/-- With the limit the row is cut at the last one that is not empty, and
the column at the line's end, before its break. -/
theorem posAtCoords_limit (hU : U.Segments) (row col : Nat) :
    posAtCoords U unicodeLines text ⟨row, col⟩ true =
      .ok (nthBoundary U text
        (lineStart (lineBreaks unicodeLines) text
          (min row (finalRow unicodeLines text)))
        (lineEnd (lineBreaks unicodeLines) text
          (min row (finalRow unicodeLines text))) col) := by
  have hrow : min row (finalRow unicodeLines text) <
      lenLines unicodeLines text :=
    Nat.lt_of_le_of_lt (Nat.min_le_right _ _) (finalRow_lt _ _)
  have hends := lineStart_le_lineEnd hrow
  have hstop := lineEnd_le (r := lineBreaks unicodeLines) text
    (min row (finalRow unicodeLines text))
  unfold posAtCoords
  simp only [if_true, lastRow_eq, ok_bind]
  show (lineToChar unicodeLines text (min row (finalRow unicodeLines text))
    >>= _) = _
  rw [lineToChar_ok hrow.le, ok_bind, lineEndCharIndex_ok hrow, ok_bind,
    slice_of_le hends hstop, ok_bind,
    ← add_colCharOffset hU (isBoundary_lineStart hU _) hends hstop]
  rfl

/-- Without, the row is one of the text or the one past it, and the
column is cut where the next line starts. -/
theorem posAtCoords_row (hU : U.Segments) {row : Nat}
    (hrow : row ≤ lenLines unicodeLines text) (col : Nat) :
    posAtCoords U unicodeLines text ⟨row, col⟩ false =
      .ok (nthBoundary U text
        (lineStart (lineBreaks unicodeLines) text row)
        (lineStart (lineBreaks unicodeLines) text
          (min (row + 1) (lenLines unicodeLines text))) col) := by
  have hends : lineStart (lineBreaks unicodeLines) text row ≤
      lineStart (lineBreaks unicodeLines) text
        (min (row + 1) (lenLines unicodeLines text)) :=
    lineStart_mono (Nat.le_min.mpr ⟨Nat.le_succ row, hrow⟩)
  have hstop := lineStart_le (r := lineBreaks unicodeLines) text
    (min (row + 1) (lenLines unicodeLines text))
  unfold posAtCoords
  simp only [Bool.false_eq_true, if_false]
  show (lineToChar unicodeLines text row >>= _) = _
  rw [lineToChar_ok hrow, ok_bind, lineToChar_ok (Nat.min_le_right _ _),
    ok_bind, slice_of_le hends hstop, ok_bind,
    ← add_colCharOffset hU (isBoundary_lineStart hU _) hends hstop]
  rfl

/-- A position that is a boundary is found again from its coordinates. With
the limit every row and column names a boundary in front of its line's
break, where a row stops at the last line that is not empty. Without it a
line's boundaries go up to the next line, and the row past the last one is
the end of the text. -/
theorem coords_law (hU : U.Segments) (unicodeLines : Bool) (text : Rope) :
    (∀ p ≤ text.length, isBoundary U text p →
      ∃ coords, coordsAtPos U unicodeLines text p = .ok coords ∧
        posAtCoords U unicodeLines text coords false = .ok p) ∧
    (∀ row col, posAtCoords U unicodeLines text ⟨row, col⟩ true =
      .ok (nthBoundary U text
        (lineStart (lineBreaks unicodeLines) text
          (min row (finalRow unicodeLines text)))
        (lineEnd (lineBreaks unicodeLines) text
          (min row (finalRow unicodeLines text))) col)) ∧
    (∀ row < lenLines unicodeLines text, ∀ col,
      posAtCoords U unicodeLines text ⟨row, col⟩ false =
        .ok (nthBoundary U text
          (lineStart (lineBreaks unicodeLines) text row)
          (lineStart (lineBreaks unicodeLines) text (row + 1)) col)) ∧
    ∀ col, posAtCoords U unicodeLines text
      ⟨lenLines unicodeLines text, col⟩ false = .ok text.length := by
  refine ⟨fun p hp h => ?_, fun row col => posAtCoords_limit hU row col,
    fun row hrow col => ?_, fun col => ?_⟩
  · have hline : lineAt (lineBreaks unicodeLines) text p <
        lenLines unicodeLines text :=
      lineAt_lt p
    have hstop : p ≤ lineStart (lineBreaks unicodeLines) text
        (lineAt (lineBreaks unicodeLines) text p + 1) := by
      by_cases hlast : lineAt (lineBreaks unicodeLines) text p + 1 =
          lenLines unicodeLines text
      · rw [hlast]
        exact hp.trans (lineStart_lineCount text).ge
      · have hnext := le_lineAt (r := lineBreaks unicodeLines) (t := text)
          (l := lineAt (lineBreaks unicodeLines) text p + 1) p
          (Nat.le_of_lt_succ (Nat.lt_of_le_of_ne hline hlast))
        omega
    refine ⟨_, coordsAtPos_eq hU hp h, ?_⟩
    rw [posAtCoords_row hU hline.le, Nat.min_eq_left hline,
      nthBoundary_length h (lineStart_lineAt_le p) hstop]
  · rw [posAtCoords_row hU hrow.le, Nat.min_eq_left hrow]
  · rw [posAtCoords_row hU le_rfl, Nat.min_eq_right (Nat.le_succ _),
      lenLines, lineStart_lineCount, nthBoundary, Nat.sub_self]
    rfl

theorem segments_ascii : Unicode.ascii.Segments :=
  ⟨⟨fun _ _ _ _ => rfl, fun _ _ _ _ _ _ => rfl⟩, fun _ _ _ _ _ => rfl⟩

theorem coords_law_two :
    ∃ coords, coordsAtPos .ascii false "ab\ncd\n".toList 4 = .ok coords ∧
      posAtCoords .ascii false "ab\ncd\n".toList coords false = .ok 4 :=
  (coords_law segments_ascii false "ab\ncd\n".toList).1 4 (by decide)
    (by decide)

/-- A cursor does not jump to an empty last line, and without the limit a
row past the one after the last is out of bounds. -/
theorem not_coords_law :
    posAtCoords .ascii false ['a', '\n'] ⟨1, 0⟩ true ≠
      .ok (nthBoundary .ascii ['a', '\n']
        (lineStart (lineBreaks false) ['a', '\n'] 1)
        (lineEnd (lineBreaks false) ['a', '\n'] 1) 0) ∧
    posAtCoords .ascii false ['a'] ⟨3, 0⟩ false = .error .outOfBounds := by
  decide

end Coords

end Zmax
