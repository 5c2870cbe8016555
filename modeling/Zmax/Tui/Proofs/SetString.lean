/-
Where truncated text is printed.

Forward the cells that are written are one run from the start cell on, so the
text stays where it is asked for exactly if that run is not too long
(`confined_iff`). From the end of the text back nothing is written outside, so
there it is a matter of where the loop begins and how far a grapheme reaches
(`putEnd_confined`).
-/
import Zmax.Tui.Proofs.BufferMerge
import Zmax.Tui.Proofs.Printing

namespace Zmax.Buffer

variable {σ : Type}

-- == the region

section Region

variable {area : Rect} {x y : U16} {width : Nat}

/-- `area.right()` -/
def rightEdge (area : Rect) : Nat := (area.x.saturatingAdd area.width).val

/-- How many cells are in front of one. -/
def startCell (area : Rect) (x y : U16) : Nat :=
  (y.val - area.y.val) * area.width.val + (x.val - area.x.val)

/-- A cell in another row, or in front of the column `x`, or behind `width`
columns, or behind the right edge. -/
def Outside (area : Rect) (x y : U16) (width i : Nat) : Prop :=
  i / area.width.val ≠ y.val - area.y.val ∨
    i % area.width.val < x.val - area.x.val ∨
    min (x.val + width) (rightEdge area) ≤ area.x.val + i % area.width.val

/-- The run does not panic, and keeps all cells outside of where it is to
print. -/
def Confined (self : Buffer σ) (x y : U16) (width : Nat)
    (run : Result (Buffer σ × U16 × U16)) : Prop :=
  ∃ out pos, run = .ok (out, pos) ∧ out.area = self.area ∧
    out.content.length = self.content.length ∧
    ∀ i, Outside self.area x y width i →
      out.content[i]? = self.content[i]?

/-- A start cell in the area. -/
structure StartsIn (area : Rect) (x y : U16) : Prop where
  left : area.x.val ≤ x.val
  right : x.val < rightEdge area
  top : area.y.val ≤ y.val
  bottom : y.val < (area.y.saturatingAdd area.height).val

variable {self : Buffer σ} {content : List (Cell σ)} {style : Nat → σ → σ}
  {ellipsis : Bool} {room : Nat}

theorem inBounds_iff : self.inBounds x y = true ↔ StartsIn self.area x y := by
  unfold inBounds
  rw [decide_eq_true_iff]
  exact ⟨fun ⟨hleft, hright, htop, hbottom⟩ => ⟨hleft, hright, htop, hbottom⟩,
    fun h => ⟨h.left, h.right, h.top, h.bottom⟩⟩

theorem rightEdge_le (area : Rect) :
    rightEdge area ≤ area.x.val + area.width.val := Nat.min_le_left _ _

/-- The row of the start cell is in the area up to the right edge. -/
theorem StartsIn.row_le (h : StartsIn area x y) :
    startCell area x y + (rightEdge area - x.val) ≤ area.area := by
  have hright := rightEdge_le area
  have hbottom : (area.y.saturatingAdd area.height).val ≤
      area.y.val + area.height.val := Nat.min_le_left _ _
  have hleft := h.left
  have hlt := h.right
  have htop := h.top
  have hrow : y.val - area.y.val + 1 ≤ area.height.val := by
    have hlt' := h.bottom
    omega
  have hmul := Nat.mul_le_mul_right area.width.val hrow
  rw [Nat.add_mul, Nat.one_mul] at hmul
  unfold startCell Rect.area
  rw [Nat.mul_comm area.width.val]
  generalize (y.val - area.y.val) * area.width.val = before at *
  omega

theorem StartsIn.outside_iff (h : StartsIn area x y) {i : Nat} :
    Outside area x y width i ↔ i < startCell area x y ∨
      startCell area x y + min width (rightEdge area - x.val) ≤ i := by
  have hright := rightEdge_le area
  have hleft := h.left
  have hlt := h.right
  have hpos : 0 < area.width.val := by omega
  have hdiv := Nat.div_add_mod i area.width.val
  have hmod := Nat.mod_lt i hpos
  unfold Outside startCell
  generalize i / area.width.val = row at *
  generalize i % area.width.val = col at *
  generalize y.val - area.y.val = row' at *
  rw [Nat.mul_comm area.width.val] at hdiv
  rcases Nat.lt_trichotomy row row' with hrow | rfl | hrow
  · have hmul := Nat.mul_le_mul_right area.width.val (show row + 1 ≤ row' from
      hrow)
    rw [Nat.add_mul, Nat.one_mul] at hmul
    generalize row * area.width.val = before at *
    generalize row' * area.width.val = before' at *
    omega
  · generalize row * area.width.val = before at *
    omega
  · have hmul := Nat.mul_le_mul_right area.width.val (show row' + 1 ≤ row from
      hrow)
    rw [Nat.add_mul, Nat.one_mul] at hmul
    generalize row * area.width.val = before at *
    generalize row' * area.width.val = before' at *
    omega

theorem indexOf_ok (h : StartsIn self.area x y) :
    self.indexOf x y = .ok (startCell self.area x y) := by
  unfold indexOf
  rw [inBounds_iff.mpr h, U16.checkedSub_of_le h.top,
    U16.checkedSub_of_le h.left]
  rfl

theorem indexOf_error (h : ¬StartsIn self.area x y) :
    ∃ panic, self.indexOf x y = .error panic := by
  have hout : self.inBounds x y = false :=
    Bool.eq_false_iff.mpr fun hin => h (inBounds_iff.mp hin)
  unfold indexOf
  rw [hout]
  exact ⟨_, rfl⟩

/-- Writes in the run's cells are confined. -/
theorem StartsIn.confined (h : StartsIn area x y) {out : Buffer σ}
    {pos : U16 × U16} {run : Result (Buffer σ × U16 × U16)}
    (hrun : run = .ok (out, pos)) (harea : out.area = area) {lo hi : Nat}
    (hlo : startCell area x y ≤ lo)
    (hhi : hi ≤ startCell area x y + min width (rightEdge area - x.val))
    (hkept : Kept lo hi content out.content) :
    Confined ⟨area, content⟩ x y width run := by
  refine ⟨out, pos, hrun, harea, hkept.length, fun i hi' => ?_⟩
  have hcases := h.outside_iff.mp hi'
  exact hkept.outside i (by omega)

/-- A run that is painted from the start cell on is confined in every buffer
exactly if it is not too long. -/
theorem StartsIn.confined_iff [Inhabited σ] (h : StartsIn area x y)
    {n : Nat} (run : Buffer σ → Result (Buffer σ × U16 × U16))
    (hok : ∀ content : List (Cell σ), content.length = area.area →
      startCell area x y + n ≤ area.area → ∃ r, run ⟨area, content⟩ = .ok r)
    (hpainted : ∀ content : List (Cell σ), ∀ out pos,
      run ⟨area, content⟩ = .ok (out, pos) → out.area = area ∧
        Painted (startCell area x y) (startCell area x y + n) content
          out.content) :
    (∀ content : List (Cell σ), content.length = area.area →
      Confined ⟨area, content⟩ x y width (run ⟨area, content⟩)) ↔
      n ≤ min width (rightEdge area - x.val) := by
  constructor
  · intro hall
    -- In a buffer where no cell shows anything each write shows.
    have hlen : (List.replicate area.area (⟨"", 0, default⟩ : Cell σ)).length =
        area.area := List.length_replicate
    obtain ⟨out, pos, hrun, -, -, houtside⟩ := hall _ hlen
    obtain ⟨-, hpaint⟩ := hpainted _ out pos hrun
    by_contra hlt
    have hn : 0 < n := by omega
    have hle := hpaint.le_length (by omega)
    rw [hlen] at hle
    let i := startCell area x y + min width (rightEdge area - x.val)
    obtain ⟨cell, hcell, hshown⟩ := hpaint.inside i
      (Nat.le_add_right _ _) (by show _ + _ < _; omega)
    have hsame := houtside i (h.outside_iff.mpr (.inr (Nat.le_refl i)))
    rw [hcell] at hsame
    have hmem := List.mem_of_getElem? hsame.symm
    rw [List.eq_of_mem_replicate hmem] at hshown
    exact hshown rfl
  · intro hn content hlen
    have hrow := h.row_le
    obtain ⟨⟨out, pos⟩, hrun⟩ := hok content hlen (by omega)
    obtain ⟨harea, hpaint⟩ := hpainted content out pos hrun
    exact h.confined hrun harea (Nat.le_refl _) (by omega) hpaint.toKept

-- == the functions

variable [Inhabited σ] {G : Segmenter} {string : List Char}

theorem map_snd_indicesFrom (offset : Nat) (gs : List (List Char)) :
    (indicesFrom offset gs).map Prod.snd = gs := by
  induction gs generalizing offset with
  | nil => rfl
  | cons g gs ih => rw [indicesFrom, List.map_cons, ih]

theorem map_snd_graphemeIndices :
    (G.graphemeIndices string).map Prod.snd = G.graphemes string :=
  map_snd_indicesFrom 0 _

theorem widths_graphemeIndices :
    widths G (G.graphemeIndices string) =
      (G.graphemes string).map G.width := by
  rw [← map_snd_graphemeIndices, List.map_map]
  rfl

theorem graphemeIndices_ne_nil (hG : G.Lawful) (string : List Char) :
    ∀ g ∈ G.graphemeIndices string, g.2 ≠ [] := by
  intro g hg
  refine hG.ne_nil string g.2 ?_
  rw [← map_snd_graphemeIndices]
  exact List.mem_map_of_mem hg

/-- The width of the first cluster. -/
def firstWidth (G : Segmenter) (string : List Char) : Nat :=
  ((G.graphemes string).head?.map G.width).getD 0

theorem firstWidth_eq : ((G.graphemeIndices string).head?.map
    fun g => G.width g.2).getD 0 = firstWidth G string := by
  rw [firstWidth, ← map_snd_graphemeIndices, List.head?_map, Option.map_map]
  rfl

/-- The clusters that `set_string_anchored` goes through. -/
def anchoredTail (G : Segmenter) (truncateStart : Bool) (string : List Char) :
    List (Nat × List Char) :=
  if truncateStart then (G.graphemeIndices string).tail
  else G.graphemeIndices string

/-- How many cells it marks first. -/
def markedWidth (G : Segmenter) (truncateStart : Bool) (string : List Char) :
    Nat :=
  if truncateStart then firstWidth G string else 0

theorem anchoredTail_ne_nil (hG : G.Lawful) (truncateStart : Bool) :
    ∀ g ∈ anchoredTail G truncateStart string, g.2 ≠ [] := by
  intro g hg
  refine graphemeIndices_ne_nil hG string g ?_
  unfold anchoredTail at hg
  split at hg
  · exact List.mem_of_mem_tail hg
  · exact hg

/-- The first cluster, which an ellipsis stands for, and the others. -/
theorem markedWidth_add_sum (hG : G.Lawful) (string : List Char)
    (truncateStart : Bool) :
    markedWidth G truncateStart string +
      (widths G (anchoredTail G truncateStart string)).sum =
        G.width string := by
  rw [hG.width_eq, ← widths_graphemeIndices, markedWidth, anchoredTail]
  cases truncateStart with
  | false => exact Nat.zero_add _
  | true =>
      rw [if_pos rfl, if_pos rfl, ← firstWidth_eq]
      cases G.graphemeIndices string with
      | nil => rfl
      | cons g gs => exact List.sum_cons.symm

/-- How many cells `set_string_anchored` writes. -/
def anchoredLength (G : Segmenter) (truncateStart truncateEnd : Bool)
    (string : List Char) (width : Nat) : Nat :=
  if truncateEnd then max (markedWidth G truncateStart string) width
  else G.width string

omit [Inhabited σ] in
/-- The functions go on if the start cell is in the area and there is a
width. -/
theorem goes_on (h : StartsIn area x y) (hwidth : width ≠ 0)
    (content : List (Cell σ)) :
    ¬((!(⟨area, content⟩ : Buffer σ).inBounds x y) = true ∨ width = 0) := by
  have hin : (⟨area, content⟩ : Buffer σ).inBounds x y = true :=
    inBounds_iff.mpr h
  rw [hin]
  simp [hwidth]

/-- `set_string_anchored`, past its guard. -/
theorem setStringAnchored_eq (h : StartsIn area x y) (hwidth : width ≠ 0)
    (truncateStart truncateEnd : Bool) (style : Nat → σ → σ)
    (content : List (Cell σ)) :
    setStringAnchored G ⟨area, content⟩ x y truncateStart truncateEnd string
      width style = (do
        let content ← putEllipsis G (markedWidth G truncateStart string)
          (startCell area x y) content
        let (content, i, rendered) ← anchoredLoop G truncateEnd width style
          (anchoredTail G truncateStart string)
          (startCell area x y + markedWidth G truncateStart string)
          (markedWidth G truncateStart string) content
        let content ← putEllipsis G
          (if truncateEnd then width - rendered else 0) i content
        return (⟨area, content⟩, x, y)) := by
  have hindex : (⟨area, content⟩ : Buffer σ).indexOf x y =
      .ok (startCell area x y) := indexOf_ok h
  unfold setStringAnchored
  rw [if_neg (goes_on h hwidth content), hindex, ok_bind]
  simp only [firstWidth_eq]
  rfl

theorem setStringAnchored_painted (hG : G.Lawful) (h : StartsIn area x y)
    (hwidth : width ≠ 0) {truncateStart truncateEnd : Bool}
    (content : List (Cell σ)) (out : Buffer σ) (pos : U16 × U16)
    (hrun : setStringAnchored G ⟨area, content⟩ x y truncateStart truncateEnd
      string width style = .ok (out, pos)) :
    out.area = area ∧ Painted (startCell area x y) (startCell area x y +
      anchoredLength G truncateStart truncateEnd string width) content
        out.content := by
  have hsum := markedWidth_add_sum hG string truncateStart
  rw [setStringAnchored_eq h hwidth] at hrun
  obtain ⟨marked, hmarked, hrun⟩ := bind_eq_ok.mp hrun
  obtain ⟨⟨printed, i, rendered⟩, hloop, hrun⟩ := bind_eq_ok.mp hrun
  obtain ⟨filled, hfill, hrun⟩ := bind_eq_ok.mp hrun
  cases hrun
  obtain ⟨hle, hi, hprinted, hend, hall⟩ :=
    anchoredLoop_painted (anchoredTail_ne_nil hG truncateStart) hloop
  have hpaint := ((putEllipsis_painted hmarked).trans hprinted (by omega)
    (by omega)).trans (putEllipsis_painted hfill) (by omega) (by omega)
  have hlength : i + (if truncateEnd then width - rendered else 0) =
      startCell area x y +
        anchoredLength G truncateStart truncateEnd string width := by
    unfold anchoredLength
    cases truncateEnd with
    | false =>
        have hrendered := hall rfl
        simp only [Bool.false_eq_true, if_false]
        omega
    | true =>
        simp only [if_true]
        rcases hend rfl with heq | hlt
        · omega
        · omega
  rw [hlength] at hpaint
  exact ⟨rfl, hpaint⟩

theorem setStringAnchored_ok (hG : G.Lawful) (h : StartsIn area x y)
    (hwidth : width ≠ 0) {truncateStart truncateEnd : Bool}
    (content : List (Cell σ)) (hlen : content.length = area.area)
    (hroom : startCell area x y +
      anchoredLength G truncateStart truncateEnd string width ≤ area.area) :
    ∃ r, setStringAnchored G ⟨area, content⟩ x y truncateStart truncateEnd
      string width style = .ok r := by
  have hsum := markedWidth_add_sum hG string truncateStart
  have hmark : startCell area x y + markedWidth G truncateStart string ≤
      content.length := by
    unfold anchoredLength at hroom
    split at hroom
    · omega
    · omega
  obtain ⟨marked, hmarked, hmlen⟩ := putEllipsis_ok (G := G) (.inr hmark)
  have hloop : ∃ r, anchoredLoop G truncateEnd width style
      (anchoredTail G truncateStart string)
      (startCell area x y + markedWidth G truncateStart string)
      (markedWidth G truncateStart string) marked = .ok r := by
    refine anchoredLoop_ok ?_
    rw [hmlen]
    unfold anchoredLength at hroom
    split
    · rename_i htrue
      rw [if_pos htrue] at hroom
      omega
    · rename_i hfalse
      rw [if_neg hfalse] at hroom
      omega
  obtain ⟨⟨printed, i, rendered⟩, hloop⟩ := hloop
  obtain ⟨hle, hi, hprinted, hend, -⟩ :=
    anchoredLoop_painted (anchoredTail_ne_nil hG truncateStart) hloop
  have hplen := hprinted.length
  have hfill : (if truncateEnd then width - rendered else 0) = 0 ∨
      i + (if truncateEnd then width - rendered else 0) ≤ printed.length := by
    unfold anchoredLength at hroom
    split
    · rename_i htrue
      rw [if_pos htrue] at hroom
      rcases hend htrue with heq | hlt
      · omega
      · omega
    · exact .inl rfl
  obtain ⟨filled, hfilled, -⟩ := putEllipsis_ok (G := G) hfill
  rw [setStringAnchored_eq h hwidth, hmarked, ok_bind, hloop, ok_bind]
  dsimp only
  rw [hfilled]
  exact ⟨_, rfl⟩

-- ------------------------------------------------------------------- forward

/-- How many columns `set_string_truncated` can fill with graphemes. -/
def forwardRoom (area : Rect) (x : U16) (width : Nat) (ellipsis : Bool) : Nat :=
  min (rightEdge area - x.val) (if ellipsis then width - 1 else width)

/-- How many it fills. -/
def forwardFill (G : Segmenter) (area : Rect) (x : U16) (string : List Char)
    (width : Nat) (ellipsis : Bool) : Nat :=
  fill (forwardRoom area x width ellipsis)
    ((G.graphemes string).map G.width)

/-- How many cells it writes. -/
def forwardLength (G : Segmenter) (area : Rect) (x : U16)
    (string : List Char) (width : Nat) (ellipsis : Bool) : Nat :=
  forwardFill G area x string width ellipsis +
    if ellipsis ∧ forwardFill G area x string width ellipsis < G.width string
      then 1 else 0

/-- `set_string_truncated`, past its guard, at the end of the text. -/
theorem setStringTruncated_eq (h : StartsIn area x y) (hwidth : width ≠ 0)
    (style : Nat → σ → σ) (ellipsis : Bool) (content : List (Cell σ)) :
    setStringTruncated G ⟨area, content⟩ x y string width style ellipsis
      false = (do
        let (content, i, xOffset) ← forwardLoop G (min (rightEdge area)
          ((if ellipsis then width - 1 else width) + x.val)) style
          (G.graphemeIndices string) (startCell area x y) x.val content
        let content ← putEllipsis G
          (if ellipsis ∧ xOffset - x.val < G.width string then 1 else 0) i
          content
        return (⟨area, content⟩, U16.ofUsize xOffset, y)) := by
  have hindex : (⟨area, content⟩ : Buffer σ).indexOf x y =
      .ok (startCell area x y) := indexOf_ok h
  unfold setStringTruncated
  rw [if_neg (goes_on h hwidth content)]
  simp only [Bool.false_eq_true, if_false, hindex, ok_bind]
  rfl

theorem forwardRoom_eq (h : StartsIn area x y) (width : Nat)
    (ellipsis : Bool) : min (rightEdge area)
      ((if ellipsis then width - 1 else width) + x.val) - x.val =
        forwardRoom area x width ellipsis := by
  have hright := h.right
  unfold forwardRoom
  omega

theorem setStringTruncated_painted (hG : G.Lawful) (h : StartsIn area x y)
    (hwidth : width ≠ 0) (content : List (Cell σ)) (out : Buffer σ)
    (pos : U16 × U16)
    (hrun : setStringTruncated G ⟨area, content⟩ x y string width style
      ellipsis false = .ok (out, pos)) :
    out.area = area ∧ Painted (startCell area x y) (startCell area x y +
      forwardLength G area x string width ellipsis) content out.content := by
  rw [setStringTruncated_eq h hwidth] at hrun
  obtain ⟨⟨printed, i, xOffset⟩, hloop, hrun⟩ := bind_eq_ok.mp hrun
  obtain ⟨filled, hfill, hrun⟩ := bind_eq_ok.mp hrun
  cases hrun
  obtain ⟨hi, hx, hprinted⟩ :=
    forwardLoop_painted (graphemeIndices_ne_nil hG string) hloop
  rw [forwardRoom_eq h, widths_graphemeIndices, ← forwardFill] at hi hx
  have hpaint := hprinted.trans (putEllipsis_painted hfill) (by omega)
    (by omega)
  rw [hx, Nat.add_sub_cancel_left, hi, Nat.add_assoc, ← forwardLength]
    at hpaint
  exact ⟨rfl, hpaint⟩

theorem setStringTruncated_ok (hG : G.Lawful) (h : StartsIn area x y)
    (hwidth : width ≠ 0) (content : List (Cell σ))
    (hlen : content.length = area.area)
    (hroom : startCell area x y +
      forwardLength G area x string width ellipsis ≤ area.area) :
    ∃ r, setStringTruncated G ⟨area, content⟩ x y string width style ellipsis
      false = .ok r := by
  have hrow := h.row_le
  have hloop : ∃ r, forwardLoop G (min (rightEdge area)
      ((if ellipsis then width - 1 else width) + x.val)) style
      (G.graphemeIndices string) (startCell area x y) x.val content =
        .ok r := by
    refine forwardLoop_ok ?_
    rw [forwardRoom_eq h, hlen]
    unfold forwardRoom
    omega
  obtain ⟨⟨printed, i, xOffset⟩, hloop⟩ := hloop
  obtain ⟨hi, hx, hprinted⟩ :=
    forwardLoop_painted (graphemeIndices_ne_nil hG string) hloop
  rw [forwardRoom_eq h, widths_graphemeIndices, ← forwardFill] at hi hx
  have hfill : (if ellipsis ∧ xOffset - x.val < G.width string then 1
      else 0) = 0 ∨ i + (if ellipsis ∧ xOffset - x.val < G.width string
        then 1 else 0) ≤ printed.length := by
    rw [hx, Nat.add_sub_cancel_left, hi, Nat.add_assoc, ← forwardLength,
      hprinted.length, hlen]
    exact .inr hroom
  obtain ⟨filled, hfilled, -⟩ := putEllipsis_ok (G := G) hfill
  rw [setStringTruncated_eq h hwidth, hloop, ok_bind]
  dsimp only
  rw [hfilled]
  exact ⟨_, rfl⟩

/-- The row is not filled exactly up to the edge by some of the graphemes,
where an ellipsis is asked for and more follows. -/
def ForwardFits (G : Segmenter) (area : Rect) (x : U16) (string : List Char)
    (width : Nat) (ellipsis : Bool) : Prop :=
  ellipsis = true → rightEdge area < x.val + width →
    rightEdge area - x.val < G.width string →
    ∀ shown rest, G.graphemes string = shown ++ rest →
      (shown.map G.width).sum ≠ rightEdge area - x.val

/-- The room is filled if some of the graphemes fill it exactly. -/
theorem forwardFill_eq_iff :
    forwardFill G area x string width ellipsis =
        forwardRoom area x width ellipsis ↔
      ∃ shown rest, G.graphemes string = shown ++ rest ∧
        (shown.map G.width).sum = forwardRoom area x width ellipsis := by
  rw [forwardFill, fill_eq_iff]
  constructor
  · rintro ⟨shown, rest, heq, hsum⟩
    obtain ⟨gs, gs', hgs, rfl, rfl⟩ := List.map_eq_append_iff.mp heq
    exact ⟨gs, gs', hgs, hsum⟩
  · rintro ⟨shown, rest, heq, hsum⟩
    exact ⟨shown.map G.width, rest.map G.width,
      by rw [heq, List.map_append], hsum⟩

theorem forwardLength_le_iff (h : StartsIn area x y) (hwidth : width ≠ 0)
    (ellipsis : Bool) :
    forwardLength G area x string width ellipsis ≤
        min width (rightEdge area - x.val) ↔
      ForwardFits G area x string width ellipsis := by
  have hright := h.right
  have hle : forwardFill G area x string width ellipsis ≤
      forwardRoom area x width ellipsis := fill_le _ _
  unfold forwardLength ForwardFits
  cases ellipsis with
  | false =>
      simp only [Bool.false_eq_true, false_and, if_false, false_implies,
        iff_true]
      unfold forwardRoom at hle
      simp only [Bool.false_eq_true, if_false] at hle
      omega
  | true =>
      have hroom : forwardRoom area x width true =
          min (rightEdge area - x.val) (width - 1) := rfl
      simp only [true_and, true_implies]
      constructor
      · intro hlen hbeyond hmore shown rest heq hsum
        have hfill := forwardFill_eq_iff.mpr ⟨shown, rest, heq,
          show _ = forwardRoom area x width true by omega⟩
        rw [if_pos (by omega)] at hlen
        omega
      · intro hfits
        split
        · rename_i hmark
          by_contra hlen
          obtain ⟨shown, rest, heq, hsum⟩ := forwardFill_eq_iff.mp
            (show forwardFill G area x string width true =
              forwardRoom area x width true by omega)
          exact hfits (by omega) (by omega) shown rest heq (by omega)
        · omega

-- ------------------------------------------------------------------ backward

/-- There is a cell behind the last column, and no cluster reaches in front of
the buffer's first cell when an ellipsis is to stand for the beginning. -/
def EndFits (area : Rect) (x y : U16) (ws : List Nat) (room : Nat)
    (ellipsis : Bool) : Prop :=
  x.val + room < rightEdge area ∧
    (room < ws.sum → Reachable (room - if ellipsis then 1 else 0)
      (startCell area x y + room) ws.reverse)

theorem reachable_of_sum_le {reach : Nat} {ws : List Nat} (h : ws.sum ≤ room) :
    Reachable room reach ws := by
  intro shown w rest heq _ hbig
  rw [heq, List.sum_append, List.sum_cons] at h
  omega

theorem startsIn_edge (h : StartsIn area x y) {maxOffset : U16}
    (hmax : maxOffset.val = min (rightEdge area) (room + x.val)) :
    StartsIn area maxOffset y ↔ x.val + room < rightEdge area := by
  have hright := h.right
  have hleft := h.left
  constructor
  · intro h'
    have hlt := h'.right
    omega
  · intro hlt
    exact ⟨by omega, by omega, h.top, h.bottom⟩

/-- The ellipsis and the graphemes from the last one on are confined exactly
if no grapheme reaches too far. -/
theorem backward_confined (h : StartsIn area x y) (hwidth : width ≠ 0)
    {graphemes : List (List Char × (σ → σ))}
    (hne : ∀ g ∈ graphemes, g.1 ≠ []) (hlen : content.length = area.area)
    {m i : Nat} (hm : m ≤ 1)
    (hi : i ≤ startCell area x y + min width (rightEdge area - x.val)) :
    Confined ⟨area, content⟩ x y width (do
        let content ← putEllipsis G m (startCell area x y) content
        let (content, xOffset) ← backwardLoop G (startCell area x y + m)
          graphemes.reverse i x.val content
        return (⟨area, content⟩, U16.ofUsize xOffset, y)) ↔
      Reachable (i - (startCell area x y + m)) i
        (styledWidths G graphemes).reverse := by
  have hrow := h.row_le
  have hright := h.right
  have hmark : startCell area x y + m ≤ content.length := by omega
  obtain ⟨marked, hmarked, hmlen⟩ := putEllipsis_ok (G := G) (.inr hmark)
  have hrev : styledWidths G graphemes.reverse =
      (styledWidths G graphemes).reverse := List.map_reverse
  rw [hmarked, ok_bind, ← hrev]
  have hok : (∃ r, backwardLoop G (startCell area x y + m) graphemes.reverse i
      x.val marked = .ok r) ↔ Reachable (i - (startCell area x y + m)) i
        (styledWidths G graphemes.reverse) := backwardLoop_ok (by omega)
  rw [← hok]
  constructor
  · rintro ⟨out, pos, hrun, -⟩
    obtain ⟨r, hloop, -⟩ := bind_eq_ok.mp hrun
    exact ⟨r, hloop⟩
  · rintro ⟨⟨printed, xOffset⟩, hloop⟩
    have hprinted := backwardLoop_kept
      (fun g hg => hne g (List.mem_reverse.mp hg)) hloop
    have hstart : Kept (startCell area x y)
        (startCell area x y + min width (rightEdge area - x.val)) content
        marked :=
      (putEllipsis_painted hmarked).toKept.mono (Nat.le_refl _) (by omega)
    rw [hloop, ok_bind]
    exact h.confined rfl rfl (Nat.le_refl _) (Nat.le_refl _)
      (hstart.trans (hprinted.mono (by omega) hi))

/-- `put_end` is confined in a buffer exactly if the end of the text fits. -/
theorem putEnd_confined (h : StartsIn area x y) (hwidth : width ≠ 0)
    (hroom : room ≤ width) {maxOffset : U16}
    (hmax : maxOffset.val = min (rightEdge area) (room + x.val))
    {graphemes : List (List Char × (σ → σ))}
    (hne : ∀ g ∈ graphemes, g.1 ≠ []) (ellipsis : Bool)
    (hlen : content.length = area.area) :
    Confined ⟨area, content⟩ x y width (putEnd G ⟨area, content⟩ x y maxOffset
      graphemes (styledWidths G graphemes).sum room ellipsis) ↔
      EndFits area x y (styledWidths G graphemes) room ellipsis := by
  have hindex : (⟨area, content⟩ : Buffer σ).indexOf x y =
      .ok (startCell area x y) := indexOf_ok h
  have hrow := h.row_le
  have hright := h.right
  unfold putEnd EndFits
  rw [hindex, ok_bind]
  by_cases hedge : x.val + room < rightEdge area
  · have hlast : startCell area maxOffset y = startCell area x y + room := by
      have hleft := h.left
      unfold startCell
      omega
    have hindex' : (⟨area, content⟩ : Buffer σ).indexOf maxOffset y =
        .ok (startCell area x y + room) :=
      hlast ▸ indexOf_ok ((startsIn_edge h hmax).mpr hedge)
    rw [hindex', ok_bind, and_iff_right hedge]
    by_cases hmore : room < (styledWidths G graphemes).sum
    · have hpad : checkedSub (startCell area x y + room) 0 =
          .ok (startCell area x y + room) := checkedSub_of_le (Nat.zero_le _)
      have hconfined := backward_confined (G := G) h hwidth hne hlen
        (show (if ellipsis then 1 else 0) ≤ 1 by split <;> omega)
        (show startCell area x y + room ≤ _ by omega)
      rw [Nat.add_sub_add_left] at hconfined
      simp only [gt_iff_lt, hmore, and_true, if_true, ok_bind, hpad,
        true_implies]
      exact hconfined
    · have hpad : checkedSub room (styledWidths G graphemes).sum =
          .ok (room - (styledWidths G graphemes).sum) :=
        checkedSub_of_le (by omega)
      have hback : checkedSub (startCell area x y + room)
          (room - (styledWidths G graphemes).sum) =
            .ok (startCell area x y + (styledWidths G graphemes).sum) := by
        rw [checkedSub_of_le (by omega)]
        refine congrArg Except.ok ?_
        omega
      have hconfined := backward_confined (G := G) h hwidth hne hlen
        (Nat.zero_le 1) (show startCell area x y +
          (styledWidths G graphemes).sum ≤ _ by omega)
      simp only [gt_iff_lt, hmore, and_false, if_false, hpad, ok_bind, hback,
        false_implies, iff_true]
      refine hconfined.mpr (reachable_of_sum_le ?_)
      rw [List.sum_reverse]
      omega
  · obtain ⟨panic, herror⟩ : ∃ panic,
        (⟨area, content⟩ : Buffer σ).indexOf maxOffset y = .error panic :=
      indexOf_error fun h' => hedge ((startsIn_edge h hmax).mp h')
    rw [herror]
    constructor
    · rintro ⟨out, pos, hrun, -⟩
      cases hrun
    · exact fun h => absurd h.1 hedge

-- == the law

/-- `set_string_anchored` writes no more cells than it may: with an end that is
truncated always as many as the width, or the first cluster's columns if that
is wider, and else as many as the text has columns. -/
def AnchoredFits (G : Segmenter) (area : Rect) (x : U16)
    (truncateStart truncateEnd : Bool) (string : List Char) (width : Nat) :
    Prop :=
  if truncateEnd then x.val + width ≤ rightEdge area ∧
    (truncateStart = true → firstWidth G string ≤ width)
  else G.width string ≤ min width (rightEdge area - x.val)

theorem anchoredLength_le_iff (h : StartsIn area x y)
    (truncateStart truncateEnd : Bool) :
    anchoredLength G truncateStart truncateEnd string width ≤
        min width (rightEdge area - x.val) ↔
      AnchoredFits G area x truncateStart truncateEnd string width := by
  have hright := h.right
  unfold anchoredLength AnchoredFits markedWidth
  cases truncateEnd with
  | false => rfl
  | true =>
      simp only [if_true]
      cases truncateStart with
      | false =>
          simp only [Bool.false_eq_true, if_false, false_implies, and_true]
          omega
      | true =>
          simp only [if_true, true_implies]
          omega

omit [Inhabited σ] in
/-- Without a width nothing is printed. -/
theorem confined_zero {run : Result (Buffer σ × U16 × U16)}
    (hrun : run = .ok (⟨area, content⟩, x, y)) :
    Confined ⟨area, content⟩ x y 0 run :=
  ⟨_, _, hrun, rfl, rfl, fun _ _ => rfl⟩

theorem setStringTruncated_start (h : StartsIn area x y) (hG : G.Lawful)
    (hwidth : width ≠ 0) (hlen : content.length = area.area) :
    Confined ⟨area, content⟩ x y width (setStringTruncated G ⟨area, content⟩ x
      y string width style ellipsis true) ↔
      EndFits area x y ((G.graphemes string).map G.width)
        (if ellipsis then width - 1 else width) ellipsis := by
  have hstyled : styledWidths G ((G.graphemeIndices string).map
      fun g => (g.2, style g.1)) = (G.graphemes string).map G.width := by
    rw [← widths_graphemeIndices, styledWidths, List.map_map]
    rfl
  have hne : ∀ g ∈ (G.graphemeIndices string).map
      fun g => (g.2, style g.1), g.1 ≠ [] :=
    List.forall_mem_map.mpr (graphemeIndices_ne_nil hG string)
  have hmax : (U16.ofUsize (min (rightEdge area)
      ((if ellipsis then width - 1 else width) + x.val))).val =
        min (rightEdge area)
          ((if ellipsis then width - 1 else width) + x.val) := by
    refine Nat.mod_eq_of_lt ?_
    have hle : rightEdge area < 65536 :=
      (area.x.saturatingAdd area.width).isLt
    omega
  have hfits := putEnd_confined (G := G) h hwidth
    (show (if ellipsis then width - 1 else width) ≤ width by
      split <;> omega) hmax hne ellipsis hlen
  rw [hstyled, ← hG.width_eq] at hfits
  rw [← hfits]
  unfold setStringTruncated
  rw [if_neg (goes_on h hwidth content)]
  rfl

/-- The widths of the clusters of all spans. -/
def spanWidths (G : Segmenter) (spans : Tui.Spans σ) : List Nat :=
  spans.flatMap fun span => (G.graphemes span.content).map G.width

omit [Inhabited σ] in
theorem styledWidths_spans (spans : Tui.Spans σ) :
    styledWidths G (spans.flatMap fun span =>
      (G.graphemes span.content).map fun s => (s, span.style)) =
        spanWidths G spans := by
  rw [styledWidths, spanWidths, List.map_flatMap]
  simp only [List.map_map]
  rfl

omit [Inhabited σ] in
theorem sum_spanWidths (hG : G.Lawful) (spans : Tui.Spans σ) :
    (spanWidths G spans).sum = Tui.spansWidth G spans := by
  unfold spanWidths Tui.spansWidth
  induction spans with
  | nil => rfl
  | cons span spans ih =>
      rw [List.flatMap_cons, List.sum_append, ih, List.map_cons,
        List.sum_cons, ← hG.width_eq]

theorem setSpansTruncated_confined (h : StartsIn area x y) (hG : G.Lawful)
    {width : U16} (hwidth : width ≠ 0) {spans : Tui.Spans σ}
    (hlen : content.length = area.area) :
    Confined ⟨area, content⟩ x y width.val (setSpansTruncated G
      ⟨area, content⟩ x y spans width) ↔
      EndFits area x y (spanWidths G spans) width.val true := by
  have hne : ∀ g ∈ spans.flatMap fun span =>
      (G.graphemes span.content).map fun s => (s, span.style), g.1 ≠ [] := by
    intro g hg
    obtain ⟨span, -, hg⟩ := List.mem_flatMap.mp hg
    obtain ⟨s, hs, rfl⟩ := List.mem_map.mp hg
    exact hG.ne_nil _ s hs
  have hmax : (min (area.x.saturatingAdd area.width)
      (width.saturatingAdd x)).val = min (rightEdge area)
        (width.val + x.val) := by
    have hsat : (width.saturatingAdd x).val =
        min (width.val + x.val) 65535 := rfl
    have hle : rightEdge area < 65536 :=
      (area.x.saturatingAdd area.width).isLt
    rw [Fin.coe_min, hsat, ← rightEdge]
    omega
  have hzero : width.val ≠ 0 := fun hval => hwidth (Fin.ext hval)
  have hfits := putEnd_confined (G := G) h hzero (Nat.le_refl width.val) hmax
    hne true hlen
  rw [styledWidths_spans, sum_spanWidths hG] at hfits
  rw [← hfits]
  have hguard : ¬((!(⟨area, content⟩ : Buffer σ).inBounds x y) = true ∨
      width = 0) := by
    have hin : (⟨area, content⟩ : Buffer σ).inBounds x y = true :=
      inBounds_iff.mpr h
    rw [hin]
    simp [hwidth]
  unfold setSpansTruncated
  rw [if_neg hguard]

/-- Where a start cell is in the area, each of the functions is confined in
every buffer of that area exactly in the given case. -/
theorem set_strings_law (G : Segmenter) (hG : G.Lawful) (area : Rect)
    (x y : U16) (h : StartsIn area x y) :
    (∀ (truncateStart truncateEnd : Bool) (string : List Char) (width : Nat)
        (style : Nat → σ → σ),
      (∀ content : List (Cell σ), content.length = area.area →
        Confined ⟨area, content⟩ x y width (setStringAnchored G
          ⟨area, content⟩ x y truncateStart truncateEnd string width style)) ↔
        width = 0 ∨
          AnchoredFits G area x truncateStart truncateEnd string width) ∧
    (∀ (string : List Char) (width : Nat) (style : Nat → σ → σ)
        (ellipsis truncateStart : Bool),
      (∀ content : List (Cell σ), content.length = area.area →
        Confined ⟨area, content⟩ x y width (setStringTruncated G
          ⟨area, content⟩ x y string width style ellipsis truncateStart)) ↔
        width = 0 ∨
          if truncateStart then
            EndFits area x y ((G.graphemes string).map G.width)
              (if ellipsis then width - 1 else width) ellipsis
          else ForwardFits G area x string width ellipsis) ∧
    (∀ (spans : Tui.Spans σ) (width : U16),
      (∀ content : List (Cell σ), content.length = area.area →
        Confined ⟨area, content⟩ x y width.val (setSpansTruncated G
          ⟨area, content⟩ x y spans width)) ↔
        width = 0 ∨
          EndFits area x y (spanWidths G spans) width.val true) := by
  -- What holds in every buffer of the area holds in a blank one.
  have hblank : (List.replicate area.area (Cell.default : Cell σ)).length =
      area.area := List.length_replicate
  refine ⟨?_, ?_, ?_⟩
  · intro truncateStart truncateEnd string width style
    by_cases hwidth : width = 0
    · subst hwidth
      refine ⟨fun _ => .inl rfl, fun _ content _ => confined_zero ?_⟩
      unfold setStringAnchored
      rw [if_pos (.inr rfl)]
      rfl
    · rw [or_iff_right hwidth, ← anchoredLength_le_iff h]
      exact h.confined_iff (fun self => setStringAnchored G self x y
        truncateStart truncateEnd string width style)
        (setStringAnchored_ok hG h hwidth)
        (setStringAnchored_painted hG h hwidth)
  · intro string width style ellipsis truncateStart
    by_cases hwidth : width = 0
    · subst hwidth
      refine ⟨fun _ => .inl rfl, fun _ content _ => confined_zero ?_⟩
      unfold setStringTruncated
      rw [if_pos (.inr rfl)]
      rfl
    · rw [or_iff_right hwidth]
      cases truncateStart with
      | true =>
          exact ⟨fun hall =>
              (setStringTruncated_start h hG hwidth hblank).mp (hall _ hblank),
            fun hfits content hlen =>
              (setStringTruncated_start h hG hwidth hlen).mpr hfits⟩
      | false =>
          rw [if_neg Bool.false_ne_true, ← forwardLength_le_iff h hwidth]
          exact h.confined_iff (fun self => setStringTruncated G self x y
            string width style ellipsis false)
            (setStringTruncated_ok hG h hwidth)
            (setStringTruncated_painted hG h hwidth)
  · intro spans width
    by_cases hwidth : width = 0
    · subst hwidth
      refine ⟨fun _ => .inl rfl, fun _ content _ => confined_zero ?_⟩
      unfold setSpansTruncated
      rw [if_pos (.inr rfl)]
      rfl
    · rw [or_iff_right hwidth]
      exact ⟨fun hall =>
          (setSpansTruncated_confined h hG hwidth hblank).mp (hall _ hblank),
        fun hfits content hlen =>
          (setSpansTruncated_confined h hG hwidth hlen).mpr hfits⟩

/-- Three columns of four are filled up with an ellipsis. -/
theorem set_strings_law_inside :
    Confined (⟨⟨0, 0, 4, 1⟩, List.replicate 4 Cell.default⟩ : Buffer Unit) 0 0
      3 (setStringAnchored Segmenter.ascii
        ⟨⟨0, 0, 4, 1⟩, List.replicate 4 Cell.default⟩ 0 0 false true
        ['a', 'b', 'c', 'd'] 3 fun _ => id) :=
  ((set_strings_law Segmenter.ascii Segmenter.lawful_ascii ⟨0, 0, 4, 1⟩ 0 0
    ⟨by decide, by decide, by decide, by decide⟩).1 false true
      ['a', 'b', 'c', 'd'] 3 fun _ => id).mpr
    (.inr ⟨by decide, fun h => absurd h Bool.false_ne_true⟩) _ rfl

/-- Two graphemes fill the row, and the ellipsis for the third one is written
behind it. -/
theorem not_set_strings_law_edge :
    ¬Confined (⟨⟨0, 0, 2, 1⟩, List.replicate 2 Cell.default⟩ : Buffer Unit) 0
      0 3 (setStringTruncated Segmenter.ascii
        ⟨⟨0, 0, 2, 1⟩, List.replicate 2 Cell.default⟩ 0 0 ['a', 'b', 'c'] 3
        (fun _ => id) true false) := by
  intro h
  obtain ⟨out, pos, hrun, -⟩ := h
  have hpanic : setStringTruncated Segmenter.ascii
      (⟨⟨0, 0, 2, 1⟩, List.replicate 2 Cell.default⟩ : Buffer Unit) 0 0
      ['a', 'b', 'c'] 3 (fun _ => id) true false = .error .outOfBounds := by
    decide
  rw [hpanic] at hrun
  cases hrun

end Region

end Zmax.Buffer
