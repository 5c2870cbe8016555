/-
Merging one buffer into another.

A cell's index in the union's area is its row there times the width and its
column (`newIndex`). It is never below the old index, so moving the last cell
first overwrites none that is still to be moved, and different cells get
different ones: the two loops are a move and a placement in the sense of
`Scatter`. The source adds the left edge before it subtracts it, in an `u16`,
so the last cell of a buffer decides whether its loop overflows.
-/
import Zmax.Lib.Scatter
import Zmax.Tui.Buffer

namespace Zmax

-- == unions

/-- A rectangle inside of another, which fits the coordinates. -/
structure Rect.Inside (r area : Rect) : Prop where
  left : area.x.val ≤ r.x.val
  right : r.x.val + r.width.val ≤ area.x.val + area.width.val
  top : area.y.val ≤ r.y.val
  bottom : r.y.val + r.height.val ≤ area.y.val + area.height.val
  fitsWidth : area.x.val + area.width.val < 65536
  fitsHeight : area.y.val + area.height.val < 65536

variable {a t : U16}

theorem U16.val_of_checkedAdd {b : U16} (h : U16.checkedAdd a b = .ok t) :
    t.val = a.val + b.val := by
  unfold U16.checkedAdd at h
  split at h
  · cases h
    rfl
  · cases h

theorem U16.val_of_checkedSub {b : U16} (h : U16.checkedSub a b = .ok t) :
    b.val + t.val = a.val := by
  unfold U16.checkedSub at h
  split at h
  · cases h
    exact Nat.add_sub_cancel' ‹_›
  · cases h

theorem Rect.inside_union {r r' area : Rect} (h : r.union r' = .ok area) :
    r.Inside area ∧ r'.Inside area := by
  unfold Rect.union at h
  obtain ⟨right, hright, h⟩ := bind_eq_ok.mp h
  obtain ⟨right', hright', h⟩ := bind_eq_ok.mp h
  obtain ⟨bottom, hbottom, h⟩ := bind_eq_ok.mp h
  obtain ⟨bottom', hbottom', h⟩ := bind_eq_ok.mp h
  obtain ⟨width, hwidth, h⟩ := bind_eq_ok.mp h
  obtain ⟨height, hheight, h⟩ := bind_eq_ok.mp h
  cases h
  have hright := U16.val_of_checkedAdd hright
  have hright' := U16.val_of_checkedAdd hright'
  have hbottom := U16.val_of_checkedAdd hbottom
  have hbottom' := U16.val_of_checkedAdd hbottom'
  have hwidth := U16.val_of_checkedSub hwidth
  have hheight := U16.val_of_checkedSub hheight
  simp only [Fin.coe_max, Fin.coe_min] at hwidth hheight
  constructor <;> constructor <;> simp only [Fin.coe_min] <;> omega

-- == indices

/-- Where a cell of one area is in another. -/
def newIndex (r area : Rect) (i : Nat) : Nat :=
  (i / r.width.val + (r.y.val - area.y.val)) * area.width.val +
    (i % r.width.val + (r.x.val - area.x.val))

/-- The index of a place in an area. -/
def Rect.indexOf (area : Rect) (x y : Nat) : Nat :=
  (y - area.y.val) * area.width.val + (x - area.x.val)

/-- The area has this place. -/
def Rect.Covers (area : Rect) (x y : Nat) : Prop :=
  (area.x.val ≤ x ∧ x < area.x.val + area.width.val) ∧
    area.y.val ≤ y ∧ y < area.y.val + area.height.val

instance (area : Rect) (x y : Nat) : Decidable (area.Covers x y) :=
  inferInstanceAs (Decidable (_ ∧ _))

/-- The last cell's index can be computed, with the left edge still added. -/
def IndexFits (r area : Rect) : Prop :=
  r.area ≠ 0 →
    (r.y.val + r.height.val - 1 - area.y.val) * area.width.val +
      (r.x.val + r.width.val - 1) < 65536

variable {r area : Rect} {i j x y : Nat}

theorem div_lt_height (h : i < r.area) : i / r.width.val < r.height.val :=
  Nat.div_lt_of_lt_mul h

theorem width_pos (h : i < r.area) : 0 < r.width.val := by
  rcases Nat.eq_zero_or_pos r.width.val with hzero | hpos
  · unfold Rect.area at h
    rw [hzero, Nat.zero_mul] at h
    exact absurd h (Nat.not_lt_zero i)
  · exact hpos

theorem mod_lt_width (h : i < r.area) : i % r.width.val < r.width.val :=
  Nat.mod_lt i (width_pos h)

/-- A row and a column are told from their index. -/
theorem row_col_inj {row row' col col' width : Nat} (hcol : col < width)
    (hcol' : col' < width)
    (h : row * width + col = row' * width + col') :
    row = row' ∧ col = col' := by
  have hdiv := congrArg (· / width) h
  have hmod := congrArg (· % width) h
  have hpos : 0 < width := by omega
  simp only [Nat.add_comm (_ * width), Nat.add_mul_div_right _ _ hpos,
    Nat.add_mul_mod_self_right, Nat.div_eq_of_lt hcol, Nat.div_eq_of_lt hcol',
    Nat.mod_eq_of_lt hcol, Nat.mod_eq_of_lt hcol', Nat.zero_add] at hdiv hmod
  exact ⟨hdiv, hmod⟩

theorem Rect.Inside.col_lt (h : r.Inside area) (hi : i < r.area) :
    i % r.width.val + (r.x.val - area.x.val) < area.width.val := by
  have := mod_lt_width hi
  have := h.left
  have := h.right
  omega

theorem Rect.Inside.row_lt (h : r.Inside area) (hi : i < r.area) :
    i / r.width.val + (r.y.val - area.y.val) < area.height.val := by
  have := div_lt_height hi
  have := h.top
  have := h.bottom
  omega

theorem newIndex_inj (h : r.Inside area) (hi : i < r.area)
    (hj : j < r.area) (heq : newIndex r area i = newIndex r area j) :
    i = j := by
  obtain ⟨hrow, hcol⟩ := row_col_inj (h.col_lt hi) (h.col_lt hj) heq
  rw [← Nat.div_add_mod i r.width.val, ← Nat.div_add_mod j r.width.val,
    Nat.add_right_cancel hrow, Nat.add_right_cancel hcol]

theorem le_newIndex (h : r.Inside area) : i ≤ newIndex r area i := by
  have hwidth : r.width.val ≤ area.width.val := by
    have := h.left
    have := h.right
    omega
  have hrow : i / r.width.val * r.width.val ≤
      (i / r.width.val + (r.y.val - area.y.val)) * area.width.val :=
    Nat.mul_le_mul (Nat.le_add_right _ _) hwidth
  have hsplit := Nat.div_add_mod' i r.width.val
  unfold newIndex
  omega

theorem row_col_lt {row col width height : Nat} (hrow : row < height)
    (hcol : col < width) : row * width + col < width * height := by
  have hle : (row + 1) * width ≤ height * width :=
    Nat.mul_le_mul_right width hrow
  rw [Nat.succ_mul] at hle
  rw [Nat.mul_comm width]
  omega

theorem newIndex_lt (h : r.Inside area) (hi : i < r.area) :
    newIndex r area i < area.area :=
  row_col_lt (h.row_lt hi) (h.col_lt hi)

theorem indexOf_lt (h : r.Covers x y) : r.indexOf x y < r.area := by
  obtain ⟨⟨hx, hx'⟩, hy, hy'⟩ := h
  exact row_col_lt (by omega) (by omega)

/-- A place's index in the one area goes to its index in the other. -/
theorem newIndex_indexOf (h : r.Inside area) (hc : r.Covers x y) :
    newIndex r area (r.indexOf x y) = area.indexOf x y := by
  obtain ⟨⟨hx, hx'⟩, hy, hy'⟩ := hc
  have hcol : x - r.x.val < r.width.val := by omega
  have hpos : 0 < r.width.val := by omega
  have hdiv : r.indexOf x y / r.width.val = y - r.y.val := by
    unfold Rect.indexOf
    rw [Nat.add_comm, Nat.add_mul_div_right _ _ hpos, Nat.div_eq_of_lt hcol,
      Nat.zero_add]
  have hmod : r.indexOf x y % r.width.val = x - r.x.val := by
    unfold Rect.indexOf
    rw [Nat.add_comm, Nat.add_mul_mod_self_right, Nat.mod_eq_of_lt hcol]
  have := h.left
  have := h.top
  have hrow : y - r.y.val + (r.y.val - area.y.val) = y - area.y.val := by
    omega
  have hcol' : x - r.x.val + (r.x.val - area.x.val) = x - area.x.val := by
    omega
  unfold newIndex
  rw [hdiv, hmod, hrow, hcol']
  rfl

theorem covers_of_newIndex (h : r.Inside area) (hi : i < r.area)
    (hc : area.Covers x y) (heq : newIndex r area i = area.indexOf x y) :
    r.Covers x y := by
  obtain ⟨⟨hx, hx'⟩, hy, hy'⟩ := hc
  obtain ⟨hrow, hcol⟩ := row_col_inj (h.col_lt hi) (by omega) heq
  have hcol' := mod_lt_width hi
  have hrow' := div_lt_height hi
  have := h.left
  have := h.top
  generalize i % r.width.val = k at hcol hcol'
  generalize i / r.width.val = n at hrow hrow'
  unfold Rect.Covers
  omega

/-- No cell's index is computed from more than the last one's. -/
theorem IndexFits.lt (hfits : IndexFits r area) (hi : i < r.area) :
    (r.y.val + i / r.width.val - area.y.val) * area.width.val +
      (r.x.val + i % r.width.val) < 65536 := by
  have hlast := hfits (Nat.ne_of_gt (Nat.zero_lt_of_lt hi))
  have hrow := div_lt_height hi
  have hcol := mod_lt_width hi
  have hle : (r.y.val + i / r.width.val - area.y.val) * area.width.val ≤
      (r.y.val + r.height.val - 1 - area.y.val) * area.width.val :=
    Nat.mul_le_mul_right _ (by omega)
  omega

theorem IndexFits.of_last {n : Nat} (hn : r.area = n + 1)
    (hlt : (r.y.val + n / r.width.val - area.y.val) * area.width.val +
      (r.x.val + n % r.width.val) < 65536) : IndexFits r area := by
  intro _
  have hpos := width_pos (show n < r.area by omega)
  have hsplit : n = (r.height.val - 1) * r.width.val + (r.width.val - 1) := by
    have hmul : r.width.val * r.height.val = n + 1 := hn
    obtain ⟨k, hk⟩ : ∃ k, r.height.val = k + 1 := by
      refine Nat.exists_eq_succ_of_ne_zero fun hzero => ?_
      rw [hzero, Nat.mul_zero] at hmul
      omega
    rw [hk, Nat.mul_succ, Nat.mul_comm] at hmul
    rw [hk, Nat.add_sub_cancel]
    omega
  have hdiv : n / r.width.val = r.height.val - 1 := by
    rw [hsplit, Nat.add_comm, Nat.add_mul_div_right _ _ hpos,
      Nat.div_eq_of_lt (by omega), Nat.zero_add]
  have hmod : n % r.width.val = r.width.val - 1 := by
    rw [hsplit, Nat.add_comm, Nat.add_mul_mod_self_right,
      Nat.mod_eq_of_lt (by omega)]
  have hheight := div_lt_height (show n < r.area by omega)
  rw [hdiv, hmod] at hlt
  rw [hdiv] at hheight
  have hrow : r.y.val + r.height.val - 1 - area.y.val =
      r.y.val + (r.height.val - 1) - area.y.val := by omega
  rw [hrow]
  omega

theorem ofUsize_val {n : Nat} (h : n < 65536) : (U16.ofUsize n).val = n :=
  Nat.mod_eq_of_lt h

variable {σ : Type} {b : Buffer σ}

theorem Buffer.posOf_eq (hlen : i < b.content.length) (hi : i < b.area.area) :
    b.posOf i = .ok (U16.ofUsize (b.area.x.val + i % b.area.width.val),
      U16.ofUsize (b.area.y.val + i / b.area.width.val)) := by
  have hne : (decide (b.area.width.val ≠ 0)) = true :=
    decide_eq_true (Nat.ne_of_gt (width_pos hi))
  unfold Buffer.posOf
  rw [decide_eq_true hlen, assert_true, ok_bind, hne, assert_true, ok_bind]
  rfl

theorem U16.val_of_checkedMul {b : U16} (h : U16.checkedMul a b = .ok t) :
    t.val = a.val * b.val := by
  unfold U16.checkedMul at h
  split at h
  · cases h
    rfl
  · cases h

theorem U16.checkedAdd_of_lt {b : U16} (h : a.val + b.val < 65536) :
    U16.checkedAdd a b = .ok ⟨a.val + b.val, h⟩ :=
  dif_pos h

theorem U16.checkedSub_of_le {b : U16} (h : b.val ≤ a.val) :
    U16.checkedSub a b = .ok ⟨a.val - b.val, by omega⟩ :=
  if_pos h

theorem U16.checkedMul_of_lt {b : U16} (h : a.val * b.val < 65536) :
    U16.checkedMul a b = .ok ⟨a.val * b.val, h⟩ :=
  dif_pos h

/-- The coordinates of a cell are computed without wrapping. -/
theorem Rect.Inside.pos_val (h : r.Inside area) (hi : i < r.area) :
    (U16.ofUsize (r.x.val + i % r.width.val)).val =
        r.x.val + i % r.width.val ∧
      (U16.ofUsize (r.y.val + i / r.width.val)).val =
        r.y.val + i / r.width.val := by
  have := mod_lt_width hi
  have := div_lt_height hi
  have := h.right
  have := h.bottom
  have := h.fitsWidth
  have := h.fitsHeight
  exact ⟨ofUsize_val (by omega), ofUsize_val (by omega)⟩

theorem Buffer.mergedIndex_eq (h : r.Inside area) (hi : i < r.area)
    (hfits : (r.y.val + i / r.width.val - area.y.val) * area.width.val +
      (r.x.val + i % r.width.val) < 65536) :
    mergedIndex area (U16.ofUsize (r.x.val + i % r.width.val),
      U16.ofUsize (r.y.val + i / r.width.val)) =
        .ok (newIndex r area i) := by
  obtain ⟨hx, hy⟩ := h.pos_val hi
  have := h.left
  have := h.top
  unfold newIndex Buffer.mergedIndex
  generalize i % r.width.val = col at hx hfits ⊢
  generalize i / r.width.val = row at hy hfits ⊢
  have hrow : r.y.val + row - area.y.val = row + (r.y.val - area.y.val) := by
    omega
  rw [U16.checkedSub_of_le (by rw [hy]; omega), ok_bind,
    U16.checkedMul_of_lt (by simp only [hy]; omega), ok_bind,
    U16.checkedAdd_of_lt (by simp only [hx, hy]; omega), ok_bind,
    U16.checkedSub_of_le (by simp only [hx]; omega), ok_bind]
  refine congrArg Except.ok ?_
  simp only [hx, hy, hrow]
  omega

theorem Buffer.fits_of_mergedIndex {k : Nat} (h : r.Inside area)
    (hi : i < r.area)
    (hk : mergedIndex area (U16.ofUsize (r.x.val + i % r.width.val),
      U16.ofUsize (r.y.val + i / r.width.val)) = .ok k) :
    (r.y.val + i / r.width.val - area.y.val) * area.width.val +
      (r.x.val + i % r.width.val) < 65536 := by
  obtain ⟨hx, hy⟩ := h.pos_val hi
  unfold Buffer.mergedIndex at hk
  obtain ⟨row, hrow, hk⟩ := bind_eq_ok.mp hk
  obtain ⟨start, hstart, hk⟩ := bind_eq_ok.mp hk
  obtain ⟨right, hright, hk⟩ := bind_eq_ok.mp hk
  have hrow := U16.val_of_checkedSub hrow
  have hstart := U16.val_of_checkedMul hstart
  have hright := U16.val_of_checkedAdd hright
  have hsub : r.y.val + i / r.width.val - area.y.val = row.val := by
    rw [← hy, ← hrow, Nat.add_sub_cancel_left]
  rw [hsub, ← hstart, ← hx, ← hright]
  exact right.isLt

-- == loops

section Loops

variable {other : Buffer σ} {content : List (Cell σ)}

theorem Buffer.setCell_eq {k : Nat} {cell : Cell σ} (h : k < content.length) :
    setCell content k cell = .ok (content.set k cell) :=
  if_pos h

theorem Buffer.moveCell_eq [Inhabited σ] (h : r.Inside area)
    (hfits : IndexFits r area) (hi : i < r.area)
    (hlen : content.length = area.area) :
    moveCell r area content i =
      .ok (Scatter.moveStep (newIndex r area) .default content i) := by
  have hk := newIndex_lt h hi
  have hle := le_newIndex (i := i) h
  have hlt : i < content.length := by omega
  unfold Buffer.moveCell
  rw [Buffer.posOf_eq (b := ⟨r, content⟩) hlt hi, ok_bind,
    Buffer.mergedIndex_eq h hi (hfits.lt hi), ok_bind]
  split
  · rename_i hne
    rw [index_eq_ok.mpr (List.getElem?_eq_getElem hlt), ok_bind,
      Buffer.setCell_eq (hlen ▸ hk), ok_bind,
      Buffer.setCell_eq (by rw [List.length_set]; exact hlt),
      Scatter.moveStep_of_ne hne hlt]
  · rename_i heq
    rw [Scatter.moveStep_self (Classical.not_not.mp heq)]
    rfl

theorem Buffer.moveCells_eq [Inhabited σ] {n : Nat} (h : r.Inside area)
    (hfits : IndexFits r area) (hn : n ≤ r.area)
    (hlen : content.length = area.area) :
    (List.range n).reverse.foldlM (moveCell r area) content =
      .ok (Scatter.move (newIndex r area) .default n content) := by
  induction n generalizing content with
  | zero => rfl
  | succ n ih =>
      rw [List.range_succ, List.reverse_append, List.reverse_singleton,
        List.singleton_append, List.foldlM_cons,
        Buffer.moveCell_eq h hfits hn hlen, ok_bind]
      exact ih (by omega) (Scatter.length_moveStep.trans hlen)

theorem Buffer.pushCell_eq (h : other.area.Inside area)
    (hfits : IndexFits other.area area) (hi : i < other.area.area)
    (hlen : content.length = area.area)
    (hi' : i < other.content.length) :
    pushCell other area content i =
      .ok (content.set (newIndex other.area area i) other.content[i]) := by
  unfold Buffer.pushCell
  rw [Buffer.posOf_eq hi' hi, ok_bind,
    Buffer.mergedIndex_eq h hi (hfits.lt hi), ok_bind,
    index_eq_ok.mpr (List.getElem?_eq_getElem hi'), ok_bind,
    Buffer.setCell_eq (hlen ▸ newIndex_lt h hi)]

theorem Buffer.pushCells_eq {n : Nat} (h : other.area.Inside area)
    (hfits : IndexFits other.area area)
    (hfull : other.content.length = other.area.area)
    (hn : i + n = other.area.area) (hlen : content.length = area.area) :
    (List.range' i n).foldlM (pushCell other area) content =
      .ok (Scatter.place (newIndex other.area area) i
        (other.content.drop i) content) := by
  induction n generalizing i content with
  | zero =>
      rw [List.drop_eq_nil_of_le (by omega)]
      rfl
  | succ n ih =>
      have hi : i < other.content.length := by omega
      rw [List.range'_succ, List.foldlM_cons,
        Buffer.pushCell_eq h hfits (by omega) hlen hi, ok_bind,
        ih (by omega) (by rw [List.length_set]; exact hlen),
        List.drop_eq_getElem_cons hi]
      rfl

/-- The loop over the buffer's own cells starts at the last one. -/
theorem Buffer.fits_of_moveCells [Inhabited σ] {content' : List (Cell σ)}
    (h : r.Inside area) (hlen : r.area ≤ content.length)
    (hok : (List.range r.area).reverse.foldlM (moveCell r area) content =
      .ok content') : IndexFits r area := by
  intro hne
  obtain ⟨n, hn⟩ := Nat.exists_eq_succ_of_ne_zero hne
  rw [hn, List.range_succ, List.reverse_append, List.reverse_singleton,
    List.singleton_append, List.foldlM_cons] at hok
  obtain ⟨moved, hmoved, -⟩ := bind_eq_ok.mp hok
  have hlast : n < r.area := by omega
  unfold Buffer.moveCell at hmoved
  rw [Buffer.posOf_eq (b := ⟨r, content⟩) (by dsimp only; omega) hlast,
    ok_bind] at hmoved
  obtain ⟨k, hk, -⟩ := bind_eq_ok.mp hmoved
  exact IndexFits.of_last hn (Buffer.fits_of_mergedIndex h hlast hk) hne

/-- The loop over the other one's cells ends with it. -/
theorem Buffer.fits_of_pushCells {content' : List (Cell σ)}
    (h : other.area.Inside area)
    (hfull : other.content.length = other.area.area)
    (hok : (List.range other.area.area).foldlM (pushCell other area) content =
      .ok content') : IndexFits other.area area := by
  intro hne
  obtain ⟨n, hn⟩ := Nat.exists_eq_succ_of_ne_zero hne
  rw [hn, List.range_succ, List.foldlM_append] at hok
  obtain ⟨pushed, -, hpushed⟩ := bind_eq_ok.mp hok
  rw [List.foldlM_cons] at hpushed
  obtain ⟨pushed', hpushed, -⟩ := bind_eq_ok.mp hpushed
  have hlast : n < other.area.area := by omega
  unfold Buffer.pushCell at hpushed
  rw [Buffer.posOf_eq (by omega) hlast, ok_bind] at hpushed
  obtain ⟨k, hk, -⟩ := bind_eq_ok.mp hpushed
  exact IndexFits.of_last hn (Buffer.fits_of_mergedIndex h hlast hk) hne

end Loops

-- == law

namespace Buffer

/-- The buffer has a cell for each place of its area. -/
def Full (b : Buffer σ) : Prop := b.content.length = b.area.area

/-- The cell at a place of the area. -/
def cellAt (b : Buffer σ) (x y : Nat) : Option (Cell σ) :=
  if b.area.Covers x y then b.content[b.area.indexOf x y]? else none

/-- Where two buffers and the default cell show in their merge. -/
structure Merged [Inhabited σ] (self other m : Buffer σ) (area : Rect) :
    Prop where
  sameArea : m.area = area
  full : m.Full
  cells : ∀ x y, area.Covers x y → m.cellAt x y =
    if other.area.Covers x y then other.cellAt x y
    else if self.area.Covers x y then self.cellAt x y
    else some .default

theorem area_le (h : r.Inside area) : r.area ≤ area.area := by
  have := h.left
  have := h.right
  have := h.top
  have := h.bottom
  exact Nat.mul_le_mul (by omega) (by omega)

variable {c : Cell σ} {content : List (Cell σ)} {n : Nat}

theorem length_resize (h : content.length ≤ n) :
    (resize content n c).length = n := by
  unfold resize
  rw [List.length_append, List.length_take, List.length_replicate]
  omega

theorem getElem?_resize {p : Nat} (h : content.length ≤ n)
    (hp : p < content.length) : (resize content n c)[p]? = content[p]? := by
  unfold resize
  rw [List.take_of_length_le h, List.getElem?_append_left hp]

theorem getElem?_resize_right {p : Nat} (h : content.length ≤ n)
    (hp : content.length ≤ p) (hp' : p < n) :
    (resize content n c)[p]? = some c := by
  unfold resize
  rw [List.take_of_length_le h, List.getElem?_append_right hp,
    List.getElem?_replicate_of_lt (by omega)]

variable [Inhabited σ] {self other : Buffer σ}

/-- The cells of a merge. -/
def mergedCells (self other : Buffer σ) (area : Rect) : List (Cell σ) :=
  Scatter.place (newIndex other.area area) 0 other.content
    (Scatter.move (newIndex self.area area) .default self.area.area
      (resize self.content area.area .default))

theorem merge_eq (hself : self.Full) (hother : other.Full)
    (h : self.area.union other.area = .ok area)
    (hfits : IndexFits self.area area) (hfits' : IndexFits other.area area) :
    self.merge other = .ok ⟨area, mergedCells self other area⟩ := by
  obtain ⟨hin, hin'⟩ := Rect.inside_union h
  have hle : self.content.length ≤ area.area := hself ▸ area_le hin
  have hlen := length_resize (c := (.default : Cell σ)) hle
  unfold merge
  rw [h, ok_bind]
  dsimp only
  rw [moveCells_eq hin hfits (Nat.le_refl _) hlen, ok_bind,
    List.range_eq_range', pushCells_eq hin' hfits' hother (Nat.zero_add _)
    (Scatter.length_move.trans hlen), ok_bind]
  rfl

theorem mergedCells_spec (hself : self.Full) (hother : other.Full)
    (hin : self.area.Inside area) (hin' : other.area.Inside area) :
    Merged self other ⟨area, mergedCells self other area⟩ area := by
  have hle : self.content.length ≤ area.area := hself ▸ area_le hin
  have hlen := length_resize (c := (.default : Cell σ)) hle
  have hplaces : Scatter.Places (newIndex self.area area) self.area.area
      (resize self.content area.area .default).length :=
    ⟨fun i _ => le_newIndex hin,
      fun i hi => Nat.lt_of_lt_of_eq (newIndex_lt hin hi) hlen.symm,
      fun i hi j hj heq => newIndex_inj hin hi hj heq⟩
  obtain ⟨hlength, hmoved, hblank⟩ := Scatter.move_spec hplaces
    fun p hp hp' => getElem?_resize_right hle (hself ▸ hp)
      (Nat.lt_of_lt_of_eq hp' hlen)
  have hroom : ∀ j < other.content.length, newIndex other.area area j <
      (Scatter.move (newIndex self.area area) .default self.area.area
        (resize self.content area.area .default)).length := by
    intro j hj
    rw [hlength, hlen]
    exact newIndex_lt hin' (hother ▸ hj)
  obtain ⟨hlength', hplaced, hother'⟩ := Scatter.place_spec hroom
    fun i hi j hj heq =>
      newIndex_inj hin' (hother ▸ hi) (hother ▸ hj) heq
  refine ⟨rfl, ?_, fun x y hc => ?_⟩
  · show (mergedCells self other area).length = area.area
    exact hlength'.trans (hlength.trans hlen)
  · have hget : (⟨area, mergedCells self other area⟩ : Buffer σ).cellAt x y =
        (mergedCells self other area)[area.indexOf x y]? := if_pos hc
    rw [hget]
    split
    · rename_i hcovers
      have hlt := indexOf_lt hcovers
      rw [← newIndex_indexOf hin' hcovers, cellAt, if_pos hcovers]
      exact hplaced _ (hother ▸ hlt)
    · rename_i hnot
      have hkept := hother' (area.indexOf x y) fun j hj heq =>
        hnot (covers_of_newIndex hin' (hother ▸ hj) hc heq)
      unfold mergedCells
      rw [hkept]
      split
      · rename_i hcovers
        have hlt := indexOf_lt hcovers
        rw [← newIndex_indexOf hin hcovers, hmoved _ hlt, cellAt,
          if_pos hcovers]
        exact getElem?_resize hle (hself ▸ hlt)
      · rename_i hnot'
        refine hblank _ (Nat.lt_of_lt_of_eq (indexOf_lt hc) hlen.symm)
          fun j hj heq => ?_
        exact hnot' (covers_of_newIndex hin hj hc heq)

theorem fits_of_merge {m : Buffer σ} (hself : self.Full) (hother : other.Full)
    (h : self.area.union other.area = .ok area)
    (hm : self.merge other = .ok m) :
    IndexFits self.area area ∧ IndexFits other.area area := by
  obtain ⟨hin, hin'⟩ := Rect.inside_union h
  unfold merge at hm
  rw [h, ok_bind] at hm
  obtain ⟨moved, hmoved, hm⟩ := bind_eq_ok.mp hm
  obtain ⟨pushed, hpushed, -⟩ := bind_eq_ok.mp hm
  have hle : self.content.length ≤ area.area := hself ▸ area_le hin
  refine ⟨fits_of_moveCells hin ?_ hmoved,
    fits_of_pushCells hin' hother hpushed⟩
  rw [length_resize hle]
  exact area_le hin

/-- A merge shows what it should exactly if the index of the last cell of each
buffer can be computed. -/
theorem buffer_merge_law (self other : Buffer σ) (hself : self.Full)
    (hother : other.Full) {area : Rect}
    (h : self.area.union other.area = .ok area) :
    (∃ m, self.merge other = .ok m ∧ Merged self other m area) ↔
      IndexFits self.area area ∧ IndexFits other.area area := by
  obtain ⟨hin, hin'⟩ := Rect.inside_union h
  constructor
  · rintro ⟨m, hm, -⟩
    exact fits_of_merge hself hother h hm
  · rintro ⟨hfits, hfits'⟩
    exact ⟨_, merge_eq hself hother h hfits hfits',
      mergedCells_spec hself hother hin hin'⟩

end Buffer

/-- A buffer of one cell. -/
def oneCell (symbol : String) (x y : U16) : Buffer Unit :=
  ⟨⟨x, y, 1, 1⟩, [⟨symbol, 1, ()⟩]⟩

theorem Buffer.buffer_merge_law_beside :
    ∃ m, (oneCell "a" 0 0).merge (oneCell "b" 1 0) = .ok m ∧
      Merged (oneCell "a" 0 0) (oneCell "b" 1 0) m ⟨0, 0, 2, 1⟩ :=
  (buffer_merge_law (oneCell "a" 0 0) (oneCell "b" 1 0) rfl rfl rfl).mpr
    ⟨fun _ => by decide, fun _ => by decide⟩

/-- The second row of a wide area. -/
theorem Buffer.not_buffer_merge_law_wide :
    (oneCell "a" 0 0).Full ∧ (oneCell "b" 40000 1).Full ∧
      (oneCell "a" 0 0).area.union (oneCell "b" 40000 1).area =
        .ok ⟨0, 0, 40001, 2⟩ ∧
      ¬∃ m, (oneCell "a" 0 0).merge (oneCell "b" 40000 1) = .ok m := by
  have hself : (oneCell "a" 0 0).Full := rfl
  have hother : (oneCell "b" 40000 1).Full := rfl
  have hunion : (oneCell "a" 0 0).area.union (oneCell "b" 40000 1).area =
      .ok ⟨0, 0, 40001, 2⟩ := rfl
  refine ⟨hself, hother, hunion, ?_⟩
  rintro ⟨m, hm⟩
  have hfits := (fits_of_merge hself hother hunion hm).2
  exact absurd (hfits (by decide)) (by decide)

end Zmax
