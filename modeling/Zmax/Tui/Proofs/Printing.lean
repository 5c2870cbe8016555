/-
The loops that print graphemes.

They write runs of cells. Forward these join to one run (`Painted`), which is
as long as what is rendered (`anchoredLoop_painted`) or as what fits
(`forwardLoop_painted`, `fill`). From the end of the text back the loop stops
in front of a start, and panics exactly where it would step below zero
(`backwardLoop_ok`).
-/
import Zmax.Tui.Buffer

namespace Zmax.Buffer

variable {σ : Type}

-- == runs

/-- The cells in front of `lo` and from `hi` on stay. -/
structure Kept (lo hi : Nat) (before after : List (Cell σ)) : Prop where
  length : after.length = before.length
  outside : ∀ i, i < lo ∨ hi ≤ i → after[i]? = before[i]?

/-- And the others show something. -/
structure Painted (lo hi : Nat) (before after : List (Cell σ)) : Prop
    extends Kept lo hi before after where
  inside : ∀ i, lo ≤ i → i < hi → ∃ cell, after[i]? = some cell ∧
    cell.symbol ≠ ""

variable {lo mid hi i n : Nat} {xs ys zs : List (Cell σ)}

theorem Kept.refl (lo hi : Nat) (xs : List (Cell σ)) : Kept lo hi xs xs :=
  ⟨rfl, fun _ _ => rfl⟩

theorem Kept.trans (h : Kept lo hi xs ys) (h' : Kept lo hi ys zs) :
    Kept lo hi xs zs where
  length := h'.length.trans h.length
  outside := fun i hi => (h'.outside i hi).trans (h.outside i hi)

theorem Kept.mono {lo' hi' : Nat} (h : Kept lo hi xs ys) (hlo : lo' ≤ lo)
    (hhi : hi ≤ hi') : Kept lo' hi' xs ys where
  length := h.length
  outside := fun i hi => h.outside i (by omega)

theorem Painted.refl (lo : Nat) (xs : List (Cell σ)) : Painted lo lo xs xs :=
  ⟨Kept.refl lo lo xs, fun _ h h' => absurd h' (Nat.not_lt.mpr h)⟩

/-- Two runs side by side. -/
theorem Painted.trans (h : Painted lo mid xs ys) (h' : Painted mid hi ys zs)
    (hlo : lo ≤ mid) (hhi : mid ≤ hi) : Painted lo hi xs zs where
  toKept := (h.toKept.mono (Nat.le_refl lo) hhi).trans
    (h'.toKept.mono hlo (Nat.le_refl hi))
  inside := by
    intro i hloi hihi
    rcases Nat.lt_or_ge i mid with hmid | hmid
    · rw [h'.outside i (.inl hmid)]
      exact h.inside i hloi hmid
    · exact h'.inside i hmid hihi

/-- A run is in the list. -/
theorem Painted.le_length (h : Painted lo hi xs ys) (hne : lo < hi) :
    hi ≤ xs.length := by
  obtain ⟨cell, hcell, -⟩ := h.inside (hi - 1) (by omega) (by omega)
  have hlt := (List.getElem?_eq_some_iff.mp hcell).1
  rw [h.length] at hlt
  omega

-- == the writes

variable {f : Cell σ → Cell σ}

theorem change_ok (f : Cell σ → Cell σ) (h : i < xs.length) :
    ∃ ys, change xs i f = .ok ys ∧ ys.length = xs.length := by
  refine ⟨xs.set i (f xs[i]), ?_, List.length_set⟩
  unfold change
  rw [index_eq_ok.mpr (List.getElem?_eq_getElem h), ok_bind, setCell,
    if_pos h]

theorem change_painted (hf : ∀ cell, (f cell).symbol ≠ "")
    (h : change xs i f = .ok ys) : Painted i (i + 1) xs ys := by
  obtain ⟨cell, hcell, h⟩ := bind_eq_ok.mp h
  rw [index_eq_ok] at hcell
  unfold setCell at h
  split at h
  · rename_i hi
    cases h
    refine ⟨⟨List.length_set, fun j hj => ?_⟩, fun j hij hji => ?_⟩
    · rw [List.getElem?_set_ne (by omega)]
    · obtain rfl : j = i := by omega
      rw [List.getElem?_set_self hi]
      exact ⟨f cell, rfl, hf cell⟩
  · cases h

theorem changeRun_ok (f : Cell σ → Cell σ) (h : n = 0 ∨ i + n ≤ xs.length) :
    ∃ ys, changeRun f n i xs = .ok ys ∧ ys.length = xs.length := by
  induction n generalizing i xs with
  | zero => exact ⟨xs, rfl, rfl⟩
  | succ n ih =>
      obtain ⟨ys, hys, hlen⟩ := change_ok f (show i < xs.length by omega)
      obtain ⟨zs, hzs, hlen'⟩ :=
        ih (show n = 0 ∨ i + 1 + n ≤ ys.length by omega)
      refine ⟨zs, ?_, hlen'.trans hlen⟩
      rw [changeRun, hys, ok_bind, hzs]

theorem changeRun_painted (hf : ∀ cell, (f cell).symbol ≠ "")
    (h : changeRun f n i xs = .ok ys) : Painted i (i + n) xs ys := by
  induction n generalizing i xs with
  | zero =>
      cases h
      exact Painted.refl _ _
  | succ n ih =>
      rw [changeRun] at h
      obtain ⟨zs, hzs, h⟩ := bind_eq_ok.mp h
      have hrest := ih h
      rw [Nat.add_right_comm] at hrest
      exact (change_painted hf hzs).trans hrest (by omega) (by omega)

variable {G : Segmenter} {s : List Char} {style : σ → σ}

theorem ofList_ne_empty (h : s ≠ []) : String.ofList s ≠ "" := by
  intro heq
  have hlist := congrArg String.toList heq
  rw [String.toList_ofList] at hlist
  exact h hlist

theorem symbol_setSymbol (h : s ≠ []) (cell : Cell σ) :
    (setSymbol G s cell).symbol ≠ "" := by
  unfold setSymbol
  dsimp only
  split
  · exact ofList_ne_empty h
  · exact ofList_ne_empty (by simp)

theorem putEllipsis_painted (h : putEllipsis G n i xs = .ok ys) :
    Painted i (i + n) xs ys :=
  changeRun_painted (symbol_setSymbol (by simp)) h

theorem putEllipsis_ok (h : n = 0 ∨ i + n ≤ xs.length) :
    ∃ ys, putEllipsis G n i xs = .ok ys ∧ ys.length = xs.length :=
  changeRun_ok _ h

section Printing

variable [Inhabited σ]

theorem putGrapheme_painted (hs : s ≠ []) (hw : G.width s ≠ 0)
    (h : putGrapheme G xs i s style = .ok ys) :
    Painted i (i + G.width s) xs ys := by
  obtain ⟨zs, hzs, h⟩ := bind_eq_ok.mp h
  have hshown : ∀ cell,
      (setStyle style (setSymbol G s cell)).symbol ≠ "" :=
    fun cell => symbol_setSymbol (G := G) hs cell
  have hfirst := change_painted hshown hzs
  have hblank : (Cell.default : Cell σ).symbol ≠ "" :=
    show " " ≠ "" by decide
  have hrest := changeRun_painted (fun _ => hblank) h
  rw [show i + 1 + (G.width s - 1) = i + G.width s by omega] at hrest
  exact hfirst.trans hrest (by omega) (by omega)

theorem putGrapheme_ok (style : σ → σ) (hw : G.width s ≠ 0)
    (h : i + G.width s ≤ xs.length) :
    ∃ ys, putGrapheme G xs i s style = .ok ys ∧ ys.length = xs.length := by
  obtain ⟨ys, hys, hlen⟩ := change_ok
    (fun cell => setStyle style (setSymbol G s cell))
    (show i < xs.length by omega)
  obtain ⟨zs, hzs, hlen'⟩ := changeRun_ok (fun _ => Cell.default)
    (show G.width s - 1 = 0 ∨ i + 1 + (G.width s - 1) ≤ ys.length by omega)
  refine ⟨zs, ?_, hlen'.trans hlen⟩
  rw [putGrapheme, hys, ok_bind, hzs]

-- == anchored

/-- The widths of clusters with their offsets. -/
def widths (G : Segmenter) (graphemes : List (Nat × List Char)) : List Nat :=
  graphemes.map fun g => G.width g.2

variable {graphemes : List (Nat × List Char)} {xOffset : Nat}

/-- The loop of `set_string_anchored` paints a run, whose length is the width
that it renders. -/
theorem anchoredLoop_painted {truncateEnd : Bool} {width : Nat}
    {style : Nat → σ → σ} (hne : ∀ g ∈ graphemes, g.2 ≠ [])
    {rendered i' rendered' : Nat}
    (h : anchoredLoop G truncateEnd width style graphemes i rendered xs =
      .ok (ys, i', rendered')) :
    rendered ≤ rendered' ∧ i' = i + (rendered' - rendered) ∧
      Painted i i' xs ys ∧
      (truncateEnd = true → rendered' = rendered ∨ rendered' < width) ∧
      (truncateEnd = false →
        rendered' = rendered + (widths G graphemes).sum) := by
  induction graphemes generalizing i rendered xs with
  | nil =>
      cases h
      exact ⟨Nat.le_refl _, by omega, Painted.refl _ _, fun _ => .inl rfl,
        fun _ => rfl⟩
  | cons g graphemes ih =>
      obtain ⟨offset, s⟩ := g
      obtain ⟨hs, hne⟩ := List.forall_mem_cons.mp hne
      have hs : s ≠ [] := hs
      have hsum : (widths G ((offset, s) :: graphemes)).sum =
          G.width s + (widths G graphemes).sum := List.sum_cons
      rw [anchoredLoop] at h
      split at h
      · rename_i hstop
        cases h
        refine ⟨Nat.le_refl _, by omega, Painted.refl _ _, fun _ => .inl rfl,
          fun hfalse => ?_⟩
        rw [hfalse] at hstop
        exact absurd hstop.1 Bool.false_ne_true
      · rename_i hgo
        split at h
        · rename_i hzero
          obtain ⟨hle, hi, hpainted, hend, hall⟩ := ih hne h
          refine ⟨hle, hi, hpainted, hend, fun hfalse => ?_⟩
          rw [hall hfalse, hsum, hzero, Nat.zero_add]
        · rename_i hw
          obtain ⟨zs, hzs, h⟩ := bind_eq_ok.mp h
          obtain ⟨hle, hi, hpainted, hend, hall⟩ := ih hne h
          refine ⟨by omega, by omega,
            (putGrapheme_painted hs hw hzs).trans hpainted (by omega)
              (by omega), fun htrue => .inr ?_, fun hfalse => ?_⟩
          · have hfits := not_and.mp hgo htrue
            rcases hend htrue with heq | hlt
            · omega
            · exact hlt
          · rw [hall hfalse, hsum, Nat.add_assoc]

/-- It does not panic where there is room for that. -/
theorem anchoredLoop_ok {truncateEnd : Bool} {width : Nat}
    {style : Nat → σ → σ} {rendered : Nat}
    (hroom : if truncateEnd then i + (width - rendered) ≤ xs.length
      else i + (widths G graphemes).sum ≤ xs.length) :
    ∃ r, anchoredLoop G truncateEnd width style graphemes i rendered xs =
      .ok r := by
  induction graphemes generalizing i rendered xs with
  | nil => exact ⟨(xs, i, rendered), rfl⟩
  | cons g graphemes ih =>
      obtain ⟨offset, s⟩ := g
      have hsum : (widths G ((offset, s) :: graphemes)).sum =
          G.width s + (widths G graphemes).sum := List.sum_cons
      rw [hsum] at hroom
      rw [anchoredLoop]
      split
      · exact ⟨_, rfl⟩
      · rename_i hgo
        split
        · rename_i hzero
          refine ih ?_
          rwa [hzero, Nat.zero_add] at hroom
        · rename_i hw
          have hfits : i + G.width s ≤ xs.length := by
            split at hroom
            · rename_i htrue
              have hlt := not_and.mp hgo htrue
              omega
            · omega
          obtain ⟨zs, hzs, hlen⟩ := putGrapheme_ok (style offset) hw hfits
          rw [hzs, ok_bind]
          refine ih ?_
          rw [hlen]
          split at hroom
          · rename_i htrue
            have hlt := not_and.mp hgo htrue
            rw [if_pos htrue]
            omega
          · rename_i hfalse
            rw [if_neg hfalse]
            omega

-- == forward

/-- How wide the clusters are, up to the first one that does not fit in. -/
def fill : Nat → List Nat → Nat
  | _, [] => 0
  | room, w :: ws =>
      if w = 0 then fill room ws
      else if w > room then 0
      else w + fill (room - w) ws

attribute [grind =] fill

theorem fill_le (room : Nat) (ws : List Nat) : fill room ws ≤ room := by
  induction ws generalizing room with
  | nil => exact Nat.zero_le room
  | cons w ws ih =>
      rw [fill]
      split
      · exact ih room
      · split
        · exact Nat.zero_le room
        · have hrest := ih (room - w)
          omega

/-- The room is filled if some of the clusters fill it exactly. -/
theorem fill_eq_iff {room : Nat} {ws : List Nat} :
    fill room ws = room ↔ ∃ shown rest, ws = shown ++ rest ∧
      shown.sum = room := by
  induction ws generalizing room with
  | nil =>
      rw [fill]
      constructor
      · intro h
        exact ⟨[], [], rfl, h⟩
      · rintro ⟨shown, rest, hnil, hsum⟩
        rw [(List.append_eq_nil_iff.mp hnil.symm).1] at hsum
        exact hsum
  | cons w ws ih =>
      -- A first cluster that is shown leaves the rest of the room.
      have hcons : (∃ shown rest, w :: ws = shown ++ rest ∧
          shown.sum = room) ↔ room = 0 ∨ w ≤ room ∧
            ∃ shown rest, ws = shown ++ rest ∧ shown.sum = room - w := by
        constructor
        · rintro ⟨shown, rest, heq, hsum⟩
          cases shown with
          | nil => exact .inl hsum.symm
          | cons v shown =>
              cases heq
              rw [List.sum_cons] at hsum
              exact .inr ⟨by omega, shown, rest, rfl, by omega⟩
        · rintro (hzero | ⟨hle, shown, rest, rfl, hsum⟩)
          · exact ⟨[], w :: ws, rfl, hzero.symm⟩
          · refine ⟨w :: shown, rest, rfl, ?_⟩
            rw [List.sum_cons]
            omega
      rw [hcons, ← ih, fill]
      have hle := fill_le room ws
      have hle' := fill_le (room - w) ws
      split
      · rename_i hzero
        rw [hzero, Nat.sub_zero]
        omega
      · split
        · omega
        · omega

theorem forwardLoop_painted {maxOffset : Nat} {style : Nat → σ → σ}
    (hne : ∀ g ∈ graphemes, g.2 ≠ []) {i' xOffset' : Nat}
    (h : forwardLoop G maxOffset style graphemes i xOffset xs =
      .ok (ys, i', xOffset')) :
    i' = i + fill (maxOffset - xOffset) (widths G graphemes) ∧
      xOffset' = xOffset + fill (maxOffset - xOffset) (widths G graphemes) ∧
      Painted i i' xs ys := by
  induction graphemes generalizing i xOffset xs with
  | nil =>
      cases h
      exact ⟨rfl, rfl, Painted.refl _ _⟩
  | cons g graphemes ih =>
      obtain ⟨offset, s⟩ := g
      obtain ⟨hs, hne⟩ := List.forall_mem_cons.mp hne
      have hs : s ≠ [] := hs
      have hwidths : widths G ((offset, s) :: graphemes) =
          G.width s :: widths G graphemes := rfl
      rw [forwardLoop] at h
      rw [hwidths, fill]
      split at h
      · rename_i hzero
        rw [if_pos hzero]
        exact ih hne h
      · rename_i hw
        rw [if_neg hw]
        split at h
        · rename_i hbig
          cases h
          rw [if_pos hbig]
          exact ⟨rfl, rfl, Painted.refl _ _⟩
        · rename_i hfits
          rw [if_neg hfits]
          obtain ⟨zs, hzs, h⟩ := bind_eq_ok.mp h
          obtain ⟨hi, hx, hpainted⟩ := ih hne h
          rw [← Nat.sub_sub] at hi hx
          refine ⟨by omega, by omega, ?_⟩
          exact (putGrapheme_painted hs hw hzs).trans hpainted (by omega)
            (by omega)

theorem forwardLoop_ok {maxOffset : Nat} {style : Nat → σ → σ}
    (hroom : i + (maxOffset - xOffset) ≤ xs.length) :
    ∃ r, forwardLoop G maxOffset style graphemes i xOffset xs = .ok r := by
  induction graphemes generalizing i xOffset xs with
  | nil => exact ⟨(xs, i, xOffset), rfl⟩
  | cons g graphemes ih =>
      obtain ⟨offset, s⟩ := g
      rw [forwardLoop]
      split
      · exact ih hroom
      · rename_i hw
        split
        · exact ⟨_, rfl⟩
        · rename_i hfits
          have hin : i + G.width s ≤ xs.length := by omega
          obtain ⟨zs, hzs, hlen⟩ := putGrapheme_ok (style offset) hw hin
          rw [hzs, ok_bind]
          refine ih ?_
          rw [hlen]
          omega

-- == backward

/-- No cluster from the end back reaches below zero: the first one that does
not fit in `room` takes no more than `reach` together with those that do. -/
def Reachable (room reach : Nat) (ws : List Nat) : Prop :=
  ∀ shown w rest, ws = shown ++ w :: rest → shown.sum ≤ room →
    room < shown.sum + w → shown.sum + w ≤ reach

theorem reachable_nil (room reach : Nat) : Reachable room reach [] := by
  intro shown w rest h
  cases shown <;> cases h

/-- A first cluster that does not fit ends the loop, another one leaves the
rest of the room. -/
theorem reachable_cons {room reach w : Nat} {ws : List Nat}
    (hle : room ≤ reach) :
    Reachable room reach (w :: ws) ↔
      if w ≤ room then Reachable (room - w) (reach - w) ws else w ≤ reach := by
  split
  · rename_i hw
    constructor
    · intro h shown v rest heq hroom hbig
      have hreach := h (w :: shown) v rest (by rw [heq]; rfl)
        (by rw [List.sum_cons]; omega) (by rw [List.sum_cons]; omega)
      rw [List.sum_cons] at hreach
      omega
    · intro h shown v rest heq hroom hbig
      cases shown with
      | nil =>
          cases heq
          rw [List.sum_nil, Nat.zero_add] at hbig
          omega
      | cons u shown =>
          cases heq
          rw [List.sum_cons] at hroom hbig ⊢
          have hreach := h shown v rest rfl (by omega) (by omega)
          omega
  · rename_i hw
    constructor
    · intro h
      have hreach := h [] w ws rfl (Nat.zero_le _)
        (by rw [List.sum_nil]; omega)
      rwa [List.sum_nil, Nat.zero_add] at hreach
    · intro hreach shown v rest heq hroom hbig
      cases shown with
      | nil =>
          cases heq
          rwa [List.sum_nil, Nat.zero_add]
      | cons u shown =>
          cases heq
          rw [List.sum_cons] at hroom
          omega

/-- The widths of clusters with their styles. -/
def styledWidths (G : Segmenter)
    (graphemes : List (List Char × (σ → σ))) : List Nat :=
  graphemes.map fun g => G.width g.1

/-- The loop from the end of the text back writes in front of where it
begins, and not in front of `startIndex`. -/
theorem backwardLoop_kept {startIndex : Nat}
    {graphemes : List (List Char × (σ → σ))}
    (hne : ∀ g ∈ graphemes, g.1 ≠ []) {xOffset' : Nat}
    (h : backwardLoop G startIndex graphemes i xOffset xs =
      .ok (ys, xOffset')) : Kept startIndex i xs ys := by
  induction graphemes generalizing i xOffset xs with
  | nil =>
      cases h
      exact Kept.refl _ _ _
  | cons g graphemes ih =>
      obtain ⟨s, style⟩ := g
      obtain ⟨hs, hne⟩ := List.forall_mem_cons.mp hne
      have hs : s ≠ [] := hs
      rw [backwardLoop] at h
      split at h
      · exact ih hne h
      · rename_i hw
        obtain ⟨start, hstart, h⟩ := bind_eq_ok.mp h
        unfold checkedSub at hstart
        split at hstart
        · cases hstart
          split at h
          · cases h
            exact Kept.refl _ _ _
          · rename_i hin
            obtain ⟨zs, hzs, h⟩ := bind_eq_ok.mp h
            have hput := (putGrapheme_painted hs hw hzs).toKept
            exact (hput.mono (by omega) (by omega)).trans
              ((ih hne h).mono (Nat.le_refl _) (by omega))
        · cases hstart

/-- It panics if it would step below zero, and only then. -/
theorem backwardLoop_ok {startIndex : Nat}
    {graphemes : List (List Char × (σ → σ))} (hi : i ≤ xs.length) :
    (∃ r, backwardLoop G startIndex graphemes i xOffset xs = .ok r) ↔
      Reachable (i - startIndex) i (styledWidths G graphemes) := by
  induction graphemes generalizing i xOffset xs with
  | nil => exact ⟨fun _ => reachable_nil _ _, fun _ => ⟨(xs, xOffset), rfl⟩⟩
  | cons g graphemes ih =>
      obtain ⟨s, style⟩ := g
      have hwidths : styledWidths G ((s, style) :: graphemes) =
          G.width s :: styledWidths G graphemes := rfl
      rw [backwardLoop, hwidths, reachable_cons (Nat.sub_le _ _)]
      split
      · rename_i hzero
        rw [hzero, if_pos (Nat.zero_le _), Nat.sub_zero, Nat.sub_zero, ih hi]
      · rename_i hw
        by_cases hle : G.width s ≤ i
        · rw [checkedSub_of_le hle, ok_bind]
          by_cases hin : i - G.width s < startIndex
          · rw [if_pos hin, if_neg (by omega)]
            exact ⟨fun _ => hle, fun _ => ⟨(xs, xOffset), rfl⟩⟩
          · have hput : i - G.width s + G.width s ≤ xs.length := by omega
            obtain ⟨zs, hzs, hlen⟩ := putGrapheme_ok style hw hput
            rw [if_neg hin, if_pos (by omega), hzs, ok_bind,
              ih (by omega),
              show i - G.width s - startIndex = i - startIndex - G.width s by
                omega]
        · have herr : checkedSub i (G.width s) = .error .underflow :=
            if_neg hle
          rw [herr, if_neg (by omega)]
          constructor
          · rintro ⟨r, hr⟩
            cases hr
          · exact fun h => absurd h hle

end Printing

end Zmax.Buffer
