/-
LSP positions there and back: both directions are the library's lines
under the breaks ropey is built with, and the weight of the encoding.

# The law

A char position that does not part a `\r` from its `\n` comes back, if
its line and its column are numbers the protocol can carry; a longer line
or a later one wraps at `2 ^ 32` and comes back as another place. The way
in never fails: it is on the asked line and before the line's ending, and
later positions give later chars.
-/
import Zmax.Lsp.Position
import Zmax.Core.Proofs.Lines

namespace Zmax

open Lines

variable {unicodeLines : Bool} {doc : Rope}

theorem OffsetEncoding.len_pos (offsetEncoding : OffsetEncoding) (c : Char) :
    0 < offsetEncoding.len c := by
  cases offsetEncoding with
  | utf8 => exact Char.utf8Size_pos c
  | utf32 => exact Nat.one_pos
  | utf16 => exact lenUtf16_pos c

-- == chars

/-- Chars counted in chars. -/
theorem offset_utf32 : ∀ {text : Rope} {p : Nat}, p ≤ text.length →
    offset OffsetEncoding.utf32.len text p = p
  | [], p, h => by
      obtain rfl : p = 0 := by simpa using h
      rfl
  | _ :: _, 0, _ => rfl
  | c :: rest, p + 1, h => by
      rw [offset_cons, offset_utf32 (Nat.le_of_succ_le_succ h)]
      exact Nat.add_comm _ _

theorem itemAt_utf32 {text : Rope} {b : Nat} (h : b ≤ text.length) :
    itemAt OffsetEncoding.utf32.len text b = b := by
  have hback := itemAt_offset (w := OffsetEncoding.utf32.len)
    (OffsetEncoding.len_pos .utf32) h
  rwa [offset_utf32 h] at hback

/-- A position between a `\r` and its `\n`, and no other, splits a
break. -/
theorem splits_lineBreaks {p : Nat} :
    splits (lineBreaks unicodeLines) doc p = true ↔
      0 < p ∧ doc[p - 1]? = some '\r' ∧ doc[p]? = some '\n' := by
  unfold splits Rule.joins
  rw [List.getLast?_take]
  cases p with
  | zero => simp
  | succ q =>
      rw [if_neg (Nat.succ_ne_zero q)]
      simp only [Nat.add_sub_cancel, Nat.succ_pos, true_and]
      cases hn : doc[q + 1]? with
      | none => simp
      | some b =>
          have hlt : q < doc.length := by
            have := (List.getElem?_eq_some_iff.mp hn).1
            omega
          rw [List.getElem?_eq_getElem hlt]
          simp [lineBreaks]

namespace Lsp

-- == the two ways

/-- A line's range runs from its start to its end before the break. -/
theorem lineRange_ok {l : Nat} (h : l < lenLines unicodeLines doc)
    (offsetEncoding : OffsetEncoding) :
    lineRange unicodeLines doc l offsetEncoding
      = .ok (offset offsetEncoding.len doc
            (lineStart (lineBreaks unicodeLines) doc l),
          offset offsetEncoding.len doc
            (lineEnd (lineBreaks unicodeLines) doc l)) := by
  cases offsetEncoding with
  | utf8 =>
      unfold lineRange
      rw [lineToByte_ok h.le, ok_bind, lineEndByteIndex_ok h]
      rfl
  | utf16 =>
      unfold lineRange
      rw [lineToChar_ok h.le, ok_bind, lineEndCharIndex_ok h, ok_bind,
        charToUtf16Cu_ok (lineStart_le _ _), ok_bind,
        charToUtf16Cu_ok (lineEnd_le _ _)]
      rfl
  | utf32 =>
      unfold lineRange
      rw [lineToChar_ok h.le, ok_bind, lineEndCharIndex_ok h,
        offset_utf32 (lineStart_le _ _), offset_utf32 (lineEnd_le _ _)]
      rfl

/-- `lsp_pos_to_pos` locates a line and a column. -/
theorem lspPosToPos_eq (pos : Position) (offsetEncoding : OffsetEncoding) :
    lspPosToPos unicodeLines doc pos offsetEncoding
      = .ok (some (locate (lineBreaks unicodeLines) offsetEncoding.len doc
          pos.line.toNat pos.character.toNat)) := by
  unfold lspPosToPos locate
  have hpos : 0 < lenLines unicodeLines doc := Nat.succ_pos _
  rw [show lineCount (lineBreaks unicodeLines) doc
    = lenLines unicodeLines doc from rfl]
  rw [checkedSub_of_le hpos, ok_bind]
  by_cases hline : pos.line.toNat < lenLines unicodeLines doc
  · have hend := lineEnd_le (r := lineBreaks unicodeLines) doc
      pos.line.toNat
    have hwidth : ∀ w : Char → Nat,
        offset w doc (lineEnd (lineBreaks unicodeLines) doc
          pos.line.toNat) ≤ width w doc := by
      intro w
      calc offset w doc _ ≤ offset w doc doc.length := offset_mono hend
        _ = width w doc := by unfold offset; rw [List.take_length]
    rw [if_neg (by omega), if_pos hline, lineRange_ok hline, ok_bind]
    cases offsetEncoding with
    | utf8 =>
        exact congrArg Except.ok
          (tryByteToChar_ok ((Nat.min_le_right _ _).trans (hwidth _)))
    | utf16 =>
        exact congrArg Except.ok
          (tryUtf16CuToChar_ok ((Nat.min_le_right _ _).trans (hwidth _)))
    | utf32 =>
        rw [itemAt_utf32]
        · rfl
        · rw [offset_utf32 hend]
          exact (Nat.min_le_right _ _).trans hend
  · rw [if_pos (by omega), if_neg hline]
    rfl

/-- `pos_to_lsp_pos` is the line and the column of a position, as the
protocol's numbers. -/
theorem posToLspPos_eq {p : Nat} (hp : p ≤ doc.length)
    (offsetEncoding : OffsetEncoding) :
    posToLspPos unicodeLines doc p offsetEncoding
      = .ok ⟨.ofNat (lineAt (lineBreaks unicodeLines) doc p),
          .ofNat (colAt (lineBreaks unicodeLines) offsetEncoding.len
            doc p)⟩ := by
  have hline : lineAt (lineBreaks unicodeLines) doc p
      ≤ lenLines unicodeLines doc := (lineAt_lt p).le
  have hstart := lineStart_lineAt_le (r := lineBreaks unicodeLines)
    (t := doc) p
  unfold posToLspPos colAt
  cases offsetEncoding with
  | utf8 =>
      simp only []
      rw [charToLine_ok hp, ok_bind, lineToByte_ok hline, ok_bind,
        charToByte_ok hp, ok_bind, checkedSub_of_le (offset_mono hstart)]
      rfl
  | utf16 =>
      simp only []
      rw [charToLine_ok hp, ok_bind, lineToChar_ok hline, ok_bind,
        charToUtf16Cu_ok (lineStart_le _ _), ok_bind, charToUtf16Cu_ok hp,
        ok_bind, checkedSub_of_le (offset_mono hstart)]
      rfl
  | utf32 =>
      simp only []
      rw [charToLine_ok hp, ok_bind, lineToChar_ok hline, ok_bind,
        checkedSub_of_le hstart, offset_utf32 hp,
        offset_utf32 (hstart.trans hp)]
      rfl

-- == law

/-- What a line and a column read back to when the protocol's numbers
have wrapped: the position itself, exactly when neither has. -/
theorem locate_wrapped {p : Nat} (hp : p ≤ doc.length)
    (hs : splits (lineBreaks unicodeLines) doc p = false)
    (offsetEncoding : OffsetEncoding) :
    locate (lineBreaks unicodeLines) offsetEncoding.len doc
        (lineAt (lineBreaks unicodeLines) doc p % 2 ^ 32)
        (colAt (lineBreaks unicodeLines) offsetEncoding.len doc p % 2 ^ 32)
        = p ↔
      lineAt (lineBreaks unicodeLines) doc p < 2 ^ 32 ∧
        colAt (lineBreaks unicodeLines) offsetEncoding.len doc p
          < 2 ^ 32 := by
  have hlt := lineAt_lt (r := lineBreaks unicodeLines) (t := doc) p
  constructor
  · intro h
    have hline : lineAt (lineBreaks unicodeLines) doc p < 2 ^ 32 := by
      by_contra hwrap
      have hmod : lineAt (lineBreaks unicodeLines) doc p % 2 ^ 32
          < lineAt (lineBreaks unicodeLines) doc p := by
        have := Nat.mod_lt (lineAt (lineBreaks unicodeLines) doc p)
          (show 0 < 2 ^ 32 by decide)
        omega
      have hback := lineAt_locate (r := lineBreaks unicodeLines)
        offsetEncoding.len_pos
        (colAt (lineBreaks unicodeLines) offsetEncoding.len doc p % 2 ^ 32)
        (hmod.trans hlt)
      rw [h] at hback
      omega
    refine ⟨hline, ?_⟩
    by_contra hwrap
    have hmod : colAt (lineBreaks unicodeLines) offsetEncoding.len doc p
          % 2 ^ 32
        < colAt (lineBreaks unicodeLines) offsetEncoding.len doc p := by
      have := Nat.mod_lt
        (colAt (lineBreaks unicodeLines) offsetEncoding.len doc p)
        (show 0 < 2 ^ 32 by decide)
      omega
    have hback := locate_lt hp hmod
    rw [Nat.mod_eq_of_lt hline] at h
    omega
  · rintro ⟨hline, hcol⟩
    rw [Nat.mod_eq_of_lt hline, Nat.mod_eq_of_lt hcol]
    exact locate_lineAt offsetEncoding.len_pos hp hs

/-- Every line feed ends a line. -/
theorem lineAt_replicate (n : Nat) :
    lineAt (lineBreaks unicodeLines) (List.replicate n '\n') n = n := by
  induction n with
  | zero => rfl
  | succ n ih =>
      have hends : ∀ next,
          (lineBreaks unicodeLines).ends '\n' next = true := by
        intro next
        cases next <;> simp [Rule.ends, lineBreaks]
      rw [List.replicate_succ, lineAt, hends, if_pos rfl, ih]
      exact Nat.add_comm _ _

/-- Every char position not between a `\r` and its `\n` comes back if
its line and column are below `2 ^ 32`, and only then; an LSP position on
a line of the document gives a char index on that line, the line's end
before its ending if the character is past it; and later LSP positions
give later chars. -/
theorem position_law (unicodeLines : Bool) (doc : Rope)
    (offsetEncoding : OffsetEncoding) :
    (∀ p ≤ doc.length,
      ¬ (0 < p ∧ doc[p - 1]? = some '\r' ∧ doc[p]? = some '\n') →
        ∃ pos, posToLspPos unicodeLines doc p offsetEncoding = .ok pos ∧
          (lspPosToPos unicodeLines doc pos offsetEncoding = .ok (some p) ↔
            lineAt (lineBreaks unicodeLines) doc p < 2 ^ 32 ∧
              colAt (lineBreaks unicodeLines) offsetEncoding.len doc p
                < 2 ^ 32)) ∧
    (∀ pos : Position, pos.line.toNat < lenLines unicodeLines doc →
      ∃ i start stop,
        lspPosToPos unicodeLines doc pos offsetEncoding = .ok (some i) ∧
        charToLine unicodeLines doc i = .ok pos.line.toNat ∧
        lineToChar unicodeLines doc pos.line.toNat = .ok start ∧
        lineEndCharIndex unicodeLines doc pos.line.toNat = .ok stop ∧
        start ≤ i ∧ i ≤ stop ∧
        (width offsetEncoding.len ((doc.take stop).drop start)
            ≤ pos.character.toNat → i = stop)) ∧
    (∀ a b : Position, a.le b → ∃ i j,
      lspPosToPos unicodeLines doc a offsetEncoding = .ok (some i) ∧
      lspPosToPos unicodeLines doc b offsetEncoding = .ok (some j) ∧
      i ≤ j) := by
  have hw := offsetEncoding.len_pos
  refine ⟨?_, ?_, ?_⟩
  · intro p hp hcut
    have hs : splits (lineBreaks unicodeLines) doc p = false := by
      rw [← Bool.not_eq_true, splits_lineBreaks]
      exact hcut
    refine ⟨_, posToLspPos_eq hp offsetEncoding, ?_⟩
    rw [lspPosToPos_eq, ← locate_wrapped hp hs offsetEncoding]
    simp only [UInt32.toNat_ofNat', Except.ok.injEq, Option.some.injEq]
  · intro pos hline
    obtain ⟨hge, hle⟩ := locate_mem (r := lineBreaks unicodeLines)
      (t := doc) hw pos.character.toNat hline
    refine ⟨_, _, _, lspPosToPos_eq pos offsetEncoding, ?_,
      lineToChar_ok hline.le, lineEndCharIndex_ok hline, hge, hle, ?_⟩
    · rw [charToLine_ok (locate_le _ _), lineAt_locate hw _ hline]
    · intro hlong
      apply locate_eq_lineEnd hw hline
      have hsplit := lineStart_le_lineEnd hline
      have hoff := offset_take_drop (w := offsetEncoding.len) (t := doc)
        hsplit
      omega
  · intro a b hab
    refine ⟨_, _, lspPosToPos_eq a offsetEncoding,
      lspPosToPos_eq b offsetEncoding, locate_mono hw ?_⟩
    rcases hab with hlt | ⟨heq, hle⟩
    · exact .inl hlt
    · exact .inr ⟨congrArg UInt32.toNat heq, hle⟩

/-- The end of a document of at least `2 ^ 32` line feeds does not come
back. -/
theorem replicate_not_back {n : Nat} (hn : 2 ^ 32 ≤ n)
    {offsetEncoding : OffsetEncoding} {pos : Position}
    (hpos : posToLspPos unicodeLines (List.replicate n '\n') n offsetEncoding
      = .ok pos) :
    lspPosToPos unicodeLines (List.replicate n '\n') pos offsetEncoding
      ≠ .ok (some n) := by
  have hlen : n ≤ (List.replicate n '\n').length :=
    List.length_replicate.ge
  have hs : splits (lineBreaks unicodeLines) (List.replicate n '\n') n
      = false := by
    rw [← Bool.not_eq_true, splits_lineBreaks]
    rintro ⟨_, _, hnext⟩
    rw [List.getElem?_eq_none List.length_replicate.le] at hnext
    cases hnext
  rw [posToLspPos_eq hlen] at hpos
  injection hpos with hpos
  subst hpos
  intro hback
  rw [lspPosToPos_eq] at hback
  injection hback with hback
  injection hback with hback
  rw [UInt32.toNat_ofNat', UInt32.toNat_ofNat', locate_wrapped hlen hs,
    lineAt_replicate] at hback
  omega

/-- A document of `2 ^ 32` line feeds: its end is on a line the protocol
has no number for, and comes back as the start. -/
theorem not_position_law_wrapped :
    ¬ ∀ (unicodeLines : Bool) (doc : Rope) (offsetEncoding : OffsetEncoding)
      (p : Nat), p ≤ doc.length →
      ¬ (0 < p ∧ doc[p - 1]? = some '\r' ∧ doc[p]? = some '\n') →
        ∃ pos, posToLspPos unicodeLines doc p offsetEncoding = .ok pos ∧
          lspPosToPos unicodeLines doc pos offsetEncoding
            = .ok (some p) := by
  intro h
  have hnext : ¬ (0 < 2 ^ 32
      ∧ (List.replicate (2 ^ 32) '\n')[2 ^ 32 - 1]? = some '\r'
      ∧ (List.replicate (2 ^ 32) '\n')[2 ^ 32]? = some '\n') := by
    rintro ⟨_, _, hnext⟩
    rw [List.getElem?_eq_none List.length_replicate.le] at hnext
    cases hnext
  obtain ⟨pos, hpos, hback⟩ := h false (List.replicate (2 ^ 32) '\n') .utf8
    (2 ^ 32) List.length_replicate.ge hnext
  exact replicate_not_back le_rfl hpos hback

end Lsp

end Zmax
