/-
The line index against the library's lines: `line_end_char_index` and
`line_end_byte_index` stop in front of the break that ends the line, for
both builds.

The line ending of a line is looked for in its last two chars. The chars
the line loses for it are the ones between its end and the start of the
next line (`take_lineStart_succ`).
-/
import Zmax.Core.Lines

namespace Zmax

open Lines

variable {unicodeLines : Bool} {doc : Rope}

theorem lenUtf16_pos (c : Char) : 0 < lenUtf16 c := by
  unfold lenUtf16
  split_ifs <;> omega

-- == endings

/-- The chars of a line's ending. -/
def endingOf (unicodeLines : Bool) (line : Rope) : Tendril :=
  ((getLineEnding unicodeLines line).map LineEnding.asStr).getD []

theorem LineEnding.length_asStr (le : LineEnding) :
    le.asStr.length = le.lenChars := by
  cases le <;> rfl

theorem lenChars_endingOf (line : Rope) :
    ((getLineEnding unicodeLines line).map LineEnding.lenChars).getD 0
      = (endingOf unicodeLines line).length := by
  unfold endingOf
  cases getLineEnding unicodeLines line with
  | none => rfl
  | some le => exact le.length_asStr.symm

theorem lenBytes_endingOf (line : Rope) :
    ((getLineEnding unicodeLines line).map
        fun le => width Char.utf8Size le.asStr).getD 0
      = width Char.utf8Size (endingOf unicodeLines line) := by
  unfold endingOf
  cases getLineEnding unicodeLines line <;> rfl

private theorem fromStr_singleton (c : Char) :
    (((LineEnding.fromStr unicodeLines [c]).map LineEnding.asStr).getD [])
      = if (lineBreaks unicodeLines).breaks c then [c] else [] := by
  unfold LineEnding.fromStr lineBreaks
  cases unicodeLines with
  | false => by_cases h : c = '\n' <;> simp [h, LineEnding.asStr]
  | true =>
      simp only [List.cons.injEq, and_true, if_false, Bool.not_true,
        Bool.false_eq_true, Bool.true_and, Bool.or_eq_true, beq_iff_eq]
      split_ifs <;> simp_all [LineEnding.asStr]

private theorem fromStr_pair (c d : Char) :
    LineEnding.fromStr unicodeLines [c, d]
      = if (lineBreaks unicodeLines).pair c d then some .crlf else none := by
  unfold LineEnding.fromStr lineBreaks
  by_cases h : c = '\r' ∧ d = '\n'
  · simp [h.1, h.2]
  · rw [if_neg (by simpa using h)]
    simpa using h

theorem endingOf_nil : endingOf unicodeLines [] = [] := by
  cases unicodeLines <;> rfl

theorem endingOf_singleton (c : Char) :
    endingOf unicodeLines [c]
      = if (lineBreaks unicodeLines).breaks c then [c] else [] := by
  rw [← fromStr_singleton]
  unfold endingOf getLineEnding
  show (Option.map _ (Option.or (LineEnding.fromStr _ [c])
    (LineEnding.fromStr _ [c]))).getD [] = _
  rw [Option.or_self]

theorem endingOf_pair (c d : Char) :
    endingOf unicodeLines [c, d]
      = if (lineBreaks unicodeLines).pair c d then [c, d]
        else endingOf unicodeLines [d] := by
  rw [endingOf_singleton, ← fromStr_singleton]
  unfold endingOf getLineEnding
  show (Option.map _ (Option.or (LineEnding.fromStr _ [c, d])
    (LineEnding.fromStr _ [d]))).getD [] = _
  rw [fromStr_pair]
  cases h : (lineBreaks unicodeLines).pair c d with
  | false => simp
  | true =>
      simp only [lineBreaks, Bool.and_eq_true, beq_iff_eq] at h
      simp [h.1, h.2, LineEnding.asStr]

/-- Only the last two chars count. -/
theorem endingOf_cons (c d e : Char) (rest : Rope) :
    endingOf unicodeLines (c :: d :: e :: rest)
      = endingOf unicodeLines (d :: e :: rest) := by
  unfold endingOf getLineEnding
  simp only [List.length_cons]
  rw [show rest.length + 1 + 1 + 1 - 2 = rest.length + 1 by omega,
    show rest.length + 1 + 1 + 1 - 1 = rest.length + 1 + 1 by omega,
    show rest.length + 1 + 1 - 2 = rest.length by omega,
    show rest.length + 1 + 1 - 1 = rest.length + 1 by omega,
    List.drop_succ_cons, List.drop_succ_cons]

/-- A char no break begins at does not change the ending. -/
theorem endingOf_cons_of_not_begins {c : Char} {line : Rope}
    (h : (lineBreaks unicodeLines).begins c line.head? = false) :
    endingOf unicodeLines (c :: line) = endingOf unicodeLines line := by
  unfold Rule.begins at h
  rw [Bool.or_eq_false_iff] at h
  cases line with
  | nil =>
      rw [endingOf_singleton, h.1, endingOf_nil]
      rfl
  | cons d rest =>
      cases rest with
      | nil =>
          have hp : (lineBreaks unicodeLines).pair c d = false := h.2
          rw [endingOf_pair, hp]
          rfl
      | cons e rest => exact endingOf_cons c d e rest

-- == lines

/-- A line with its ending. -/
def lineOf (unicodeLines : Bool) (doc : Rope) (l : Nat) : Rope :=
  (doc.drop (lineStart (lineBreaks unicodeLines) doc l)).take
    (lineStart (lineBreaks unicodeLines) doc (l + 1)
      - lineStart (lineBreaks unicodeLines) doc l)

private theorem lineOf_cons (c : Char) (rest : Rope) (l : Nat) :
    lineOf unicodeLines (c :: rest) (l + 1)
      = lineOf unicodeLines rest
          (if (lineBreaks unicodeLines).ends c rest.head? then l
            else l + 1) := by
  unfold lineOf
  simp only [lineStart, List.drop_succ_cons]
  rw [Nat.add_sub_add_right]
  split_ifs <;> rfl

/-- The text up to the next line is the text up to a line's end and the
line's ending. -/
theorem take_lineStart_succ : ∀ (doc : Rope) (l : Nat),
    doc.take (lineStart (lineBreaks unicodeLines) doc (l + 1))
      = doc.take (lineEnd (lineBreaks unicodeLines) doc l)
          ++ endingOf unicodeLines (lineOf unicodeLines doc l)
  | [], l => by
      unfold lineOf
      simp [endingOf_nil]
  | c :: rest, l + 1 => by
      rw [lineOf_cons]
      simp only [lineStart, lineEnd, List.take_succ_cons, List.cons_append]
      split_ifs
      · rw [take_lineStart_succ rest l]
      · rw [take_lineStart_succ rest (l + 1)]
  | c :: rest, 0 => by
      have ih := take_lineStart_succ rest 0
      have hline : lineOf unicodeLines rest 0
          = rest.take (lineStart (lineBreaks unicodeLines) rest 1) := by
        unfold lineOf
        simp
      cases he : (lineBreaks unicodeLines).ends c rest.head? with
      | true =>
          have hb := Rule.begins_of_ends he
          have hc : (lineBreaks unicodeLines).breaks c = true := by
            unfold Rule.ends at he
            exact (Bool.and_eq_true _ _ ▸ he).1
          unfold lineOf
          simp only [lineStart, lineEnd, he, hb, if_true, lineStart_zero]
          show [c] = [] ++ endingOf unicodeLines [c]
          rw [endingOf_singleton, if_pos hc]
          rfl
      | false =>
          have hthis : lineOf unicodeLines (c :: rest) 0
              = c :: lineOf unicodeLines rest 0 := by
            rw [hline]
            unfold lineOf
            simp [lineStart, he]
          rw [hthis]
          simp only [lineStart, lineEnd, he, Bool.false_eq_true, if_false,
            List.take_succ_cons]
          cases hb : (lineBreaks unicodeLines).begins c rest.head? with
          | true =>
              rcases Rule.begins_cases hb with h | ⟨_, d, hd, hpair⟩
              · rw [he] at h
                cases h
              · cases rest with
                | nil => cases hd
                | cons e rest =>
                    injection hd with hd
                    subst hd
                    rw [hline]
                    simp only [lineStart, Rule.ends_snd hpair, if_true,
                      lineStart_zero, Nat.zero_add]
                    show [c, e] = [] ++ endingOf unicodeLines [c, e]
                    rw [endingOf_pair, if_pos hpair]
                    rfl
          | false =>
              have hhead : (lineOf unicodeLines rest 0).head?
                  = rest.head? := by
                rw [hline]
                cases rest with
                | nil => rfl
                | cons d rest =>
                    simp only [lineStart, List.take_succ_cons]
                    rfl
              rw [endingOf_cons_of_not_begins (by rw [hhead]; exact hb), ih]
              simp

/-- A line's end and its ending reach up to the next line. -/
theorem lineEnd_add_endingOf (l : Nat) :
    lineEnd (lineBreaks unicodeLines) doc l
        + (endingOf unicodeLines (lineOf unicodeLines doc l)).length
      = lineStart (lineBreaks unicodeLines) doc (l + 1) := by
  have h := congrArg List.length
    (@take_lineStart_succ unicodeLines doc l)
  rw [List.length_append, List.length_take, List.length_take,
    Nat.min_eq_left (lineStart_le _ _), Nat.min_eq_left (lineEnd_le _ _)] at h
  exact h.symm

-- == the functions' results

theorem lineToChar_ok {l : Nat} (h : l ≤ lenLines unicodeLines doc) :
    lineToChar unicodeLines doc l
      = .ok (lineStart (lineBreaks unicodeLines) doc l) := by
  unfold lineToChar
  rw [if_pos h]

theorem charToLine_ok {p : Nat} (h : p ≤ doc.length) :
    charToLine unicodeLines doc p
      = .ok (lineAt (lineBreaks unicodeLines) doc p) := by
  unfold charToLine
  rw [if_pos h]

theorem charToByte_ok {p : Nat} (h : p ≤ doc.length) :
    charToByte doc p = .ok (offset Char.utf8Size doc p) := by
  unfold charToByte
  rw [if_pos h]

theorem charToUtf16Cu_ok {p : Nat} (h : p ≤ doc.length) :
    charToUtf16Cu doc p = .ok (offset lenUtf16 doc p) := by
  unfold charToUtf16Cu
  rw [if_pos h]

theorem tryByteToChar_ok {b : Nat} (h : b ≤ width Char.utf8Size doc) :
    tryByteToChar doc b = some (itemAt Char.utf8Size doc b) := by
  unfold tryByteToChar
  rw [if_pos h]

theorem tryUtf16CuToChar_ok {b : Nat} (h : b ≤ width lenUtf16 doc) :
    tryUtf16CuToChar doc b = some (itemAt lenUtf16 doc b) := by
  unfold tryUtf16CuToChar
  rw [if_pos h]

theorem lineToByte_ok {l : Nat} (h : l ≤ lenLines unicodeLines doc) :
    lineToByte unicodeLines doc l
      = .ok (offset Char.utf8Size doc
          (lineStart (lineBreaks unicodeLines) doc l)) := by
  unfold lineToByte
  rw [lineToChar_ok h, ok_bind, charToByte_ok (lineStart_le _ _)]

theorem line_ok {l : Nat} (h : l < lenLines unicodeLines doc) :
    line unicodeLines doc l = .ok (lineOf unicodeLines doc l) := by
  unfold line
  rw [if_pos h, lineToChar_ok h.le, ok_bind, lineToChar_ok h, ok_bind]
  rfl

/-- `line_end_char_index` is the line's end, before its break. -/
theorem lineEndCharIndex_ok {l : Nat} (h : l < lenLines unicodeLines doc) :
    lineEndCharIndex unicodeLines doc l
      = .ok (lineEnd (lineBreaks unicodeLines) doc l) := by
  unfold lineEndCharIndex
  rw [lineToChar_ok (l := l + 1) h, ok_bind, line_ok h, ok_bind,
    lenChars_endingOf, ← lineEnd_add_endingOf,
    checkedSub_of_le (Nat.le_add_left _ _), Nat.add_sub_cancel]

/-- `line_end_byte_index` is the byte at that end. -/
theorem lineEndByteIndex_ok {l : Nat} (h : l < lenLines unicodeLines doc) :
    lineEndByteIndex unicodeLines doc l
      = .ok (offset Char.utf8Size doc
          (lineEnd (lineBreaks unicodeLines) doc l)) := by
  unfold lineEndByteIndex
  have hsum : offset Char.utf8Size doc
        (lineStart (lineBreaks unicodeLines) doc (l + 1))
      = offset Char.utf8Size doc (lineEnd (lineBreaks unicodeLines) doc l)
        + width Char.utf8Size
          (endingOf unicodeLines (lineOf unicodeLines doc l)) := by
    unfold offset
    rw [take_lineStart_succ, width_append]
  rw [lineToByte_ok (l := l + 1) h, ok_bind, line_ok h, ok_bind,
    lenBytes_endingOf, hsum, checkedSub_of_le (Nat.le_add_left _ _),
    Nat.add_sub_cancel]

end Zmax
