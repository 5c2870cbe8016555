/-
The separators of an incremented number.

A text is spread from the chars of its number, and the source puts the
separators back by their indexes from the right, so the new chars end up
with the same gaps, as far as there are chars to the left of a gap
(`putBack_spread`). The loop for more separators makes progress unless the
leftmost gap has two of them.
-/
import Zmax.Core.Increment
import Zmax.Lib.Gapped

namespace Zmax.Increment

open Text Gapped

variable {gaps : Nat → Nat} {word chars text : List Char}

-- == indexes

theorem separatorRtlIndexes_cons (c : Char) (s : List Char) :
    separatorRtlIndexes (c :: s) =
      separatorRtlIndexes s ++ if c = SEPARATOR then [s.length] else [] := by
  unfold separatorRtlIndexes
  rw [List.reverse_cons, List.zipIdx_append, List.filterMap_append,
    List.length_reverse, Nat.zero_add]
  congr 1
  by_cases h : c = SEPARATOR
  · simp [h]
  · simp [h]

theorem separators_replicate (n : Nat) (s : List Char) :
    separatorRtlIndexes (List.replicate n SEPARATOR ++ s) =
      separatorRtlIndexes s ++ List.range' s.length n := by
  induction n with
  | zero => exact (List.append_nil _).symm
  | succ n ih =>
      rw [List.replicate_succ, List.cons_append, separatorRtlIndexes_cons, ih,
        if_pos rfl, List.range'_1_concat, List.append_assoc,
        List.length_append, List.length_replicate, Nat.add_comm n]

theorem separators_spread {c : Char} (hc : c ≠ SEPARATOR) :
    separatorRtlIndexes (spread SEPARATOR gaps (c :: word)) =
      separatorRtlIndexes (spread SEPARATOR gaps word) ++
        List.range' (spread SEPARATOR gaps word).length
          (gaps word.length) := by
  rw [spread, separatorRtlIndexes_cons, if_neg hc, List.append_nil,
    separators_replicate]

theorem length_separators (hword : SEPARATOR ∉ word) :
    (separatorRtlIndexes (spread SEPARATOR gaps word)).length =
      total gaps word.length := by
  induction word with
  | nil => rfl
  | cons c word ih =>
      rw [List.mem_cons, not_or] at hword
      rw [separators_spread (Ne.symm hword.1), List.length_append,
        List.length_range', ih hword.2]
      rfl

-- == put back

variable {front : List Char} {p q : Nat}

/-- Separators put back in front of a rest. -/
theorem putBack_range {rest : List Char} (hfront : front ≠ []) (n : Nat) :
    (List.range' rest.length n).foldl putBack (front ++ rest) =
      front ++ (List.replicate n SEPARATOR ++ rest) := by
  induction n with
  | zero => rfl
  | succ n ih =>
      have hpos := List.length_pos_iff.mpr hfront
      have hlen : (front ++ (List.replicate n SEPARATOR ++ rest)).length =
          front.length + (n + rest.length) := by
        rw [List.length_append, List.length_append, List.length_replicate]
      have hindex : front.length + (n + rest.length) - (rest.length + n) =
          front.length := by omega
      rw [List.range'_1_concat, List.foldl_append, ih, List.foldl_cons,
        List.foldl_nil, putBack, hlen, if_pos (by omega), hindex,
        if_pos hpos, insertAt, List.take_left, List.drop_left,
        List.replicate_succ]
      rfl

theorem putBack_over {m : Nat} (h : text.length ≤ m) (n : Nat) :
    (List.range' m n).foldl putBack text = text := by
  induction n generalizing m with
  | zero => rfl
  | succ n ih =>
      rw [List.range'_succ, List.foldl_cons, putBack, if_neg (by omega)]
      exact ih (by omega)

/-- The gaps of some chars, if they are as many as the elements of a word. -/
def within (gaps : Nat → Nat) (n : Nat) (p : Nat) : Nat :=
  if p < n then gaps p else 0

theorem within_of_lt {n : Nat} (h : p < n) : within gaps n p = gaps p :=
  if_pos h

theorem within_of_ge {n : Nat} (h : n ≤ p) : within gaps n p = 0 :=
  if_neg (Nat.not_lt.mpr h)

/-- All separators put back: the new chars have the gaps of the old ones. -/
theorem putBack_spread (hword : SEPARATOR ∉ word) (chars : List Char) :
    (separatorRtlIndexes (spread SEPARATOR gaps word)).foldl putBack chars =
      spread SEPARATOR (within gaps word.length) chars := by
  induction word with
  | nil =>
      refine (spread_zero fun p _ => ?_).symm
      exact if_neg (Nat.not_lt_zero p)
  | cons c word ih =>
      rw [List.mem_cons, not_or] at hword
      rw [separators_spread (Ne.symm hword.1), List.foldl_append,
        ih hword.2, length_spread, List.length_cons]
      rcases Nat.lt_or_ge word.length chars.length with hlt | hge
      · obtain ⟨front, rest, rfl, hrest⟩ : ∃ front rest,
            chars = front ++ rest ∧ rest.length = word.length :=
          ⟨chars.take (chars.length - word.length),
            chars.drop (chars.length - word.length),
            (List.take_append_drop _ _).symm, by
              rw [List.length_drop]
              omega⟩
        rw [List.length_append] at hlt
        have hfront : front ≠ [] := by
          rintro rfl
          rw [List.length_nil] at hlt
          omega
        have hin : ∀ p < rest.length, within gaps word.length p = gaps p :=
          fun p hp => within_of_lt (hrest ▸ hp)
        have hin' : ∀ p < rest.length,
            within gaps (word.length + 1) p = gaps p := fun p hp =>
          within_of_lt (Nat.lt_succ_of_lt (hrest ▸ hp))
        have hlast : within gaps (word.length + 1) rest.length =
            gaps word.length := by
          rw [hrest]
          exact within_of_lt (Nat.lt_succ_self _)
        have hbefore : spread SEPARATOR (within gaps word.length)
            (front ++ rest) = front ++ spread SEPARATOR gaps rest := by
          rw [spread_append, spread_congr hin]
          congr 1
          exact spread_zero fun p _ => within_of_ge (by omega)
        have hafter : spread SEPARATOR (within gaps (word.length + 1))
            (front ++ rest) =
              front ++ (List.replicate (gaps word.length) SEPARATOR ++
                spread SEPARATOR gaps rest) := by
          rw [spread_split hfront fun p hp _ => within_of_ge (by omega),
            spread_congr hin', hlast]
        have hlen : word.length + total gaps word.length =
            (spread SEPARATOR gaps rest).length := by
          rw [length_spread, hrest]
        rw [hbefore, hafter, hlen]
        exact putBack_range hfront _
      · rw [putBack_over]
        · refine spread_congr fun p hp => ?_
          rw [within_of_lt (by omega), within_of_lt (by omega)]
        · have hcount : total (within gaps word.length) chars.length =
              total gaps chars.length :=
            total_congr fun p hp => within_of_lt (by omega)
          rw [length_spread, hcount]
          have hmono := @total_mono gaps _ _ hge
          omega

-- == spacing

theorem separators_front (hfront : SEPARATOR ∉ front) (rest : List Char) :
    separatorRtlIndexes (front ++ rest) =
      separatorRtlIndexes rest := by
  induction front with
  | nil => rfl
  | cons c front ih =>
      rw [List.mem_cons, not_or] at hfront
      rw [List.cons_append, separatorRtlIndexes_cons,
        if_neg (Ne.symm hfront.1), List.append_nil, ih hfront.2]

/-- Chars by a place among them. -/
theorem exists_split {q : Nat} (h : q ≤ chars.length) :
    ∃ front rest, chars = front ++ rest ∧ rest.length = q :=
  ⟨chars.take (chars.length - q), chars.drop (chars.length - q),
    (List.take_append_drop _ _).symm, by
      rw [List.length_drop]
      omega⟩

/-- The leftmost gap of some chars, and what is behind it. -/
theorem exists_leftmost_split (hq : q < chars.length)
    (hleft : ∀ p, q < p → p < chars.length → gaps p = 0) :
    ∃ front rest, chars = front ++ rest ∧ rest.length = q ∧ front ≠ [] ∧
      spread SEPARATOR gaps chars = front ++
        (List.replicate (gaps q) SEPARATOR ++ spread SEPARATOR gaps rest) := by
  obtain ⟨front, rest, rfl, rfl⟩ := exists_split (Nat.le_of_lt hq)
  rw [List.length_append] at hq hleft
  have hfront : front ≠ [] := by
    rintro rfl
    rw [List.length_nil] at hq
    omega
  exact ⟨front, rest, rfl, rfl, hfront, spread_split hfront hleft⟩

theorem separators_leftmost {q : Nat} (hword : SEPARATOR ∉ word)
    (hq : q < word.length)
    (hleft : ∀ p, q < p → p < word.length → gaps p = 0) :
    ∃ rest, rest.length = q ∧ SEPARATOR ∉ rest ∧
      separatorRtlIndexes (spread SEPARATOR gaps word) =
        separatorRtlIndexes (spread SEPARATOR gaps rest) ++
          List.range' (q + total gaps q) (gaps q) := by
  obtain ⟨front, rest, rfl, hrest, -, hspread⟩ :=
    exists_leftmost_split hq hleft
  rw [List.mem_append, not_or] at hword
  refine ⟨rest, hrest, hword.2, ?_⟩
  rw [hspread, separators_front hword.1, separators_replicate, length_spread,
    hrest]

/-- No progress is made from two separators in the leftmost gap. -/
theorem spacingOf_crowded (hword : SEPARATOR ∉ word) (hq : q < word.length)
    (hleft : ∀ p, q < p → p < word.length → gaps p = 0) (h : 2 ≤ gaps q) :
    spacingOf (separatorRtlIndexes (spread SEPARATOR gaps word)) = .ok 0 := by
  obtain ⟨rest, -, -, hsep⟩ := separators_leftmost hword hq hleft
  obtain ⟨k, hk⟩ := Nat.exists_eq_add_of_le' h
  rw [hsep, hk, spacingOf, List.range'_1_concat, List.range'_1_concat,
    List.reverse_append, List.reverse_append, List.reverse_append]
  show (do
    let d ← checkedSub (q + total gaps q + (k + 1)) (q + total gaps q + k)
    checkedSub d 1) = .ok 0
  rw [checkedSub_of_le (by omega), ok_bind, checkedSub_of_le (by omega)]
  congr 1
  omega

/-- The spacing of single separators: from the leftmost gap to the next one,
or to the end. -/
theorem spacingOf_single (hword : SEPARATOR ∉ word) (hq : q < word.length)
    (hleft : ∀ p, q < p → p < word.length → gaps p = 0) (h : gaps q = 1)
    (hend : gaps 0 = 0) :
    ∃ r < q, (r = 0 ∨ gaps r ≠ 0) ∧ (∀ p, r < p → p < q → gaps p = 0) ∧
      spacingOf (separatorRtlIndexes (spread SEPARATOR gaps word)) =
        .ok (q - r) := by
  obtain ⟨rest, hrest, hword', hsep⟩ := separators_leftmost hword hq hleft
  have hpos : q ≠ 0 := by
    rintro rfl
    omega
  rw [hsep, h]
  by_cases hnone : total gaps q = 0
  · have hzero : ∀ p < q, gaps p = 0 := by
      intro p hp
      have hmono := @total_mono gaps _ _ (show p + 1 ≤ q from hp)
      rw [total] at hmono
      omega
    have hnil : separatorRtlIndexes (spread SEPARATOR gaps rest) = [] := by
      rw [← List.length_eq_zero_iff, length_separators hword', hrest, hnone]
    refine ⟨0, by omega, .inl rfl, fun p _ hp => hzero p hp, ?_⟩
    rw [hnil, hnone]
    rfl
  · obtain ⟨r, hr, hgap, hbetween⟩ := exists_leftmost hnone
    refine ⟨r, hr, .inr hgap, hbetween, ?_⟩
    obtain ⟨rest', -, -, hsep'⟩ := @separators_leftmost gaps rest r hword'
      (by omega) fun p hp hpr => hbetween p hp (by omega)
    obtain ⟨k, hk⟩ := Nat.exists_eq_succ_of_ne_zero hgap
    have htotal : total gaps q = total gaps (r + 1) :=
      total_eq_of_zero hr fun p hp hpq => hbetween p hp hpq
    rw [total] at htotal
    rw [hsep', hk, Nat.succ_eq_add_one, List.range'_1_concat, spacingOf,
      List.reverse_append, List.reverse_append, List.reverse_append]
    show (do
      let d ← checkedSub (q + total gaps q) (r + total gaps r + k)
      checkedSub d 1) = .ok (q - r)
    rw [checkedSub_of_le (by omega), ok_bind, checkedSub_of_le (by omega)]
    congr 1
    omega

-- == more separators

theorem findIdx_front (hfront : SEPARATOR ∉ front) (rest : List Char) :
    (front ++ SEPARATOR :: rest).findIdx? (· = SEPARATOR) =
      some front.length := by
  induction front with
  | nil =>
      rw [List.nil_append, List.findIdx?_cons, if_pos (decide_eq_true rfl)]
      rfl
  | cons c front ih =>
      rw [List.mem_cons, not_or] at hfront
      rw [List.cons_append, List.findIdx?_cons,
        if_neg (by simpa using Ne.symm hfront.1), ih hfront.2]
      rfl

/-- The gaps of every so many chars, up to a bound. -/
def steps (spacing bound p : Nat) : Nat :=
  if 0 < p ∧ spacing ∣ p ∧ p < bound then 1 else 0

theorem steps_zero {spacing bound : Nat} (h : p < spacing) :
    steps spacing bound p = 0 := by
  refine if_neg ?_
  rintro ⟨hpos, hdvd, -⟩
  exact absurd (Nat.le_of_dvd hpos hdvd) (Nat.not_le.mpr h)

theorem addSeparators_eq {spacing prefixLength : Nat}
    (hspacing : 0 < spacing) (h : prefixLength ≤ front.length)
    (rest : List Char) {fuel : Nat} (hfuel : front.length < fuel) :
    addSeparators prefixLength spacing fuel front.length (front ++ rest) =
      .ok (spread SEPARATOR (steps spacing (front.length - prefixLength))
        front ++ rest) := by
  induction fuel generalizing front rest with
  | zero => exact absurd hfuel (Nat.not_lt_zero _)
  | succ fuel ih =>
      rw [addSeparators, checkedSub_of_le h, ok_bind]
      by_cases hroom : front.length - prefixLength > spacing
      · obtain ⟨left, right, rfl, rfl⟩ := @exists_split front spacing
          (show spacing ≤ front.length by omega)
        rw [List.length_append] at h hfuel hroom ⊢
        have hleft : left ≠ [] := by
          rintro rfl
          rw [List.length_nil] at hroom
          omega
        have hinsert : insertAt (left ++ right ++ rest) left.length SEPARATOR =
            left ++ (SEPARATOR :: (right ++ rest)) := by
          rw [insertAt, List.append_assoc, List.take_left, List.drop_left]
        rw [if_pos hroom, checkedSub_of_le (by omega), ok_bind,
          Nat.add_sub_cancel, hinsert, ih (by omega) _ (by omega),
          spread_append, @spread_zero _ _ _ right fun p hp => steps_zero hp,
          @spread_end _ _ (fun p => steps _ _ (p + right.length)) _ hleft]
        have hsame : spread SEPARATOR (fun p => if p = 0 then 0 else
            steps right.length (left.length + right.length - prefixLength)
              (p + right.length)) left =
            spread SEPARATOR (steps right.length (left.length - prefixLength))
              left := by
          refine spread_congr fun p hp => ?_
          unfold steps
          by_cases hzero : p = 0
          · rw [if_pos hzero, if_neg (by omega)]
          · rw [if_neg hzero]
            refine if_congr ?_ rfl rfl
            rw [Nat.dvd_add_self_right]
            omega
        have hone : steps right.length
            (left.length + right.length - prefixLength) (0 + right.length) =
              1 := by
          refine if_pos ⟨by omega, ?_, by omega⟩
          rw [Nat.zero_add]
        rw [hsame, hone, List.append_assoc, List.append_assoc]
        rfl
      · rw [if_neg hroom, spread_zero]
        · rfl
        · intro p hp
          refine if_neg ?_
          rintro ⟨hpos, hdvd, hlt⟩
          have hle := Nat.le_of_dvd hpos hdvd
          omega

/-- Without a spacing, no turn of the loop makes progress. -/
theorem addSeparators_diverges {prefixLength : Nat} {fuel i : Nat}
    (h : prefixLength < i) (newText : List Char) :
    addSeparators prefixLength 0 fuel i newText = .error .diverges := by
  induction fuel generalizing newText with
  | zero => rfl
  | succ fuel ih =>
      rw [addSeparators, checkedSub_of_le (by omega), ok_bind,
        if_pos (by omega), checkedSub_of_le (by omega), ok_bind]
      exact ih _

-- == all of them

variable {prefixLength : Nat}

/-- What is no longer than the old number gets no additional separators. -/
theorem withSeparators_short (hword : SEPARATOR ∉ word)
    (h : chars.length ≤ word.length) :
    withSeparators (spread SEPARATOR gaps word)
        (separatorRtlIndexes (spread SEPARATOR gaps word)) prefixLength chars =
      .ok (spread SEPARATOR gaps chars) := by
  have hsame : spread SEPARATOR (within gaps word.length) chars =
      spread SEPARATOR gaps chars :=
    spread_congr fun p hp => within_of_lt (by omega)
  have hmono := @total_mono gaps _ _ h
  have hle : (spread SEPARATOR gaps chars).length ≤
      (spread SEPARATOR gaps word).length := by
    rw [length_spread, length_spread]
    omega
  unfold withSeparators
  simp only [putBack_spread hword, hsame]
  rw [if_neg fun hmore => absurd hmore.1 (Nat.not_lt.mpr hle)]
  rfl

/-- Nor does what has no separators. -/
theorem withSeparators_none (hword : SEPARATOR ∉ word)
    (h : total gaps word.length = 0) :
    withSeparators (spread SEPARATOR gaps word)
        (separatorRtlIndexes (spread SEPARATOR gaps word)) prefixLength chars =
      .ok chars := by
  have hnil : separatorRtlIndexes (spread SEPARATOR gaps word) = [] := by
    rw [← List.length_eq_zero_iff, length_separators hword, h]
  unfold withSeparators
  rw [hnil, if_neg (fun hne => hne.2 rfl)]
  rfl

/-- A longer number up to the loop for more separators. -/
theorem withSeparators_long (hword : SEPARATOR ∉ word)
    (hchars : SEPARATOR ∉ chars) (hlong : word.length < chars.length) {q : Nat}
    (hq : q < word.length) (hgap : gaps q ≠ 0)
    (hleft : ∀ p, q < p → p < word.length → gaps p = 0) {spacing : Nat}
    (hspacing : spacingOf (separatorRtlIndexes
      (spread SEPARATOR gaps word)) = .ok spacing) :
    ∃ front rest, chars = front ++ rest ∧ rest.length = q ∧
      withSeparators (spread SEPARATOR gaps word)
          (separatorRtlIndexes (spread SEPARATOR gaps word)) prefixLength
          chars =
        addSeparators prefixLength spacing (front.length + 1) front.length
          (front ++ (List.replicate (gaps q) SEPARATOR ++
            spread SEPARATOR gaps rest)) := by
  have hleft' : ∀ p, q < p → p < chars.length →
      within gaps word.length p = 0 := by
    intro p hp _
    rcases Nat.lt_or_ge p word.length with hlt | hge
    · rw [within_of_lt hlt, hleft p hp hlt]
    · exact within_of_ge hge
  obtain ⟨front, rest, rfl, hrest, -, hspread⟩ :=
    exists_leftmost_split (Nat.lt_trans hq hlong) hleft'
  refine ⟨front, rest, rfl, hrest, ?_⟩
  have hsame : spread SEPARATOR (within gaps word.length) rest =
      spread SEPARATOR gaps rest :=
    spread_congr fun p hp => within_of_lt (by omega)
  rw [within_of_lt hq, hsame] at hspread
  have hlen : (spread SEPARATOR gaps word).length <
      (spread SEPARATOR (within gaps word.length) (front ++ rest)).length := by
    have hcount : total (within gaps word.length) (front ++ rest).length =
        total gaps word.length := by
      rw [total_eq_of_zero (Nat.le_of_lt hlong) fun p hp _ => within_of_ge hp]
      exact total_congr fun p hp => within_of_lt hp
    rw [length_spread, length_spread, hcount]
    omega
  have hne : separatorRtlIndexes (spread SEPARATOR gaps word) ≠ [] := by
    intro hnil
    have hzero := @length_separators gaps _ hword
    rw [hnil, List.length_nil] at hzero
    have hmono := @total_mono gaps _ _ (show q + 1 ≤ word.length from hq)
    rw [total] at hmono
    omega
  obtain ⟨k, hk⟩ := Nat.exists_eq_succ_of_ne_zero hgap
  rw [List.mem_append, not_or] at hchars
  unfold withSeparators
  simp only [putBack_spread hword]
  rw [if_pos ⟨hlen, hne⟩, hspacing, ok_bind, hspread, hk,
    List.replicate_succ, List.cons_append, findIdx_front hchars.1]

end Zmax.Increment
