/-
Content lines through folding and back.

The cut is moved back until the byte in front of it begins a char
(`backUp_eq`). That is right behind the cut of a char of one byte, and
inside any other char, so a long line is folded just when a char of one
byte ends at every cut (`Cuttable`). What is folded is unfolded to itself,
and so is a whole export.
-/
import Zmax.Core.Icalendar
import Zmax.Core.Proofs.Unified

namespace Zmax.Icalendar

open Calendar Text
open Unified (unlines)

/-- In a line of more than 75 bytes the byte in front of each cut, and the
last one, is a char of its own. -/
def Cuttable (line : Line) : Prop :=
  75 < byteLen line → ∀ j b, (Utf8.encode line)[j]? = some b →
    (j + 1 = byteLen line ∨ 0 < j ∧ j % 74 = 0) → b.toNat < 128

variable {line front s t : Line} {c : Char}

-- == bytes

theorem exists_char {j : Nat} (h : j < byteLen s) :
    ∃ front c t, s = front ++ c :: t ∧ byteLen front ≤ j ∧
      j < byteLen front + c.utf8Size := by
  induction s generalizing j with
  | nil => exact absurd h (Nat.not_lt_zero _)
  | cons d s ih =>
      rw [byteLen_cons] at h
      by_cases hj : j < d.utf8Size
      · exact ⟨[], d, s, rfl, Nat.zero_le _, by rw [byteLen_nil]; omega⟩
      · obtain ⟨front, c, t, rfl, hle, hlt⟩ :=
          ih (j := j - d.utf8Size) (by omega)
        refine ⟨d :: front, c, t, rfl, ?_, ?_⟩
        · rw [byteLen_cons]
          omega
        · rw [byteLen_cons]
          omega

theorem getElem?_char (front t : Line) (c : Char) {k : Nat}
    (h : k < c.utf8Size) :
    (Utf8.encode (front ++ c :: t))[byteLen front + k]? =
      (String.utf8EncodeChar c)[k]? := by
  have hlen : byteLen front = (Utf8.encode front).length := rfl
  rw [Utf8.encode_append, hlen,
    List.getElem?_append_right (Nat.le_add_right _ _),
    Nat.add_sub_cancel_left, Utf8.encode_cons, List.getElem?_append_left]
  rw [String.length_utf8EncodeChar]
  exact h

/-- The cut moves back behind the first byte of the char it is in. -/
theorem backUp_eq {start j : Nat} (hstart : start ≤ byteLen front)
    (hle : byteLen front ≤ j) (hlt : j < byteLen front + c.utf8Size) :
    backUp (Utf8.encode (front ++ c :: t)) start (j + 1) =
      byteLen front + 1 := by
  obtain ⟨b, bs, hchar, hhead, htail, -⟩ := Utf8.encodeChar_spec c
  obtain ⟨k, rfl⟩ := Nat.exists_eq_add_of_le hle
  have hk : k < c.utf8Size := by omega
  clear hle hlt
  induction k with
  | zero =>
      have h0 := getElem?_char front t c hk
      rw [Nat.add_zero] at h0
      rw [Nat.add_zero, backUp, h0, hchar]
      refine if_neg fun h => ?_
      rw [List.getElem?_cons_zero, Option.any_some, hhead] at h
      exact Bool.false_ne_true h.2
  | succ k ih =>
      have hbyte : ((String.utf8EncodeChar c)[k + 1]?).any
          Utf8.isContinuation = true := by
        have hlen : k + 1 < (String.utf8EncodeChar c).length := by
          rwa [String.length_utf8EncodeChar]
        rw [hchar, List.length_cons] at hlen
        rw [hchar, List.getElem?_cons_succ,
          List.getElem?_eq_getElem (Nat.lt_of_succ_lt_succ hlen),
          Option.any_some]
        exact htail _ (List.getElem_mem _)
      rw [backUp, getElem?_char front t c hk, if_pos ⟨by omega, hbyte⟩]
      exact ih (by omega)

/-- A text that ends behind the start of a char ends behind the char. -/
theorem char_le {u v w : Line} (h : u ++ c :: t = v ++ w)
    (hlt : byteLen u < byteLen v) : byteLen u + c.utf8Size ≤ byteLen v := by
  rcases List.append_eq_append_iff.mp h with ⟨mid, hv, hmid⟩ | ⟨mid, hu, -⟩
  · cases mid with
    | nil =>
        rw [List.append_nil] at hv
        rw [hv] at hlt
        exact absurd hlt (Nat.lt_irrefl _)
    | cons d mid =>
        obtain ⟨rfl, -⟩ := List.cons.inj hmid
        rw [hv, byteLen_append, byteLen_cons]
        omega
  · rw [hu, byteLen_append] at hlt
    omega

/-- One cut: where a char of one byte ends in front of it, the piece up to
there, and nowhere else. -/
theorem cut_cases (budget : Nat) (hbudget : 0 < budget) (front : Line)
    (hs : s ≠ []) :
    ∃ x, (Utf8.encode s)[min budget (byteLen s) - 1]? = some x ∧
      ((x.toNat < 128 ∧ ∃ piece t, s = piece ++ t ∧
          byteLen piece = min budget (byteLen s) ∧
          backUp (Utf8.encode (front ++ s)) (byteLen front)
            (min (byteLen front + budget) (byteLen (front ++ s))) =
            byteLen (front ++ piece)) ∨
        (¬ x.toNat < 128 ∧ ∃ e, byteSlice (front ++ s) (byteLen front)
          (backUp (Utf8.encode (front ++ s)) (byteLen front)
            (min (byteLen front + budget) (byteLen (front ++ s)))) =
          .error e)) := by
  have hpos : 0 < byteLen s := by
    cases s with
    | nil => exact absurd rfl hs
    | cons c s =>
        rw [byteLen_cons]
        have := c.utf8Size_pos
        omega
  obtain ⟨a, c, t, rfl, hle, hlt⟩ :=
    exists_char (s := s) (j := min budget (byteLen s) - 1) (by omega)
  obtain ⟨k, hk⟩ := Nat.exists_eq_add_of_le hle
  have hksize : k < c.utf8Size := by omega
  obtain ⟨b, bs, hchar, -, -, hone, hmore⟩ := Utf8.encodeChar_spec c
  have hsize : c.utf8Size = bs.length + 1 := by
    rw [← String.length_utf8EncodeChar, hchar, List.length_cons]
  have hstop : backUp (Utf8.encode (front ++ (a ++ c :: t))) (byteLen front)
      (min (byteLen front + budget) (byteLen (front ++ (a ++ c :: t)))) =
      byteLen (front ++ a) + 1 := by
    have hmin : min (byteLen front + budget)
        (byteLen (front ++ (a ++ c :: t))) =
        byteLen front + (byteLen a + k) + 1 := by
      rw [byteLen_append front]
      omega
    rw [hmin, ← List.append_assoc]
    refine backUp_eq ?_ ?_ ?_
    · rw [byteLen_append]
      omega
    · rw [byteLen_append]
      omega
    · rw [byteLen_append]
      omega
  rw [hstop, hk, getElem?_char a t c hksize, hchar]
  by_cases hbs : bs = []
  · have hk0 : k = 0 := by
      rw [hbs, List.length_nil] at hsize
      omega
    have hc : c.utf8Size = 1 := by rw [hsize, hbs, List.length_nil]
    refine ⟨b, by rw [hk0]; rfl, .inl ⟨hone hbs, a ++ [c], t, ?_, ?_, ?_⟩⟩
    · rw [List.append_assoc, List.singleton_append]
    · rw [byteLen_append, byteLen_cons, byteLen_nil]
      omega
    · rw [← List.append_assoc, byteLen_append _ [c], byteLen_cons,
        byteLen_nil, hc]
  · have hlen : k < (b :: bs).length := by
      rw [List.length_cons]
      omega
    refine ⟨_, List.getElem?_eq_getElem hlen, .inr ⟨?_, ?_⟩⟩
    · have := hmore hbs _ (List.getElem_mem hlen)
      omega
    · cases hslice : byteSlice (front ++ (a ++ c :: t)) (byteLen front)
          (byteLen (front ++ a) + 1) with
      | error e => exact ⟨e, rfl⟩
      | ok piece =>
          obtain ⟨v, w, heq, -, hv⟩ := byteSlice_eq_ok.mp hslice
          rw [← byteLen_append] at hv
          rw [← List.append_assoc] at heq
          have := char_le heq (by omega)
          have : bs.length ≠ 0 := fun h => hbs (List.length_eq_zero_iff.mp h)
          omega

-- == the loop

/-- The bytes in front of the cuts, the first of which comes after `budget`
bytes and the others after 74 more each. -/
def CutsAt (budget : Nat) (s : Line) : Prop :=
  ∀ j b, (Utf8.encode s)[j]? = some b →
    (j + 1 = byteLen s ∨ budget ≤ j + 1 ∧ (j + 1 - budget) % 74 = 0) →
      b.toNat < 128

theorem cutsAt_nil (budget : Nat) : CutsAt budget [] := nofun

theorem cutsAt_iff {budget : Nat} {x : UInt8} {piece t : Line}
    (hbudget : 0 < budget)
    (hx : (Utf8.encode (piece ++ t))[min budget (byteLen (piece ++ t)) - 1]? =
      some x)
    (hlen : byteLen piece = min budget (byteLen (piece ++ t))) :
    CutsAt budget (piece ++ t) ↔ x.toNat < 128 ∧ CutsAt 74 t := by
  have happ := byteLen_append piece t
  have hbytes : ∀ j, (Utf8.encode t)[j]? =
      (Utf8.encode (piece ++ t))[byteLen piece + j]? := by
    intro j
    have hbytes : byteLen piece = (Utf8.encode piece).length := rfl
    rw [Utf8.encode_append, hbytes,
      List.getElem?_append_right (Nat.le_add_right _ _),
      Nat.add_sub_cancel_left]
  have hrange : ∀ {j b}, (Utf8.encode (piece ++ t))[j]? = some b →
      j < byteLen (piece ++ t) :=
    fun h => (List.getElem?_eq_some_iff.mp h).1
  have hpos := hrange hx
  constructor
  · intro h
    refine ⟨h _ _ hx (by omega), fun j b hb hj => ?_⟩
    rw [hbytes] at hb
    have := hrange hb
    refine h _ _ hb ?_
    omega
  · rintro ⟨hlt, ht⟩ j b hb hj
    have := hrange hb
    rcases Nat.lt_or_ge j (byteLen piece) with hin | hout
    · have hlast : j = min budget (byteLen (piece ++ t)) - 1 := by omega
      rw [hlast, hx] at hb
      cases hb
      exact hlt
    · obtain ⟨i, rfl⟩ := Nat.exists_eq_add_of_le hout
      rw [← hbytes] at hb
      refine ht i b hb ?_
      omega

/-- The physical lines of pieces that go on with a line. -/
def continued (pieces : List Line) : List Line :=
  pieces.map fun piece => ' ' :: (piece ++ ['\r'])

theorem unlines_continued_cons (piece : Line) (pieces : List Line) :
    unlines (continued (piece :: pieces)) =
      ' ' :: (piece ++ ['\r', '\n']) ++ unlines (continued pieces) := by
  simp [continued, unlines]

theorem foldLoop_cases (fuel : Nat) (front s : Line)
    (hfuel : byteLen s < fuel) :
    (CutsAt 74 s ∧ ∃ pieces : List Line, s = pieces.flatten ∧
      (∀ piece ∈ pieces, byteLen piece ≤ 74) ∧
      ∀ out, foldLoop (front ++ s) (Utf8.encode (front ++ s)) fuel
        (byteLen front) false out =
          .ok (out ++ unlines (continued pieces))) ∨
    (¬ CutsAt 74 s ∧ ∃ e, ∀ out, foldLoop (front ++ s)
      (Utf8.encode (front ++ s)) fuel (byteLen front) false out =
        .error e) := by
  induction fuel generalizing front s with
  | zero => omega
  | succ fuel ih =>
      have hwhole : (Utf8.encode (front ++ s)).length =
          byteLen front + byteLen s := byteLen_append front s
      by_cases hs : s = []
      · subst hs
        refine .inl ⟨cutsAt_nil 74, [], rfl, nofun, fun out => ?_⟩
        rw [foldLoop, hwhole, byteLen_nil, Nat.add_zero,
          if_neg (Nat.lt_irrefl _)]
        exact congrArg Except.ok (List.append_nil out).symm
      · obtain ⟨x, hx, hcases⟩ := cut_cases 74 (by decide) front hs
        have hmin :
            min (byteLen front + 74) (Utf8.encode (front ++ s)).length =
            min (byteLen front + 74) (byteLen (front ++ s)) := rfl
        have hrun : byteLen front < (Utf8.encode (front ++ s)).length := by
          rw [hwhole]
          have := (List.getElem?_eq_some_iff.mp hx).1
          have hlength : (Utf8.encode s).length = byteLen s := rfl
          omega
        simp only [foldLoop, if_pos hrun, Bool.false_eq_true, if_false, hmin]
        rcases hcases with ⟨hlt, piece, t, rfl, hlen, hstop⟩ | ⟨hge, e, herr⟩
        · have hslice : byteSlice (front ++ (piece ++ t)) (byteLen front)
              (byteLen (front ++ piece)) = .ok piece :=
            byteSlice_eq_ok.mpr ⟨front, t, (List.append_assoc _ _ _).symm,
              rfl, (byteLen_append _ _).symm⟩
          have hiff := cutsAt_iff (by decide) hx hlen
          rw [hstop, hslice]
          simp only [ok_bind, ← List.append_assoc front piece t]
          have hpos : 0 < byteLen piece := by
            have := (List.getElem?_eq_some_iff.mp hx).1
            have hlength : (Utf8.encode (piece ++ t)).length =
                byteLen (piece ++ t) := rfl
            omega
          rw [byteLen_append] at hfuel
          rcases ih (front ++ piece) t (by omega) with
            ⟨hcuts, pieces, rfl, hall, hok⟩ | ⟨hcuts, e, herr⟩
          · refine .inl ⟨hiff.mpr ⟨hlt, hcuts⟩, piece :: pieces, rfl,
              List.forall_mem_cons.mpr ⟨by omega, hall⟩, fun out => ?_⟩
            rw [hok, unlines_continued_cons]
            simp only [List.append_assoc, List.cons_append, List.nil_append]
          · exact .inr ⟨fun h => hcuts (hiff.mp h).2, e, fun out => herr _⟩
        · rw [herr]
          refine .inr ⟨fun h => hge (h _ x hx ?_), e, fun out => rfl⟩
          have := (List.getElem?_eq_some_iff.mp hx).1
          have hlength : (Utf8.encode s).length = byteLen s := rfl
          omega

/-- A line that goes on in pieces is put together again. -/
theorem foldl_continued (lines : List Line) (last : Line)
    (pieces : List Line) :
    (continued pieces).foldl unfoldStep (lines ++ [last]) =
      lines ++ [last ++ pieces.flatten] := by
  induction pieces generalizing last with
  | nil => rw [List.flatten_nil, List.append_nil]; rfl
  | cons piece pieces ih =>
      have hstep : unfoldStep (lines ++ [last])
          (' ' :: (piece ++ ['\r'])) = lines ++ [last ++ piece] := by
        have hcr : stripCr (' ' :: (piece ++ ['\r'])) = ' ' :: piece := by
          rw [← List.cons_append, stripCr, List.getLast?_concat, if_pos rfl,
            List.dropLast_concat]
        unfold unfoldStep
        rw [hcr, List.getLast?_concat, List.dropLast_concat]
        rfl
      rw [continued, List.map_cons, List.foldl_cons, ← continued, hstep, ih,
        List.flatten_cons, List.append_assoc]

theorem stripCr_concat (s : Line) : stripCr (s ++ ['\r']) = s := by
  rw [stripCr, List.getLast?_concat, if_pos rfl, List.dropLast_concat]

theorem unfoldStep_first (lines : List Line) {s : Line}
    (h : continuation? s = none) :
    unfoldStep lines (s ++ ['\r']) = lines ++ [s] := by
  unfold unfoldStep
  rw [stripCr_concat]
  dsimp only
  rw [h]

theorem continuation?_append {s t : Line} (hs : s ≠ [])
    (h : continuation? (s ++ t) = none) : continuation? s = none := by
  cases s with
  | nil => exact absurd rfl hs
  | cons c s =>
      unfold continuation? at h ⊢
      split at h
      · cases h
      · cases h
      · next hspace htab =>
          split
          · next rest heq =>
              exact absurd (by rw [heq]; rfl) (hspace (rest ++ t))
          · next rest heq => exact absurd (by rw [heq]; rfl) (htab (rest ++ t))
          · rfl

/-- A content line is folded just when it can be cut, to short lines that
are unfolded to it. -/
theorem foldLine_cases (hline : '\n' ∉ line) :
    (Cuttable line ∧ ∃ rows : List Line, (∀ row ∈ rows, '\n' ∉ row) ∧
      (∀ row ∈ rows, byteLen (stripCr row) ≤ 75) ∧
      (∀ out, foldLine line out = .ok (out ++ unlines rows)) ∧
      (continuation? line = none → ∀ lines,
        rows.foldl unfoldStep lines = lines ++ [line])) ∨
    (¬ Cuttable line ∧ ∀ out, ∃ e, foldLine line out = .error e) := by
  have hlength : (Utf8.encode line).length = byteLen line := rfl
  by_cases hshort : byteLen line ≤ 75
  · refine .inl ⟨fun h => absurd h (Nat.not_lt.mpr hshort), [line ++ ['\r']],
      ?_, ?_, fun out => ?_, fun hcont lines => ?_⟩
    · rw [List.forall_mem_singleton, List.mem_append]
      rintro (h | h)
      · exact hline h
      · simp at h
    · rw [List.forall_mem_singleton, stripCr_concat]
      exact hshort
    · unfold foldLine
      dsimp only
      rw [hlength, if_pos hshort, unlines, List.flatMap_singleton]
      simp only [List.append_assoc, List.cons_append, List.nil_append]
    · rw [List.foldl_cons, List.foldl_nil, unfoldStep_first lines hcont]
  · have hs : line ≠ [] := by
      rintro rfl
      exact hshort (Nat.zero_le _)
    have hcuttable : Cuttable line ↔ CutsAt 75 line := by
      unfold Cuttable CutsAt
      constructor
      · exact fun h j b hb hj => h (Nat.lt_of_not_le hshort) j b hb (by omega)
      · exact fun h _ j b hb hj => h j b hb (by omega)
    obtain ⟨x, hx, hcases⟩ := cut_cases 75 (by decide) [] hs
    rw [List.nil_append, byteLen_nil, Nat.zero_add] at hcases
    have hfold : ∀ out, foldLine line out = (do
        let piece ← byteSlice line 0
          (backUp (Utf8.encode line) 0 (min 75 (byteLen line)))
        foldLoop line (Utf8.encode line) (byteLen line)
          (backUp (Utf8.encode line) 0 (min 75 (byteLen line))) false
          (out ++ piece ++ ['\r', '\n'])) := by
      intro out
      unfold foldLine
      dsimp only
      rw [hlength, if_neg hshort, foldLoop, hlength,
        if_pos (by omega : 0 < byteLen line)]
      simp only [if_true, Nat.zero_add]
    rcases hcases with ⟨hlt, piece, t, rfl, hlen, hstop⟩ | ⟨hge, e, herr⟩
    · rw [List.nil_append] at hstop
      have hslice : byteSlice (piece ++ t) 0 (byteLen piece) = .ok piece :=
        byteSlice_eq_ok.mpr ⟨[], t, rfl, rfl, Nat.zero_add _⟩
      have hiff := cutsAt_iff (by decide) hx hlen
      rw [hstop, hslice] at hfold
      have happ := byteLen_append piece t
      have hfuel : byteLen t < byteLen (piece ++ t) := by omega
      rw [List.mem_append, not_or] at hline
      have hpiece : piece ≠ [] := by
        rintro rfl
        rw [List.nil_append] at hshort hlen
        rw [byteLen_nil] at hlen
        omega
      rcases foldLoop_cases (byteLen (piece ++ t)) piece t hfuel with
        ⟨hcuts, pieces, rfl, hall, hok⟩ | ⟨hcuts, herr⟩
      · refine .inl ⟨hcuttable.mpr (hiff.mpr ⟨hlt, hcuts⟩),
          (piece ++ ['\r']) :: continued pieces, ?_, ?_, fun out => ?_,
          fun hcont lines => ?_⟩
        · refine List.forall_mem_cons.mpr ⟨?_, ?_⟩
          · rw [List.mem_append]
            rintro (h | h)
            · exact hline.1 h
            · simp at h
          · intro row hrow hmem
            obtain ⟨p, hp, rfl⟩ := List.mem_map.mp hrow
            rcases List.mem_cons.mp hmem with h | h
            · cases h
            · rcases List.mem_append.mp h with h | h
              · exact hline.2 (List.mem_flatten.mpr ⟨p, hp, h⟩)
              · simp at h
        · refine List.forall_mem_cons.mpr ⟨?_, fun row hrow => ?_⟩
          · rw [stripCr_concat]
            omega
          · obtain ⟨p, hp, rfl⟩ := List.mem_map.mp hrow
            have hspace : ' '.utf8Size = 1 := rfl
            rw [← List.cons_append, stripCr_concat, byteLen_cons, hspace]
            have := hall p hp
            omega
        · rw [hfold, ok_bind, hok]
          simp [unlines]
        · rw [List.foldl_cons,
            unfoldStep_first lines (continuation?_append hpiece hcont),
            foldl_continued]
      · obtain ⟨e, herr⟩ := herr
        refine .inr ⟨fun h => hcuts (hiff.mp (hcuttable.mp h)).2,
          fun out => ⟨e, ?_⟩⟩
        rw [hfold, ok_bind]
        exact herr _
    · refine .inr ⟨fun h => hge (hcuttable.mp h _ x hx ?_), fun out =>
        ⟨e, by rw [hfold, herr]; rfl⟩⟩
      omega

-- == escapes

theorem unescapeText_escapeChar (c : Char) (rest : List Char) :
    unescapeText (escapeChar c ++ rest) = c :: unescapeText rest := by
  unfold escapeChar
  split
  · rfl
  · rfl
  · rfl
  · rfl
  · next hback _ _ _ =>
      rw [List.singleton_append, unescapeText]
      · rintro rfl
        exact absurd rfl hback
      · rintro other rest' rfl
        exact absurd rfl hback

theorem unescapeText_escapeText (s : List Char) :
    unescapeText (escapeText s) = s := by
  induction s with
  | nil => rfl
  | cons c s ih =>
      rw [escapeText, List.flatMap_cons, unescapeText_escapeChar,
        ← escapeText, ih]

theorem newline_not_mem_escapeText (s : List Char) :
    '\n' ∉ escapeText s := by
  intro h
  obtain ⟨c, -, hc⟩ := List.mem_flatMap.mp h
  unfold escapeChar at hc
  split at hc
  · simp at hc
  · simp at hc
  · simp at hc
  · simp at hc
  · next hnl =>
      rw [List.mem_singleton] at hc
      exact hnl hc.symm

-- == export

/-- Chars of one byte, and no line break. -/
def Plain (s : Line) : Prop := ∀ c ∈ s, c ≠ '\n' ∧ c.toNat < 128

theorem Plain.append {s t : Line} (hs : Plain s) (ht : Plain t) :
    Plain (s ++ t) := by
  intro c hc
  rcases List.mem_append.mp hc with h | h
  · exact hs c h
  · exact ht c h

theorem plain_of_all {s : Line}
    (h : (s.all fun c => c ≠ '\n' ∧ c.toNat < 128) = true) : Plain s :=
  fun c hc => of_decide_eq_true (List.all_eq_true.mp h c hc)

theorem plain_padded (width : Nat) (n : Int) : Plain (padded width n) := by
  have hdigit : ∀ c : Char, c.isDigit → c ≠ '\n' ∧ c.toNat < 128 := by
    intro c hc
    rw [Char.isDigit, Bool.and_eq_true, decide_eq_true_eq,
      decide_eq_true_eq] at hc
    have hle : c.toNat ≤ 57 := UInt32.le_iff_toNat_le.mp hc.2
    refine ⟨?_, by omega⟩
    rintro rfl
    exact absurd hc.1 (by decide)
  unfold padded
  refine (Plain.append ?_ ?_).append fun c hc =>
    hdigit c (Nat.isDigit_of_mem_toDigits (by decide) (by decide) hc)
  · split
    · exact plain_of_all (by decide)
    · exact nofun
  · intro c hc
    rw [List.eq_of_mem_replicate hc]
    decide

theorem Plain.cuttable {s : Line} (h : Plain s) : Cuttable s := by
  intro _ j b hb _
  obtain ⟨c, hc, hmem⟩ := List.mem_flatMap.mp (List.mem_of_getElem? hb)
  rcases Utf8.encodeChar_cases c with ⟨x, hx, hlt, -⟩ | ⟨x, xs, -, -, hge, -⟩
  · rw [hx, List.mem_singleton] at hmem
    exact hmem ▸ hlt
  · have := (h c hc).2
    omega

/-- Content lines are written together just when each can be cut. -/
theorem foldLines_cases {ls : List Line} (h : ∀ l ∈ ls, '\n' ∉ l) :
    ((∀ l ∈ ls, Cuttable l) ∧ ∃ rows : List Line,
      (∀ row ∈ rows, '\n' ∉ row) ∧
      (∀ out, foldLines ls out = .ok (out ++ unlines rows)) ∧
      ((∀ l ∈ ls, continuation? l = none) → ∀ lines,
        rows.foldl unfoldStep lines = lines ++ ls)) ∨
    (¬ (∀ l ∈ ls, Cuttable l) ∧ ∀ out, ∃ e, foldLines ls out = .error e) := by
  induction ls with
  | nil =>
      exact .inl ⟨nofun, [], nofun,
        fun out => congrArg Except.ok (List.append_nil out).symm,
        fun _ lines => (List.append_nil lines).symm⟩
  | cons l ls ih =>
      obtain ⟨hl, hls⟩ := List.forall_mem_cons.mp h
      rcases foldLine_cases hl with ⟨hcut, rows, hrows, -, hok, hfold⟩ |
        ⟨hcut, herr⟩
      · rcases ih hls with ⟨hcuts, rows', hrows', hok', hfold'⟩ |
          ⟨hcuts, herr⟩
        · refine .inl ⟨List.forall_mem_cons.mpr ⟨hcut, hcuts⟩, rows ++ rows',
            ?_, fun out => ?_, fun hcont lines => ?_⟩
          · exact fun row hrow =>
              (List.mem_append.mp hrow).elim (hrows row) (hrows' row)
          · rw [foldLines, hok, ok_bind, hok', List.append_assoc]
            exact congrArg (fun rest => Except.ok (out ++ rest))
              List.flatMap_append.symm
          · obtain ⟨hc, hcs⟩ := List.forall_mem_cons.mp hcont
            rw [List.foldl_append, hfold hc, hfold' hcs, List.append_assoc,
              List.singleton_append]
        · refine .inr ⟨fun h => hcuts (List.forall_mem_cons.mp h).2,
            fun out => ?_⟩
          rw [foldLines, hok, ok_bind]
          exact herr _
      · refine .inr ⟨fun h => hcut (List.forall_mem_cons.mp h).1,
          fun out => ?_⟩
        obtain ⟨e, he⟩ := herr out
        exact ⟨e, by rw [foldLines, he]; rfl⟩

def summaryLine (text : List Char) : Line :=
  "SUMMARY:".toList ++ escapeText text

/-- The summary that a content line has. -/
def summary? (line : Line) : Option (List Char) :=
  (stripPrefix line "SUMMARY:".toList).map unescapeText

/-- The summaries of a calendar. -/
def summaries (ics : List Char) : List (List Char) :=
  (unfoldLines ics).filterMap summary?

/-- The texts of the entries that have an event. -/
def exportedTexts (entries : List Entry) (anchor : Date) :
    List (List Char) :=
  entries.filterMap fun e =>
    match specToIcal e.spec anchor with
    | .ok (some _) => some e.text
    | _ => none

/-- The date of an entry is found, and its summary can be cut. -/
def Exportable (anchor : Date) (e : Entry) : Prop :=
  ∃ event, specToIcal e.spec anchor = .ok event ∧
    (event.isSome → Cuttable (summaryLine e.text))

/-- A line of an event beside its summary. -/
structure Bare (l : Line) : Prop where
  plain : Plain l
  first : continuation? l = none
  bare : summary? l = none

theorem Bare.newline {l : Line} (h : Bare l) : '\n' ∉ l :=
  fun hmem => (h.plain _ hmem).1 rfl

theorem plain_icalDate (d : Date) : Plain (icalDate d) :=
  ((plain_padded _ _).append (plain_padded _ _)).append (plain_padded _ _)

theorem plain_rule {spec : DateSpec} {anchor start : Date}
    {stop : Option Date} {rule : Line}
    (h : specToIcal spec anchor = .ok (some (start, stop, some rule))) :
    Plain rule := by
  have hyearly : Plain "FREQ=YEARLY".toList := plain_of_all (by decide)
  cases spec with
  | specific year month day => cases h
  | yearly month day =>
      cases h
      exact hyearly
  | anniversary month day year =>
      cases h
      exact hyearly
  | weekly wd =>
      obtain ⟨d, -, h⟩ := bind_eq_ok.mp h
      obtain ⟨day, hday, h⟩ := bind_eq_ok.mp h
      cases h
      have hall : (BYDAY.all fun day => day.all fun c =>
          c ≠ '\n' ∧ c.toNat < 128) = true := by decide
      exact Plain.append (plain_of_all (by decide)) (plain_of_all
        (List.all_eq_true.mp hall day
          (List.mem_of_getElem? (index_eq_ok.mp hday))))
  | block start' stop' =>
      obtain ⟨d, -, h⟩ := bind_eq_ok.mp h
      cases h
  | cyclic n base =>
      cases h
      exact Plain.append (plain_of_all (by decide)) (plain_padded _ _)
  | other => cases h

/-- The lines of an event: its summary, and others that are bare. -/
theorem eventLines_spec {spec : DateSpec} {anchor start : Date}
    {stop : Option Date} {rrule : Option Line} (i : Nat) (text : List Char)
    (h : specToIcal spec anchor = .ok (some (start, stop, rrule))) :
    (∀ l ∈ eventLines i text start stop rrule,
      l = summaryLine text ∨ Bare l) ∧
    summaryLine text ∈ eventLines i text start stop rrule ∧
    (eventLines i text start stop rrule).filterMap summary? = [text] := by
  have hbegin : Bare "BEGIN:VEVENT".toList :=
    ⟨plain_of_all (by decide), rfl, rfl⟩
  have huid : Bare ("UID:zmax-".toList ++ padded 0 (i + 1) ++
      "@diary".toList) :=
    ⟨((plain_of_all (by decide)).append (plain_padded _ _)).append
      (plain_of_all (by decide)), rfl, rfl⟩
  have hstart : Bare ("DTSTART;VALUE=DATE:".toList ++ icalDate start) :=
    ⟨(plain_of_all (by decide)).append (plain_icalDate _), rfl, rfl⟩
  have hstop : ∀ d, Bare ("DTEND;VALUE=DATE:".toList ++ icalDate d) :=
    fun d => ⟨(plain_of_all (by decide)).append (plain_icalDate _), rfl, rfl⟩
  have hrule : ∀ rule, rrule = some rule →
      Bare ("RRULE:".toList ++ rule) := by
    rintro rule rfl
    exact ⟨(plain_of_all (by decide)).append (plain_rule h), rfl, rfl⟩
  have hend : Bare "END:VEVENT".toList := ⟨plain_of_all (by decide), rfl, rfl⟩
  have hsummary : summary? ("SUMMARY:".toList ++ escapeText text) =
      some text := by
    unfold summary?
    rw [stripPrefix_append, Option.map_some, unescapeText_escapeText]
  unfold eventLines summaryLine
  refine ⟨?_, by simp, ?_⟩
  · intro l hl
    simp only [List.mem_append, List.mem_cons, List.not_mem_nil, or_false,
      Option.mem_toList, Option.map_eq_some_iff] at hl
    rcases hl with (((rfl | rfl | rfl | rfl) | ⟨d, -, rfl⟩) |
      ⟨rule, hr, rfl⟩) | rfl
    · exact .inr hbegin
    · exact .inr huid
    · exact .inl rfl
    · exact .inr hstart
    · exact .inr (hstop d)
    · exact .inr (hrule rule hr)
    · exact .inr hend
  · have hdtend : ((stop.map fun d => "DTEND;VALUE=DATE:".toList ++
        icalDate d).toList).filterMap summary? = [] := by
      cases stop with
      | none => rfl
      | some d => exact List.filterMap_cons_none (hstop d).bare
    have hrrule : ((rrule.map fun rule => "RRULE:".toList ++ rule).toList
        ).filterMap summary? = [] := by
      cases rrule with
      | none => rfl
      | some rule => exact List.filterMap_cons_none (hrule rule rfl).bare
    rw [List.filterMap_append, List.filterMap_append, List.filterMap_append,
      hdtend, hrrule]
    simp only [List.filterMap_cons, List.filterMap_nil, hbegin.bare,
      huid.bare, hstart.bare, hend.bare, hsummary, List.append_nil]

theorem summaryLine_spec (text : List Char) :
    '\n' ∉ summaryLine text ∧ continuation? (summaryLine text) = none := by
  refine ⟨fun h => ?_, rfl⟩
  rcases List.mem_append.mp h with h | h
  · exact absurd h (by decide)
  · exact newline_not_mem_escapeText text h

theorem unfoldStep_nil (lines : List Line) :
    unfoldStep lines [] = lines ++ [[]] := by
  rfl

/-- One entry: its event's lines, where its date is found and its summary
can be cut. -/
theorem exportEntry_cases (anchor : Date) (i : Nat) (e : Entry) :
    (Exportable anchor e ∧ ∃ (ls rows : List Line),
      ls.filterMap summary? = exportedTexts [e] anchor ∧
      (∀ row ∈ rows, '\n' ∉ row) ∧
      (∀ lines, rows.foldl unfoldStep lines = lines ++ ls) ∧
      ∀ out, ∃ out', exportEntry anchor i e out = .ok out' ∧
        out'.ics = out.ics ++ unlines rows) ∨
    (¬ Exportable anchor e ∧
      ∀ out, ∃ err, exportEntry anchor i e out = .error err) := by
  unfold Exportable exportEntry exportedTexts
  cases hspec : specToIcal e.spec anchor with
  | error err =>
      refine .inr ⟨?_, fun out => ⟨err, rfl⟩⟩
      rintro ⟨event, h, -⟩
      cases h
  | ok event =>
      cases event with
      | none =>
          refine .inl ⟨⟨none, rfl, nofun⟩, [], [], ?_, nofun,
            fun lines => (List.append_nil lines).symm,
            fun out => ⟨_, rfl, (List.append_nil out.ics).symm⟩⟩
          rw [List.filterMap_cons, hspec]
          rfl
      | some event =>
          obtain ⟨start, stop, rrule⟩ := event
          obtain ⟨hlines, hmem, htexts⟩ := eventLines_spec i e.text hspec
          have hsummary := summaryLine_spec e.text
          have hcut : (∀ l ∈ eventLines i e.text start stop rrule,
              Cuttable l) ↔ Cuttable (summaryLine e.text) := by
            refine ⟨fun h => h _ hmem, fun h l hl => ?_⟩
            rcases hlines l hl with rfl | hbare
            · exact h
            · exact hbare.plain.cuttable
          have hcont : ∀ l ∈ eventLines i e.text start stop rrule,
              continuation? l = none := by
            intro l hl
            rcases hlines l hl with rfl | hbare
            · exact hsummary.2
            · exact hbare.first
          have hnl : ∀ l ∈ eventLines i e.text start stop rrule,
              '\n' ∉ l := by
            intro l hl
            rcases hlines l hl with rfl | hbare
            · exact hsummary.1
            · exact hbare.newline
          rcases foldLines_cases hnl with ⟨hall, rows, hrows, hok, hfold⟩ |
            ⟨hnot, herr⟩
          · refine .inl ⟨⟨_, rfl, fun _ => hcut.mp hall⟩, _, rows, ?_, hrows,
              hfold hcont, fun out => ?_⟩
            · rw [htexts, List.filterMap_cons, hspec]
              rfl
            · rw [ok_bind]
              dsimp only
              rw [hok, ok_bind]
              exact ⟨_, rfl, rfl⟩
          · refine .inr ⟨?_, fun out => ?_⟩
            · rintro ⟨event, heq, h⟩
              cases heq
              exact hnot (hcut.mpr (h rfl))
            · obtain ⟨err, herr⟩ := herr out.ics
              rw [ok_bind]
              dsimp only
              rw [herr]
              exact ⟨err, rfl⟩

theorem exportLoop_cases (anchor : Date) (entries : List Entry) (i : Nat) :
    ((∀ e ∈ entries, Exportable anchor e) ∧ ∃ (ls rows : List Line),
      ls.filterMap summary? = exportedTexts entries anchor ∧
      (∀ row ∈ rows, '\n' ∉ row) ∧
      (∀ lines, rows.foldl unfoldStep lines = lines ++ ls) ∧
      ∀ out, ∃ out', exportLoop anchor entries i out = .ok out' ∧
        out'.ics = out.ics ++ unlines rows) ∨
    (¬ (∀ e ∈ entries, Exportable anchor e) ∧
      ∀ out, ∃ err, exportLoop anchor entries i out = .error err) := by
  induction entries generalizing i with
  | nil =>
      exact .inl ⟨nofun, [], [], rfl, nofun,
        fun lines => (List.append_nil lines).symm,
        fun out => ⟨out, rfl, (List.append_nil out.ics).symm⟩⟩
  | cons e rest ih =>
      rcases exportEntry_cases anchor i e with
        ⟨hexp, ls, rows, htexts, hrows, hfold, hok⟩ | ⟨hexp, herr⟩
      · rcases ih (i + 1) with
          ⟨hall, ls', rows', htexts', hrows', hfold', hok'⟩ | ⟨hall, herr⟩
        · refine .inl ⟨List.forall_mem_cons.mpr ⟨hexp, hall⟩, ls ++ ls',
            rows ++ rows', ?_, ?_, fun lines => ?_, fun out => ?_⟩
          · rw [List.filterMap_append, htexts, htexts', exportedTexts,
              exportedTexts, ← List.filterMap_append]
            rfl
          · exact fun row hrow =>
              (List.mem_append.mp hrow).elim (hrows row) (hrows' row)
          · rw [List.foldl_append, hfold, hfold', List.append_assoc]
          · obtain ⟨out', hout, hics⟩ := hok out
            obtain ⟨out'', hout', hics'⟩ := hok' out'
            refine ⟨out'', by rw [exportLoop, hout, ok_bind, hout'], ?_⟩
            rw [hics', hics, List.append_assoc]
            exact congrArg (out.ics ++ ·) List.flatMap_append.symm
        · refine .inr ⟨fun h => hall (List.forall_mem_cons.mp h).2,
            fun out => ?_⟩
          obtain ⟨out', hout, -⟩ := hok out
          obtain ⟨err, herr⟩ := herr out'
          exact ⟨err, by rw [exportLoop, hout, ok_bind, herr]⟩
      · refine .inr ⟨fun h => hexp (List.forall_mem_cons.mp h).1,
          fun out => ?_⟩
        obtain ⟨err, herr⟩ := herr out
        exact ⟨err, by rw [exportLoop, herr]; rfl⟩

/-- An export is unfolded to all summaries, unless the date of an entry is
not found or its summary cannot be cut. -/
theorem export_cases (entries : List Entry) (anchor : Date) :
    (∃ out, exportEntries entries anchor = .ok out ∧
      summaries out.ics = exportedTexts entries anchor) ↔
      ∀ e ∈ entries, Exportable anchor e := by
  have hhead : ∀ l ∈ ["BEGIN:VCALENDAR".toList, "VERSION:2.0".toList,
      "PRODID:".toList ++ PRODID], Plain l ∧ continuation? l = none := by
    intro l hl
    simp only [List.mem_cons, List.not_mem_nil, or_false] at hl
    rcases hl with rfl | rfl | rfl
    · exact ⟨plain_of_all (by decide), rfl⟩
    · exact ⟨plain_of_all (by decide), rfl⟩
    · exact ⟨plain_of_all (by decide), rfl⟩
  have hend : Plain "END:VCALENDAR".toList := plain_of_all (by decide)
  have hnone : (["BEGIN:VCALENDAR".toList, "VERSION:2.0".toList,
      "PRODID:".toList ++ PRODID]).filterMap summary? = [] := rfl
  have hbare : ["END:VCALENDAR".toList].filterMap summary? = [] := rfl
  have hlast : [([] : Line)].filterMap summary? = [] := rfl
  unfold exportEntries
  rcases exportLoop_cases anchor entries 0 with
    ⟨hall, ls, rows, htexts, hrows, hfold, hok⟩ | ⟨hall, herr⟩
  · refine ⟨fun _ => hall, fun _ => ?_⟩
    obtain ⟨body, hbody, hics⟩ := hok ⟨[], 0, 0⟩
    rcases foldLines_cases fun l hl hmem => ((hhead l hl).1 _ hmem).1 rfl with
      ⟨-, heads, hheads, hhok, hhfold⟩ | ⟨hcut, -⟩
    · rcases foldLine_cases fun hmem => (hend _ hmem).1 rfl with
        ⟨-, lasts, hlasts, -, hlok, hlfold⟩ | ⟨hcut, -⟩
      · refine ⟨_, by rw [hbody, ok_bind, hhok, ok_bind, hlok, ok_bind]; rfl,
          ?_⟩
        have hjoin : ([] ++ unlines heads ++ body.ics ++ unlines lasts) =
            unlines (heads ++ rows ++ lasts) := by
          rw [hics]
          simp [unlines]
        unfold summaries unfoldLines
        dsimp only
        have hrow : ∀ row ∈ heads ++ rows ++ lasts, '\n' ∉ row := by
          intro row hrow
          rcases List.mem_append.mp hrow with hrow | hrow
          · exact (List.mem_append.mp hrow).elim (hheads row) (hrows row)
          · exact hlasts row hrow
        rw [hjoin, splitOn_unlines hrow, List.foldl_append,
          List.foldl_append, List.foldl_append,
          hhfold fun l hl => (hhead l hl).2, hfold, hlfold rfl]
        rw [List.foldl_cons, List.foldl_nil, unfoldStep_nil,
          List.filterMap_append, List.filterMap_append,
          List.filterMap_append, List.filterMap_append, htexts, hnone, hbare,
          hlast, List.filterMap_nil, List.nil_append, List.append_nil,
          List.append_nil, List.nil_append]
      · exact absurd hend.cuttable hcut
    · exact absurd (fun l hl => (hhead l hl).1.cuttable) hcut
  · refine ⟨?_, fun h => absurd h hall⟩
    rintro ⟨out, h, -⟩
    obtain ⟨err, herr⟩ := herr ⟨[], 0, 0⟩
    rw [herr] at h
    cases h

/-- A content line is folded to rows of at most 75 bytes and back just when
it can be cut. Escaping loses nothing. An export goes out and back just when
the date of each entry is found and its summary can be cut. -/
theorem fold_octets_law (line : Line) (s : List Char)
    (entries : List Entry) (anchor : Date) :
    ('\n' ∉ line → continuation? line = none →
      ((∃ out, foldLine line [] = .ok out ∧
        (∀ row ∈ out.splitOn '\n', byteLen (stripCr row) ≤ 75) ∧
        unfoldLines out = [line, []]) ↔ Cuttable line)) ∧
    unescapeText (escapeText s) = s ∧
    ((∃ out, exportEntries entries anchor = .ok out ∧
      summaries out.ics = exportedTexts entries anchor) ↔
      ∀ e ∈ entries, Exportable anchor e) := by
  refine ⟨fun hline hcont => ?_, unescapeText_escapeText s,
    export_cases entries anchor⟩
  rcases foldLine_cases hline with ⟨hcut, rows, hrows, hbytes, hok, hfold⟩ |
    ⟨hcut, herr⟩
  · refine ⟨fun _ => hcut, fun _ => ⟨_, hok [], ?_, ?_⟩⟩
    · rw [List.nil_append, splitOn_unlines hrows]
      intro row hrow
      rcases List.mem_append.mp hrow with hrow | hrow
      · exact hbytes row hrow
      · obtain rfl := List.mem_singleton.mp hrow
        exact Nat.zero_le _
    · unfold unfoldLines
      rw [List.nil_append, splitOn_unlines hrows, List.foldl_append,
        hfold hcont, List.foldl_cons, List.foldl_nil, unfoldStep_nil]
      rfl
  · refine ⟨fun ⟨out, h, _⟩ => ?_, fun h => absurd h hcut⟩
    obtain ⟨e, herr⟩ := herr []
    rw [herr] at h
    cases h

/-- A char of two bytes across the 75th is not cut in front of: its line
is not folded. -/
theorem not_fold_octets_law :
    ¬ ∀ line : Line, '\n' ∉ line → continuation? line = none →
      ∃ out, foldLine line [] = .ok out := by
  intro h
  obtain ⟨out, hout⟩ := h (List.replicate 74 'x' ++ ['é']) (by decide) rfl
  have herr : foldLine (List.replicate 74 'x' ++ ['é']) [] =
      .error .outOfBounds := by rfl
  rw [herr] at hout
  cases hout

end Zmax.Icalendar
