/-
What is imported of a calendar.

`Scan` cuts the content lines into events, each from the last `BEGIN` in
front of its `END`. The importer keeps step with it (`Follows`): what it
has of the current event is what the event's lines say. It differs in two
places. A date is sliced at fixed bytes and may cut a char (`CutsChar`),
and an `END` without an event writes the event before it once more.
-/
import Mathlib.Data.List.Induction
import Zmax.Core.Icalendar

namespace Zmax.Icalendar

open Calendar Text

/-- The events that are complete, and the lines of the open one. -/
structure Scan where
  done : List (List Line) := []
  body : Option (List Line) := none

def isBegin (line : Line) : Bool := toUpper line = BEGIN_EVENT

def isEnd (line : Line) : Bool := toUpper line = END_EVENT

def Scan.line (self : Scan) (line : Line) : Scan :=
  if isBegin line then { self with body := some [] }
  else if isEnd line then ⟨self.done ++ self.body.toList, none⟩
  else { self with body := self.body.map (· ++ [line]) }

def scan (lines : List Line) : Scan := lines.foldl Scan.line {}

/-- The last value of a property. -/
def lastProp (name : Line) (body : List Line) : Option Line :=
  ((body.filterMap splitProp).filter (·.1 = name)).getLast?.map Prod.snd

/-- The date of a value, if it is a valid one. -/
def date? (v : List Char) : Option Date :=
  match parseIcalDate v with
  | .ok d => d
  | .error _ => none

def eventDate (body : List Line) : Option Date :=
  (lastProp "DTSTART".toList body).bind date?

def eventSummary (body : List Line) : Line :=
  ((lastProp "SUMMARY".toList body).map unescapeText).getD []

def eventRule (body : List Line) : Line :=
  ((lastProp "RRULE".toList body).map toUpper).getD []

/-- The diary line of an event whose date is valid. -/
def diaryEntry (body : List Line) : Option Line :=
  (eventDate body).bind fun d =>
    (diaryLine d (eventSummary body) (eventRule body)).toOption

/-- The bytes of a date that are read as numbers, as long as they are,
are cut inside a char. -/
def CutsChar (v : List Char) : Prop :=
  let d := datePart v
  8 ≤ byteLen d ∧ (splitAtByte d 4 = none ∨
    ∃ year rest, splitAtByte d 4 = some (year, rest) ∧
      (parseI32 year).isSome ∧ (splitAtByte rest 2 = none ∨
        ∃ month rest', splitAtByte rest 2 = some (month, rest') ∧
          (parseU32 month).isSome ∧ splitAtByte rest' 2 = none))

/-- Something holds of every line and those in front of it. -/
def Throughout (P : List Line → Line → Prop) (lines : List Line) : Prop :=
  ∀ pre line post, lines = pre ++ line :: post → P pre line

/-- A date that is read in an event cuts no char. -/
def Whole (pre : List Line) (line : Line) : Prop :=
  (scan pre).body.isSome → isBegin line = false → isEnd line = false →
    ∀ v, splitProp line = some ("DTSTART".toList, v) → ¬ CutsChar v

/-- An end without an event does not follow one with a valid date. -/
def Closed (pre : List Line) (line : Line) : Prop :=
  isEnd line → (scan pre).body = none →
    ∀ body, (scan pre).done.getLast? = some body → eventDate body = none

-- == dates

theorem byteSlice_two (d front rest : List Char) {n : Nat}
    (h : splitAtByte d n = some (front, rest)) :
    byteSlice d n (n + 2) =
      match splitAtByte rest 2 with
      | some (piece, _) => .ok piece
      | none => .error .outOfBounds := by
  obtain ⟨rfl, rfl⟩ := splitAtByte_eq_some.mp h
  cases hrest : splitAtByte rest 2 with
  | some p =>
      obtain ⟨piece, rest'⟩ := p
      obtain ⟨rfl, hlen⟩ := splitAtByte_eq_some.mp hrest
      exact byteSlice_eq_ok.mpr
        ⟨front, rest', (List.append_assoc _ _ _).symm, rfl, by rw [hlen]⟩
  | none =>
      cases hslice : byteSlice (front ++ rest) (byteLen front)
          (byteLen front + 2) with
      | error e =>
          unfold byteSlice at hslice
          split at hslice
          · injection hslice with hslice
            rw [hslice]
          · split at hslice
            · injection hslice with hslice
              rw [hslice]
            · cases hslice
      | ok piece =>
          obtain ⟨front', rest', heq, hf, hlen⟩ := byteSlice_eq_ok.mp hslice
          rw [List.append_assoc] at heq
          have hsame := splitAtByte_eq_some.mpr ⟨heq, hf⟩
          rw [splitAtByte_eq_some.mpr ⟨rfl, rfl⟩] at hsame
          obtain ⟨rfl, rfl⟩ := Prod.mk.inj (Option.some.inj hsame)
          rw [splitAtByte_eq_some.mpr ⟨rfl, by omega⟩] at hrest
          cases hrest

theorem byteSlice_four (d : List Char) :
    byteSlice d 0 4 =
      match splitAtByte d 4 with
      | some (piece, _) => .ok piece
      | none => .error .outOfBounds := by
  unfold byteSlice
  cases splitAtByte d 4 with
  | none => rfl
  | some p =>
      obtain ⟨piece, rest⟩ := p
      cases piece <;> rfl

/-- Reading a date fails just where it cuts a char; a date that is read has
a month. -/
theorem parseIcalDate_cases (v : List Char) :
    (CutsChar v ∧ parseIcalDate v = .error .outOfBounds) ∨
      (¬ CutsChar v ∧ ∃ d, parseIcalDate v = .ok d ∧
        ∀ date, d = some date → 1 ≤ date.month ∧ date.month ≤ 12) := by
  unfold parseIcalDate CutsChar
  dsimp only
  by_cases hlen : byteLen (datePart v) < 8
  · rw [if_pos hlen]
    exact .inr ⟨fun h => by omega, none, rfl, nofun⟩
  rw [if_neg hlen, byteSlice_four]
  cases h4 : splitAtByte (datePart v) 4 with
  | none => exact .inl ⟨⟨by omega, .inl rfl⟩, rfl⟩
  | some p =>
      obtain ⟨year, rest⟩ := p
      simp only [ok_bind]
      cases hyear : parseI32 year with
      | none =>
          refine .inr ⟨?_, none, rfl, nofun⟩
          rintro ⟨-, h | ⟨y, r, heq, hsome, -⟩⟩
          · cases h
          · cases heq
            rw [hyear] at hsome
            cases hsome
      | some y =>
          have hrest := byteSlice_two _ _ _ h4
          rw [hrest]
          cases h6 : splitAtByte rest 2 with
          | none =>
              refine .inl ⟨⟨by omega, .inr
                ⟨year, rest, rfl, ?_, .inl h6⟩⟩, rfl⟩
              rw [hyear]
              rfl
          | some p =>
              obtain ⟨month, rest'⟩ := p
              simp only [ok_bind]
              have h46 : splitAtByte (datePart v) 6 =
                  some (year ++ month, rest') := by
                obtain ⟨hd, hy⟩ := splitAtByte_eq_some.mp h4
                obtain ⟨hr, hm⟩ := splitAtByte_eq_some.mp h6
                refine splitAtByte_eq_some.mpr ⟨?_, ?_⟩
                · rw [hd, hr, List.append_assoc]
                · rw [byteLen_append, hy, hm]
              cases hmonth : parseU32 month with
              | none =>
                  refine .inr ⟨?_, none, rfl, nofun⟩
                  rintro ⟨-, h | ⟨y, r, heq, -, h | ⟨m, r', heq', hsome, -⟩⟩⟩
                  · cases h
                  · cases heq
                    rw [h6] at h
                    cases h
                  · cases heq
                    rw [h6] at heq'
                    cases heq'
                    rw [hmonth] at hsome
                    cases hsome
              | some m =>
                  have hrest' := byteSlice_two _ _ _ h46
                  rw [hrest']
                  cases h8 : splitAtByte rest' 2 with
                  | none =>
                      refine .inl ⟨⟨by omega, .inr ⟨year, rest, rfl, ?_, .inr
                        ⟨month, rest', h6, ?_, h8⟩⟩⟩, rfl⟩
                      · rw [hyear]
                        rfl
                      · rw [hmonth]
                        rfl
                  | some p =>
                      obtain ⟨day, rest''⟩ := p
                      have hnot : ¬ (8 ≤ byteLen (datePart v) ∧
                          (some (year, rest) = none ∨
                            ∃ y r, some (year, rest) = some (y, r) ∧
                              (parseI32 y).isSome ∧
                              (splitAtByte r 2 = none ∨
                                ∃ m r', splitAtByte r 2 = some (m, r') ∧
                                  (parseU32 m).isSome ∧
                                  splitAtByte r' 2 = none))) := by
                        rintro ⟨-, h | ⟨y, r, heq, -, h | ⟨m, r', heq', -, h⟩⟩⟩
                        · cases h
                        · cases heq
                          rw [h6] at h
                          cases h
                        · cases heq
                          rw [h6] at heq'
                          cases heq'
                          rw [h8] at h
                          cases h
                      simp only [ok_bind]
                      refine .inr ⟨hnot, ?_⟩
                      cases parseU32 day with
                      | none => exact ⟨none, rfl, nofun⟩
                      | some d =>
                          dsimp only
                          split
                          · exact ⟨none, rfl, nofun⟩
                          · next hrange =>
                              refine ⟨_, rfl, fun date hdate => ?_⟩
                              cases hdate
                              dsimp only
                              omega

-- == the lines

theorem index_ok (names : List Line) {i : Nat} (h : i < names.length) :
    ∃ name, index names i = .ok name :=
  ⟨_, index_eq_ok.mpr (List.getElem?_eq_getElem h)⟩

theorem weekday_lt (d : Date) : weekday d < 7 := by
  unfold weekday asU32
  generalize (toSerial d).tmod 7 = n
  omega

/-- A date with a month has a diary line. -/
theorem diaryLine_ok {d : Date} (h : 1 ≤ d.month) (h' : d.month ≤ 12)
    (text rrule : Line) : ∃ entry, diaryLine d text rrule = .ok entry := by
  have hmonths : MONTH_NAMES.length = 12 := rfl
  have hdays : WEEKDAY_NAMES.length = 7 := rfl
  have hm : d.month - 1 < MONTH_NAMES.length := by omega
  have hw : weekday d < WEEKDAY_NAMES.length := hdays ▸ weekday_lt d
  obtain ⟨month, hmonth⟩ := index_ok MONTH_NAMES hm
  obtain ⟨wd, hwd⟩ := index_ok WEEKDAY_NAMES hw
  unfold diaryLine
  rw [checkedSub_of_le h, ok_bind, hmonth, ok_bind]
  split
  · exact ⟨_, rfl⟩
  · split
    · rw [hwd]
      exact ⟨_, rfl⟩
    · exact ⟨_, rfl⟩

theorem date?_month {v : List Char} {d : Date} (h : date? v = some d) :
    1 ≤ d.month ∧ d.month ≤ 12 := by
  unfold date? at h
  rcases parseIcalDate_cases v with ⟨-, herr⟩ | ⟨-, d', hok, hmonth⟩
  · rw [herr] at h
    cases h
  · rw [hok] at h
    exact hmonth d h

theorem eventDate_month {body : List Line} {d : Date}
    (h : eventDate body = some d) : 1 ≤ d.month ∧ d.month ≤ 12 := by
  obtain ⟨v, -, hv⟩ := Option.bind_eq_some_iff.mp h
  exact date?_month hv

theorem lastProp_concat (name : Line) (body : List Line) (line : Line) :
    lastProp name (body ++ [line]) =
      match splitProp line with
      | some (prop, value) =>
          if prop = name then some value else lastProp name body
      | none => lastProp name body := by
  unfold lastProp
  rw [List.filterMap_append, List.filter_append]
  cases hprop : splitProp line with
  | none => simp [hprop]
  | some p =>
      obtain ⟨prop, value⟩ := p
      by_cases h : prop = name
      · simp [hprop, h]
      · simp [hprop, h]

/-- The event whose values the importer has. -/
def Scan.current (self : Scan) : List Line :=
  self.body.getD (self.done.getLast?.getD [])

/-- The importer has the values of the current event. -/
structure Follows (s : Scan) (im : Importer) : Prop where
  inEvent : im.inEvent = s.body.isSome
  summary : im.summary = eventSummary s.current
  dtstart : im.dtstart = eventDate s.current
  rrule : im.rrule = eventRule s.current

/-- A property in an event. -/
theorem Follows.prop {s : Scan} {im : Importer} {body : List Line}
    {line : Line} (h : Follows s im) (hbody : s.body = some body)
    (hwhole : ∀ v, splitProp line = some ("DTSTART".toList, v) →
      ¬ CutsChar v) :
    ∃ im', im.prop line = .ok im' ∧ im'.out = im.out ∧
      Follows { s with body := some (body ++ [line]) } im' := by
  have hcur : s.current = body := by
    unfold Scan.current
    rw [hbody]
    rfl
  obtain ⟨hin, hsum, hdt, hrule⟩ := h
  rw [hbody] at hin
  rw [hcur] at hsum hdt hrule
  unfold Importer.prop
  cases hprop : splitProp line with
  | none =>
      refine ⟨im, rfl, rfl, hin, ?_, ?_, ?_⟩
      · exact hsum.trans (by
          simp [eventSummary, Scan.current, lastProp_concat, hprop])
      · exact hdt.trans (by
          simp [eventDate, Scan.current, lastProp_concat, hprop])
      · exact hrule.trans (by
          simp [eventRule, Scan.current, lastProp_concat, hprop])
  | some p =>
      obtain ⟨prop, value⟩ := p
      dsimp only
      have hne₁ : "SUMMARY".toList ≠ "DTSTART".toList := by decide
      have hne₂ : "SUMMARY".toList ≠ "RRULE".toList := by decide
      have hne₃ : "DTSTART".toList ≠ "RRULE".toList := by decide
      have hlast : ∀ name, lastProp name (body ++ [line]) =
          if prop = name then some value else lastProp name body :=
        fun name => by rw [lastProp_concat, hprop]
      split
      · next heq =>
          subst heq
          refine ⟨_, rfl, rfl, hin, ?_, ?_, ?_⟩
          · simp only [eventSummary, Scan.current, Option.getD_some, hlast,
              if_true, Option.map_some]
          · simp only [eventDate, Scan.current, Option.getD_some, hlast,
              if_neg hne₁]
            exact hdt
          · simp only [eventRule, Scan.current, Option.getD_some, hlast,
              if_neg hne₂]
            exact hrule
      · next hsummary =>
          split
          · next heq =>
              subst heq
              rcases parseIcalDate_cases value with ⟨hcut, -⟩ |
                ⟨-, d, hok, -⟩
              · exact absurd hcut (hwhole value hprop)
              · have hdate : date? value = d := by
                  unfold date?
                  rw [hok]
                refine ⟨{ im with dtstart := d }, by rw [hok]; rfl, rfl, hin,
                  ?_, ?_, ?_⟩
                · simp only [eventSummary, Scan.current, Option.getD_some,
                    hlast, if_neg hsummary]
                  exact hsum
                · simp only [eventDate, Scan.current, Option.getD_some,
                    hlast, if_true, Option.bind_some]
                  exact hdate.symm
                · simp only [eventRule, Scan.current, Option.getD_some,
                    hlast, if_neg hne₃]
                  exact hrule
          · next hdtstart =>
              have hsum' : im.summary =
                  eventSummary (body ++ [line]) := by
                unfold eventSummary
                rw [hlast, if_neg hsummary]
                exact hsum
              have hdt' : im.dtstart = eventDate (body ++ [line]) := by
                unfold eventDate
                rw [hlast, if_neg hdtstart]
                exact hdt
              split
              · next heq =>
                  subst heq
                  refine ⟨_, rfl, rfl, hin, hsum', hdt', ?_⟩
                  simp only [eventRule, Scan.current, Option.getD_some,
                    hlast, if_true, Option.map_some]
              · next hrrule =>
                  refine ⟨im, rfl, rfl, hin, hsum', hdt', ?_⟩
                  simp only [eventRule, Scan.current, Option.getD_some,
                    hlast, if_neg hrrule]
                  exact hrule

/-- A date that cuts a char ends the import. -/
theorem prop_cuts {im : Importer} {line : Line} {v : List Char}
    (hprop : splitProp line = some ("DTSTART".toList, v))
    (hcut : CutsChar v) : im.prop line = .error .outOfBounds := by
  have hne : "DTSTART".toList ≠ "SUMMARY".toList := by decide
  unfold Importer.prop
  rw [hprop]
  dsimp only
  rw [if_neg hne, if_pos rfl]
  rcases parseIcalDate_cases v with ⟨-, herr⟩ | ⟨hnot, -⟩
  · rw [herr]
    rfl
  · exact absurd hcut hnot

theorem isEnd_of_isBegin {line : Line} (h : isBegin line = true) :
    isEnd line = false := by
  have hbegin : toUpper line = BEGIN_EVENT := of_decide_eq_true h
  refine decide_eq_false ?_
  rw [hbegin]
  decide

/-- One line: an end writes the event whose values there are. -/
theorem Follows.line {s : Scan} {im : Importer} (h : Follows s im)
    (line : Line) (hwhole : s.body.isSome → isBegin line = false →
      isEnd line = false → ∀ v,
        splitProp line = some ("DTSTART".toList, v) → ¬ CutsChar v) :
    ∃ im', im.line line = .ok im' ∧ Follows (s.line line) im' ∧
      im'.out = im.out ++
        if isEnd line then (diaryEntry s.current).toList else [] := by
  unfold Importer.line Scan.line
  by_cases hbegin : isBegin line = true
  · rw [if_pos (of_decide_eq_true hbegin), if_pos hbegin,
      isEnd_of_isBegin hbegin]
    exact ⟨_, rfl, ⟨rfl, rfl, rfl, rfl⟩, (List.append_nil _).symm⟩
  · rw [if_neg (of_decide_eq_false (Bool.eq_false_iff.mpr hbegin)),
      if_neg hbegin]
    by_cases hend : isEnd line = true
    · rw [if_pos (of_decide_eq_true hend), if_pos hend, if_pos hend]
      have hcur : Scan.current ⟨s.done ++ s.body.toList, none⟩ =
          s.current := by
        unfold Scan.current
        cases s.body with
        | none => rw [Option.toList_none, List.append_nil]
        | some body => rw [Option.toList_some, List.getLast?_concat]; rfl
      have hfollows : ∀ im' : Importer, im'.inEvent = false →
          im'.summary = im.summary → im'.dtstart = im.dtstart →
          im'.rrule = im.rrule →
          Follows ⟨s.done ++ s.body.toList, none⟩ im' :=
        fun im' hin hsum hdt hrule =>
          ⟨hin, by rw [hsum, hcur, h.summary], by rw [hdt, hcur, h.dtstart],
            by rw [hrule, hcur, h.rrule]⟩
      have hdt := h.dtstart
      unfold diaryEntry
      rw [← hdt, ← h.summary, ← h.rrule]
      cases hd : im.dtstart with
      | none =>
          exact ⟨_, rfl, hfollows _ rfl rfl hd.symm rfl,
            (List.append_nil _).symm⟩
      | some d =>
          rw [hd] at hdt
          obtain ⟨h1, h12⟩ := eventDate_month hdt.symm
          obtain ⟨entry, hentry⟩ := diaryLine_ok h1 h12 im.summary im.rrule
          dsimp only
          rw [Option.bind_some, hentry]
          exact ⟨_, rfl, hfollows _ rfl rfl hd.symm rfl, rfl⟩
    · rw [if_neg (of_decide_eq_false (Bool.eq_false_iff.mpr hend)),
        if_neg hend, if_neg hend, h.inEvent]
      cases hbody : s.body with
      | none =>
          obtain ⟨done, body⟩ := s
          cases hbody
          exact ⟨im, rfl, h, (List.append_nil _).symm⟩
      | some body =>
          obtain ⟨im', hok, hout, hfollows⟩ := h.prop hbody
            (hwhole (by rw [hbody]; rfl) (Bool.eq_false_iff.mpr hbegin)
              (Bool.eq_false_iff.mpr hend))
          exact ⟨im', hok, hfollows, by rw [hout, List.append_nil]⟩

-- == the run

theorem throughout_concat {P : List Line → Line → Prop} {lines : List Line}
    {line : Line} :
    Throughout P (lines ++ [line]) ↔ Throughout P lines ∧ P lines line := by
  constructor
  · intro h
    refine ⟨fun pre l post heq => h pre l (post ++ [line]) ?_,
      h lines line [] rfl⟩
    rw [heq, List.append_assoc, List.cons_append]
  · rintro ⟨h, hlast⟩ pre l post heq
    rcases List.eq_nil_or_concat post with rfl | ⟨init, last, hpost⟩
    · obtain ⟨rfl, hl⟩ := List.append_inj' heq rfl
      injection hl with hl
      exact hl ▸ hlast
    · rw [hpost, List.concat_eq_append, ← List.cons_append,
        ← List.append_assoc] at heq
      exact h pre l init (List.append_inj' heq rfl).1

/-- The diary lines of the events that are complete. -/
def expected (lines : List Line) : List Line :=
  (scan lines).done.filterMap diaryEntry

theorem expected_concat (lines : List Line) (line : Line) :
    expected (lines ++ [line]) = expected lines ++
      if isEnd line then ((scan lines).body.bind diaryEntry).toList
      else [] := by
  have hscan : scan (lines ++ [line]) = (scan lines).line line :=
    List.foldl_concat _ _ _ _
  unfold expected
  rw [hscan]
  unfold Scan.line
  by_cases hbegin : isBegin line = true
  · rw [if_pos hbegin, isEnd_of_isBegin hbegin]
    exact (List.append_nil _).symm
  · rw [if_neg hbegin]
    by_cases hend : isEnd line = true
    · rw [if_pos hend, if_pos hend, List.filterMap_append]
      cases (scan lines).body with
      | none => rfl
      | some body =>
          rw [Option.toList_some, Option.bind_some]
          cases hentry : diaryEntry body <;> simp [hentry]
    · rw [if_neg hend, if_neg hend]
      exact (List.append_nil _).symm

/-- An end that is closed writes what is expected, and any other one a line
more. -/
theorem end_cases (lines : List Line) (line : Line) :
    (Closed lines line ∧
      (if isEnd line then (diaryEntry (scan lines).current).toList else []) =
        if isEnd line then ((scan lines).body.bind diaryEntry).toList
        else []) ∨
    (¬ Closed lines line ∧ ∃ entry,
      (if isEnd line then (diaryEntry (scan lines).current).toList else []) =
        [entry] ∧
      (if isEnd line then ((scan lines).body.bind diaryEntry).toList
        else []) = []) := by
  unfold Closed Scan.current
  by_cases hend : isEnd line = true
  · rw [if_pos hend, if_pos hend]
    cases (scan lines).body with
    | some body => exact .inl ⟨nofun, rfl⟩
    | none =>
        cases (scan lines).done.getLast? with
        | none => exact .inl ⟨fun _ _ => nofun, rfl⟩
        | some body =>
            dsimp only [Option.getD_none, Option.getD_some, Option.bind_none]
            unfold diaryEntry
            cases hdate : eventDate body with
            | none =>
                refine .inl ⟨fun _ _ b hb => ?_, rfl⟩
                injection hb with hb
                exact hb ▸ hdate
            | some d =>
                obtain ⟨h1, h12⟩ := eventDate_month hdate
                obtain ⟨entry, hentry⟩ := diaryLine_ok h1 h12
                  (eventSummary body) (eventRule body)
                refine .inr ⟨fun h => ?_, entry, ?_, rfl⟩
                · rw [h hend rfl body rfl] at hdate
                  cases hdate
                · rw [Option.bind_some, hentry]
                  rfl
  · rw [if_neg hend, if_neg hend]
    exact .inl ⟨fun h => absurd h hend, rfl⟩

/-- A run fails at the first date that cuts a char, and otherwise writes
the events, with one more line for each end that is not closed. -/
theorem run_cases (lines : List Line) :
    (¬ Throughout Whole lines ∧
      ∃ e, lines.foldlM Importer.line {} = .error e) ∨
    (Throughout Whole lines ∧
      ∃ im, lines.foldlM Importer.line {} = .ok im ∧
        Follows (scan lines) im ∧
        ((Throughout Closed lines ∧ im.out = expected lines) ∨
          (¬ Throughout Closed lines ∧
            (expected lines).length < im.out.length))) := by
  induction lines using List.reverseRecOn with
  | nil =>
      have hnil : ∀ P, Throughout P [] := fun P pre l post h => by
        cases pre <;> cases h
      exact .inr ⟨hnil _, {}, rfl, ⟨rfl, rfl, rfl, rfl⟩, .inl ⟨hnil _, rfl⟩⟩
  | append_singleton lines line ih =>
      rw [List.foldlM_append, throughout_concat, throughout_concat]
      have hscan : scan (lines ++ [line]) = (scan lines).line line :=
        List.foldl_concat _ _ _ _
      rcases ih with ⟨hcut, e, herr⟩ | ⟨hwhole, im, hok, hfollows, hout⟩
      · rw [herr]
        exact .inl ⟨fun h => hcut h.1, e, rfl⟩
      · rw [hok, ok_bind, List.foldlM_cons]
        by_cases hline : Whole lines line
        · obtain ⟨im', hok', hfollows', hout'⟩ := hfollows.line line hline
          refine .inr ⟨⟨hwhole, hline⟩, im', by rw [hok']; rfl, ?_, ?_⟩
          · rw [hscan]
            exact hfollows'
          · rw [hout', expected_concat]
            rcases end_cases lines line with ⟨hclosed, heq⟩ |
              ⟨hopen, entry, hmore, hnone⟩
            · rw [heq]
              rcases hout with ⟨hall, hout⟩ | ⟨hnot, hlen⟩
              · exact .inl ⟨⟨hall, hclosed⟩, by rw [hout]⟩
              · refine .inr ⟨fun h => hnot h.1, ?_⟩
                rw [List.length_append, List.length_append]
                omega
            · rw [hmore, hnone, List.append_nil]
              refine .inr ⟨fun h => hopen h.2, ?_⟩
              rw [List.length_append, List.length_singleton]
              rcases hout with ⟨-, hout⟩ | ⟨-, hlen⟩
              · rw [hout]
                exact Nat.lt_succ_self _
              · omega
        · refine .inl ⟨fun h => hline h.2, .outOfBounds, ?_⟩
          unfold Whole at hline
          push Not at hline
          obtain ⟨hbody, hbegin, hend, v, hprop, hcut⟩ := hline
          have hin : im.inEvent = true := hfollows.inEvent.trans hbody
          have herr : im.line line = .error .outOfBounds := by
            unfold Importer.line
            rw [if_neg (of_decide_eq_false hbegin),
              if_neg (of_decide_eq_false hend), hin]
            exact prop_cuts hprop hcut
          rw [herr]
          rfl

/-- The import gives one diary line for each complete event with a valid
last date, in order, unless a date is cut inside a char or an end stands
behind an event that is over. -/
theorem import_ical_law (ics : List Char) :
    importIcal ics = .ok (expected (unfoldLines ics)) ↔
      Throughout Whole (unfoldLines ics) ∧
        Throughout Closed (unfoldLines ics) := by
  unfold importIcal
  rcases run_cases (unfoldLines ics) with ⟨hcut, e, herr⟩ |
    ⟨hwhole, im, hok, -, hout⟩
  · rw [herr]
    exact ⟨nofun, fun h => absurd h.1 hcut⟩
  · rw [hok, ok_bind]
    rcases hout with ⟨hall, hout⟩ | ⟨hnot, hlen⟩
    · rw [hout]
      exact ⟨fun _ => ⟨hwhole, hall⟩, fun _ => rfl⟩
    · refine ⟨fun h => ?_, fun h => absurd h.2 hnot⟩
      injection h with h
      have heq : im.out = expected (unfoldLines ics) := h
      rw [heq] at hlen
      exact absurd hlen (Nat.lt_irrefl _)

/-- Two ends for one event. -/
def endedTwice : List Char :=
  "BEGIN:VEVENT\nDTSTART:20240101\nEND:VEVENT\nEND:VEVENT".toList

/-- A date of eight bytes that are not eight chars, and an event that is
written once more at a stray end. -/
theorem not_import_ical_law :
    importIcal "BEGIN:VEVENT\nDTSTART:202\u00e90101\nEND:VEVENT".toList =
        .error .outOfBounds ∧
      importIcal endedTwice ≠ .ok (expected (unfoldLines endedTwice)) := by
  decide

end Zmax.Icalendar
