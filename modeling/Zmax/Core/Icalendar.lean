/-
zmax-core/src/icalendar.rs: diary entries as iCalendar text, and lines of a
diary from one.

`str` is indexed by bytes; a slice that cuts a char panics. Of the specs of
a diary entry those that have no simple event are one (`other`).
-/
import Zmax.Core.Calendar
import Zmax.Core.Text

namespace Zmax.Icalendar

open Calendar Text

abbrev Line := List Char

def PRODID : Line := "-//zmax//NONSGML zmax diary//EN".toList

def BYDAY : List Line :=
  ["SU", "MO", "TU", "WE", "TH", "FR", "SA"].map String.toList

def MONTH_NAMES : List Line :=
  ["January", "February", "March", "April", "May", "June", "July", "August",
    "September", "October", "November", "December"].map String.toList

def WEEKDAY_NAMES : List Line :=
  ["Sunday", "Monday", "Tuesday", "Wednesday", "Thursday", "Friday",
    "Saturday"].map String.toList

-- == texts

def escapeChar : Char → List Char
  | '\\' => ['\\', '\\']
  | ';' => ['\\', ';']
  | ',' => ['\\', ',']
  | '\n' => ['\\', 'n']
  | c => [c]

def escapeText (s : List Char) : List Char := s.flatMap escapeChar

def unescapeText : List Char → List Char
  | [] => []
  | ['\\'] => ['\\']
  | '\\' :: other :: rest =>
      (if other = 'n' ∨ other = 'N' then '\n' else other) ::
        unescapeText rest
  | c :: rest => c :: unescapeText rest

attribute [grind =] unescapeText

-- == folding

/-- The loop that moves the cut back. -/
def backUp (bytes : List UInt8) (start : Nat) : Nat → Nat
  | 0 => 0
  | stop + 1 =>
      if start < stop + 1 ∧ (bytes[stop]?).any Utf8.isContinuation then
        backUp bytes start stop
      else stop + 1

/-- The loop of `fold_line`. -/
def foldLoop (line : Line) (bytes : List UInt8) :
    (fuel start : Nat) → (first : Bool) → (out : List Char) →
      Result (List Char)
  | 0, _, _, _ => .error .diverges
  | fuel + 1, start, first, out =>
      if start < bytes.length then do
        let budget := if first then 75 else 74
        let stop := backUp bytes start (min (start + budget) bytes.length)
        let out := if first then out else out ++ [' ']
        let piece ← byteSlice line start stop
        foldLoop line bytes fuel stop false (out ++ piece ++ ['\r', '\n'])
      else .ok out

/-- A content line onto the output, folded after 75 octets. -/
def foldLine (line : Line) (out : List Char) : Result (List Char) :=
  let bytes := Utf8.encode line
  if bytes.length ≤ 75 then .ok (out ++ line ++ ['\r', '\n'])
  else foldLoop line bytes (bytes.length + 1) 0 true out

attribute [grind =] backUp foldLoop

/-- A line that goes on with the one before it. -/
def continuation? : Line → Option Line
  | ' ' :: rest | '\t' :: rest => some rest
  | _ => none

/-- One piece of `unfold`. -/
def unfoldStep (lines : List Line) (raw : Line) : List Line :=
  let line := stripCr raw
  match continuation? line, lines.getLast? with
  | some rest, some last => lines.dropLast ++ [last ++ rest]
  | _, _ => lines ++ [line]

/-- `unfold`: the content lines of a text. -/
def unfoldLines (ics : List Char) : List Line :=
  (ics.splitOn '\n').foldl unfoldStep []

-- == export

/-- The specs of diary entries. -/
inductive DateSpec where
  | specific (year : Int) (month day : Nat)
  | yearly (month day : Nat)
  | weekly (weekday : Nat)
  | anniversary (month day : Nat) (year : Option Int)
  | block (start stop : Date)
  | cyclic (n : Int) (base : Date)
  | other
  deriving DecidableEq, Repr

/-- `diary::Entry` -/
structure Entry where
  spec : DateSpec
  text : List Char
  deriving DecidableEq, Repr

/-- `{:0width}` of a number. -/
def padded (width : Nat) (n : Int) : Line :=
  let digits := Nat.toDigits 10 n.natAbs
  let sign := if n < 0 then ['-'] else []
  sign ++ List.replicate (width - (sign.length + digits.length)) '0' ++ digits

/-- `YYYYMMDD` -/
def icalDate (d : Date) : Line :=
  padded 4 d.year ++ padded 2 d.month ++ padded 2 d.day

/-- The first day on or after one that is on the weekday. -/
def nextWeekday (wd : Nat) : (fuel : Nat) → Date → Result Date
  | 0, _ => .error .diverges
  | fuel + 1, d =>
      if weekday d ≠ wd then do
        let next ← addDays d 1
        nextWeekday wd fuel next
      else .ok d

attribute [grind =] nextWeekday

/-- The start, end and rule of the event of a spec. -/
def specToIcal (spec : DateSpec) (anchor : Date) :
    Result (Option (Date × Option Date × Option Line)) :=
  match spec with
  | .specific year month day => .ok (some (⟨year, month, day⟩, none, none))
  | .yearly month day =>
      .ok (some (⟨anchor.year, month, day⟩, none,
        some "FREQ=YEARLY".toList))
  | .anniversary month day year =>
      .ok (some (⟨year.getD anchor.year, month, day⟩, none,
        some "FREQ=YEARLY".toList))
  | .weekly wd => do
      let d ← nextWeekday wd turns64 anchor
      let day ← index BYDAY (wd % 7)
      return some (d, none, some ("FREQ=WEEKLY;BYDAY=".toList ++ day))
  | .cyclic n base =>
      .ok (some (base, none,
        some ("FREQ=DAILY;INTERVAL=".toList ++ padded 0 n)))
  | .block start stop => do
      let last ← addDays stop 1
      return some (start, some last, none)
  | .other => .ok none

/-- Content lines one after the other onto the output. -/
def foldLines : List Line → List Char → Result (List Char)
  | [], out => .ok out
  | line :: rest, out => do
      let out ← foldLine line out
      foldLines rest out

attribute [grind =] foldLines

/-- The content lines of one event, the `i`-th of the entries. -/
def eventLines (i : Nat) (text : List Char) (dtstart : Date)
    (dtend : Option Date) (rrule : Option Line) : List Line :=
  ["BEGIN:VEVENT".toList,
    "UID:zmax-".toList ++ padded 0 (i + 1) ++ "@diary".toList,
    "SUMMARY:".toList ++ escapeText text,
    "DTSTART;VALUE=DATE:".toList ++ icalDate dtstart] ++
  (dtend.map fun d => "DTEND;VALUE=DATE:".toList ++ icalDate d).toList ++
  (rrule.map fun rule => "RRULE:".toList ++ rule).toList ++
  ["END:VEVENT".toList]

structure Export where
  ics : List Char
  exported : Nat
  skipped : Nat
  deriving DecidableEq, Repr

/-- One entry, the `i`-th; what is written so far is the body. -/
def exportEntry (anchor : Date) (i : Nat) (e : Entry) (out : Export) :
    Result Export := do
  match (← specToIcal e.spec anchor) with
  | none => return { out with skipped := out.skipped + 1 }
  | some (dtstart, dtend, rrule) =>
      let body ← foldLines (eventLines i e.text dtstart dtend rrule) out.ics
      return { out with ics := body, exported := out.exported + 1 }

def exportLoop (anchor : Date) : List Entry → Nat → Export → Result Export
  | [], _, out => .ok out
  | e :: rest, i, out => do
      let out ← exportEntry anchor i e out
      exportLoop anchor rest (i + 1) out

attribute [grind =] exportLoop

def exportEntries (entries : List Entry) (anchor : Date) : Result Export := do
  let body ← exportLoop anchor entries 0 ⟨[], 0, 0⟩
  let ics ← foldLines ["BEGIN:VCALENDAR".toList, "VERSION:2.0".toList,
    "PRODID:".toList ++ PRODID] []
  let ics ← foldLine "END:VCALENDAR".toList (ics ++ body.ics)
  return { body with ics := ics }

-- == import

/-- `parse::<u32>` -/
def parseU32 (s : List Char) : Option Nat :=
  (parseUsize s).filter (· ≤ 0xffffffff)

/-- `parse::<i32>` -/
def parseI32 (s : List Char) : Option Int :=
  match s with
  | '-' :: digits =>
      if digits.head? = some '+' then none
      else ((parseUsize digits).filter (· ≤ 0x80000000)).map
        fun n => -(n : Int)
  | _ => ((parseUsize s).filter (· ≤ 0x7fffffff)).map Int.ofNat

/-- The digits of a date, in front of the time. -/
def datePart (v : List Char) : List Char := (v.splitOn 'T').headD v

/-- `parse_ical_date` -/
def parseIcalDate (v : List Char) : Result (Option Date) :=
  let d := datePart v
  if byteLen d < 8 then .ok none
  else do
    let year ← byteSlice d 0 4
    match parseI32 year with
    | none => return none
    | some year =>
        let month ← byteSlice d 4 6
        match parseU32 month with
        | none => return none
        | some month =>
            let day ← byteSlice d 6 8
            match parseU32 day with
            | none => return none
            | some day =>
                if ¬ (1 ≤ month ∧ month ≤ 12) ∨ ¬ (1 ≤ day ∧ day ≤ 31) then
                  return none
                else return some ⟨year, month, day⟩

/-- `diary_line` -/
def diaryLine (d : Date) (text rrule : Line) : Result Line := do
  let monthIndex ← checkedSub d.month 1
  let month ← index MONTH_NAMES monthIndex
  if (breakAt "FREQ=YEARLY".toList rrule).isSome then
    return trimEnd (month ++ [' '] ++ padded 0 d.day ++ [' '] ++ text)
  else if (breakAt "FREQ=WEEKLY".toList rrule).isSome then do
    let wd ← index WEEKDAY_NAMES (weekday d)
    return trimEnd (wd ++ [' '] ++ text)
  else
    return trimEnd (month ++ [' '] ++ padded 0 d.day ++ [',', ' '] ++
      padded 0 d.year ++ [' '] ++ text)

/-- What `import_ical` keeps between lines. -/
structure Importer where
  out : List Line := []
  inEvent : Bool := false
  summary : Line := []
  dtstart : Option Date := none
  rrule : Line := []
  deriving DecidableEq, Repr

def toUpper (s : List Char) : List Char := s.map Char.toUpper

def BEGIN_EVENT : Line := "BEGIN:VEVENT".toList

def END_EVENT : Line := "END:VEVENT".toList

/-- The name of a property, without its parameters, and its value. -/
def splitProp (line : Line) : Option (Line × Line) :=
  (breakAt [':'] line).map fun (name, value) =>
    (toUpper ((name.splitOn ';').headD name), value)

/-- A property of the event. -/
def Importer.prop (self : Importer) (line : Line) : Result Importer :=
  match splitProp line with
  | none => .ok self
  | some (prop, value) =>
      if prop = "SUMMARY".toList then
        .ok { self with summary := unescapeText value }
      else if prop = "DTSTART".toList then do
        let dtstart ← parseIcalDate value
        return { self with dtstart := dtstart }
      else if prop = "RRULE".toList then
        .ok { self with rrule := toUpper value }
      else .ok self

/-- One content line. -/
def Importer.line (self : Importer) (line : Line) : Result Importer :=
  if toUpper line = BEGIN_EVENT then
    .ok { self with
      inEvent := true, summary := [], dtstart := none, rrule := [] }
  else if toUpper line = END_EVENT then
    match self.dtstart with
    | some d => do
        let entry ← diaryLine d self.summary self.rrule
        return { self with out := self.out ++ [entry], inEvent := false }
    | none => .ok { self with inEvent := false }
  else if !self.inEvent then .ok self
  else self.prop line

/-- `import_ical` -/
def importIcal (ics : List Char) : Result (List Line) := do
  let final ← (unfoldLines ics).foldlM Importer.line {}
  return final.out

end Zmax.Icalendar
