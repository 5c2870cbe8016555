/-
zmax-core/src/calendar.rs: dates of the Gregorian calendar, and the
conversions between absolute day numbers and the dates of eight others.

Integers are `Int`, and an operation that can leave its type is checked
(`i64`) or wraps (`asI32`, `asU32`) as the source has it. A sum whose terms
have one sign is checked once, as it leaves the type exactly if the whole
of it does. What is computed from the `i32` year and the `u32` month and
day of a date alone never leaves an `i64`, so `toSerial` and its like are
total. `/` and `%` of the source truncate (`tdiv`, `tmod`), `div_euclid`
and `rem_euclid` are `/` and `%`.

A search loop counts up from an estimate; it ends, or leaves its type,
within as many turns as the type has values, which bounds it here.
-/
import Zmax.Basic
import Mathlib.Algebra.Order.Ring.Int

namespace Zmax.Calendar

-- == integers

/-- An `i64` result, which panics outside of its type. -/
def i64 (n : Int) : Result Int :=
  if -9223372036854775808 ≤ n ∧ n ≤ 9223372036854775807 then .ok n
  else .error .assertion

/-- `as i32` -/
def asI32 (n : Int) : Int := (n + 2147483648) % 4294967296 - 2147483648

/-- `as u32` -/
def asU32 (n : Int) : Nat := (n % 4294967296).toNat

/-- `while cond(s) { s = step(s) }` -/
def loop {σ : Type} (cond : σ → Result Bool) (step : σ → σ) :
    Nat → σ → Result σ
  | 0, _ => .error .diverges
  | fuel + 1, s => do
      if ← cond s then loop cond step fuel (step s) else return s

/-- How many values an `i64` has. -/
def turns64 : Nat := 18446744073709551616

/-- How many values a `u32` has. -/
def turns32 : Nat := 4294967296

-- == gregorian

/-- A date; months and days are 1-based. The year is an `i32`. -/
structure Date where
  year : Int
  month : Nat
  day : Nat
  deriving DecidableEq, Repr

/-- Days since the start of 1970. -/
def toSerial (d : Date) : Int :=
  let y := d.year - if d.month ≤ 2 then 1 else 0
  let era := (if y ≥ 0 then y else y - 399).tdiv 400
  let yoe := y - era * 400
  let mp : Int := d.month + if d.month > 2 then -3 else 9
  let doy := (153 * mp + 2).tdiv 5 + d.day - 1
  let doe := yoe * 365 + yoe.tdiv 4 - yoe.tdiv 100 + doy
  era * 146097 + doe - 719468

def fromSerial (z : Int) : Result Date := do
  let z ← i64 (z + 719468)
  let era := (if z ≥ 0 then z else z - 146096).tdiv 146097
  let doe := z - era * 146097
  let yoe :=
    (doe - doe.tdiv 1460 + doe.tdiv 36524 - doe.tdiv 146096).tdiv 365
  let y := yoe + era * 400
  let doy := doe - (365 * yoe + yoe.tdiv 4 - yoe.tdiv 100)
  let mp := (5 * doy + 2).tdiv 153
  let day := doy - (153 * mp + 2).tdiv 5 + 1
  let month := if mp < 10 then mp + 3 else mp - 9
  return ⟨asI32 (y + if month ≤ 2 then 1 else 0), asU32 month, asU32 day⟩

/-- Day of the week, Sunday first. -/
def weekday (d : Date) : Nat := asU32 (((toSerial d).tmod 7 + 4) % 7)

def isLeap (year : Int) : Bool :=
  year.tmod 4 = 0 ∧ year.tmod 100 ≠ 0 ∨ year.tmod 400 = 0

def daysInMonth (year : Int) (month : Nat) : Nat :=
  match month with
  | 1 | 3 | 5 | 7 | 8 | 10 | 12 => 31
  | 4 | 6 | 9 | 11 => 30
  | 2 => if isLeap year then 29 else 28
  | _ => 30

def addDays (d : Date) (n : Int) : Result Date := do
  let z ← i64 (toSerial d + n)
  fromSerial z

def addMonths (d : Date) (n : Int) : Result Date := do
  let total ← i64 (d.year * 12 + (d.month - 1) + n)
  let year := asI32 (total / 12)
  let month := asU32 (total % 12 + 1)
  let day := min d.day (daysInMonth year month)
  return ⟨year, month, day⟩

/-- The year, week and day of the week (Monday first) of a date. -/
def isoWeek (d : Date) : Result (Int × Nat × Nat) := do
  let isoDow := (weekday d + 6) % 7 + 1
  let thursday ← addDays d (4 - isoDow)
  let isoYear := thursday.year
  let jan1 : Date := ⟨isoYear, 1, 1⟩
  let week := asU32 ((toSerial thursday - toSerial jan1).tdiv 7 + 1)
  return (isoYear, week, isoDow)

def dateFromIso (isoYear : Int) (week weekday' : Nat) : Result Date :=
  let jan4 : Date := ⟨isoYear, 1, 4⟩
  let jan4Iso := (weekday jan4 + 6) % 7 + 1
  let week1Monday := toSerial jan4 - (jan4Iso - 1)
  fromSerial (week1Monday + (week - 1) * 7 + (weekday' - 1))

/-- The absolute day number of a date; 1 is the first of January 1. -/
def rd (d : Date) : Int := toSerial d - toSerial ⟨1, 1, 1⟩ + 1

-- == julian

def julianEpoch : Int := -1

def julianLeap (year : Int) : Bool := year % 4 = if year > 0 then 0 else 3

/-- The year is an `i32`. -/
def fixedFromJulian (year : Int) (month day : Nat) : Int :=
  let y := if year < 0 then year + 1 else year
  julianEpoch - 1 + 365 * (y - 1) + (y - 1) / 4 + (367 * month - 362) / 12 +
    (if month ≤ 2 then 0 else if julianLeap year then -1 else -2) + day

def julianFromFixed (f : Int) : Result (Int × Nat × Nat) := do
  let quarters ← i64 (4 * (f - julianEpoch))
  let quarters ← i64 (quarters + 1464)
  let approx := quarters / 1461
  let year := if approx ≤ 0 then asI32 (approx - 1) else asI32 approx
  let priorDays := f - fixedFromJulian year 1 1
  let correction :=
    if f < fixedFromJulian year 3 1 then 0
    else if julianLeap year then 1 else 2
  let twelfths ← i64 (12 * (priorDays + correction))
  let twelfths ← i64 (twelfths + 373)
  let month := asU32 (twelfths / 367)
  let day := asU32 (f - fixedFromJulian year month 1 + 1)
  return (year, month, day)

-- == coptic and ethiopic

def copticEpoch : Int := 103605

def ethiopicEpoch : Int := 2796

/-- The year is an `i32`. -/
def copticLikeToFixed (epoch year : Int) (month day : Nat) : Int :=
  epoch - 1 + 365 * (year - 1) + year / 4 + 30 * (month - 1) + day

def copticLikeFromFixed (epoch f : Int) : Result (Int × Nat × Nat) := do
  let quarters ← i64 (4 * (f - epoch))
  let quarters ← i64 (quarters + 1463)
  let year := asI32 (quarters / 1461)
  let month := asU32 (1 + (f - copticLikeToFixed epoch year 1 1) / 30)
  let day := asU32 (f + 1 - copticLikeToFixed epoch year month 1)
  return (year, month, day)

def copticFromFixed (f : Int) : Result (Int × Nat × Nat) :=
  copticLikeFromFixed copticEpoch f

def fixedFromCoptic (year : Int) (month day : Nat) : Int :=
  copticLikeToFixed copticEpoch year month day

def ethiopicFromFixed (f : Int) : Result (Int × Nat × Nat) :=
  copticLikeFromFixed ethiopicEpoch f

def fixedFromEthiopic (year : Int) (month day : Nat) : Int :=
  copticLikeToFixed ethiopicEpoch year month day

-- == islamic

def islamicEpoch : Int := fixedFromJulian 622 7 16

def islamicLeap (year : Int) : Bool :=
  year % 30 ∈ [2, 5, 7, 10, 13, 16, 18, 21, 24, 26, 29]

def islamicLastDayOfMonth (month : Nat) (year : Int) : Nat :=
  if month % 2 = 1 ∨ month = 12 ∧ islamicLeap year then 30 else 29

def islamicDayNumber (month day : Nat) : Int :=
  29 * (month - 1) + month / 2 + day

def fixedFromIslamic (year : Int) (month day : Nat) : Result Int := do
  let years ← i64 (year - 1)
  let years ← i64 (years * 354)
  let total ← i64 (islamicDayNumber month day + years)
  let leaps ← i64 (11 * year)
  let leaps ← i64 (3 + leaps)
  let total ← i64 (total + leaps.tdiv 30)
  let total ← i64 (total + islamicEpoch)
  i64 (total - 1)

def islamicFromFixed (f : Int) : Result (Option (Int × Nat × Nat)) := do
  if f < islamicEpoch then return none
  else
    let approx := (f - islamicEpoch) / 355
    let year ← loop (fun year => do
      let next ← i64 (year + 1)
      let newYear ← fixedFromIslamic next 1 1
      return f ≥ newYear) (· + 1) turns64 approx
    let month ← loop (fun month => do
      let last ← fixedFromIslamic year month
        (islamicLastDayOfMonth month year)
      return f > last) (· + 1) turns32 1
    let first ← fixedFromIslamic year month 1
    return some (year, month, asU32 (f - first + 1))

-- == french revolutionary

def frenchEpoch : Int := rd ⟨1792, 9, 22⟩

def frenchLeap (year : Int) : Bool :=
  year ∈ [3, 7, 11, 15, 20] ∨
    year > 20 ∧ year.tmod 4 = 0 ∧ year.tmod 400 ∉ [100, 200, 300] ∧
      year.tmod 4000 ≠ 0

def frenchLastDayOfMonth (month : Nat) (year : Int) : Nat :=
  if month < 13 then 30 else if frenchLeap year then 6 else 5

def fixedFromFrench (year : Int) (month day : Nat) : Result Int := do
  let years ← i64 (year - 1)
  let total ← i64 (365 * years)
  let total ← i64 (total +
    if year < 20 then year.tdiv 4
    else years.tdiv 4 - years.tdiv 100 + years.tdiv 400 - years.tdiv 4000)
  let total ← i64 (total + 30 * (month - 1))
  let total ← i64 (total + day)
  let total ← i64 (total + frenchEpoch)
  i64 (total - 1)

/-- Month 13 is the five or six days at the end of the year. -/
def frenchFromFixed (f : Int) : Result (Option (Int × Nat × Nat)) := do
  if f < frenchEpoch then return none
  else
    let approx := (f - frenchEpoch) / 366
    let year ← loop (fun year => do
      let next ← i64 (year + 1)
      let newYear ← fixedFromFrench next 1 1
      return f ≥ newYear) (· + 1) turns64 approx
    let month ← loop (fun month => do
      let last ← fixedFromFrench year month (frenchLastDayOfMonth month year)
      return f > last) (· + 1) turns32 1
    let first ← fixedFromFrench year month 1
    return some (year, month, asU32 (f - first + 1))

-- == baha'i

/-- The first day of a year, March 21. -/
def bahaiNawruz (year : Int) : Result Int := do
  let gregorian ← i64 (1843 + year)
  return rd ⟨asI32 gregorian, 3, 21⟩

/-- How many days stand outside of the months. -/
def bahaiAyyam (year : Int) : Result Int := do
  let next ← i64 (year + 1)
  let nextNawruz ← bahaiNawruz next
  let nawruz ← bahaiNawruz year
  return nextNawruz - nawruz - 361

/-- Month 0 is the days outside of the months, month 19 the last one. -/
def bahaiFromFixed (f : Int) : Result (Int × Nat × Nat) := do
  let days ← i64 (f - rd ⟨1844, 3, 21⟩)
  let days ← i64 (days - 1)
  let year ← loop (fun year => do
    let next ← i64 (year + 1)
    let nawruz ← bahaiNawruz next
    return f ≥ nawruz) (· + 1) turns64 (days / 366 + 1)
  let year ← loop (fun year => do
    let year ← i64 year
    let nawruz ← bahaiNawruz year
    return f < nawruz) (· - 1) turns64 year
  let nawruz ← bahaiNawruz year
  let doy := f - nawruz
  let ayyam ← bahaiAyyam year
  if doy < 342 then
    return (year, asU32 (doy.tdiv 19 + 1), asU32 (doy.tmod 19 + 1))
  else if doy < 342 + ayyam then
    return (year, 0, asU32 (doy - 342 + 1))
  else return (year, 19, asU32 (doy - 342 - ayyam + 1))

def fixedFromBahai (year : Int) (month day : Nat) : Result Int := do
  let base ← bahaiNawruz year
  let ayyam ← bahaiAyyam year
  let off : Int := match month with
    | 0 => 342 + (day - 1)
    | 19 => 342 + ayyam + (day - 1)
    | _ => (month - 1) * 19 + (day - 1)
  return base + off

-- == hebrew

def hebrewLeap (year : Int) : Result Bool := do
  let n ← i64 (7 * year)
  let n ← i64 (n + 1)
  return n % 19 < 7

def hebrewLastMonthOfYear (year : Int) : Result Nat := do
  return if ← hebrewLeap year then 13 else 12

/-- Days from the epoch to the first day of a year. -/
def hebrewElapsedDays (year : Int) : Result Int := do
  let cy ← i64 (year - 1)
  let months ← i64 (235 * cy.tdiv 19 + 12 * cy.tmod 19 +
    (7 * cy.tmod 19 + 1).tdiv 19)
  let partsElapsed := 204 + 793 * months.tmod 1080
  let hours ← i64 (5 + 12 * months + 793 * months.tdiv 1080 +
    partsElapsed.tdiv 1080)
  let day ← i64 (1 + 29 * months + hours.tdiv 24)
  let parts := 1080 * hours.tmod 24 + partsElapsed.tmod 1080
  -- three reasons to put the new year off by a day
  let late ←
    if parts ≥ 19440 then .ok true
    else if day.tmod 7 = 2 ∧ parts ≥ 9924 then (hebrewLeap year).map not
    else if day.tmod 7 = 1 ∧ parts ≥ 16789 then hebrewLeap (year - 1)
    else .ok false
  let day ← if late then i64 (day + 1) else .ok day
  if day.tmod 7 ∈ [0, 3, 5] then i64 (day + 1) else return day

def hebrewDaysInYear (year : Int) : Result Int := do
  let next ← i64 (year + 1)
  let stop ← hebrewElapsedDays next
  let start ← hebrewElapsedDays year
  return stop - start

def hebrewLongHeshvan (year : Int) : Result Bool := do
  let days ← hebrewDaysInYear year
  return days.tmod 10 = 5

def hebrewShortKislev (year : Int) : Result Bool := do
  let days ← hebrewDaysInYear year
  return days.tmod 10 = 3

def hebrewLastDayOfMonth (month : Nat) (year : Int) : Result Nat := do
  let short ← match month with
    | 2 | 4 | 6 | 10 | 13 => .ok true
    | 8 => (hebrewLongHeshvan year).map not
    | 9 => hebrewShortKislev year
    | 12 => (hebrewLeap year).map not
    | _ => .ok false
  return if short then 29 else 30

/-- `for m in months { total += last_day_of_month(m, year) }` -/
def hebrewAddMonths (year : Int) (months : List Nat) (total : Int) :
    Result Int :=
  months.foldlM (fun total m => do
    let days ← hebrewLastDayOfMonth m year
    return total + days) total

def fixedFromHebrew (year : Int) (month day : Nat) : Result Int := do
  let total ←
    if month < 7 then do
      let last ← hebrewLastMonthOfYear year
      let total ← hebrewAddMonths year (List.range' 7 (last + 1 - 7)) day
      hebrewAddMonths year (List.range' 1 (month - 1)) total
    else hebrewAddMonths year (List.range' 7 (month - 7)) day
  let elapsed ← hebrewElapsedDays year
  let total ← i64 (total + elapsed)
  i64 (total - 1373429)

def hebrewFromFixed (f : Int) : Result (Int × Nat × Nat) := do
  let days ← i64 (f + 1373429)
  let year ← loop (fun year => do
    let next ← i64 (year + 1)
    let newYear ← fixedFromHebrew next 7 1
    return f ≥ newYear) (· + 1) turns64 (days / 366)
  let nisan ← fixedFromHebrew year 1 1
  let start := if f < nisan then 7 else 1
  let month ← loop (fun month => do
    let days ← hebrewLastDayOfMonth month year
    let last ← fixedFromHebrew year month days
    return f > last) (· + 1) turns32 start
  let first ← fixedFromHebrew year month 1
  return (year, month, asU32 (f - first + 1))

-- == persian

def persianEpoch : Int := fixedFromJulian 622 3 19

/-- There is no year 0. -/
def persianLeap (year : Int) : Result Bool := do
  let a ← i64 (if year ≥ 0 then year + 2346 else year + 2347)
  return a % 2820 % 768 * 683 % 2820 < 683

def persianLastDayOfMonth (month : Nat) (year : Int) : Result Nat :=
  if month < 7 then .ok 31
  else if month < 12 then .ok 30
  else do return if ← persianLeap year then 30 else 29

/-- The number of a date whose year is not negative. -/
def fixedFromPersianYear (year : Int) (month day : Nat) : Result Int := do
  let prior ← (List.range' 1 (month - 1)).foldlM (fun (prior : Int) m => do
    let days ← persianLastDayOfMonth m year
    return prior + days) 0
  let years ← i64 (365 * (year - 1))
  let cycle ← i64 (year + 2345)
  let total ← i64 (persianEpoch - 1 + years + 683 * (cycle / 2820) +
    186 * (cycle % 2820 / 768) + 683 * (cycle % 2820 % 768) / 2820)
  i64 (total - 568 + prior + day)

def fixedFromPersian (year : Int) (month day : Nat) : Result Int := do
  if year < 0 then
    let inCycle ← fixedFromPersianYear (1 + year % 2820) month day
    let cycles ← i64 (1029983 * (year / 2820))
    i64 (inCycle + cycles)
  else fixedFromPersianYear year month day

def persianYearFromFixed (f : Int) : Result Int := do
  let start ← fixedFromPersian (-2345) 1 1
  let d0 ← i64 (f - start)
  let n2820 := d0 / 1029983
  let d1 := d0 % 1029983
  let n768 := d1 / 280506
  let d2 := d1 % 280506
  let n1 := 2820 * (d2 + 366) / 1029983
  let year := 2820 * n2820 + 768 * n768 +
    (if d1 = 1029617 then n1 - 1 else n1) - 2345
  return if year < 1 then year - 1 else year

def persianFromFixed (f : Int) : Result (Int × Nat × Nat) := do
  let year ← persianYearFromFixed f
  let month ← loop (fun month => do
    let days ← persianLastDayOfMonth month year
    let last ← fixedFromPersian year month days
    return f > last) (· + 1) turns32 1
  let first ← fixedFromPersian year month 1
  return (year, month, asU32 (f - first + 1))

attribute [grind =] loop daysInMonth

end Zmax.Calendar
