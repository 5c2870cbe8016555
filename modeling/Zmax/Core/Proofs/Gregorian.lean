/-
The Gregorian calendar.

A year that starts in March has its leap day at its end, so the days in
front of a month do not depend on the year. A day number is cut into eras
of 400 such years, centuries, groups of four and single years; the
estimate of the source is exact in each (`yearOfEra_eq`), and so is the
month (`fromSerial_march`). The dates themselves are those of a reckoning
(`gregorian`), of which `toSerial` is the number.
-/
import Zmax.Core.Calendar
import Zmax.Lib.Reckoning
import Mathlib.Tactic.IntervalCases

namespace Zmax.Calendar

-- == integers

variable {n y c q r t : Int} {m : Nat}

theorem i64_of_mem (h : -9223372036854775808 ≤ n)
    (h' : n ≤ 9223372036854775807) : i64 n = .ok n := if_pos ⟨h, h'⟩

/-- The numbers an `i32` has. -/
def InI32 (n : Int) : Prop := -2147483648 ≤ n ∧ n ≤ 2147483647

instance (n : Int) : Decidable (InI32 n) := inferInstanceAs (Decidable (_ ∧ _))

theorem asI32_of_mem (h : InI32 n) : asI32 n = n := by
  obtain ⟨hlo, hhi⟩ := h
  unfold asI32
  omega

theorem asI32_mem (n : Int) : InI32 (asI32 n) := by
  unfold InI32 asI32
  omega

theorem asU32_of_mem {n : Int} (h : 0 ≤ n) (h' : n < 4294967296) :
    (asU32 n : Int) = n := by
  unfold asU32
  omega

theorem asU32_cast {n : Nat} (h : n < 4294967296) : asU32 n = n := by
  unfold asU32
  omega

theorem tdiv_of_nonneg {a b : Int} (h : 0 ≤ a) : a.tdiv b = a / b :=
  Int.tdiv_eq_ediv_of_nonneg h

/-- An era is a division that rounds down. -/
theorem era_years (n : Int) :
    (if n ≥ 0 then n else n - 399).tdiv 400 = n / 400 := by
  split
  · next h => exact tdiv_of_nonneg h
  · rw [Int.tdiv_eq_ediv]
    split
    · omega
    · show (n - 399) / 400 + 1 = n / 400
      omega

theorem era_days (n : Int) :
    (if n ≥ 0 then n else n - 146096).tdiv 146097 = n / 146097 := by
  split
  · next h => exact tdiv_of_nonneg h
  · rw [Int.tdiv_eq_ediv]
    split
    · omega
    · show (n - 146096) / 146097 + 1 = n / 146097
      omega

-- == years

theorem isLeap_eq (year : Int) :
    isLeap year = decide (year % 4 = 0 ∧ year % 100 ≠ 0 ∨ year % 400 = 0) := by
  have hzero : ∀ k : Int, year.tmod k = 0 ↔ year % k = 0 := fun k => by
    rw [← Int.dvd_iff_tmod_eq_zero, ← Int.dvd_iff_emod_eq_zero]
  unfold isLeap
  simp only [ne_eq, hzero]

/-- The first day of a year. -/
def newYear (y : Int) : Int :=
  365 * (y - 1) + (y - 1) / 4 - (y - 1) / 100 + (y - 1) / 400 - 719162

/-- The months of a year with their lengths. -/
def months (y : Int) : List (Nat × Nat) :=
  Reckoning.numbered 12 (daysInMonth y)

theorem daysInMonth_pos (y : Int) (m : Nat) : 0 < daysInMonth y m := by
  unfold daysInMonth
  split <;> (try split) <;> exact Nat.succ_pos _

theorem daysInMonth_le (y : Int) (m : Nat) : daysInMonth y m ≤ 31 := by
  unfold daysInMonth
  split <;> (try split) <;> decide

theorem daysInMonth_two (y : Int) : (daysInMonth y 2 : Int) =
    if y % 4 = 0 ∧ y % 100 ≠ 0 ∨ y % 400 = 0 then 29 else 28 := by
  show ((if isLeap y then 29 else 28 : Nat) : Int) = _
  rw [isLeap_eq, Nat.cast_ite]
  simp only [decide_eq_true_eq]
  rfl

/-- The Gregorian calendar, from some year on. -/
def gregorian (first : Int) : Reckoning Nat where
  first := first
  newYear := newYear
  months := months
  months_ne := fun _ => Reckoning.numbered_ne (Nat.succ_pos 11)
  months_pos := fun {y} _ =>
    Reckoning.numbered_pos fun m _ _ => daysInMonth_pos y m
  months_nodup := fun _ => Reckoning.numbered_nodup
  months_sum := fun {y} _ => by
    have hfeb := daysInMonth_two y
    have hsum : ((months y).map Prod.snd).sum =
        31 + (daysInMonth y 2 + 306) := by
      simp [months, Reckoning.numbered, List.range', daysInMonth]
    rw [hsum]
    unfold newYear
    split at hfeb <;> omega

/-- The days of a year in front of a month. -/
theorem before_months (h : 1 ≤ m) (h' : m ≤ 12) :
    Reckoning.before (months y) m =
      if m ≤ 2 then 31 * (m - 1)
      else (153 * (m - 3) + 2) / 5 + 31 + daysInMonth y 2 := by
  have hstep : ∀ m, 1 ≤ m → m ≤ 12 →
      (if m + 1 ≤ 2 then 31 * (m + 1 - 1)
        else (153 * (m + 1 - 3) + 2) / 5 + 31 + daysInMonth y 2) =
      (if m ≤ 2 then 31 * (m - 1)
        else (153 * (m - 3) + 2) / 5 + 31 + daysInMonth y 2) +
        daysInMonth y m := by
    intro m h h'
    interval_cases m <;> simp [daysInMonth] <;> omega
  exact @Reckoning.before_numbered 12 (daysInMonth y)
    (fun m => if m ≤ 2 then 31 * (m - 1)
      else (153 * (m - 3) + 2) / 5 + 31 + daysInMonth y 2) rfl hstep m h h'

/-- The days in front of a year that starts in March, and more. -/
theorem march_eq (y x : Int) :
    y / 400 * 146097 + ((y - y / 400 * 400) * 365 +
        (y - y / 400 * 400) / 4 - (y - y / 400 * 400) / 100 + x) =
      365 * y + y / 4 - y / 100 + y / 400 + x := by
  have hfour : (y - y / 400 * 400) / 4 = y / 4 - y / 400 * 100 := by omega
  have hcentury : (y - y / 400 * 400) / 100 = y / 100 - y / 400 * 4 := by
    omega
  rw [hfour, hcentury]
  generalize y / 400 = q₃
  generalize y / 100 = q₂
  generalize y / 4 = q₁
  omega

/-- A serial number counts the days up to the year, the month and the
day. -/
theorem toSerial_eq (h : 1 ≤ m) (h' : m ≤ 12) (d : Nat) :
    toSerial ⟨y, m, d⟩ =
      newYear y + Reckoning.before (months y) m + (d - 1) := by
  have hfeb := daysInMonth_two y
  have hyoe : ∀ n k : Int, (n - n / 400 * 400).tdiv k =
      (n - n / 400 * 400) / k := fun n k => tdiv_of_nonneg (by omega)
  rw [before_months h h']
  unfold toSerial newYear
  simp only [era_years, hyoe, add_sub_assoc _ (d : Int) 1, march_eq]
  by_cases hm : m ≤ 2
  · rw [if_pos hm, if_pos hm, if_neg (by omega), tdiv_of_nonneg (by omega)]
    clear hfeb
    generalize (y - 1) / 400 = q₃
    generalize (y - 1) / 100 = q₂
    generalize (y - 1) / 4 = q₁
    omega
  · rw [if_neg hm, if_neg hm, if_pos (by omega), tdiv_of_nonneg (by omega),
      Int.sub_zero]
    split at hfeb <;> omega

-- == inverse

/-- The day of a year that starts in March. -/
def marchDay (mp : Int) (d : Nat) : Int := (153 * mp + 2) / 5 + d - 1

/-- Where a day of the month lies in its year. -/
theorem marchDay_spec {d : Nat} {mp : Int} (h : 1 ≤ m) (h' : m ≤ 12)
    (hd : 1 ≤ d) (hd' : d ≤ daysInMonth y m)
    (hmp : mp = m + if m > 2 then -3 else 9) :
    0 ≤ marchDay mp d ∧ marchDay mp d ≤ 365 ∧
      (5 * marchDay mp d + 2) / 153 = mp ∧
      (marchDay mp d = 365 →
        m = 2 ∧ (y % 4 = 0 ∧ y % 100 ≠ 0 ∨ y % 400 = 0)) := by
  have hfeb := daysInMonth_two y
  unfold marchDay
  subst hmp
  by_cases hm : m = 2
  · subst hm
    split at hfeb
    · simp; omega
    · simp; omega
  · have hlen : (153 * (m + if m > 2 then -3 else 9 : Int) + 2) / 5 +
          daysInMonth y m ≤
        (153 * (m + (if m > 2 then -3 else 9) + 1 : Int) + 2) / 5 := by
      interval_cases m <;> simp [daysInMonth] at hm ⊢
    split at hlen
    · next hlate =>
      rw [if_pos hlate]
      omega
    · next hearly =>
      rw [if_neg hearly]
      omega

/-- The estimate of the year of an era is exact. -/
theorem yearOfEra_eq {doy doe : Int} (hc : 0 ≤ c ∧ c < 4)
    (hq : 0 ≤ q ∧ q < 25) (hr : 0 ≤ r ∧ r < 4) (hdoy : 0 ≤ doy ∧ doy ≤ 365)
    (hleap : doy = 365 → r = 3 ∧ (q < 24 ∨ c = 3))
    (hdoe : doe = 36524 * c + 1461 * q + 365 * r + doy) :
    (doe - doe / 1460 + doe / 36524 - doe / 146096) / 365 =
      100 * c + 4 * q + r := by
  have hgroups : doe / 1460 = 25 * c + q +
      if 24 * c + q + 365 * r + doy < 1460 then 0 else 1 := by
    split <;> omega
  have hlast : doe / 146096 = if doe = 146096 then 1 else 0 := by
    split <;> omega
  have hcenturies : doe / 36524 = c + if doe = 146096 then 1 else 0 := by
    split <;> omega
  rw [hgroups, hcenturies, hlast]
  split <;> split <;> omega

theorem estimate_nonneg {doe : Int} (h : 0 ≤ doe) :
    0 ≤ doe - doe / 1460 + doe / 36524 - doe / 146096 := by
  omega

theorem daysBefore_eq (hc : 0 ≤ c) (hq : 0 ≤ q ∧ q < 25) (hr : 0 ≤ r ∧ r < 4) :
    365 * (100 * c + 4 * q + r) + (100 * c + 4 * q + r).tdiv 4 -
        (100 * c + 4 * q + r).tdiv 100 =
      36524 * c + 1461 * q + 365 * r := by
  rw [tdiv_of_nonneg (by omega), tdiv_of_nonneg (by omega)]
  omega

/-- A day number, cut into eras, centuries, groups of four years, years and
days. -/
theorem fromSerial_march {era doy mp z : Int} {d : Nat} (hc : 0 ≤ c ∧ c < 4)
    (hq : 0 ≤ q ∧ q < 25) (hr : 0 ≤ r ∧ r < 4) (hdoy : 0 ≤ doy ∧ doy ≤ 365)
    (hleap : doy = 365 → r = 3 ∧ (q < 24 ∨ c = 3))
    (hmp : (5 * doy + 2) / 153 = mp) (hd : marchDay mp d = doy)
    (hz : z + 719468 = era * 146097 + (36524 * c + 1461 * q + 365 * r + doy))
    (hlo : -9223372036854775808 ≤ z + 719468)
    (hhi : z + 719468 ≤ 9223372036854775807) :
    fromSerial z = .ok
      ⟨asI32 (400 * era + (100 * c + 4 * q + r) + if mp < 10 then 0 else 1),
        asU32 (if mp < 10 then mp + 3 else mp - 9), asU32 d⟩ := by
  have hera : (z + 719468) / 146097 = era := by
    omega
  have hdoe : z + 719468 - era * 146097 =
      36524 * c + 1461 * q + 365 * r + doy := by
    omega
  unfold fromSerial
  rw [i64_of_mem hlo hhi, ok_bind]
  simp only [era_days, hera, hdoe]
  have hnonneg : 0 ≤ 36524 * c + 1461 * q + 365 * r + doy := by omega
  rw [tdiv_of_nonneg hnonneg, tdiv_of_nonneg hnonneg, tdiv_of_nonneg hnonneg,
    tdiv_of_nonneg (estimate_nonneg hnonneg),
    yearOfEra_eq hc hq hr hdoy hleap rfl, daysBefore_eq hc.1 hq hr,
    add_sub_cancel_left]
  have hmp' : (5 * doy + 2).tdiv 153 = mp := by
    rw [tdiv_of_nonneg (by omega), hmp]
  have hday : doy - (153 * mp + 2).tdiv 5 + 1 = d := by
    rw [tdiv_of_nonneg (by omega)]
    unfold marchDay at hd
    omega
  rw [hmp', hday]
  have hyear : 100 * c + 4 * q + r + era * 400 +
      (if (if mp < 10 then mp + 3 else mp - 9) ≤ 2 then 1 else 0) =
      400 * era + (100 * c + 4 * q + r) + if mp < 10 then 0 else 1 := by
    split <;> split <;> omega
  rw [hyear]
  rfl

/-- Converting a date to its serial number and back gives the date, with the
year cut down to an `i32`. -/
theorem fromSerial_toSerial {d : Nat} (h : 1 ≤ m) (h' : m ≤ 12) (hd : 1 ≤ d)
    (hd' : d ≤ daysInMonth y m)
    (hlo : -9223372036854775808 ≤ toSerial ⟨y, m, d⟩ + 719468)
    (hhi : toSerial ⟨y, m, d⟩ + 719468 ≤ 9223372036854775807) :
    fromSerial (toSerial ⟨y, m, d⟩) = .ok ⟨asI32 y, m, d⟩ := by
  obtain ⟨mp, hmp⟩ : ∃ mp : Int, mp = m + if m > 2 then -3 else 9 := ⟨_, rfl⟩
  obtain ⟨hlow, hhigh, hmonth, hlast⟩ := marchDay_spec h h' hd hd' hmp
  obtain ⟨n, hn⟩ : ∃ n : Int, n = y - if m ≤ 2 then 1 else 0 := ⟨_, rfl⟩
  have hnum : toSerial ⟨y, m, d⟩ + 719468 = n / 400 * 146097 +
      (36524 * (n % 400 / 100) + 1461 * (n % 400 % 100 / 4) +
        365 * (n % 400 % 100 % 4) + marchDay mp d) := by
    have hyoe : ∀ k : Int, (n - n / 400 * 400).tdiv k =
        (n - n / 400 * 400) / k := fun k => tdiv_of_nonneg (by omega)
    unfold toSerial marchDay
    simp only [era_years, ← hmp, ← hn, hyoe]
    rw [tdiv_of_nonneg (by split at hmp <;> omega)]
    omega
  rw [fromSerial_march (by omega) (by omega) (by omega) ⟨hlow, hhigh⟩ ?_
    hmonth rfl hnum hlo hhi]
  · have hyear : 400 * (n / 400) +
        (100 * (n % 400 / 100) + 4 * (n % 400 % 100 / 4) +
          n % 400 % 100 % 4) + (if mp < 10 then 0 else 1) = y := by
      split at hmp <;> split at hn <;> split <;> omega
    have hm : (if mp < 10 then mp + 3 else mp - 9) = m := by
      split at hmp <;> split <;> omega
    have hd : d ≤ 31 := Nat.le_trans hd' (daysInMonth_le y m)
    rw [hyear, hm, asU32_cast (by omega), asU32_cast (by omega)]
  · intro heq
    obtain ⟨rfl, hleap⟩ := hlast heq
    rw [if_pos (Nat.le_refl 2)] at hn
    omega

-- == dates

/-- A date of the calendar with a year that an `i32` has. -/
structure Date.Valid (d : Date) : Prop where
  year : InI32 d.year
  month : 1 ≤ d.month ∧ d.month ≤ 12
  day : 1 ≤ d.day ∧ d.day ≤ daysInMonth d.year d.month

/-- The date as one of a reckoning. -/
def Date.fields (d : Date) : Reckoning.Date Nat := (d.year, d.month, d.day)

/-- The first and the last day whose year an `i32` has. -/
def firstSerial : Int := toSerial ⟨-2147483648, 1, 1⟩

def lastSerial : Int := toSerial ⟨2147483647, 12, 31⟩

theorem newYear_eq (y : Int) : toSerial ⟨y, 1, 1⟩ = newYear y := by
  rw [toSerial_eq (Nat.le_refl 1) (by omega)]
  show newYear y + 0 + 0 = newYear y
  omega

theorem firstSerial_eq : firstSerial = newYear (-2147483648) := newYear_eq _

theorem lastSerial_eq : lastSerial = newYear 2147483648 - 1 := by decide

variable {d : Date} {first z : Int}

theorem Date.Valid.reckon (h : d.Valid) (hfirst : first ≤ d.year) :
    (gregorian first).Valid d.fields :=
  ⟨hfirst, ⟨daysInMonth d.year d.month,
    Reckoning.mem_numbered.mpr ⟨h.month.1, h.month.2, rfl⟩, h.day.2⟩, h.day.1⟩

theorem number_gregorian (h : 1 ≤ d.month) (h' : d.month ≤ 12) :
    (gregorian first).number d.fields = toSerial d :=
  (toSerial_eq h h' d.day).symm

/-- The serial number of a date lies in its year. -/
theorem Date.Valid.serial_mem (h : d.Valid) :
    newYear d.year ≤ toSerial d ∧ toSerial d < newYear (d.year + 1) := by
  have hmem := (h.reckon (Int.le_refl d.year)).number_mem
  rwa [number_gregorian h.month.1 h.month.2] at hmem

theorem newYear_le {y' : Int} (h : y ≤ y') : newYear y ≤ newYear y' :=
  Reckoning.newYear_mono (R := gregorian y) (Int.le_refl y) h

theorem Date.Valid.serial_range (h : d.Valid) :
    firstSerial ≤ toSerial d ∧ toSerial d ≤ lastSerial := by
  obtain ⟨hlo, hhi⟩ := h.serial_mem
  obtain ⟨hmin, hmax⟩ := h.year
  have hfirst := newYear_le hmin
  have hlast := newYear_le (show d.year + 1 ≤ 2147483648 by omega)
  rw [firstSerial_eq, lastSerial_eq]
  omega

theorem firstSerial_val : firstSerial = -784353015833 := by decide

theorem lastSerial_val : lastSerial = 784351576776 := by decide

/-- From a date to its serial number and back. -/
theorem Date.Valid.fromSerial (h : d.Valid) :
    fromSerial (toSerial d) = .ok d := by
  obtain ⟨y, m, day⟩ := d
  obtain ⟨hlo, hhi⟩ := h.serial_range
  rw [firstSerial_val] at hlo
  rw [lastSerial_val] at hhi
  have hback : fromSerial (toSerial ⟨y, m, day⟩) = .ok ⟨asI32 y, m, day⟩ :=
    fromSerial_toSerial h.month.1 h.month.2 h.day.1 h.day.2 (by omega)
      (by omega)
  rw [hback, asI32_of_mem h.year]

/-- Every day number in the range has a date. -/
theorem exists_serial (h : firstSerial ≤ z) (h' : z ≤ lastSerial) :
    ∃ d : Date, d.Valid ∧ toSerial d = z := by
  rw [firstSerial_eq] at h
  rw [lastSerial_eq] at h'
  obtain ⟨⟨y, m, d⟩, hvalid, hnumber⟩ :=
    Reckoning.exists_date (R := gregorian (-2147483648)) h
  obtain ⟨days, hmem, hle⟩ := hvalid.month
  obtain ⟨hm, hm', rfl⟩ := Reckoning.mem_numbered.mp hmem
  have hyear : -2147483648 ≤ y := hvalid.year
  have hserial : toSerial ⟨y, m, d⟩ = z :=
    (number_gregorian (d := ⟨y, m, d⟩) hm hm').symm.trans hnumber
  have hmax : y ≤ 2147483647 := by
    by_contra hlt
    have hmem := hvalid.number_mem
    rw [hnumber] at hmem
    have hstart : newYear y ≤ z := hmem.1
    have hmono := newYear_le (show 2147483648 ≤ y by omega)
    omega
  exact ⟨⟨y, m, d⟩, ⟨⟨hyear, hmax⟩, ⟨hm, hm'⟩, hvalid.day, hle⟩, hserial⟩

/-- Consecutive days have consecutive dates. -/
theorem next_serial {d' : Date} (h : d.Valid) (h' : d'.Valid)
    (heq : toSerial d' = toSerial d + 1) :
    (gregorian (-2147483648)).Next d.fields d'.fields := by
  apply Reckoning.next_of_number (h.reckon h.year.1) (h'.reckon h'.year.1)
  rw [number_gregorian h.month.1 h.month.2,
    number_gregorian h'.month.1 h'.month.2, heq]

-- == weeks

theorem weekday_eq (d : Date) : (weekday d : Int) = (toSerial d + 4) % 7 := by
  have htmod : (toSerial d).tmod 7 % 7 = toSerial d % 7 := by
    rw [Int.tmod_eq_emod]
    split
    · omega
    · show (toSerial d % 7 - 7) % 7 = toSerial d % 7
      omega
  unfold weekday
  rw [asU32_of_mem (by omega) (by omega)]
  omega

theorem addDays_eq {n : Int} (hn : firstSerial ≤ z)
    (hn' : z ≤ lastSerial) (heq : toSerial d + n = z) :
    ∃ d' : Date, d'.Valid ∧ addDays d n = .ok d' ∧ toSerial d' = z := by
  obtain ⟨d', hvalid, hserial⟩ := exists_serial hn hn'
  refine ⟨d', hvalid, ?_, hserial⟩
  rw [firstSerial_val] at hn
  rw [lastSerial_val] at hn'
  rw [addDays, heq, i64_of_mem (by omega) (by omega), ok_bind, ← hserial,
    hvalid.fromSerial]

/-- The year has a week 53: its first or its last day is a Thursday. -/
def HasWeek53 (y : Int) : Prop :=
  weekday ⟨y, 1, 1⟩ = 4 ∨ weekday ⟨y, 12, 31⟩ = 4

/-- The week of a date in terms of the Thursday of its week. -/
theorem isoWeek_spec {k t : Int}
    (hk : k = (toSerial d + 3) % 7) (ht : t = toSerial d + 3 - k)
    (hlo : firstSerial ≤ t) (hhi : t ≤ lastSerial) :
    ∃ y : Int, InI32 y ∧ newYear y ≤ t ∧ t < newYear (y + 1) ∧
      isoWeek d = .ok (y, asU32 ((t - newYear y) / 7 + 1), asU32 (k + 1)) := by
  have hday := weekday_eq d
  have hdow : (weekday d + 6) % 7 + 1 = asU32 (k + 1) := by
    unfold asU32
    omega
  obtain ⟨thursday, hvalid, hadd, hserial⟩ :=
    @addDays_eq d t (4 - asU32 (k + 1)) hlo hhi (by
      rw [asU32_of_mem (by omega) (by omega)]
      omega)
  obtain ⟨hstart, hstop⟩ := hvalid.serial_mem
  rw [hserial] at hstart hstop
  refine ⟨thursday.year, hvalid.year, hstart, hstop, ?_⟩
  rw [isoWeek]
  simp only [hdow, hadd, ok_bind, newYear_eq, hserial]
  rw [tdiv_of_nonneg (by omega)]
  rfl

/-- The week and its day lead back to the day. -/
theorem dateFromIso_spec (h : d.Valid) {k : Int}
    (hk : k = (toSerial d + 3) % 7) (ht : t = toSerial d + 3 - k)
    (hstart : newYear y ≤ t) (hstop : t < newYear (y + 1)) :
    dateFromIso y (asU32 ((t - newYear y) / 7 + 1)) (asU32 (k + 1)) =
      .ok d := by
  have hlength : newYear (y + 1) ≤ newYear y + 366 := by
    unfold newYear
    omega
  have hjan4 : toSerial ⟨y, 1, 4⟩ = newYear y + 3 := by
    rw [toSerial_eq (Nat.le_refl 1) (by omega)]
    show newYear y + 0 + 3 = newYear y + 3
    omega
  have hday := weekday_eq ⟨y, 1, 4⟩
  rw [hjan4] at hday
  have hserial : newYear y + 3 -
        ((((weekday ⟨y, 1, 4⟩ + 6) % 7 + 1 : Nat) : Int) - 1) +
        ((asU32 ((t - newYear y) / 7 + 1) : Int) - 1) * 7 +
        ((asU32 (k + 1) : Int) - 1) = toSerial d := by
    rw [asU32_of_mem (by omega) (by omega), asU32_of_mem (by omega) (by omega)]
    omega
  rw [dateFromIso]
  simp only [hjan4, hserial]
  exact h.fromSerial

theorem december_eq (y : Int) :
    toSerial ⟨y, 12, 31⟩ = newYear (y + 1) - 1 := by
  have hfeb := daysInMonth_two y
  rw [toSerial_eq (by omega) (Nat.le_refl 12), before_months (by omega)
    (Nat.le_refl 12), if_neg (by omega)]
  unfold newYear
  split at hfeb <;> omega

theorem hasWeek53_iff (y : Int) : HasWeek53 y ↔
    newYear y % 7 = 0 ∨ (newYear (y + 1) - 1) % 7 = 0 := by
  have hfirst := weekday_eq ⟨y, 1, 1⟩
  have hlast := weekday_eq ⟨y, 12, 31⟩
  rw [newYear_eq] at hfirst
  rw [december_eq] at hlast
  unfold HasWeek53
  omega

theorem newYear_length (y : Int) :
    newYear y + 365 ≤ newYear (y + 1) ∧ newYear (y + 1) ≤ newYear y + 366 := by
  unfold newYear
  omega

/-- The weeks of a year are numbered from 1 to 52, and to 53 in the years
that have one. -/
theorem week_mem (ht : t % 7 = 0) (hstart : newYear y ≤ t)
    (hstop : t < newYear (y + 1)) :
    1 ≤ asU32 ((t - newYear y) / 7 + 1) ∧
      (asU32 ((t - newYear y) / 7 + 1) ≤ 52 ∨
        asU32 ((t - newYear y) / 7 + 1) = 53 ∧ HasWeek53 y) := by
  have hlength := newYear_length y
  have hcast := @asU32_of_mem ((t - newYear y) / 7 + 1) (by omega) (by omega)
  refine ⟨by omega, ?_⟩
  by_cases hlast : t - newYear y < 364
  · exact .inl (by omega)
  · refine .inr ⟨by omega, (hasWeek53_iff y).mpr ?_⟩
    omega

/-- The Thursday of the week of a date has a representable year too, but for
the last two dates. -/
theorem thursday_range (h : d.Valid) (hne : d ≠ ⟨2147483647, 12, 30⟩)
    (hne' : d ≠ ⟨2147483647, 12, 31⟩) {k : Int}
    (hk : k = (toSerial d + 3) % 7) (ht : t = toSerial d + 3 - k) :
    firstSerial ≤ t ∧ t ≤ lastSerial := by
  obtain ⟨hlo, hhi⟩ := h.serial_range
  have hinj : ∀ e : Date, e.Valid → toSerial d = toSerial e → d = e := by
    intro e he heq
    have hback := h.fromSerial
    rw [heq, he.fromSerial] at hback
    exact (Except.ok.inj hback).symm
  have hlast : toSerial d ≠ lastSerial := fun heq =>
    hne' (hinj ⟨2147483647, 12, 31⟩ ⟨by decide, by decide, by decide⟩ heq)
  have hlast' : toSerial d ≠ lastSerial - 1 := fun heq =>
    hne (hinj ⟨2147483647, 12, 30⟩ ⟨by decide, by decide, by decide⟩
      (by rw [heq]; decide))
  rw [firstSerial_val] at *
  rw [lastSerial_val] at *
  omega

/-- A year that has a week 53 has a date in it. -/
theorem exists_week53 (hy : InI32 y) (h : HasWeek53 y) :
    ∃ d k, Date.Valid d ∧ isoWeek d = .ok (y, 53, k) := by
  have hlength := newYear_length y
  obtain ⟨t, ht, hstart, hstop⟩ :
      ∃ t, t % 7 = 0 ∧ newYear y + 364 ≤ t ∧ t < newYear (y + 1) := by
    rcases (hasWeek53_iff y).mp h with hfirst | hlast
    · exact ⟨newYear y + 364, by omega, Int.le_refl _, by omega⟩
    · exact ⟨newYear (y + 1) - 1, hlast, by omega, by omega⟩
  have hmin := newYear_le hy.1
  have hmax := newYear_le (show y + 1 ≤ 2147483648 by have := hy.2; omega)
  have hlo : firstSerial ≤ t := by
    rw [firstSerial_eq]
    omega
  have hhi : t ≤ lastSerial := by
    rw [lastSerial_eq]
    omega
  obtain ⟨d, hvalid, hserial⟩ := exists_serial hlo hhi
  obtain ⟨y', -, hstart', hstop', hweek⟩ :=
    @isoWeek_spec d 3 t (by omega) (by omega) hlo hhi
  obtain rfl : y' = y := Reckoning.year_unique (R := gregorian (min y' y))
    (Int.min_le_left _ _) (Int.min_le_right _ _) ⟨hstart', hstop'⟩
    ⟨show newYear y ≤ t by omega, hstop⟩
  have hnumber : asU32 ((t - newYear y') / 7 + 1) = 53 := by
    unfold asU32
    omega
  exact ⟨d, _, hvalid, hnumber ▸ hweek⟩

/-- A month further on, as long as an `i32` has the year. -/
theorem addMonths_spec (h : d.Valid)
    (hyear : InI32 ((d.year * 12 + (d.month - 1) + n) / 12)) :
    ∃ d', addMonths d n = .ok d' ∧ d'.Valid ∧
      d'.year * 12 + (d'.month - 1) = d.year * 12 + (d.month - 1) + n ∧
      d'.day = min d.day (daysInMonth d'.year d'.month) := by
  obtain ⟨hmin, hmax⟩ := hyear
  generalize htotal : d.year * 12 + (d.month - 1) + n = total at hmin hmax ⊢
  have hmonth := @asU32_of_mem (total % 12 + 1) (by omega) (by omega)
  have hmonth_mem : 1 ≤ asU32 (total % 12 + 1) ∧
      asU32 (total % 12 + 1) ≤ 12 := by omega
  refine ⟨_, by rw [addMonths, htotal, i64_of_mem (by omega) (by omega)]; rfl,
    ⟨asI32_mem _, hmonth_mem, ⟨?_, Nat.min_le_right _ _⟩⟩, ?_, rfl⟩
  · exact Nat.le_min.mpr ⟨h.day.1, daysInMonth_pos _ _⟩
  · simp only [asI32_of_mem ⟨hmin, hmax⟩, hmonth]
    omega

/-- Serial numbers and dates are each other's inverse, consecutive days have
consecutive dates, the ISO week of a date leads back to it, and a number of
months on the day is the same, or the last of the month. -/
theorem gregorian_law :
    (∀ d : Date, d.Valid → fromSerial (toSerial d) = .ok d) ∧
      (∀ z, firstSerial ≤ z → z ≤ lastSerial →
        ∃ d, d.Valid ∧ fromSerial z = .ok d ∧ toSerial d = z) ∧
      (∀ z, firstSerial ≤ z → z < lastSerial →
        ∃ d d', fromSerial z = .ok d ∧ fromSerial (z + 1) = .ok d' ∧
          (gregorian (-2147483648)).Next d.fields d'.fields) ∧
      (∀ d : Date, d.Valid → d ≠ ⟨2147483647, 12, 30⟩ →
        d ≠ ⟨2147483647, 12, 31⟩ →
        ∃ y w k, isoWeek d = .ok (y, w, k) ∧ dateFromIso y w k = .ok d ∧
          1 ≤ w ∧ (w ≤ 52 ∨ w = 53 ∧ HasWeek53 y) ∧ 1 ≤ k ∧ k ≤ 7) ∧
      (∀ y, InI32 y → HasWeek53 y →
        ∃ d k, Date.Valid d ∧ isoWeek d = .ok (y, 53, k)) ∧
      ∀ (d : Date) n, d.Valid →
        InI32 ((d.year * 12 + (d.month - 1) + n) / 12) →
        ∃ d', addMonths d n = .ok d' ∧ d'.Valid ∧
          d'.year * 12 + (d'.month - 1) = d.year * 12 + (d.month - 1) + n ∧
          d'.day = min d.day (daysInMonth d'.year d'.month) := by
  refine ⟨fun d h => h.fromSerial, ?_, ?_, ?_, fun y => exists_week53,
    fun d n => addMonths_spec⟩
  · intro z h h'
    obtain ⟨d, hvalid, rfl⟩ := exists_serial h h'
    exact ⟨d, hvalid, hvalid.fromSerial, rfl⟩
  · intro z h h'
    obtain ⟨d, hvalid, rfl⟩ := exists_serial h (Int.le_of_lt h')
    obtain ⟨d', hvalid', hserial⟩ := exists_serial
      (show firstSerial ≤ toSerial d + 1 by omega) h'
    rw [← hserial]
    exact ⟨d, d', hvalid.fromSerial, hvalid'.fromSerial,
      next_serial hvalid hvalid' hserial⟩
  · intro d h hne hne'
    obtain ⟨hlo, hhi⟩ := thursday_range h hne hne' rfl rfl
    obtain ⟨y, -, hstart, hstop, hweek⟩ := isoWeek_spec rfl rfl hlo hhi
    obtain ⟨hpos, hle⟩ := week_mem (by omega) hstart hstop
    have hback := dateFromIso_spec h rfl rfl hstart hstop
    have hk := @asU32_of_mem ((toSerial d + 3) % 7 + 1) (by omega) (by omega)
    exact ⟨y, _, _, hweek, hback, hpos, hle, by omega, by omega⟩

theorem gregorian_law_leap_day :
    fromSerial (toSerial ⟨2024, 2, 29⟩) = .ok ⟨2024, 2, 29⟩ :=
  gregorian_law.1 ⟨2024, 2, 29⟩ ⟨by decide, by decide, by decide⟩

/-- The ISO year of the last two dates is one that an `i32` does not have,
and so is the month after the last one. -/
theorem not_gregorian_law_last :
    isoWeek ⟨2147483647, 12, 31⟩ = .ok (-2147483648, 1, 2) ∧
      dateFromIso (-2147483648) 1 2 = .ok ⟨-2147483648, 1, 1⟩ ∧
      addMonths ⟨2147483647, 12, 31⟩ 1 = .ok ⟨-2147483648, 1, 31⟩ := by
  decide

end Zmax.Calendar
