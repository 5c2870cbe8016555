/-
The Hebrew calendar.

A year begins on the day of its new moon (`molad`), unless one of four rules
puts it off. The length of a year comes from where in the week the new moons
of the year and of the next one lie, a finite case analysis (`putOff_common`,
`putOff_leap`); the lengths of two months make up for it, so the months in
their order from the seventh fill the year, which makes a reckoning of the
calendar (`hebrew`).
-/
import Zmax.Core.Proofs.Calendars

namespace Zmax.Calendar

open Reckoning

-- == new years

/-- Whether a year has a month 13. -/
def hebrewLong (y : Int) : Bool := (7 * y + 1) % 19 < 7

/-- How many months lie before a year. -/
def hebrewMoons (y : Int) : Int := (235 * y - 234) / 19

/-- The new moon of a year, in parts of an hour from the epoch, of which a
day has 25920, but for 29 days of each month. -/
def molad (y : Int) : Int := 5604 + 13753 * hebrewMoons y

/-- The day of the new moon of a year. -/
def moladDay (y : Int) : Int := 1 + 29 * hebrewMoons y + molad y / 25920

/-- When a year begins whose new moon is on a day at a time. -/
def putOff (day parts : Int) (long late : Bool) : Int :=
  let day := day + if parts ≥ 19440 ∨ day % 7 = 2 ∧ parts ≥ 9924 ∧ ¬long ∨
    day % 7 = 1 ∧ parts ≥ 16789 ∧ late then 1 else 0
  day + if day % 7 = 0 ∨ day % 7 = 3 ∨ day % 7 = 5 then 1 else 0

/-- Days from the epoch to the first day of a year. -/
def tishri (y : Int) : Int :=
  putOff (moladDay y) (molad y % 25920) (hebrewLong y) (hebrewLong (y - 1))

/-- A year by its place in its cycle of 19. -/
theorem exists_cycle (y : Int) :
    ∃ q r : Int, y = 19 * q + r ∧ 0 ≤ r ∧ r < 19 :=
  ⟨y / 19, y % 19, by omega, by omega, by omega⟩

theorem hebrewMoons_succ (y : Int) : hebrewMoons (y + 1) =
    hebrewMoons y + 12 + if hebrewLong y then 1 else 0 := by
  obtain ⟨q, r, rfl, hlo, hhi⟩ := exists_cycle y
  unfold hebrewMoons hebrewLong
  simp only [decide_eq_true_eq]
  interval_cases r <;> split <;> omega

variable {y day : Int} {m d : Nat}

/-- No two years in a row are long. -/
theorem hebrewLong_succ (h : hebrewLong y) : hebrewLong (y + 1) = false := by
  obtain ⟨q, r, rfl, hlo, hhi⟩ := exists_cycle y
  unfold hebrewLong at *
  simp only [decide_eq_true_eq, decide_eq_false_iff_not] at *
  interval_cases r <;> omega

/-- From when on a new moon is too late for a new year the same day. -/
def tooLate (day : Int) (long late : Bool) : Int :=
  if day % 7 = 2 ∧ long = false then 9924
  else if day % 7 = 1 ∧ late = true then 16789 else 19440

/-- A new year is one or two days behind its new moon, or none. -/
theorem putOff_cases (day parts : Int) (long late : Bool) :
    putOff day parts long late = day ∧ parts < tooLate day long late ∧
        (day % 7 = 1 ∨ day % 7 = 2 ∨ day % 7 = 4 ∨ day % 7 = 6) ∨
      putOff day parts long late = day + 1 ∧
        (day % 7 = 0 ∨ day % 7 = 3 ∨ day % 7 = 5 ∨
          day % 7 = 1 ∧ tooLate day long late ≤ parts) ∨
      putOff day parts long late = day + 2 ∧ tooLate day long late ≤ parts ∧
        (day % 7 = 2 ∨ day % 7 = 4 ∨ day % 7 = 6) := by
  have hlate : (parts ≥ 19440 ∨ day % 7 = 2 ∧ parts ≥ 9924 ∧ ¬long ∨
      day % 7 = 1 ∧ parts ≥ 16789 ∧ late) ↔ tooLate day long late ≤ parts := by
    unfold tooLate
    split
    · next h => simp [h]; omega
    · split
      · next h h' => simp [h']; omega
      · next h h' =>
        cases long <;> cases late <;> simp_all
  unfold putOff
  simp only [hlate]
  by_cases h : tooLate day long late ≤ parts
  · rw [if_pos h]
    split <;> omega
  · rw [if_neg h]
    split <;> omega

theorem tooLate_mem (day : Int) (long late : Bool) :
    tooLate day long late = 19440 ∨
      tooLate day long late = 16789 ∧ day % 7 = 1 ∨
      tooLate day long late = 9924 ∧ day % 7 = 2 := by
  unfold tooLate
  split_ifs <;> omega

theorem putOff_common {day parts day' parts' : Int} {late long : Bool}
    (hlo : 0 ≤ parts) (hhi : parts < 25920)
    (hlo' : 0 ≤ parts') (hhi' : parts' < 25920)
    (h : 25920 * day' + parts' = 25920 * (day + 354) + parts + 9516) :
    let n := putOff day' parts' long false - putOff day parts false late
    n = 353 ∨ n = 354 ∨ n = 355 := by
  intro n
  obtain ⟨c, hc, hc', hday, hparts⟩ : ∃ c : Int, 0 ≤ c ∧ c ≤ 1 ∧
      day' = day + 354 + c ∧ parts' = parts + 9516 - 25920 * c :=
    ⟨day' - day - 354, by omega, by omega, by omega, by omega⟩
  have hT := tooLate_mem day false late
  have hT' := tooLate_mem day' long false
  have htuesday : day % 7 = 2 → tooLate day false late = 9924 := fun h =>
    if_pos ⟨h, rfl⟩
  have hlow : 353 ≤ n := by
    clear h
    rcases putOff_cases day parts false late with
        ⟨hn, hp, hr⟩ | ⟨hn, hr⟩ | ⟨hn, hp, hr⟩ <;>
      rcases putOff_cases day' parts' long false with
        ⟨hn', hp', hr'⟩ | ⟨hn', hr'⟩ | ⟨hn', hp', hr'⟩ <;>
      omega
  have hhigh : n ≤ 355 := by
    clear h hlow
    rcases putOff_cases day parts false late with
        ⟨hn, hp, hr⟩ | ⟨hn, hr⟩ | ⟨hn, hp, hr⟩ <;>
      rcases putOff_cases day' parts' long false with
        ⟨hn', hp', hr'⟩ | ⟨hn', hr'⟩ | ⟨hn', hp', hr'⟩ <;>
      omega
  omega

theorem putOff_leap {parts day' parts' : Int} (hlo : 0 ≤ parts)
    (hhi : parts < 25920) (hlo' : 0 ≤ parts') (hhi' : parts' < 25920)
    (h : 25920 * day' + parts' = 25920 * (day + 383) + parts + 23269) :
    let n := putOff day' parts' false true - putOff day parts true false
    n = 383 ∨ n = 384 ∨ n = 385 := by
  intro n
  obtain ⟨c, hc, hc', hday, hparts⟩ : ∃ c : Int, 0 ≤ c ∧ c ≤ 1 ∧
      day' = day + 383 + c ∧ parts' = parts + 23269 - 25920 * c :=
    ⟨day' - day - 383, by omega, by omega, by omega, by omega⟩
  have hT : tooLate day true false = 19440 := by simp [tooLate]
  have hT' := tooLate_mem day' false true
  have hmonday : day' % 7 = 1 → tooLate day' false true = 16789 := fun h => by
    simp [tooLate, h]
  have hlow : 383 ≤ n := by
    clear h
    rcases putOff_cases day parts true false with
        ⟨hn, hp, hr⟩ | ⟨hn, hr⟩ | ⟨hn, hp, hr⟩ <;>
      rcases putOff_cases day' parts' false true with
        ⟨hn', hp', hr'⟩ | ⟨hn', hr'⟩ | ⟨hn', hp', hr'⟩ <;>
      omega
  have hhigh : n ≤ 385 := by
    clear h hlow
    rcases putOff_cases day parts true false with
        ⟨hn, hp, hr⟩ | ⟨hn, hr⟩ | ⟨hn, hp, hr⟩ <;>
      rcases putOff_cases day' parts' false true with
        ⟨hn', hp', hr'⟩ | ⟨hn', hr'⟩ | ⟨hn', hp', hr'⟩ <;>
      omega
  omega

/-- The new moon of the next year. -/
theorem molad_succ (y : Int) :
    25920 * moladDay (y + 1) + molad (y + 1) % 25920 =
      25920 * (moladDay y + if hebrewLong y then 383 else 354) +
        molad y % 25920 + if hebrewLong y then 23269 else 9516 := by
  unfold moladDay molad
  rw [hebrewMoons_succ]
  split <;> omega

/-- How many days a year has. -/
def hebrewYear (y : Int) : Int := tishri (y + 1) - tishri y

/-- A year has one of six lengths, three if it is long and three if not. -/
theorem hebrewYear_mem (y : Int) :
    ∃ e : Int, (e = 0 ∨ e = 1 ∨ e = 2) ∧
      hebrewYear y = e + if hebrewLong y then 383 else 353 := by
  have hmolad := molad_succ y
  have hlo : 0 ≤ molad y % 25920 := by omega
  have hhi : molad y % 25920 < 25920 := by omega
  have hlo' : 0 ≤ molad (y + 1) % 25920 := by omega
  have hhi' : molad (y + 1) % 25920 < 25920 := by omega
  have hyear : hebrewYear y =
      putOff (moladDay (y + 1)) (molad (y + 1) % 25920) (hebrewLong (y + 1))
        (hebrewLong y) -
      putOff (moladDay y) (molad y % 25920) (hebrewLong y)
        (hebrewLong (y - 1)) := by
    unfold hebrewYear tishri
    rw [show y + 1 - 1 = y by omega]
  cases hlong : hebrewLong y with
  | false =>
      simp only [hlong, Bool.false_eq_true, if_false] at hmolad hyear ⊢
      have hlen := @putOff_common _ _ _ _ (hebrewLong (y - 1))
        (hebrewLong (y + 1)) hlo hhi hlo' hhi' hmolad
      simp only [← hyear] at hlen
      exact ⟨hebrewYear y - 353, by omega, by omega⟩
  | true =>
      have hbefore : hebrewLong (y - 1) = false := by
        cases hb : hebrewLong (y - 1) with
        | false => rfl
        | true =>
            have hthis := hebrewLong_succ hb
            rw [Int.sub_add_cancel, hlong] at hthis
            cases hthis
      simp only [hlong, if_true] at hmolad hyear ⊢
      have hlen := putOff_leap hlo hhi hlo' hhi' hmolad
      rw [hebrewLong_succ hlong, hbefore] at hyear
      simp only [← hyear] at hlen
      exact ⟨hebrewYear y - 383, by omega, by omega⟩

-- == months

/-- How long a month is; months 8 and 9 depend on the length of the year. -/
def hebrewLength (y : Int) (m : Nat) : Nat :=
  if m ∈ [2, 4, 6, 10, 13] ∨ m = 8 ∧ hebrewYear y % 10 ≠ 5 ∨
    m = 9 ∧ hebrewYear y % 10 = 3 ∨ m = 12 ∧ ¬hebrewLong y then 29 else 30

/-- The months from the seventh on, and then the first six. -/
def hebrewOrder (y : Int) : List Nat :=
  List.range' 7 (if hebrewLong y then 7 else 6) ++ List.range' 1 6

theorem hebrewLength_pos (y : Int) (m : Nat) : 0 < hebrewLength y m := by
  unfold hebrewLength
  split <;> exact Nat.succ_pos _

/-- The months fill the year. -/
theorem hebrewLength_sum (y : Int) :
    (((hebrewOrder y).map (hebrewLength y)).sum : Int) = hebrewYear y := by
  obtain ⟨e, he, hyear⟩ := hebrewYear_mem y
  cases hlong : hebrewLong y <;>
    rcases he with rfl | rfl | rfl <;>
    simp [hlong] at hyear <;>
    simp [hyear, hlong, hebrewOrder, List.range', hebrewLength]

theorem hebrewOrder_nodup (y : Int) : (hebrewOrder y).Nodup := by
  unfold hebrewOrder
  split <;> decide

theorem hebrewOrder_fst (y : Int) :
    ((hebrewOrder y).map fun m => (m, hebrewLength y m)).map Prod.fst =
      hebrewOrder y := by
  rw [List.map_map]
  exact List.map_id _

/-- The Hebrew calendar. -/
def hebrew : Reckoning Nat where
  first := 1
  newYear y := tishri y - 1373428
  months y := (hebrewOrder y).map fun m => (m, hebrewLength y m)
  months_ne := fun {y} _ h => by
    have hnil := List.map_eq_nil_iff.mp h
    unfold hebrewOrder at hnil
    exact absurd (List.append_eq_nil_iff.mp hnil).2 (by decide)
  months_pos := fun {y} _ m hm => by
    obtain ⟨k, -, rfl⟩ := List.mem_map.mp hm
    exact hebrewLength_pos y k
  months_nodup := fun {y} _ => by
    rw [hebrewOrder_fst]
    exact hebrewOrder_nodup y
  months_sum := fun {y} _ => by
    have hsum := hebrewLength_sum y
    have hsnd : ((hebrewOrder y).map fun m => (m, hebrewLength y m)).map
        Prod.snd = (hebrewOrder y).map (hebrewLength y) := by
      rw [List.map_map]
      rfl
    rw [hsnd, hsum, hebrewYear]
    omega

-- == the source

/-- The integers of the source can deal with the days up to the next new
year. -/
def HebrewFits (y : Int) : Prop := tishri (y + 1) < 9223372036854775807

theorem tishri_ge (y : Int) : 1 + 29 * hebrewMoons y + molad y / 25920 ≤
    tishri y := by
  unfold tishri putOff moladDay
  simp only
  split <;> split <;> omega

theorem hebrewLeap_eq {y : Int} (hy : 0 ≤ y)
    (hmax : y < 1317624576693539401) : hebrewLeap y = .ok (hebrewLong y) := by
  unfold hebrewLeap
  rw [i64_of_mem (by omega) (by omega), ok_bind,
    i64_of_mem (by omega) (by omega), ok_bind]
  rfl

/-- The months before a year, as the source counts them: by whole cycles. -/
theorem monthsElapsed_eq (hy : 1 ≤ y) :
    235 * (y - 1).tdiv 19 + 12 * (y - 1).tmod 19 +
      (7 * (y - 1).tmod 19 + 1).tdiv 19 = hebrewMoons y := by
  have hmod : (y - 1).tmod 19 = (y - 1) % 19 :=
    Int.tmod_eq_emod_of_nonneg (by omega)
  rw [hmod, tdiv_of_nonneg (by omega), tdiv_of_nonneg (by omega)]
  obtain ⟨q, r, hq, hlo, hhi⟩ := exists_cycle (y - 1)
  obtain rfl : y = 19 * q + r + 1 := by omega
  unfold hebrewMoons
  interval_cases r <;> omega

/-- The time of the new moon, as the source adds it up: in hours and parts of
an hour. -/
theorem molad_eq (n : Int) :
    5 + 12 * n + 793 * (n / 1080) + (204 + 793 * (n % 1080)) / 1080 =
        (5604 + 13753 * n) / 1080 ∧
      (204 + 793 * (n % 1080)) % 1080 = (5604 + 13753 * n) % 1080 := by
  omega

/-- A day that no year begins on is passed over. -/
theorem passOver_eq {n : Int} (hday : 0 ≤ day)
    (hn : n = day + if day % 7 = 0 ∨ day % 7 = 3 ∨ day % 7 = 5 then 1 else 0)
    (hmax : n ≤ 9223372036854775807) :
    (if day.tmod 7 ∈ [0, 3, 5] then i64 (day + 1) else pure day) = .ok n := by
  have hmod : day.tmod 7 = day % 7 := Int.tmod_eq_emod_of_nonneg hday
  simp only [hmod, List.mem_cons, List.not_mem_nil, or_false]
  split at hn
  · next h =>
      rw [if_pos h, i64_of_mem (by omega) (by omega), hn]
  · next h =>
      rw [if_neg h, hn, Int.add_zero]
      rfl

/-- The end of the computation, from whether the new moon is late. -/
theorem putOff_eq {n : Int} {late : Bool} (hday : 0 ≤ day)
    (hn : n = let day := day + if late then 1 else 0
      day + if day % 7 = 0 ∨ day % 7 = 3 ∨ day % 7 = 5 then 1 else 0)
    (hmax : n ≤ 9223372036854775807) :
    (if late = true then do
        let day ← i64 (day + 1)
        if day.tmod 7 ∈ [0, 3, 5] then i64 (day + 1) else pure day
      else do
        let day ← Except.ok day
        if day.tmod 7 ∈ [0, 3, 5] then i64 (day + 1) else pure day) =
      .ok n := by
  cases late with
  | true =>
      have hle : day + 1 ≤ n := by
        rw [hn]
        simp only [if_true]
        split <;> omega
      rw [if_pos rfl, i64_of_mem (by omega) (by omega), ok_bind]
      exact passOver_eq (by omega) hn hmax
  | false =>
      simp only [Bool.false_eq_true, if_false, Int.add_zero] at hn
      rw [if_neg Bool.false_ne_true, ok_bind]
      exact passOver_eq hday hn hmax

theorem hebrewElapsedDays_eq (hy : 1 ≤ y)
    (hfit : tishri y < 9223372036854775807) :
    hebrewElapsedDays y = .ok (tishri y) := by
  have hge := tishri_ge y
  have hmoons : y - 1 ≤ hebrewMoons y := by
    unfold hebrewMoons
    omega
  have hmolad : molad y = 5604 + 13753 * hebrewMoons y := rfl
  have hday : 1 + 29 * hebrewMoons y + molad y / 25920 = moladDay y := rfl
  obtain ⟨hhours, hparts⟩ := molad_eq (hebrewMoons y)
  rw [← hmolad] at hhours hparts
  have hmod : (hebrewMoons y).tmod 1080 = hebrewMoons y % 1080 :=
    Int.tmod_eq_emod_of_nonneg (by omega)
  have hmod' : (204 + 793 * (hebrewMoons y % 1080)).tmod 1080 =
      molad y % 1080 := by
    rw [Int.tmod_eq_emod_of_nonneg (by omega), hparts]
  have hmod'' : (molad y / 1080).tmod 24 = molad y / 1080 % 24 :=
    Int.tmod_eq_emod_of_nonneg (by omega)
  have htime : 1080 * (molad y / 1080 % 24) + molad y % 1080 =
      molad y % 25920 := by omega
  have hwhole : molad y / 1080 / 24 = molad y / 25920 := by omega
  have hweek : (moladDay y).tmod 7 = moladDay y % 7 :=
    Int.tmod_eq_emod_of_nonneg (by omega)
  unfold hebrewElapsedDays
  rw [i64_of_mem (by omega) (by omega), ok_bind, monthsElapsed_eq hy,
    i64_of_mem (by omega) (by omega), ok_bind]
  simp only [hmod]
  rw [tdiv_of_nonneg (by omega), tdiv_of_nonneg (by omega), hhours,
    i64_of_mem (by omega) (by omega), ok_bind, tdiv_of_nonneg (by omega),
    hwhole, hday, i64_of_mem (by omega) (by omega), ok_bind]
  simp only [hmod', hmod'', htime, hweek]
  have hlong := @hebrewLeap_eq y (by omega) (by omega)
  have hlast := @hebrewLeap_eq (y - 1) (by omega) (by omega)
  rw [hlong, hlast]
  have hday' : 0 ≤ moladDay y := by omega
  have htishri : ∀ late : Bool, (late = true ↔ molad y % 25920 ≥ 19440 ∨
      moladDay y % 7 = 2 ∧ molad y % 25920 ≥ 9924 ∧ ¬hebrewLong y ∨
      moladDay y % 7 = 1 ∧ molad y % 25920 ≥ 16789 ∧ hebrewLong (y - 1)) →
      tishri y = let day := moladDay y + if late then 1 else 0
        day + if day % 7 = 0 ∨ day % 7 = 3 ∨ day % 7 = 5 then 1 else 0 := by
    intro late h
    unfold tishri putOff
    simp only [h]
  by_cases hnoon : molad y % 25920 ≥ 19440
  · rw [if_pos hnoon, ok_bind]
    exact putOff_eq hday' (htishri true (by simp [hnoon])) (by omega)
  · rw [if_neg hnoon]
    by_cases htue : moladDay y % 7 = 2 ∧ molad y % 25920 ≥ 9924
    · rw [if_pos htue]
      show (if (!hebrewLong y) = true then _ else _) = _
      exact putOff_eq hday' (htishri _ (by simp [hnoon, htue])) (by omega)
    · rw [if_neg htue]
      by_cases hmon : moladDay y % 7 = 1 ∧ molad y % 25920 ≥ 16789
      · rw [if_pos hmon, ok_bind]
        exact putOff_eq hday' (htishri _ (by simp [hnoon, hmon])) (by omega)
      · rw [if_neg hmon, ok_bind]
        refine putOff_eq hday' (htishri false
          ⟨fun h => absurd h Bool.false_ne_true, ?_⟩) (by omega)
        rintro (h | ⟨h, h', -⟩ | ⟨h, h', -⟩)
        · exact absurd h hnoon
        · exact absurd ⟨h, h'⟩ htue
        · exact absurd ⟨h, h'⟩ hmon

theorem hebrewMoons_ge (hy : 1 ≤ y) : y - 1 ≤ hebrewMoons y := by
  unfold hebrewMoons
  omega

theorem HebrewFits.year (h : HebrewFits y) (hy : 1 ≤ y) :
    tishri y + 353 < 9223372036854775807 ∧ y < 1317624576693539400 := by
  obtain ⟨e, he, hyear⟩ := hebrewYear_mem y
  have hge := tishri_ge y
  have hmoons := hebrewMoons_ge hy
  have hmolad : molad y = 5604 + 13753 * hebrewMoons y := rfl
  have hnext : hebrewYear y = tishri (y + 1) - tishri y := rfl
  unfold HebrewFits at h
  split at hyear <;> omega

theorem hebrewDaysInYear_eq (hy : 1 ≤ y) (hfit : HebrewFits y) :
    hebrewDaysInYear y = .ok (hebrewYear y) := by
  obtain ⟨hthis, hmax⟩ := hfit.year hy
  unfold hebrewDaysInYear
  rw [i64_of_mem (by omega) (by omega), ok_bind,
    hebrewElapsedDays_eq (by omega) hfit, ok_bind,
    hebrewElapsedDays_eq hy (by omega), ok_bind]
  rfl

theorem hebrewLastDayOfMonth_eq (hy : 1 ≤ y) (hfit : HebrewFits y) (m : Nat) :
    hebrewLastDayOfMonth m y = .ok (hebrewLength y m) := by
  obtain ⟨-, hmax⟩ := hfit.year hy
  have hpos : 0 ≤ hebrewYear y := by
    obtain ⟨e, he, hyear⟩ := hebrewYear_mem y
    split at hyear <;> omega
  have hmod : (hebrewYear y).tmod 10 = hebrewYear y % 10 :=
    Int.tmod_eq_emod_of_nonneg hpos
  unfold hebrewLastDayOfMonth hebrewLongHeshvan hebrewShortKislev
  rw [hebrewDaysInYear_eq hy hfit, hebrewLeap_eq (by omega) (by omega)]
  simp only [ok_bind, hmod]
  split
  case h_1 | h_2 | h_3 | h_4 | h_5 =>
    simp [hebrewLength]
    rfl
  case h_6 =>
    show Except.ok (if (!decide (hebrewYear y % 10 = 5)) = true then 29
      else 30) = _
    simp [hebrewLength]
  case h_7 =>
    show Except.ok (if decide (hebrewYear y % 10 = 3) = true then 29
      else 30) = _
    simp [hebrewLength]
  case h_8 =>
    show Except.ok (if (!hebrewLong y) = true then 29 else 30) = _
    simp [hebrewLength]
  case h_9 h2 h4 h6 h10 h13 h8 h9 h12 =>
    have hmem : m ∉ [2, 4, 6, 10, 13] := by
      simp only [List.mem_cons, List.not_mem_nil, or_false, not_or]
      exact ⟨h2, h4, h6, h10, h13⟩
    refine congrArg Except.ok (if_neg ?_).symm
    rintro (h | ⟨h, -⟩ | ⟨h, -⟩ | ⟨h, -⟩)
    · exact hmem h
    · exact h8 h
    · exact h9 h
    · exact h12 h

theorem mem_hebrewOrder :
    m ∈ hebrewOrder y ↔ 1 ≤ m ∧ m ≤ if hebrewLong y then 13 else 12 := by
  unfold hebrewOrder
  rw [List.mem_append, List.mem_range'_1, List.mem_range'_1]
  split <;> omega

theorem hebrewAddMonths_eq (hy : 1 ≤ y) (hfit : HebrewFits y) (ms : List Nat)
    (total : Int) : hebrewAddMonths y ms total =
      .ok (total + (ms.map (hebrewLength y)).sum) :=
  sumDays_eq (fun m _ => hebrewLastDayOfMonth_eq hy hfit m) total

/-- The months of a year before one of them. -/
def hebrewBefore (y : Int) (m : Nat) : List Nat :=
  if m < 7 then
    List.range' 7 (if hebrewLong y then 7 else 6) ++ List.range' 1 (m - 1)
  else List.range' 7 (m - 7)

theorem range_split {a n m : Nat} (h : a ≤ m) (h' : m < a + n) :
    List.range' a n =
      List.range' a (m - a) ++ m :: List.range' (m + 1) (a + n - (m + 1)) := by
  obtain ⟨k, rfl⟩ := Nat.exists_eq_add_of_le h
  have hn : n = k + (1 + (a + n - (a + k + 1))) := by omega
  conv_lhs => rw [hn]
  rw [← List.range'_append_1, ← List.range'_append_1, Nat.add_sub_cancel_left]
  rfl

theorem hebrewOrder_split (hm : m ∈ hebrewOrder y) :
    ∃ ms, hebrewOrder y = hebrewBefore y m ++ m :: ms := by
  obtain ⟨h, h'⟩ := mem_hebrewOrder.mp hm
  unfold hebrewOrder hebrewBefore
  by_cases hlate : m < 7
  · rw [if_pos hlate, @range_split 1 6 m h (by omega)]
    exact ⟨_, (List.append_assoc _ _ _).symm⟩
  · have hin : m < 7 + if hebrewLong y then 7 else 6 := by
      split at h' <;> split <;> omega
    rw [if_neg hlate, @range_split 7 _ m (by omega) hin, List.append_assoc]
    exact ⟨_, rfl⟩

theorem before_hebrew (hm : m ∈ hebrewOrder y) :
    before (hebrew.months y) m =
      ((hebrewBefore y m).map (hebrewLength y)).sum := by
  obtain ⟨ms, hsplit⟩ := hebrewOrder_split hm
  have hmonths : hebrew.months y =
      (hebrewBefore y m).map (fun k => (k, hebrewLength y k)) ++
        (m, hebrewLength y m) :: ms.map fun k => (k, hebrewLength y k) := by
    show (hebrewOrder y).map _ = _
    rw [hsplit, List.map_append, List.map_cons]
  have hnodup : ((hebrew.months y).map Prod.fst).Nodup := by
    show (((hebrewOrder y).map fun k => (k, hebrewLength y k)).map
      Prod.fst).Nodup
    rw [hebrewOrder_fst]
    exact hebrewOrder_nodup y
  rw [hmonths] at hnodup ⊢
  rw [before_append hnodup, List.map_map]
  rfl

theorem mem_hebrew {days : Nat} :
    (m, days) ∈ hebrew.months y ↔
      m ∈ hebrewOrder y ∧ days = hebrewLength y m := by
  constructor
  · intro h
    obtain ⟨k, hk, heq⟩ := List.mem_map.mp h
    cases heq
    exact ⟨hk, rfl⟩
  · rintro ⟨h, rfl⟩
    exact List.mem_map.mpr ⟨m, h, rfl⟩

/-- The days of a year up to a date, and what is done with them. -/
theorem hebrewTotal_eq {α : Type} (hy : 1 ≤ y) (hfit : HebrewFits y)
    (d : Nat) (next : Int → Result α) :
    (if m < 7 then do
        let last ← hebrewLastMonthOfYear y
        let total ← hebrewAddMonths y (List.range' 7 (last + 1 - 7)) d
        let total ← hebrewAddMonths y (List.range' 1 (m - 1)) total
        next total
      else do
        let total ← hebrewAddMonths y (List.range' 7 (m - 7)) d
        next total) =
      next (d + ((hebrewBefore y m).map (hebrewLength y)).sum) := by
  obtain ⟨-, hmax⟩ := hfit.year hy
  unfold hebrewBefore
  split
  · have hlast : hebrewLastMonthOfYear y =
        .ok (if hebrewLong y then 13 else 12) := by
      unfold hebrewLastMonthOfYear
      rw [hebrewLeap_eq (by omega) (by omega)]
      rfl
    have hcount : (if hebrewLong y then 13 else 12) + 1 - 7 =
        if hebrewLong y then 7 else 6 := by
      split <;> rfl
    rw [hlast, ok_bind, hcount, hebrewAddMonths_eq hy hfit, ok_bind,
      hebrewAddMonths_eq hy hfit, ok_bind, List.map_append, List.sum_append,
      Nat.cast_add, ← Int.add_assoc]
  · rw [hebrewAddMonths_eq hy hfit, ok_bind]

theorem fixedFromHebrew_eq (h : hebrew.Valid (y, m, d)) (hfit : HebrewFits y) :
    fixedFromHebrew y m d = .ok (hebrew.number (y, m, d)) := by
  have hy : 1 ≤ y := h.year
  obtain ⟨days, hmem, -⟩ := h.month
  obtain ⟨hm, -⟩ := mem_hebrew.mp hmem
  have hlt : hebrew.number (y, m, d) < tishri (y + 1) - 1373428 :=
    h.number_mem.2
  have hnumber : hebrew.number (y, m, d) = tishri y - 1373428 +
      (((hebrewBefore y m).map (hebrewLength y)).sum : Nat) + (d - 1) := by
    show tishri y - 1373428 + (before (hebrew.months y) m : Int) + _ = _
    rw [before_hebrew hm]
  obtain ⟨hthis, -⟩ := hfit.year hy
  have hge := tishri_ge y
  have hmoons := hebrewMoons_ge hy
  have hmolad : molad y = 5604 + 13753 * hebrewMoons y := rfl
  have hnext : tishri (y + 1) < 9223372036854775807 := hfit
  unfold fixedFromHebrew
  refine (hebrewTotal_eq hy hfit d fun total => do
    let elapsed ← hebrewElapsedDays y
    let total ← i64 (total + elapsed)
    i64 (total - 1373429)).trans ?_
  rw [hebrewElapsedDays_eq hy (by omega), ok_bind,
    i64_of_mem (by omega) (by omega), ok_bind,
    i64_of_mem (by omega) (by omega)]
  congr 1
  omega

/-- A new year is computed without the lengths of any months. -/
theorem fixedFromHebrew_tishri (hy : 1 ≤ y)
    (hfit : tishri y < 9223372036854775807) :
    fixedFromHebrew y 7 1 = .ok (hebrew.newYear y) := by
  have hge := tishri_ge y
  have hmoons := hebrewMoons_ge hy
  have hmolad : molad y = 5604 + 13753 * hebrewMoons y := rfl
  show (do
    let total ← hebrewAddMonths y [] 1
    let elapsed ← hebrewElapsedDays y
    let total ← i64 (total + elapsed)
    i64 (total - 1373429)) = _
  show (do
    let elapsed ← hebrewElapsedDays y
    let total ← i64 (1 + elapsed)
    i64 (total - 1373429)) = _
  rw [hebrewElapsedDays_eq hy hfit, ok_bind,
    i64_of_mem (by omega) (by omega), ok_bind,
    i64_of_mem (by omega) (by omega)]
  show _ = Except.ok (tishri y - 1373428)
  congr 1
  omega

/-- Whether a month lies before another one of its year. -/
def Earlier (k m : Nat) : Prop :=
  7 ≤ k ∧ m < 7 ∨ k < m ∧ (k < 7 ↔ m < 7)

/-- A month is over when a later one begins. -/
theorem hebrewBefore_add_le {k : Nat} (hk : k ∈ hebrewOrder y)
    (hm : m ∈ hebrewOrder y) (h : Earlier k m) :
    ((hebrewBefore y k).map (hebrewLength y)).sum + hebrewLength y k ≤
      ((hebrewBefore y m).map (hebrewLength y)).sum := by
  have hpart : ∃ ms, hebrewBefore y m = hebrewBefore y k ++ k :: ms := by
    obtain ⟨hk, hk'⟩ := mem_hebrewOrder.mp hk
    obtain ⟨hm, hm'⟩ := mem_hebrewOrder.mp hm
    unfold hebrewBefore
    rcases h with ⟨h, h'⟩ | ⟨h, h'⟩
    · have hin : k < 7 + if hebrewLong y then 7 else 6 := by
        split at hk' <;> split <;> omega
      rw [if_pos h', if_neg (show ¬k < 7 by omega), @range_split 7 _ k h hin,
        List.append_assoc]
      exact ⟨_, rfl⟩
    · by_cases hlate : m < 7
      · rw [if_pos hlate, if_pos (h'.mpr hlate),
          @range_split 1 (m - 1) k hk (by omega)]
        exact ⟨_, (List.append_assoc _ _ _).symm⟩
      · rw [if_neg hlate, if_neg fun h => hlate (h'.mp h),
          @range_split 7 (m - 7) k (by omega) (by omega)]
        exact ⟨_, rfl⟩
  obtain ⟨ms, hms⟩ := hpart
  rw [hms, List.map_append, List.map_cons, List.sum_append, List.sum_cons]
  omega

/-- The estimate for a year is not too high. -/
theorem tishri_le {y : Int} (hy : 0 ≤ y) : tishri (y + 1) ≤ 366 * y + 365 := by
  have hle : tishri (y + 1) ≤ moladDay (y + 1) + 2 := by
    unfold tishri putOff
    simp only
    split <;> split <;> omega
  have hday : moladDay (y + 1) =
    1 + 29 * hebrewMoons (y + 1) + molad (y + 1) / 25920 := rfl
  have hmolad : molad (y + 1) = 5604 + 13753 * hebrewMoons (y + 1) := rfl
  have hmoons : hebrewMoons (y + 1) = (235 * (y + 1) - 234) / 19 := rfl
  omega

theorem number_hebrew (hm : m ∈ hebrewOrder y) (d : Nat) :
    hebrew.number (y, m, d) = hebrew.newYear y +
      (((hebrewBefore y m).map (hebrewLength y)).sum : Nat) + (d - 1) := by
  rw [← before_hebrew hm]
  rfl

theorem nisan_mem (y : Int) : 1 ∈ hebrewOrder y :=
  mem_hebrewOrder.mpr ⟨Nat.le_refl 1, by split <;> omega⟩

/-- The month that the search starts at, which is not behind the month of the
day. -/
theorem start_le {start : Nat} (hm : m ∈ hebrewOrder y) (hd : 1 ≤ d)
    (hd' : d ≤ hebrewLength y m)
    (hstart : start = if hebrew.number (y, m, d) < hebrew.number (y, 1, 1)
      then 7 else 1) :
    start ≤ m ∧ ∀ k, start ≤ k → k < m →
      k ∈ hebrewOrder y ∧ Earlier k m := by
  obtain ⟨hm', hm''⟩ := mem_hebrewOrder.mp hm
  rw [number_hebrew hm, number_hebrew (nisan_mem y)] at hstart
  by_cases hlate : m < 7
  · have hover : ((hebrewBefore y 1).map (hebrewLength y)).sum ≤
        ((hebrewBefore y m).map (hebrewLength y)).sum := by
      rcases Nat.eq_or_lt_of_le hm' with rfl | hlt
      · exact Nat.le_refl _
      · have hle := hebrewBefore_add_le (nisan_mem y) hm
          (.inr ⟨hlt, by omega⟩)
        omega
    rw [if_neg (by omega)] at hstart
    refine ⟨by omega, fun k hk hkm => ⟨?_, .inr ⟨hkm, by omega⟩⟩⟩
    exact mem_hebrewOrder.mpr ⟨by omega, by omega⟩
  · have hle := hebrewBefore_add_le hm (nisan_mem y)
      (.inl ⟨by omega, by omega⟩)
    rw [if_pos (by omega)] at hstart
    refine ⟨by omega, fun k hk hkm => ⟨?_, .inr ⟨hkm, by omega⟩⟩⟩
    exact mem_hebrewOrder.mpr ⟨by omega, by omega⟩

theorem hebrewFromFixed_eq (h : hebrew.Valid (y, m, d)) (hfit : HebrewFits y) :
    hebrewFromFixed (hebrew.number (y, m, d)) = .ok (y, m, d) := by
  have hy : 1 ≤ y := h.year
  have hday : 1 ≤ d := h.day
  obtain ⟨days, hmem, hle⟩ := h.month
  have hm : m ∈ hebrewOrder y := (mem_hebrew.mp hmem).1
  have hd : d ≤ hebrewLength y m := (mem_hebrew.mp hmem).2 ▸ hle
  have hlen : ∀ k, hebrewLength y k ≤ 30 := fun k => by
    unfold hebrewLength
    split <;> omega
  have hd' := hlen m
  have hm' : m < 4294967296 := by
    have hlast := (mem_hebrewOrder.mp hm).2
    split at hlast <;> omega
  obtain ⟨hthis, hmax⟩ := hfit.year hy
  have hnext : tishri (y + 1) < 9223372036854775807 := hfit
  obtain ⟨hlo, hhi⟩ := h.number_mem
  have hfirst : hebrew.newYear 1 = -1373427 := by decide
  have hepoch : -1373427 ≤ hebrew.number (y, m, d) :=
    Int.le_trans (hfirst ▸ newYear_mono (R := hebrew) (Int.le_refl 1) hy) hlo
  have hbound : hebrew.number (y, m, d) < tishri (y + 1) - 1373428 := hhi
  have hestimate := @tishri_le y (by omega)
  have hvalid : ∀ {k e}, k ∈ hebrewOrder y → 1 ≤ e → e ≤ hebrewLength y k →
      hebrew.Valid (y, k, e) := fun hk he he' =>
    ⟨hy, ⟨_, mem_hebrew.mpr ⟨hk, rfl⟩, he'⟩, he⟩
  have hnew : ∀ x, 1 ≤ x → x ≤ y + 1 →
      fixedFromHebrew x 7 1 = .ok (hebrew.newYear x) := by
    intro x hx hxy
    have hmono : tishri x - 1373428 ≤ tishri (y + 1) - 1373428 :=
      newYear_mono (R := hebrew) hx hxy
    exact fixedFromHebrew_tishri hx (by omega)
  have hlast : ∀ k, k ∈ hebrewOrder y → (do
      let days ← hebrewLastDayOfMonth k y
      fixedFromHebrew y k days) =
        .ok (hebrew.number (y, k, hebrewLength y k)) := by
    intro k hk
    rw [hebrewLastDayOfMonth_eq hy hfit, ok_bind]
    exact fixedFromHebrew_eq
      (hvalid hk (hebrewLength_pos y k) (Nat.le_refl _)) hfit
  obtain ⟨start, hstart⟩ : ∃ start, start =
    if hebrew.number (y, m, d) < hebrew.number (y, 1, 1) then 7 else 1 :=
      ⟨_, rfl⟩
  obtain ⟨hle, hearlier⟩ := start_le hm hday hd hstart
  have hmonth := @searchMonth
    (fun k => do
      let days ← hebrewLastDayOfMonth k y
      fixedFromHebrew y k days)
    (fun k => hebrew.number (y, k, hebrewLength y k)) start m
    (hebrew.number (y, m, d)) hle hm'
    (fun k hk hkm => hlast k <| by
      rcases Nat.lt_or_eq_of_le hkm with hlt | rfl
      · exact (hearlier k hk hlt).1
      · exact hm)
    (fun k hk hkm => by
      obtain ⟨hk', hmore⟩ := hearlier k hk hkm
      have hover := hebrewBefore_add_le hk' hm hmore
      simp only [number_hebrew hk', number_hebrew hm]
      omega)
    (by
      simp only [number_hebrew hm]
      omega)
  simp only [bind_assoc] at hmonth
  have hback : hebrew.number (y, m, d) - hebrew.number (y, m, 1) + 1 = d := by
    rw [number_hebrew hm, number_hebrew hm]
    omega
  unfold hebrewFromFixed
  rw [i64_of_mem (by omega) (by omega), ok_bind,
    @searchYear hebrew (fun x => fixedFromHebrew x 7 1) _ y _
      (show 1 ≤ _ by omega) (by omega) hy ⟨hlo, hhi⟩ hnew (by omega)
      (by omega), ok_bind,
    fixedFromHebrew_eq (hvalid (nisan_mem y) (Nat.le_refl 1)
      (hebrewLength_pos y 1)) hfit, ok_bind]
  simp only [← hstart]
  rw [hmonth, ok_bind,
    fixedFromHebrew_eq (hvalid hm (Nat.le_refl 1) (hebrewLength_pos y m)) hfit,
    ok_bind, hback, asU32_cast (by omega)]
  rfl

-- == the law

/-- A day before the last new year of the integers lies in a year that
fits. -/
theorem hebrewFits_of_lt {f : Int} (hy : 1 ≤ y)
    (hyear : hebrew.newYear y ≤ f) (hf : f < 9223372036853402082) :
    HebrewFits y := by
  have hlast : tishri 25252436095537970 = 9223372036854775510 := by
    decide
  have hnew : hebrew.newYear 25252436095537970 = 9223372036853402082 := by
    show tishri 25252436095537970 - 1373428 = _
    rw [hlast]
    rfl
  have hle : y + 1 ≤ 25252436095537970 := by
    by_contra hover
    have hmono := newYear_mono (R := hebrew)
      (show 1 ≤ 25252436095537970 by decide)
      (show 25252436095537970 ≤ y by omega)
    omega
  have hmono : tishri (y + 1) - 1373428 ≤ tishri 25252436095537970 - 1373428 :=
    newYear_mono (R := hebrew) (show 1 ≤ y + 1 by omega) hle
  unfold HebrewFits
  omega

theorem hebrew_date {f : Int} (hf : -1373427 ≤ f)
    (hf' : f < 9223372036853402082) :
    ∃ δ, hebrewFromFixed f = .ok δ ∧ hebrew.Valid δ ∧ HebrewFits δ.1 ∧
      fixedFromHebrew δ.1 δ.2.1 δ.2.2 = .ok f := by
  have hfirst : hebrew.newYear hebrew.first = -1373427 := by decide
  obtain ⟨δ, hvalid, rfl⟩ := exists_date (R := hebrew) (hfirst ▸ hf)
  have hfit := hebrewFits_of_lt hvalid.year hvalid.number_mem.1 hf'
  exact ⟨δ, hebrewFromFixed_eq hvalid hfit, hvalid, hfit,
    fixedFromHebrew_eq hvalid hfit⟩

/-- From the first day of the year 1 to the last new year that the integers
of the source can deal with. -/
theorem hebrew_law :
    fixedFromHebrew 1 7 1 = .ok (-1373427) ∧
      (∀ f, -1373427 ≤ f → f < 9223372036853402082 →
        ∃ y m d long days, hebrewFromFixed f = .ok (y, m, d) ∧
          hebrewLeap y = .ok long ∧ 1 ≤ m ∧ m ≤ (if long then 13 else 12) ∧
          hebrewLastDayOfMonth m y = .ok days ∧ 1 ≤ d ∧ d ≤ days ∧
          fixedFromHebrew y m d = .ok f) ∧
      ∀ y, 1 ≤ y → HebrewFits y →
        ∃ n ∈ [353, 354, 355, 383, 384, 385], hebrewDaysInYear y = .ok n := by
  refine ⟨by decide, fun f hf hf' => ?_, fun y hy hfit => ?_⟩
  · obtain ⟨⟨y, m, d⟩, hdate, hvalid, hfit, hback⟩ := hebrew_date hf hf'
    have hy : 1 ≤ y := hvalid.year
    have hfit' : HebrewFits y := hfit
    obtain ⟨-, hmax⟩ := hfit'.year hy
    obtain ⟨days, hmem, hle⟩ := hvalid.month
    obtain ⟨hm, rfl⟩ := mem_hebrew.mp hmem
    obtain ⟨hm', hm''⟩ := mem_hebrewOrder.mp hm
    exact ⟨y, m, d, hebrewLong y, hebrewLength y m, hdate,
      hebrewLeap_eq (by omega) (by omega), hm', hm'',
      hebrewLastDayOfMonth_eq hy hfit' m, hvalid.day, hle, hback⟩
  · obtain ⟨e, he, hyear⟩ := hebrewYear_mem y
    refine ⟨hebrewYear y, ?_, hebrewDaysInYear_eq hy hfit⟩
    rw [hyear]
    rcases he with rfl | rfl | rfl <;> split <;> decide

theorem hebrew_law_millennium :
    ∃ y m d, hebrewFromFixed 730120 = .ok (y, m, d) ∧
      fixedFromHebrew y m d = .ok 730120 := by
  obtain ⟨y, m, d, -, -, hdate, -, -, -, -, -, -, hback⟩ :=
    hebrew_law.2.1 730120 (by decide) (by decide)
  exact ⟨y, m, d, hdate, hback⟩

/-- The last day number of all is too far from the epoch. -/
theorem not_hebrew_law_last :
    ¬ ∃ δ, hebrewFromFixed 9223372036854775807 = .ok δ := by
  rintro ⟨δ, hδ⟩
  have hpanic : hebrewFromFixed 9223372036854775807 = .error .assertion := by
    decide
  cases hpanic.symm.trans hδ

end Zmax.Calendar
