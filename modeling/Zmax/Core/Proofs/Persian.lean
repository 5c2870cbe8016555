/-
The Persian calendar.

Years are counted through here, with the year 0 that the calendar leaves out
(`civil`), and the new years go by cycles of 2820 years and blocks of 768 in
them (`persianNew_block`). The source goes back by the length of whole cycles
for a year before the first one. The calendar has no first year: for a day,
one far enough back is taken.
-/
import Zmax.Core.Proofs.Calendars

namespace Zmax.Calendar

open Reckoning

-- == years

/-- A year by its name, which is never 0. -/
def civil (s : Int) : Int := if s < 1 then s - 1 else s

def persianLong (s : Int) : Bool := (s + 2346) % 2820 % 768 * 683 % 2820 < 683

/-- The number of the first day of a year. -/
def persianNew (s : Int) : Int :=
  226328 + 365 * (s - 1) + 683 * ((s + 2345) / 2820) +
    186 * ((s + 2345) % 2820 / 768) + 683 * ((s + 2345) % 2820 % 768) / 2820

/-- A year by its cycle, its block and its place there. -/
theorem exists_block (s : Int) : ∃ n k j : Int,
    s = 2820 * n + 768 * k + j - 2344 ∧ 0 ≤ k ∧ k ≤ 3 ∧ 0 ≤ j ∧ j < 768 ∧
      768 * k + j < 2820 :=
  ⟨(s + 2344) / 2820, (s + 2344) % 2820 / 768, (s + 2344) % 2820 % 768,
    by omega, by omega, by omega, by omega, by omega, by omega⟩

variable {j s : Int} {m d : Nat}

theorem persianNew_block {n k : Int} (hk : 0 ≤ k) (hk' : k ≤ 3) (hj : 0 ≤ j)
    (hj' : j < 768) (hin : 768 * k + j < 2820) :
    persianNew (2820 * n + 768 * k + j - 2344) =
      -629597 + 1029983 * n + 280506 * k + 365 * j + 683 * (j + 1) / 2820 +
        if 768 * k + j = 2819 then 1 else 0 := by
  obtain ⟨s, hs⟩ : ∃ s, s = 2820 * n + 768 * k + j - 2344 := ⟨_, rfl⟩
  rw [← hs]
  unfold persianNew
  by_cases hlast : 768 * k + j = 2819
  · have hcycle : (s + 2345) / 2820 = n + 1 := by omega
    have hplace : (s + 2345) % 2820 = 0 := by omega
    obtain rfl : k = 3 := by omega
    obtain rfl : j = 515 := by omega
    rw [hcycle, hplace, if_pos (by decide)]
    omega
  · have hcycle : (s + 2345) / 2820 = n := by omega
    have hplace : (s + 2345) % 2820 = 768 * k + j + 1 := by omega
    rw [hcycle, hplace, if_neg hlast]
    by_cases hnext : j = 767
    · subst hnext
      have hblock : (768 * k + 767 + 1) / 768 = k + 1 := by omega
      have hrest : (768 * k + 767 + 1) % 768 = 0 := by omega
      rw [hblock, hrest]
      omega
    · have hblock : (768 * k + j + 1) / 768 = k := by omega
      have hrest : (768 * k + j + 1) % 768 = j + 1 := by omega
      rw [hblock, hrest]
      omega

/-- When a quotient goes up. -/
theorem quotient_add (m : Int) : (m + 683) / 2820 =
    m / 2820 + if (m + 683) % 2820 < 683 then 1 else 0 := by
  obtain ⟨q, r, rfl, hlo, hhi⟩ : ∃ q r : Int, m = 2820 * q + r ∧ 0 ≤ r ∧
      r < 2820 := ⟨m / 2820, m % 2820, by omega, by omega, by omega⟩
  by_cases hr : r < 2137
  · have hrest : (2820 * q + r + 683) % 2820 = r + 683 := by omega
    rw [hrest, if_neg (by omega)]
    omega
  · have hrest : (2820 * q + r + 683) % 2820 = r + 683 - 2820 := by omega
    rw [hrest, if_pos (by omega)]
    omega

theorem persianNew_succ (s : Int) : persianNew (s + 1) =
    persianNew s + 365 + if persianLong s then 1 else 0 := by
  have hshift : s + 1 + 2345 = s + 2346 := by omega
  unfold persianNew persianLong
  rw [hshift]
  simp only [decide_eq_true_eq]
  by_cases hlast : (s + 2345) % 2820 = 2819
  · have hcycle : (s + 2346) / 2820 = (s + 2345) / 2820 + 1 := by omega
    have hplace : (s + 2346) % 2820 = 0 := by omega
    rw [hlast, hcycle, hplace, if_pos (by decide)]
    omega
  · have hcycle : (s + 2346) / 2820 = (s + 2345) / 2820 := by omega
    have hplace : (s + 2346) % 2820 = (s + 2345) % 2820 + 1 := by omega
    obtain ⟨t, ht⟩ : ∃ t, t = (s + 2345) % 2820 := ⟨_, rfl⟩
    have hlo : 0 ≤ t := by omega
    have hhi : t < 2819 := by omega
    rw [hcycle, hplace, ← ht]
    clear hlast hcycle hplace ht hshift
    by_cases hnext : t % 768 = 767
    · have hblock : (t + 1) / 768 = t / 768 + 1 := by omega
      have hrest : (t + 1) % 768 = 0 := by omega
      rw [hblock, hrest, hnext, if_pos (by decide)]
      omega
    · have hblock : (t + 1) / 768 = t / 768 := by omega
      have hrest : (t + 1) % 768 = t % 768 + 1 := by omega
      have hstep := quotient_add (683 * (t % 768))
      have hmul : 683 * (t % 768) + 683 = 683 * (t % 768 + 1) := by omega
      rw [hblock, hrest, Int.mul_comm (t % 768 + 1), ← hmul, hstep]
      omega

/-- A cycle is as long as any other. -/
theorem persianNew_cycle (s q : Int) :
    persianNew (s + 2820 * q) = persianNew s + 1029983 * q := by
  have hcycle : (s + 2820 * q + 2345) / 2820 = (s + 2345) / 2820 + q := by
    omega
  have hplace : (s + 2820 * q + 2345) % 2820 = (s + 2345) % 2820 := by omega
  unfold persianNew
  rw [hcycle, hplace]
  omega

/-- The place of a day in its cycle gives its year, but for the last day of
the last year but one. -/
theorem year_of_day {e : Int} (hj : 0 ≤ j) (hj' : j < 768)
    (hday : 365 * j + 683 * (j + 1) / 2820 ≤ e)
    (hday' : e < 365 * (j + 1) + 683 * (j + 2) / 2820) :
    2820 * (e + 366) / 1029983 = j + 1 := by
  have hne : 683 * (j + 2) % 2820 ≠ 0 := by
    intro h
    omega
  omega

/-- The new year after one in the middle of a cycle. -/
theorem persianNew_block_succ {n k : Int} (hk : 0 ≤ k) (hk' : k ≤ 3)
    (hj : 0 ≤ j) (hj' : j < 768) (hin : 768 * k + j < 2819) :
    persianNew (2820 * n + 768 * k + j - 2344 + 1) =
      -629597 + 1029983 * n + 280506 * k + 365 * (j + 1) +
        683 * (j + 2) / 2820 + if 768 * k + j = 2818 then 1 else 0 := by
  rcases Int.lt_or_eq_of_le (show j ≤ 767 by omega) with hlt | rfl
  · have hnext : 2820 * n + 768 * k + j - 2344 + 1 =
        2820 * n + 768 * k + (j + 1) - 2344 := by omega
    rw [hnext, persianNew_block hk hk' (by omega) (by omega) (by omega)]
    have hplace : j + 1 + 1 = j + 2 := by omega
    rw [hplace]
    split <;> split <;> omega
  · have hnext : 2820 * n + 768 * k + 767 - 2344 + 1 =
        2820 * n + 768 * (k + 1) + 0 - 2344 := by omega
    rw [hnext, persianNew_block (by omega) (by omega) (Int.le_refl 0)
      (by decide) (by omega), if_neg (by omega), if_neg (by omega)]
    omega

/-- The year of a day, by the arithmetic of the source. -/
theorem persianYear_eq {f : Int} (hlo : persianNew s ≤ f)
    (hhi : f < persianNew (s + 1)) :
    let d1 := (f + 629597) % 1029983
    let n1 := 2820 * (d1 % 280506 + 366) / 1029983
    2820 * ((f + 629597) / 1029983) + 768 * (d1 / 280506) +
      (if d1 = 1029617 then n1 - 1 else n1) - 2345 = s := by
  obtain ⟨n, k, j, rfl, hk, hk', hj, hj', hin⟩ := exists_block s
  intro d1 n1
  have hd1 : d1 = (f + 629597) % 1029983 := rfl
  have hn1 : n1 = 2820 * (d1 % 280506 + 366) / 1029983 := rfl
  clear_value d1 n1
  rw [persianNew_block hk hk' hj hj' hin] at hlo
  by_cases hlast : 768 * k + j = 2819
  · obtain rfl : k = 3 := by omega
    obtain rfl : j = 515 := by omega
    have hnext : 2820 * n + 768 * 3 + 515 - 2344 + 1 =
        2820 * (n + 1) + 768 * 0 + 0 - 2344 := by omega
    rw [if_pos (by decide)] at hlo
    rw [hnext, persianNew_block (Int.le_refl 0) (by decide) (Int.le_refl 0)
      (by decide) (by decide), if_neg (by decide)] at hhi
    have hcycle : (f + 629597) / 1029983 = n := by omega
    have hday : d1 = f + 629597 - 1029983 * n := by omega
    have hyear : n1 = 516 := by omega
    rw [hcycle, hyear, if_neg (by omega)]
    omega
  · rw [if_neg hlast] at hlo
    rw [persianNew_block_succ hk hk' hj hj' (by omega)] at hhi
    have hcycle : (f + 629597) / 1029983 = n := by
      split at hhi <;> omega
    have hday : d1 = f + 629597 - 1029983 * n := by omega
    have hblock : d1 / 280506 = k := by
      split at hhi <;> omega
    rw [hcycle, hblock]
    by_cases hspecial : d1 = 1029617
    · have hplace : j = 514 := by
        split at hhi <;> omega
      have hyear : n1 = 516 := by omega
      rw [if_pos hspecial, hyear]
      omega
    · have hyear : n1 = j + 1 := by
        rw [hn1]
        refine year_of_day hj hj' ?_ ?_
        · omega
        · split at hhi <;> omega
      rw [if_neg hspecial, hyear]
      omega

-- == months

def persianDays (s : Int) (m : Nat) : Nat :=
  if m < 7 then 31 else if m < 12 then 30 else if persianLong s then 30 else 29

theorem persianDays_sum (s : Int) :
    ((numbered 12 (persianDays s)).map Prod.snd).sum =
      365 + if persianLong s then 1 else 0 := by
  have hsum : ((numbered 12 (persianDays s)).map Prod.snd).sum =
      31 + (31 + (31 + (31 + (31 + (31 + (30 + (30 + (30 + (30 + (30 +
        if persianLong s then 30 else 29)))))))))) := by
    simp [numbered, List.range', persianDays]
  rw [hsum]
  split <;> rfl

/-- The Persian calendar from some year on. -/
def persian (first : Int) : Reckoning Nat where
  first := first
  newYear := persianNew
  months s := numbered 12 (persianDays s)
  months_ne := fun _ => numbered_ne (Nat.succ_pos 11)
  months_pos := fun {s} _ => numbered_pos fun m _ _ => by
    unfold persianDays
    split
    · exact Nat.succ_pos _
    · split
      · exact Nat.succ_pos _
      · split <;> exact Nat.succ_pos _
  months_nodup := fun _ => numbered_nodup
  months_sum := fun {s} _ => by
    rw [persianDays_sum, persianNew_succ]
    split <;> omega

-- == the source

/-- The integers of the source can deal with a year. -/
def PersianFits (s : Int) : Prop :=
  -25252755767743679 ≤ s ∧ persianNew s ≤ 9223372036854146210

theorem persianNew_ge (hs : 1 ≤ s) : 365 * s ≤ persianNew s := by
  unfold persianNew
  omega

theorem persianLastDayOfMonth_early {y : Int} (s : Int) (h : m < 12) :
    persianLastDayOfMonth m y = .ok (persianDays s m) := by
  unfold persianLastDayOfMonth persianDays
  by_cases hearly : m < 7
  · rw [if_pos hearly, if_pos hearly]
  · rw [if_neg hearly, if_neg hearly, if_pos h, if_pos h]

theorem persianLastDayOfMonth_eq {s : Int} {m : Nat} (hm : m ≤ 12)
    (hlo : -9223372036854770000 ≤ s) (hhi : s ≤ 9223372036854770000) :
    persianLastDayOfMonth m (civil s) = .ok (persianDays s m) := by
  rcases Nat.lt_or_eq_of_le hm with hlt | rfl
  · exact persianLastDayOfMonth_early s hlt
  · have hleap : persianLeap (civil s) = .ok (persianLong s) := by
      have hyear : (if civil s ≥ 0 then civil s + 2346
          else civil s + 2347) = s + 2346 := by
        unfold civil
        split <;> split <;> omega
      unfold persianLeap
      rw [hyear, i64_of_mem (by omega) (by omega), ok_bind]
      rfl
    show (do return if ← persianLeap (civil s) then 30 else 29) = _
    rw [hleap]
    rfl

theorem before_persian (s : Int) (h : 1 ≤ m) (h' : m ≤ 12) :
    before (numbered 12 (persianDays s)) m =
      ((List.range' 1 (m - 1)).map (persianDays s)).sum := by
  obtain ⟨k, rfl⟩ : ∃ k, m = k + 1 := ⟨m - 1, by omega⟩
  rw [before_succ (by omega), firstMonths, numbered, List.map_map]
  rfl

theorem before_le (h : 1 ≤ m) (h' : m ≤ 12) :
    before (numbered 12 (persianDays s)) m ≤ 366 := by
  have hle := before_add_le
    (mem_numbered.mpr ⟨h, h', rfl⟩ : (m, persianDays s m) ∈ _) numbered_nodup
  rw [persianDays_sum] at hle
  split at hle <;> omega

theorem fixedFromPersianYear_eq (hs : 1 ≤ s)
    (hfit : persianNew s ≤ 9223372036854146210) (h : 1 ≤ m) (h' : m ≤ 12)
    (hd : d ≤ 31) : fixedFromPersianYear s m d =
      .ok (persianNew s + before (numbered 12 (persianDays s)) m +
        ((d : Int) - 1)) := by
  have hge := persianNew_ge hs
  have hepoch : persianEpoch = 226896 := by decide
  have hnew : persianNew s = 226328 + 365 * (s - 1) +
    683 * ((s + 2345) / 2820) + 186 * ((s + 2345) % 2820 / 768) +
      683 * ((s + 2345) % 2820 % 768) / 2820 := rfl
  have hbefore := before_le (s := s) h h'
  unfold fixedFromPersianYear
  rw [sumDays_eq fun k hk => persianLastDayOfMonth_early s (by
      have hmem := List.mem_range'_1.mp hk
      omega), ok_bind, ← before_persian s h h',
    i64_of_mem (by omega) (by omega), ok_bind,
    i64_of_mem (by omega) (by omega), ok_bind, hepoch,
    i64_of_mem (by omega) (by omega), ok_bind,
    i64_of_mem (by omega) (by omega), hnew]
  congr 1
  omega

/-- A year is one of the first cycle, whole cycles away. -/
theorem exists_cycle_year (s : Int) : ∃ q r : Int, s - 1 = 2820 * q + r ∧
    0 ≤ r ∧ r < 2820 ∧ persianNew s = persianNew (1 + r) + 1029983 * q := by
  obtain ⟨q, r, hq, hr, hr'⟩ : ∃ q r : Int, s - 1 = 2820 * q + r ∧ 0 ≤ r ∧
      r < 2820 := ⟨(s - 1) / 2820, (s - 1) % 2820, by omega, by omega,
    by omega⟩
  refine ⟨q, r, hq, hr, hr', ?_⟩
  rw [← persianNew_cycle]
  congr 1
  omega

/-- A year that has no place in the first cycle is one of it, whole cycles
away. -/
theorem fixedFromPersian_eq (hfit : PersianFits s) (h : 1 ≤ m) (h' : m ≤ 12)
    (hd : d ≤ 31) :
    fixedFromPersian (civil s) m d =
      .ok (persianNew s + before (numbered 12 (persianDays s)) m +
        ((d : Int) - 1)) := by
  obtain ⟨hlo, hhi⟩ := hfit
  by_cases hs : 1 ≤ s
  · have hcivil : civil s = s := if_neg (by omega)
    unfold fixedFromPersian
    rw [hcivil, if_neg (by omega)]
    exact fixedFromPersianYear_eq hs hhi h h' hd
  · have hcivil : civil s = s - 1 := if_pos (by omega)
    obtain ⟨q, r, hq, hr, hr', hcycle⟩ := exists_cycle_year s
    have hdiv : (s - 1) / 2820 = q := by omega
    have hmod : (s - 1) % 2820 = r := by omega
    have hsmall : persianNew (1 + r) ≤ 2000000 := by
      unfold persianNew
      omega
    have hlow := persianNew_ge (show 1 ≤ 1 + r by omega)
    have hbefore : before (numbered 12 (persianDays (1 + r))) m =
        before (numbered 12 (persianDays s)) m := by
      rw [before_persian _ h h', before_persian _ h h']
      congr 1
      refine List.map_congr_left fun k hk => ?_
      have hmem := List.mem_range'_1.mp hk
      have hearly : k < 12 := by omega
      exact Except.ok.inj ((persianLastDayOfMonth_early (y := 0) _
        hearly).symm.trans (persianLastDayOfMonth_early (y := 0) _ hearly))
    have hle : before (numbered 12 (persianDays s)) m ≤ 366 := before_le h h'
    unfold fixedFromPersian
    rw [hcivil, if_pos (by omega), hmod, hdiv,
      fixedFromPersianYear_eq (by omega) (by omega) h h' hd, ok_bind,
      i64_of_mem (by omega) (by omega), ok_bind, hbefore,
      i64_of_mem (by omega) (by omega), hcycle]
    congr 1
    omega

theorem persianDays_le (s : Int) (m : Nat) :
    1 ≤ persianDays s m ∧ persianDays s m ≤ 31 := by
  unfold persianDays
  split
  · omega
  · split
    · omega
    · split <;> omega

/-- The number of a date. -/
def persianNumber (s : Int) (m d : Nat) : Int :=
  persianNew s + before (numbered 12 (persianDays s)) m + ((d : Int) - 1)

theorem persianNumber_lt (h : 1 ≤ m) (h' : m ≤ 12) (hd : d ≤ persianDays s m) :
    persianNumber s m d < persianNew (s + 1) := by
  have hle := before_add_le
    (mem_numbered.mpr ⟨h, h', rfl⟩ : (m, persianDays s m) ∈ _) numbered_nodup
  rw [persianDays_sum] at hle
  rw [persianNew_succ]
  unfold persianNumber
  by_cases hlong : persianLong s
  · rw [if_pos hlong] at hle ⊢
    omega
  · rw [if_neg hlong] at hle ⊢
    omega

theorem persianNew_min (h : -25252755767743679 ≤ s) :
    -9223372036853652096 ≤ persianNew s := by
  obtain ⟨q, r, hq, hr, hr', hcycle⟩ := exists_cycle_year s
  have hmin : 226896 ≤ persianNew (1 + r) := by
    unfold persianNew
    omega
  omega

theorem PersianFits.le (h : PersianFits s) : s ≤ 9223372036854770000 := by
  by_contra hover
  have hge := persianNew_ge (s := s) (by omega)
  have hmax := h.2
  omega

theorem persianFromFixed_eq (hlow : -25252755767743679 ≤ s) (h : 1 ≤ m)
    (h' : m ≤ 12) (hd : 1 ≤ d) (hd' : d ≤ persianDays s m)
    (hmax : persianNumber s m d ≤ 9223372036854146210) :
    persianFromFixed (persianNumber s m d) = .ok (civil s, m, d) := by
  obtain ⟨f, hf⟩ : ∃ f, f = persianNumber s m d := ⟨_, rfl⟩
  have hnumber : f = persianNew s + before (numbered 12 (persianDays s)) m +
    ((d : Int) - 1) := hf
  have hhi : f < persianNew (s + 1) := hf ▸ persianNumber_lt h h' hd'
  have hfit : PersianFits s := ⟨hlow, by omega⟩
  have hle := hfit.le
  have hdays := persianDays_le s
  have hstart : fixedFromPersian (-2345) 1 1 = .ok (-629597) := by
    decide
  have hmin := persianNew_min hlow
  have hyear : persianYearFromFixed f = .ok (civil s) := by
    unfold persianYearFromFixed
    rw [hstart, ok_bind, i64_of_mem (by omega) (by omega), ok_bind]
    simp only [Int.sub_neg]
    rw [persianYear_eq (by omega) hhi]
    rfl
  have hlast : ∀ k, 1 ≤ k → k ≤ 12 → (do
      let days ← persianLastDayOfMonth k (civil s)
      fixedFromPersian (civil s) k days) =
        .ok (persianNumber s k (persianDays s k)) := by
    intro k hk hk'
    rw [persianLastDayOfMonth_eq hk' (by omega) hle, ok_bind]
    exact fixedFromPersian_eq hfit hk hk' (hdays k).2
  have hmonth := @searchMonth
    (fun k => do
      let days ← persianLastDayOfMonth k (civil s)
      fixedFromPersian (civil s) k days)
    (fun k => persianNumber s k (persianDays s k)) 1 m f h (by omega)
    (fun k hk hkm => hlast k hk (by omega))
    (fun k hk hkm => by
      have hover := @before_add_le_before _ (persianDays s) _ _ hk hkm h'
      unfold persianNumber
      omega)
    (by
      unfold persianNumber
      omega)
  simp only [bind_assoc] at hmonth
  have hfirst := fixedFromPersian_eq hfit h h' (show 1 ≤ 31 by decide)
  have hback : f - (persianNew s + before (numbered 12 (persianDays s)) m +
      ((1 : Nat) - 1 : Int)) + 1 = d := by omega
  rw [← hf]
  unfold persianFromFixed
  rw [hyear, ok_bind, hmonth, ok_bind, hfirst, ok_bind, hback,
    asU32_cast (by have := (hdays m).2; omega)]
  rfl

-- == the law

/-- A Persian date. -/
def PersianDate (y : Int) (m d : Nat) : Prop :=
  y ≠ 0 ∧ 1 ≤ m ∧ m ≤ 12 ∧ 1 ≤ d ∧
    ∃ days, persianLastDayOfMonth m y = .ok days ∧ d ≤ days

/-- The next Persian date; the year after -1 is 1. -/
inductive PersianNext : Int × Nat × Nat → Int × Nat × Nat → Prop
  | day {y : Int} {m d days : Nat} (h : persianLastDayOfMonth m y = .ok days)
      (hd : d < days) : PersianNext (y, m, d) (y, m, d + 1)
  | month {y : Int} {m d : Nat} (h : persianLastDayOfMonth m y = .ok d)
      (hm : m < 12) : PersianNext (y, m, d) (y, m + 1, 1)
  | year {y : Int} {d : Nat} (h : persianLastDayOfMonth 12 y = .ok d) :
      PersianNext (y, 12, d) (if y = -1 then 1 else y + 1, 1, 1)

theorem civil_succ (s : Int) :
    civil (s + 1) = if civil s = -1 then 1 else civil s + 1 := by
  unfold civil
  split <;> split <;> split <;> omega

/-- Every day that the integers allow is a day of the calendar. -/
theorem exists_persian {f : Int} (hlo : -9223372036853652096 ≤ f)
    (hhi : f ≤ 9223372036854146210) :
    ∃ s m d, -25252755767743679 ≤ s ∧ 1 ≤ m ∧ m ≤ 12 ∧ 1 ≤ d ∧
      d ≤ persianDays s m ∧ persianNumber s m d = f := by
  have hfirst : persianNew (-25252755767743679) = -9223372036853652096 := by
    decide
  have hnew : persianNew (-25252755767743679) ≤ f := hfirst ▸ hlo
  obtain ⟨⟨s, m, d⟩, hvalid, rfl⟩ :=
    @exists_date _ _ (persian (-25252755767743679)) f hnew
  obtain ⟨days, hmem, hle⟩ := hvalid.month
  obtain ⟨hm, hm', rfl⟩ := mem_numbered.mp hmem
  exact ⟨s, m, d, hvalid.year, hm, hm', hvalid.day, hle, rfl⟩

/-- The date of the next day. -/
theorem persian_next (hlow : -25252755767743679 ≤ s) (h : 1 ≤ m)
    (h' : m ≤ 12) (hd : 1 ≤ d) (hd' : d ≤ persianDays s m)
    (hmax : persianNumber s m d + 1 ≤ 9223372036854146210) :
    ∃ δ, persianFromFixed (persianNumber s m d + 1) = .ok δ ∧
      PersianNext (civil s, m, d) δ := by
  have hfit : PersianFits s := ⟨hlow, by
    unfold persianNumber at hmax
    omega⟩
  have hle := hfit.le
  have hdays := persianDays_le
  have hlast := @persianLastDayOfMonth_eq s m h' (by omega) hle
  rcases Nat.lt_or_eq_of_le hd' with hlt | rfl
  · have hnumber : persianNumber s m (d + 1) = persianNumber s m d + 1 := by
      unfold persianNumber
      omega
    rw [← hnumber] at hmax ⊢
    exact ⟨_, persianFromFixed_eq hlow h h' (by omega) hlt hmax,
      .day hlast hlt⟩
  · rcases Nat.lt_or_eq_of_le h' with hlt | rfl
    · have hnumber : persianNumber s (m + 1) 1 =
          persianNumber s m (persianDays s m) + 1 := by
        obtain ⟨k, rfl⟩ : ∃ k, m = k + 1 := ⟨m - 1, by omega⟩
        unfold persianNumber
        rw [before_succ (by omega), before_succ (by omega), firstMonths_succ]
        omega
      rw [← hnumber] at hmax ⊢
      exact ⟨_, persianFromFixed_eq hlow (by omega) hlt (Nat.le_refl 1)
        (hdays s (m + 1)).1 hmax, .month hlast hlt⟩
    · have hnumber : persianNumber (s + 1) 1 1 =
          persianNumber s 12 (persianDays s 12) + 1 := by
        have hsum := persianDays_sum s
        have hwhole : firstMonths (persianDays s) 12 =
            firstMonths (persianDays s) 11 + persianDays s 12 :=
          firstMonths_succ _ 11
        unfold persianNumber
        rw [before_succ (show 0 < 12 by decide), persianNew_succ,
          before_succ (show 11 < 12 by decide)]
        have hzero : firstMonths (persianDays (s + 1)) 0 = 0 := rfl
        rw [hzero]
        unfold firstMonths at hwhole ⊢
        rw [hsum] at hwhole
        by_cases hlong : persianLong s
        · rw [if_pos hlong] at hwhole ⊢
          omega
        · rw [if_neg hlong] at hwhole ⊢
          omega
      rw [← hnumber] at hmax ⊢
      refine ⟨_, persianFromFixed_eq (by omega) (Nat.le_refl 1) (by omega)
        (Nat.le_refl 1) (hdays (s + 1) 1).1 hmax, ?_⟩
      rw [civil_succ]
      exact .year hlast

/-- Day numbers as far as the integers of the source can follow them. -/
theorem persian_law (f : Int) (hlo : -9223372036853652096 ≤ f)
    (hhi : f ≤ 9223372036854146210) :
    ∃ y m d, persianFromFixed f = .ok (y, m, d) ∧ PersianDate y m d ∧
      fixedFromPersian y m d = .ok f ∧
      (f + 1 ≤ 9223372036854146210 → ∃ δ, persianFromFixed (f + 1) = .ok δ ∧
        PersianNext (y, m, d) δ) := by
  obtain ⟨s, m, d, hlow, hm, hm', hd, hd', rfl⟩ := exists_persian hlo hhi
  have hfit : PersianFits s := ⟨hlow, by
    unfold persianNumber at hhi
    omega⟩
  have hdays := (persianDays_le s m).2
  refine ⟨civil s, m, d, persianFromFixed_eq hlow hm hm' hd hd' hhi,
    ⟨?_, hm, hm', hd, persianDays s m, ?_, hd'⟩, ?_, fun hmax =>
      persian_next hlow hm hm' hd hd' hmax⟩
  · unfold civil
    split <;> omega
  · exact persianLastDayOfMonth_eq hm' (by omega) hfit.le
  · exact fixedFromPersian_eq hfit hm hm' (by omega)

theorem persian_law_eve : ∃ y m d, persianFromFixed 226895 = .ok (y, m, d) ∧
    fixedFromPersian y m d = .ok 226895 := by
  obtain ⟨y, m, d, hdate, -, hback, -⟩ :=
    persian_law 226895 (by decide) (by decide)
  exact ⟨y, m, d, hdate, hback⟩

/-- The last and the first day number of all are too far away. -/
theorem not_persian_law_far :
    (¬∃ δ, persianFromFixed 9223372036854775807 = .ok δ) ∧
      ¬∃ δ, persianFromFixed (-9223372036854775808) = .ok δ := by
  have hlast : persianFromFixed 9223372036854775807 = .error .assertion := by
    decide
  have hfirst : persianFromFixed (-9223372036854775808) =
      .error .assertion := by
    decide
  constructor
  · rintro ⟨δ, hδ⟩
    cases hlast.symm.trans hδ
  · rintro ⟨δ, hδ⟩
    cases hfirst.symm.trans hδ

end Zmax.Calendar
