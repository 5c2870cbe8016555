/-
The conversions between day numbers and the dates of six calendars.

Each calendar is a reckoning, with its years and months as its own rules
have them. What is to be shown for each is that the source computes the
number of a date and gets the date back from its number (`Faithful`);
every day has a date, so the laws for day numbers follow (`Faithful.law`).
A search for the year starts at an estimate that is not too high and stops
at the year of the day, as new years go up (`loop_up`).
-/
import Zmax.Core.Proofs.Gregorian

namespace Zmax.Calendar

open Reckoning

-- == the law

/-- The two conversions of a calendar do what its reckoning says, for every
year that the integers of the source can deal with. -/
structure Faithful (R : Reckoning Nat) (fits : Int → Prop)
    (fromFixed : Int → Result (Option (Reckoning.Date Nat)))
    (toFixed : Int → Nat → Nat → Result Int) : Prop where
  number : ∀ {δ}, R.Valid δ → fits δ.1 →
    toFixed δ.1 δ.2.1 δ.2.2 = .ok (R.number δ)
  date : ∀ {δ}, R.Valid δ → fits δ.1 →
    fromFixed (R.number δ) = .ok (some δ)

/-- From the epoch on, as long as the years fit, a day number has a valid
date, which leads back to it, and the next day has the next date. -/
def Converts (R : Reckoning Nat) (epoch : Int) (fits : Int → Prop)
    (fromFixed : Int → Result (Option (Reckoning.Date Nat)))
    (toFixed : Int → Nat → Nat → Result Int) : Prop :=
  R.newYear R.first = epoch ∧
    ∀ f, epoch ≤ f → (∀ y, R.first ≤ y → R.newYear y ≤ f → fits y) →
      ∃ δ, fromFixed f = .ok (some δ) ∧ R.Valid δ ∧
        toFixed δ.1 δ.2.1 δ.2.2 = .ok f ∧
        ((∀ y, R.first ≤ y → R.newYear y ≤ f + 1 → fits y) →
          ∃ δ', fromFixed (f + 1) = .ok (some δ') ∧ R.Next δ δ')

variable {epoch y : Int} {m d fuel : Nat}

theorem Faithful.law {R : Reckoning Nat} {fits : Int → Prop}
    {fromFixed : Int → Result (Option (Reckoning.Date Nat))}
    {toFixed : Int → Nat → Nat → Result Int}
    (h : Faithful R fits fromFixed toFixed)
    (hepoch : R.newYear R.first = epoch) :
    Converts R epoch fits fromFixed toFixed := by
  refine ⟨hepoch, fun f hf hfits => ?_⟩
  obtain ⟨δ, hvalid, rfl⟩ := exists_date (hepoch ▸ hf)
  have hfit := hfits δ.1 hvalid.year hvalid.number_mem.1
  refine ⟨δ, h.date hvalid hfit, hvalid, h.number hvalid hfit,
    fun hfits' => ?_⟩
  obtain ⟨δ', hnext, hvalid', hnumber⟩ := exists_next hvalid
  have hfit' := hfits' δ'.1 hvalid'.year (hnumber ▸ hvalid'.number_mem.1)
  exact ⟨δ', hnumber ▸ h.date hvalid' hfit', hnext⟩

-- == julian

/-- How long the months of a Julian year are. -/
def julianDays (y : Int) (m : Nat) : Nat :=
  if m = 2 then if y % 4 = 0 then 29 else 28 else daysInMonth y m

theorem julianDays_pos (y : Int) (m : Nat) : 0 < julianDays y m := by
  unfold julianDays
  split
  · split <;> exact Nat.succ_pos _
  · exact daysInMonth_pos y m

theorem julianDays_sum (y : Int) :
    ((numbered 12 (julianDays y)).map Prod.snd).sum =
      31 + ((if y % 4 = 0 then 29 else 28) + 306) := by
  simp [numbered, List.range', julianDays, daysInMonth]

/-- The Julian calendar from its year 1 on. -/
def julian : Reckoning Nat where
  first := 1
  newYear y := -1 + 365 * (y - 1) + (y - 1) / 4
  months y := numbered 12 (julianDays y)
  months_ne := fun _ => numbered_ne (Nat.succ_pos 11)
  months_pos := fun {y} _ => numbered_pos fun m _ _ => julianDays_pos y m
  months_nodup := fun _ => numbered_nodup
  months_sum := fun {y} _ => by
    rw [julianDays_sum]
    split <;> omega

theorem before_julian (h : 1 ≤ m) (h' : m ≤ 12) :
    (before (numbered 12 (julianDays y)) m : Int) =
      (367 * m - 362) / 12 +
        (if m ≤ 2 then 0 else if y % 4 = 0 then -1 else -2) := by
  have hstep : ∀ m, 1 ≤ m → m ≤ 12 →
      ((367 * (m + 1) - 362) / 12 - (if m + 1 ≤ 2 then 0
        else if y % 4 = 0 then 1 else 2) : Nat) =
      ((367 * m - 362) / 12 - (if m ≤ 2 then 0
        else if y % 4 = 0 then 1 else 2)) + julianDays y m := by
    intro m h h'
    unfold julianDays
    interval_cases m <;> simp [daysInMonth] <;> split <;> rfl
  rw [@before_numbered 12 (julianDays y) (fun m => (367 * m - 362) / 12 -
    (if m ≤ 2 then 0 else if y % 4 = 0 then 1 else 2)) rfl hstep m h h']
  split_ifs <;> omega

theorem julianLeap_eq (hy : 1 ≤ y) : julianLeap y = decide (y % 4 = 0) := by
  rw [julianLeap, if_pos (show y > 0 by omega)]

theorem fixedFromJulian_eq (hy : 1 ≤ y) (h : 1 ≤ m) (h' : m ≤ 12) (d : Nat) :
    fixedFromJulian y m d = julian.number (y, m, d) := by
  have hbefore := before_julian (y := y) h h'
  unfold fixedFromJulian number julian julianEpoch
  simp only [hbefore, julianLeap_eq hy, decide_eq_true_eq]
  rw [if_neg (show ¬ y < 0 by omega)]
  omega

theorem julianDays_eq (h : 1 ≤ m) (h' : m ≤ 12) :
    (julianDays y m : Int) =
      (367 * (m + 1) - 362) / 12 - (367 * m - 362) / 12 -
        if m = 2 then (if y % 4 = 0 then 1 else 2) else 0 := by
  interval_cases m <;> simp [julianDays, daysInMonth]
  split <;> omega

/-- The date of a number in a year that fits. -/
theorem julianFromFixed_eq (hy : 1 ≤ y) (hfit : InI32 y) (h : 1 ≤ m)
    (h' : m ≤ 12) (hd : 1 ≤ d) (hd' : d ≤ julianDays y m) :
    julianFromFixed (julian.number (y, m, d)) = .ok (y, m, d) := by
  obtain ⟨-, hmax⟩ := hfit
  have hdays := julianDays_eq (y := y) h h'
  have hbefore := before_julian (y := y) h h'
  obtain ⟨f, hf⟩ : ∃ f, f = julian.number (y, m, d) := ⟨_, rfl⟩
  have hfirst : ∀ k : Nat, 1 ≤ k → k ≤ 12 → fixedFromJulian y k 1 =
      -1 + 365 * (y - 1) + (y - 1) / 4 + ((367 * k - 362) / 12 +
        (if k ≤ 2 then 0 else if y % 4 = 0 then -1 else -2)) := by
    intro k hk hk'
    have hbefore' := before_julian (y := y) hk hk'
    rw [fixedFromJulian_eq hy hk hk']
    show -1 + 365 * (y - 1) + (y - 1) / 4 +
      (before (numbered 12 (julianDays y)) k : Int) + (1 - 1) = _
    rw [hbefore']
    omega
  have hnumber : f = -1 + 365 * (y - 1) + (y - 1) / 4 +
      ((367 * m - 362) / 12 +
        (if m ≤ 2 then 0 else if y % 4 = 0 then -1 else -2)) + (d - 1) := by
    rw [hf]
    show -1 + 365 * (y - 1) + (y - 1) / 4 +
      (before (numbered 12 (julianDays y)) m : Int) + (d - 1) = _
    rw [hbefore]
  rw [← hf]
  clear hf hbefore
  have hdoy : 0 ≤ f - (-1 + 365 * (y - 1) + (y - 1) / 4) ∧
      f - (-1 + 365 * (y - 1) + (y - 1) / 4) <
        365 + (if y % 4 = 0 then 1 else 0) := by
    split at hnumber <;> split at hdays <;> split <;> omega
  have hyear : (4 * (f - julianEpoch) + 1464) / 1461 = y := by
    unfold julianEpoch
    split at hdoy <;> omega
  have hquarters : 0 ≤ 4 * (f - julianEpoch) ∧
      4 * (f - julianEpoch) ≤ 9223372036854774343 := by
    unfold julianEpoch
    split at hdoy <;> omega
  have hcorrection : (if f < fixedFromJulian y 3 1 then 0
      else if julianLeap y then 1 else 2 : Int) =
      if m ≤ 2 then 0 else if y % 4 = 0 then 1 else 2 := by
    have hmarch : f < fixedFromJulian y 3 1 ↔ m ≤ 2 := by
      rw [hfirst 3 (by omega) (by omega)]
      split at hnumber <;> split at hdays <;> split <;> omega
    simp only [hmarch, julianLeap_eq hy, decide_eq_true_eq]
  have hmonth : (12 * (f - fixedFromJulian y 1 1 +
      if m ≤ 2 then 0 else if y % 4 = 0 then 1 else 2) + 373) / 367 = m := by
    rw [hfirst 1 (by omega) (by omega)]
    split at hnumber <;> split at hdays <;> omega
  unfold julianFromFixed
  rw [i64_of_mem (by omega) (by omega), ok_bind,
    i64_of_mem (by omega) (by omega), ok_bind]
  simp only [hyear, if_neg (show ¬ y ≤ 0 by omega),
    asI32_of_mem (show InI32 y from ⟨by omega, hmax⟩), hcorrection]
  rw [i64_of_mem (by omega) (by omega), ok_bind,
    i64_of_mem (by omega) (by omega), ok_bind]
  have hday : f - fixedFromJulian y m 1 + 1 = d := by
    rw [hfirst m h h']
    omega
  have hlong : d ≤ 31 := by
    split at hdays <;> omega
  simp only [hmonth, asU32_cast (show m < 4294967296 by omega), hday,
    asU32_cast (show d < 4294967296 by omega)]
  rfl
theorem julian_faithful : Faithful julian InI32
    (fun f => (julianFromFixed f).map some)
    (fun y m d => .ok (fixedFromJulian y m d)) where
  number := fun {δ} h _ => by
    obtain ⟨days, hmem, -⟩ := h.month
    obtain ⟨hm, hm', -⟩ := mem_numbered.mp hmem
    exact congrArg Except.ok (fixedFromJulian_eq h.year hm hm' _)
  date := fun {δ} h hfit => by
    obtain ⟨days, hmem, hle⟩ := h.month
    obtain ⟨hm, hm', rfl⟩ := mem_numbered.mp hmem
    show (julianFromFixed (julian.number (δ.1, δ.2.1, δ.2.2))).map some = _
    rw [julianFromFixed_eq h.year hfit hm hm' h.day hle]
    rfl

-- == coptic and ethiopic

/-- Twelve months of thirty days, and some days at the end. -/
def thirtyDays (rest m : Nat) : Nat := if m < 13 then 30 else rest

/-- The running total of these months. -/
def thirties (rest m : Nat) : Nat :=
  if m ≤ 13 then 30 * (m - 1) else 360 + rest

theorem thirties_succ (rest : Nat) (h : 1 ≤ m) (h' : m ≤ 13) :
    thirties rest (m + 1) = thirties rest m + thirtyDays rest m := by
  unfold thirties thirtyDays
  rcases Nat.lt_or_eq_of_le h' with hlt | rfl
  · rw [if_pos (show m + 1 ≤ 13 from hlt), if_pos h', if_pos hlt]
    omega
  · rfl

theorem before_thirtyDays {rest : Nat} (h : 1 ≤ m) (h' : m ≤ 13) :
    before (numbered 13 (thirtyDays rest)) m = 30 * (m - 1) := by
  rw [before_numbered (show thirties rest 1 = 0 from rfl)
    (fun _ => thirties_succ rest) h h', thirties, if_pos h']

theorem thirtyDays_sum (rest : Nat) :
    ((numbered 13 (thirtyDays rest)).map Prod.snd).sum = 360 + rest :=
  firstMonths_eq (show thirties rest 1 = 0 from rfl)
    fun _ => thirties_succ rest

theorem thirtyDays_pos {rest : Nat} (hrest : 0 < rest) (m : Nat) :
    0 < thirtyDays rest m := by
  unfold thirtyDays
  split
  · exact Nat.succ_pos _
  · exact hrest

/-- The days at the end of a Coptic year. -/
def copticRest (y : Int) : Nat := if y % 4 = 3 then 6 else 5

theorem copticRest_pos (y : Int) : 0 < copticRest y := by
  unfold copticRest
  split <;> exact Nat.succ_pos _

/-- The Coptic calendar, with its epoch or another one. -/
def copticLike (epoch : Int) : Reckoning Nat where
  first := 1
  newYear y := epoch + 365 * (y - 1) + y / 4
  months y := numbered 13 (thirtyDays (copticRest y))
  months_ne := fun _ => numbered_ne (Nat.succ_pos 12)
  months_pos := fun {y} _ => numbered_pos fun m _ _ =>
    thirtyDays_pos (copticRest_pos y) m
  months_nodup := fun _ => numbered_nodup
  months_sum := fun {y} _ => by
    rw [thirtyDays_sum, copticRest]
    split <;> omega

theorem copticLikeToFixed_eq (h : 1 ≤ m) (h' : m ≤ 13) (d : Nat) :
    copticLikeToFixed epoch y m d = (copticLike epoch).number (y, m, d) := by
  show _ = epoch + 365 * (y - 1) + y / 4 +
    (before (numbered 13 (thirtyDays (copticRest y))) m : Int) + (d - 1)
  rw [before_thirtyDays h h']
  unfold copticLikeToFixed
  omega

theorem copticLikeFromFixed_eq (hy : 1 ≤ y) (hfit : InI32 y) (h : 1 ≤ m)
    (h' : m ≤ 13) (hd : 1 ≤ d) (hd' : d ≤ thirtyDays (copticRest y) m) :
    copticLikeFromFixed epoch ((copticLike epoch).number (y, m, d)) =
      .ok (y, m, d) := by
  obtain ⟨-, hmax⟩ := hfit
  rw [← copticLikeToFixed_eq h h']
  obtain ⟨f, hf⟩ : ∃ f, f = copticLikeToFixed epoch y m d := ⟨_, rfl⟩
  rw [← hf]
  have hdays : d ≤ 30 ∧ (m = 13 → d ≤ if y % 4 = 3 then 6 else 5) := by
    unfold thirtyDays copticRest at hd'
    split at hd'
    · exact ⟨hd', fun heq => by omega⟩
    · exact ⟨by split at hd' <;> omega, fun _ => hd'⟩
  unfold copticLikeToFixed at hf
  have hyear : (4 * (f - epoch) + 1463) / 1461 = y := by
    split at hdays <;> omega
  have hmonth : 1 + (f - copticLikeToFixed epoch y 1 1) / 30 = m := by
    unfold copticLikeToFixed
    omega
  have hday : f + 1 - copticLikeToFixed epoch y m 1 = d := by
    unfold copticLikeToFixed
    omega
  unfold copticLikeFromFixed
  rw [i64_of_mem (by omega) (by omega), ok_bind,
    i64_of_mem (by omega) (by omega), ok_bind]
  simp only [hyear, asI32_of_mem (show InI32 y from ⟨by omega, hmax⟩), hmonth,
    asU32_cast (show m < 4294967296 by omega), hday,
    asU32_cast (show d < 4294967296 by omega)]
  rfl

theorem copticLike_faithful (epoch : Int) :
    Faithful (copticLike epoch) InI32
      (fun f => (copticLikeFromFixed epoch f).map some)
      (fun y m d => .ok (copticLikeToFixed epoch y m d)) where
  number := fun {δ} h _ => by
    obtain ⟨days, hmem, -⟩ := h.month
    obtain ⟨hm, hm', -⟩ := mem_numbered.mp hmem
    exact congrArg Except.ok (copticLikeToFixed_eq hm hm' _)
  date := fun {δ} h hfit => by
    obtain ⟨days, hmem, hle⟩ := h.month
    obtain ⟨hm, hm', rfl⟩ := mem_numbered.mp hmem
    show (copticLikeFromFixed epoch
      ((copticLike epoch).number (δ.1, δ.2.1, δ.2.2))).map some = _
    rw [copticLikeFromFixed_eq h.year hfit hm hm' h.day hle]
    rfl

-- == searches

/-- Counting up to the first number that the condition does not hold of. -/
theorem loop_up {cond : Int → Result Bool} {a b : Int} (hab : a ≤ b)
    (hmore : ∀ x, a ≤ x → x < b → cond x = .ok true)
    (hstop : cond b = .ok false) (hfuel : b - a < fuel) :
    loop cond (· + 1) fuel a = .ok b := by
  induction fuel generalizing a with
  | zero => omega
  | succ fuel ih =>
      rw [loop]
      rcases Int.lt_or_eq_of_le hab with hlt | rfl
      · rw [hmore a (Int.le_refl a) hlt]
        exact ih hlt (fun x hx => hmore x (by omega)) (by omega)
      · rw [hstop]
        rfl

theorem loop_up_nat {cond : Nat → Result Bool} {a b : Nat} (hab : a ≤ b)
    (hmore : ∀ x, a ≤ x → x < b → cond x = .ok true)
    (hstop : cond b = .ok false) (hfuel : b - a < fuel) :
    loop cond (· + 1) fuel a = .ok b := by
  induction fuel generalizing a with
  | zero => omega
  | succ fuel ih =>
      rw [loop]
      rcases Nat.lt_or_eq_of_le hab with hlt | rfl
      · rw [hmore a (Nat.le_refl a) hlt]
        exact ih hlt (fun x hx => hmore x (by omega)) (by omega)
      · rw [hstop]
        rfl

/-- The search for the year of a day, from an estimate that is not too
high. -/
theorem searchYear {R : Reckoning Nat} {newYear : Int → Result Int}
    {a y f : Int} (ha : R.first ≤ a + 1) (hay : a ≤ y) (hy : R.first ≤ y)
    (hf : R.newYear y ≤ f ∧ f < R.newYear (y + 1))
    (hnew : ∀ x, R.first ≤ x → x ≤ y + 1 → newYear x = .ok (R.newYear x))
    (hmin : -9223372036854775808 ≤ a) (hmax : y < 9223372036854775807) :
    loop (fun year => do
      let next ← i64 (year + 1)
      let first ← newYear next
      return decide (f ≥ first)) (· + 1) turns64 a = .ok y := by
  refine loop_up hay (fun x hx hxy => ?_) ?_ (by unfold turns64; omega)
  · rw [i64_of_mem (by omega) (by omega), ok_bind,
      hnew (x + 1) (by omega) (by omega), ok_bind]
    have hmono := newYear_mono (R := R) (y := x + 1) (by omega)
      (show x + 1 ≤ y by omega)
    exact congrArg Except.ok (decide_eq_true (by omega))
  · rw [i64_of_mem (by omega) (by omega), ok_bind,
      hnew (y + 1) (by omega) (Int.le_refl _), ok_bind]
    exact congrArg Except.ok (decide_eq_false (by omega))

/-- The search for the month of a day, from a month that is not behind
it. -/
theorem searchMonth {last : Nat → Result Int} {lastDay : Nat → Int}
    {a m : Nat} {f : Int} (ha : a ≤ m) (hm : m < 4294967296)
    (hlast : ∀ k, a ≤ k → k ≤ m → last k = .ok (lastDay k))
    (hbefore : ∀ k, a ≤ k → k < m → lastDay k < f) (hf : f ≤ lastDay m) :
    loop (fun month => do
      let last ← last month
      return decide (f > last)) (· + 1) turns32 a = .ok m := by
  refine loop_up_nat ha (fun k hk hkm => ?_) ?_ (by unfold turns32; omega)
  · rw [hlast k hk (Nat.le_of_lt hkm), ok_bind]
    exact congrArg Except.ok (decide_eq_true (hbefore k hk hkm))
  · rw [hlast m ha (Nat.le_refl m), ok_bind]
    exact congrArg Except.ok (decide_eq_false (by omega))

/-- Days added up over some months. -/
theorem sumDays_eq {last : Nat → Result Nat} {length : Nat → Nat}
    {ms : List Nat} (h : ∀ m ∈ ms, last m = .ok (length m)) (total : Int) :
    ms.foldlM (fun (total : Int) m => do
      let days ← last m
      return total + days) total = .ok (total + (ms.map length).sum) := by
  induction ms generalizing total with
  | nil => exact congrArg Except.ok (Int.add_zero total).symm
  | cons m ms ih =>
      rw [List.foldlM_cons, h m List.mem_cons_self, ok_bind]
      show List.foldlM _ (total + (length m : Int)) ms = _
      rw [ih fun k hk => h k (List.mem_cons_of_mem m hk), List.map_cons,
        List.sum_cons]
      congr 1
      omega

/-- The integers of the source can deal with the next new year. -/
def NextFits (R : Reckoning Nat) (y : Int) : Prop :=
  R.newYear (y + 1) < 9223372036854775807

/-- What a calendar with numbered months gets by its two searches, if it
computes the numbers of dates that fit. -/
theorem searchDate {R : Reckoning Nat} {n : Nat} {length : Int → Nat → Nat}
    {toFixed : Int → Nat → Nat → Result Int}
    (hmonths : ∀ y, R.months y = numbered n (length y)) (hn : n < 4294967295)
    (hto : ∀ {y m d}, R.Valid (y, m, d) →
      R.number (y, m, d) < 9223372036854775807 →
      toFixed y m d = .ok (R.number (y, m, d)))
    {a : Int} (hvalid : R.Valid (y, m, d)) (hfit : NextFits R y)
    (ha : R.first ≤ a + 1) (hay : a ≤ y) (hmin : -9223372036854775808 ≤ a)
    (hmax : y < 9223372036854775807) (hd : d < 4294967296) :
    (do
      let year ← loop (fun year => do
        let next ← i64 (year + 1)
        let newYear ← toFixed next 1 1
        return decide (R.number (y, m, d) ≥ newYear)) (· + 1) turns64 a
      let month ← loop (fun month => do
        let last ← toFixed year month (length year month)
        return decide (R.number (y, m, d) > last)) (· + 1) turns32 1
      let first ← toFixed year month 1
      return some (year, month, asU32 (R.number (y, m, d) - first + 1))) =
      (.ok (some (y, m, d)) : Result (Option (Int × Nat × Nat))) := by
  obtain ⟨days, hmem, hle⟩ := hvalid.month
  have hyear : R.first ≤ y := hvalid.year
  have hday : 1 ≤ d := hvalid.day
  simp only [hmonths] at hmem hle
  obtain ⟨hm, hm', rfl⟩ := mem_numbered.mp hmem
  unfold NextFits at hfit
  have hdate : ∀ {x k e}, R.first ≤ x → x ≤ y + 1 → 1 ≤ k → k ≤ n → 1 ≤ e →
      e ≤ length x k → R.Valid (x, k, e) := by
    intro x k e hx _ hk hk' he he'
    refine ⟨hx, ⟨length x k, ?_, he'⟩, he⟩
    simp only [hmonths]
    exact mem_numbered.mpr ⟨hk, hk', rfl⟩
  have hpos : ∀ {x k}, R.first ≤ x → 1 ≤ k → k ≤ n → 1 ≤ length x k := by
    intro x k hx hk hk'
    have hmem := R.months_pos hx (k, length x k)
    rw [hmonths] at hmem
    exact hmem (mem_numbered.mpr ⟨hk, hk', rfl⟩)
  have hin := hvalid.number_mem
  have hnew : ∀ x, R.first ≤ x → x ≤ y + 1 →
      toFixed x 1 1 = .ok (R.newYear x) := by
    intro x hx hxy
    have hfirst : R.number (x, 1, 1) = R.newYear x := by
      show R.newYear x + (before (R.months x) 1 : Int) + 0 = R.newYear x
      rw [hmonths, before_succ (by omega : 0 < n)]
      show R.newYear x + 0 + 0 = R.newYear x
      omega
    have hmono := newYear_mono (R := R) hx hxy
    rw [← hfirst]
    refine hto (hdate hx hxy (Nat.le_refl 1) (by omega) (Nat.le_refl 1)
      (hpos hx (Nat.le_refl 1) (by omega))) ?_
    omega
  have hthis : ∀ {k e}, 1 ≤ k → k ≤ n → 1 ≤ e → e ≤ length y k →
      toFixed y k e = .ok (R.number (y, k, e)) := by
    intro k e hk hk' he he'
    have hv := hdate hyear (by omega) hk hk' he he'
    have hlt := hv.number_mem.2
    exact hto hv (Int.lt_trans hlt hfit)
  have hbefore : ∀ k e : Nat, R.number (y, k, e) =
      R.newYear y + before (numbered n (length y)) k + (e - 1) := by
    intro k e
    rw [← hmonths]
    rfl
  rw [searchYear ha hay hyear hin hnew hmin hmax, ok_bind,
    @searchMonth _ (fun k => R.number (y, k, length y k)) _ _ _ hm (by omega)
      (fun k hk hk' => hthis hk (by omega) (hpos hyear hk (by omega))
        (Nat.le_refl _)) ?_ ?_, ok_bind,
    hthis hm hm' (Nat.le_refl 1) (hpos hyear hm hm'), ok_bind]
  · have hback : R.number (y, m, d) - R.number (y, m, 1) + 1 = d := by
      rw [hbefore, hbefore]
      omega
    rw [hback, asU32_cast hd]
    rfl
  · intro k hk hkm
    have hover := @before_add_le_before _ (length y) _ _ hk hkm hm'
    have hlen := hpos hyear hk (by omega : k ≤ n)
    simp only [hbefore]
    omega
  · simp only [hbefore]
    omega

-- == islamic

theorem islamicLeap_eq (y : Int) :
    islamicLeap y = decide (19 ≤ (3 + 11 * y) % 30) := by
  unfold islamicLeap
  have hr : (3 + 11 * y) % 30 = (3 + 11 * (y % 30)) % 30 := by omega
  rw [hr]
  have hlo : 0 ≤ y % 30 := by omega
  have hhi : y % 30 < 30 := by omega
  generalize y % 30 = r at hlo hhi
  interval_cases r <;> decide

/-- The days in front of a month, which are also those up to the end of the
year. -/
def islamicBefore (y : Int) (m : Nat) : Nat :=
  29 * (m - 1) + m / 2 + if m = 13 ∧ islamicLeap y then 1 else 0

theorem islamicBefore_succ (y : Int) (h : 1 ≤ m) (h' : m ≤ 12) :
    islamicBefore y (m + 1) =
      islamicBefore y m + islamicLastDayOfMonth m y := by
  unfold islamicBefore islamicLastDayOfMonth
  rw [if_neg (show ¬ (m = 13 ∧ _) from fun heq => by omega)]
  rcases Nat.lt_or_eq_of_le h' with hlt | rfl
  · rw [if_neg (fun heq => by omega)]
    split <;> omega
  · cases hleap : islamicLeap y <;> rfl

/-- The Islamic calendar. -/
def islamic : Reckoning Nat where
  first := 1
  newYear y := 227015 + 354 * (y - 1) + (3 + 11 * y) / 30
  months y := numbered 12 fun m => islamicLastDayOfMonth m y
  months_ne := fun _ => numbered_ne (Nat.succ_pos 11)
  months_pos := fun {y} _ => numbered_pos fun m _ _ => by
    unfold islamicLastDayOfMonth
    split <;> exact Nat.succ_pos _
  months_nodup := fun _ => numbered_nodup
  months_sum := fun {y} _ => by
    have hsum : ((numbered 12 fun m => islamicLastDayOfMonth m y).map
        Prod.snd).sum = islamicBefore y 13 :=
      firstMonths_eq (show islamicBefore y 1 = 0 from rfl)
        fun _ => islamicBefore_succ y
    rw [hsum]
    unfold islamicBefore
    rw [islamicLeap_eq]
    simp only [true_and, decide_eq_true_eq]
    split <;> omega

theorem number_islamic (h : 1 ≤ m) (h' : m ≤ 12) (d : Nat) :
    islamic.number (y, m, d) =
      227015 + 354 * (y - 1) + (3 + 11 * y) / 30 +
        (29 * (m - 1) + m / 2) + (d - 1) := by
  show 227015 + 354 * (y - 1) + (3 + 11 * y) / 30 +
    (before (numbered 12 fun m => islamicLastDayOfMonth m y) m : Int) +
      (d - 1) = _
  rw [before_numbered (show islamicBefore y 1 = 0 from rfl)
    (fun _ => islamicBefore_succ y) h h', islamicBefore,
    if_neg (fun heq => by omega)]
  omega

theorem fixedFromIslamic_eq (hy : 1 ≤ y) (h : 1 ≤ m) (h' : m ≤ 12)
    (hd : 1 ≤ d) (hfit : islamic.number (y, m, d) < 9223372036854775807) :
    fixedFromIslamic y m d = .ok (islamic.number (y, m, d)) := by
  have hepoch : islamicEpoch = 227015 := by decide
  rw [number_islamic h h'] at hfit ⊢
  unfold fixedFromIslamic islamicDayNumber
  rw [i64_of_mem (by omega) (by omega), ok_bind,
    i64_of_mem (by omega) (by omega), ok_bind,
    i64_of_mem (by omega) (by omega), ok_bind,
    i64_of_mem (by omega) (by omega), ok_bind,
    i64_of_mem (by omega) (by omega), ok_bind,
    tdiv_of_nonneg (by omega), hepoch,
    i64_of_mem (by omega) (by omega), ok_bind,
    i64_of_mem (by omega) (by omega), ok_bind,
    i64_of_mem (by omega) (by omega)]
  congr 1
  omega

theorem islamicFromFixed_eq (hvalid : islamic.Valid (y, m, d))
    (hfit : NextFits islamic y) :
    islamicFromFixed (islamic.number (y, m, d)) = .ok (some (y, m, d)) := by
  have hepoch : islamicEpoch = 227015 := by decide
  have hyear : 1 ≤ y := hvalid.year
  obtain ⟨hlo, hhi⟩ := hvalid.number_mem
  have hstart : 227015 + 354 * (y - 1) + (3 + 11 * y) / 30 ≤
      islamic.number (y, m, d) := hlo
  have hstop : islamic.number (y, m, d) <
      227015 + 354 * (y + 1 - 1) + (3 + 11 * (y + 1)) / 30 := hhi
  have hnext : 227015 + 354 * (y + 1 - 1) + (3 + 11 * (y + 1)) / 30 <
      9223372036854775807 := hfit
  obtain ⟨days, hmem, hle⟩ := hvalid.month
  obtain ⟨-, -, hdays⟩ := mem_numbered.mp hmem
  have hd : d ≤ 30 := by
    have hle' : d ≤ days := hle
    unfold islamicLastDayOfMonth at hdays
    split at hdays <;> omega
  unfold islamicFromFixed
  rw [if_neg (by omega), hepoch]
  refine searchDate (fun _ => rfl) (by omega) (fun {x k e} hv hlt => ?_)
    hvalid hfit ?_ ?_ ?_ ?_ ?_
  · obtain ⟨days, hmem, -⟩ := hv.month
    obtain ⟨hk, hk', -⟩ := mem_numbered.mp hmem
    exact fixedFromIslamic_eq hv.year hk hk' hv.day hlt
  · show 1 ≤ _
    omega
  all_goals omega

theorem islamic_faithful : Faithful islamic (NextFits islamic)
    islamicFromFixed fixedFromIslamic where
  number := fun {δ} h hfit => by
    obtain ⟨days, hmem, -⟩ := h.month
    obtain ⟨hm, hm', -⟩ := mem_numbered.mp hmem
    exact fixedFromIslamic_eq h.year hm hm' h.day
      (Int.lt_trans h.number_mem.2 hfit)
  date := fun h hfit => islamicFromFixed_eq h hfit

-- == french revolutionary

/-- Leap years up to the twentieth, and after it those that are to come
according to the rule. -/
def frenchLeaps (y : Int) : Int :=
  if y < 20 then y / 4
  else (y - 1) / 4 - (y - 1) / 100 + (y - 1) / 400 - (y - 1) / 4000

theorem frenchLeap_late (hy : 20 < y) : frenchLeap y =
    decide (y % 4 = 0 ∧ (y % 100 ≠ 0 ∨ y % 400 = 0) ∧ y % 4000 ≠ 0) := by
  have htmod : ∀ k, y.tmod k = y % k := fun k =>
    Int.tmod_eq_emod_of_nonneg (by omega)
  unfold frenchLeap
  simp only [htmod, List.mem_cons, List.not_mem_nil, or_false]
  rw [Bool.eq_iff_iff, decide_eq_true_iff, decide_eq_true_iff]
  omega

/-- A quotient goes up at the multiples of the divisor. -/
theorem quotient_succ {k : Int} (hk : 0 < k) :
    (y + 1 - 1) / k = (y - 1) / k + if y % k = 0 then 1 else 0 := by
  have hdiv := Int.mul_ediv_add_emod y k
  have hlo := Int.emod_nonneg y (Int.ne_of_gt hk)
  have hhi := Int.emod_lt_of_pos y hk
  rw [Int.add_sub_cancel]
  split
  · next hzero =>
    have hpred : y - 1 = k - 1 + k * (y / k - 1) := by
      rw [Int.mul_sub, Int.mul_one]
      omega
    rw [hpred, Int.add_mul_ediv_left _ _ (Int.ne_of_gt hk),
      Int.ediv_eq_zero_of_lt (show 0 ≤ k - 1 by omega) (by omega)]
    omega
  · next hpos =>
    have hpred : y - 1 = y % k - 1 + k * (y / k) := by omega
    rw [hpred, Int.add_mul_ediv_left _ _ (Int.ne_of_gt hk),
      Int.ediv_eq_zero_of_lt (show 0 ≤ y % k - 1 by omega) (by omega)]
    omega

/-- One more leap day after a leap year. -/
theorem frenchLeap_eq (hy : 1 ≤ y) :
    frenchLeaps (y + 1) = frenchLeaps y + if frenchLeap y then 1 else 0 := by
  by_cases hlate : 20 < y
  · rw [frenchLeap_late hlate, frenchLeaps, frenchLeaps,
      if_neg (by omega), if_neg (by omega), quotient_succ (by omega),
      quotient_succ (by omega), quotient_succ (by omega),
      quotient_succ (by omega)]
    have hcentury : y % 100 = 0 → y % 4 = 0 := by omega
    have hfour : y % 400 = 0 → y % 100 = 0 := by omega
    have hmany : y % 4000 = 0 → y % 400 = 0 := by omega
    simp only [decide_eq_true_eq]
    clear hlate
    generalize y % 4 = r₁ at *
    generalize y % 100 = r₂ at *
    generalize y % 400 = r₃ at *
    generalize y % 4000 = r₄ at *
    split_ifs <;> omega
  · have hearly : y ≤ 20 := by omega
    interval_cases y <;> decide

/-- The days at the end of a year. -/
def frenchRest (y : Int) : Nat := if frenchLeap y then 6 else 5

/-- The French Revolutionary calendar. -/
def french : Reckoning Nat where
  first := 1
  newYear y := 654415 + 365 * (y - 1) + frenchLeaps y
  months y := numbered 13 (thirtyDays (frenchRest y))
  months_ne := fun _ => numbered_ne (Nat.succ_pos 12)
  months_pos := fun {y} _ => numbered_pos fun m _ _ =>
    thirtyDays_pos (by unfold frenchRest; split <;> exact Nat.succ_pos _) m
  months_nodup := fun _ => numbered_nodup
  months_sum := fun {y} hy => by
    have hleaps := frenchLeap_eq hy
    rw [thirtyDays_sum, hleaps, frenchRest]
    split <;> omega

theorem frenchLeaps_mem (hy : 1 ≤ y) :
    0 ≤ frenchLeaps y ∧ frenchLeaps y ≤ y := by
  unfold frenchLeaps
  split <;> omega

theorem number_french (h : 1 ≤ m) (h' : m ≤ 13) (d : Nat) :
    french.number (y, m, d) =
      654415 + 365 * (y - 1) + frenchLeaps y + 30 * (m - 1) + (d - 1) := by
  show 654415 + 365 * (y - 1) + frenchLeaps y +
    (before (numbered 13 (thirtyDays (frenchRest y))) m : Int) + (d - 1) = _
  rw [before_thirtyDays h h']
  omega

theorem frenchEpoch_eq : frenchEpoch = 654415 := by decide

theorem fixedFromFrench_eq (hy : 1 ≤ y) (h : 1 ≤ m) (h' : m ≤ 13)
    (hd : 1 ≤ d) (hfit : french.number (y, m, d) < 9223372036854775807) :
    fixedFromFrench y m d = .ok (french.number (y, m, d)) := by
  obtain ⟨hlo, hhi⟩ := frenchLeaps_mem hy
  have hleaps : (if y < 20 then y.tdiv 4
      else (y - 1).tdiv 4 - (y - 1).tdiv 100 + (y - 1).tdiv 400 -
        (y - 1).tdiv 4000) = frenchLeaps y := by
    have htdiv : ∀ k, (y - 1).tdiv k = (y - 1) / k := fun k =>
      tdiv_of_nonneg (by omega)
    rw [tdiv_of_nonneg (show 0 ≤ y by omega)]
    simp only [htdiv]
    rfl
  rw [number_french h h'] at hfit ⊢
  unfold fixedFromFrench
  rw [i64_of_mem (by omega) (by omega), ok_bind,
    i64_of_mem (by omega) (by omega), ok_bind, hleaps,
    i64_of_mem (by omega) (by omega), ok_bind,
    i64_of_mem (by omega) (by omega), ok_bind,
    i64_of_mem (by omega) (by omega), ok_bind, frenchEpoch_eq,
    i64_of_mem (by omega) (by omega), ok_bind,
    i64_of_mem (by omega) (by omega)]
  congr 1
  omega

theorem frenchFromFixed_eq (hvalid : french.Valid (y, m, d))
    (hfit : NextFits french y) :
    frenchFromFixed (french.number (y, m, d)) = .ok (some (y, m, d)) := by
  have hyear : 1 ≤ y := hvalid.year
  obtain ⟨hlo, hhi⟩ := hvalid.number_mem
  have hstart : 654415 + 365 * (y - 1) + frenchLeaps y ≤
      french.number (y, m, d) := hlo
  have hstop : french.number (y, m, d) <
      654415 + 365 * (y + 1 - 1) + frenchLeaps (y + 1) := hhi
  have hnext : 654415 + 365 * (y + 1 - 1) + frenchLeaps (y + 1) <
      9223372036854775807 := hfit
  have hleaps := frenchLeaps_mem hyear
  have hleaps' := frenchLeaps_mem (show 1 ≤ y + 1 by omega)
  obtain ⟨days, hmem, hle⟩ := hvalid.month
  obtain ⟨-, -, hdays⟩ := mem_numbered.mp hmem
  have hd : d ≤ 30 := by
    have hle' : d ≤ days := hle
    unfold thirtyDays frenchRest at hdays
    split at hdays
    · omega
    · split at hdays <;> omega
  unfold frenchFromFixed
  rw [if_neg (by rw [frenchEpoch_eq]; omega), frenchEpoch_eq]
  refine searchDate (fun _ => rfl) (by omega) (fun {x k e} hv hlt => ?_)
    hvalid hfit ?_ ?_ ?_ ?_ ?_
  · obtain ⟨days, hmem, -⟩ := hv.month
    obtain ⟨hk, hk', -⟩ := mem_numbered.mp hmem
    exact fixedFromFrench_eq hv.year hk hk' hv.day hlt
  · show 1 ≤ _
    omega
  all_goals omega

theorem french_faithful : Faithful french (NextFits french)
    frenchFromFixed fixedFromFrench where
  number := fun {δ} h hfit => by
    obtain ⟨days, hmem, -⟩ := h.month
    obtain ⟨hm, hm', -⟩ := mem_numbered.mp hmem
    exact fixedFromFrench_eq h.year hm hm' h.day
      (Int.lt_trans h.number_mem.2 hfit)
  date := fun h hfit => frenchFromFixed_eq h hfit

-- == baha'i

/-- The days outside of the months, one more if the Gregorian year that
begins in this one is a leap year. -/
def bahaiRest (y : Int) : Nat := if isLeap (1844 + y) then 5 else 4

/-- The Baha'i calendar, in which a year starts on March 21. -/
def bahai : Reckoning Nat where
  first := 1
  newYear y := newYear (1844 + y) + 718877
  months y := numbered 18 (fun _ => 19) ++ [(0, bahaiRest y), (19, 19)]
  months_ne := fun _ => List.append_ne_nil_of_right_ne_nil _
    (List.cons_ne_nil _ _)
  months_pos := fun {y} _ m hm => by
    rcases List.mem_append.mp hm with hm | hm
    · exact numbered_pos (fun _ _ _ => Nat.succ_pos 18) m hm
    · rcases List.mem_cons.mp hm with rfl | hm
      · show 0 < bahaiRest y
        unfold bahaiRest
        split <;> exact Nat.succ_pos _
      · rw [List.mem_singleton.mp hm]
        exact Nat.succ_pos 18
  months_nodup := fun {y} _ => by
    rw [List.map_append]
    show (_ ++ [0, 19]).Nodup
    decide
  months_sum := fun {y} _ => by
    have hsum : ((numbered 18 (fun _ => 19) ++
        [(0, bahaiRest y), (19, 19)]).map Prod.snd).sum =
        342 + (bahaiRest y + 19) := by
      rw [List.map_append, List.sum_append]
      rfl
    have hnext : 1844 + (y + 1) = 1844 + y + 1 := by omega
    rw [hsum, bahaiRest, isLeap_eq, hnext]
    unfold newYear
    simp only [decide_eq_true_eq]
    split <;> omega

theorem mem_bahai {days : Nat} :
    (m, days) ∈ bahai.months y ↔
      1 ≤ m ∧ m ≤ 18 ∧ days = 19 ∨ m = 0 ∧ days = bahaiRest y ∨
        m = 19 ∧ days = 19 := by
  show (m, days) ∈ numbered 18 (fun _ => 19) ++ _ ↔ _
  rw [List.mem_append, mem_numbered, List.mem_cons, List.mem_singleton,
    Prod.mk.injEq, Prod.mk.injEq]

/-- The days in front of a month. -/
def bahaiBefore (y : Int) (m : Nat) : Nat :=
  if m = 0 then 342 else if m = 19 then 342 + bahaiRest y else 19 * (m - 1)

theorem before_bahai (h : m ≤ 19) :
    before (bahai.months y) m = bahaiBefore y m := by
  show before (numbered 18 (fun _ => 19) ++ [(0, bahaiRest y), (19, 19)]) m = _
  unfold bahaiBefore
  by_cases hin : 1 ≤ m ∧ m ≤ 18
  · have hstep : ∀ k, 1 ≤ k → k ≤ 18 → 19 * (k + 1 - 1) = 19 * (k - 1) + 19 :=
      fun k hk _ => by omega
    rw [before_append_left (mem_numbered.mpr ⟨hin.1, hin.2, rfl⟩),
      @before_numbered 18 (fun _ => 19) (fun k => 19 * (k - 1)) rfl hstep m
        hin.1 hin.2,
      if_neg (by omega), if_neg (by omega)]
  · have hout : m ∉ (numbered 18 fun _ => 19).map Prod.fst := by
      rw [List.mem_map]
      rintro ⟨⟨k, days⟩, hk, rfl⟩
      obtain ⟨hk, hk', -⟩ := mem_numbered.mp hk
      exact hin ⟨hk, hk'⟩
    rw [before_append_right hout]
    obtain rfl | rfl : m = 0 ∨ m = 19 := by omega
    · rfl
    · rfl

theorem nawruz_eq (y : Int) :
    rd ⟨1843 + y, 3, 21⟩ = newYear (1844 + y) + 718877 := by
  have hfeb := daysInMonth_two (1843 + y)
  have hone : toSerial ⟨1, 1, 1⟩ = -719162 := by decide
  have hserial : toSerial ⟨1843 + y, 3, 21⟩ = newYear (1843 + y) +
      (31 + daysInMonth (1843 + y) 2 : Nat) + 20 := by
    rw [toSerial_eq (by omega) (by omega),
      before_months (by omega) (by omega)]
    rfl
  have hnext : 1844 + y = 1843 + y + 1 := by omega
  rw [rd, hone, hserial, hnext]
  unfold newYear
  split at hfeb <;> omega

theorem bahaiNawruz_eq (hlo : 0 ≤ y) (h : 1843 + y ≤ 2147483647) :
    bahaiNawruz y = .ok (bahai.newYear y) := by
  rw [bahaiNawruz, i64_of_mem (by omega) (by omega), ok_bind,
    asI32_of_mem ⟨by omega, h⟩, nawruz_eq]
  rfl

/-- The Gregorian year in which the next year begins is an `i32`. -/
def BahaiFits (y : Int) : Prop := 1844 + y ≤ 2147483647

theorem bahaiAyyam_eq (hy : 1 ≤ y) (hfit : BahaiFits y) :
    bahaiAyyam y = .ok (bahaiRest y) := by
  have hmax : 1844 + y ≤ 2147483647 := hfit
  have hsum := bahai.months_sum hy
  have hdays : ((bahai.months y).map Prod.snd).sum =
      342 + (bahaiRest y + 19) := by
    show ((numbered 18 (fun _ => 19) ++
      [(0, bahaiRest y), (19, 19)]).map Prod.snd).sum = _
    rw [List.map_append, List.sum_append]
    rfl
  rw [hdays] at hsum
  rw [bahaiAyyam, i64_of_mem (by omega) (by omega), ok_bind,
    bahaiNawruz_eq (by omega) (by omega), ok_bind,
    bahaiNawruz_eq (by omega) (by omega), ok_bind]
  refine congrArg Except.ok ?_
  omega

theorem number_bahai (h : m ≤ 19) (d : Nat) :
    bahai.number (y, m, d) =
      bahai.newYear y + bahaiBefore y m + (d - 1) := by
  rw [← before_bahai h]
  rfl

theorem fixedFromBahai_eq (hy : 1 ≤ y) (hfit : BahaiFits y) (h : m ≤ 19)
    (d : Nat) : fixedFromBahai y m d = .ok (bahai.number (y, m, d)) := by
  have hmax : 1844 + y ≤ 2147483647 := hfit
  rw [fixedFromBahai, bahaiNawruz_eq (by omega) (by omega), ok_bind,
    bahaiAyyam_eq hy hfit, ok_bind, number_bahai h, bahaiBefore]
  refine congrArg Except.ok ?_
  split
  · rw [if_pos rfl]
    omega
  · rw [if_neg (by omega), if_pos rfl]
    omega
  · next hzero hlast =>
    have hm : 1 ≤ m := Nat.pos_of_ne_zero hzero
    rw [if_neg hzero, if_neg hlast]
    omega

/-- A loop that is done before its first turn. -/
theorem loop_done {σ : Type} {cond : σ → Result Bool} {step : σ → σ} {s : σ}
    (hfuel : 0 < fuel) (h : cond s = .ok false) :
    loop cond step fuel s = .ok s := by
  obtain ⟨n, rfl⟩ : ∃ n, fuel = n + 1 := ⟨fuel - 1, by omega⟩
  rw [loop, h]
  rfl

theorem bahaiFromFixed_eq (hvalid : bahai.Valid (y, m, d))
    (hfit : BahaiFits y) :
    bahaiFromFixed (bahai.number (y, m, d)) = .ok (y, m, d) := by
  have hy : 1 ≤ y := hvalid.year
  have hmax : 1844 + y ≤ 2147483647 := hfit
  have hin : bahai.newYear y ≤ bahai.number (y, m, d) ∧
    bahai.number (y, m, d) < bahai.newYear (y + 1) := hvalid.number_mem
  have hepoch : rd ⟨1844, 3, 21⟩ = bahai.newYear 1 := nawruz_eq 1
  have hfirst : bahai.newYear 1 = 673222 := by decide
  have hyears : 365 * (y - 1) + 673222 ≤ bahai.newYear y ∧
      bahai.newYear (y + 1) ≤ 366 * y + 673222 := by
    show _ ≤ newYear (1844 + y) + 718877 ∧
      newYear (1844 + (y + 1)) + 718877 ≤ _
    unfold newYear
    omega
  obtain ⟨days, hmem, hle⟩ : ∃ days, (m, days) ∈ bahai.months y ∧ d ≤ days :=
    hvalid.month
  have hday : 1 ≤ d := hvalid.day
  have hrest : bahaiRest y ≤ 5 := by
    unfold bahaiRest
    split <;> omega
  have hm : m ≤ 19 := by
    rcases mem_bahai.mp hmem with h | h | h <;> omega
  have hd : d ≤ 19 := by
    rcases mem_bahai.mp hmem with h | h | h <;> omega
  have hnumber := number_bahai (y := y) hm d
  generalize bahai.number (y, m, d) = f at hin hnumber ⊢
  have hdoy : f - bahai.newYear y = bahaiBefore y m + (d - 1) := by omega
  have hdown : loop (fun year => do
      let year ← i64 year
      let nawruz ← bahaiNawruz year
      return decide (f < nawruz)) (· - 1) turns64 y = .ok y := by
    refine loop_done (by unfold turns64; omega) ?_
    rw [i64_of_mem (by omega) (by omega), ok_bind,
      bahaiNawruz_eq (by omega) (by omega), ok_bind]
    exact congrArg Except.ok (decide_eq_false (by omega))
  unfold bahaiFromFixed
  rw [hepoch, hfirst, i64_of_mem (by omega) (by omega), ok_bind,
    i64_of_mem (by omega) (by omega), ok_bind,
    @searchYear bahai bahaiNawruz _ y f ?_ ?_ hy hin ?_ ?_ ?_, ok_bind,
    hdown, ok_bind, bahaiNawruz_eq (by omega) (by omega), ok_bind,
    bahaiAyyam_eq hy hfit, ok_bind, hdoy]
  · rcases mem_bahai.mp hmem with ⟨h, h', rfl⟩ | ⟨rfl, rfl⟩ | ⟨rfl, rfl⟩
    · have hbefore : (bahaiBefore y m : Int) = 19 * (m - 1) := by
        rw [bahaiBefore, if_neg (by omega), if_neg (by omega)]
        omega
      have hquot : (19 * ((m : Int) - 1) + (d - 1)).tdiv 19 + 1 = m := by
        rw [tdiv_of_nonneg (by omega)]
        omega
      have hrem : (19 * ((m : Int) - 1) + (d - 1)).tmod 19 + 1 = d := by
        rw [Int.tmod_eq_emod_of_nonneg (by omega)]
        omega
      rw [hbefore, if_pos (by omega), hquot, hrem, asU32_cast (by omega),
        asU32_cast (by omega)]
      rfl
    · have hbefore : bahaiBefore y 0 = 342 := rfl
      have hlast : (342 : Int) + (d - 1) - 342 + 1 = d := by omega
      rw [hbefore, if_neg (by omega), if_pos (by omega)]
      show Except.ok (y, 0, asU32 (342 + (d - 1) - 342 + 1)) = _
      rw [hlast, asU32_cast (by omega)]
    · have hbefore : (bahaiBefore y 19 : Int) = 342 + bahaiRest y := by
        rw [bahaiBefore, if_neg (by omega), if_pos rfl]
        rfl
      have hlast : (342 : Int) + bahaiRest y + (d - 1) - 342 - bahaiRest y +
          1 = d := by omega
      rw [hbefore, if_neg (by omega), if_neg (by omega), hlast,
        asU32_cast (by omega)]
      rfl
  · show 1 ≤ _
    omega
  · omega
  · intro x hx hxy
    have hx' : 1 ≤ x := hx
    exact bahaiNawruz_eq (by omega) (by omega)
  · omega
  · omega

theorem bahai_faithful : Faithful bahai BahaiFits
    (fun f => (bahaiFromFixed f).map some) fixedFromBahai where
  number := fun {δ} h hfit => by
    obtain ⟨days, hmem, -⟩ := h.month
    have hm : δ.2.1 ≤ 19 := by
      rcases mem_bahai.mp hmem with h | h | h <;> omega
    exact fixedFromBahai_eq h.year hfit hm _
  date := fun {δ} h hfit => by
    show (bahaiFromFixed (bahai.number (δ.1, δ.2.1, δ.2.2))).map some = _
    rw [bahaiFromFixed_eq h hfit]
    rfl

-- == the law

/-- Each of the six calendars, for the years that its integers can deal
with. -/
theorem calendars_law :
    Converts julian julianEpoch InI32
        (fun f => (julianFromFixed f).map some)
        (fun y m d => .ok (fixedFromJulian y m d)) ∧
      Converts (copticLike copticEpoch) copticEpoch InI32
        (fun f => (copticFromFixed f).map some)
        (fun y m d => .ok (fixedFromCoptic y m d)) ∧
      Converts (copticLike ethiopicEpoch) ethiopicEpoch InI32
        (fun f => (ethiopicFromFixed f).map some)
        (fun y m d => .ok (fixedFromEthiopic y m d)) ∧
      Converts islamic islamicEpoch (NextFits islamic) islamicFromFixed
        fixedFromIslamic ∧
      Converts french frenchEpoch (NextFits french) frenchFromFixed
        fixedFromFrench ∧
      Converts bahai (rd ⟨1844, 3, 21⟩) BahaiFits
        (fun f => (bahaiFromFixed f).map some) fixedFromBahai :=
  ⟨julian_faithful.law (by decide),
    (copticLike_faithful copticEpoch).law (by decide),
    (copticLike_faithful ethiopicEpoch).law (by decide),
    islamic_faithful.law (by decide), french_faithful.law (by decide),
    bahai_faithful.law (by decide)⟩

theorem calendars_law_millennium :
    ∃ δ, (copticFromFixed 730120).map some = .ok (some δ) ∧
      fixedFromCoptic δ.1 δ.2.1 δ.2.2 = 730120 := by
  obtain ⟨δ, hδ, -, hback, -⟩ := calendars_law.2.1.2 730120 (by decide)
    fun y hy hle => by
      have hfirst : 1 ≤ y := hy
      have hnew : 103605 + 365 * (y - 1) + y / 4 ≤ 730120 := hle
      exact ⟨by omega, by omega⟩
  exact ⟨δ, hδ, Except.ok.inj hback⟩

/-- The first day of the Coptic year after the last `i32`: the year wraps, and
the month is none. -/
theorem not_calendars_law_wrap :
    copticEpoch ≤ 784368505672 ∧
      ¬ ∃ δ, (copticFromFixed 784368505672).map some = .ok (some δ) ∧
        1 ≤ δ.2.1 ∧ δ.2.1 ≤ 13 := by
  refine ⟨by decide, ?_⟩
  rintro ⟨δ, hδ, -, hmonth⟩
  have hdate : (copticFromFixed 784368505672).map some =
      .ok (some (-2147483648, 751619277, 25)) := by decide
  obtain rfl := Option.some.inj (Except.ok.inj (hδ.symm.trans hdate))
  exact absurd hmonth (by decide)

end Zmax.Calendar
