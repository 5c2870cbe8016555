/-
Counting days by years, months and days, over arbitrary months.

A reckoning says where its years begin and which months they have, in their
order, and the lengths of the months of a year are the days from its new
year to the next. Then every day from the first year on has one date
(`exists_date`, `number_inj`), and the date of the day after it is the next
one on the calendar (`next_of_number`).
-/
import Mathlib.Data.List.Basic
import Mathlib.Algebra.Order.Ring.Int
import Mathlib.Algebra.BigOperators.Group.List.Basic

/-- A way to count days by years, months and days. -/
structure Reckoning (μ : Type*) where
  /-- The first year. -/
  first : Int
  /-- The number of the first day of a year. -/
  newYear : Int → Int
  /-- The months of a year and how long they are, in their order. -/
  months : Int → List (μ × Nat)
  months_ne : ∀ {y}, first ≤ y → months y ≠ []
  months_pos : ∀ {y}, first ≤ y → ∀ m ∈ months y, 0 < m.2
  months_nodup : ∀ {y}, first ≤ y → ((months y).map Prod.fst).Nodup
  months_sum : ∀ {y}, first ≤ y →
    newYear y + ((months y).map Prod.snd).sum = newYear (y + 1)

namespace Reckoning

/-- A year, a month and a day of the month, from 1. -/
abbrev Date (μ : Type*) := Int × μ × Nat

section Months

variable {μ : Type*} [DecidableEq μ]

/-- How many days of a year lie before a month. -/
def before : List (μ × Nat) → μ → Nat
  | [], _ => 0
  | (m', days) :: ms, m => if m' = m then 0 else days + before ms m

variable {ms : List (μ × Nat)} {m m' : μ} {days days' : Nat}

attribute [grind =] before

theorem before_add_le (h : (m, days) ∈ ms)
    (hnodup : (ms.map Prod.fst).Nodup) :
    before ms m + days ≤ (ms.map Prod.snd).sum := by
  induction ms with
  | nil => cases h
  | cons n ms ih =>
      obtain ⟨n, k⟩ := n
      rw [List.map_cons, List.nodup_cons] at hnodup
      rw [before, List.map_cons, List.sum_cons]
      rcases List.mem_cons.mp h with heq | h
      · cases heq
        rw [if_pos rfl]
        omega
      · have hne : n ≠ m := fun heq =>
          hnodup.1 (List.mem_map.mpr ⟨(m, days), h, heq.symm⟩)
        have hle := ih h hnodup.2
        rw [if_neg hne]
        simp only
        omega

/-- A day of a year determines its month and its day of the month. -/
theorem before_inj (hnodup : (ms.map Prod.fst).Nodup) (h : (m, days) ∈ ms)
    (h' : (m', days') ∈ ms) {d d' : Nat} (hd : d < days) (hd' : d' < days')
    (heq : before ms m + d = before ms m' + d') : m = m' ∧ d = d' := by
  induction ms with
  | nil => cases h
  | cons n ms ih =>
      obtain ⟨n, k⟩ := n
      rw [List.map_cons, List.nodup_cons] at hnodup
      have hne : ∀ {p e}, (p, e) ∈ ms → n ≠ p := fun hp heq =>
        hnodup.1 (List.mem_map.mpr ⟨_, hp, heq.symm⟩)
      rw [before, before] at heq
      rcases List.mem_cons.mp h with hm | hm
      · cases hm
        rw [if_pos rfl] at heq
        rcases List.mem_cons.mp h' with hm' | hm'
        · cases hm'
          rw [if_pos rfl] at heq
          exact ⟨rfl, by omega⟩
        · rw [if_neg (hne hm')] at heq
          omega
      · rw [if_neg (hne hm)] at heq
        rcases List.mem_cons.mp h' with hm' | hm'
        · cases hm'
          rw [if_pos rfl] at heq
          omega
        · rw [if_neg (hne hm')] at heq
          exact ih hnodup.2 hm hm' (by omega)

theorem before_append {ms' : List (μ × Nat)}
    (hnodup : ((ms ++ (m, days) :: ms').map Prod.fst).Nodup) :
    before (ms ++ (m, days) :: ms') m = (ms.map Prod.snd).sum := by
  induction ms with
  | nil => rw [List.nil_append, before, if_pos rfl]; rfl
  | cons n ms ih =>
      obtain ⟨n, k⟩ := n
      rw [List.cons_append, List.map_cons, List.nodup_cons] at hnodup
      have hne : n ≠ m := by
        rintro rfl
        exact hnodup.1 (List.mem_map.mpr ⟨(n, days),
          List.mem_append_right _ List.mem_cons_self, rfl⟩)
      rw [List.cons_append, before, if_neg hne, ih hnodup.2, List.map_cons,
        List.sum_cons]

theorem before_append_left {ms' : List (μ × Nat)} (h : (m, days) ∈ ms) :
    before (ms ++ ms') m = before ms m := by
  induction ms with
  | nil => cases h
  | cons n ms ih =>
      obtain ⟨n, k⟩ := n
      rw [List.cons_append, before, before]
      by_cases heq : n = m
      · rw [if_pos heq, if_pos heq]
      · rcases List.mem_cons.mp h with hm | hm
        · cases hm
          exact absurd rfl heq
        · rw [if_neg heq, if_neg heq, ih hm]

theorem before_append_right {ms' : List (μ × Nat)}
    (h : m ∉ ms.map Prod.fst) :
    before (ms ++ ms') m = (ms.map Prod.snd).sum + before ms' m := by
  induction ms with
  | nil => exact (Nat.zero_add _).symm
  | cons n ms ih =>
      obtain ⟨n, k⟩ := n
      rw [List.map_cons, List.mem_cons, not_or] at h
      rw [List.cons_append, before, if_neg (Ne.symm h.1), ih h.2,
        List.map_cons, List.sum_cons, Nat.add_assoc]

end Months

-- == numbered months

/-- Months numbered from 1, each of its own length. -/
def numbered (n : Nat) (length : Nat → Nat) : List (Nat × Nat) :=
  (List.range' 1 n).map fun m => (m, length m)

section Numbered

variable {n : Nat} {length : Nat → Nat}

theorem mem_numbered {m days : Nat} :
    (m, days) ∈ numbered n length ↔ 1 ≤ m ∧ m ≤ n ∧ days = length m := by
  unfold numbered
  rw [List.mem_map]
  constructor
  · rintro ⟨k, hk, ⟨⟩⟩
    have hmem := List.mem_range'_1.mp hk
    exact ⟨hmem.1, by omega, rfl⟩
  · rintro ⟨h, h', rfl⟩
    exact ⟨m, List.mem_range'_1.mpr ⟨h, by omega⟩, rfl⟩

theorem numbered_ne (hn : 0 < n) : numbered n length ≠ [] := by
  have hmem : (1, length 1) ∈ numbered n length :=
    mem_numbered.mpr ⟨Nat.le_refl 1, hn, rfl⟩
  exact List.ne_nil_of_mem hmem

theorem numbered_pos (h : ∀ m, 1 ≤ m → m ≤ n → 0 < length m) :
    ∀ m ∈ numbered n length, 0 < m.2 := by
  rintro ⟨m, days⟩ hm
  obtain ⟨hlo, hhi, rfl⟩ := mem_numbered.mp hm
  exact h m hlo hhi

theorem numbered_nodup : ((numbered n length).map Prod.fst).Nodup := by
  have hfst : (numbered n length).map Prod.fst = List.range' 1 n := by
    rw [numbered, List.map_map]
    exact List.map_id _
  rw [hfst]
  exact List.nodup_range'

/-- The first months together. -/
def firstMonths (length : Nat → Nat) (m : Nat) : Nat :=
  ((numbered m length).map Prod.snd).sum

theorem firstMonths_succ (length : Nat → Nat) (m : Nat) :
    firstMonths length (m + 1) = firstMonths length m + length (m + 1) := by
  rw [firstMonths, numbered, List.range'_1_concat, List.map_append,
    List.map_append, List.sum_append, Nat.add_comm 1 m]
  rfl

theorem firstMonths_mono {k m : Nat} (h : k ≤ m) :
    firstMonths length k ≤ firstMonths length m := by
  induction m, h using Nat.le_induction with
  | base => exact Nat.le_refl _
  | succ m _ ih =>
      rw [firstMonths_succ]
      exact Nat.le_trans ih (Nat.le_add_right _ _)

/-- What lies in front of a month are the months before it. -/
theorem before_succ {k : Nat} (h : k < n) :
    before (numbered n length) (k + 1) = firstMonths length k := by
  have hsplit : numbered n length = numbered k length ++
      (k + 1, length (k + 1)) ::
        (List.range' (k + 2) (n - (k + 1))).map fun m => (m, length m) := by
    have hn : n = k + (1 + (n - (k + 1))) := by omega
    conv_lhs => rw [numbered, hn]
    rw [← List.range'_append_1, List.map_append, ← List.range'_append_1,
      Nat.add_comm 1 k]
    rfl
  have hnodup := @numbered_nodup n length
  rw [hsplit] at hnodup ⊢
  exact before_append hnodup

/-- A month is over when a later one begins. -/
theorem before_add_le_before {k m : Nat} (hk : 1 ≤ k) (hkm : k < m)
    (hm : m ≤ n) :
    before (numbered n length) k + length k ≤
      before (numbered n length) m := by
  obtain ⟨k, rfl⟩ : ∃ j, k = j + 1 := ⟨k - 1, by omega⟩
  obtain ⟨m, rfl⟩ : ∃ j, m = j + 1 := ⟨m - 1, by omega⟩
  rw [before_succ (by omega), before_succ (by omega), ← firstMonths_succ]
  exact firstMonths_mono (by omega)

/-- The first months, as a running total that starts at the first month and
goes up by the length of each. -/
theorem firstMonths_eq {total : Nat → Nat} (hfirst : total 1 = 0)
    (hstep : ∀ m, 1 ≤ m → m ≤ n → total (m + 1) = total m + length m) :
    firstMonths length n = total (n + 1) := by
  induction n with
  | zero => exact hfirst.symm
  | succ n ih =>
      rw [hstep (n + 1) (by omega) (Nat.le_refl _), firstMonths_succ,
        ih fun m h h' => hstep m h (by omega)]

/-- The days in front of a month are the total so far. -/
theorem before_numbered {total : Nat → Nat} (hfirst : total 1 = 0)
    (hstep : ∀ m, 1 ≤ m → m ≤ n → total (m + 1) = total m + length m)
    {m : Nat} (h : 1 ≤ m) (h' : m ≤ n) :
    before (numbered n length) m = total m := by
  obtain ⟨k, rfl⟩ : ∃ k, m = k + 1 := ⟨m - 1, by omega⟩
  rw [before_succ h', firstMonths_eq hfirst fun m h h'' =>
    hstep m h (by omega)]

end Numbered

variable {μ : Type*} [DecidableEq μ] (R : Reckoning μ)

/-- A date of the reckoning. -/
structure Valid (δ : Date μ) : Prop where
  year : R.first ≤ δ.1
  month : ∃ days, (δ.2.1, days) ∈ R.months δ.1 ∧ δ.2.2 ≤ days
  day : 1 ≤ δ.2.2

/-- The number of the day of a date. -/
def number (δ : Date μ) : Int :=
  R.newYear δ.1 + before (R.months δ.1) δ.2.1 + (δ.2.2 - 1)

/-- The next date on the calendar: the next day of the month, the first of
the next month, or the first of the next year. -/
inductive Next : Date μ → Date μ → Prop
  | day {y : Int} {m : μ} {days d : Nat} (h : (m, days) ∈ R.months y)
      (hd : d < days) : Next (y, m, d) (y, m, d + 1)
  | month {y : Int} {m m' : μ} {days days' : Nat} {ms ms' : List (μ × Nat)}
      (h : R.months y = ms ++ (m, days) :: (m', days') :: ms') :
      Next (y, m, days) (y, m', 1)
  | year {y : Int} {m m' : μ} {days days' : Nat} {ms ms' : List (μ × Nat)}
      (h : R.months y = ms ++ [(m, days)])
      (h' : R.months (y + 1) = (m', days') :: ms') :
      Next (y, m, days) (y + 1, m', 1)

variable {R} {y y' f : Int} {δ δ' : Date μ}

-- == years

omit [DecidableEq μ] in
theorem newYear_lt (hy : R.first ≤ y) : R.newYear y < R.newYear (y + 1) := by
  have hsum := R.months_sum hy
  have hpos := R.months_pos hy
  cases hms : R.months y with
  | nil => exact absurd hms (R.months_ne hy)
  | cons m ms =>
      rw [hms] at hsum hpos
      have hm := hpos m List.mem_cons_self
      rw [List.map_cons, List.sum_cons] at hsum
      omega

omit [DecidableEq μ] in
theorem newYear_mono (hy : R.first ≤ y) (h : y ≤ y') :
    R.newYear y ≤ R.newYear y' := by
  induction y', h using Int.leInduction with
  | base => exact Int.le_refl _
  | succ z hz ih =>
      exact Int.le_trans ih (Int.le_of_lt (newYear_lt (Int.le_trans hy hz)))

omit [DecidableEq μ] in
/-- A day is in one year at most. -/
theorem year_unique (hy : R.first ≤ y) (hy' : R.first ≤ y')
    (hf : R.newYear y ≤ f ∧ f < R.newYear (y + 1))
    (hf' : R.newYear y' ≤ f ∧ f < R.newYear (y' + 1)) : y = y' := by
  rcases Int.lt_trichotomy y y' with hlt | heq | hlt
  · have hmono := newYear_mono (R := R) (y := y + 1) (by omega)
      (show y + 1 ≤ y' by omega)
    omega
  · exact heq
  · have hmono := newYear_mono (R := R) (y := y' + 1) (by omega)
      (show y' + 1 ≤ y by omega)
    omega

-- == dates

/-- A date lies in its year. -/
theorem Valid.number_mem (h : R.Valid δ) :
    R.newYear δ.1 ≤ R.number δ ∧ R.number δ < R.newYear (δ.1 + 1) := by
  obtain ⟨days, hmem, hle⟩ := h.month
  have hbefore := before_add_le hmem (R.months_nodup h.year)
  have hsum := R.months_sum h.year
  have hday := h.day
  unfold number
  omega

/-- A day has one date. -/
theorem number_inj (h : R.Valid δ) (h' : R.Valid δ')
    (heq : R.number δ = R.number δ') : δ = δ' := by
  have hyear : δ.1 = δ'.1 := year_unique h.year h'.year h.number_mem
    (heq ▸ h'.number_mem)
  obtain ⟨y, m, d⟩ := δ
  obtain ⟨y', m', d'⟩ := δ'
  obtain rfl : y = y' := hyear
  obtain ⟨days, hmem, hle⟩ := h.month
  obtain ⟨days', hmem', hle'⟩ := h'.month
  have hday := h.day
  have hday' := h'.day
  simp only at hmem hmem' hle hle' hday hday'
  have hfirst : R.first ≤ y := h.year
  have hnumber : R.newYear y + before (R.months y) m + ((d : Int) - 1) =
      R.newYear y + before (R.months y) m' + ((d' : Int) - 1) := heq
  obtain ⟨rfl, hd⟩ := @before_inj _ _ _ _ _ _ _ (R.months_nodup hfirst)
    hmem hmem' (d - 1) (d' - 1) (by omega) (by omega) (by omega)
  obtain rfl : d = d' := by omega
  rfl

/-- Every date has a next one, and that is the next day. -/
theorem exists_next (h : R.Valid δ) :
    ∃ δ', R.Next δ δ' ∧ R.Valid δ' ∧ R.number δ' = R.number δ + 1 := by
  obtain ⟨y, m, d⟩ := δ
  obtain ⟨days, hmem, hle⟩ := h.month
  have hyear : R.first ≤ y := h.year
  have hday : 1 ≤ d := h.day
  simp only at hmem hle
  have hnodup := R.months_nodup hyear
  rcases Nat.lt_or_eq_of_le hle with hlt | rfl
  · refine ⟨(y, m, d + 1), .day hmem hlt, ⟨hyear, ⟨days, hmem, hlt⟩, ?_⟩, ?_⟩
    · exact Nat.succ_pos d
    · unfold number
      simp only [Nat.cast_succ]
      omega
  · obtain ⟨ms, ms', hsplit⟩ := List.append_of_mem hmem
    have hbefore : before (R.months y) m = (ms.map Prod.snd).sum := by
      rw [hsplit] at hnodup ⊢
      exact before_append hnodup
    cases ms' with
    | cons next ms' =>
        obtain ⟨m', days'⟩ := next
        have hsplit' : R.months y =
            (ms ++ [(m, d)]) ++ (m', days') :: ms' := by
          rw [hsplit, List.append_assoc]
          rfl
        have hmem' : (m', days') ∈ R.months y := by
          rw [hsplit']
          exact List.mem_append_right _ List.mem_cons_self
        have hbefore' : before (R.months y) m' =
            (ms.map Prod.snd).sum + d := by
          rw [hsplit'] at hnodup ⊢
          rw [before_append hnodup, List.map_append, List.sum_append]
          rfl
        refine ⟨(y, m', 1), .month hsplit,
          ⟨hyear, ⟨days', hmem', R.months_pos hyear _ hmem'⟩,
            Nat.le_refl 1⟩, ?_⟩
        unfold number
        simp only [hbefore, hbefore']
        omega
    | nil =>
        have hyear' : R.first ≤ y + 1 := by omega
        have hsum := R.months_sum hyear
        rw [hsplit, List.map_append, List.sum_append] at hsum
        have hd : ([(m, d)].map Prod.snd).sum = d := Nat.add_zero d
        rw [hd] at hsum
        cases hms : R.months (y + 1) with
        | nil => exact absurd hms (R.months_ne hyear')
        | cons next ms' =>
            obtain ⟨m', days'⟩ := next
            have hmem' : (m', days') ∈ R.months (y + 1) :=
              hms ▸ List.mem_cons_self
            refine ⟨(y + 1, m', 1), .year hsplit hms, ⟨hyear',
              ⟨days', hmem', R.months_pos hyear' _ hmem'⟩, Nat.le_refl 1⟩, ?_⟩
            have hfirst : before (R.months (y + 1)) m' = 0 := by
              rw [hms, before, if_pos rfl]
            unfold number
            simp only [hbefore, hfirst]
            omega

/-- Every day from the first new year on has a date. -/
theorem exists_date (hf : R.newYear R.first ≤ f) :
    ∃ δ, R.Valid δ ∧ R.number δ = f := by
  obtain ⟨n, rfl⟩ := Int.le.dest hf
  clear hf
  induction n with
  | zero =>
      cases hms : R.months R.first with
      | nil => exact absurd hms (R.months_ne (Int.le_refl _))
      | cons m ms =>
          obtain ⟨m, days⟩ := m
          have hmem : (m, days) ∈ R.months R.first :=
            hms ▸ List.mem_cons_self
          refine ⟨(R.first, m, 1), ⟨Int.le_refl _, ⟨days, hmem,
            R.months_pos (Int.le_refl _) _ hmem⟩, Nat.le_refl 1⟩, ?_⟩
          unfold number
          simp only [hms, before, if_true]
          omega
  | succ n ih =>
      obtain ⟨δ, hvalid, hnumber⟩ := ih
      obtain ⟨δ', -, hvalid', hnumber'⟩ := exists_next hvalid
      refine ⟨δ', hvalid', ?_⟩
      rw [hnumber', hnumber, Int.add_assoc]
      rfl

/-- The date of the next day is the next date. -/
theorem next_of_number (h : R.Valid δ) (h' : R.Valid δ')
    (heq : R.number δ' = R.number δ + 1) : R.Next δ δ' := by
  obtain ⟨next, hnext, hvalid, hnumber⟩ := exists_next h
  obtain rfl := number_inj hvalid h' (hnumber.trans heq.symm)
  exact hnext

end Reckoning
