/-
When integer increment returns.

It stops on too many separators for the length of the number, where a
subtraction goes below zero, on a width that the formatting does not take,
and on a number that gets longer while the leftmost two separators have
nothing between them, where the loop for more separators makes no progress.
On all other texts it returns (`increment_returns`).
-/
import Zmax.Core.Proofs.Separators

namespace Zmax.Increment

open Text Gapped

variable {gaps : Nat → Nat} {word chars text : List Char} {amount : Int}

-- == digits

theorem mem_toDigits {b n : Nat} {c : Char} (hb : 1 < b)
    (h : c ∈ Nat.toDigits b n) : ∃ d < b, c = Nat.digitChar d := by
  induction n using Nat.strongRecOn with
  | ind n ih =>
      rcases Nat.lt_or_ge n b with hlt | hge
      · rw [Nat.toDigits_of_lt_base hlt, List.mem_singleton] at h
        exact ⟨n, hlt, h⟩
      · rw [Nat.toDigits_of_base_le hb hge, List.mem_append,
          List.mem_singleton] at h
        rcases h with h | h
        · exact ih (n / b) (Nat.div_lt_self (by omega) hb) h
        · exact ⟨n % b, Nat.mod_lt n (by omega), h⟩

theorem base_mem (radix : Radix) : 1 < radix.base ∧ radix.base ≤ 16 := by
  cases radix <;> decide

/-- What is formatted: a sign, zeros and digits. -/
def formatted (radix : Nat) (value : Int) (width : Nat) : List Char :=
  let sign := if value < 0 then ['-'] else []
  let digits := Nat.toDigits radix value.natAbs
  sign ++ List.replicate (width - (sign.length + digits.length)) '0' ++ digits

theorem format_eq (radix : Nat) (value : Int) (width : Nat) :
    format radix value width = if width ≤ 65535 then
      .ok (formatted radix value width) else .error .assertion := by
  unfold format
  by_cases h : width ≤ 65535
  · rw [if_pos h, decide_eq_true h, assert_true, ok_bind]
    rfl
  · rw [if_neg h, decide_eq_false h]
    rfl

def signLength (value : Int) : Nat := if value < 0 then 1 else 0

theorem length_formatted (radix : Nat) (value : Int) (width : Nat) :
    (formatted radix value width).length =
      max width
        (signLength value + (Nat.toDigits radix value.natAbs).length) := by
  unfold formatted signLength
  simp only [List.length_append, List.length_replicate]
  split
  · rw [List.length_singleton]
    omega
  · rw [List.length_nil]
    omega

theorem mem_formatted {radix : Radix} {value : Int} {width : Nat} {c : Char}
    (h : c ∈ formatted radix.base value width) :
    c ∈ ['-', '0', '1', '2', '3', '4', '5', '6', '7', '8', '9', 'a', 'b', 'c',
      'd', 'e', 'f'] := by
  obtain ⟨hlo, hhi⟩ := base_mem radix
  rcases List.mem_append.mp h with h | h
  · rcases List.mem_append.mp h with h | h
    · split at h
      · rw [List.mem_singleton.mp h]
        decide
      · cases h
    · rw [List.eq_of_mem_replicate h]
      decide
  · have hdigit : ∀ d < 16, Nat.digitChar d ∈ ['-', '0', '1', '2', '3', '4',
        '5', '6', '7', '8', '9', 'a', 'b', 'c', 'd', 'e', 'f'] := by decide
    obtain ⟨d, hd, rfl⟩ := mem_toDigits hlo h
    exact hdigit d (by omega)

theorem not_mem_formatted (radix : Radix) (value : Int) (width : Nat) :
    SEPARATOR ∉ formatted radix.base value width := fun h =>
  absurd (mem_formatted h) (by decide)

theorem not_mem_toUpper (radix : Radix) (value : Int) (width : Nat) :
    SEPARATOR ∉ (formatted radix.base value width).map Char.toUpper := by
  have hupper : (['-', '0', '1', '2', '3', '4', '5', '6', '7', '8', '9', 'a',
      'b', 'c', 'd', 'e', 'f'].all fun c => Char.toUpper c ≠ SEPARATOR) := by
    decide
  intro h
  obtain ⟨c, hc, heq⟩ := List.mem_map.mp h
  exact of_decide_eq_true (List.all_eq_true.mp hupper c (mem_formatted hc)) heq

-- == separators

/-- The leftmost two separators of a text have nothing between them. -/
def Crowded (text : List Char) : Prop :=
  ∃ pre post, text = pre ++ SEPARATOR :: SEPARATOR :: post ∧ SEPARATOR ∉ pre

theorem crowded_spread (hword : SEPARATOR ∉ word) :
    Crowded (spread SEPARATOR gaps word) ↔ ∃ q < word.length, 2 ≤ gaps q ∧
      ∀ p, q < p → p < word.length → gaps p = 0 := by
  constructor
  · rintro ⟨pre, post, htext, hpre⟩
    have htotal : total gaps word.length ≠ 0 := by
      intro hzero
      have hplain : spread SEPARATOR gaps word = word := by
        refine spread_zero fun p hp => ?_
        have hmono := @total_mono gaps _ _ (show p + 1 ≤ _ from hp)
        rw [total] at hmono
        omega
      rw [hplain] at htext
      refine hword (htext ▸ ?_)
      exact List.mem_append_right _ List.mem_cons_self
    obtain ⟨q, hq, hgap, hleft⟩ := exists_leftmost htotal
    refine ⟨q, hq, ?_, hleft⟩
    by_contra hone
    obtain ⟨front, rest, rfl, -, -, hspread⟩ :=
      exists_leftmost_split hq hleft
    rw [List.mem_append, not_or] at hword
    have hgap' : gaps q = 1 := by omega
    rw [hspread, hgap'] at htext
    have hpost := (append_cons_inj hword.1 hpre htext).2
    refine @head?_spread _ _ gaps _ hword.2 ?_
    exact congrArg List.head? hpost
  · rintro ⟨q, hq, hgap, hleft⟩
    obtain ⟨front, rest, rfl, -, -, hspread⟩ :=
      exists_leftmost_split hq hleft
    rw [List.mem_append, not_or] at hword
    obtain ⟨k, hk⟩ := Nat.exists_eq_add_of_le' hgap
    refine ⟨front, List.replicate k SEPARATOR ++ spread SEPARATOR gaps rest,
      ?_, hword.1⟩
    rw [hspread, hk, List.replicate_succ, List.replicate_succ]
    rfl

/-- The separators are done unless the leftmost two have nothing between them
and the number gets longer. -/
theorem withSeparators_returns {prefixLength : Nat} (hword : SEPARATOR ∉ word)
    (hchars : SEPARATOR ∉ chars) (hend : gaps 0 = 0)
    (hmark : prefixLength ≤ word.length) (hin : ∀ p,
      word.length - prefixLength < p → p < word.length → gaps p = 0) :
    (∃ r, withSeparators (spread SEPARATOR gaps word)
        (separatorRtlIndexes (spread SEPARATOR gaps word)) prefixLength
        chars = .ok r) ↔
      (Crowded (spread SEPARATOR gaps word) →
        chars.length ≤ word.length) := by
  rw [crowded_spread hword]
  rcases Nat.lt_or_ge word.length chars.length with hlong | hshort
  · by_cases htotal : total gaps word.length = 0
    · have hnone : ¬∃ q < word.length, 2 ≤ gaps q ∧
          ∀ p, q < p → p < word.length → gaps p = 0 := by
        rintro ⟨q, hq, hgap, -⟩
        have hmono := @total_mono gaps _ _ (show q + 1 ≤ _ from hq)
        rw [total] at hmono
        omega
      refine iff_of_true ⟨_, withSeparators_none hword htotal⟩ ?_
      exact fun h => absurd h hnone
    · obtain ⟨q, hq, hgap, hleft⟩ := exists_leftmost htotal
      have hq' : q ≤ word.length - prefixLength := by
        by_contra hover
        exact hgap (hin q (by omega) hq)
      by_cases hone : gaps q = 1
      · obtain ⟨r, hr, -, -, hspacing⟩ :=
          spacingOf_single hword hq hleft hone hend
        obtain ⟨front, rest, rfl, hrest, hwhole⟩ :=
          @withSeparators_long _ _ _ prefixLength hword hchars hlong q hq hgap
            hleft _ hspacing
        rw [List.length_append] at hlong
        rw [hwhole, addSeparators_eq (by omega) (by omega) _
          (Nat.lt_succ_self _)]
        refine iff_of_true ⟨_, rfl⟩ ?_
        rintro ⟨p, hp, hgap', hleft'⟩
        rcases Nat.lt_trichotomy p q with hlt | rfl | hlt
        · exact absurd (hleft' q hlt hq) hgap
        · omega
        · have hzero := hleft p hlt hp
          omega
      · have htwo : 2 ≤ gaps q := by omega
        obtain ⟨front, rest, rfl, hrest, hwhole⟩ :=
          @withSeparators_long _ _ _ prefixLength hword hchars hlong q hq hgap
            hleft _ (spacingOf_crowded hword hq hleft htwo)
        rw [List.length_append] at hlong
        rw [hwhole, addSeparators_diverges (by omega)]
        refine iff_of_false ?_ ?_
        · rintro ⟨r, hr⟩
          cases hr
        · intro h
          have hle := h ⟨q, hq, htwo, hleft⟩
          rw [List.length_append] at hle
          omega
  · exact iff_of_true ⟨_, withSeparators_short hword hshort⟩ fun _ => hshort

-- == the law

/-- A text that the command does not touch. -/
def Rejected (text : List Char) : Prop :=
  text = [] ∨ endsWith text [SEPARATOR] ∨ startsWith text [SEPARATOR]

/-- A text without its separators. -/
def wordOf (text : List Char) : List Char := text.filter (· ≠ SEPARATOR)

/-- A decimal number whose separators and width the new number can do
with. -/
def DecimalCalm (text : List Char) (amount : Int) : Prop :=
  ∀ value, i128FromStrRadix (wordOf text) 10 = some value →
    let sum := saturatingAdd value amount
    let room : Int := (wordOf text).length + signLength sum -
      signLength value - text.count SEPARATOR
    0 ≤ room ∧
      (startsWith (wordOf text) ['0'] ∨ startsWith (wordOf text) ['-', '0'] →
        room ≤ 65535) ∧
      (Crowded text → signLength sum + (Nat.toDigits 10 sum.natAbs).length ≤
        (wordOf text).length)

/-- And a number with a prefix. -/
def PrefixedCalm (text : List Char) (amount : Int) : Prop :=
  ∀ value, u128FromStrRadix ((wordOf text).drop 2) (radixOf text).base =
      some value →
    let sum := max 0 (saturatingAdd (asI128 value) amount)
    (wordOf text).length ≤ 65537 ∧
      (Crowded text →
        2 + (Nat.toDigits (radixOf text).base sum.natAbs).length ≤
          (wordOf text).length)

theorem count_separators (text : List Char) :
    (separatorRtlIndexes text).length = text.count SEPARATOR := by
  induction text with
  | nil => rfl
  | cons c text ih =>
      rw [separatorRtlIndexes_cons, List.length_append, ih, List.count_cons]
      by_cases h : c = SEPARATOR
      · rw [if_pos h, if_pos (beq_iff_eq.mpr h)]
        rfl
      · rw [if_neg h, if_neg (by simpa using h)]
        rfl

theorem Crowded.two_le_count (h : Crowded text) :
    2 ≤ text.count SEPARATOR := by
  obtain ⟨pre, post, rfl, -⟩ := h
  rw [List.count_append, List.count_cons_self, List.count_cons_self]
  omega

theorem not_mem_wordOf (text : List Char) : SEPARATOR ∉ wordOf text := by
  intro h
  exact absurd (List.of_mem_filter h) (by decide)

/-- A text by the gaps of its number. -/
theorem exists_gaps (h : ¬Rejected text) :
    ∃ gaps, text = spread SEPARATOR gaps (wordOf text) ∧ gaps 0 = 0 ∧
      wordOf text ≠ [] := by
  unfold Rejected at h
  rw [not_or, not_or] at h
  obtain ⟨hne, hend, hstart⟩ := h
  have hhead : text.head? ≠ some SEPARATOR := by
    cases text with
    | nil => exact nofun
    | cons c text =>
        intro heq
        obtain rfl := Option.some.inj heq
        exact hstart rfl
  obtain ⟨gaps, hgaps⟩ := exists_spread SEPARATOR text hhead
  have hword : wordOf text ≠ [] := by
    intro hnil
    rw [show text.filter (· ≠ SEPARATOR) = [] from hnil] at hgaps
    exact hne hgaps
  refine ⟨gaps, hgaps, ?_, hword⟩
  by_contra hzero
  obtain ⟨k, hk⟩ := Nat.exists_eq_succ_of_ne_zero hzero
  refine hend (List.isSuffixOf_iff_suffix.mpr ?_)
  have hgaps' : text = spread SEPARATOR gaps (wordOf text) := hgaps
  rw [hgaps', spread_end hword, hk, List.replicate_succ']
  exact ⟨_, List.append_assoc _ _ _⟩

/-- The width that the new number is padded to, if it is. -/
def formatLength (word : List Char) (separators : Nat) (value sum : Int) :
    Nat :=
  word.length + signLength sum - signLength value - separators

theorem newDecimal_none (h : i128FromStrRadix word 10 = none) (n : Nat) :
    newDecimal word n amount = .ok none := by
  unfold newDecimal
  rw [h]
  rfl

theorem newDecimal_some {value : Int} {n : Nat}
    (h : i128FromStrRadix word 10 = some value) (hword : word ≠ []) :
    let sum := saturatingAdd value amount
    newDecimal word n amount =
      if word.length + signLength sum < signLength value + n then
        .error .underflow
      else if startsWith word ['0'] ∨ startsWith word ['-', '0'] then
        if formatLength word n value sum ≤ 65535 then
          .ok (some (formatted 10 sum (formatLength word n value sum)))
        else .error .assertion
      else .ok (some (formatted 10 sum 0)) := by
  intro sum
  have hpos := List.length_pos_iff.mpr hword
  have hlength : decimalLength word value sum =
      .ok (word.length + signLength sum - signLength value) := by
    unfold decimalLength signLength
    by_cases hv : value < 0 <;> by_cases hs : sum < 0
    · rw [if_neg (by omega), if_neg (by omega), if_pos hv, if_pos hs]
      rfl
    · rw [if_pos (by omega), if_pos hv, if_neg hs, checkedSub_of_le (by omega)]
      rfl
    · rw [if_neg (by omega), if_pos (by omega), if_neg hv, if_pos hs]
      rfl
    · rw [if_neg (by omega), if_neg (by omega), if_neg hv, if_neg hs]
      rfl
  have hsign : signLength value ≤ 1 := by
    unfold signLength
    split <;> omega
  unfold newDecimal
  rw [h]
  show (do
    let length ← decimalLength word value sum
    let formatLength ← checkedSub length n
    if startsWith word ['0'] ∨ startsWith word ['-', '0'] then
      (format 10 sum formatLength).map some
    else (format 10 sum 0).map some) = _
  rw [hlength, ok_bind]
  by_cases hroom : word.length + signLength sum < signLength value + n
  · rw [if_pos hroom, checkedSub, if_neg (by omega)]
    rfl
  · rw [if_neg hroom, checkedSub_of_le (by omega), ok_bind]
    split
    · rw [format_eq, formatLength]
      split <;> rfl
    · rw [format_eq, if_pos (Nat.zero_le _)]
      rfl

/-- What the new text of a number is made from. -/
theorem increment_eq (h : ¬Rejected text) : increment text amount = (do
    let new ← newDigits (radixOf text) text (wordOf text)
      (text.count SEPARATOR) amount
    match new with
    | none => return none
    | some newText =>
        (withSeparators text (separatorRtlIndexes text)
          (radixOf text).marker.length newText).map some) := by
  have hnot : ¬(text = [] ∨ endsWith text [SEPARATOR] ∨
      startsWith text [SEPARATOR]) := h
  unfold increment
  rw [if_neg hnot]
  simp only [count_separators]
  rfl

theorem map_returns {α β : Type} {x : Result α} {f : α → β} :
    (∃ r, x.map f = .ok r) ↔ ∃ r, x = .ok r := by
  cases x with
  | ok a => exact iff_of_true ⟨_, rfl⟩ ⟨a, rfl⟩
  | error e => exact iff_of_false nofun nofun

/-- The separators of a text are done as long as it is not crowded, or its
number gets no longer. -/
theorem separators_return {prefixLength : Nat} (h : ¬Rejected text)
    (hchars : SEPARATOR ∉ chars) (hmark : prefixLength ≤ (wordOf text).length)
    (hin : ∀ gaps, text = spread SEPARATOR gaps (wordOf text) →
      ∀ p, (wordOf text).length - prefixLength < p →
        p < (wordOf text).length → gaps p = 0) :
    (∃ r, (withSeparators text (separatorRtlIndexes text) prefixLength
        chars).map some = .ok r) ↔
      (Crowded text → chars.length ≤ (wordOf text).length) := by
  obtain ⟨gaps, hgaps, hend, -⟩ := exists_gaps h
  have hspread := withSeparators_returns (not_mem_wordOf text) hchars hend
    hmark (hin gaps hgaps)
  rw [← hgaps] at hspread
  rw [map_returns]
  exact hspread

theorem decimal_returns (h : ¬Rejected text)
    (hradix : radixOf text = .decimal) :
    (∃ r, increment text amount = .ok r) ↔ DecimalCalm text amount := by
  obtain ⟨-, -, -, hne⟩ := exists_gaps h
  rw [increment_eq h, hradix, newDigits, if_pos rfl]
  unfold DecimalCalm
  cases hvalue : i128FromStrRadix (wordOf text) 10 with
  | none =>
      rw [newDecimal_none hvalue]
      exact iff_of_true ⟨none, rfl⟩ nofun
  | some value =>
      have hchars : ∀ width, (∃ r, (withSeparators text
          (separatorRtlIndexes text) 0
          (formatted 10 (saturatingAdd value amount) width)).map some =
            .ok r) ↔ (Crowded text → (formatted 10
              (saturatingAdd value amount) width).length ≤
                (wordOf text).length) := fun width =>
        separators_return h (not_mem_formatted .decimal _ width)
          (Nat.zero_le _) fun gaps _ p hp hp' => by omega
      have hcrowded : Crowded text → 2 ≤ text.count SEPARATOR :=
        Crowded.two_le_count
      rw [newDecimal_some hvalue hne]
      simp only [Option.some.injEq, forall_eq']
      generalize saturatingAdd value amount = sum at hchars ⊢
      simp only [length_formatted] at hchars
      have hsign : signLength sum ≤ 1 := by
        unfold signLength
        split <;> omega
      by_cases hroom : (wordOf text).length + signLength sum <
          signLength value + text.count SEPARATOR
      · rw [if_pos hroom]
        refine iff_of_false nofun ?_
        rintro ⟨hroom', -⟩
        omega
      · rw [if_neg hroom]
        by_cases hpadded : startsWith (wordOf text) ['0'] ∨
            startsWith (wordOf text) ['-', '0']
        · rw [if_pos hpadded]
          by_cases hwidth : formatLength (wordOf text) (text.count SEPARATOR)
              value sum ≤ 65535
          · rw [if_pos hwidth]
            refine (hchars _).trans ?_
            unfold formatLength at hwidth ⊢
            constructor
            · intro hle
              refine ⟨by omega, fun _ => by omega, fun hc => ?_⟩
              have hle' := hle hc
              omega
            · rintro ⟨-, -, hle⟩ hc
              have hle' := hle hc
              have htwo := hcrowded hc
              omega
          · rw [if_neg hwidth]
            refine iff_of_false nofun ?_
            rintro ⟨-, hpad, -⟩
            have hle := hpad hpadded
            unfold formatLength at hwidth
            omega
        · rw [if_neg hpadded]
          refine (hchars 0).trans ?_
          rw [Nat.zero_max]
          constructor
          · intro hle
            exact ⟨by omega, fun h => absurd h hpadded, hle⟩
          · rintro ⟨-, -, hle⟩
            exact hle

/-- A text with a prefix starts with it, and no separator is inside of it. -/
theorem exists_prefix (h : radixOf text ≠ .decimal) :
    ∃ c rest, text = '0' :: c :: rest ∧ c ≠ SEPARATOR ∧
      (radixOf text).marker = ['0', c] := by
  have hstarts : ∀ {c}, startsWith text ['0', c] = true →
      ∃ rest, text = '0' :: c :: rest := by
    intro c hc
    obtain ⟨rest, hrest⟩ := List.isPrefixOf_iff_prefix.mp hc
    exact ⟨rest, hrest.symm⟩
  unfold radixOf at h ⊢
  split
  · next hx =>
      obtain ⟨rest, hrest⟩ := hstarts hx
      exact ⟨'x', rest, hrest, by decide, rfl⟩
  · next hx =>
      rw [if_neg hx] at h
      split
      · next ho =>
          obtain ⟨rest, hrest⟩ := hstarts ho
          exact ⟨'o', rest, hrest, by decide, rfl⟩
      · next ho =>
          rw [if_neg ho] at h
          split
          · next hb =>
              obtain ⟨rest, hrest⟩ := hstarts hb
              exact ⟨'b', rest, hrest, by decide, rfl⟩
          · next hb =>
              rw [if_neg hb] at h
              exact absurd rfl h

theorem newPrefixed_none {radix : Radix}
    (h : u128FromStrRadix (word.drop 2) radix.base = none) (n : Nat) :
    newPrefixed radix text word n amount = .ok none := by
  unfold newPrefixed
  simp only [h]
  rfl

/-- The digits of the new number with the case of the old ones. -/
def cased (radix : Radix) (number digits : List Char) : List Char :=
  if radix = .hexadecimal ∧
      number.countP Char.isUpper > number.countP Char.isLower then
    digits.map Char.toUpper
  else digits

theorem newPrefixed_some {radix : Radix} {value n : Nat}
    (h : u128FromStrRadix (word.drop 2) radix.base = some value)
    (hlen : text.length = word.length + n) (hword : 2 ≤ word.length) :
    let sum := max 0 (saturatingAdd (asI128 value) amount)
    newPrefixed radix text word n amount =
      if word.length ≤ 65537 then
        .ok (some (radix.marker ++ cased radix (word.drop 2)
          (formatted radix.base sum (word.length - 2))))
      else .error .assertion := by
  intro sum
  have hwidth : text.length - 2 - n = word.length - 2 := by omega
  unfold newPrefixed
  simp only [h]
  rw [checkedSub_of_le (by omega), ok_bind, checkedSub_of_le (by omega),
    ok_bind, hwidth, format_eq]
  by_cases hle : word.length ≤ 65537
  · rw [if_pos (by omega), if_pos hle]
    rfl
  · rw [if_neg (by omega), if_neg hle]
    rfl

theorem length_text (h : ¬Rejected text) :
    text.length = (wordOf text).length + text.count SEPARATOR := by
  obtain ⟨gaps, hgaps, -, -⟩ := exists_gaps h
  have hlen := @length_spread _ SEPARATOR gaps (wordOf text)
  have hcount := @length_separators gaps _ (not_mem_wordOf text)
  rw [← hgaps] at hlen hcount
  rw [hlen, ← hcount, count_separators]

theorem length_cased (radix : Radix) (number digits : List Char) :
    (cased radix number digits).length = digits.length := by
  unfold cased
  split
  · exact List.length_map _
  · rfl

/-- No gap inside of a prefix. -/
theorem gaps_prefix {c : Char} {rest : List Char} (hc : c ≠ SEPARATOR)
    (hgaps : '0' :: c :: rest = spread SEPARATOR gaps ('0' :: c :: word))
    {p : Nat} (hp : ('0' :: c :: word).length - 2 < p)
    (hp' : p < ('0' :: c :: word).length) : gaps p = 0 := by
  rw [List.length_cons, List.length_cons] at hp hp'
  obtain rfl : p = (c :: word).length := by
    rw [List.length_cons]
    omega
  by_contra hne
  obtain ⟨k, hk⟩ := Nat.exists_eq_succ_of_ne_zero hne
  rw [spread, hk, List.replicate_succ] at hgaps
  exact hc (List.cons.inj (List.cons.inj hgaps).2).1

theorem prefixed_returns (h : ¬Rejected text)
    (hradix : radixOf text ≠ .decimal) :
    (∃ r, increment text amount = .ok r) ↔ PrefixedCalm text amount := by
  obtain ⟨c, rest, htext, hc, hmarker⟩ := exists_prefix hradix
  have hword : wordOf text = '0' :: c :: wordOf rest := by
    rw [htext, wordOf, List.filter_cons, if_pos (by decide), List.filter_cons,
      if_pos (decide_eq_true hc)]
    rfl
  have hlong : 2 ≤ (wordOf text).length := by
    rw [hword, List.length_cons, List.length_cons]
    omega
  rw [increment_eq h, newDigits, if_neg hradix]
  unfold PrefixedCalm
  cases hvalue : u128FromStrRadix ((wordOf text).drop 2)
      (radixOf text).base with
  | none =>
      rw [newPrefixed_none hvalue]
      exact iff_of_true ⟨none, rfl⟩ nofun
  | some value =>
      rw [newPrefixed_some hvalue (length_text h) hlong]
      simp only [Option.some.injEq, forall_eq']
      generalize hsum : max 0 (saturatingAdd (asI128 value) amount) = sum
      by_cases hle : (wordOf text).length ≤ 65537
      · have hdigits : SEPARATOR ∉ (radixOf text).marker ++
            cased (radixOf text) ((wordOf text).drop 2)
              (formatted (radixOf text).base sum
                ((wordOf text).length - 2)) := by
          rw [List.mem_append, not_or, hmarker]
          refine ⟨?_, ?_⟩
          · intro hmem
            rcases List.mem_cons.mp hmem with heq | hmem
            · exact absurd heq (by decide)
            · exact hc (List.mem_singleton.mp hmem).symm
          · unfold cased
            split
            · exact not_mem_toUpper _ _ _
            · exact not_mem_formatted _ _ _
        have hmark : (radixOf text).marker.length = 2 := by
          rw [hmarker]
          rfl
        rw [if_pos hle]
        refine (separators_return h hdigits (hmark ▸ hlong)
          fun gaps hgaps p hp hp' => ?_).trans ?_
        · rw [hmark, hword] at hp
          rw [hword] at hgaps hp'
          exact gaps_prefix hc (htext ▸ hgaps) hp hp'
        · have hsign : signLength sum = 0 := by
            refine if_neg ?_
            rw [← hsum]
            exact Int.not_lt.mpr (le_max_left _ _)
          rw [List.length_append, hmark, length_cased, length_formatted,
            hsign, Nat.zero_add]
          constructor
          · intro hshort
            refine ⟨hle, fun hcrowded => ?_⟩
            have hle' := hshort hcrowded
            omega
          · rintro ⟨-, hshort⟩ hcrowded
            have hle' := hshort hcrowded
            omega
      · rw [if_neg hle]
        refine iff_of_false nofun ?_
        rintro ⟨hle', -⟩
        exact hle hle'

/-- When the command returns. -/
theorem increment_returns (text : List Char) (amount : Int) :
    (∃ r, increment text amount = .ok r) ↔
      Rejected text ∨ (if radixOf text = .decimal then DecimalCalm text amount
        else PrefixedCalm text amount) := by
  by_cases h : Rejected text
  · have hnone : increment text amount = .ok none := by
      have hreject : text = [] ∨ endsWith text [SEPARATOR] ∨
          startsWith text [SEPARATOR] := h
      unfold increment
      rw [if_pos hreject]
      rfl
    exact iff_of_true ⟨none, hnone⟩ (.inl h)
  · rw [or_iff_right h]
    split
    · next hradix => exact decimal_returns h hradix
    · next hradix => exact prefixed_returns h hradix

/-- Three separators in a number of two digits, and a number that gets longer
in front of two separators in one place. -/
theorem not_increment_returns :
    ¬(∃ r, increment ['1', '_', '_', '_', '2'] 1 = .ok r) ∧
      ¬∃ r, increment ['9', '_', '_', '9'] 1 = .ok r := by
  have hsub : increment ['1', '_', '_', '_', '2'] 1 = .error .underflow := by
    decide
  have hloop : increment ['9', '_', '_', '9'] 1 = .error .diverges := by
    decide
  constructor
  · rintro ⟨r, hr⟩
    cases hsub.symm.trans hr
  · rintro ⟨r, hr⟩
    cases hloop.symm.trans hr

end Zmax.Increment
