/-
The tokenizer on any input: it never panics and always advances.

Positions are char boundaries throughout, because the bytes next to them are
ASCII. In unquoted text the part not yet copied starts in front of every
backslash that is looked at.
-/
import Mathlib.Data.List.TakeWhile
import Zmax.Core.CommandLine
import Zmax.Lib.Reach

namespace Zmax.CommandLine

open Utf8

-- == slices

theorem sliceStr_of {s : Str} {start stop : Nat} (hle : start ≤ stop)
    (hstart : isCharBoundary s start = true)
    (hstop : isCharBoundary s stop = true) :
    sliceStr s start stop = .ok ((s.drop start).take (stop - start)) :=
  if_pos ⟨hle, hstart, hstop⟩

theorem sliceStr_tail {s : Str} {start : Nat}
    (hstart : isCharBoundary s start = true) :
    sliceStr s start s.length = .ok (s.drop start) := by
  rw [sliceStr_of (boundary_le hstart) hstart (boundary_length s)]
  exact congrArg _ (List.take_of_length_le (by simp))

namespace Tokenizer

/-- The input is valid UTF-8 as far as it matters, and the position cuts no
char. -/
structure Sound (t : Tokenizer) : Prop where
  whole : Whole t.input
  boundary : isCharBoundary t.input t.pos = true

variable {b : UInt8} {pos : Nat} {s : Str} {t : Tokenizer}

theorem isBlank_ascii (h : isBlank b = true) : b.toNat < 128 := by
  rcases of_decide_eq_true h with rfl | rfl <;> decide

-- == runs

/-- Where the bytes stop that a loop passes over. -/
theorem takeWhile_spec (p : UInt8 → Bool) (s : Str) (pos : Nat) :
    let stop := pos + ((s.drop pos).takeWhile p).length
    (∀ i, pos ≤ i → i < stop → ∃ b, s[i]? = some b ∧ p b = true) ∧
      ∀ b, s[stop]? = some b → p b = false := by
  have hsplit := List.takeWhile_append_dropWhile (p := p) (l := s.drop pos)
  have hget : ∀ j, s[pos + j]? =
      ((s.drop pos).takeWhile p ++ (s.drop pos).dropWhile p)[j]? := by
    intro j
    rw [hsplit, List.getElem?_drop]
  refine ⟨fun i hi hlt => ?_, fun b hb => ?_⟩
  · have hj : i - pos < ((s.drop pos).takeWhile p).length := by omega
    have hi' : s[i]? = ((s.drop pos).takeWhile p)[i - pos]? := by
      have := hget (i - pos)
      rwa [Nat.add_sub_cancel' hi, List.getElem?_append_left hj] at this
    rw [hi', List.getElem?_eq_getElem hj]
    exact ⟨_, rfl, List.mem_takeWhile_imp (List.getElem_mem hj)⟩
  · rw [hget, List.getElem?_append_right (Nat.le_refl _), Nat.sub_self] at hb
    rw [← List.head?_eq_getElem?] at hb
    have hhead := List.head?_dropWhile_not p (s.drop pos)
    rwa [hb] at hhead

theorem boundary_run (hs : Whole s) {stop : Nat} (hle : pos ≤ stop)
    (hpos : isCharBoundary s pos = true)
    (hrun : ∀ i, pos ≤ i → i < stop → ∃ b, s[i]? = some b ∧ b.toNat < 128) :
    isCharBoundary s stop = true := by
  rcases Nat.eq_or_lt_of_le hle with rfl | hlt
  · exact hpos
  · obtain ⟨b, hb, hascii⟩ := hrun (stop - 1) (by omega) (by omega)
    have := hs (stop - 1) b hb hascii
    rwa [Nat.sub_add_cancel (by omega)] at this

/-- Blanks are skipped up to a byte that is none. -/
theorem skipBlanks_spec (ht : t.Sound) :
    t.skipBlanks.Sound ∧ t.pos ≤ t.skipBlanks.pos ∧
      ∀ b, t.skipBlanks.byte = some b → isBlank b = false := by
  obtain ⟨hrun, hstop⟩ := takeWhile_spec isBlank t.input t.pos
  refine ⟨⟨ht.whole, ?_⟩, Nat.le_add_right _ _, hstop⟩
  refine boundary_run ht.whole (Nat.le_add_right _ _) ht.boundary ?_
  intro i hi hlt
  obtain ⟨b, hb, hblank⟩ := hrun i hi hlt
  exact ⟨b, hb, isBlank_ascii hblank⟩

-- == parse_unquoted

theorem prevByte_of (hle : pos ≤ s.length) :
    ∃ b, prevByte s pos = .ok b ∧
      ∀ x, b = some x → 0 < pos ∧ s[pos - 1]? = some x := by
  unfold prevByte
  split
  · exact ⟨none, rfl, by simp⟩
  · rename_i hpos
    have hlt : pos - 1 < s.length := by omega
    refine ⟨some s[pos - 1], ?_, fun x hx => ⟨by omega, ?_⟩⟩
    · rw [index_eq_ok.mpr (List.getElem?_eq_getElem hlt)]
      rfl
    · rw [List.getElem?_eq_getElem hlt, Option.some.inj hx]

/-- What is copied next starts at `start`: in front of the last byte, or
right at the position, behind an escaped blank or at the token's start. -/
def Copied (s : Str) (start pos : Nat) : Prop :=
  start < pos ∨ start = pos ∧
    ((∃ b, s[pos]? = some b ∧ isBlank b = false) ∨
      ∃ b, 0 < pos ∧ s[pos - 1]? = some b ∧ isBlank b = true)

/-- In front of a backslash there is a place to stop copying. -/
theorem copied_backslash (hs : Whole s) {start : Nat}
    (hcopied : Copied s start pos) (hpos : 0 < pos)
    (hprev : s[pos - 1]? = some (CommandLine.byte '\\'))
    (hnext : ∀ b, s[pos]? = some b → isBlank b = true) :
    start ≤ pos - 1 ∧ isCharBoundary s (pos - 1) = true ∧
      isCharBoundary s pos = true := by
  have hascii : (CommandLine.byte '\\').toNat < 128 := by decide
  refine ⟨?_, boundary_ascii hprev hascii, ?_⟩
  · rcases hcopied with hlt | ⟨-, ⟨b, hb, hblank⟩ | ⟨b, -, hb, hblank⟩⟩
    · omega
    · rw [hnext b hb] at hblank
      cases hblank
    · rw [hprev] at hb
      obtain rfl := Option.some.inj hb
      exact absurd hblank (by decide)
  · have := hs (pos - 1) _ hprev hascii
    rwa [Nat.sub_add_cancel hpos] at this

theorem unquotedEnd_spec {s : Str} (hs : Whole s) {escaped : Str}
    {start pos : Nat} (hstart : isCharBoundary s start = true)
    (hle : start ≤ pos) (hpos : isCharBoundary s pos = true)
    (hcopied : Copied s start pos)
    (hnext : ∀ b, s[pos]? = some b → isBlank b = true)
    (hend : escaped = [] → pos = s.length) :
    ∃ content, unquotedEnd s escaped start pos = .ok (content, pos) := by
  obtain ⟨prev, hprev, hbyte⟩ := prevByte_of (boundary_le hpos)
  unfold unquotedEnd
  rw [hprev, ok_bind]
  have hslice : ∃ content, sliceStr s start
      (if prev = some (CommandLine.byte '\\') then pos - 1 else pos) = .ok content := by
    split
    · rename_i h
      obtain ⟨hpos0, hget⟩ := hbyte _ h
      obtain ⟨hle', hbound, -⟩ := copied_backslash hs hcopied hpos0 hget hnext
      exact ⟨_, sliceStr_of hle' hstart hbound⟩
    · exact ⟨_, sliceStr_of hle hstart hpos⟩
  obtain ⟨content, hcontent⟩ := hslice
  refine ⟨escaped ++ content, ?_⟩
  simp only [hcontent, ok_bind]
  split
  · rename_i h
    rw [decide_eq_true (hend h), assert_true]
    rfl
  · rfl

/-- The loop stops behind a first byte that is no blank, or where it began. -/
theorem unquotedLoop_spec (hs : Whole s) (bytes escaped : Str) {start : Nat}
    (hstart : isCharBoundary s start = true) (hbytes : s.drop pos = bytes)
    (hle : pos ≤ s.length) (hcopied : Copied s start pos) :
    ∃ content stop, unquotedLoop s bytes escaped start pos =
        .ok (content, stop) ∧ pos ≤ stop ∧ isCharBoundary s stop = true ∧
      ((∃ b, s[pos]? = some b ∧ isBlank b = false) → pos < stop) := by
  induction bytes generalizing escaped start pos with
  | nil =>
      have hend : pos = s.length := by
        have := congrArg List.length hbytes
        simp only [List.length_drop, List.length_nil] at this
        omega
      have hnone : s[pos]? = none := List.getElem?_eq_none (by omega)
      obtain ⟨content, hcontent⟩ := @unquotedEnd_spec s hs escaped start pos
        hstart (by rcases hcopied with h | ⟨h, -⟩ <;> omega)
        (by rw [hend]; exact boundary_length s) hcopied (by simp [hnone])
        fun _ => hend
      refine ⟨content, pos, hcontent, Nat.le_refl _, ?_, ?_⟩
      · rw [hend]
        exact boundary_length s
      · rintro ⟨b, hb, -⟩
        rw [hnone] at hb
        cases hb
  | cons b bytes ih =>
      have hb : s[pos]? = some b := by
        rw [← List.head?_drop, hbytes, List.head?_cons]
      have hlt : pos < s.length := (List.getElem?_eq_some_iff.mp hb).1
      have hbytes' : s.drop (pos + 1) = bytes := by
        rw [← List.drop_drop, hbytes]
        rfl
      unfold unquotedLoop
      by_cases hblank : isBlank b = true
      · obtain ⟨prev, hprev, hbyte⟩ := prevByte_of hle
        have hbpos : isCharBoundary s pos = true :=
          boundary_ascii hb (isBlank_ascii hblank)
        have hnext : ∀ x, s[pos]? = some x → isBlank x = true := by
          intro x hx
          rw [hb] at hx
          rwa [← Option.some.inj hx]
        have hskip : ∀ stop : Nat,
            (∃ x, s[pos]? = some x ∧ isBlank x = false) → pos < stop := by
          rintro stop ⟨x, hx, hno⟩
          rw [hnext x hx] at hno
          cases hno
        rw [if_pos hblank, hprev, ok_bind]
        by_cases hback : prev = some (CommandLine.byte '\\')
        · -- the blank is escaped
          obtain ⟨hpos0, hget⟩ := hbyte _ hback
          obtain ⟨hle', hbound, -⟩ :=
            copied_backslash hs hcopied hpos0 hget hnext
          rw [if_pos hback, sliceStr_of hle' hstart hbound, ok_bind]
          obtain ⟨content, stop, hloop, hstop, hbstop, -⟩ := ih _
            (hs pos b hb (isBlank_ascii hblank)) hbytes' hlt
            (.inr ⟨rfl, .inr ⟨b, by omega, hb, hblank⟩⟩)
          exact ⟨content, stop, hloop, by omega, hbstop, hskip stop⟩
        · rw [if_neg hback]
          by_cases hescaped : escaped = []
          · rw [if_pos hescaped, sliceStr_of
              (by rcases hcopied with h | ⟨h, -⟩ <;> omega) hstart hbpos]
            exact ⟨_, pos, rfl, Nat.le_refl _, hbpos, hskip pos⟩
          · rw [if_neg hescaped]
            obtain ⟨content, hcontent⟩ := unquotedEnd_spec hs hstart
              (by rcases hcopied with h | ⟨h, -⟩ <;> omega) hbpos hcopied hnext
              fun h => absurd h hescaped
            exact ⟨content, pos, hcontent, Nat.le_refl _, hbpos, hskip pos⟩
      · rw [if_neg hblank]
        obtain ⟨content, stop, hloop, hstop, hbstop, -⟩ := ih escaped hstart
          hbytes' hlt
          (.inl (by rcases hcopied with h | ⟨h, -⟩ <;> omega))
        exact ⟨content, stop, hloop, by omega, hbstop, fun _ => by omega⟩

theorem parseUnquoted_spec (ht : t.Sound) (hbyte : t.byte = some b)
    (hblank : isBlank b = false) :
    ∃ content stop, t.parseUnquoted = .ok (content, { t with pos := stop }) ∧
      t.pos < stop ∧ isCharBoundary t.input stop = true := by
  obtain ⟨content, stop, hloop, -, hbound, hlt⟩ := unquotedLoop_spec ht.whole
    (t.input.drop t.pos) [] ht.boundary rfl (boundary_le ht.boundary)
    (.inr ⟨rfl, .inl ⟨b, hbyte, hblank⟩⟩)
  refine ⟨content, stop, ?_, hlt ⟨b, hbyte, hblank⟩, hbound⟩
  unfold parseUnquoted
  rw [hloop]
  rfl

-- == parse_quoted

theorem boundary_after (hs : Whole s) {i : Nat} (hb : s[i]? = some b)
    (hascii : b.toNat < 128) :
    isCharBoundary s i = true ∧ isCharBoundary s (i + 1) = true :=
  ⟨boundary_ascii hb hascii, hs i b hb hascii⟩

theorem getElem?_found {offset : Nat} {p : UInt8 → Bool}
    (h : (s.drop pos).findIdx? p = some offset) :
    ∃ b, s[pos + offset]? = some b ∧ p b = true := by
  obtain ⟨hlt, hp, -⟩ := List.findIdx?_eq_some_iff_getElem.mp h
  refine ⟨_, ?_, hp⟩
  rw [← List.getElem?_drop, List.getElem?_eq_getElem hlt]

theorem quotedLoop_spec {s : Str} (hs : Whole s) {quote : UInt8}
    (hquote : quote.toNat < 128) {fuel : Nat} (escaped : Str) {pos : Nat}
    (hpos : isCharBoundary s pos = true) (hfuel : s.length < fuel + pos) :
    ∃ content isTerminated stop, quotedLoop s quote fuel escaped pos =
        .ok (content, isTerminated, stop) ∧
      pos ≤ stop ∧ isCharBoundary s stop = true := by
  have hle := boundary_le hpos
  induction fuel generalizing escaped pos with
  | zero => omega
  | succ fuel ih =>
      unfold quotedLoop
      rw [sliceStr_tail hpos, ok_bind]
      cases hfind : (s.drop pos).idxOf? quote with
      | none => exact ⟨_, _, _, rfl, hle, boundary_length s⟩
      | some offset =>
          obtain ⟨b, hb, heq⟩ := getElem?_found hfind
          obtain rfl : b = quote := by simpa using heq
          obtain ⟨hidx, hafter⟩ := boundary_after hs hb hquote
          simp only
          by_cases hdouble : s[pos + offset + 1]? = some b
          · have hafter' := (boundary_after hs hdouble hquote).2
            rw [if_pos hdouble, sliceStr_of (by omega) hpos hafter, ok_bind]
            obtain ⟨content, isTerminated, stop, hloop, hstop, hbound⟩ :=
              ih _ hafter' (by omega) (boundary_le hafter')
            exact ⟨content, isTerminated, stop, hloop, by omega, hbound⟩
          · rw [if_neg hdouble, sliceStr_of (by omega) hpos hidx]
            exact ⟨_, _, _, rfl, by omega, hafter⟩

/-- A quoted text is left behind its opening quote or later. -/
theorem parseQuoted_spec (ht : t.Sound) {quote : UInt8}
    (hbyte : t.byte = some quote) (hquote : quote.toNat < 128) :
    ∃ content isTerminated stop, t.parseQuoted quote =
        .ok (content, isTerminated, { t with pos := stop }) ∧
      t.pos < stop ∧ isCharBoundary t.input stop = true := by
  have hlt := (List.getElem?_eq_some_iff.mp hbyte).1
  obtain ⟨content, isTerminated, stop, hloop, hle, hbound⟩ :=
    @quotedLoop_spec t.input ht.whole quote hquote t.input.length []
      (t.pos + 1) (boundary_after ht.whole hbyte hquote).2 (by omega)
  refine ⟨content, isTerminated, stop, ?_, by omega, hbound⟩
  unfold parseQuoted
  rw [decide_eq_true hbyte, assert_true, ok_bind, hloop]
  rfl

-- == parse_quoted_balanced

theorem balancedLoop_spec {s : Str} (hs : Whole s) {opening closing : UInt8}
    (hopening : opening.toNat < 128) (hclosing : closing.toNat < 128)
    {start : Nat} {fuel : Nat} {level : Int} {pos : Nat}
    (hpos : isCharBoundary s pos = true) (hfuel : s.length < fuel + pos)
    (hlevel : level = 0 → start < pos ∧ isCharBoundary s (pos - 1) = true)
    (hstart : start ≤ pos) :
    ∃ isTerminated stop,
      balancedLoop s opening closing fuel level pos =
        .ok (isTerminated, stop) ∧
      pos ≤ stop ∧ isCharBoundary s stop = true ∧
      (isTerminated = true → start < stop ∧
        isCharBoundary s (stop - 1) = true) := by
  have hle := boundary_le hpos
  induction fuel generalizing level pos with
  | zero => omega
  | succ fuel ih =>
      unfold balancedLoop
      rw [sliceStr_tail hpos, ok_bind]
      cases hfind : (s.drop pos).findIdx?
          (fun b => b = opening ∨ b = closing) with
      | none =>
          exact ⟨_, pos, rfl, Nat.le_refl _, hpos,
            fun h => hlevel (of_decide_eq_true h)⟩
      | some offset =>
          obtain ⟨b, hb, heq⟩ := getElem?_found hfind
          have heq : b = opening ∨ b = closing := of_decide_eq_true heq
          have hascii : b.toNat < 128 := by
            rcases heq with rfl | rfl
            · exact hopening
            · exact hclosing
          obtain ⟨hidx, hafter⟩ := boundary_after hs hb hascii
          have hnext : ∀ level' : Int, ∃ isTerminated stop,
              balancedLoop s opening closing fuel level' (pos + offset + 1) =
                .ok (isTerminated, stop) ∧
              pos ≤ stop ∧ isCharBoundary s stop = true ∧
              (isTerminated = true → start < stop ∧
                isCharBoundary s (stop - 1) = true) := by
            intro level'
            obtain ⟨isTerminated, stop, hloop, hstop, hbound, hend⟩ :=
              @ih level' (pos + offset + 1) hafter (by omega)
                (fun _ => ⟨by omega, hidx⟩) (by omega) (boundary_le hafter)
            exact ⟨isTerminated, stop, hloop, by omega, hbound, hend⟩
          simp only [index_eq_ok.mpr hb, ok_bind]
          by_cases hopen : b = opening
          · rw [if_pos hopen]
            exact hnext _
          · rw [if_neg hopen, if_pos (heq.resolve_left hopen)]
            split
            · exact ⟨true, _, rfl, by omega, hafter, fun _ => ⟨by omega, hidx⟩⟩
            · exact hnext _

theorem parseQuotedBalanced_spec (ht : t.Sound) {opening closing : UInt8}
    (hbyte : t.byte = some opening) (hopening : opening.toNat < 128)
    (hclosing : closing.toNat < 128) :
    ∃ content isTerminated stop, t.parseQuotedBalanced opening closing =
        .ok (content, isTerminated, { t with pos := stop }) ∧
      t.pos < stop ∧ isCharBoundary t.input stop = true := by
  have hlt := (List.getElem?_eq_some_iff.mp hbyte).1
  have hafter := (boundary_after ht.whole hbyte hopening).2
  obtain ⟨isTerminated, stop, hloop, hle, hbound, hend⟩ :=
    @balancedLoop_spec t.input ht.whole opening closing hopening hclosing
      (t.pos + 1) t.input.length 1 (t.pos + 1) hafter (by omega) (by simp)
      (Nat.le_refl _)
  unfold parseQuotedBalanced
  rw [decide_eq_true hbyte, assert_true, ok_bind]
  simp only [hloop, ok_bind]
  cases isTerminated with
  | true =>
      obtain ⟨hpos, hstop⟩ := hend rfl
      simp only [if_true, checkedSub_of_le (show 1 ≤ stop by omega), ok_bind,
        sliceStr_of (show t.pos + 1 ≤ stop - 1 by omega) hafter hstop]
      exact ⟨_, true, stop, rfl, by omega, hbound⟩
  | false =>
      simp only [Bool.false_eq_true, if_false, ok_bind, sliceStr_tail hafter]
      exact ⟨_, false, t.input.length, rfl, hlt, boundary_length _⟩

-- == one token

/-- Where a token's content starts in the input. -/
def sourcePos : Except ParseArgsError Token → Option Nat
  | .ok token => some token.contentStart
  | .error (.unterminatedToken token) => some token.contentStart
  | .error _ => none

/-- An item has been read from the bytes between two positions. -/
structure Advance (t : Tokenizer) (item : Except ParseArgsError Token)
    (t' : Tokenizer) : Prop where
  input : t'.input = t.input
  validate : t'.validate = t.validate
  sound : t'.Sound
  pos : t.pos < t'.pos
  start : ∀ p, sourcePos item = some p → t.pos ≤ p ∧ p ≤ t'.pos

theorem advance_of (ht : t.Sound) {item : Except ParseArgsError Token}
    {stop : Nat} (hpos : t.pos < stop)
    (hbound : isCharBoundary t.input stop = true)
    (hstart : ∀ p, sourcePos item = some p → t.pos ≤ p ∧ p ≤ stop) :
    Advance t item { t with pos := stop } :=
  ⟨rfl, rfl, ⟨ht.whole, hbound⟩, hpos, hstart⟩

/-- Both outcomes for a token have its position. -/
theorem sourcePos_ite {p : Prop} [Decidable p] (token : Token) :
    sourcePos (if p then .error (.unterminatedToken token) else .ok token) =
      some token.contentStart := by
  split <;> rfl

theorem delimiters_spec {b : Option UInt8} {opening closing : UInt8}
    (h : delimiters b = some (opening, closing)) :
    b = some opening ∧ opening.toNat < 128 ∧ closing.toNat < 128 := by
  cases b with
  | none => cases h
  | some b =>
      unfold delimiters at h
      simp only at h
      split at h
      · rename_i heq
        cases h
        subst heq
        decide
      · split at h
        · rename_i heq
          cases h
          subst heq
          decide
        · split at h
          · rename_i heq
            cases h
            subst heq
            decide
          · split at h
            · rename_i heq
              cases h
              subst heq
              decide
            · split at h
              · rename_i hsame
                cases h
                rcases hsame with rfl | rfl | rfl <;> decide
              · cases h

theorem parsePercentToken_spec (ht : t.Sound)
    (hbyte : t.byte = some (CommandLine.byte '%')) :
    ∃ item t', t.parsePercentToken = .ok (item, t') ∧ Advance t item t' := by
  have hpercent := (boundary_after ht.whole hbyte (by decide)).2
  obtain ⟨hrun, -⟩ := takeWhile_spec isAsciiLowercase t.input (t.pos + 1)
  unfold parsePercentToken
  rw [decide_eq_true hbyte, assert_true, ok_bind]
  simp only [sliceStr_tail hpercent, ok_bind]
  have hle : t.pos + 1 ≤ t.pos + 1 +
      ((t.input.drop (t.pos + 1)).takeWhile isAsciiLowercase).length :=
    Nat.le_add_right _ _
  generalize t.pos + 1 +
    ((t.input.drop (t.pos + 1)).takeWhile isAsciiLowercase).length = stop
    at hrun hle ⊢
  have hstop : isCharBoundary t.input stop = true := by
    refine boundary_run ht.whole hle hpercent fun i hi hlt => ?_
    obtain ⟨b, hb, hlower⟩ := hrun i hi hlt
    have hz : b.toNat ≤ (CommandLine.byte 'z').toNat :=
      (of_decide_eq_true hlower).2
    exact ⟨b, hb, Nat.lt_of_le_of_lt hz (by decide)⟩
  simp only [sliceStr_of hle hpercent hstop, ok_bind]
  have hsound : Sound { t with pos := stop } := ⟨ht.whole, hstop⟩
  split
  · refine ⟨_, _, rfl, advance_of ht (by omega) hstop fun p hp => ?_⟩
    split at hp
    · cases hp
    · obtain rfl := Option.some.inj hp
      simp only
      omega
  · rename_i opening closing hdelim
    obtain ⟨hopen, hopening, hclosing⟩ := delimiters_spec hdelim
    split
    · exact ⟨_, _, rfl, advance_of ht (by omega) hstop (by simp [sourcePos])⟩
    · by_cases hsame : opening = closing
      · obtain ⟨content, isTerminated, last, hquoted, hlast, hbound⟩ :=
          parseQuoted_spec hsound hopen hopening
        simp only at hlast hbound
        simp only [if_pos hsame, hquoted, ok_bind]
        refine ⟨_, _, rfl, advance_of ht (by omega) hbound fun p hp => ?_⟩
        rw [sourcePos_ite] at hp
        obtain rfl := Option.some.inj hp
        simp only
        omega
      · obtain ⟨content, isTerminated, last, hquoted, hlast, hbound⟩ :=
          parseQuotedBalanced_spec hsound hopen hopening hclosing
        simp only at hlast hbound
        simp only [if_neg hsame, hquoted, ok_bind]
        refine ⟨_, _, rfl, advance_of ht (by omega) hbound fun p hp => ?_⟩
        rw [sourcePos_ite] at hp
        obtain rfl := Option.some.inj hp
        simp only
        omega

theorem quoteKind_ascii (h : (quoteKind b).isSome) : b.toNat < 128 := by
  unfold quoteKind at h
  split at h
  · subst b
    decide
  · split at h
    · subst b
      decide
    · split at h
      · subst b
        decide
      · cases h

/-- One call of `next`. -/
theorem next_spec (ht : t.Sound) :
    ∃ item t', t.next = .ok (item, t') ∧ (t'.Sound ∧ t'.input = t.input) ∧
      ∀ x, item = some x → Advance t x t' := by
  obtain ⟨hsound, hle, hblank⟩ := skipBlanks_spec ht
  have hinput : t.skipBlanks.input = t.input := rfl
  have hvalidate : t.skipBlanks.validate = t.validate := rfl
  -- what is read behind the blanks is read behind the position
  have hfrom : ∀ {x t'}, Advance t.skipBlanks x t' →
      (t'.Sound ∧ t'.input = t.input) ∧
        ∀ y, some x = some y → Advance t y t' := by
    intro x t' h
    refine ⟨⟨h.sound, h.input⟩, fun y hy => ?_⟩
    obtain rfl := Option.some.inj hy
    refine ⟨h.input, h.validate, h.sound, Nat.lt_of_le_of_lt hle h.pos, ?_⟩
    intro p hp
    obtain ⟨hlow, hhigh⟩ := h.start p hp
    exact ⟨Nat.le_trans hle hlow, hhigh⟩
  unfold next
  generalize t.skipBlanks = u at *
  simp only
  cases hbyte : u.byte with
  | none => exact ⟨none, u, rfl, ⟨hsound, hinput⟩, by simp⟩
  | some b =>
      simp only
      cases hkind : quoteKind b with
      | some kind =>
          have hascii := quoteKind_ascii (b := b) (by rw [hkind]; rfl)
          obtain ⟨content, isTerminated, last, hquoted, hlast, hbound⟩ :=
            parseQuoted_spec hsound hbyte hascii
          simp only [hquoted, ok_bind]
          refine ⟨_, _, rfl, hfrom (advance_of hsound hlast hbound ?_)⟩
          intro p hp
          rw [sourcePos_ite] at hp
          obtain rfl := Option.some.inj hp
          simp only
          omega
      | none =>
          simp only
          by_cases hpercent : b = CommandLine.byte '%'
          · subst hpercent
            obtain ⟨item, t', hitem, hadvance⟩ :=
              parsePercentToken_spec hsound hbyte
            rw [if_pos rfl, hitem]
            exact ⟨some item, t', rfl, hfrom hadvance⟩
          · rw [if_neg hpercent]
            obtain ⟨v, c, hv, hvsound, hvle, hvbyte, hvblank⟩ :
                ∃ v c, (if b = CommandLine.byte '\\' ∧
                    u.peekByte.any (fun p => (quoteKind p).isSome ∨
                      p = CommandLine.byte '%')
                  then { u with pos := u.pos + 1 } else u) =
                    { u with pos := v } ∧ Sound { u with pos := v } ∧
                  u.pos ≤ v ∧ u.input[v]? = some c ∧ isBlank c = false := by
              split
              · rename_i hescape
                obtain ⟨hback, hpeek⟩ := hescape
                obtain ⟨c, hc⟩ : ∃ c, u.peekByte = some c := by
                  cases hc : u.peekByte with
                  | none => simp [hc] at hpeek
                  | some c => exact ⟨c, rfl⟩
                rw [hc] at hpeek
                have hquote : (quoteKind c).isSome ∨
                    c = CommandLine.byte '%' := of_decide_eq_true hpeek
                refine ⟨u.pos + 1, c, rfl, ⟨hsound.whole, ?_⟩, by omega, hc, ?_⟩
                · exact (boundary_after hsound.whole hbyte
                    (by rw [hback]; decide)).2
                · rw [Bool.eq_false_iff]
                  intro hblank'
                  rcases of_decide_eq_true hblank' with rfl | rfl
                  · exact absurd hquote (by decide)
                  · exact absurd hquote (by decide)
              · exact ⟨u.pos, b, rfl, hsound, Nat.le_refl _, hbyte,
                  hblank b hbyte⟩
            rw [hv]
            obtain ⟨content, stop, hcontent, hlast, hbound⟩ :=
              parseUnquoted_spec hvsound hvbyte hvblank
            simp only at hlast hbound
            simp only [hcontent, ok_bind]
            refine ⟨_, _, rfl, hfrom (advance_of hsound (by omega) hbound ?_)⟩
            intro p hp
            obtain rfl := Option.some.inj hp
            simp only
            omega

-- == all tokens

theorem collect_spec {fuel : Nat} (ht : t.Sound)
    (hfuel : t.input.length < fuel + t.pos) :
    ∃ items, collect fuel t = .ok items ∧
      (items.filterMap sourcePos).Pairwise (· ≤ ·) ∧
      ∀ p ∈ items.filterMap sourcePos, t.pos ≤ p ∧ p ≤ t.input.length := by
  have hle := boundary_le ht.boundary
  induction fuel generalizing t with
  | zero => omega
  | succ fuel ih =>
      obtain ⟨item, t', hnext, ⟨hsound, hinput⟩, hadvance⟩ := next_spec ht
      unfold collect
      rw [hnext, ok_bind]
      cases item with
      | none => exact ⟨[], rfl, List.Pairwise.nil, by simp⟩
      | some x =>
          obtain ⟨-, -, -, hpos, hstart⟩ := hadvance x rfl
          have hle' := boundary_le hsound.boundary
          obtain ⟨items, hitems, hpairs, hbounds⟩ :=
            ih hsound (by rw [hinput]; omega) hle'
          rw [hinput] at hbounds hle'
          simp only [hitems, ok_bind]
          refine ⟨x :: items, rfl, ?_, ?_⟩
          · rw [List.filterMap_cons]
            split
            · exact hpairs
            · rename_i p hp
              refine List.pairwise_cons.mpr ⟨fun q hq => ?_, hpairs⟩
              have := hstart p hp
              have := hbounds q hq
              omega
          · intro q hmem
            obtain ⟨y, hy, hq⟩ := List.mem_filterMap.mp hmem
            rcases List.mem_cons.mp hy with rfl | hy
            · have := hstart q hq
              omega
            · have := hbounds q (List.mem_filterMap.mpr ⟨y, hy, hq⟩)
              omega

theorem new_sound (input : List Char) (validate : Bool) :
    (Tokenizer.new (encode input) validate).Sound :=
  ⟨encode_whole input, boundary_zero _⟩

/-- The tokenizer's runs, one call of `next` at a time. -/
def Runs (t t' : Tokenizer) : Prop :=
  Reach.Reaches (fun _ _ => True) (fun t (_ : Unit) => Prod.snd <$> t.next)
    t t'

/-- Whatever the input is: no call of `next` panics, one that yields a token
advances, and so the tokens come to an end. They start one behind the other,
inside the input. -/
theorem tokenizer_law (input : List Char) (validate : Bool) :
    (∀ t, Runs (Tokenizer.new (encode input) validate) t →
      ∃ item t', t.next = .ok (item, t') ∧
        t'.pos ≤ (encode input).length ∧
        (item ≠ none → t.pos < t'.pos)) ∧
      ∃ items, collect ((encode input).length + 1)
          (Tokenizer.new (encode input) validate) = .ok items ∧
        (items.filterMap sourcePos).Pairwise (· ≤ ·) ∧
        ∀ p ∈ items.filterMap sourcePos, p ≤ (encode input).length := by
  have hnew := new_sound input validate
  refine ⟨fun t hruns => ?_, ?_⟩
  · have hsound : t.Sound ∧ t.input = encode input := by
      refine hruns.invariant (I := fun s => s.Sound ∧ s.input = encode input)
        ⟨hnew, rfl⟩ ?_
      rintro s - s' ⟨hs, hin⟩ - hexec
      obtain ⟨item, u, hnext, ⟨hu, huin⟩, -⟩ := next_spec hs
      rw [hnext] at hexec
      obtain rfl : u = s' := Except.ok.inj hexec
      exact ⟨hu, huin.trans hin⟩
    obtain ⟨item, t', hnext, ⟨hsound', hinput⟩, hadvance⟩ :=
      next_spec hsound.1
    refine ⟨item, t', hnext, ?_, fun hne => ?_⟩
    · rw [← hsound.2, ← hinput]
      exact boundary_le hsound'.boundary
    · obtain ⟨x, rfl⟩ := Option.ne_none_iff_exists'.mp hne
      exact (hadvance x rfl).pos
  · obtain ⟨items, hitems, hpairs, hbounds⟩ :=
      collect_spec hnew (Nat.lt_succ_self _)
    exact ⟨items, hitems, hpairs, fun p hp => (hbounds p hp).2⟩

end Tokenizer

end Zmax.CommandLine
