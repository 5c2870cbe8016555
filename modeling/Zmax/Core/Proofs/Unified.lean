/-
How the pieces of a written diff come apart: the text into its lines, a
header into its words, a range into its numbers.
-/
import Zmax.Core.Proofs.Merge
import Zmax.Core.Text
import Zmax.Lib.Unified

namespace Zmax.Text

open Unified

-- == numbers

theorem range_chars {terse : Bool} {before len : Nat} {c : Char}
    (hc : c ∈ range terse before len) : c.isDigit ∨ c = ',' := by
  have hdigits : ∀ n, c ∈ Nat.toDigits 10 n → c.isDigit := fun n hc =>
    Nat.isDigit_of_mem_toDigits (by decide) (by decide) hc
  rcases List.mem_append.mp hc with hc | hc
  · exact .inl (hdigits _ hc)
  · split at hc
    · cases hc
    · rcases List.mem_cons.mp hc with rfl | hc
      · exact .inr rfl
      · exact .inl (hdigits _ hc)

theorem range_not_whitespace {terse : Bool} {before len : Nat} :
    ∀ c ∈ range terse before len, isWhitespace c = false := by
  intro c hc
  rcases range_chars hc with hc | rfl
  · exact isWhitespace_of_isDigit hc
  · decide

/-- What `start[,len]` says, with the length left out if it is one. -/
theorem range_numbers {terse : Bool} {before len : Nat}
    (hfits : before + len ≤ USIZE_MAX) :
    (((range terse before len).splitOn ',')[0]?.bind parseUsize).getD 0 =
        start before len ∧
      (((range terse before len).splitOn ',')[1]?.bind parseUsize).getD 1 =
        len := by
  have hcomma : ∀ n, ',' ∉ Nat.toDigits 10 n := fun n h =>
    absurd (Nat.isDigit_of_mem_toDigits (by decide) (by decide) h) (by decide)
  have hstart : start before len ≤ USIZE_MAX := by
    unfold start
    split <;> omega
  have hlen : len ≤ USIZE_MAX := Nat.le_trans (Nat.le_add_left len before) hfits
  unfold range
  split
  · rename_i hone
    rw [List.append_nil, List.splitOn_eq_singleton (hcomma _)]
    refine ⟨?_, hone.2.symm⟩
    rw [List.getElem?_cons_zero, Option.bind_some, parseUsize_digits hstart,
      Option.getD_some]
  · rw [List.splitOn_append_cons_self_of_not_mem (hcomma _),
      List.splitOn_eq_singleton (hcomma _), List.getElem?_cons_zero,
      List.getElem?_cons_succ, List.getElem?_cons_zero, Option.bind_some,
      Option.bind_some, parseUsize_digits hstart, parseUsize_digits hlen]
    exact ⟨rfl, rfl⟩

-- == headers

/-- The ranges of a header, between its two `@@`. -/
def middle (h : Unified.Hunk) (o n : Nat) : List Char :=
  " -".toList ++ range h.terseOld o (oldSide h.body).length ++
    " +".toList ++ range h.terseNew n (newSide h.body).length ++ [' ']

theorem middle_def (h : Unified.Hunk) (o n : Nat) :
    middle h o n =
      " -".toList ++ range h.terseOld o (oldSide h.body).length ++
        " +".toList ++ range h.terseNew n (newSide h.body).length ++
        [' '] := rfl

theorem header_eq (h : Unified.Hunk) (o n : Nat) :
    h.header o n =
      "@@".toList ++ (middle h o n ++ ("@@".toList ++ h.heading)) := by
  simp [Hunk.header_def, middle_def]

/-- The words of the ranges come first. -/
theorem words_middle (h : Unified.Hunk) (o n : Nat) (s : List Char) :
    splitWhitespace (middle h o n ++ s) =
      ('-' :: range h.terseOld o (oldSide h.body).length) ::
        ('+' :: range h.terseNew n (newSide h.body).length) ::
          splitWhitespace s := by
  have hspace : isWhitespace ' ' = true := by decide
  have hword : ∀ (c : Char) (terse : Bool) (before len : Nat),
      isWhitespace c = false →
      ∀ d ∈ c :: range terse before len, isWhitespace d = false := by
    intro c terse before len hc
    exact List.forall_mem_cons.mpr ⟨hc, range_not_whitespace⟩
  have heq : middle h o n ++ s = [] ++ ' ' ::
      (('-' :: range h.terseOld o (oldSide h.body).length) ++ ' ' ::
        (('+' :: range h.terseNew n (newSide h.body).length) ++ ' ' :: s)) := by
    simp [middle_def]
  rw [heq, splitWhitespace_append hspace, splitWhitespace_append hspace,
    splitWhitespace_append hspace, splitWhitespace_nil,
    splitWhitespace_word (by simp) (hword _ _ _ _ (by decide)),
    splitWhitespace_word (by simp) (hword _ _ _ _ (by decide))]
  rfl

-- == lines

/-- A text is its lines with their newlines, and a rest without one. -/
theorem exists_unlines (t : List Char) :
    ∃ ls last, t = unlines ls ++ last ∧ (∀ line ∈ ls, '\n' ∉ line) ∧
      '\n' ∉ last := by
  induction t with
  | nil => exact ⟨[], [], rfl, by simp, by simp⟩
  | cons c t ih =>
      obtain ⟨ls, last, rfl, hls, hlast⟩ := ih
      by_cases hc : c = '\n'
      · refine ⟨[] :: ls, last, by rw [hc]; rfl, ?_, hlast⟩
        exact List.forall_mem_cons.mpr ⟨by simp, hls⟩
      · have hcons : ∀ line : List Char, '\n' ∉ line → '\n' ∉ c :: line := by
          intro line hline hmem
          rcases List.mem_cons.mp hmem with heq | hmem
          · exact hc heq.symm
          · exact hline hmem
        cases ls with
        | nil => exact ⟨[], c :: last, rfl, by simp, hcons last hlast⟩
        | cons line ls =>
            obtain ⟨hline, hls⟩ := List.forall_mem_cons.mp hls
            exact ⟨(c :: line) :: ls, last, rfl,
              List.forall_mem_cons.mpr ⟨hcons line hline, hls⟩, hlast⟩

variable {ls : List (List Char)}

theorem splitOn_unlines_append {last : List Char}
    (h : ∀ line ∈ ls, '\n' ∉ line) (hlast : '\n' ∉ last) :
    (unlines ls ++ last).splitOn '\n' = ls ++ [last] := by
  induction ls with
  | nil =>
      have hpieces := List.splitOn_intercalate '\n'
        (List.forall_mem_singleton.mpr hlast) (by simp)
      rwa [List.intercalate_singleton] at hpieces
  | cons line ls ih =>
      obtain ⟨hline, hls⟩ := List.forall_mem_cons.mp h
      rw [unlines, List.flatMap_cons, ← unlines, List.append_assoc,
        List.append_assoc, List.singleton_append,
        List.splitOn_append_cons_self_of_not_mem hline, ih hls]
      rfl

theorem splitOn_unlines (h : ∀ line ∈ ls, '\n' ∉ line) :
    (unlines ls).splitOn '\n' = ls ++ [[]] := by
  rw [← splitOn_unlines_append h List.not_mem_nil, List.append_nil]

theorem lines_unlines_append {last : List Char}
    (h : ∀ line ∈ ls, '\n' ∉ line) (hlast : '\n' ∉ last) :
    lines (unlines ls ++ last) =
      ls.map stripCr ++ if last = [] then [] else [last] := by
  unfold lines
  rw [splitOn_unlines_append h hlast]
  by_cases hnil : last = []
  · simp [hnil]
  · simp [hnil]

theorem lines_unlines (h : ∀ line ∈ ls, '\n' ∉ line) :
    lines (unlines ls) = ls.map stripCr := by
  unfold lines
  rw [splitOn_unlines h]
  simp

theorem unlines_getLast? (hne : ls ≠ []) :
    (unlines ls).getLast? = some '\n' := by
  rw [← List.dropLast_append_getLast hne]
  simp [unlines]

/-- A `\r` that ends a line is not among its first chars. -/
theorem stripCr_append (pre line : List Char) (h : pre.getLast? ≠ some '\r') :
    stripCr (pre ++ line) = pre ++ stripCr line := by
  unfold stripCr
  cases hlast : line.getLast? with
  | none =>
      obtain rfl := List.getLast?_eq_none_iff.mp hlast
      simp [h]
  | some c =>
      have hne : line ≠ [] := by
        rintro rfl
        cases hlast
      rw [List.getLast?_append_of_ne_nil _ hne, hlast]
      split
      · rw [List.dropLast_append_of_ne_nil hne]
      · rfl

/-- What a line begins with does not depend on a `\r` at its end. -/
theorem stripPrefix_stripCr {pre : List Char} (line : List Char)
    (h : '\r' ∉ pre) :
    stripPrefix (stripCr line) pre = (stripPrefix line pre).map stripCr := by
  have hlast : pre.getLast? ≠ some '\r' := fun heq =>
    h (List.mem_of_getLast? heq)
  cases hline : stripPrefix line pre with
  | some rest =>
      obtain rfl := stripPrefix_eq_some.mp hline
      rw [stripCr_append pre rest hlast, stripPrefix_append]
      rfl
  | none =>
      rw [Option.map_none, Option.eq_none_iff_forall_ne_some]
      intro rest hrest
      have heq := stripPrefix_eq_some.mp hrest
      have hprefix : pre <+: line := by
        unfold stripCr at heq
        split at heq
        · exact (List.prefix_append pre rest).trans
            (heq ▸ List.dropLast_prefix line)
        · exact ⟨rest, heq.symm⟩
      obtain ⟨rest', rfl⟩ := hprefix
      rw [stripPrefix_append] at hline
      cases hline

theorem entry_no_newline {e : Entry} (h : '\n' ∉ e.line.text) :
    ∀ line ∈ e.written, '\n' ∉ line := by
  have hnote : ∀ line : Unified.Line, ∀ s ∈ line.note, '\n' ∉ s := by
    intro line s hs
    unfold Line.note at hs
    split at hs
    · cases hs
    · rw [List.mem_singleton.mp hs]
      decide
  intro line hline
  cases e with
  | context l bare =>
      rcases List.mem_cons.mp hline with rfl | hline
      · split
        · simp
        · simpa using h
      · exact hnote l line hline
  | delete l =>
      rcases List.mem_cons.mp hline with rfl | hline
      · simpa using h
      · exact hnote l line hline
  | insert l =>
      rcases List.mem_cons.mp hline with rfl | hline
      · simpa using h
      · exact hnote l line hline

/-- How a line of a hunk may begin. -/
theorem entry_begins {e : Entry} {l : List Char} (hl : l ∈ e.written) {d : Char}
    (hd : d ∉ [' ', '-', '+', '\\']) (pre : List Char) :
    stripPrefix l (d :: pre) = none := by
  have hcons : ∀ c rest, c ∈ [' ', '-', '+', '\\'] →
      stripPrefix (c :: rest) (d :: pre) = none := by
    intro c rest hc
    rw [stripPrefix_cons, if_neg]
    rintro rfl
    exact hd hc
  have hnote : ∀ line : Unified.Line, ∀ s ∈ line.note,
      stripPrefix s (d :: pre) = none := by
    intro line s hs
    unfold Line.note at hs
    split at hs
    · cases hs
    · rw [List.mem_singleton.mp hs]
      exact hcons '\\' _ (by decide)
  cases e with
  | context line bare =>
      rcases List.mem_cons.mp hl with rfl | hl
      · split
        · simp
        · exact hcons ' ' _ (by decide)
      · exact hnote line l hl
  | delete line =>
      rcases List.mem_cons.mp hl with rfl | hl
      · exact hcons '-' _ (by decide)
      · exact hnote line l hl
  | insert line =>
      rcases List.mem_cons.mp hl with rfl | hl
      · exact hcons '+' _ (by decide)
      · exact hnote line l hl

/-- How a line of chrome does not begin. -/
theorem chrome_begins {text : List Char} (h : (Head.chrome text).WellFormed)
    {d : Char} (hd : ¬ (d.isAlphanum ∨ d = '=')) (pre : List Char) :
    stripPrefix text (d :: pre) = none := by
  obtain ⟨⟨c, rest, rfl, hc⟩, -⟩ := h
  rw [stripPrefix_cons, if_neg]
  rintro rfl
  exact hd hc

theorem head_no_newline {x : Head} (h : x.WellFormed) :
    ∀ line ∈ x.written, '\n' ∉ line := by
  intro line hline
  cases x with
  | chrome text =>
      rw [List.mem_singleton.mp hline]
      exact h.2
  | files old new =>
      rcases List.mem_pair.mp hline with rfl | rfl
      · simpa using h.1
      · simpa using h.2

theorem header_no_newline {h : Unified.Hunk} (hh : '\n' ∉ h.heading)
    (o n : Nat) : '\n' ∉ h.header o n := by
  have hrange : ∀ terse before len, '\n' ∉ range terse before len := by
    intro terse before len hmem
    rcases range_chars hmem with hd | hd
    · exact absurd hd (by decide)
    · exact absurd hd (by decide)
  simp [Hunk.header_def, hrange, hh]

theorem written_no_newline {hs : List Unified.Hunk}
    (h : ∀ x ∈ hs, x.WellFormed)
    (htext : ∀ x ∈ hs, ∀ e ∈ x.body, '\n' ∉ e.line.text) (o n : Nat) :
    ∀ line ∈ writtenFrom o n hs, '\n' ∉ line := by
  induction hs generalizing o n with
  | nil => simp [writtenFrom]
  | cons x hs ih =>
      obtain ⟨hx, hhs⟩ := List.forall_mem_cons.mp h
      obtain ⟨hxtext, hhstext⟩ := List.forall_mem_cons.mp htext
      intro line hline
      rw [writtenFrom, List.append_assoc, List.mem_append, List.cons_append,
        List.mem_cons, List.mem_append] at hline
      rcases hline with hline | rfl | hline | hline
      · obtain ⟨y, hy, hline⟩ := List.mem_flatMap.mp hline
        exact head_no_newline (hx.head y hy) line hline
      · exact header_no_newline hx.heading _ _
      · obtain ⟨e, he, hline⟩ := List.mem_flatMap.mp hline
        exact entry_no_newline (hxtext e he) line hline
      · exact ih hhs hhstext _ _ line hline

end Zmax.Text
