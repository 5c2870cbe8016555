/-
What is read of a message that was written.

A written message is a sequence of rows, and its reader takes them for the
lines of one message: no row of a body starts with `From `, and no row of
the headers follows a blank one. So a mailbox is read as it was written,
message by message (`parse_toMbox`), and what is read of one is
`Msg.reread`: every line has lost a quote, if it had one that writing did
not put there, and every `\r` at its end.

A message that was read keeps to `Msg.Parsed`, and it is `reread` as it
is when it is `Msg.Faithful` (`reread_content_iff`).
-/
import Zmax.Core.Proofs.DiffApply
import Zmax.Core.Rmail

namespace Zmax.Rmail

open Text Email Diffmode
open Unified (unlines)
open Merge (Line splitLines joinLines no_newline splitLines_ne_nil join_split
  split_join)

-- == quoting

theorem startsWith_cons (c d : Char) (pre line : Line) :
    startsWith (d :: line) (c :: pre) =
      (decide (c = d) && startsWith line pre) := by
  rw [startsWith_eq, startsWith_eq, stripPrefix_cons]
  split <;> simp [*]

/-- A `\r` at its end does not change whether a line starts with `From `. -/
theorem startsWith_stripCr (line : Line) :
    startsWith (stripCr line) FROM = startsWith line FROM := by
  rw [startsWith_eq, startsWith_eq, stripPrefix_stripCr line (by decide),
    Option.isSome_map]

/-- Nor whether it was quoted. -/
theorem quoted_stripCr (line : Line) :
    quoted (stripCr line) = quoted line := by
  have hdrop : (stripCr line).dropWhile (· = '>') =
      stripCr (line.dropWhile (· = '>')) := by
    induction line with
    | nil => rfl
    | cons c line ih =>
        by_cases hc : c = '>'
        · rw [stripCr_cons (by rw [hc]; decide),
            List.dropWhile_cons_of_pos (by simpa using hc),
            List.dropWhile_cons_of_pos (by simpa using hc), ih]
        · rw [List.dropWhile_cons_of_neg (by simpa using hc)]
          cases hs : stripCr (c :: line) with
          | nil => rfl
          | cons d rest =>
              have hd : d = c := by
                unfold stripCr at hs
                split at hs
                · cases line with
                  | nil => cases hs
                  | cons e line =>
                      rw [List.dropLast_cons_cons] at hs
                      exact (List.cons.inj hs).1.symm
                · exact (List.cons.inj hs).1.symm
              rw [List.dropWhile_cons_of_neg (by simpa [hd] using hc)]
  have hquote : startsWith (stripCr line) ['>'] = startsWith line ['>'] := by
    rw [startsWith_eq, startsWith_eq, stripPrefix_stripCr line (by decide),
      Option.isSome_map]
  rw [quoted, hdrop, startsWith_stripCr, hquote, quoted]

theorem eq_cons_of_quoted {line : Line} (h : quoted line = true) :
    ∃ rest, line = '>' :: rest := by
  rw [quoted, Bool.and_eq_true, startsWith_eq, startsWith_eq] at h
  obtain ⟨rest, hrest⟩ := Option.isSome_iff_exists.mp h.2
  exact ⟨rest, stripPrefix_eq_some.mp hrest⟩

theorem quoted_requote {line : Line} (h : startsWith line FROM = true) :
    quoted ('>' :: line) = true := by
  obtain ⟨rest, hrest⟩ :=
    Option.isSome_iff_exists.mp (startsWith_eq line FROM ▸ h)
  obtain rfl := stripPrefix_eq_some.mp hrest
  rfl

theorem not_quoted_of_startsWith {line : Line}
    (h : startsWith line FROM = true) : quoted line = false := by
  obtain ⟨rest, hrest⟩ :=
    Option.isSome_iff_exists.mp (startsWith_eq line FROM ▸ h)
  obtain rfl := stripPrefix_eq_some.mp hrest
  rfl

/-- A line is unquoted as it is when there is no quote to take off. -/
theorem unquote_eq_self_iff {line : Line} :
    unquote line = line ↔ quoted line = false := by
  unfold unquote
  cases hq : quoted line with
  | false => simp
  | true =>
      obtain ⟨rest, rfl⟩ := eq_cons_of_quoted hq
      simp

theorem unquote_subset (line : Line) : unquote line ⊆ line := by
  intro c hc
  unfold unquote at hc
  split at hc
  · exact (List.drop_sublist 1 line).subset hc
  · exact hc

theorem requote_newline {line : Line} (h : '\n' ∉ line) :
    '\n' ∉ requote line := by
  unfold requote
  split
  · exact fun hmem => h ((List.mem_cons.mp hmem).resolve_left (by decide))
  · exact h

/-- No row of a body opens a message. -/
theorem requote_not_from (line : Line) :
    startsWith (requote line) FROM = false := by
  unfold requote
  split
  · rfl
  · exact Bool.eq_false_iff.mpr ‹_›

theorem unquote_stripCr (line : Line) :
    unquote (stripCr line) = stripCr (unquote line) := by
  unfold unquote
  rw [quoted_stripCr]
  cases hq : quoted line with
  | false => rfl
  | true =>
      obtain ⟨rest, rfl⟩ := eq_cons_of_quoted hq
      rw [stripCr_cons (by decide)]
      rfl

/-- A body line that was written is read without a quote of its own. -/
theorem unquote_requote (line : Line) :
    unquote (requote line) = unquote line := by
  unfold requote
  split
  · rename_i h
    rw [unquote_eq_self_iff.mpr (not_quoted_of_startsWith h), unquote,
      if_pos (quoted_requote h)]
    rfl
  · rfl

/-- A body line that was written, as it is read. -/
def rereadLine (line : Line) : Line := stripCr (stripCr (unquote line))

theorem stripCr_length_le (line : Line) :
    (stripCr line).length ≤ line.length := by
  unfold stripCr
  split
  · rw [List.length_dropLast]
    exact Nat.sub_le _ 1
  · exact Nat.le_refl _

theorem stripCr_eq_self_iff {line : Line} :
    stripCr line = line ↔ line.getLast? ≠ some '\r' := by
  refine ⟨fun h hlast => ?_, stripCr_of⟩
  have hlen := congrArg List.length h
  have hpos : 0 < line.length := by
    cases line with
    | nil => cases hlast
    | cons c line => exact Nat.succ_pos _
  rw [stripCr, if_pos hlast, List.length_dropLast] at hlen
  omega

theorem rereadLine_eq_self_iff {line : Line} :
    rereadLine line = line ↔
      line.getLast? ≠ some '\r' ∧ quoted line = false := by
  constructor
  · intro h
    have hlen := congrArg List.length h
    have h₁ := stripCr_length_le (unquote line)
    have h₂ := stripCr_length_le (stripCr (unquote line))
    rw [rereadLine] at hlen
    have hq : quoted line = false := by
      by_contra hq
      obtain ⟨rest, hrest⟩ := eq_cons_of_quoted (Bool.not_eq_false _ ▸ hq)
      have hdrop : (unquote line).length + 1 = line.length := by
        rw [unquote, if_pos (Bool.not_eq_false _ ▸ hq), hrest]
        rfl
      omega
    have hu := unquote_eq_self_iff.mpr hq
    rw [hu] at hlen h₁ h₂
    refine ⟨?_, hq⟩
    rw [← stripCr_eq_self_iff]
    have hpre : stripCr line <+: line := by
      unfold stripCr
      split
      · exact List.dropLast_prefix line
      · exact List.prefix_refl line
    exact hpre.eq_of_length (by omega)
  · rintro ⟨hcr, hq⟩
    rw [rereadLine, unquote_eq_self_iff.mpr hq, stripCr_of hcr, stripCr_of hcr]

-- == headers

/-- A header as it is written. -/
def headerRow (kv : Line × Line) : Line := kv.1 ++ ':' :: ' ' :: kv.2

/-- A header that was written, as it is read. -/
def rereadHeader (kv : Line × Line) : Line × Line := (unquote kv.1, trim kv.2)

theorem startsWith_colon (k t : Line) :
    startsWith (k ++ ':' :: t) FROM = startsWith k FROM := by
  rw [Bool.eq_iff_iff, startsWith, startsWith, List.isPrefixOf_iff_prefix,
    List.isPrefixOf_iff_prefix]
  constructor
  · intro h
    rcases List.prefix_or_prefix_of_prefix h (List.prefix_append k _) with
      h' | h'
    · exact h'
    · obtain ⟨r, hr⟩ := h'
      rw [← hr] at h ⊢
      obtain hr' := (List.prefix_append_right_inj k).mp h
      cases r with
      | nil => exact ⟨[], by simp⟩
      | cons c r =>
          obtain ⟨rfl, -⟩ := List.cons_prefix_cons.mp hr'
          exact absurd (hr ▸ List.mem_append_right k List.mem_cons_self)
            (by decide)
  · exact fun h => h.trans (List.prefix_append k _)

/-- A header is quoted when its key is. -/
theorem quoted_colon (k t : Line) : quoted (k ++ ':' :: t) = quoted k := by
  have hdrop : startsWith ((k ++ ':' :: t).dropWhile (· = '>')) FROM =
      startsWith (k.dropWhile (· = '>')) FROM := by
    rw [List.dropWhile_append]
    split
    · rename_i hnil
      rw [List.isEmpty_iff.mp hnil]
      rfl
    · exact startsWith_colon _ t
  have hquote : startsWith (k ++ ':' :: t) ['>'] = startsWith k ['>'] := by
    cases k with
    | nil => rfl
    | cons c k => rw [List.cons_append, startsWith_cons, startsWith_cons]; rfl
  rw [quoted, hdrop, hquote, quoted]

theorem unquote_colon (k t : Line) :
    unquote (k ++ ':' :: t) = unquote k ++ ':' :: t := by
  unfold unquote
  rw [quoted_colon]
  cases hq : quoted k with
  | false => rfl
  | true =>
      obtain ⟨rest, rfl⟩ := eq_cons_of_quoted hq
      rfl

/-- What follows a quote is no blank. -/
theorem trim_unquote {k : Line} (h : trim k = k) :
    trim (unquote k) = unquote k := by
  unfold unquote
  split
  · rename_i hq
    obtain ⟨rest, rfl⟩ := eq_cons_of_quoted hq
    show trim rest = rest
    cases rest with
    | nil => rfl
    | cons c rest =>
        have hc : isWhitespace c = false := by
          by_cases hgt : c = '>'
          · rw [hgt]
            decide
          · rw [quoted, Bool.and_eq_true,
              List.dropWhile_cons_of_pos (by decide),
              List.dropWhile_cons_of_neg (by simpa using hgt)] at hq
            obtain ⟨hf, -⟩ := List.cons_prefix_cons.mp
              (List.isPrefixOf_iff_prefix.mp hq.1)
            rw [← hf]
            decide
        refine trim_eq_self_iff.mpr ⟨?_, ?_⟩
        · rw [List.dropWhile_cons_of_neg (by simpa using hc)]
        · refine List.rdropWhile_eq_self_iff.mpr fun hne => ?_
          have hlast := List.rdropWhile_eq_self_iff.mp
            (trim_eq_self_iff.mp h).2 (List.cons_ne_nil _ _)
          rwa [List.getLast_cons hne] at hlast
  · exact h

/-- A header row adds its header. -/
theorem readHeader_row (headers : List (Line × Line)) {k : Line} (v : Line)
    (hcolon : ':' ∉ k) (htrim : trim k = k) :
    readHeader headers (headerRow (k, v)) = headers ++ [(k, trim v)] := by
  have hfirst : continues (headerRow (k, v)) = false := by
    cases k with
    | nil => rfl
    | cons c k =>
        have hc := head_not_whitespace htrim
        have hsp : ' ' ≠ c := by
          rintro rfl
          exact absurd hc (by decide)
        have htab : '\t' ≠ c := by
          rintro rfl
          exact absurd hc (by decide)
        rw [continues, headerRow, List.cons_append, startsWith_cons,
          startsWith_cons, decide_eq_false hsp, decide_eq_false htab]
        rfl
  have hsplit : splitOnce (headerRow (k, v)) = some (k, ' ' :: v) :=
    breakAt_append hcolon
  unfold readHeader
  rw [hfirst, hsplit]
  simp only [Bool.false_and, Bool.false_eq_true, if_false, htrim, trim_space]

theorem endsHeaders_row (kv : Line × Line) :
    endsHeaders (headerRow kv) = false := by
  have hmem : ':' ∈ headerRow kv :=
    List.mem_append_right _ List.mem_cons_self
  have hsep : headerRow kv ≠ HEADER_SEPARATOR := by
    intro h
    rw [h] at hmem
    exact absurd hmem (by decide)
  have hnil : headerRow kv ≠ [] := List.ne_nil_of_mem hmem
  simp [endsHeaders, hsep, hnil]

/-- The header rows are read one by one, up to the blank one. -/
theorem readHeaders_rows (rest : List Line) :
    ∀ {headers acc : List (Line × Line)},
      (∀ kv ∈ headers, ':' ∉ kv.1 ∧ trim kv.1 = kv.1) →
      readHeaders acc (headers.map headerRow ++ [] :: rest) =
        (acc ++ headers.map fun kv => (kv.1, trim kv.2), some rest)
  | [], acc, _ => by
      have hend : endsHeaders [] = true := rfl
      rw [List.map_nil, List.nil_append, readHeaders, if_pos hend,
        List.map_nil, List.append_nil]
  | kv :: headers, acc, h => by
      obtain ⟨⟨hcolon, htrim⟩, h⟩ := List.forall_mem_cons.mp h
      rw [List.map_cons, List.cons_append, readHeaders, endsHeaders_row,
        if_neg (by decide), readHeader_row acc kv.2 hcolon htrim,
        readHeaders_rows rest h]
      simp

-- == messages

namespace Msg

/-- What every message that was read keeps to. -/
structure Parsed (m : Msg) : Prop where
  envelope : '\n' ∉ m.envelope
  key : ∀ kv ∈ m.headers, '\n' ∉ kv.1 ∧ ':' ∉ kv.1 ∧ trim kv.1 = kv.1
  value : ∀ kv ∈ m.headers, '\n' ∉ kv.2 ∧ kv.2.getLast? ≠ some '\r'

/-- The message as it is read once it is written. -/
def reread (m : Msg) : Msg :=
  { envelope := stripCr m.envelope
    headers := m.headers.map rereadHeader
    body := joinLines ((splitLines m.body).map rereadLine)
    deleted := false
    seen := false
    labels := [] }

/-- The lines behind the envelope of a written message. -/
def chunk (m : Msg) : List Line :=
  m.headers.map headerRow ++ [] :: (splitLines m.body).map requote ++ [[]]

/-- The lines of a written message. -/
def rows (m : Msg) : List Line := (FROM ++ m.envelope) :: m.chunk

theorem toMbox_eq (m : Msg) : m.toMbox = unlines m.rows := by
  simp [toMbox, unlines, rows, chunk, headerRow, List.flatMap_map]

theorem headerRow_newline {m : Msg} (h : m.Parsed) :
    ∀ row ∈ m.headers.map headerRow, '\n' ∉ row := by
  intro row hrow hmem
  obtain ⟨kv, hkv, rfl⟩ := List.mem_map.mp hrow
  rcases List.mem_append.mp hmem with hmem | hmem
  · exact (h.key kv hkv).1 hmem
  · rw [List.mem_cons, List.mem_cons] at hmem
    rcases hmem with heq | heq | hmem
    · exact absurd heq (by decide)
    · exact absurd heq (by decide)
    · exact (h.value kv hkv).1 hmem

theorem rows_newline {m : Msg} (h : m.Parsed) :
    ∀ row ∈ m.rows, '\n' ∉ row := by
  refine List.forall_mem_cons.mpr ⟨?_, ?_⟩
  · intro hmem
    rcases List.mem_append.mp hmem with hmem | hmem
    · exact absurd hmem (by decide)
    · exact h.envelope hmem
  · rw [chunk, List.append_assoc]
    refine List.forall_mem_append.mpr ⟨headerRow_newline h, ?_⟩
    refine List.forall_mem_cons.mpr ⟨List.not_mem_nil, ?_⟩
    refine List.forall_mem_append.mpr ⟨?_, by simp⟩
    intro row hrow
    obtain ⟨line, hline, rfl⟩ := List.mem_map.mp hrow
    exact requote_newline (no_newline line hline)

end Msg

-- == reading

theorem joinLines_append_nil (ls : List Line) :
    joinLines (ls ++ [[]]) = unlines ls := by
  induction ls with
  | nil => rfl
  | cons l ls ih =>
      rw [unlines, List.flatMap_cons, ← unlines, ← ih]
      cases ls <;> simp [joinLines, List.intercalate_cons_cons]

/-- A header row is read without a quote of its key, and nothing else of
it is lost. -/
theorem reread_headerRow {kv : Line × Line} (h : kv.2.getLast? ≠ some '\r') :
    stripCr (unquote (stripCr (headerRow kv))) =
      headerRow (unquote kv.1, kv.2) := by
  have hcr : ∀ k, stripCr (headerRow (k, kv.2)) = headerRow (k, kv.2) := by
    intro k
    refine stripCr_of fun hlast => ?_
    rw [headerRow, List.getLast?_append_of_ne_nil _ (List.cons_ne_nil _ _),
      List.getLast?_cons_cons] at hlast
    cases hv : kv.2 with
    | nil =>
        rw [hv] at hlast
        cases hlast
    | cons c v =>
        rw [hv, List.getLast?_cons_cons, ← hv] at hlast
        exact h hlast
  rw [hcr, headerRow, unquote_colon]
  exact hcr _

/-- Rows go through the two readers one after the other. -/
theorem lines_chunk {rows : List Line} (h : ∀ row ∈ rows, '\n' ∉ row) :
    lines (joinLines (((rows ++ [[]]).map stripCr).map unquote)) =
      rows.map fun row => stripCr (unquote (stripCr row)) := by
  have hnewline : ∀ row ∈ (rows.map stripCr).map unquote, '\n' ∉ row := by
    intro line hline hmem
    obtain ⟨stripped, hstripped, rfl⟩ := List.mem_map.mp hline
    obtain ⟨row, hrow, rfl⟩ := List.mem_map.mp hstripped
    exact stripCr_no_newline (h row hrow) (unquote_subset _ hmem)
  have hlast : (([[]] : List Line).map stripCr).map unquote = [[]] := rfl
  rw [List.map_append, List.map_append, hlast, joinLines_append_nil,
    lines_unlines hnewline, List.map_map, List.map_map]
  rfl

/-- What is read of the lines behind an envelope. -/
theorem read_chunk {m : Msg} (h : m.Parsed) (envelope : Line) :
    Msg.read envelope (m.chunk.map stripCr) =
      { m.reread with envelope := envelope } := by
  have hrows : ∀ row ∈ m.headers.map headerRow ++
      [] :: (splitLines m.body).map requote, '\n' ∉ row := fun row hrow =>
    Msg.rows_newline h row
      (List.mem_cons_of_mem _ (List.mem_append_left _ hrow))
  have hheaders : m.headers.map
        (fun kv => stripCr (unquote (stripCr (headerRow kv)))) =
      (m.headers.map fun kv => (unquote kv.1, kv.2)).map headerRow := by
    rw [List.map_map]
    exact List.map_congr_left fun kv hkv =>
      reread_headerRow (h.value kv hkv).2
  have hbody : (splitLines m.body).map
        (fun line => stripCr (unquote (stripCr (requote line)))) =
      (splitLines m.body).map rereadLine := by
    refine List.map_congr_left fun line _ => ?_
    rw [unquote_stripCr, unquote_requote, rereadLine]
  have hkeys : ∀ kv ∈ m.headers.map fun kv => (unquote kv.1, kv.2),
      ':' ∉ kv.1 ∧ trim kv.1 = kv.1 := by
    intro kv' hkv'
    obtain ⟨kv, hkv, rfl⟩ := List.mem_map.mp hkv'
    obtain ⟨-, hcolon, htrim⟩ := h.key kv hkv
    exact ⟨fun hmem => hcolon (unquote_subset _ hmem), trim_unquote htrim⟩
  have hlines : lines (joinLines ((m.chunk.map stripCr).map unquote)) =
      (m.headers.map fun kv => (unquote kv.1, kv.2)).map headerRow ++
        [] :: (splitLines m.body).map rereadLine := by
    rw [Msg.chunk, lines_chunk hrows, List.map_append, List.map_cons,
      List.map_map, List.map_map, ← hheaders, ← hbody]
    rfl
  have hread : readHeaders []
      ((m.headers.map fun kv => (unquote kv.1, kv.2)).map headerRow ++
        [] :: (splitLines m.body).map rereadLine) = _ :=
    readHeaders_rows _ hkeys
  rw [Msg.read, parseBuffer, hlines, hread, List.nil_append, List.map_map]
  rfl

/-- Lines that are not blank, none of which follows a blank one, belong to
the open message. -/
theorem scan_headers {rows : List Line} (h : ∀ row ∈ rows, row ≠ []) :
    ∀ {s : Scan}, s.prevBlank = false → s.envelope.isSome = true →
      rows.foldl Scan.line s = { s with chunk := s.chunk ++ rows } := by
  induction rows with
  | nil =>
      intro s _ _
      simp
  | cons row rows ih =>
      intro s hblank henv
      obtain ⟨hrow, h⟩ := List.forall_mem_cons.mp h
      have hline : s.line row = { s with chunk := s.chunk ++ [row] } := by
        simp [Scan.line, hblank, henv, hrow]
      have hrest := ih h (s := s.line row) (by rw [hline]; exact hblank)
        (by rw [hline]; exact henv)
      rw [List.foldl_cons, hrest, hline]
      simp

/-- Lines that do not start with `From ` belong to the open message. -/
theorem scan_body {rows : List Line}
    (h : ∀ row ∈ rows, startsWith row FROM = false) :
    ∀ {s : Scan}, s.envelope.isSome = true →
      ∃ blank, rows.foldl Scan.line s =
        { s with chunk := s.chunk ++ rows, prevBlank := blank } := by
  induction rows with
  | nil =>
      intro s _
      exact ⟨s.prevBlank, by simp⟩
  | cons row rows ih =>
      intro s henv
      obtain ⟨hrow, h⟩ := List.forall_mem_cons.mp h
      have hline : s.line row = { s with
          chunk := s.chunk ++ [row]
          prevBlank := row.isEmpty } := by
        simp [Scan.line, hrow, henv]
      obtain ⟨blank, hblank⟩ := ih h (s := s.line row) (by rw [hline]; exact henv)
      refine ⟨blank, ?_⟩
      rw [List.foldl_cons, hblank, hline]
      simp

/-- A written message is read as one message, after what came before it. -/
theorem scan_rows (m : Msg) {s : Scan} (hblank : s.prevBlank = true) :
    (m.rows.map stripCr).foldl Scan.line s =
      ⟨s.flush.msgs, some (stripCr m.envelope), m.chunk.map stripCr, true⟩ := by
  have hfirst : stripCr (FROM ++ m.envelope) = FROM ++ stripCr m.envelope :=
    stripCr_append _ _ (by decide)
  have hopen : s.line (FROM ++ stripCr m.envelope) =
      ⟨s.flush.msgs, some (stripCr m.envelope), [], false⟩ := by
    have hstart : startsWith (FROM ++ stripCr m.envelope) FROM = true := by
      rw [startsWith_eq, stripPrefix_append]
      rfl
    rw [Scan.line, hblank, hstart]
    simp [Scan.flush, show FROM ≠ [] by decide]
  have hheaders : ∀ row ∈ (m.headers.map headerRow).map stripCr, row ≠ [] := by
    intro row hrow hnil
    obtain ⟨row', hrow', rfl⟩ := List.mem_map.mp hrow
    obtain ⟨kv, hkv, rfl⟩ := List.mem_map.mp hrow'
    have hcolon : headerRow kv = (kv.1 ++ [':']) ++ ' ' :: kv.2 := by
      simp [headerRow]
    rw [hcolon, stripCr_append _ _ (by simp)] at hnil
    simp at hnil
  have hbody : ∀ row ∈ ([] :: (splitLines m.body).map requote).map stripCr,
      startsWith row FROM = false := by
    intro row hrow
    obtain ⟨row', hrow', rfl⟩ := List.mem_map.mp hrow
    rw [startsWith_stripCr]
    rcases List.mem_cons.mp hrow' with rfl | hrow'
    · rfl
    · obtain ⟨line, -, rfl⟩ := List.mem_map.mp hrow'
      exact requote_not_from line
  obtain ⟨blank, hscan⟩ := scan_body hbody
    (s := ⟨s.flush.msgs, some (stripCr m.envelope),
      (m.headers.map headerRow).map stripCr, false⟩) rfl
  rw [Msg.rows, List.map_cons, List.foldl_cons, hfirst, hopen, Msg.chunk,
    List.map_append, List.map_append, List.foldl_append, List.foldl_append,
    scan_headers hheaders rfl rfl, List.nil_append, hscan]
  simp [Scan.line, startsWith, stripCr, FROM]

/-- A mailbox is read as it was written, message by message. -/
theorem parse_toMbox {mb : Mailbox} (h : ∀ m ∈ mb.msgs, m.Parsed) :
    parseMbox mb.toMbox = mb.msgs.map Msg.reread := by
  have hscan : ∀ {msgs : List Msg}, (∀ m ∈ msgs, m.Parsed) →
      ∀ {s : Scan}, s.prevBlank = true →
        (((msgs.flatMap Msg.rows).map stripCr).foldl Scan.line s).flush.msgs =
          s.flush.msgs ++ msgs.map Msg.reread := by
    intro msgs
    induction msgs with
    | nil =>
        intro _ s _
        simp
    | cons m msgs ih =>
        intro hall s hblank
        obtain ⟨hm, hall⟩ := List.forall_mem_cons.mp hall
        rw [List.flatMap_cons, List.map_append, List.foldl_append,
          scan_rows m hblank, ih hall rfl]
        simp [Scan.flush, read_chunk hm, Msg.reread]
  have hlines : lines mb.toMbox = (mb.msgs.flatMap Msg.rows).map stripCr := by
    have htext : mb.toMbox = unlines (mb.msgs.flatMap Msg.rows) := by
      rw [Mailbox.toMbox, unlines, List.flatMap_assoc]
      exact List.flatMap_congr fun m _ => Msg.toMbox_eq m
    rw [htext, lines_unlines]
    intro row hrow
    obtain ⟨m, hm, hrow⟩ := List.mem_flatMap.mp hrow
    exact Msg.rows_newline (h m hm) row hrow
  rw [parseMbox, hlines, hscan h rfl]
  rfl

-- == messages that were read

theorem lines_newline {text : Rope} : ∀ line ∈ lines text, '\n' ∉ line := by
  intro line hline
  rcases List.mem_append.mp hline with hline | hline
  · obtain ⟨piece, hpiece, rfl⟩ := List.mem_map.mp hline
    exact stripCr_no_newline (no_newline _ ((List.dropLast_sublist _).subset hpiece))
  · obtain ⟨hlast, -⟩ := List.mem_filter.mp hline
    exact no_newline _ (List.mem_of_getLast? (Option.mem_toList.mp hlast))

theorem splitOnce_eq_some {line k v : Line} (h : splitOnce line = some (k, v)) :
    line = k ++ ':' :: v ∧ ':' ∉ k := by
  induction line generalizing k with
  | nil => cases h
  | cons c line ih =>
      rw [splitOnce, breakAt, stripPrefix_cons] at h
      by_cases hc : ':' = c
      · rw [if_pos hc, stripPrefix_nil] at h
        obtain ⟨rfl, rfl⟩ := Prod.mk.inj (Option.some.inj h)
        exact ⟨by rw [← hc]; rfl, List.not_mem_nil⟩
      · rw [if_neg hc] at h
        obtain ⟨⟨k', v'⟩, hrest, heq⟩ := Option.map_eq_some_iff.mp h
        obtain ⟨rfl, rfl⟩ := Prod.mk.inj heq
        obtain ⟨rfl, hk⟩ := ih hrest
        exact ⟨rfl, fun hmem => hk ((List.mem_cons.mp hmem).resolve_left hc)⟩

theorem mem_modify {α : Type*} {xs : List α} {i : Nat} {f : α → α} {x : α}
    (h : x ∈ xs.modify i f) : x ∈ xs ∨ ∃ y ∈ xs, f y = x := by
  obtain ⟨j, hj⟩ := List.mem_iff_getElem?.mp h
  rw [List.getElem?_modify] at hj
  obtain ⟨y, hy, heq⟩ := Option.map_eq_some_iff.mp hj
  have hmem := List.mem_of_getElem? hy
  split at heq
  · exact .inr ⟨y, hmem, heq⟩
  · exact .inl (heq ▸ hmem)

/-- What every header that was read keeps to. -/
def ParsedHeader (kv : Line × Line) : Prop :=
  ('\n' ∉ kv.1 ∧ ':' ∉ kv.1 ∧ trim kv.1 = kv.1) ∧
    '\n' ∉ kv.2 ∧ kv.2.getLast? ≠ some '\r'

theorem readHeader_parsed {headers : List (Line × Line)} {line : Line}
    (h : ∀ kv ∈ headers, ParsedHeader kv) (hline : '\n' ∉ line) :
    ∀ kv ∈ readHeader headers line, ParsedHeader kv := by
  intro kv hkv
  unfold readHeader at hkv
  split at hkv
  · rcases mem_modify hkv with hkv | ⟨last, hlast, rfl⟩
    · exact h kv hkv
    · obtain ⟨hkey, hvalue, -⟩ := h last hlast
      refine ⟨hkey, ?_, ?_⟩
      · intro hmem
        rcases List.mem_append.mp hmem with hmem | hmem
        · exact hvalue hmem
        · rcases List.mem_cons.mp hmem with heq | hmem
          · exact absurd heq (by decide)
          · exact hline (trim_subset line hmem)
      · show (last.2 ++ ' ' :: trim line).getLast? ≠ some '\r'
        rw [List.getLast?_append_of_ne_nil _ (List.cons_ne_nil _ _)]
        cases ht : trim line with
        | nil => decide
        | cons c t =>
            rw [List.getLast?_cons_cons, ← ht]
            exact getLast?_ne_cr (trim_trim line)
  · split at hkv
    · rename_i k v hsplit
      rcases List.mem_append.mp hkv with hkv | hkv
      · exact h kv hkv
      · obtain rfl := List.mem_singleton.mp hkv
        obtain ⟨rfl, hcolon⟩ := splitOnce_eq_some hsplit
        refine ⟨⟨?_, fun hmem => hcolon (trim_subset k hmem), trim_trim k⟩,
          ?_, getLast?_ne_cr (trim_trim v)⟩
        · exact fun hmem =>
            hline (List.mem_append_left _ (trim_subset k hmem))
        · exact fun hmem => hline
            (List.mem_append_right _
              (List.mem_cons_of_mem _ (trim_subset v hmem)))
    · exact h kv hkv

theorem readHeaders_parsed : ∀ {rows : List Line}
    {headers : List (Line × Line)}, (∀ row ∈ rows, '\n' ∉ row) →
    (∀ kv ∈ headers, ParsedHeader kv) →
    ∀ kv ∈ (readHeaders headers rows).1, ParsedHeader kv
  | [], _, _, h => h
  | row :: rows, headers, hrows, h => by
      obtain ⟨hrow, hrows⟩ := List.forall_mem_cons.mp hrows
      rw [readHeaders]
      split
      · exact h
      · exact readHeaders_parsed hrows (readHeader_parsed h hrow)

theorem read_parsed {envelope : Line} (h : '\n' ∉ envelope)
    (chunk : List Line) : (Msg.read envelope chunk).Parsed := by
  have hall := readHeaders_parsed
    (@lines_newline (joinLines (chunk.map unquote)))
    (List.forall_mem_nil ParsedHeader)
  have hheaders : (Msg.read envelope chunk).headers =
      (readHeaders [] (lines (joinLines (chunk.map unquote)))).1 := by
    rw [Msg.read, parseBuffer]
    split
    · rename_i heq
      rw [heq]
    · rename_i heq
      rw [heq]
  rw [← hheaders] at hall
  exact ⟨h, fun kv hkv => (hall kv hkv).1, fun kv hkv => (hall kv hkv).2⟩

/-- The messages read so far and the open one's envelope. -/
def Scan.Parsed (s : Scan) : Prop :=
  (∀ m ∈ s.msgs, m.Parsed) ∧ ∀ envelope, s.envelope = some envelope →
    '\n' ∉ envelope

theorem Scan.Parsed.flush {s : Scan} (h : s.Parsed) :
    ∀ m ∈ s.flush.msgs, m.Parsed := by
  intro m hm
  rcases List.mem_append.mp hm with hm | hm
  · exact h.1 m hm
  · obtain ⟨envelope, henv, rfl⟩ := List.mem_map.mp hm
    exact read_parsed (h.2 envelope (Option.mem_toList.mp henv)) s.chunk

theorem Scan.Parsed.line {s : Scan} (h : s.Parsed) {line : Line}
    (hline : '\n' ∉ line) : (s.line line).Parsed := by
  unfold Scan.line
  dsimp only
  split
  · refine ⟨h.flush, ?_⟩
    intro envelope heq hmem
    obtain rfl := Option.some.inj heq
    exact hline (List.mem_of_mem_drop hmem)
  · split
    · exact h
    · exact h

/-- Every message that is read keeps to `Msg.Parsed`. -/
theorem parseMbox_parsed (text : Rope) : ∀ m ∈ parseMbox text, m.Parsed := by
  have hscan : ∀ {rows : List Line}, (∀ row ∈ rows, '\n' ∉ row) →
      ∀ {s : Scan}, s.Parsed → (rows.foldl Scan.line s).Parsed := by
    intro rows
    induction rows with
    | nil => exact fun _ _ h => h
    | cons row rows ih =>
        intro hrows s h
        obtain ⟨hrow, hrows⟩ := List.forall_mem_cons.mp hrows
        exact ih hrows (h.line hrow)
  refine (hscan lines_newline ⟨?_, ?_⟩).flush
  · exact List.forall_mem_nil _
  · intro envelope heq
    cases heq

-- == faithfulness

namespace Msg

/-- What of a message a mailbox file keeps. -/
def content (m : Msg) : Line × List (Line × Line) × Rope :=
  (m.envelope, m.headers, m.body)

/-- Nothing of the message is taken for a quote or for the end of a line,
and no header's value has blanks around it. -/
structure Faithful (m : Msg) : Prop where
  envelope : m.envelope.getLast? ≠ some '\r'
  headers : ∀ kv ∈ m.headers, quoted kv.1 = false ∧ trim kv.2 = kv.2
  body : ∀ line ∈ splitLines m.body,
    line.getLast? ≠ some '\r' ∧ quoted line = false

instance (m : Msg) : Decidable m.Faithful :=
  decidable_of_iff
    (m.envelope.getLast? ≠ some '\r' ∧
      (∀ kv ∈ m.headers, quoted kv.1 = false ∧ trim kv.2 = kv.2) ∧
      ∀ line ∈ splitLines m.body,
        line.getLast? ≠ some '\r' ∧ quoted line = false)
    ⟨fun h => ⟨h.1, h.2.1, h.2.2⟩, fun h => ⟨h.envelope, h.headers, h.body⟩⟩

theorem Parsed.of_content {m m' : Msg} (h : m.Parsed)
    (heq : m.content = m'.content) : m'.Parsed := by
  obtain ⟨he, hrest⟩ := Prod.mk.inj heq
  obtain ⟨hh, -⟩ := Prod.mk.inj hrest
  exact ⟨he ▸ h.envelope, hh ▸ h.key, hh ▸ h.value⟩

theorem Faithful.of_content {m m' : Msg} (h : m.Faithful)
    (heq : m.content = m'.content) : m'.Faithful := by
  obtain ⟨he, hrest⟩ := Prod.mk.inj heq
  obtain ⟨hh, hb⟩ := Prod.mk.inj hrest
  exact ⟨he ▸ h.envelope, hh ▸ h.headers, hb ▸ h.body⟩

theorem map_eq_self_iff {α : Type*} {f : α → α} {xs : List α} :
    xs.map f = xs ↔ ∀ x ∈ xs, f x = x := by
  induction xs with
  | nil => simp
  | cons x xs ih => simp [ih]

theorem rereadBody_eq_iff (m : Msg) :
    joinLines ((splitLines m.body).map rereadLine) = m.body ↔
      ∀ line ∈ splitLines m.body, rereadLine line = line := by
  rw [← map_eq_self_iff]
  constructor
  · intro h
    have hsplit : splitLines (joinLines ((splitLines m.body).map rereadLine)) =
        (splitLines m.body).map rereadLine := by
      refine split_join ?_ ?_
      · simpa using splitLines_ne_nil m.body
      · intro row hrow
        obtain ⟨line, hline, rfl⟩ := List.mem_map.mp hrow
        exact stripCr_no_newline (stripCr_no_newline fun hmem =>
          no_newline line hline (unquote_subset line hmem))
    rw [← hsplit, h]
  · intro h
    rw [h, join_split]

/-- A message survives being written and read when it is faithful. -/
theorem reread_content_iff (m : Msg) :
    m.reread.content = m.content ↔ m.Faithful := by
  have hheader : ∀ kv : Line × Line, rereadHeader kv = kv ↔
      quoted kv.1 = false ∧ trim kv.2 = kv.2 := by
    intro kv
    rw [rereadHeader, Prod.ext_iff, unquote_eq_self_iff]
  have henvelope : stripCr m.envelope = m.envelope ↔ _ := stripCr_eq_self_iff
  have hbody := rereadBody_eq_iff m
  simp only [rereadLine_eq_self_iff] at hbody
  have hheaders : m.headers.map rereadHeader = m.headers ↔ _ :=
    map_eq_self_iff
  simp only [hheader] at hheaders
  rw [content, content, Prod.mk.injEq, Prod.mk.injEq]
  constructor
  · rintro ⟨he, hh, hb⟩
    exact ⟨henvelope.mp he, hheaders.mp hh, hbody.mp hb⟩
  · rintro ⟨he, hh, hb⟩
    exact ⟨henvelope.mpr he, hheaders.mpr hh, hbody.mpr hb⟩

end Msg

end Zmax.Rmail
