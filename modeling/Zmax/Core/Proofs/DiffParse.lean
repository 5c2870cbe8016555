/-
What `parse` makes of a written diff of one file.

A line of a hunk that looks like a file header only does harm if the next
one looks like the second of the pair: then another file begins there.
-/
import Zmax.Core.Diffmode
import Zmax.Core.Proofs.Unified

namespace Zmax.Diffmode

open Text Merge
open Unified hiding Line Hunk

-- == items

theorem items_pair {l next : Line} {rest : List Line} {old new : List Char}
    (hold : stripPrefix l "--- ".toList = some old)
    (hnew : stripPrefix next "+++ ".toList = some new) :
    items (l :: next :: rest) = .pair old new :: items rest := by
  rw [items]
  simp only [hold, hnew]

theorem items_line {l : Line} {rest : List Line}
    (h : stripPrefix l "--- ".toList = none ∨
      ∀ next, rest.head? = some next →
        stripPrefix next "+++ ".toList = none) :
    items (l :: rest) = .line l :: items rest := by
  cases rest with
  | nil => rfl
  | cons next rest =>
      rw [items]
      rcases h with h | h
      · rw [h]
      · rw [h next rfl]
        cases stripPrefix l "--- ".toList <;> rfl

variable {ls : List Line} {h : Unified.Hunk} {n o : Nat}
  {hs : List Unified.Hunk} {s : Parser} {chrome : List (List Char)}
  {new old : List Char} {p : Patch}

/-- Header pairs do not reach over a line that begins otherwise. -/
theorem items_append {rest : List Line}
    (h : ∀ l, rest.head? = some l → stripPrefix l "+++ ".toList = none) :
    items (ls ++ rest) = items ls ++ items rest := by
  fun_induction items ls with
  | case1 => rfl
  | case2 l => exact items_line (.inr h)
  | case3 l next rest' old new hnew hold ih =>
      rw [List.cons_append, List.cons_append, items_pair hold hnew, ih]
      rfl
  | case4 l next rest' hno ih =>
      have hline : items (l :: (next :: rest' ++ rest)) =
          .line l :: items (next :: rest' ++ rest) := by
        refine items_line ?_
        cases hold : stripPrefix l "--- ".toList with
        | none => exact .inl rfl
        | some old =>
            refine .inr fun next' hnext => ?_
            cases hnew : stripPrefix next "+++ ".toList with
            | none => rw [← Option.some.inj hnext, hnew]
            | some new => exact (hno old new hold hnew).elim
      rw [List.cons_append, hline, ih]
      rfl

theorem pair_mem_items :
    (∃ old new, Item.pair old new ∈ items ls) ↔ LooksLikeFiles ls := by
  fun_induction items ls with
  | case1 => simp [LooksLikeFiles]
  | case2 l =>
      simp [LooksLikeFiles, List.infix_cons_iff]
  | case3 l next rest old new hnew hold ih =>
      rw [stripPrefix_eq_some] at hold hnew
      subst hold hnew
      refine iff_of_true ⟨old, new, List.mem_cons_self⟩ ⟨old, new, ?_⟩
      exact ⟨[], rest, rfl⟩
  | case4 l next rest hno ih =>
      have hnotpair : ∀ old new,
          ¬ ["--- ".toList ++ old, "+++ ".toList ++ new] <+: l :: next :: rest := by
        rintro old new ⟨rest', heq⟩
        injection heq with hold heq
        injection heq with hnew _
        exact hno old new (stripPrefix_eq_some.mpr hold.symm)
          (stripPrefix_eq_some.mpr hnew.symm)
      simp only [List.mem_cons, reduceCtorEq, false_or, ih]
      unfold LooksLikeFiles
      simp only [List.infix_cons_iff, hnotpair, false_or]

def Item.stripCr : Item → Item
  | .pair old new => .pair (Text.stripCr old) (Text.stripCr new)
  | .line l => .line (Text.stripCr l)

theorem items_stripCr (ls : List Line) :
    items (ls.map stripCr) = (items ls).map Item.stripCr := by
  have hminus := fun l => @stripPrefix_stripCr "--- ".toList l (by decide)
  have hplus := fun l => @stripPrefix_stripCr "+++ ".toList l (by decide)
  fun_induction items ls with
  | case1 => rfl
  | case2 l => rfl
  | case3 l next rest old new hnew hold ih =>
      have hold' := hminus l
      have hnew' := hplus next
      rw [hold] at hold'
      rw [hnew] at hnew'
      rw [List.map_cons, List.map_cons, items_pair hold' hnew', ih]
      rfl
  | case4 l next rest hno ih =>
      rw [List.map_cons, items_line, ih]
      · rfl
      · rw [hminus]
        cases hold : stripPrefix l "--- ".toList with
        | none => exact .inl rfl
        | some old =>
            refine .inr fun next' hnext => ?_
            obtain rfl := Option.some.inj hnext
            rw [hplus]
            cases hnew : stripPrefix next "+++ ".toList with
            | none => rfl
            | some new => exact (hno old new hold hnew).elim

/-- Lines without a header pair are themselves. -/
theorem items_of_not (h : ¬ LooksLikeFiles ls) : items ls = ls.map .line := by
  rw [← pair_mem_items] at h
  fun_induction items ls with
  | case1 => rfl
  | case2 l => rfl
  | case3 l next rest old new hnew hold ih =>
      exact absurd ⟨old, new, List.mem_cons_self⟩ h
  | case4 l next rest hno ih =>
      rw [List.map_cons, ih]
      rintro ⟨old, new, hmem⟩
      exact h ⟨old, new, List.mem_cons_of_mem _ hmem⟩

-- == headers

theorem parseRange_range {terse : Bool} {before len : Nat}
    (hfits : before + len ≤ USIZE_MAX) :
    parseRange (range terse before len) = (start before len, len) := by
  obtain ⟨hstart, hlen⟩ := @range_numbers terse before len hfits
  unfold parseRange
  simp only [hstart, hlen]

theorem middle_chars : '@' ∉ middle h o n := by
  have hrange : ∀ terse before len, '@' ∉ range terse before len := by
    intro terse before len hmem
    rcases range_chars hmem with hd | hd
    · exact absurd hd (by decide)
    · exact absurd hd (by decide)
  simp [middle, hrange]

/-- A written header is read back. -/
theorem parseHunkHeader_header
    (hold : o + (oldSide h.body).length ≤ USIZE_MAX)
    (hnew : n + (newSide h.body).length ≤ USIZE_MAX) :
    parseHunkHeader (stripCr (h.header o n)) =
      ((start o (oldSide h.body).length, (oldSide h.body).length),
        (start n (newSide h.body).length, (newSide h.body).length)) := by
  have hminus : ∀ r : List Char, stripPrefix ('-' :: r) ['-'] = some r := by
    simp
  have hplus : ∀ r : List Char, stripPrefix ('+' :: r) ['-'] = none := by
    simp
  have hplus' : ∀ r : List Char, stripPrefix ('+' :: r) ['+'] = some r := by
    simp
  have hstrip : stripCr (h.header o n) =
      [] ++ ("@@".toList ++ (middle h o n ++ ("@@".toList ++
        stripCr h.heading))) := by
    rw [header_eq, ← List.append_assoc, ← List.append_assoc,
      stripCr_append]
    · simp
    · rw [List.getLast?_append]
      simp
  have hinner : innerHeader (stripCr (h.header o n)) = middle h o n := by
    unfold innerHeader
    rw [hstrip, show "@@".toList = '@' :: ['@'] from rfl,
      breakAt_append List.not_mem_nil]
    simp only
    rw [breakAt_append middle_chars]
  unfold parseHunkHeader
  rw [hinner, splitWhitespace_trim, ← List.append_nil (middle h o n),
    words_middle, splitWhitespace_nil, List.foldl_cons, List.foldl_cons,
    List.foldl_nil]
  simp only [readWord, hminus, hplus, hplus', parseRange_range hold,
    parseRange_range hnew]

-- == one file

/-- A hunk as it is parsed, with so many lines before it. -/
def readHunk (h : Unified.Hunk) (o n : Nat) : Hunk :=
  ⟨start o (oldSide h.body).length, (oldSide h.body).length,
    start n (newSide h.body).length, (newSide h.body).length,
    stripCr (h.header o n),
    ((h.body.flatMap Entry.written).map stripCr).map
      fun l => ⟨classifyBody l, l⟩⟩

/-- The hunks as they are parsed. -/
def readFrom (o n : Nat) : List Unified.Hunk → List Hunk
  | [] => []
  | h :: hs =>
      readHunk h (o + h.kept.length) (n + h.kept.length) ::
        readFrom (o + h.kept.length + (oldSide h.body).length)
          (n + h.kept.length + (newSide h.body).length) hs

attribute [grind =] readFrom

theorem line_body {s : Parser} {l : Line}
    (hgit : stripPrefix l "diff --git ".toList = none)
    (hat : startsWith l "@@".toList = false) :
    s.line l =
      { s with hunk := s.hunk.map fun h =>
        { h with lines := h.lines ++ [⟨classifyBody l, l⟩] } } := by
  unfold Parser.line
  rw [hgit]
  simp only [hat, Bool.false_eq_true, if_false]

/-- Lines of a hunk, one by one. -/
theorem foldl_body {ls : List Line} {s : Parser}
    (h : ∀ l ∈ ls, stripPrefix l "diff --git ".toList = none ∧
      startsWith l "@@".toList = false) :
    (ls.map Item.line).foldl Parser.item s =
      { s with hunk := s.hunk.map fun h =>
        { h with lines := h.lines ++ ls.map fun l => ⟨classifyBody l, l⟩ } } := by
  induction ls generalizing s with
  | nil => simp
  | cons l ls ih =>
      obtain ⟨⟨hgit, hat⟩, hls⟩ := List.forall_mem_cons.mp h
      rw [List.map_cons, List.foldl_cons, Parser.item, line_body hgit hat,
        ih hls, Option.map_map]
      simp [Function.comp_def]

/-- The lines of a hunk do not begin like a header or a banner. -/
theorem entry_line {e : Entry} {l : Line} (hl : l ∈ e.written) :
    stripPrefix (stripCr l) "diff --git ".toList = none ∧
      startsWith (stripCr l) "@@".toList = false := by
  have hgit : stripPrefix l "diff --git ".toList = none :=
    @entry_begins e l hl 'd' (by decide) "iff --git ".toList
  have hat : stripPrefix l "@@".toList = none :=
    @entry_begins e l hl '@' (by decide) ['@']
  rw [startsWith_eq, stripPrefix_stripCr l (by decide),
    stripPrefix_stripCr l (by decide), hgit, hat]
  exact ⟨rfl, rfl⟩

theorem header_begins (h : Unified.Hunk) (o n : Nat) {c : Char} (hc : c ≠ '@')
    (pre : List Char) : stripPrefix (h.header o n) (c :: pre) = none := by
  rw [header_eq, show "@@".toList = '@' :: ['@'] from rfl, List.cons_append,
    stripPrefix_cons, if_neg hc]

/-- The items of hunks without headers between them. -/
theorem items_written (hhead : h.head = []) (hheads : ∀ x ∈ hs, x.head = [])
    (o n : Nat) :
    items (writtenFrom o n (h :: hs)) =
      .line (h.header (o + h.kept.length) (n + h.kept.length)) ::
        (items (h.body.flatMap Entry.written) ++
          items (writtenFrom (o + h.kept.length + (oldSide h.body).length)
            (n + h.kept.length + (newSide h.body).length) hs)) := by
  rw [writtenFrom, hhead, List.flatMap_nil, List.nil_append, List.cons_append,
    items_line (.inl (header_begins h _ _ (by decide) _)), items_append]
  intro l hl
  cases hs with
  | nil => cases hl
  | cons x hs =>
      rw [writtenFrom, hheads x List.mem_cons_self, List.flatMap_nil,
        List.nil_append, List.cons_append, List.head?_cons] at hl
      rw [← Option.some.inj hl]
      exact header_begins x _ _ (by decide) _

theorem header_reads (h : Unified.Hunk) (o n : Nat) :
    stripPrefix (stripCr (h.header o n)) "diff --git ".toList = none ∧
      startsWith (stripCr (h.header o n)) "@@".toList = true := by
  rw [startsWith_eq, stripPrefix_stripCr _ (by decide),
    stripPrefix_stripCr _ (by decide)]
  refine ⟨congrArg _ (header_begins h o n (by decide) "iff --git ".toList), ?_⟩
  rw [header_eq, stripPrefix_append]
  rfl

/-- A header ends the hunk before it and begins another. -/
theorem line_header {f : FileDiff} (hf : s.file = some f)
    (hold : o + (oldSide h.body).length ≤ USIZE_MAX)
    (hnew : n + (newSide h.body).length ≤ USIZE_MAX) :
    s.line (stripCr (h.header o n)) =
      { s with
        file := some { f with hunks := f.hunks ++ s.hunk.toList }
        hunk := some ⟨start o (oldSide h.body).length, (oldSide h.body).length,
          start n (newSide h.body).length, (newSide h.body).length,
          stripCr (h.header o n), []⟩ } := by
  obtain ⟨hgit, hat⟩ := header_reads h o n
  unfold Parser.line
  rw [hgit]
  simp only [hat, if_true, parseHunkHeader_header hold hnew]
  unfold Parser.flushHunk
  rw [hf]
  cases s.hunk with
  | none => simp
  | some x => simp

theorem foldl_written {kept : List Unified.Line}
    (hheads : ∀ h ∈ hs, h.head = [])
    (hclash : ∀ h ∈ hs, ¬ LooksLikeFiles (h.body.flatMap Entry.written))
    (hold : o + (oldFrom kept hs).length ≤ USIZE_MAX)
    (hnew : n + (newFrom kept hs).length ≤ USIZE_MAX) (f : FileDiff)
    (cur : Option Hunk) :
    (((items ((writtenFrom o n hs).map stripCr)).foldl Parser.item
      ⟨[], some f, cur⟩).flushHunk.flushFile).files =
      [{ f with hunks := f.hunks ++ cur.toList ++ readFrom o n hs }] := by
  induction hs generalizing o n f cur with
  | nil =>
      cases cur with
      | none => simp [writtenFrom, items, readFrom, Parser.flushHunk,
          Parser.flushFile]
      | some h => simp [writtenFrom, items, readFrom, Parser.flushHunk,
          Parser.flushFile]
  | cons h hs ih =>
      obtain ⟨hhead, hheads⟩ := List.forall_mem_cons.mp hheads
      obtain ⟨hbody, hbodies⟩ := List.forall_mem_cons.mp hclash
      rw [oldFrom] at hold
      rw [newFrom] at hnew
      simp only [List.length_append] at hold hnew
      have hlines : ∀ l ∈ (h.body.flatMap Entry.written).map stripCr,
          stripPrefix l "diff --git ".toList = none ∧
            startsWith l "@@".toList = false := by
        intro l hl
        obtain ⟨l', hl', rfl⟩ := List.mem_map.mp hl
        obtain ⟨e, -, hl'⟩ := List.mem_flatMap.mp hl'
        exact entry_line hl'
      have hstrip : ((h.body.flatMap Entry.written).map Item.line).map
          Item.stripCr =
            ((h.body.flatMap Entry.written).map stripCr).map Item.line := by
        simp only [List.map_map]
        rfl
      rw [items_stripCr, items_written hhead hheads, items_of_not hbody,
        List.map_cons, List.map_append, hstrip, ← items_stripCr,
        List.foldl_cons, List.foldl_append]
      change (((items _).foldl Parser.item ((List.map Item.line _).foldl
        Parser.item (Parser.line _ (stripCr _)))).flushHunk.flushFile).files = _
      rw [line_header rfl (by omega) (by omega), foldl_body hlines]
      simp only [Option.map_some]
      rw [ih hheads hbodies (by omega) (by omega)]
      simp [readFrom, readHunk]

-- == the head

/-- The lines in front of a file's hunks. -/
def headLines (chrome : List (List Char)) (old new : List Char) :
    List (List Char) :=
  chrome ++ Head.written (.files old new)

/-- At most one of them is a `diff --git` banner. -/
structure IsHead (chrome : List (List Char)) (old new : List Char) :
    Prop where
  lines : ∀ text ∈ chrome, (Head.chrome text).WellFormed
  files : (Head.files old new).WellFormed
  banner : (chrome.filter (startsWith · "diff --git ".toList)).length ≤ 1

theorem items_head (hchrome : ∀ text ∈ chrome, (Head.chrome text).WellFormed)
    (rest : List Line) :
    items (headLines chrome old new ++ rest) =
      chrome.map .line ++ .pair old new :: items rest := by
  unfold headLines
  induction chrome with
  | nil =>
      exact items_pair (stripPrefix_append _ _) (stripPrefix_append _ _)
  | cons text chrome ih =>
      obtain ⟨htext, hchrome⟩ := List.forall_mem_cons.mp hchrome
      rw [List.cons_append, List.cons_append,
        items_line (.inl (chrome_begins htext (by decide) _)), ih hchrome]
      rfl

/-- A file may have been opened, with nothing in it yet. -/
def Fresh (s : Parser) : Prop :=
  s.files = [] ∧ s.hunk = none ∧ ∀ f, s.file = some f → f.hunks = []

theorem foldl_chrome {chrome : List (List Char)}
    (hchrome : ∀ text ∈ chrome, (Head.chrome text).WellFormed) {s : Parser}
    (hs : Fresh s)
    (hbanner : (chrome.filter (startsWith · "diff --git ".toList)).length ≤
      if s.file = none then 1 else 0) :
    Fresh ((chrome.map fun l => Item.line (stripCr l)).foldl Parser.item s) := by
  induction chrome generalizing s with
  | nil => exact hs
  | cons text chrome ih =>
      obtain ⟨htext, hchrome⟩ := List.forall_mem_cons.mp hchrome
      obtain ⟨hfiles, hhunk, hfile⟩ := hs
      rw [List.map_cons, List.foldl_cons, Parser.item]
      rw [List.filter_cons, startsWith_eq] at hbanner
      have hgit := @stripPrefix_stripCr "diff --git ".toList text (by decide)
      cases hstripped : stripPrefix text "diff --git ".toList with
      | some rest =>
          rw [hstripped] at hgit hbanner
          simp only [Option.isSome_some, if_true, List.length_cons] at hbanner
          split at hbanner
          · rename_i hnone
            obtain ⟨a, b, hline⟩ : ∃ a b,
                s.line (stripCr text) = ⟨[], some ⟨a, b, []⟩, none⟩ := by
              unfold Parser.line
              rw [hgit]
              simp [Parser.flushHunk, Parser.flushFile, hnone, hhunk, hfiles]
            rw [hline]
            refine ih hchrome ⟨rfl, rfl, fun f hf => ?_⟩ ?_
            · rw [← Option.some.inj hf]
            · rw [if_neg (by simp)]
              omega
          · omega
      | none =>
          rw [hstripped] at hgit hbanner
          simp only [Option.isSome_none, Bool.false_eq_true, if_false]
            at hbanner
          have hat : startsWith (stripCr text) "@@".toList = false := by
            rw [startsWith_eq, stripPrefix_stripCr _ (by decide)]
            exact congrArg (fun x => (Option.map stripCr x).isSome)
              (chrome_begins htext (by decide) ['@'])
          rw [line_body hgit hat, hhunk]
          exact ih hchrome ⟨hfiles, rfl, hfile⟩ hbanner

theorem pair_fresh (hs : Fresh s) (old new : List Char) :
    s.pair old new = ⟨[], some ⟨cleanPath old, cleanPath new, []⟩, none⟩ := by
  obtain ⟨files, file, hunk⟩ := s
  obtain ⟨rfl, rfl, hfile⟩ := hs
  cases file with
  | none => rfl
  | some f =>
      have hempty := hfile f rfl
      simp [Parser.pair, Parser.flushHunk, hempty]

/-- The head opens a file, and the hunks come into it. -/
theorem parse_eq (hhead : IsHead chrome old new) (hp : p.WellFormed) :
    (parse (unlines (headLines chrome old new ++ p.lines))).files =
      ((items (p.lines.map stripCr)).foldl Parser.item
        ⟨[], some ⟨cleanPath (stripCr old), cleanPath (stripCr new), []⟩,
          none⟩).flushHunk.flushFile.files := by
  have hclean : ∀ l ∈ headLines chrome old new ++ p.lines, '\n' ∉ l := by
    intro l hl
    rcases List.mem_append.mp hl with hl | hl
    · rcases List.mem_append.mp hl with hl | hl
      · exact (hhead.lines l hl).2
      · exact head_no_newline hhead.files l hl
    · exact written_no_newline hp.hunks hp.text 0 0 l hl
  have hchrome := foldl_chrome hhead.lines (s := ⟨[], none, none⟩)
    ⟨rfl, rfl, by simp⟩ (by simpa using hhead.banner)
  unfold parse
  rw [lines_unlines hclean, items_stripCr, items_head hhead.lines,
    List.map_append, List.map_map, List.map_cons, ← items_stripCr,
    List.foldl_append, List.foldl_cons]
  change (((items _).foldl Parser.item (Parser.pair (List.foldl Parser.item
    _ (chrome.map fun l => Item.line (stripCr l))) _ _)).flushHunk.flushFile).files
      = _
  rw [pair_fresh hchrome]

/-- One file's diff, with no line of its hunks taken for a header. -/
theorem parse_written (hhead : IsHead chrome old new) (hp : p.WellFormed)
    (hheads : ∀ h ∈ p.hunks, h.head = [])
    (hclash : ∀ h ∈ p.hunks, ¬ LooksLikeFiles (h.body.flatMap Entry.written))
    (hold : p.old.length ≤ USIZE_MAX) (hnew : p.new.length ≤ USIZE_MAX) :
    (parse (unlines (headLines chrome old new ++ p.lines))).files =
      [⟨cleanPath (stripCr old), cleanPath (stripCr new),
        readFrom 0 0 p.hunks⟩] := by
  rw [parse_eq hhead hp, Patch.lines,
    foldl_written hheads hclash (by rw [Nat.zero_add]; exact hold)
      (by rw [Nat.zero_add]; exact hnew)]
  simp

-- == more files

/-- A file has begun that has a hunk, or it is not the first. -/
def Busy (s : Parser) : Prop :=
  2 ≤ s.files.length + s.file.toList.length ∨
    ∃ f, s.file = some f ∧ (f.hunks ≠ [] ∨ s.hunk ≠ none)

theorem flushHunk_files (s : Parser) :
    s.flushHunk.files = s.files ∧
      s.flushHunk.file.toList.length = s.file.toList.length := by
  obtain ⟨files, file, hunk⟩ := s
  cases file <;> cases hunk <;> exact ⟨rfl, rfl⟩

/-- In a busy state the file has a hunk once that in progress is flushed. -/
theorem flushHunk_busy {f : FileDiff} (hf : s.file = some f)
    (h : f.hunks ≠ [] ∨ s.hunk ≠ none) :
    ∃ f', s.flushHunk.file = some f' ∧ f'.hunks ≠ [] := by
  obtain ⟨files, file, hunk⟩ := s
  obtain rfl : file = some f := hf
  cases hunk with
  | none => exact ⟨f, rfl, h.resolve_right fun hne => hne rfl⟩
  | some x => exact ⟨_, rfl, by simp⟩

theorem item_line (s : Parser) (l : Line) : s.item (.line l) = s.line l := rfl

/-- What a line that is no header pair does. -/
theorem line_cases (s : Parser) (l : Line) :
    (∃ f, s.line l = { s.flushHunk.flushFile with file := some f }) ∨
      (∃ h, s.line l =
        { s.flushHunk with
          file := some (s.flushHunk.file.getD ⟨[], [], []⟩)
          hunk := some h }) ∨
      ∃ g, s.line l = { s with hunk := s.hunk.map g } := by
  unfold Parser.line
  split
  · exact .inl ⟨_, rfl⟩
  · split
    · exact .inr (.inl ⟨_, rfl⟩)
    · exact .inr (.inr ⟨_, rfl⟩)

theorem files_item (s : Parser) (it : Item) :
    s.files.length + s.file.toList.length ≤
      (s.item it).files.length + (s.item it).file.toList.length := by
  obtain ⟨hfiles, hfile⟩ := flushHunk_files s
  cases it with
  | pair old new =>
      rw [← hfiles, ← hfile]
      unfold Parser.item Parser.pair
      generalize s.flushHunk = t
      obtain ⟨files, file, hunk⟩ := t
      cases file with
      | none => simp [Parser.flushFile]
      | some f =>
          simp only
          split <;> simp [Parser.flushFile]
  | line l =>
      rw [item_line]
      rcases line_cases s l with ⟨f, h⟩ | ⟨x, h⟩ | ⟨g, h⟩
      · rw [h, ← hfiles, ← hfile]
        generalize s.flushHunk = t
        obtain ⟨files, file, hunk⟩ := t
        cases file <;> simp [Parser.flushFile]
      · rw [h, ← hfiles, ← hfile]
        generalize s.flushHunk = t
        obtain ⟨files, file, hunk⟩ := t
        cases file <;> simp
      · rw [h]

theorem pair_busy (hs : Busy s) (old new : List Char) :
    2 ≤ (s.pair old new).files.length +
      (s.pair old new).file.toList.length := by
  rcases hs with hs | ⟨f, hf, hs⟩
  · exact Nat.le_trans hs (files_item s (.pair old new))
  · obtain ⟨f', hf', hne⟩ := flushHunk_busy hf hs
    unfold Parser.pair
    simp only [hf', if_neg hne, Parser.flushFile]
    simp

theorem busy_item (hs : Busy s) (it : Item) : Busy (s.item it) := by
  rcases hs with hs | ⟨f, hf, hs⟩
  · exact .inl (Nat.le_trans hs (files_item s it))
  cases it with
  | pair old new => exact .inl (pair_busy (.inr ⟨f, hf, hs⟩) old new)
  | line l =>
      obtain ⟨f', hf', hne⟩ := flushHunk_busy hf hs
      rw [item_line]
      rcases line_cases s l with ⟨f, h⟩ | ⟨x, h⟩ | ⟨g, h⟩
      · rw [h]
        exact .inl (by simp [Parser.flushFile, hf'])
      · rw [h]
        exact .inr ⟨f', by simp [hf'], .inl hne⟩
      · rw [h]
        refine .inr ⟨f, hf, hs.imp_right fun hhunk => ?_⟩
        simpa using hhunk

/-- With a header pair in a busy state, another file begins. -/
theorem files_of_pair {its : List Item} (hs : Busy s)
    (hpair : ∃ old new, Item.pair old new ∈ its) :
    2 ≤ ((its.foldl Parser.item s).flushHunk.flushFile).files.length := by
  have hflush : ∀ t : Parser, t.flushHunk.flushFile.files.length =
      t.files.length + t.file.toList.length := by
    intro t
    obtain ⟨hfiles, hfile⟩ := flushHunk_files t
    rw [← hfiles, ← hfile]
    generalize t.flushHunk = u
    obtain ⟨files, file, hunk⟩ := u
    cases file <;> simp [Parser.flushFile]
  rw [hflush]
  induction its generalizing s with
  | nil => simp at hpair
  | cons it its ih =>
      rw [List.foldl_cons]
      obtain ⟨old, new, hmem⟩ := hpair
      rcases List.mem_cons.mp hmem with rfl | hmem
      · have hmore : ∀ (its : List Item) (t : Parser),
            t.files.length + t.file.toList.length ≤
              (its.foldl Parser.item t).files.length +
                (its.foldl Parser.item t).file.toList.length := by
          intro its
          induction its with
          | nil => exact fun t => Nat.le_refl _
          | cons it its ih =>
              exact fun t => Nat.le_trans (files_item t it) (ih (t.item it))
        exact Nat.le_trans (pair_busy hs old new) (hmore its _)
      · exact ih (busy_item hs it) ⟨old, new, hmem⟩

theorem pair_mem_written (hheads : ∀ h ∈ hs, h.head = [])
    (hclash : ∃ h ∈ hs, LooksLikeFiles (h.body.flatMap Entry.written))
    (o n : Nat) :
    ∃ old new, Item.pair old new ∈ items (writtenFrom o n hs) := by
  induction hs generalizing o n with
  | nil => simp at hclash
  | cons h hs ih =>
      obtain ⟨hhead, hheads⟩ := List.forall_mem_cons.mp hheads
      rw [items_written hhead hheads]
      obtain ⟨x, hx, hlooks⟩ := hclash
      rcases List.mem_cons.mp hx with rfl | hx
      · obtain ⟨old, new, hmem⟩ := pair_mem_items.mpr hlooks
        exact ⟨old, new, List.mem_cons_of_mem _ (List.mem_append_left _ hmem)⟩
      · obtain ⟨old, new, hmem⟩ := ih hheads ⟨x, hx, hlooks⟩
          (o + h.kept.length + (oldSide h.body).length)
          (n + h.kept.length + (newSide h.body).length)
        exact ⟨old, new, List.mem_cons_of_mem _ (List.mem_append_right _ hmem)⟩

/-- Below a hunk's header the state is busy. -/
theorem busy_header (s : Parser) (h : Unified.Hunk) (o n : Nat) :
    Busy (s.line (stripCr (h.header o n))) := by
  obtain ⟨hgit, hat⟩ := header_reads h o n
  unfold Parser.line
  rw [hgit]
  simp only [hat, if_true]
  exact .inr ⟨_, rfl, .inr (by simp)⟩

/-- A line of a hunk that is taken for a header opens another file. -/
theorem parse_clash (hhead : IsHead chrome old new) (hp : p.WellFormed)
    (hheads : ∀ h ∈ p.hunks, h.head = [])
    (hclash : ∃ h ∈ p.hunks, LooksLikeFiles (h.body.flatMap Entry.written)) :
    2 ≤ (parse (unlines (headLines chrome old new ++ p.lines))).files.length := by
  have hpair := pair_mem_written hheads hclash 0 0
  rw [parse_eq hhead hp, Patch.lines, items_stripCr]
  cases hhunks : p.hunks with
  | nil => simp [hhunks, writtenFrom, items] at hpair
  | cons h hs =>
      rw [hhunks] at hheads hpair
      obtain ⟨hhead', hheads'⟩ := List.forall_mem_cons.mp hheads
      rw [items_written hhead' hheads'] at hpair ⊢
      obtain ⟨old', new', hmem⟩ := hpair
      rw [List.map_cons, List.foldl_cons]
      refine files_of_pair (busy_header _ h _ _)
        ⟨stripCr old', stripCr new', ?_⟩
      rcases List.mem_cons.mp hmem with heq | hmem
      · cases heq
      · exact List.mem_map.mpr ⟨_, hmem, rfl⟩

end Zmax.Diffmode
