/-
A table fitted to widths.

A line of a wrapped cell is its words with a space between each two of them,
as long as the column is wide or shorter (`Packed`). The words of a line go
through the state of the wrapper one by one and all their chars stay
(`Wrapped`); a packed line is wrapped into itself, so wrapping again changes
nothing. The columns of a table are fitted one after another, each cell once.
-/
import Zmax.Core.Table

namespace Zmax.TextTable

open Text
open Table (separator)

-- == words

/-- The chars of a text that are no white space. -/
def ink (s : List Char) : List Char := s.filter (!isWhitespace ·)

theorem ink_append (s t : List Char) : ink (s ++ t) = ink s ++ ink t :=
  List.filter_append ..

/-- A word of a line. -/
structure IsWord (word : List Char) : Prop where
  ne_nil : word ≠ []
  solid : ∀ c ∈ word, isWhitespace c = false

variable {word chars line : List Char} {words : List (List Char)}

theorem isWord_of_mem {s : List Char} (h : word ∈ splitWhitespace s) :
    IsWord word :=
  ⟨(mem_splitWhitespace h).1, (mem_splitWhitespace h).2⟩

theorem IsWord.ink (h : IsWord word) : ink word = word :=
  List.filter_eq_self.mpr fun c hc => by rw [h.solid c hc]; rfl

theorem IsWord.split (h : IsWord word) : splitWhitespace word = [word] :=
  splitWhitespace_word h.ne_nil h.solid

/-- Words with a space between each two of them. -/
def spaced (words : List (List Char)) : List Char := [' '].intercalate words

theorem spaced_concat (hne : words ≠ []) (word : List Char) :
    spaced (words ++ [word]) = spaced words ++ ' ' :: word := by
  unfold spaced
  induction words with
  | nil => exact absurd rfl hne
  | cons first words ih =>
      cases words with
      | nil => simp [List.intercalate_cons_cons]
      | cons second words =>
          rw [List.cons_append, List.cons_append, List.intercalate_cons_cons,
            ← List.cons_append, ih (by simp), List.intercalate_cons_cons]
          simp

/-- A line of spaced words that fits. -/
structure Packed (width : Nat) (line : List Char) : Prop where
  spaced : spaced (splitWhitespace line) = line
  fits : line.length ≤ width

variable {width : Nat}

theorem packed_nil : Packed width [] := ⟨rfl, Nat.zero_le _⟩

theorem IsWord.packed (h : IsWord word) (hfits : word.length ≤ width) :
    Packed width word where
  spaced := by
    rw [h.split]
    exact List.intercalate_singleton
  fits := hfits

theorem Packed.push {line word : List Char} (h : Packed width line)
    (hne : line ≠ []) (hword : IsWord word)
    (hfits : line.length + (word.length + 1) ≤ width) :
    Packed width (line ++ ' ' :: word) where
  spaced := by
    have hwords : splitWhitespace line ≠ [] := by
      intro hnil
      have hline := h.spaced
      rw [hnil] at hline
      exact hne hline.symm
    rw [splitWhitespace_append isWhitespace_space, hword.split,
      spaced_concat hwords, h.spaced]
  fits := by
    rw [List.length_append, List.length_cons]
    exact hfits

-- == the state

/-- What the wrapper holds when it has gone through some of the words: packed
lines with the chars of these words. -/
structure Wrapped (width : Nat) (state : List (List Char) × List Char)
    (chars : List Char) : Prop where
  out : ∀ line ∈ state.1, Packed width line
  line : Packed width state.2
  kept : ink (state.1.flatten ++ state.2) = chars

/-- A long word fills lines until the rest of it fits. -/
theorem splitLong_spec (hwidth : 0 < width) {out : List (List Char)}
    (h : Wrapped width (out, line) chars) (hword : IsWord word) :
    ∃ out' line' word' chars',
      splitLong width hwidth out line word = (out', line', word') ∧
      Wrapped width (out', line') chars' ∧ chars' ++ word' = chars ++ word ∧
      IsWord word' ∧ word'.length ≤ width := by
  induction hn : word.length using Nat.strong_induction_on
    generalizing out line word chars with
  | _ n ih =>
      subst hn
      rw [splitLong]
      split
      · rename_i hlong
        have htake : IsWord (word.take width) := by
          refine ⟨fun hnil => ?_, fun c hc =>
            hword.solid c (List.mem_of_mem_take hc)⟩
          have hlen := congrArg List.length hnil
          rw [List.length_take, List.length_nil] at hlen
          omega
        have hdrop : IsWord (word.drop width) := by
          refine ⟨fun hnil => ?_, fun c hc =>
            hword.solid c (List.mem_of_mem_drop hc)⟩
          have hlen := congrArg List.length hnil
          rw [List.length_drop, List.length_nil] at hlen
          omega
        -- The line before the word ends, unless it is still empty.
        have hbefore : Wrapped width
            (if line = [] then out else out ++ [line], []) chars := by
          split
          · rename_i hnil
            rw [← hnil]
            exact h
          · refine ⟨?_, packed_nil, ?_⟩
            · exact List.forall_mem_append.mpr
                ⟨h.out, List.forall_mem_singleton.mpr h.line⟩
            · rw [← h.kept, List.flatten_append, List.flatten_singleton,
                List.append_nil]
        have hcut : Wrapped width
            ((if line = [] then out else out ++ [line]) ++
              [word.take width], []) (chars ++ word.take width) := by
          refine ⟨?_, packed_nil, ?_⟩
          · exact List.forall_mem_append.mpr ⟨hbefore.out,
              List.forall_mem_singleton.mpr
                (htake.packed (List.length_take_le _ _))⟩
          · rw [← hbefore.kept, List.flatten_append, List.flatten_singleton,
              List.append_nil, List.append_nil, ink_append, htake.ink]
        obtain ⟨out', line', word', chars', heq, hstate, hchars, hrest⟩ :=
          ih _ (by rw [List.length_drop]; omega) hcut hdrop rfl
        refine ⟨out', line', word', chars', heq, hstate, ?_, hrest⟩
        rw [hchars, List.append_assoc, List.take_append_drop]
      · exact ⟨out, line, word, chars, rfl, h, rfl, hword, by omega⟩

theorem wrapWord_spec (hwidth : 0 < width)
    {state : List (List Char) × List Char} (h : Wrapped width state chars)
    (hword : IsWord word) :
    Wrapped width (wrapWord width hwidth state word) (chars ++ word) := by
  obtain ⟨out, line, word', chars', heq, hstate, hchars, hword', hlen⟩ :=
    splitLong_spec hwidth h hword
  unfold wrapWord
  rw [heq, ← hchars]
  dsimp only
  by_cases hline : line = []
  · subst hline
    rw [if_neg (by simp), if_neg (by simp)]
    refine ⟨hstate.out, hword'.packed hlen, ?_⟩
    rw [ink_append, hword'.ink, ← hstate.kept, List.append_nil]
  · rw [if_neg hline]
    split
    · refine ⟨?_, hword'.packed hlen, ?_⟩
      · exact List.forall_mem_append.mpr ⟨hstate.out,
          List.forall_mem_singleton.mpr hstate.line⟩
      · rw [ink_append, hword'.ink, List.flatten_append,
          List.flatten_singleton, hstate.kept]
    · rename_i hfits
      refine ⟨hstate.out, hstate.line.push hline hword' ?_, ?_⟩
      · show line.length + (word'.length + 1) ≤ width
        have hfits := not_and.mp hfits hline
        omega
      · have hword : ink (' ' :: word') = word' := hword'.ink
        rw [← List.append_assoc, ink_append, hword, hstate.kept]

theorem foldl_wrapWord_spec (hwidth : 0 < width)
    (hwords : ∀ word ∈ words, IsWord word)
    {state : List (List Char) × List Char} (h : Wrapped width state chars) :
    Wrapped width (words.foldl (wrapWord width hwidth) state)
      (chars ++ words.flatten) := by
  induction words generalizing state chars with
  | nil => rwa [List.flatten_nil, List.append_nil]
  | cons word words ih =>
      obtain ⟨hword, hwords⟩ := List.forall_mem_cons.mp hwords
      rw [List.foldl_cons, List.flatten_cons, ← List.append_assoc]
      exact ih hwords (wrapWord_spec hwidth h hword)

/-- A hard line becomes packed lines with its chars. -/
theorem wrapLine_spec (hwidth : 0 < width) (hardLine : List Char) :
    (∀ line ∈ wrapLine width hwidth hardLine, Packed width line) ∧
      ink (wrapLine width hwidth hardLine).flatten = ink hardLine := by
  have hstart : Wrapped width ([], []) [] :=
    ⟨fun _ h => absurd h List.not_mem_nil, packed_nil, rfl⟩
  have h := foldl_wrapWord_spec hwidth
    (fun word hmem => isWord_of_mem (s := hardLine) hmem) hstart
  unfold wrapLine
  refine ⟨?_, ?_⟩
  · exact List.forall_mem_append.mpr ⟨h.out,
      List.forall_mem_singleton.mpr h.line⟩
  · rw [List.flatten_append, List.flatten_singleton, h.kept, List.nil_append,
      flatten_splitWhitespace, ink]

-- == wrapping again

theorem spaced_ne_nil (hne : words ≠ [])
    (hwords : ∀ word ∈ words, IsWord word) : spaced words ≠ [] := by
  obtain rfl | ⟨words, word, rfl⟩ := words.eq_nil_or_concat
  · exact absurd rfl hne
  · by_cases hnil : words = []
    · subst hnil
      have hword := hwords word List.mem_cons_self
      simpa [spaced] using hword.ne_nil
    · rw [List.concat_eq_append, spaced_concat hnil]
      simp

/-- Words that fit on a line together stay there. -/
theorem foldl_wrapWord_spaced (hwidth : 0 < width)
    (hwords : ∀ word ∈ words, IsWord word)
    (hfits : (spaced words).length ≤ width) :
    words.foldl (wrapWord width hwidth) ([], []) = ([], spaced words) := by
  induction words using List.reverseRecOn with
  | nil => rfl
  | append_singleton words word ih =>
      obtain ⟨hbefore, hword⟩ := List.forall_mem_append.mp hwords
      have hword := List.forall_mem_singleton.mp hword
      by_cases hnil : words = []
      · subst hnil
        have hlen : word.length ≤ width := by simpa [spaced] using hfits
        rw [List.nil_append, List.foldl_cons, List.foldl_nil, wrapWord,
          splitLong, if_neg (by omega)]
        simp [spaced]
      · rw [spaced_concat hnil] at hfits ⊢
        rw [List.length_append, List.length_cons] at hfits
        rw [List.foldl_append, ih hbefore (by omega), List.foldl_cons,
          List.foldl_nil, wrapWord, splitLong, if_neg (by omega)]
        have hline := spaced_ne_nil hnil hbefore
        simp only [hline, if_false, ne_eq, not_false_eq_true, true_and,
          if_true]
        rw [if_neg (by omega)]

/-- A packed line is wrapped into itself. -/
theorem Packed.wrapLine (h : Packed width line) (hwidth : 0 < width) :
    wrapLine width hwidth line = [line] := by
  have hfold := foldl_wrapWord_spaced hwidth
    (fun word hmem => isWord_of_mem (s := line) hmem)
    (by rw [h.spaced]; exact h.fits)
  unfold TextTable.wrapLine
  rw [hfold, h.spaced]
  rfl

theorem mem_spaced {c : Char} (h : c ∈ spaced words) :
    c = ' ' ∨ ∃ word ∈ words, c ∈ word := by
  unfold spaced at h
  induction words with
  | nil => exact absurd h List.not_mem_nil
  | cons word words ih =>
      cases words with
      | nil =>
          rw [List.intercalate_singleton] at h
          exact .inr ⟨word, List.mem_cons_self, h⟩
      | cons next words =>
          rw [List.intercalate_cons_cons, List.mem_append, List.mem_append]
            at h
          rcases h with (h | h) | h
          · exact .inr ⟨word, List.mem_cons_self, h⟩
          · exact .inl (List.mem_singleton.mp h)
          · rcases ih h with hspace | ⟨other, hmem, hc⟩
            · exact .inl hspace
            · exact .inr ⟨other, List.mem_cons_of_mem _ hmem, hc⟩

theorem Packed.newline (h : Packed width line) : '\n' ∉ line := by
  intro hmem
  rw [← h.spaced] at hmem
  rcases mem_spaced hmem with hspace | ⟨word, hword, hc⟩
  · exact absurd hspace (by decide)
  · exact absurd ((isWord_of_mem hword).solid _ hc) (by decide)

-- == empty lines

theorem flatten_rdropWhile (ls : List (List Char)) :
    (ls.rdropWhile (· = [])).flatten = ls.flatten := by
  induction ls using List.reverseRecOn with
  | nil => rfl
  | append_singleton ls line ih =>
      rw [List.rdropWhile_concat]
      split
      · rename_i hnil
        rw [ih, of_decide_eq_true hnil, List.flatten_append]
        simp
      · rfl

/-- Of lines that are all empty the first one stays. -/
theorem dropEmpties_eq (ls : List (List Char)) :
    dropEmpties ls = ls.rdropWhile (· = []) ∨
      dropEmpties ls = ls.take 1 ∧ ∀ line ∈ ls, line = [] := by
  unfold dropEmpties
  split
  · rename_i hnil
    refine .inr ⟨rfl, fun line hline => ?_⟩
    exact of_decide_eq_true (List.rdropWhile_eq_nil_iff.mp hnil line hline)
  · exact .inl rfl

theorem dropEmpties_subset (ls : List (List Char)) : dropEmpties ls ⊆ ls := by
  rcases dropEmpties_eq ls with heq | ⟨heq, -⟩
  · rw [heq]
    exact (List.rdropWhile_prefix _ _).subset
  · rw [heq]
    exact List.take_subset _ _

theorem flatten_dropEmpties (ls : List (List Char)) :
    (dropEmpties ls).flatten = ls.flatten := by
  rcases dropEmpties_eq ls with heq | ⟨heq, hall⟩
  · rw [heq, flatten_rdropWhile]
  · have hnil : ∀ {xs : List (List Char)}, xs ⊆ ls → xs.flatten = [] :=
      fun hxs => List.flatten_eq_nil_iff.mpr fun line h => hall line (hxs h)
    rw [heq, hnil (List.take_subset _ _), hnil (List.Subset.refl _)]

theorem dropEmpties_ne_nil {ls : List (List Char)} (hne : ls ≠ []) :
    dropEmpties ls ≠ [] := by
  unfold dropEmpties
  split
  · cases ls with
    | nil => exact absurd rfl hne
    | cons line ls => simp
  · rename_i hkept
    exact hkept

theorem dropEmpties_dropEmpties (ls : List (List Char)) :
    dropEmpties (dropEmpties ls) = dropEmpties ls := by
  cases hdrop : ls.rdropWhile (· = []) with
  | nil =>
      have hall : ∀ line ∈ ls, line = [] := fun line hline =>
        of_decide_eq_true (List.rdropWhile_eq_nil_iff.mp hdrop line hline)
      have heq : dropEmpties ls = ls.take 1 := by
        unfold dropEmpties
        rw [hdrop]
      rw [heq]
      cases ls with
      | nil => rfl
      | cons line ls =>
          rw [hall line List.mem_cons_self]
          rfl
  | cons line kept =>
      have heq : dropEmpties ls = ls.rdropWhile (· = []) := by
        unfold dropEmpties
        rw [hdrop]
      have hagain := List.rdropWhile_idempotent (fun l => decide (l = [])) ls
      rw [heq]
      unfold dropEmpties
      rw [hagain, hdrop]

-- == the cell

variable (text : List Char)

theorem max_one_pos (width : Nat) : 0 < max width 1 :=
  Nat.lt_of_lt_of_le Nat.one_pos (Nat.le_max_right width 1)

/-- The lines of a cell once it is wrapped. -/
def wrapped (width : Nat) : List (List Char) :=
  (cellLines text).flatMap (wrapLine (max width 1) (max_one_pos width))

theorem wrapped_packed (width : Nat) :
    ∀ line ∈ dropEmpties (wrapped text width), Packed (max width 1) line := by
  intro line hline
  obtain ⟨hard, -, hmem⟩ :=
    List.mem_flatMap.mp (dropEmpties_subset _ hline)
  exact (wrapLine_spec _ hard).1 line hmem

theorem wrapped_ne_nil (width : Nat) : wrapped text width ≠ [] := by
  obtain ⟨hard, rest, heq⟩ :=
    List.exists_cons_of_ne_nil (cellLines_ne_nil text)
  rw [wrapped, heq, List.flatMap_cons]
  simp [wrapLine]

theorem cellLines_wrapCell (width : Nat) :
    cellLines (wrapCell text width) = dropEmpties (wrapped text width) :=
  List.splitOn_intercalate '\n'
    (fun line hline => (wrapped_packed text width line hline).newline)
    (dropEmpties_ne_nil (wrapped_ne_nil text width))

/-- No line of a wrapped cell is too long. -/
theorem wrapCell_fits (width : Nat) :
    ∀ line ∈ cellLines (wrapCell text width), line.length ≤ max width 1 := by
  rw [cellLines_wrapCell]
  exact fun line hline => (wrapped_packed text width line hline).fits

theorem wrapCell_wrapCell (width : Nat) :
    wrapCell (wrapCell text width) width = wrapCell text width := by
  have hself : wrapped (wrapCell text width) width =
      dropEmpties (wrapped text width) := by
    rw [wrapped, cellLines_wrapCell]
    have hmap : ∀ ls : List (List Char),
        (∀ line ∈ ls, Packed (max width 1) line) →
        ls.flatMap (wrapLine (max width 1) (by omega)) = ls := by
      intro ls hls
      induction ls with
      | nil => rfl
      | cons line ls ih =>
          obtain ⟨hline, hls⟩ := List.forall_mem_cons.mp hls
          rw [List.flatMap_cons, hline.wrapLine, ih hls,
            List.singleton_append]
    exact hmap _ (wrapped_packed text width)
  have hagain : wrapCell (wrapCell text width) width =
      ['\n'].intercalate
        (dropEmpties (wrapped (wrapCell text width) width)) := rfl
  rw [hagain, hself, dropEmpties_dropEmpties]
  rfl

theorem ink_intercalate (ls : List (List Char)) :
    ink (['\n'].intercalate ls) = ink ls.flatten := by
  induction ls with
  | nil => rfl
  | cons line ls ih =>
      cases ls with
      | nil => simp
      | cons next ls =>
          have hnewline : ink ['\n'] = [] := rfl
          rw [List.intercalate_cons_cons, ink_append, ink_append, hnewline,
            List.append_nil, ih, ← ink_append, ← List.flatten_cons]

/-- Wrapping keeps the chars that are no white space, in order. -/
theorem ink_wrapCell (width : Nat) : ink (wrapCell text width) = ink text := by
  have hlines : ∀ ls : List (List Char),
      ink (ls.flatMap (wrapLine (max width 1) (by omega))).flatten =
        ink ls.flatten := by
    intro ls
    induction ls with
    | nil => rfl
    | cons line ls ih =>
        rw [List.flatMap_cons, List.flatten_append, ink_append, ih,
          (wrapLine_spec _ line).2, List.flatten_cons, ink_append]
  calc ink (wrapCell text width)
      = ink (dropEmpties (wrapped text width)).flatten := ink_intercalate _
    _ = ink (cellLines text).flatten := by
        rw [flatten_dropEmpties]
        exact hlines _
    _ = ink text := by rw [← ink_intercalate, intercalate_cellLines]

-- == the columns

/-- Only the cells and the widths of a table change when it is fitted. -/
structure FittedTo (t fitted : Table) (widths : List Nat) : Prop where
  cells : fitted.cells = t.cells.map fun row =>
    widths.zipWith (fun w cell => wrapCell cell (max w 1)) row
  minColWidth : fitted.minColWidth = widths.map (max · 1)
  justify : fitted.justify = t.justify
  minRowHeight : fitted.minRowHeight = t.minRowHeight
  rows : fitted.rows = t.rows
  cols : fitted.cols = t.cols

theorem cells_foldl_fitColumn (ps : List (Nat × Nat)) (t : Table) :
    (ps.foldl Table.fitColumn t).cells = t.cells.map fun row =>
      ps.foldl (fun row p => row.modify p.2 (wrapCell · (max p.1 1))) row := by
  induction ps generalizing t with
  | nil => exact (List.map_id' _).symm
  | cons p ps ih =>
      rw [List.foldl_cons, ih, Table.fitColumn, List.map_map]
      rfl

theorem minColWidth_foldl_fitColumn (ps : List (Nat × Nat)) (t : Table) :
    (ps.foldl Table.fitColumn t).minColWidth =
      ps.foldl (fun ws p => ws.set p.2 (max p.1 1)) t.minColWidth := by
  induction ps generalizing t with
  | nil => rfl
  | cons p ps ih => rw [List.foldl_cons, ih, List.foldl_cons, Table.fitColumn]

theorem fittedTo {t : Table} {widths : List Nat}
    (h : widths.length = t.cols) :
    FittedTo t (t.fitToWidths widths) widths := by
  have heq : t.fitToWidths widths = widths.zipIdx.foldl Table.fitColumn t := by
    rw [Table.fitToWidths, if_neg (by simp [h])]
  rw [heq]
  refine ⟨?_, ?_, ?_, ?_, ?_, ?_⟩
  · rw [cells_foldl_fitColumn]
    refine List.map_congr_left fun row hrow => ?_
    exact foldl_modify_zipIdx (fun w cell => wrapCell cell (max w 1))
      (by rw [h, t.cells_cols row hrow])
  · rw [minColWidth_foldl_fitColumn]
    simp only [List.set_eq_modify]
    rw [foldl_modify_zipIdx (fun w _ => max w 1) (by rw [h, t.widths_cols])]
    refine List.ext_getElem (by simp [h, t.widths_cols]) fun k _ _ => ?_
    rw [List.getElem_zipWith, List.getElem_map]
  · exact foldl_keeps Table.fitColumn Table.justify (fun _ _ => rfl) _ _
  · exact foldl_keeps Table.fitColumn Table.minRowHeight (fun _ _ => rfl) _ _
  · exact foldl_keeps Table.fitColumn Table.rows (fun _ _ => rfl) _ _
  · exact foldl_keeps Table.fitColumn Table.cols (fun _ _ => rfl) _ _

namespace FittedTo

variable {t fitted : Table} {widths : List Nat}

/-- Each cell is wrapped to the width of its column. -/
theorem get (h : FittedTo t fitted widths) (r c : Nat) :
    fitted.get r c = (t.get r c).bind fun cell =>
      widths[c]?.map fun w => wrapCell cell (max w 1) := by
  unfold Table.get
  rw [h.cells, List.getElem?_map]
  cases t.cells[r]? with
  | none => rfl
  | some row =>
      rw [Option.map_some, Option.bind_some, Option.bind_some,
        List.getElem?_zipWith]
      cases widths[c]? <;> cases row[c]? <;> rfl

theorem textWidth_le {s : List Char} {m : Nat}
    (h : ∀ line ∈ cellLines s, line.length ≤ m) : textWidth s ≤ m := by
  unfold textWidth
  cases hmax : ((cellLines s).map List.length).max? with
  | none => exact Nat.zero_le _
  | some n =>
      exact (List.max?_le_iff hmax).mpr (List.forall_mem_map.mpr h)

theorem colWidth_eq (t : Table) (c : Nat) :
    t.colWidth c = t.cells.foldl
      (fun w row => max w ((row[c]?.map textWidth).getD 0))
      (max 1 (t.minColWidth[c]?.getD 0)) := by
  unfold Table.colWidth
  refine congrArg (List.foldl · _ _) (funext fun w => funext fun row => ?_)
  cases row[c]? with
  | none => exact (Nat.max_zero w).symm
  | some cell => rfl

theorem colWidth (h : FittedTo t fitted widths) {c : Nat}
    (hc : c < widths.length) : fitted.colWidth c = max widths[c] 1 := by
  have hmin : fitted.minColWidth[c]?.getD 0 = max widths[c] 1 := by
    rw [h.minColWidth, List.getElem?_map, List.getElem?_eq_getElem hc]
    rfl
  rw [colWidth_eq, hmin]
  refine Nat.le_antisymm ((foldl_max_le _).mpr ⟨by omega, ?_⟩) ?_
  · rw [h.cells]
    refine List.forall_mem_map.mpr fun row _ => ?_
    rw [List.getElem?_zipWith, List.getElem?_eq_getElem hc]
    cases row[c]? with
    | none => exact Nat.zero_le _
    | some cell =>
        have hfits := wrapCell_fits cell (max widths[c] 1)
        exact textWidth_le fun line hline =>
          Nat.le_trans (hfits line hline) (by omega)
  · have hstart := ((foldl_max_le _).mp (Nat.le_refl (fitted.cells.foldl
      (fun w row => max w ((row[c]?.map textWidth).getD 0))
      (max 1 (max widths[c] 1))))).1
    omega

theorem widths_eq (h : FittedTo t fitted widths)
    (hlen : widths.length = t.cols) :
    fitted.widths = widths.map (max · 1) := by
  have hcols : fitted.cols = widths.length := by rw [h.cols, hlen]
  refine List.ext_getElem
    (by rw [fitted.length_widths, List.length_map, hcols]) fun c h₁ _ => ?_
  rw [fitted.length_widths, hcols] at h₁
  simp only [Table.widths, List.getElem_map, List.getElem_range]
  exact h.colWidth h₁

/-- A cell keeps its chars but for the white space. -/
theorem ink_get (h : FittedTo t fitted widths)
    (hlen : widths.length = t.cols) (r c : Nat) :
    (fitted.get r c).map ink = (t.get r c).map ink := by
  rw [h.get]
  cases hcell : t.get r c with
  | none => rfl
  | some cell =>
      obtain ⟨row, hrow, hcol⟩ := Option.bind_eq_some_iff.mp hcell
      have hc := (List.getElem?_eq_some_iff.mp hcol).1
      rw [t.cells_cols row (List.mem_of_getElem? hrow), ← hlen] at hc
      rw [Option.bind_some, List.getElem?_eq_getElem hc, Option.map_some,
        Option.map_some, Option.map_some, ink_wrapCell]

/-- No line of a cell is wider than its column. -/
theorem line_le (h : FittedTo t fitted widths) {r c : Nat} {cell : List Char}
    (hcell : fitted.get r c = some cell) :
    ∀ line ∈ cellLines cell, line.length ≤ fitted.colWidth c := by
  rw [h.get] at hcell
  obtain ⟨old, -, hold⟩ := Option.bind_eq_some_iff.mp hcell
  obtain ⟨w, hw, rfl⟩ := Option.map_eq_some_iff.mp hold
  obtain ⟨hc, rfl⟩ := List.getElem?_eq_some_iff.mp hw
  intro line hline
  rw [h.colWidth hc]
  exact Nat.le_trans (wrapCell_fits old _ line hline) (by omega)

/-- A fitted table is fitted already. -/
theorem again (h : FittedTo t fitted widths) {again : Table}
    (hagain : FittedTo fitted again widths) : again = fitted := by
  refine Table.ext ?_ hagain.justify ?_ hagain.minRowHeight hagain.rows
    hagain.cols
  · rw [hagain.cells, h.cells, List.map_map]
    refine List.map_congr_left fun row _ => ?_
    refine List.ext_getElem (by simp) fun c _ _ => ?_
    simp only [Function.comp_apply, List.getElem_zipWith]
    exact wrapCell_wrapCell _ _
  · rw [hagain.minColWidth, h.minColWidth]

end FittedTo

-- == widths, read off

theorem lines_cons {rest : List Char} (h : '\n' ∉ line) :
    lines (line ++ '\n' :: rest) = stripCr line :: lines rest := by
  unfold lines
  rw [List.splitOn_append_cons_self_of_not_mem h]
  dsimp only
  obtain ⟨first, ls, hsplit⟩ :=
    List.exists_cons_of_ne_nil (List.splitOn_ne_nil '\n' rest)
  rw [hsplit, List.dropLast_cons_cons, List.map_cons, List.getLast?_cons_cons,
    List.cons_append]

theorem widths_pos (t : Table) : ∀ w ∈ t.widths, 1 ≤ w := by
  refine List.forall_mem_map.mpr fun c _ => ?_
  have hstart := ((foldl_max_le _).mp
    (Nat.le_of_eq (FittedTo.colWidth_eq t c).symm)).1
  omega

/-- The widths of a drawing's columns are read off its first border. -/
theorem gridColWidths_render (t : Table) : gridColWidths t.render =
    if t.cols = 0 then none else some t.widths := by
  obtain ⟨rest, hrest⟩ : ∃ rest,
      t.render = separator t.widths ++ '\n' :: rest :=
    ⟨_, by rw [Table.render, List.append_assoc, List.singleton_append]⟩
  have hborder : stripCr (separator t.widths) = separator t.widths := by
    rw [Table.separator_eq]
    exact stripCr_enclose (by decide)
  have hbare : ∀ p ∈ t.widths.map fun w => List.replicate (w + 2) '-',
      '+' ∉ p := by
    refine List.forall_mem_map.mpr fun w _ hmem => ?_
    exact absurd (List.eq_of_mem_replicate hmem) (by decide)
  have hgaps := Fields.gaps_enclose hbare
  have hlen := Fields.length_places_enclose hbare
  rw [← Table.separator_eq] at hgaps hlen
  rw [List.length_map, t.length_widths] at hlen
  have hplaces : charPositions '+' (separator t.widths) =
      Fields.places '+' 0 (separator t.widths) := rfl
  unfold gridColWidths
  rw [hrest, lines_cons (newline_separator _), hborder, List.find?_cons_of_pos
    (by simp [startsGrid_separator])]
  simp only [Option.bind_eq_bind, Option.bind_some, hplaces, hlen]
  by_cases hcols : t.cols = 0
  · rw [if_pos (by omega), if_pos hcols]
  · rw [if_neg (by omega), if_neg hcols]
    refine congrArg some ?_
    have hread := congrArg (List.map fun gap => max (gap - 3) 1) hgaps
    rw [List.map_map, List.map_map, List.map_map] at hread
    refine Eq.trans hread ?_
    refine (List.map_congr_left fun w hw => ?_).trans (List.map_id _)
    have hpos := widths_pos t w hw
    simp only [Function.comp_apply, List.length_replicate, id_eq]
    omega

-- == the law

/-- A list of one width for each column fits the table to it: the columns are
drawn as wide as wanted, but not of no width at all, each cell keeps its chars
but for the white space and has no line wider than its column, and fitting it
again changes nothing. If there are columns, their widths can be read off the
drawing. A list of another length changes nothing. -/
theorem fit_to_widths_law (t : Table) (widths : List Nat) :
    (widths.length ≠ t.cols → t.fitToWidths widths = t) ∧
      (widths.length = t.cols →
        (t.fitToWidths widths).widths = widths.map (max · 1) ∧
        (t.fitToWidths widths).rows = t.rows ∧
        (t.fitToWidths widths).cols = t.cols ∧
        (∀ r c, ((t.fitToWidths widths).get r c).map ink =
          (t.get r c).map ink) ∧
        (∀ r c cell, (t.fitToWidths widths).get r c = some cell →
          ∀ line ∈ cellLines cell,
            line.length ≤ (t.fitToWidths widths).colWidth c) ∧
        (t.fitToWidths widths).fitToWidths widths = t.fitToWidths widths ∧
        gridColWidths (t.fitToWidths widths).render =
          if t.cols = 0 then none else some (widths.map (max · 1))) := by
  constructor
  · intro hlen
    rw [Table.fitToWidths, if_pos hlen]
  · intro hlen
    have h := fittedTo hlen
    refine ⟨h.widths_eq hlen, h.rows, h.cols, h.ink_get hlen,
      fun r c cell hcell => h.line_le hcell, h.again (fittedTo ?_), ?_⟩
    · rw [h.cols, hlen]
    · rw [gridColWidths_render, h.cols, h.widths_eq hlen]

theorem fit_to_widths_law_sample :
    (sampleTable.fitToWidths [1, 0]).widths = [1, 1] :=
  ((fit_to_widths_law sampleTable [1, 0]).2 rfl).1

/-- Two widths for one column are no widths for it. -/
theorem not_fit_to_widths_law_spare :
    ((Table.new 1 1).fitToWidths [4, 4]).widths ≠ [4, 4].map (max · 1) := by
  decide

end Zmax.TextTable
