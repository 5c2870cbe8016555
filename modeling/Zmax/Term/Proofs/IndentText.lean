/-
What indent mode keeps of a text.

Line by line the invariant holds of what is out (`Inv.lines`), and the
closers of what is left open complete the brackets. The lines that are out
are scanned to what they were made of, each from where the line before
leaves it, so what holds of each line holds of the text (`Kept`).
-/
import Zmax.Core.Proofs.Merge
import Zmax.Term.Proofs.IndentMode

namespace Zmax.Parinfer

variable {opts : Options} {inString : Bool} {lines : List LineScan}
  {state : IndentState} {ds : List Done} {raws rendered : List Tendril}
  {text : Tendril}

-- == the lines

/-- Whether what is behind lines is inside a string. -/
def stringAfter : Bool → List Tendril → Bool
  | inString, [] => inString
  | inString, raw :: raws =>
      stringAfter (scanLine inString raw).endsInString raws

attribute [grind =] stringAfter

theorem scanLines_append (raws raws' : List Tendril) :
    scanLines inString (raws ++ raws') = scanLines inString raws
      ++ scanLines (stringAfter inString raws) raws' := by
  induction raws generalizing inString with
  | nil => rfl
  | cons raw raws ih => exact congrArg (scanLine inString raw :: ·) ih

theorem stringAfter_append (raws raws' : List Tendril) :
    stringAfter inString (raws ++ raws')
      = stringAfter (stringAfter inString raws) raws' := by
  induction raws generalizing inString with
  | nil => rfl
  | cons raw raws ih => exact ih

/-- The last line tells. -/
theorem stringAfter_eq (h : raws ≠ []) :
    (scanLines inString raws).getLast?.any LineScan.endsInString
      = stringAfter inString raws := by
  induction raws generalizing inString with
  | nil => exact absurd rfl h
  | cons raw raws ih =>
      cases raws with
      | nil => rfl
      | cons raw' raws =>
          have hrest := @ih (scanLine inString raw).endsInString
            (List.cons_ne_nil _ _)
          unfold scanLines at hrest ⊢
          unfold scanLines
          rw [List.getLast?_cons_cons]
          exact hrest

theorem Inv.step (hopts : opts.cursorLine = none)
    (h : Inv inString lines state ds) (raw : Tendril)
    (hpair : inString = true → (pair
      (Parinfer.brackets (scanLine inString raw).cells)
      (state.stack.map Prod.fst)).isSome) :
    ∃ ds', Inv (scanLine inString raw).endsInString
      (lines ++ [scanLine inString raw])
      (indentLine opts state (scanLine inString raw)) ds' := by
  obtain ⟨code, comment, t, hreads, -⟩ := scanLine_reads inString raw
  cases inString with
  | true => exact h.string hreads rfl (hpair rfl)
  | false =>
      by_cases hblank : (splitLine (scanLine false raw)).bodyEnd
          ≤ (stripLeadingClosers (scanLine false raw)
            (splitLine (scanLine false raw)).indentLen
            (splitLine (scanLine false raw)).bodyEnd).1
        ∧ (splitLine (scanLine false raw)).comment = []
      · exact h.blank hreads rfl hblank.1 hblank.2
      · exact h.inferred hopts hreads rfl hblank

/-- The invariant holds after any lines. -/
theorem Inv.run (hopts : opts.cursorLine = none)
    (h : Inv inString lines state ds)
    (hmatched : Matched opts (scanLines inString raws) state) :
    ∃ ds', Inv (stringAfter inString raws)
      (lines ++ scanLines inString raws)
      ((scanLines inString raws).foldl (indentLine opts) state) ds' := by
  induction raws generalizing inString lines state ds with
  | nil =>
      refine ⟨ds, ?_⟩
      unfold scanLines
      rwa [List.append_nil]
  | cons raw raws ih =>
      obtain ⟨hpair, hrest⟩ := hmatched
      obtain ⟨ds', hstep⟩ := h.step hopts raw hpair
      obtain ⟨ds'', hrun⟩ := ih hstep hrest
      refine ⟨ds'', ?_⟩
      rw [List.append_assoc] at hrun
      exact hrun

theorem Inv.start : Inv false [] ⟨[], [], none⟩ [] :=
  ⟨rfl, rfl, nofun, rfl, fun _ => nofun⟩

-- == the lines out

/-- A line that is out has no newline if its pieces and the line had none. -/
theorem newline_render {d : Done} {code : List Cell} {comment : Tendril}
    {t : Pos} (hreads : Reads d.line code comment t)
    (hraw : d.out.raw = chars d.line.cells)
    (hcode : d.out.code = chars d.kept) (hcomment : d.out.comment = comment)
    (hclosers : '\n' ∉ d.out.closers)
    (hpieces : '\n' ∉ d.out.indent ++ chars d.kept ++ d.out.gap)
    (hline : '\n' ∉ chars d.line.cells) : '\n' ∉ d.out.render := by
  have hcomment : '\n' ∉ d.out.comment := by
    intro hc
    refine hline ?_
    rw [hreads.cells, chars_append, chars_inert]
    exact List.mem_append_right _ (hcomment ▸ hc)
  rcases render_cases d.out with ⟨-, -, hrender⟩ | ⟨-, -, -, -, hrender⟩
    | ⟨-, hrender⟩
  · rw [hrender, hraw]
    exact hline
  · rw [hrender]
    exact nofun
  · rw [hrender, hcode]
    simp only [List.mem_append, not_or] at hpieces ⊢
    exact ⟨⟨⟨hpieces.1, hclosers⟩, hpieces.2⟩, hcomment⟩

theorem Made.newline_render {d : Done} {code : List Cell}
    {comment : Tendril} {t pos : Pos} (h : Made d code comment t pos)
    (hline : '\n' ∉ chars d.line.cells) : '\n' ∉ d.out.render :=
  Parinfer.newline_render h.reads h.raw h.code_eq h.comment_eq
    (fun hc => by cases h.closers _ hc) (h.newline hline) hline

/-- The lines that are out, scanned one after the other, are scanned from
where the lines they are made from started. -/
theorem scanLines_render (hlines : ds.map Done.line = scanLines inString raws)
    (hends : ∀ d ∈ ds, (scanLine d.line.startsInString
      d.out.render).endsInString = d.line.endsInString) :
    scanLines inString (ds.map fun d => d.out.render)
        = ds.map (fun d => scanLine d.line.startsInString d.out.render)
      ∧ stringAfter inString (ds.map fun d => d.out.render)
        = stringAfter inString raws := by
  induction ds generalizing inString raws with
  | nil =>
      cases raws with
      | nil => exact ⟨rfl, rfl⟩
      | cons raw raws => cases hlines
  | cons d ds ih =>
      cases raws with
      | nil => cases hlines
      | cons raw raws =>
          obtain ⟨hline, hlines⟩ := List.cons.inj hlines
          have hstarts : d.line.startsInString = inString :=
            congrArg LineScan.startsInString hline
          have hend := hends d List.mem_cons_self
          rw [hstarts, hline] at hend
          obtain ⟨hscan, hafter⟩ := ih hlines fun e he =>
            hends e (List.mem_cons_of_mem _ he)
          rw [List.map_cons, List.map_cons]
          unfold scanLines stringAfter
          rw [hstarts, hend]
          exact ⟨congrArg _ hscan, hafter⟩

/-- What lines have in common with the lines they are put out for: each
has the same besides brackets; and their brackets pair up. -/
structure Kept (raws rendered : List Tendril) : Prop where
  string : stringAfter false rendered = stringAfter false raws
  balanced : pair ((scanLines false rendered).flatMap
    fun l => brackets l.cells) [] = some []
  residue : (scanLines false rendered).map residue
    = (scanLines false raws).map residue
  newline : (∀ raw ∈ raws, '\n' ∉ raw) → ∀ line ∈ rendered, '\n' ∉ line

theorem chars_scanLine (inString : Bool) (raw : Tendril) :
    chars (scanLine inString raw).cells = raw := by
  obtain ⟨code, comment, t, hreads, hraw⟩ := scanLine_reads inString raw
  rw [hreads.cells, chars_append, chars_inert]
  exact hraw.symm

theorem chars_scanLines (inString : Bool) (raws : List Tendril) :
    (scanLines inString raws).map (fun l => chars l.cells) = raws := by
  induction raws generalizing inString with
  | nil => rfl
  | cons raw raws ih =>
      unfold scanLines
      rw [List.map_cons, chars_scanLine, ih]

theorem indentMode_kept (hopts : opts.cursorLine = none)
    (hstring : stringAfter false raws = false)
    (hsealed : ∀ o ∈ (indentMode (scanLines false raws) opts).1, Sealed o)
    (hmatched : Matched opts (scanLines false raws) ⟨[], [], none⟩) :
    Kept raws ((indentMode (scanLines false raws) opts).1.map
      OutLine.render) := by
  obtain ⟨ds, hrun⟩ := Inv.start.run hopts hmatched
  rw [hstring, List.nil_append] at hrun
  have hclosers : ∀ c ∈ (indentLines opts (scanLines false raws)).stack.map
      fun form => closerFor form.1, isClose c = true := by
    intro c hc
    obtain ⟨form, -, rfl⟩ := List.mem_map.mp hc
    exact isClose_closerFor form.1
  obtain ⟨ds', hinv⟩ := @Inv.push _ _ _ hrun _ hclosers [] (pair_all _)
  have hout : ds'.map Done.out
      = (indentMode (scanLines false raws) opts).1 := hinv.out
  rw [← hout] at hsealed ⊢
  rw [List.map_map]
  -- each line is scanned to what it was made of
  have hrender : ∀ d ∈ ds',
      (scanLine d.line.startsInString d.out.render).endsInString
          = d.line.endsInString
        ∧ Parinfer.residue (scanLine d.line.startsInString d.out.render)
          = Parinfer.residue d.line
        ∧ brackets (scanLine d.line.startsInString d.out.render).cells
          = d.brackets := by
    intro d hd
    obtain ⟨code, comment, t, pos, hmade⟩ := hinv.made d hd
    exact hmade.render (hsealed d.out (List.mem_map_of_mem hd))
  obtain ⟨hscan, hafter⟩ := scanLines_render hinv.lines
    fun d hd => (hrender d hd).1
  refine ⟨hafter, ?_, ?_, ?_⟩
  · show pair ((scanLines false (ds'.map fun d => d.out.render)).flatMap
      fun l => brackets l.cells) [] = some []
    rw [hscan, List.flatMap_map]
    exact (congrArg (pair · []) (List.flatMap_congr fun d hd =>
      (hrender d hd).2.2)).trans hinv.pairs
  · show (scanLines false (ds'.map fun d => d.out.render)).map _ = _
    rw [hscan, ← hinv.lines, List.map_map, List.map_map]
    exact List.map_congr_left fun d hd => (hrender d hd).2.1
  · intro hraws line hline
    obtain ⟨d, hd, rfl⟩ := List.mem_map.mp hline
    obtain ⟨code, comment, t, pos, hmade⟩ := hinv.made d hd
    refine hmade.newline_render (hraws _ ?_)
    rw [← chars_scanLines false raws, ← hinv.lines, List.map_map]
    exact List.mem_map_of_mem hd

-- == the text

/-- A text of lines, with a newline at its end or not. -/
def ended (hadNewline : Bool) (lines : List Tendril) : Tendril :=
  if hadNewline then joinLines lines ++ ['\n'] else joinLines lines

theorem scan_ended (hadNewline : Bool) (hne : raws ≠ [])
    (hnewline : ∀ raw ∈ raws, '\n' ∉ raw) :
    scan (ended hadNewline raws)
      = scanLines false (raws ++ if hadNewline then [[]] else []) := by
  have hsplit : (joinLines raws).splitOn '\n' = raws :=
    List.splitOn_intercalate '\n' hnewline hne
  unfold scan ended
  cases hadNewline with
  | true =>
      rw [if_pos rfl, if_pos rfl, List.splitOn_append_cons_self, hsplit]
      rfl
  | false => rw [if_neg nofun, if_neg nofun, hsplit, List.append_nil]

/-- The text of lines that are processed. -/
theorem exists_ended (text : Tendril) : ∃ raws hadNewline, raws ≠ []
    ∧ (∀ raw ∈ raws, '\n' ∉ raw) ∧ text = ended hadNewline raws
    ∧ bodyLines text = scanLines false raws
    ∧ (text.getLast? == some '\n') = hadNewline := by
  let body := if text.getLast? = some '\n' then text.dropLast else text
  refine ⟨body.splitOn '\n', text.getLast? == some '\n',
    List.splitOn_ne_nil _ _, Merge.no_newline, ?_, rfl, rfl⟩
  have hjoin : joinLines (body.splitOn '\n') = body :=
    List.intercalate_splitOn '\n'
  unfold ended
  rw [hjoin]
  by_cases hlast : text.getLast? = some '\n'
  · rw [if_pos (beq_iff_eq.mpr hlast), show body = _ from if_pos hlast]
    exact (List.dropLast_append_getLast? _ hlast).symm
  · rw [if_neg (mt beq_iff_eq.mp hlast)]
    exact (if_neg hlast).symm

/-- A newline at the end starts a line with nothing in it. -/
theorem Kept.ended (h : Kept raws rendered)
    (hstring : stringAfter false raws = false) :
    Kept (raws ++ [[]]) (rendered ++ [[]]) := by
  have hafter := h.string.trans hstring
  refine ⟨?_, ?_, ?_, ?_⟩
  · rw [stringAfter_append, stringAfter_append, h.string]
  · rw [scanLines_append, List.flatMap_append, pair_append, h.balanced,
      hafter]
    rfl
  · rw [scanLines_append, scanLines_append, List.map_append,
      List.map_append, h.residue, h.string]
  · intro hraws line hline
    rcases List.mem_append.mp hline with hline | hline
    · exact h.newline (fun raw hraw => hraws raw
        (List.mem_append_left _ hraw)) line hline
    · rw [List.mem_singleton.mp hline]
      exact nofun

theorem Kept.ne_nil (h : Kept raws rendered) (hne : raws ≠ []) :
    rendered ≠ [] := by
  rintro rfl
  obtain ⟨raw, raws, rfl⟩ := List.exists_cons_of_ne_nil hne
  cases h.residue

theorem stringAfter_of_validate {b : Bool} (hne : raws ≠ [])
    (h : validate (scanLines false raws) = .ok b) :
    stringAfter false raws = false := by
  rw [← stringAfter_eq hne]
  unfold validate at h
  cases hvalid : validateLines 0 (scanLines false raws) ⟨[], false⟩ with
  | error e =>
      rw [hvalid] at h
      cases h
  | ok self =>
      rw [hvalid] at h
      refine Bool.eq_false_iff.mpr fun hstring => ?_
      cases (if_pos hstring).symm.trans h

theorem process_indent (h : (process text .indent opts).error = none) :
    (∃ b, validate (bodyLines text) = .ok b)
      ∧ (process text .indent opts).text
        = ended (text.getLast? == some '\n')
          ((indentMode (bodyLines text) opts).1.map OutLine.render) := by
  have hbody : scan (if (text.getLast? == some '\n') = true
      then text.dropLast else text) = bodyLines text := by
    unfold bodyLines
    simp only [beq_iff_eq]
  unfold process at h ⊢
  dsimp only at h ⊢
  rw [hbody] at h ⊢
  cases hvalid : validate (bodyLines text) with
  | error e =>
      rw [hvalid] at h
      cases h
  | ok b => exact ⟨⟨b, rfl⟩, rfl⟩

/-- What indent mode puts out has its brackets balanced and in each line
all that was there besides brackets, if nothing comes to be behind a
backslash that escapes it and the lines that are copied close what is
open. -/
theorem indent_mode_law {text : Tendril} {opts : Options}
    (hcursor : opts.cursorLine = none)
    (herror : (process text .indent opts).error = none)
    (hsealed : ∀ o ∈ (indentMode (bodyLines text) opts).1, Sealed o)
    (hmatched : Matched opts (bodyLines text) ⟨[], [], none⟩) :
    validate (scan (process text .indent opts).text) = .ok true
      ∧ (scan (process text .indent opts).text).map residue
        = (scan text).map residue := by
  obtain ⟨⟨b, hvalid⟩, hprocess⟩ := process_indent herror
  obtain ⟨raws, hadNewline, hne, hnewline, htext, hbody, hlast⟩ :=
    exists_ended text
  rw [hbody] at hsealed hmatched hvalid hprocess
  rw [hlast] at hprocess
  have hstring := stringAfter_of_validate hne hvalid
  have hkept := indentMode_kept hcursor hstring hsealed hmatched
  have hall : Kept (raws ++ if hadNewline then [[]] else [])
      ((indentMode (scanLines false raws) opts).1.map OutLine.render
        ++ if hadNewline then [[]] else []) := by
    cases hadNewline with
    | true => exact hkept.ended hstring
    | false =>
        rw [if_neg nofun, List.append_nil, List.append_nil]
        exact hkept
  rw [hprocess, htext, scan_ended hadNewline (hkept.ne_nil hne)
    (hkept.newline hnewline), scan_ended hadNewline hne hnewline]
  refine ⟨validate_ok hall.balanced ?_, hall.residue⟩
  rw [stringAfter_eq (List.append_ne_nil_of_left_ne_nil
    (hkept.ne_nil hne) _), stringAfter_append, hkept.string, hstring]
  cases hadNewline <;> rfl

/-- A string over two lines, with a closer in it and one behind it, and
code that is left open. -/
def stringText : Tendril :=
  "(def (s) \"a )\n b\" c)\n  ; more\n\n(+ a [b\n".toList

theorem indent_mode_law_string :
    validate (scan (process stringText .indent ⟨none, none⟩).text) = .ok true
      ∧ (scan (process stringText .indent ⟨none, none⟩).text).map residue
        = (scan stringText).map residue :=
  indent_mode_law rfl (by decide) (by decide) (by decide)

/-- The space between the closer and the comment goes with the trail, and
the line has one less besides brackets: `(a ) ; c` comes out as
`(a) ; c`. -/
theorem not_indent_mode_law_comment :
    (process "(a ) ; c".toList .indent ⟨none, none⟩).error = none
      ∧ (scan (process "(a ) ; c".toList .indent ⟨none, none⟩).text).map
          (fun l => Text.trim (payload l.cells))
        ≠ (scan "(a ) ; c".toList).map
          (fun l => Text.trim (payload l.cells)) := by
  decide

end Zmax.Parinfer
